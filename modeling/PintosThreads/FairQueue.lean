/-
PintosThreads/FairQueue.lean

Waiting in a queue that is kept in the order of priorities.

Who arrives is inserted in front of everybody of less priority, and the front
is served.  The priorities may be others at each arrival; all that is asked is
that the queue stands in the order of the priorities that an insertion goes by.
Then the number of those in front of a member `t` is a balance: it grows by one
with each arrival of higher priority, falls by one with each service, and does
not change otherwise (`Plays.balance`).  So nobody is passed over for ever by
equals.  Library module: nothing here is about the kernel.
-/
import PintosThreads.Intrusive
import Mathlib.Data.List.Sort
import Mathlib.Order.Defs.LinearOrder

namespace FairQueue

variable {α β : Type*} [DecidableEq α] [LinearOrder β]
variable {prio : α → β} {q q' : List α} {t a b : α}

/-- What can happen to a queue. -/
inductive Event (α β : Type*)
  | arrive (prio : α → β) (a : α)
  | serve

/-- A member with `prio` comes to a queue, in which those of higher priority stand in front. -/
def insert (prio : α → β) (a : α) (q : List α) : List α :=
  q.orderedInsert (fun x y => prio y < prio x) a

/-- Somebody is served. -/
def Event.isServe : Event α β → Bool
  | .arrive _ _ => false
  | .serve => true

/-- Somebody arrives who has higher priority than `t`. -/
def Event.overtakes (t : α) : Event α β → Bool
  | .arrive prio a => prio t < prio a
  | .serve => false

/-- `Plays t q evs q'`: the events `evs` make `q'` of `q`, member `t` is in the queue all the time,
and each insertion finds the queue in the order of the priorities. -/
inductive Plays (t : α) : List α → List (Event α β) → List α → Prop
  | nil {q : List α} : t ∈ q → Plays t q [] q
  | arrive {q q' : List α} {prio : α → β} {a : α} {evs : List (Event α β)} : t ∈ q →
      a ∉ q → (q.Pairwise fun x y => prio y ≤ prio x) → Plays t (insert prio a q) evs q' →
      Plays t q (.arrive prio a :: evs) q'
  | serve {q q' : List α} {evs : List (Event α β)} : t ∈ q → Plays t q.tail evs q' →
      Plays t q (.serve :: evs) q'

omit [DecidableEq α] in
theorem perm_insert : (insert prio a q).Perm (a :: q) :=
  List.perm_orderedInsert _ _ _

omit [DecidableEq α] in
theorem nodup_insert (hq : q.Nodup) (ha : a ∉ q) : (insert prio a q).Nodup :=
  perm_insert.nodup_iff.mpr (List.nodup_cons.mpr ⟨ha, hq⟩)

/-- **An arrival** moves `t` back exactly if it has higher priority. -/
theorem idxOf_insert (hs : q.Pairwise fun x y => prio y ≤ prio x) (ht : t ∈ q) (ha : a ≠ t) :
    (insert prio a q).idxOf t = q.idxOf t + if prio t < prio a then 1 else 0 := by
  induction q with
  | nil => cases ht
  | cons b q ih =>
      obtain ⟨hb, hs⟩ := List.pairwise_cons.mp hs
      rw [insert, List.orderedInsert_cons]
      split
      case isTrue hlt =>
        -- whoever is in front of `b` is in front of `t`
        have hle : prio t ≤ prio b := by
          rcases List.mem_cons.mp ht with rfl | ht
          · exact le_rfl
          · exact hb t ht
        rw [List.idxOf_cons_ne _ ha, if_pos (hle.trans_lt hlt)]
      case isFalse hlt =>
        obtain rfl | hbt := eq_or_ne b t
        · rw [List.idxOf_cons_self, List.idxOf_cons_self, if_neg hlt]
        · have ht : t ∈ q := (List.mem_cons.mp ht).resolve_left hbt.symm
          rw [List.idxOf_cons_ne _ hbt, List.idxOf_cons_ne _ hbt]
          have hq := ih hs ht
          rw [insert] at hq
          omega

/-- **A service** of somebody else moves `t` to the front by one. -/
theorem idxOf_tail (hq : q.Nodup) (ht : t ∈ q.tail) : q.tail.idxOf t + 1 = q.idxOf t := by
  cases q with
  | nil => cases ht
  | cons b q =>
      have hbt : b ≠ t := by
        rintro rfl
        exact (List.nodup_cons.mp hq).1 ht
      rw [List.idxOf_cons_ne _ hbt]
      rfl

omit [DecidableEq α] in
theorem Plays.mem {evs : List (Event α β)} (h : Plays t q evs q') : t ∈ q := by
  cases h <;> assumption

/-- **The balance**: who was in front of `t` at first, and who has overtaken it since, has been
served or is still in front. -/
theorem Plays.balance {evs : List (Event α β)} (h : Plays t q evs q') (hq : q.Nodup) :
    q'.idxOf t + evs.countP Event.isServe = q.idxOf t + evs.countP (Event.overtakes t) := by
  induction h with
  | nil => rfl
  | @arrive q q' prio a evs ht ha hs _ ih =>
      have hi := ih (nodup_insert hq ha)
      have hat : a ≠ t := by
        rintro rfl
        exact ha ht
      rw [idxOf_insert hs ht hat] at hi
      simp only [List.countP_cons, Event.isServe, Event.overtakes, decide_eq_true_eq] at hi ⊢
      simp only [Bool.false_eq_true, if_false]
      omega
  | serve ht h ih =>
      have hi := ih hq.tail
      have ht := idxOf_tail hq h.mem
      simp only [List.countP_cons, Event.isServe, Event.overtakes] at hi ⊢
      simp only [Bool.false_eq_true, if_false, if_true]
      omega

omit [DecidableEq α] in
/-- The events of one game after those of another. -/
theorem Plays.append {evs evs' : List (Event α β)} {q'' : List α} (h : Plays t q evs q')
    (h' : Plays t q' evs' q'') : Plays t q (evs ++ evs') q'' := by
  induction h with
  | nil => exact h'
  | arrive ht ha hs _ ih => exact .arrive ht ha hs (ih h')
  | serve ht _ ih => exact .serve ht (ih h')

omit [DecidableEq α] in
theorem nodup_of_arrivals {us : List α}
    (h : (us.foldl (fun q a => insert prio a q) q).Nodup) : q.Nodup := by
  induction us generalizing q with
  | nil => exact h
  | cons b us ih => exact (List.nodup_cons.mp (perm_insert.nodup_iff.mp (ih h))).2

omit [DecidableEq α] in
/-- **Several arrivals**, one after the other. -/
theorem Plays.arrivals {us : List α} (ht : t ∈ q) (hs : q.Pairwise fun x y => prio y ≤ prio x)
    (hq : (us.foldl (fun q a => insert prio a q) q).Nodup) :
    Plays t q (us.map (.arrive prio)) (us.foldl (fun q a => insert prio a q) q) := by
  induction us generalizing q with
  | nil => exact .nil ht
  | cons a us ih =>
      have ha := (List.nodup_cons.mp (perm_insert.nodup_iff.mp (nodup_of_arrivals hq))).1
      have hta : t ∈ insert prio a q := perm_insert.mem_iff.mpr (.tail _ ht)
      exact .arrive ht ha hs (ih hta (Intrusive.pairwise_orderedInsert prio a hs) hq)

omit [DecidableEq α] [LinearOrder β] in
theorem countP_isServe_arrivals (us : List α) :
    (us.map (Event.arrive prio)).countP Event.isServe = 0 := by
  rw [List.countP_map, List.countP_eq_zero]
  intro u _
  exact Bool.false_ne_true

omit [DecidableEq α] in
/-- Who is not of higher priority does not overtake `t`. -/
theorem countP_overtakes_arrivals {us : List α} (h : ∀ u ∈ us, prio u ≤ prio t) :
    (us.map (Event.arrive prio)).countP (Event.overtakes t) = 0 := by
  rw [List.countP_map, List.countP_eq_zero]
  intro u hu ho
  exact (of_decide_eq_true ho).not_ge (h u hu)

end FairQueue
