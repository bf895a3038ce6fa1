/-
PintosThreads/Refresh.lean

`refresh_priority`, the undoing of donations.

Read as sequences, the lists that it traverses are those of the locks that a
thread holds and of their waiters.  Its loops end, and they leave the greatest
of the base priority and the priorities of those waiters, which is what the
donation equation asks for (`refreshPriority_max`).  Nothing of this depends on
an order, or on the priority that was there before.

Without one of its locks a thread has the equation again, and nobody else's
equation reads its priority as long as it waits for nothing
(`refresh_restores_donation`).
-/
import PintosThreads.RefreshedPriority
import PintosThreads.Writes
import PintosThreads.LockQueues
import PintosThreads.Runs
import Mathlib.Algebra.Order.BigOperators.Group.List

namespace Pintos

open Intrusive

variable {cfg : Config} {fuel : ℕ} {k k' : Kernel} {t : ThreadPtr} {l : LockPtr}
variable {waiters : LockPtr → List ThreadPtr} {locks : List LockPtr}

/-! ### The loops end -/

/-- The inner loop, over waiters `ts` that are still to come. -/
theorem refreshWaiters_ends : ∀ (ts : List ThreadPtr) {k : Kernel} {a : Node ListPtr ThreadPtr}
    {fuel : ℕ}, Seg k.elems a ts (.tail (.lockWaiters l)) → ts.length < fuel →
      ∃ k', refreshWaiters cfg t l fuel k (startOf (.tail (.lockWaiters l)) ts) = some k'
  | _, _, _, 0, _, hf => absurd hf (Nat.not_lt_zero _)
  | [], k, _, fuel + 1, _, _ => ⟨k, by simp [refreshWaiters, startOf]⟩
  | u :: ts, k, _, fuel + 1, hs, hf => by
      have hn : (.item u : Node ListPtr ThreadPtr) ≠ .tail (.lockWaiters l) := (by rintro ⟨⟩)
      rw [startOf, refreshWaiters_succ hn, hs.2.2.next_eq, Option.bind_some]
      -- a priority is written, and no link
      have hs' : Seg (k.setPriority t (max (k.thr t).priority (k.priorityAt cfg (.item u)))).elems
          (.item u) ts (.tail (.lockWaiters l)) := hs.2.2
      exact refreshWaiters_ends ts hs' (Nat.lt_of_succ_lt_succ hf)

theorem refreshLock_ends {ts : List ThreadPtr} (hl : IsList k.elems (.lockWaiters l) ts)
    (hf : ts.length < fuel) : ∃ k', refreshLock cfg fuel t k l = some k' := by
  rw [refreshLock]
  split
  case isTrue => exact ⟨k, rfl⟩
  case isFalse =>
    rw [hl.seg.next_eq, Option.bind_some]
    exact refreshWaiters_ends ts hl.seg hf

/-- The outer loop, over locks `ls` that are still to come. -/
theorem refreshLocks_ends : ∀ (ls : List LockPtr) {k : Kernel} {a : Node ThreadPtr LockPtr}
    {fuel' : ℕ}, Seg k.lockElems a ls (.tail t) →
      (∀ l ∈ ls, IsList k.elems (.lockWaiters l) (waiters l) ∧ (waiters l).length < fuel) →
      ls.length < fuel' →
        ∃ k', refreshLocks cfg fuel t fuel' k (startOf (.tail t) ls) = some k'
  | _, _, _, 0, _, _, hf => absurd hf (Nat.not_lt_zero _)
  | [], k, _, fuel' + 1, _, _, _ => ⟨k, by simp [refreshLocks, startOf]⟩
  | l :: ls, k, _, fuel' + 1, hs, hw, hf => by
      have hl := hw l List.mem_cons_self
      obtain ⟨k₁, h₁⟩ : ∃ k₁, refreshLock cfg fuel t k l = some k₁ := refreshLock_ends hl.1 hl.2
      obtain ⟨p, rfl, -⟩ := refreshLock_isGreatest h₁
      have hs' : Seg (k.setPriority t p).lockElems (.item l) ls (.tail t) := hs.2.2
      obtain ⟨k', h'⟩ := refreshLocks_ends ls hs' (fun m hm => hw m (List.mem_cons_of_mem l hm))
        (Nat.lt_of_succ_lt_succ hf)
      refine ⟨k', ?_⟩
      show refreshLocks cfg fuel t (fuel' + 1) k (.item l) = some k'
      rw [refreshLocks, h₁, Option.bind_eq_bind, Option.bind_some, hs'.next_eq]
      exact h'

/-! ### What they compute -/

/-- The priorities of the waiters of the locks. -/
def waitersPriorities (k : Kernel) (waiters : LockPtr → List ThreadPtr) (locks : List LockPtr) :
    Set ℤ :=
  {p | ∃ l ∈ locks, ∃ w ∈ waiters l, p = (k.thr w).priority}

/-- The priority is the greatest of the base priority and the priorities of the waiters of the
locks that the thread holds. -/
def HolderEq (k : Kernel) (waiters : LockPtr → List ThreadPtr) (locks : List LockPtr)
    (t : ThreadPtr) : Prop :=
  IsGreatest (insert (k.thr t).basePriority (waitersPriorities k waiters locks)) (k.thr t).priority

/-- The lists of the locks held by thread `t` and of their waiters are these sequences. -/
structure LocksOf (k : Kernel) (waiters : LockPtr → List ThreadPtr) (t : ThreadPtr)
    (locks : List LockPtr) : Prop where
  held : IsList k.lockElems t locks
  waiters : ∀ l ∈ locks, IsList k.elems (.lockWaiters l) (waiters l)

theorem LocksOf.waiterPriorities (L : LocksOf k waiters t locks) (hl : l ∈ locks)
    (ht : t ∉ waiters l) :
    waiterPriorities cfg k t l = {p | ∃ w ∈ waiters l, p = (k.thr w).priority} := by
  ext p
  simp only [Pintos.waiterPriorities, (L.waiters l hl).visits, Set.mem_ofPred_eq]
  constructor
  · rintro ⟨-, ⟨w, hw, rfl⟩, -, hp⟩
    exact ⟨w, hw, hp⟩
  · rintro ⟨w, hw, hp⟩
    refine ⟨.item w, ⟨w, hw, rfl⟩, ?_, hp⟩
    rintro ⟨⟩
    exact ht hw

theorem LocksOf.donations (L : LocksOf k waiters t locks) (ht : ∀ l ∈ locks, t ∉ waiters l) :
    donations cfg k t = waitersPriorities k waiters locks := by
  ext p
  simp only [Pintos.donations, L.held.visits, Node.item.injEq, Set.mem_ofPred_eq,
    waitersPriorities, exists_eq_right']
  refine exists_congr fun l => and_congr_right fun hl => ?_
  rw [L.waiterPriorities hl (ht l hl)]
  rfl

/-- A number of iterations that is enough for every traversal. -/
def traversalBound (waiters : LockPtr → List ThreadPtr) (locks : List LockPtr) : ℕ :=
  locks.length + (locks.map fun l => (waiters l).length).sum

/-- **`refresh_priority`**, on well-formed lists, ends with the greatest of the base priority and
the priorities of the waiters, and changes nothing else. -/
theorem refreshPriority_max (L : LocksOf k waiters t locks) (ht : ∀ l ∈ locks, t ∉ waiters l) :
    ∃ p, IsGreatest (insert (k.thr t).basePriority (waitersPriorities k waiters locks)) p ∧
      ∀ fuel, traversalBound waiters locks < fuel →
        refreshPriority cfg fuel k t = some (k.setPriority t p) := by
  have hends : ∀ fuel, traversalBound waiters locks < fuel →
      ∃ p, refreshPriority cfg fuel k t = some (k.setPriority t p) ∧
        IsGreatest (insert (k.thr t).basePriority (waitersPriorities k waiters locks)) p := by
    intro fuel hf
    have hw : ∀ l ∈ locks, IsList k.elems (.lockWaiters l) (waiters l) ∧
        (waiters l).length < fuel := by
      intro l hl
      have hle : (waiters l).length ≤ (locks.map fun l => (waiters l).length).sum :=
        List.single_le_sum (fun _ _ => Nat.zero_le _) _ (List.mem_map_of_mem hl)
      rw [traversalBound] at hf
      exact ⟨L.waiters l hl, by omega⟩
    have hs : Seg (k.setPriority t (k.thr t).basePriority).lockElems (.head t) locks (.tail t) :=
      L.held.seg
    obtain ⟨k', h'⟩ : ∃ k', refreshLocks cfg fuel t fuel (k.setPriority t (k.thr t).basePriority)
        (startOf (.tail t) locks) = some k' :=
      refreshLocks_ends locks hs hw ((Nat.le_add_right _ _).trans_lt hf)
    have h' : refreshPriority cfg fuel k t = some k' := by
      show (Links.next _ _).bind _ = some k'
      rw [← h']
      exact congrArg (Option.bind · _) hs.next_eq
    obtain ⟨p, rfl, hp⟩ := refreshPriority_isGreatest h'
    rw [L.donations ht] at hp
    exact ⟨p, h', hp⟩
  obtain ⟨p, -, hp⟩ := hends _ (Nat.lt_succ_self _)
  refine ⟨p, hp, fun fuel hf => ?_⟩
  obtain ⟨p', h', hp'⟩ := hends fuel hf
  rwa [hp.unique hp']

/-! ### Releasing a lock -/

theorem waitersPriorities_congr {locks' : List LockPtr} {waiters' : LockPtr → List ThreadPtr}
    (hl : locks.Perm locks') (hw : ∀ l ∈ locks, (waiters l).Perm (waiters' l))
    (hp : ∀ l ∈ locks, ∀ w ∈ waiters l, (k'.thr w).priority = (k.thr w).priority) :
    waitersPriorities k' waiters' locks' = waitersPriorities k waiters locks := by
  ext p
  constructor
  · rintro ⟨l, hl', w, hw', rfl⟩
    have hl' := hl.mem_iff.mpr hl'
    have hw' := (hw l hl').mem_iff.mpr hw'
    exact ⟨l, hl', w, hw', hp l hl' w hw'⟩
  · rintro ⟨l, hl', w, hw', rfl⟩
    exact ⟨l, hl.mem_iff.mp hl', w, (hw l hl').mem_iff.mp hw', (hp l hl' w hw').symm⟩

/-- A priority is no news to those whose locks the thread does not wait for. -/
theorem waitersPriorities_setPriority (p : ℤ) (ht : ∀ l ∈ locks, t ∉ waiters l) :
    waitersPriorities (k.setPriority t p) waiters locks = waitersPriorities k waiters locks := by
  refine waitersPriorities_congr (List.Perm.refl _) (fun _ _ => List.Perm.refl _) ?_
  intro l hl w hw
  have hne : w ≠ t := by
    rintro rfl
    exact ht l hl hw
  show (Function.update k.thr t _ w).priority = _
  rw [Function.update_of_ne hne]

/-- The kernel after `list_remove` of a lock from the list of the locks held. -/
def Kernel.setLockElems (k : Kernel) (e : Links ThreadPtr LockPtr) : Kernel :=
  { k with lockElems := e }

/-- One list loses a lock, the others stay. -/
theorem LocksOf.remove {held : ThreadPtr → List LockPtr} {o : ThreadPtr}
    (L : ∀ t, isThread k t → LocksOf k waiters t (held t)) (ho : isThread k o) (hl : l ∈ held o) :
    ∃ e, k.lockElems.listRemove (.item l) = some e ∧ ∀ t, isThread k t →
      LocksOf (k.setLockElems e) waiters t (Function.update held o ((held o).erase l) t) := by
  obtain ⟨ls, ms, hls⟩ := List.append_of_mem hl
  have hlist := (L o ho).held
  rw [hls] at hlist
  have hnot : l ∉ ls := fun h => List.nodup_append.mp hlist.nodup |>.2.2 l h l List.mem_cons_self rfl
  have herase : (held o).erase l = ls ++ ms := by
    rw [hls, List.erase_append_right _ hnot, List.erase_cons_head]
  obtain ⟨e, he, hrest, hoff⟩ := hlist.listRemove
  refine ⟨e, he, fun t ht => ?_⟩
  obtain rfl | hto := eq_or_ne t o
  · rw [Function.update_self, herase]
    refine ⟨hrest, fun m hm => (L t ht).waiters m ?_⟩
    rw [hls]
    exact (List.sublist_append_right [l] ms).append_left ls |>.mem hm
  · rw [Function.update_of_ne hto]
    refine ⟨(L t ht).held.congr hoff ?_, (L t ht).waiters⟩
    intro n hn
    refine Within.disjoint hto (fun m hm hm' => hto ?_) hn
    have hm : m ∈ held o := by
      rw [hls]
      exact (List.sublist_append_right [l] ms).append_left ls |>.mem hm
    exact (L t ht).held.disjoint (L o ho).held hm' hm

/-- Who holds no lock has the base priority. -/
theorem holderEq_nil : HolderEq k waiters [] t ↔ (k.thr t).priority = (k.thr t).basePriority := by
  have hempty : waitersPriorities k waiters [] = ∅ := by
    ext p
    simp [waitersPriorities]
  rw [HolderEq, hempty, insert_empty_eq]
  exact ⟨fun h => h.1, fun h => h ▸ isGreatest_singleton⟩

theorem holderEq_iff_setPriority {p : ℤ} {u : ThreadPtr} (ht : ∀ l ∈ locks, t ∉ waiters l)
    (hu : u ≠ t) : HolderEq (k.setPriority t p) waiters locks u ↔ HolderEq k waiters locks u := by
  have hthr : (k.setPriority t p).thr u = k.thr u := Function.update_of_ne hu _ _
  rw [HolderEq, HolderEq, waitersPriorities_setPriority p ht, hthr]

theorem holderEq_setPriority {p : ℤ} (ht : ∀ l ∈ locks, t ∉ waiters l)
    (hp : IsGreatest (insert (k.thr t).basePriority (waitersPriorities k waiters locks)) p) :
    HolderEq (k.setPriority t p) waiters locks t := by
  rw [HolderEq, waitersPriorities_setPriority p ht, setPriority_thr_self]
  exact hp

/-- **`refresh_priority`**.  (a) Its loops end, with the greatest of the base priority and the
priorities of the waiters of the locks held, and change nothing but the priority; whatever the order
of the lists and the previous priority are, the result is the same.  (b) Where the donation equation
holds for all threads, it holds again for all of them when the running thread, which waits for none
of the locks, has lost one of its locks and refreshed its priority. -/
theorem refresh_restores_donation (cfg : Config) (k : Kernel)
    (waiters : LockPtr → List ThreadPtr) :
    (∀ (t : ThreadPtr) (locks : List LockPtr),
      LocksOf k waiters t locks → (∀ l ∈ locks, t ∉ waiters l) →
      ∃ p, IsGreatest (insert (k.thr t).basePriority (waitersPriorities k waiters locks)) p ∧
        (∀ fuel, traversalBound waiters locks < fuel →
          refreshPriority cfg fuel k t = some (k.setPriority t p)) ∧
        ∀ (k₂ : Kernel) (waiters₂ : LockPtr → List ThreadPtr) (locks₂ : List LockPtr),
          LocksOf k₂ waiters₂ t locks₂ → locks.Perm locks₂ →
          (∀ l ∈ locks, (waiters l).Perm (waiters₂ l)) →
          (k₂.thr t).basePriority = (k.thr t).basePriority →
          (∀ l ∈ locks, ∀ w ∈ waiters l, (k₂.thr w).priority = (k.thr w).priority) →
          ∀ fuel, traversalBound waiters₂ locks₂ < fuel →
            refreshPriority cfg fuel k₂ t = some (k₂.setPriority t p)) ∧
    ∀ (held : ThreadPtr → List LockPtr) (l : LockPtr),
      (∀ t, isThread k t → LocksOf k waiters t (held t)) → isThread k k.cur →
      (∀ t, isThread k t → ∀ m ∈ held t, k.cur ∉ waiters m) →
      (∀ t, isThread k t → HolderEq k waiters (held t) t) → l ∈ held k.cur →
      ∃ e p, k.lockElems.listRemove (.item l) = some e ∧
        (∀ fuel, traversalBound waiters ((held k.cur).erase l) < fuel →
          refreshPriority cfg fuel (k.setLockElems e) k.cur =
            some ((k.setLockElems e).setPriority k.cur p)) ∧
        ∀ t, isThread k t →
          LocksOf ((k.setLockElems e).setPriority k.cur p) waiters t
            (Function.update held k.cur ((held k.cur).erase l) t) ∧
          HolderEq ((k.setLockElems e).setPriority k.cur p) waiters
            (Function.update held k.cur ((held k.cur).erase l) t) t := by
  constructor
  · intro t locks L ht
    obtain ⟨p, hp, hends⟩ := refreshPriority_max L ht
    refine ⟨p, hp, hends, ?_⟩
    intro k₂ waiters₂ locks₂ L₂ hlocks hwaiters hbase hprio
    have ht₂ : ∀ l ∈ locks₂, t ∉ waiters₂ l := fun l hl h =>
      ht l (hlocks.mem_iff.mpr hl) ((hwaiters l (hlocks.mem_iff.mpr hl)).mem_iff.mpr h)
    obtain ⟨p₂, hp₂, hends₂⟩ := refreshPriority_max L₂ ht₂
    rw [hbase, waitersPriorities_congr hlocks hwaiters hprio] at hp₂
    rwa [hp.unique hp₂]
  · intro held l L hcur hwait heq hl
    obtain ⟨e, he, L'⟩ := LocksOf.remove L hcur hl
    have hsub : ∀ t m, m ∈ Function.update held k.cur ((held k.cur).erase l) t → m ∈ held t := by
      intro t m hm
      obtain rfl | ht := eq_or_ne t k.cur
      · rw [Function.update_self] at hm
        exact List.mem_of_mem_erase hm
      · rwa [Function.update_of_ne ht] at hm
    have hno : ∀ t, isThread k t → ∀ m ∈ Function.update held k.cur ((held k.cur).erase l) t,
        k.cur ∉ waiters m := fun t ht m hm => hwait t ht m (hsub t m hm)
    have Lcur := L' k.cur hcur
    have hnocur := hno k.cur hcur
    rw [Function.update_self] at Lcur hnocur
    obtain ⟨p, hp, hends⟩ := refreshPriority_max Lcur hnocur
    refine ⟨e, p, he, hends, fun t ht => ⟨⟨(L' t ht).held, (L' t ht).waiters⟩, ?_⟩⟩
    obtain rfl | htc := eq_or_ne t k.cur
    · rw [Function.update_self]
      exact holderEq_setPriority hnocur hp
    · -- the equation of another thread reads nothing that has changed
      rw [holderEq_iff_setPriority (hno t ht) htc, Function.update_of_ne htc]
      exact heq t ht

/-- The initial thread holds two locks, for one of which threads 1 and 2 wait, and thread 3 for the
other. -/
def twoLocks : Kernel :=
  { boot priorityConfig with
    nextThread := 4
    thr := fun t => { Thread.blank with
      basePriority := [31, 40, 35, 50].getD t 0, priority := [50, 40, 35, 50].getD t 0 }
    elems :=
      { next := fun
          | .head (.lockWaiters (.user 0)) => some (.item 1)
          | .item 1 => some (.item 2)
          | .item 2 => some (.tail (.lockWaiters (.user 0)))
          | .head (.lockWaiters (.user 1)) => some (.item 3)
          | .item 3 => some (.tail (.lockWaiters (.user 1)))
          | _ => none
        prev := fun
          | .item 1 => some (.head (.lockWaiters (.user 0)))
          | .item 2 => some (.item 1)
          | .tail (.lockWaiters (.user 0)) => some (.item 2)
          | .item 3 => some (.head (.lockWaiters (.user 1)))
          | .tail (.lockWaiters (.user 1)) => some (.item 3)
          | _ => none }
    lockElems :=
      { next := fun
          | .head 0 => some (.item (.user 0))
          | .item (.user 0) => some (.item (.user 1))
          | .item (.user 1) => some (.tail 0)
          | .head t => some (.tail t)
          | _ => none
        prev := fun
          | .item (.user 0) => some (.head 0)
          | .item (.user 1) => some (.item (.user 0))
          | .tail 0 => some (.item (.user 1))
          | .tail t => some (.head t)
          | _ => none } }

def twoLocksWaiters : LockPtr → List ThreadPtr
  | .user 0 => [1, 2]
  | .user 1 => [3]
  | _ => []

def twoLocksHeld : ThreadPtr → List LockPtr
  | 0 => [.user 0, .user 1]
  | _ => []

theorem twoLocks_locksOf {t : ThreadPtr} :
    LocksOf twoLocks twoLocksWaiters t (twoLocksHeld t) := by
  have hwaiters : ∀ l ∈ [LockPtr.user 0, .user 1],
      IsList twoLocks.elems (.lockWaiters l) (twoLocksWaiters l) := by
    intro l hl
    simp only [List.mem_cons, List.not_mem_nil, or_false] at hl
    rcases hl with rfl | rfl
    · exact ⟨⟨rfl, rfl, rfl, rfl, rfl, rfl⟩, rfl, rfl, by decide⟩
    · exact ⟨⟨rfl, rfl, rfl, rfl⟩, rfl, rfl, by decide⟩
  match t with
  | 0 => exact ⟨⟨⟨rfl, rfl, rfl, rfl, rfl, rfl⟩, rfl, rfl, by decide⟩, hwaiters⟩
  | t + 1 => exact ⟨⟨⟨rfl, rfl⟩, rfl, rfl, List.nodup_nil⟩, nofun⟩

theorem twoLocks_holderEq {t : ThreadPtr} (ht : isThread twoLocks t) :
    HolderEq twoLocks twoLocksWaiters (twoLocksHeld t) t := by
  match t, ht with
  | 0, _ =>
      constructor
      · exact .inr ⟨.user 1, by decide, 3, by decide, rfl⟩
      · rintro p (rfl | ⟨l, hl, w, hw, rfl⟩)
        · decide
        · revert w
          revert l
          decide
  | 1, _ | 2, _ | 3, _ => exact holderEq_nil.mpr rfl

/-- Without the second lock the first one's donation of 40 is left. -/
theorem refresh_restores_donation_two : ∃ e k',
    twoLocks.lockElems.listRemove (.item (.user 1)) = some e ∧
      refreshPriority priorityConfig 4 (twoLocks.setLockElems e) 0 = some k' ∧
      (k'.thr 0).priority = 40 := by
  have hwait : ∀ t, isThread twoLocks t → ∀ m ∈ twoLocksHeld t, 0 ∉ twoLocksWaiters m := by
    intro t ht
    match t with
    | 0 => decide
    | t + 1 => exact nofun
  obtain ⟨e, p, he, hk', hall⟩ := (refresh_restores_donation priorityConfig twoLocks
    twoLocksWaiters).2 twoLocksHeld (.user 1) (fun _ _ => twoLocks_locksOf) (by decide) hwait
      (fun _ => twoLocks_holderEq) (by decide)
  refine ⟨e, _, he, hk' 4 (by decide), ?_⟩
  obtain ⟨-, hmem, hmax⟩ := hall 0 (by decide)
  -- 40 is donated, and what the priority can be is 31, 40 or 35
  apply le_antisymm
  · rcases hmem with hb | ⟨l, hl, w, hw, hp⟩
    · exact hb.le.trans (by decide : (31 : ℤ) ≤ 40)
    · have hl : l ∈ [LockPtr.user 0] := hl
      obtain rfl := List.mem_singleton.mp hl
      have hw : w ∈ [1, 2] := hw
      simp only [List.mem_cons, List.not_mem_nil, or_false] at hw
      rcases hw with rfl | rfl
      · exact hp.le.trans (by decide : (40 : ℤ) ≤ 40)
      · exact hp.le.trans (by decide : (35 : ℤ) ≤ 40)
  · exact hmax (.inr ⟨.user 0, by decide, 1, by decide, rfl⟩)

end Pintos
