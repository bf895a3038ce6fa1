/-
PintosThreads/ReadyQueues.lean

The ready queues of the two schedulers, as stable priority queues.

Threads are enqueued and dispatched in any order, each with a priority that it
keeps while it is queued.  The sorted ready list of the priority scheduler and
the 64 queues of the MLFQS hold the same arrivals (`Holds`), and both hand out
the first of them, or the idle thread when there is none (`Served`).
-/
import PintosThreads.StableQueue
import PintosThreads.Queues

namespace Pintos

open Intrusive StableQueue

/-! ### Enqueueing and dispatching -/

/-- What is done with the ready queue: a thread is enqueued with the priority it has then,
or the next thread to run is taken. -/
inductive QueueOp
  | enqueue (t : ThreadPtr) (priority : ℤ)
  | dispatch

/-- Carries out one operation, with the thread that it hands out. -/
def queueOp (cfg : Config) (fuel : ℕ) (k : Kernel) : QueueOp → Option (List ThreadPtr × Kernel)
  | .enqueue t priority =>
      let k := k.modify t fun th => { th with priority := priority }
      (if cfg.mlfqs then mlfqsInsert k t
        else insertByPriority cfg fuel k .readyList t).map ([], ·)
  | .dispatch => (nextThreadToRun cfg k).map fun (t, e) => ([t], k.setElems e)

/-- The threads that are handed out. -/
def dispatched (cfg : Config) (fuel : ℕ) : Kernel → List QueueOp → Option (List ThreadPtr)
  | _, [] => some []
  | k, o :: os => do
      let (out, k) ← queueOp cfg fuel k o
      let outs ← dispatched cfg fuel k os
      some (out ++ outs)

/-- A thread is enqueued only while it is not queued, with a priority in range; `as` are the
threads that are queued, in the order of their arrival. -/
def EnqueuesOnce : List (ThreadPtr × ℤ) → List QueueOp → Prop
  | _, [] => True
  | as, .enqueue t p :: os =>
      (t ∉ as.map Prod.fst ∧ priMin ≤ p ∧ p ≤ priMax) ∧ EnqueuesOnce (as ++ [(t, p)]) os
  | as, .dispatch :: os =>
      EnqueuesOnce (match next Prod.snd as with | some (_, rest) => rest | none => as) os

/-- `out` are the threads that the operations should hand out: each time the earliest of
those with the highest priority, or the idle thread. -/
inductive Served (idle : ThreadPtr) :
    List (ThreadPtr × ℤ) → List QueueOp → List ThreadPtr → Prop
  | nil {as} : Served idle as [] []
  | enqueue {as t p os out} : Served idle (as ++ [(t, p)]) os out →
      Served idle as (.enqueue t p :: os) out
  | dispatch {as a rest os out} : First Prod.snd as a rest → Served idle rest os out →
      Served idle as (.dispatch :: os) (a.1 :: out)
  | idle {os out} : Served idle [] os out → Served idle [] (.dispatch :: os) (idle :: out)

/-! ### What the queues hold -/

/-- The link memory holds the arrivals `as`, in the way of the scheduler. -/
def HoldsArrivals (cfg : Config) (as : List (ThreadPtr × ℤ)) (e : Links ListPtr ThreadPtr) : Prop :=
  ∃ q, Repr e q ∧ (∀ l xs, q l = some xs → ∀ t ∈ xs, t ∈ as.map Prod.fst) ∧
    (cfg.mlfqs = false → ∃ xs, Sorts Prod.snd as xs ∧ q .readyList = some (xs.map Prod.fst)) ∧
    (cfg.mlfqs = true → ∀ i, priMin ≤ i → i ≤ priMax →
      q (.mlfqsList i) = some ((as.filter (·.2 = i)).map Prod.fst))

/-- The ready queue of `k` holds the arrivals `as`, with their priorities. -/
structure Holds (cfg : Config) (k : Kernel) (as : List (ThreadPtr × ℤ)) : Prop where
  arrivals : HoldsArrivals cfg as k.elems
  priority : ∀ a ∈ as, (k.thr a.1).priority = a.2
  range : ∀ a ∈ as, priMin ≤ a.2 ∧ a.2 ≤ priMax

variable {cfg : Config} {fuel : ℕ} {k : Kernel} {as : List (ThreadPtr × ℤ)} {t : ThreadPtr} {p : ℤ}

theorem HoldsArrivals.nil {e : Links ListPtr ThreadPtr}
    (h : ∀ l : ListPtr, l.IsReady cfg → IsList e l []) : HoldsArrivals cfg [] e := by
  classical
  have hq : ∀ (l : ListPtr) xs, (if l.IsReady cfg then some [] else none) = some xs →
      l.IsReady cfg ∧ xs = ([] : List ThreadPtr) := by
    intro l xs hl
    split at hl
    case isTrue hr => exact ⟨hr, (Option.some.inj hl).symm⟩
    case isFalse => cases hl
  refine ⟨fun l => if l.IsReady cfg then some [] else none, ⟨?_, ?_⟩, ?_, ?_, ?_⟩
  · intro l xs hl
    obtain ⟨hr, rfl⟩ := hq l xs hl
    exact h l hr
  · intro l l' xs ys a hl _ ha
    obtain ⟨-, rfl⟩ := hq l xs hl
    cases ha
  · intro l xs hl
    obtain ⟨-, rfl⟩ := hq l xs hl
    exact nofun
  · exact fun hm => ⟨[], ⟨.nil, fun _ => rfl⟩, if_pos (.readyList hm)⟩
  · exact fun hm i h0 h1 => if_pos (.mlfqsList hm h0 h1)

/-! ### A thread arrives -/

/-- The ordered insertion into the ready list. -/
theorem Holds.insertByPriority (hm : cfg.mlfqs = false) (H : Holds cfg k as)
    (ht : t ∉ as.map Prod.fst) (hp : (k.thr t).priority = p) (hf : as.length < fuel) :
    ∃ e, insertByPriority cfg fuel k .readyList t = some (k.setElems e) ∧
      HoldsArrivals cfg (as ++ [(t, p)]) e := by
  obtain ⟨q, R, hmem, hq, -⟩ := H.arrivals
  obtain ⟨xs, hs, hx⟩ := hq hm
  have hun : Unlinked q t := fun l ys hl hty => ht (hmem l ys hl t hty)
  have hlen : (xs.map Prod.fst).length < fuel := by
    rw [List.length_map, hs.perm.length_eq]
    exact hf
  have hsome : (k.elems.listInsertOrdered fuel .readyList (.item t)
      (lessPriority cfg k t)).isSome := R.insertOrdered_isSome hx hun hlen
  obtain ⟨e, he⟩ := Option.isSome_iff_exists.mp hsome
  obtain ⟨R', -⟩ := R.insertOrdered (fun a b => (k.thr b).priority < (k.thr a).priority)
    (fun _ => rfl) hx hun he
  have hxs : ∀ a ∈ xs, (k.thr a.1).priority = a.2 := fun a ha => H.priority a (hs.mem_iff.mp ha)
  have hmap : (xs.map Prod.fst).orderedInsert
      (fun a b => (k.thr b).priority < (k.thr a).priority) t =
        (xs.orderedInsert (fun a b => b.2 < a.2) (t, p)).map Prod.fst := by
    refine (List.map_orderedInsert _ _ Prod.fst xs (t, p) (fun a ha => ?_) fun a ha => ?_).symm
    · rw [hp, hxs a ha]
    · rw [hp, hxs a ha]
  refine ⟨e, ?_, _, R', ?_, ?_, ?_⟩
  · rw [Pintos.insertByPriority, he]
    rfl
  · intro l ys hl u hu
    rw [List.map_append, List.mem_append]
    by_cases hlr : l = .readyList
    · subst hlr
      rw [Function.update_self] at hl
      cases hl
      rcases (List.mem_orderedInsert _).mp hu with rfl | hu
      · exact .inr (by simp)
      · exact .inl (hmem _ _ hx u hu)
    · rw [Function.update_of_ne hlr] at hl
      exact .inl (hmem l ys hl u hu)
  · intro _
    exact ⟨_, hs.insert (t, p), by rw [Function.update_self, hmap]⟩
  · exact fun h => absurd h (by simp [hm])

/-- The insertion at the end of the queue of the thread's priority. -/
theorem Holds.mlfqsInsert (hm : cfg.mlfqs = true) (H : Holds cfg k as)
    (ht : t ∉ as.map Prod.fst) (hp : (k.thr t).priority = p) (h0 : priMin ≤ p) (h1 : p ≤ priMax) :
    ∃ e, mlfqsInsert k t = some ((k.setElems e).record (.insert t p)) ∧
      HoldsArrivals cfg (as ++ [(t, p)]) e := by
  obtain ⟨q, R, hmem, -, hq⟩ := H.arrivals
  have hun : Unlinked q t := fun l ys hl hty => ht (hmem l ys hl t hty)
  obtain ⟨e, he, R', -⟩ := R.pushBack (hq hm p h0 h1) hun
  refine ⟨e, ?_, _, R', ?_, ?_, ?_⟩
  · rw [Pintos.mlfqsInsert, hp, he]
    rfl
  · intro l ys hl u hu
    rw [List.map_append, List.mem_append]
    by_cases hlp : l = .mlfqsList p
    · subst hlp
      rw [Function.update_self] at hl
      cases hl
      rcases List.mem_append.mp hu with hu | hu
      · exact .inl (hmem _ _ (hq hm p h0 h1) u hu)
      · exact .inr (by simpa using hu)
    · rw [Function.update_of_ne hlp] at hl
      exact .inl (hmem l ys hl u hu)
  · exact fun h => absurd h (by simp [hm])
  · intro _ i hi0 hi1
    by_cases hip : i = p
    · subst hip
      simp
    · have hne : ListPtr.mlfqsList i ≠ .mlfqsList p := by simpa using hip
      rw [Function.update_of_ne hne, hq hm i hi0 hi1]
      simp [Ne.symm hip]

theorem Holds.enqueue (H : Holds cfg k as) (ht : t ∉ as.map Prod.fst) (h0 : priMin ≤ p)
    (h1 : p ≤ priMax) (hf : as.length < fuel) :
    ∃ k', queueOp cfg fuel k (.enqueue t p) = some ([], k') ∧ Holds cfg k' (as ++ [(t, p)]) ∧
      k'.idleThread = k.idleThread := by
  set k₁ := k.modify t fun th => { th with priority := p } with hk
  have hpt : (k₁.thr t).priority = p := by simp [hk]
  have hne : ∀ a ∈ as, (k₁.thr a.1).priority = a.2 := by
    intro a ha
    have hat : a.1 ≠ t := fun h => ht (List.mem_map.mpr ⟨a, ha, h⟩)
    simpa [hk, hat] using H.priority a ha
  have H₁ : Holds cfg k₁ as := ⟨H.arrivals, hne, H.range⟩
  have hpri : ∀ a ∈ as ++ [(t, p)], (k₁.thr a.1).priority = a.2 := by
    intro a ha
    rcases List.mem_append.mp ha with ha | ha
    · exact hne a ha
    · obtain rfl := List.mem_singleton.mp ha
      exact hpt
  have hrange : ∀ a ∈ as ++ [(t, p)], priMin ≤ a.2 ∧ a.2 ≤ priMax := by
    intro a ha
    rcases List.mem_append.mp ha with ha | ha
    · exact H.range a ha
    · obtain rfl := List.mem_singleton.mp ha
      exact ⟨h0, h1⟩
  rcases hm : cfg.mlfqs with - | -
  · obtain ⟨e, he, ha⟩ := H₁.insertByPriority hm ht hpt hf
    refine ⟨k₁.setElems e, ?_, ⟨ha, hpri, hrange⟩, rfl⟩
    simp only [queueOp, hm, ← hk, he]
    rfl
  · obtain ⟨e, he, ha⟩ := H₁.mlfqsInsert hm ht hpt h0 h1
    refine ⟨(k₁.setElems e).record (.insert t p), ?_, ⟨ha, hpri, hrange⟩, rfl⟩
    simp only [queueOp, hm, ← hk, he]
    rfl

/-! ### A thread is dispatched -/

/-- The front of one of the lists is taken, and it is the first arrival. -/
theorem HoldsArrivals.pop {e : Links ListPtr ThreadPtr} {q : ListPtr → Option (List ThreadPtr)}
    {l : ListPtr} {a : ThreadPtr × ℤ} {rest : List (ThreadPtr × ℤ)} {ys : List ThreadPtr}
    (R : Repr e q) (hmem : ∀ l xs, q l = some xs → ∀ t ∈ xs, t ∈ as.map Prod.fst)
    (hl : q l = some (a.1 :: ys)) (hf : First Prod.snd as a rest)
    (hq : cfg.mlfqs = false → l = .readyList ∧ ∃ xs, Sorts Prod.snd rest xs ∧ ys = xs.map Prod.fst)
    (hqs : cfg.mlfqs = true → ∀ i, priMin ≤ i → i ≤ priMax →
      Function.update q l (some ys) (.mlfqsList i) = some ((rest.filter (·.2 = i)).map Prod.fst)) :
    ∃ e', popThread e l = some (a.1, e') ∧ HoldsArrivals cfg rest e' := by
  obtain ⟨e', he, R', -⟩ := R.popFront hl
  have hnd := (List.nodup_cons.mp (R.isList hl).nodup).1
  have hrest : ∀ u, u ∈ as.map Prod.fst → u ≠ a.1 → u ∈ rest.map Prod.fst := by
    intro u hu hne
    obtain ⟨b, hb, rfl⟩ := List.mem_map.mp hu
    rcases hf.mem_rest hb with rfl | hb
    · exact absurd rfl hne
    · exact List.mem_map.mpr ⟨b, hb, rfl⟩
  refine ⟨e', by simp [popThread, he], _, R', fun m xs hm u hu => ?_, fun hc => ?_, hqs⟩
  · by_cases hml : m = l
    · subst hml
      rw [Function.update_self] at hm
      cases hm
      refine hrest u (hmem _ _ hl u (List.mem_cons_of_mem _ hu)) ?_
      rintro rfl
      exact hnd hu
    · rw [Function.update_of_ne hml] at hm
      refine hrest u (hmem m xs hm u hu) ?_
      rintro rfl
      exact hml (R.disj hm hl hu List.mem_cons_self)
  · obtain ⟨rfl, xs, hs, rfl⟩ := hq hc
    exact ⟨xs, hs, Function.update_self ..⟩

/-- **The next thread to run** is the first arrival, or the idle thread. -/
theorem Holds.nextThreadToRun (H : Holds cfg k as) :
    (as = [] ∧ nextThreadToRun cfg k = k.idleThread.map (·, k.elems)) ∨
      ∃ a rest e, First Prod.snd as a rest ∧ nextThreadToRun cfg k = some (a.1, e) ∧
        HoldsArrivals cfg rest e := by
  obtain ⟨q, R, hmem, hq, hqs⟩ := H.arrivals
  unfold Pintos.nextThreadToRun
  rcases hm : cfg.mlfqs with - | -
  · -- the ready list
    obtain ⟨xs, hs, hx⟩ := hq hm
    have hem := (R.isList hx).listEmpty
    rw [if_neg (by simp)]
    cases xs with
    | nil => exact .inl ⟨hs.eq_nil, if_pos (hem.mpr rfl)⟩
    | cons a xs =>
        obtain ⟨rest, hf, hs'⟩ := hs.first
        rw [if_neg (by simp [hem])]
        obtain ⟨e, he, ha⟩ : ∃ e, popThread k.elems .readyList = some (a.1, e) ∧
            HoldsArrivals cfg rest e := HoldsArrivals.pop R hmem hx hf
          (fun _ => ⟨rfl, xs, hs', rfl⟩) fun h => absurd h (by simp [hm])
        exact .inr ⟨a, rest, e, hf, he, ha⟩
  · -- the 64 queues
    have hempty : ∀ i, priMin ≤ i → i ≤ priMax → (k.elems.listEmpty (.mlfqsList i) = true ↔
        ∀ a ∈ as, a.2 ≠ i) := by
      intro i h0 h1
      rw [(R.isList (hqs hm i h0 h1)).listEmpty, List.map_eq_nil_iff, List.filter_eq_nil_iff]
      simp
    obtain ⟨hsome, hnone⟩ := mlfqsHighest_spec (e := k.elems) 64
    rw [if_pos rfl, mlfqsNextThreadToRun]
    rcases hi : mlfqsHighest k.elems 64 with - | i
    · refine .inl ⟨List.eq_nil_iff_forall_not_mem.mpr fun a ha => ?_, rfl⟩
      obtain ⟨h0, h1⟩ := H.range a ha
      obtain ⟨j, hj⟩ := Int.eq_ofNat_of_zero_le h0
      have hj64 : j < 64 := by
        rw [priMax] at h1
        omega
      have he := hnone hi j hj64
      rw [← hj] at he
      exact (hempty a.2 h0 h1).mp he a ha rfl
    · obtain ⟨hi64, hne, habove⟩ := hsome i hi
      have h0 : priMin ≤ (i : ℤ) := by simp [priMin]
      have h1 : (i : ℤ) ≤ priMax := by
        rw [priMax]
        omega
      have hmax : ∀ a ∈ as, a.2 ≤ i := by
        intro a ha
        obtain ⟨g0, g1⟩ := H.range a ha
        obtain ⟨j, hj⟩ := Int.eq_ofNat_of_zero_le g0
        by_contra hlt
        rw [priMax] at g1
        have he := habove j (by omega) (by omega)
        rw [← hj] at he
        exact (hempty a.2 g0 (by rw [priMax]; omega)).mp he a ha rfl
      rcases hfil : as.filter (·.2 = (i : ℤ)) with - | ⟨a, ys⟩
      · rw [Bool.eq_false_iff, Ne, hempty i h0 h1] at hne
        exact absurd (fun a ha => by simpa using List.filter_eq_nil_iff.mp hfil a ha) hne
      · have hai : a.2 = i := by
          have hmem : a ∈ as.filter (·.2 = (i : ℤ)) := by simp [hfil]
          simpa using (List.mem_filter.mp hmem).2
        have hli := hqs hm i h0 h1
        rw [hfil] at hli
        rw [← hai] at hfil
        obtain ⟨rest, hf, hys, hother⟩ : ∃ rest, First Prod.snd as a rest ∧
            rest.filter (·.2 = a.2) = ys ∧
              ∀ p, p ≠ a.2 → rest.filter (·.2 = p) = as.filter (·.2 = p) :=
          first_of_filter (fun b hb => hai ▸ hmax b hb) hfil
        obtain ⟨e, he, ha⟩ : ∃ e, popThread k.elems (.mlfqsList i) = some (a.1, e) ∧
            HoldsArrivals cfg rest e := HoldsArrivals.pop R hmem hli hf
          (fun h => absurd h (by simp [hm])) fun _ j hj0 hj1 => by
            by_cases hji : j = i
            · rw [hji, Function.update_self, ← hys, hai]
            · have hne' : ListPtr.mlfqsList j ≠ .mlfqsList i := by simpa using hji
              rw [Function.update_of_ne hne', hqs hm j hj0 hj1, hother j (hai ▸ hji)]
        exact .inr ⟨a, rest, e, hf, he, ha⟩

/-! ### Any sequence of operations -/

theorem Holds.serves {idle : ThreadPtr} : ∀ {os : List QueueOp} {k : Kernel}
    {as : List (ThreadPtr × ℤ)}, Holds cfg k as → k.idleThread = some idle →
    EnqueuesOnce as os → as.length + os.length ≤ fuel →
    ∃ out, Served idle as os out ∧ dispatched cfg fuel k os = some out
  | [], _, _, _, _, _, _ => ⟨[], .nil, rfl⟩
  | .enqueue t p :: os, k, as, H, hi, ⟨⟨ht, h0, h1⟩, hl⟩, hf => by
      rw [List.length_cons] at hf
      obtain ⟨k', e, H', hi'⟩ : ∃ k', queueOp cfg fuel k (.enqueue t p) = some ([], k') ∧
          Holds cfg k' (as ++ [(t, p)]) ∧ k'.idleThread = k.idleThread :=
        H.enqueue ht h0 h1 (by omega)
      obtain ⟨out, hs, ho⟩ := Holds.serves H' (hi'.trans hi) hl (by simp; omega)
      refine ⟨out, .enqueue hs, ?_⟩
      rw [dispatched, e]
      simp [ho]
  | .dispatch :: os, k, as, H, hi, hl, hf => by
      rw [List.length_cons] at hf
      rw [EnqueuesOnce] at hl
      obtain ⟨rfl, e⟩ | ⟨a, rest, l, hfirst, e, ha⟩ := H.nextThreadToRun
      · have H' : Holds cfg (k.setElems k.elems) [] := ⟨H.arrivals, H.priority, H.range⟩
        obtain ⟨out, hs, ho⟩ := Holds.serves H' hi hl (by omega)
        refine ⟨idle :: out, .idle hs, ?_⟩
        rw [dispatched, queueOp, e, hi]
        simp [ho]
      · have H' : Holds cfg (k.setElems l) rest :=
          ⟨ha, fun b hb => H.priority b (hfirst.mem_of_rest hb),
            fun b hb => H.range b (hfirst.mem_of_rest hb)⟩
        rw [hfirst.next_eq] at hl
        have hlen := hfirst.sublist.length_le
        obtain ⟨out, hs, ho⟩ := Holds.serves H' hi hl (by omega)
        refine ⟨a.1 :: out, .dispatch hfirst hs, ?_⟩
        rw [dispatched, queueOp, e]
        simp [ho]

/-- What should be handed out is determined by the operations. -/
theorem Served.unique {idle : ThreadPtr} {os : List QueueOp} {out out' : List ThreadPtr}
    (h : Served idle as os out) (h' : Served idle as os out') : out = out' := by
  induction h generalizing out' with
  | nil =>
      cases h'
      rfl
  | enqueue _ ih =>
      cases h' with
      | enqueue h' => exact ih h'
  | dispatch hf _ ih =>
      cases h' with
      | dispatch hf' h' =>
          obtain ⟨rfl, rfl⟩ := Prod.mk.inj (Option.some.inj (hf.next_eq.symm.trans hf'.next_eq))
          rw [ih h']
      | idle => exact absurd hf.mem List.not_mem_nil
  | idle _ ih =>
      cases h' with
      | dispatch hf' => exact absurd hf'.mem List.not_mem_nil
      | idle h' => rw [ih h']

theorem Holds.nil (h : ∀ l : ListPtr, l.IsReady cfg → IsList k.elems l []) : Holds cfg k [] :=
  ⟨.nil h, nofun, nofun⟩

/-- **The two ready queues agree**: from empty queues the ready list of the priority
scheduler and the 64 queues of the MLFQS hand out the same threads, each time the earliest
of those with the highest priority, and the idle thread when nothing is queued. -/
theorem ready_queues_agree {cfg₁ cfg₂ : Config} {k₁ k₂ : Kernel} {idle : ThreadPtr}
    {os : List QueueOp} (h₁ : cfg₁.mlfqs = false) (h₂ : cfg₂.mlfqs = true)
    (he₁ : IsList k₁.elems .readyList [])
    (he₂ : ∀ i, priMin ≤ i → i ≤ priMax → IsList k₂.elems (.mlfqsList i) [])
    (hi₁ : k₁.idleThread = some idle) (hi₂ : k₂.idleThread = some idle)
    (hos : EnqueuesOnce [] os) (hf : os.length ≤ fuel) :
    ∃ out, Served idle [] os out ∧ dispatched cfg₁ fuel k₁ os = some out ∧
      dispatched cfg₂ fuel k₂ os = some out := by
  have H₁ : Holds cfg₁ k₁ [] := by
    refine .nil fun l hl => ?_
    cases hl with
    | readyList => exact he₁
    | mlfqsList hm => exact absurd hm (by simp [h₁])
  have H₂ : Holds cfg₂ k₂ [] := by
    refine .nil fun l hl => ?_
    cases hl with
    | readyList hm => exact absurd hm (by simp [h₂])
    | mlfqsList _ h0 h1 => exact he₂ _ h0 h1
  obtain ⟨out, hs, ho⟩ : ∃ out, Served idle [] os out ∧ dispatched cfg₁ fuel k₁ os = some out :=
    H₁.serves hi₁ hos (by simpa using hf)
  obtain ⟨out', hs', ho'⟩ : ∃ out, Served idle [] os out ∧ dispatched cfg₂ fuel k₂ os = some out :=
    H₂.serves hi₂ hos (by simpa using hf)
  obtain rfl := hs.unique hs'
  exact ⟨out, hs, ho, ho'⟩

/-- Threads 2, 3 and 4 are queued, the last two with one priority. -/
theorem ready_queues_agree_three :
    ∃ out, Served 1 [] [.enqueue 2 10, .enqueue 3 20, .enqueue 4 20, .dispatch, .dispatch,
      .dispatch, .dispatch] out ∧
      dispatched priorityConfig 7 { boot priorityConfig with idleThread := some 1 }
        [.enqueue 2 10, .enqueue 3 20, .enqueue 4 20, .dispatch, .dispatch, .dispatch,
          .dispatch] = some out ∧
      dispatched mlfqsConfig 7 { boot mlfqsConfig with idleThread := some 1 }
        [.enqueue 2 10, .enqueue 3 20, .enqueue 4 20, .dispatch, .dispatch, .dispatch,
          .dispatch] = some out := by
  refine ready_queues_agree rfl rfl (bootElems_isList rfl) (fun i h0 h1 => ?_) rfl rfl
    (by simp [EnqueuesOnce, priMin, priMax]) le_rfl
  exact bootElems_isList (ListPtr.IsReady.mlfqsList rfl h0 h1).initialised

end Pintos
