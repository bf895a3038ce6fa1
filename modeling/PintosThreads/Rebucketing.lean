/-
PintosThreads/Rebucketing.lean

What `mlfqs_reorganize_queues` does to the 64 queues.

The first pair of loops drains the queues into one list, in the order of their
indices; the second loop appends each thread of that list to the queue of its
priority.  Every queue ends up with the threads of its priority, in the order
in which they stand in the concatenation of the old queues (`rebucketed`).
-/
import PintosThreads.Queues
import PintosThreads.Runs

namespace Pintos

open Intrusive

variable {cfg : Config} {fuel : ℕ} {k k' : Kernel} {e : Links ListPtr ThreadPtr}
variable {q : ListPtr → Option (List ThreadPtr)} {qs : ℕ → List ThreadPtr}

/-! ### The queues -/

/-- The threads of the queues, by the index of the queue and then by position. -/
def queuedThreads (qs : ℕ → List ThreadPtr) : List ThreadPtr :=
  (List.range 64).flatMap qs

/-- The queues hold the threads `qs`, each of them once. -/
structure QueuesHold (k : Kernel) (qs : ℕ → List ThreadPtr) : Prop where
  isList : ∀ i : ℕ, i < 64 → IsList k.elems (.mlfqsList i) (qs i)
  once : (queuedThreads qs).Nodup

/-- The threads with the priority of the queue, in the order of the old queues. -/
def rebucketed (k : Kernel) (qs : ℕ → List ThreadPtr) (p : ℕ) : List ThreadPtr :=
  (queuedThreads qs).filter fun t => (k.thr t).priority = p

theorem mlfqsList_ne {i j : ℕ} (h : i ≠ j) : ListPtr.mlfqsList i ≠ .mlfqsList j := by
  intro e
  injection e with e
  exact h (by exact_mod_cast e)

theorem mlfqsList_ne_temp (i : ℤ) : ListPtr.mlfqsList i ≠ .tempList :=
  nofun

theorem mem_queuedThreads {t : ThreadPtr} :
    t ∈ queuedThreads qs ↔ ∃ i < 64, t ∈ qs i := by
  simp [queuedThreads]

/-- A thread that stands in queue `i` stands in no other. -/
theorem QueuesHold.disjoint (H : QueuesHold k qs) {i j : ℕ} {t : ThreadPtr} (hi : i < 64)
    (hj : j < 64) (hti : t ∈ qs i) (htj : t ∈ qs j) : i = j := by
  obtain ⟨-, hp⟩ := List.nodup_flatMap.mp H.once
  rcases lt_trichotomy i j with hlt | rfl | hlt
  · have hd := (List.pairwise_iff_getElem.mp hp) i j (by simpa using hi) (by simpa using hj) hlt
    simp only [List.getElem_range] at hd
    exact absurd htj (List.disjoint_left.mp hd hti)
  · rfl
  · have hd := (List.pairwise_iff_getElem.mp hp) j i (by simpa using hj) (by simpa using hi) hlt
    simp only [List.getElem_range] at hd
    exact absurd hti (List.disjoint_left.mp hd htj)

/-- Every queue is as long as all of them together at most. -/
theorem length_le_queuedThreads {i : ℕ} (hi : i < 64) :
    (qs i).length ≤ (queuedThreads qs).length := by
  rw [queuedThreads, List.flatMap_def]
  exact (List.sublist_flatten_of_mem
    (List.mem_map.mpr ⟨i, List.mem_range.mpr hi, rfl⟩)).length_le

/-! ### Draining -/

/-- **`drain`** appends the source to the destination and leaves it empty. -/
theorem drain_spec {src dst : ListPtr} (hsd : src ≠ dst) :
    ∀ (xs : List ThreadPtr) {fuel : ℕ} {e : Links ListPtr ThreadPtr}
      {q : ListPtr → Option (List ThreadPtr)} {ys : List ThreadPtr}, Repr e q →
      q src = some xs → q dst = some ys → xs.length < fuel →
      ∃ e', drain src dst fuel e = some e' ∧
        Repr e' (Function.update (Function.update q src (some [])) dst (some (ys ++ xs))) := by
  intro xs
  induction xs with
  | nil =>
      intro fuel e q ys R hs hd hf
      obtain ⟨n, rfl⟩ := Nat.exists_eq_succ_of_ne_zero (Nat.ne_of_gt hf)
      refine ⟨e, ?_, ?_⟩
      · rw [drain, if_pos ((R.isList hs).listEmpty.mpr rfl)]
      · rw [← hs, Function.update_eq_self, List.append_nil, ← hd, Function.update_eq_self]
        exact R
  | cons x xs ih =>
      intro fuel e q ys R hs hd hf
      obtain ⟨n, rfl⟩ := Nat.exists_eq_succ_of_ne_zero (Nat.ne_of_gt (Nat.zero_lt_of_lt hf))
      have hne : e.listEmpty src = false := by
        rw [Bool.eq_false_iff, Ne, (R.isList hs).listEmpty]
        exact List.cons_ne_nil x xs
      obtain ⟨e₁, h₁, R₁, -⟩ := R.popFront hs
      -- the first element is in no list now
      have hun : Unlinked (Function.update q src (some xs)) x := by
        intro l zs hl hx
        by_cases hls : l = src
        · subst hls
          rw [Function.update_self] at hl
          cases hl
          exact (List.nodup_cons.mp (R.isList hs).nodup).1 hx
        · rw [Function.update_of_ne hls] at hl
          exact hls (R.disj hl hs hx (List.mem_cons_self ..))
      have hd₁ : Function.update q src (some xs) dst = some ys := by
        rwa [Function.update_of_ne (Ne.symm hsd)]
      obtain ⟨e₂, h₂, R₂, -⟩ := R₁.pushBack hd₁ hun
      have hs₂ : Function.update (Function.update q src (some xs)) dst (some (ys ++ [x])) src =
          some xs := by
        rw [Function.update_of_ne hsd, Function.update_self]
      obtain ⟨e', h', R'⟩ := ih R₂ hs₂ (Function.update_self ..) (by simpa using hf)
      refine ⟨e', ?_, ?_⟩
      · rw [drain, if_neg (by simp [hne])]
        simp only [h₁, h₂, Option.bind_eq_bind, Option.bind_some]
        exact h'
      · rw [Function.update_comm hsd, Function.update_idem, Function.update_comm (Ne.symm hsd),
          Function.update_idem, List.append_assoc] at R'
        exact R'

/-- **The first loops** of `mlfqs_reorganize_queues`, over the queues below index `n`. -/
theorem collectQueues_spec (hf : ∀ i : ℕ, i < 64 → (qs i).length < fuel) :
    ∀ (n : ℕ), n ≤ 64 → ∀ {e : Links ListPtr ThreadPtr}, Repr e q → q .tempList = some [] →
      (∀ i : ℕ, i < 64 → q (.mlfqsList i) = some (qs i)) →
      ∃ e' q', collectQueues fuel e n = some e' ∧ Repr e' q' ∧
        q' .tempList = some ((List.range n).flatMap qs) ∧
        (∀ i : ℕ, i < 64 → q' (.mlfqsList i) = if i < n then some [] else some (qs i)) := by
  intro n
  induction n with
  | zero => exact fun _ e R ht hq => ⟨e, q, rfl, R, ht, fun i hi => by simpa using hq i hi⟩
  | succ n ih =>
      intro hn e R ht hq
      obtain ⟨e₁, q₁, h₁, R₁, ht₁, hq₁⟩ := ih (by omega) R ht hq
      have hqn : q₁ (.mlfqsList n) = some (qs n) := by
        rw [hq₁ n (by omega), if_neg (lt_irrefl n)]
      obtain ⟨e', h', R'⟩ := drain_spec (by simp) (qs n) R₁ hqn ht₁ (hf n (by omega))
      refine ⟨e', _, ?_, R', ?_, fun i hi => ?_⟩
      · rw [collectQueues, h₁]
        exact h'
      · simp [List.range_succ]
      · rw [Function.update_of_ne (by simp)]
        by_cases hin : i = n
        · subst hin
          simp
        · rw [Function.update_of_ne (mlfqsList_ne hin), hq₁ i hi]
          have hiff : i < n ↔ i < n + 1 := by omega
          simp only [hiff]

/-! ### Reinserting -/

/-- **The last loop** appends each thread to the queue of its priority. -/
theorem reinsertQueues_spec : ∀ (xs : List ThreadPtr) {fuel : ℕ} {k : Kernel}
    {q : ListPtr → Option (List ThreadPtr)} {zs : ℕ → List ThreadPtr}, Repr k.elems q →
    q .tempList = some xs → (∀ i : ℕ, i < 64 → q (.mlfqsList i) = some (zs i)) →
    (∀ t ∈ xs, priMin ≤ (k.thr t).priority ∧ (k.thr t).priority ≤ priMax) → xs.length < fuel →
    ∃ e ev, reinsertQueues fuel k = some { k.setElems e with log := ev } ∧
      ∃ q', Repr e q' ∧ ∀ i : ℕ, i < 64 → q' (.mlfqsList i) =
        some (zs i ++ xs.filter fun t => (k.thr t).priority = i) := by
  intro xs
  induction xs with
  | nil =>
      intro fuel k q zs R ht hz _ hf
      obtain ⟨n, rfl⟩ := Nat.exists_eq_succ_of_ne_zero (Nat.ne_of_gt hf)
      refine ⟨k.elems, k.log, ?_, q, R, fun i hi => by simpa using hz i hi⟩
      rw [reinsertQueues, if_pos ((R.isList ht).listEmpty.mpr rfl)]
      rfl
  | cons x xs ih =>
      intro fuel k q zs R ht hz hp hf
      obtain ⟨n, rfl⟩ := Nat.exists_eq_succ_of_ne_zero (Nat.ne_of_gt (Nat.zero_lt_of_lt hf))
      obtain ⟨hpx, hp⟩ := List.forall_mem_cons.mp hp
      have hne : k.elems.listEmpty .tempList = false := by
        rw [Bool.eq_false_iff, Ne, (R.isList ht).listEmpty]
        exact List.cons_ne_nil x xs
      obtain ⟨e₁, h₁, R₁, -⟩ := R.popFront ht
      have hun : Unlinked (Function.update q .tempList (some xs)) x := by
        intro l ys hl hx
        by_cases hlt : l = .tempList
        · subst hlt
          rw [Function.update_self] at hl
          cases hl
          exact (List.nodup_cons.mp (R.isList ht).nodup).1 hx
        · rw [Function.update_of_ne hlt] at hl
          exact hlt (R.disj hl ht hx (List.mem_cons_self ..))
      -- the priority is the index of a queue
      obtain ⟨p, hpe⟩ := Int.eq_ofNat_of_zero_le hpx.1
      have hp64 : p < 64 := by
        have hle := hpx.2
        rw [hpe, priMax] at hle
        omega
      have hzp : Function.update q .tempList (some xs) (.mlfqsList (k.thr x).priority) =
          some (zs p) := by
        rw [Function.update_of_ne (mlfqsList_ne_temp _), hpe]
        exact hz p hp64
      obtain ⟨e₂, h₂, R₂, -⟩ := R₁.pushBack hzp hun
      set k₁ := (k.setElems e₂).record (.insert x (k.thr x).priority) with hk₁
      obtain ⟨e, ev, h, q', R', hq'⟩ := @ih n k₁ _
        (Function.update zs p (zs p ++ [x])) R₂ (by simp) (fun i hi => by
          by_cases hip : i = p
          · subst hip
            rw [hpe, Function.update_self, Function.update_self]
          · have hne' : ListPtr.mlfqsList i ≠ .mlfqsList (k.thr x).priority := by
              rw [hpe]
              exact mlfqsList_ne hip
            rw [Function.update_of_ne hne', Function.update_of_ne (mlfqsList_ne_temp _),
              Function.update_of_ne hip]
            exact hz i hi) hp (by simpa using hf)
      refine ⟨e, ev, ?_, q', R', fun i hi => ?_⟩
      · rw [reinsertQueues, if_neg (by simp [hne]), popThread, h₁]
        simp only [Option.bind_eq_bind, Option.bind_some, mlfqsInsert, Kernel.setElems_thr,
          Kernel.setElems_elems, h₂, Option.map_some]
        exact h
      · rw [hq' i hi]
        have hthr : k₁.thr = k.thr := rfl
        rw [hthr]
        by_cases hip : i = p
        · subst hip
          rw [Function.update_self, List.append_assoc, List.filter_cons_of_pos (by simpa using hpe)]
          rfl
        · rw [Function.update_of_ne hip, List.filter_cons_of_neg]
          rw [hpe, decide_eq_true_eq]
          exact_mod_cast Ne.symm hip

/-! ### The function as a whole -/

/-- The queues as lists of the link memory, with an empty temporary list. -/
def queueMap (qs : ℕ → List ThreadPtr) : ListPtr → Option (List ThreadPtr)
  | .mlfqsList i => if 0 ≤ i ∧ i < 64 then some (qs i.toNat) else none
  | _ => none

theorem queueMap_eq_some {l : ListPtr} {xs : List ThreadPtr} (h : queueMap qs l = some xs) :
    ∃ i : ℕ, i < 64 ∧ l = .mlfqsList i ∧ xs = qs i := by
  cases l with
  | mlfqsList i =>
      simp only [queueMap] at h
      split at h
      case isTrue hi =>
        cases h
        exact ⟨i.toNat, by omega, by rw [Int.toNat_of_nonneg hi.1], rfl⟩
      case isFalse => cases h
  | _ => cases h

theorem QueuesHold.repr (H : QueuesHold k qs) : Repr k.elems (queueMap qs) := by
  refine ⟨fun hl => ?_, fun hl hl' ha ha' => ?_⟩
  · obtain ⟨i, hi, rfl, rfl⟩ := queueMap_eq_some hl
    exact H.isList i hi
  · obtain ⟨i, hi, rfl, rfl⟩ := queueMap_eq_some hl
    obtain ⟨j, hj, rfl, rfl⟩ := queueMap_eq_some hl'
    rw [H.disjoint hi hj ha ha']

/-- A thread whose priority is the index of a queue stands in that queue alone. -/
theorem mem_rebucketed {p : ℕ} {t : ThreadPtr} :
    t ∈ rebucketed k qs p ↔ t ∈ queuedThreads qs ∧ (k.thr t).priority = p := by
  simp [rebucketed]

/-- **No thread is lost or duplicated.** -/
theorem rebucketed_perm (hn : (queuedThreads qs).Nodup) (hp : ∀ t ∈ queuedThreads qs,
    priMin ≤ (k.thr t).priority ∧ (k.thr t).priority ≤ priMax) :
    (queuedThreads (rebucketed k qs)).Nodup ∧
      (queuedThreads (rebucketed k qs)).Perm (queuedThreads qs) := by
  have hnd : (queuedThreads (rebucketed k qs)).Nodup := by
    refine List.nodup_flatMap.mpr ⟨fun p _ => hn.filter _, ?_⟩
    refine List.nodup_range.imp fun hne => ?_
    refine List.disjoint_left.mpr fun t ht ht' => hne ?_
    have e := (mem_rebucketed.mp ht).2.symm.trans (mem_rebucketed.mp ht').2
    exact_mod_cast e
  refine ⟨hnd, (List.perm_ext_iff_of_nodup hnd hn).mpr fun t => ?_⟩
  rw [mem_queuedThreads]
  constructor
  · rintro ⟨p, -, ht⟩
    exact (mem_rebucketed.mp ht).1
  · intro ht
    obtain ⟨h0, h1⟩ := hp t ht
    obtain ⟨p, hpe⟩ := Int.eq_ofNat_of_zero_le h0
    refine ⟨p, ?_, mem_rebucketed.mpr ⟨ht, hpe⟩⟩
    rw [hpe, priMax] at h1
    omega

/-- Where every thread stands in the queue of its priority, the queues stay as they are. -/
theorem rebucketed_self {p : ℕ} (hp : p < 64)
    (hq : ∀ i < 64, ∀ t ∈ qs i, (k.thr t).priority = i) : rebucketed k qs p = qs p := by
  have hfil : ∀ i < 64, (qs i).filter (fun t => (k.thr t).priority = p) =
      if i = p then qs i else [] := by
    intro i hi
    split
    case isTrue h =>
      subst h
      exact List.filter_eq_self.mpr fun t ht => by simpa using hq i hi t ht
    case isFalse h =>
      refine List.filter_eq_nil_iff.mpr fun t ht => ?_
      rw [decide_eq_true_eq, hq i hi t ht]
      exact_mod_cast h
  -- what the queues below `n` contribute
  have hsum : ∀ n ≤ 64, ((List.range n).flatMap qs).filter (fun t => (k.thr t).priority = p) =
      if p < n then qs p else [] := by
    intro n
    induction n with
    | zero => simp
    | succ n ih =>
        intro hn
        rw [List.range_succ, List.flatMap_append, List.filter_append, ih (by omega),
          List.flatMap_singleton, hfil n (by omega)]
        rcases lt_trichotomy p n with h | rfl | h
        · rw [if_pos h, if_neg h.ne', if_pos (by omega), List.append_nil]
        · simp
        · rw [if_neg (by omega), if_neg (by omega), if_neg (by omega), List.append_nil]
  rw [rebucketed, queuedThreads, hsum 64 le_rfl, if_pos hp]

/-- One call of `mlfqs_reorganize_queues`. -/
theorem reorganize_spec (H : QueuesHold k qs) (hp : ∀ t ∈ queuedThreads qs,
      priMin ≤ (k.thr t).priority ∧ (k.thr t).priority ≤ priMax)
    (hf : (queuedThreads qs).length < fuel) :
    ∃ k', mlfqsReorganizeQueues fuel k = some k' ∧ k'.thr = k.thr ∧
      QueuesHold k' (rebucketed k qs) := by
  have R := H.repr.init .tempList
  have hlen : ∀ i : ℕ, i < 64 → (qs i).length < fuel :=
    fun i hi => (length_le_queuedThreads hi).trans_lt hf
  obtain ⟨e₁, q₁, h₁, R₁, ht₁, hq₁⟩ := collectQueues_spec hlen 64 le_rfl R
    (Function.update_self ..) fun i hi => by
      rw [Function.update_of_ne (mlfqsList_ne_temp _), queueMap, if_pos (by omega),
        Int.toNat_natCast]
  obtain ⟨e, ev, h₂, q', R', hq'⟩ := @reinsertQueues_spec
    (queuedThreads qs) fuel (k.setElems e₁) q₁ (fun _ => []) R₁ ht₁
    (fun i hi => by rw [hq₁ i hi, if_pos hi]) hp hf
  refine ⟨{ (k.setElems e₁).setElems e with log := ev }, ?_, rfl, fun i hi => ?_,
    (rebucketed_perm H.once hp).1⟩
  · rw [mlfqsReorganizeQueues, h₁]
    exact h₂
  · exact R'.isList (hq' i hi)

/-- **`mlfqs_reorganize_queues` re-buckets the threads**: it ends, and leaves in every queue the
threads of its priority, in the order of their old queues and of their positions there; the threads
are the same as before, and a second call changes nothing. -/
theorem reorganize_rebuckets (H : QueuesHold k qs) (hp : ∀ t ∈ queuedThreads qs,
      priMin ≤ (k.thr t).priority ∧ (k.thr t).priority ≤ priMax)
    (hf : (queuedThreads qs).length < fuel) :
    (queuedThreads (rebucketed k qs)).Perm (queuedThreads qs) ∧
    ∃ k', mlfqsReorganizeQueues fuel k = some k' ∧ k'.thr = k.thr ∧
      QueuesHold k' (rebucketed k qs) ∧
      ∃ k'', mlfqsReorganizeQueues fuel k' = some k'' ∧ k''.thr = k'.thr ∧
        QueuesHold k'' (rebucketed k qs) := by
  obtain ⟨-, hperm⟩ := rebucketed_perm H.once hp
  obtain ⟨k', h, hthr, H'⟩ := reorganize_spec H hp hf
  refine ⟨hperm, k', h, hthr, H', ?_⟩
  obtain ⟨k'', h', hthr', H''⟩ := reorganize_spec H'
    (fun t ht => by
      rw [hthr]
      exact hp t (hperm.mem_iff.mp ht)) (hperm.length_eq.trans_lt hf)
  refine ⟨k'', h', hthr', ⟨fun i hi => ?_, H'.once⟩⟩
  have hself : rebucketed k' (rebucketed k qs) i = rebucketed k qs i := by
    refine rebucketed_self hi fun j _ t ht => ?_
    rw [hthr]
    exact (mem_rebucketed.mp ht).2
  rw [← hself]
  exact H''.isList i hi

/-- A thread that is in no queue is put at the end of one. -/
theorem QueuesHold.push (H : QueuesHold k qs) {i : ℕ} {t : ThreadPtr} (hi : i < 64)
    (ht : t ∉ queuedThreads qs)
    (hnd : (queuedThreads (Function.update qs i (qs i ++ [t]))).Nodup) :
    ∃ k', k'.thr = k.thr ∧ QueuesHold k' (Function.update qs i (qs i ++ [t])) := by
  have hun : Unlinked (queueMap qs) t := by
    intro l xs hl hx
    obtain ⟨j, hj, rfl, rfl⟩ := queueMap_eq_some hl
    exact ht (mem_queuedThreads.mpr ⟨j, hj, hx⟩)
  have hq : queueMap qs (.mlfqsList i) = some (qs i) := if_pos (by omega)
  obtain ⟨e, -, R, -⟩ := H.repr.pushBack hq hun
  refine ⟨k.setElems e, rfl, ⟨fun j hj => R.isList ?_, hnd⟩⟩
  obtain rfl | hji := eq_or_ne j i
  · rw [Function.update_self, Function.update_self]
  · rw [Function.update_of_ne (mlfqsList_ne hji), Function.update_of_ne hji]
    exact if_pos (by omega)

/-- Threads 2 and 3 stand in queue 10, thread 4 in queue 20 and thread 5 in queue 30.  Thread 3 has
priority 20 and the others 30: they come together in queue 30, in this order. -/
theorem reorganize_rebuckets_misplaced : ∃ k qs k', QueuesHold k qs ∧
    qs 10 = [2, 3] ∧ qs 20 = [4] ∧ qs 30 = [5] ∧
      mlfqsReorganizeQueues 5 k = some k' ∧ IsList k'.elems (.mlfqsList 10) [] ∧
      IsList k'.elems (.mlfqsList 20) [3] ∧ IsList k'.elems (.mlfqsList 30) [2, 4, 5] := by
  let thr : ThreadPtr → Thread := fun t => { Thread.blank with priority := if t = 3 then 20 else 30 }
  have H : QueuesHold { boot mlfqsConfig with thr } fun _ => [] := by
    refine ⟨fun i hi => bootElems_isList ?_, by decide⟩
    have hr : ListPtr.IsReady mlfqsConfig (.mlfqsList i) :=
      .mlfqsList rfl (by simp [priMin]) (by rw [priMax]; omega)
    exact hr.initialised
  obtain ⟨k₂, h₂, H⟩ := H.push (i := 10) (t := 2) (by decide) (by decide) (by decide)
  obtain ⟨k₃, h₃, H⟩ := H.push (i := 10) (t := 3) (by decide) (by decide) (by decide)
  obtain ⟨k₄, h₄, H⟩ := H.push (i := 20) (t := 4) (by decide) (by decide) (by decide)
  obtain ⟨k₅, h₅, H⟩ := H.push (i := 30) (t := 5) (by decide) (by decide) (by decide)
  have hthr : k₅.thr = thr := by rw [h₅, h₄, h₃, h₂]
  have hp : ∀ t, priMin ≤ (k₅.thr t).priority ∧ (k₅.thr t).priority ≤ priMax := by
    intro t
    rw [hthr]
    show priMin ≤ (if t = 3 then 20 else 30 : ℤ) ∧ (if t = 3 then 20 else 30 : ℤ) ≤ priMax
    split <;> decide
  obtain ⟨-, k', h, -, H', -⟩ := reorganize_rebuckets H (fun t _ => hp t)
    (show _ < 5 from by decide)
  have h₁₀ := H'.isList 10 (by decide)
  have h₂₀ := H'.isList 20 (by decide)
  have h₃₀ := H'.isList 30 (by decide)
  rw [rebucketed, hthr] at h₁₀ h₂₀ h₃₀
  exact ⟨k₅, _, k', H, by decide, by decide, by decide, h, h₁₀, h₂₀, h₃₀⟩

end Pintos
