/-
PintosThreads/TimerPriorities.lean

The priorities that the timer interrupt leaves behind in the MLFQS.

Every four ticks `mlfqs_update_priority_all` computes all priorities, and once
a second `mlfqs_update_recent_cpu` changes what they are computed from.  The
handler does the former first, so that on the ticks where both are due the
priorities are those of the old `recent_cpu`; the condition under which they
are nevertheless the right ones is exact (`priorities_up_to_date`).
-/
import PintosThreads.TimerHandler

namespace Pintos

open Intrusive

variable {cfg : Config} {fuel : ℕ} {ok : Kernel → Label → Prop} {k k₁ k' : Kernel} {b : Bool}

/-! ### The formulas -/

/-- `PRI_MAX - trunc (recent_cpu / 4) - 2 * nice`, clamped to the range of the priorities. -/
def formulaPriority (recentCpu nice : ℤ) : ℤ :=
  max priMin (min priMax (priMax - recentCpu.tdiv (4 * fpOne) - 2 * nice))

/-- What `mlfqs_update_priority` computes is the formula. -/
theorem mlfqsPriority_eq_formulaPriority (recentCpu nice : ℤ) :
    mlfqsPriority recentCpu nice = formulaPriority recentCpu nice := by
  have hd : fpToInt (recentCpu.tdiv 4) = recentCpu.tdiv (4 * fpOne) := by
    rcases le_total 0 recentCpu with h | h
    · rw [fpToInt, Int.tdiv_eq_ediv_of_nonneg h, Int.tdiv_eq_ediv_of_nonneg (by omega),
        Int.tdiv_eq_ediv_of_nonneg h, fpOne]
      omega
    · obtain ⟨n, rfl⟩ : ∃ n, recentCpu = -n := ⟨-recentCpu, (neg_neg _).symm⟩
      have hn : 0 ≤ n := by omega
      rw [fpToInt, Int.neg_tdiv, Int.neg_tdiv, Int.neg_tdiv, Int.tdiv_eq_ediv_of_nonneg hn,
        Int.tdiv_eq_ediv_of_nonneg (by omega), Int.tdiv_eq_ediv_of_nonneg hn, fpOne]
      omega
  rw [mlfqsPriority, formulaPriority, hd, mul_comm nice 2]
  have hr : priMin ≤ priMax := by decide
  generalize priMax - recentCpu.tdiv (4 * fpOne) - 2 * nice = p
  split
  case isTrue hp =>
    rw [min_eq_left hp.le, max_eq_right hr]
  case isFalse hp =>
    rw [min_eq_right (le_of_not_gt hp)]
    split
    case isTrue hp => rw [max_eq_left hp.le]
    case isFalse hp => rw [max_eq_right (le_of_not_gt hp)]

/-- What `mlfqs_update_recent_cpu` computes; `none` is a divide error. -/
def decayedCpu (loadAvg recentCpu nice : ℤ) : Option ℤ :=
  (fpDiv (fpMulInt loadAvg 2) (fpAddInt (fpMulInt loadAvg 2) 1)).map fun coef =>
    fpAddInt (fpMul coef recentCpu) nice

theorem mlfqsUpdateRecentCpu_eq (k : Kernel) (t : ThreadPtr) : mlfqsUpdateRecentCpu k t =
    if k.idleThread = some t then some k
    else (decayedCpu k.loadAvg (k.thr t).recentCpu (k.thr t).nice).map fun c =>
      k.modify t fun th => { th with recentCpu := c } := by
  rw [mlfqsUpdateRecentCpu, decayedCpu, Option.map_map]
  dsimp only
  rw [Option.map_eq_bind]
  rfl

/-- The thread's priority is the one that the formula gives for its present values. -/
def UpToDate (th : Thread) : Prop :=
  th.priority = formulaPriority th.recentCpu th.nice

instance : DecidablePred UpToDate := fun _ => inferInstanceAs (Decidable (_ = _))

/-! ### Over the list of all threads -/

/-- A function that writes only its own thread, as `P` says, writes each thread of a list
without repetitions once. -/
theorem foldlM_each {func : Kernel → ThreadPtr → Option Kernel} {I : Kernel → Prop}
    {P : ThreadPtr → Thread → Thread → Prop} (hI : ∀ k thr, I k → I (k.setThr thr))
    (hf : ∀ k t k', I k → func k t = some k' → ∃ thr, k' = k.setThr thr ∧
      (∀ u, u ≠ t → thr u = k.thr u) ∧ P t (k.thr t) (thr t)) :
    ∀ (ts : List ThreadPtr) {k k' : Kernel}, I k → ts.Nodup → ts.foldlM func k = some k' →
      ∃ thr, k' = k.setThr thr ∧ (∀ u, u ∉ ts → thr u = k.thr u) ∧
        ∀ u ∈ ts, P u (k.thr u) (thr u)
  | [], k, k', _, _, h => by
      cases h
      exact ⟨k.thr, rfl, fun _ _ => rfl, nofun⟩
  | t :: ts, k, k', hk, hn, h => by
      obtain ⟨k₁, h₁, h₂⟩ := Option.bind_eq_some_iff.mp h
      obtain ⟨ht, hn⟩ := List.nodup_cons.mp hn
      obtain ⟨thr₁, rfl, ho₁, hp₁⟩ := hf k t k₁ hk h₁
      obtain ⟨thr, rfl, ho, hp⟩ := foldlM_each hI hf ts (hI k thr₁ hk) hn h₂
      refine ⟨thr, rfl, fun u hu => ?_, fun u hu => ?_⟩
      · obtain ⟨hut, hu⟩ := List.ne_and_not_mem_of_not_mem_cons hu
        exact (ho u hu).trans (ho₁ u hut)
      · rcases List.mem_cons.mp hu with rfl | hu
        · -- the rest of the list leaves the thread alone
          rw [ho u ht]
          exact hp₁
        · have hut : u ≠ t := fun e => ht (e ▸ hu)
          have hpu := hp u hu
          rwa [show (k.setThr thr₁).thr u = k.thr u from ho₁ u hut] at hpu

/-- The queues are rebuilt without another look at the threads. -/
theorem reinsertQueues_eq : ∀ (fuel : ℕ) {k k' : Kernel}, reinsertQueues fuel k = some k' →
    ∃ e ev, k' = { k.setElems e with log := ev }
  | 0, _, _, h => nomatch h
  | fuel + 1, k, k', h => by
      rw [reinsertQueues] at h
      split at h
      · cases h
        exact ⟨k.elems, k.log, rfl⟩
      · obtain ⟨⟨t, e⟩, -, h⟩ := Option.bind_eq_some_iff.mp h
        obtain ⟨k₁, h₁, h⟩ := Option.bind_eq_some_iff.mp h
        obtain ⟨e₁, rfl⟩ := mlfqsInsert_eq h₁
        obtain ⟨e₂, ev, rfl⟩ := reinsertQueues_eq fuel h
        exact ⟨e₂, ev, rfl⟩

/-- **`mlfqs_update_priority_all`** leaves every thread with the priority of the formula. -/
theorem mlfqsUpdatePriorityAll_spec (hn : k.allList.Nodup)
    (h : mlfqsUpdatePriorityAll fuel k = some k') :
    ∃ thr e ev, k' = { k.setThr thr with elems := e, log := ev } ∧
      ∀ t ∈ k.allList, k.idleThread ≠ some t → UpToDate (thr t) ∧
        (thr t).recentCpu = (k.thr t).recentCpu ∧ (thr t).nice = (k.thr t).nice := by
  obtain ⟨k₁, h₁, h⟩ := Option.bind_eq_some_iff.mp h
  obtain ⟨e, -, h⟩ := Option.bind_eq_some_iff.mp h
  obtain ⟨e, ev, rfl⟩ := reinsertQueues_eq fuel h
  obtain ⟨thr, rfl, -, hp⟩ := foldlM_each (I := fun k₁ => k₁.idleThread = k.idleThread)
    (P := fun t th th' => k.idleThread ≠ some t →
      UpToDate th' ∧ th'.recentCpu = th.recentCpu ∧ th'.nice = th.nice)
    (fun _ _ h => h) (fun k₂ t k₃ hi h => by
      cases h
      obtain ⟨thr, hr⟩ := mlfqsUpdatePriority_rest k₂ t
      refine ⟨thr, hr, fun u hu => ?_, fun hne => ?_⟩
      · rw [show thr u = (mlfqsUpdatePriority k₂ t).thr u by rw [hr]; rfl,
          mlfqsUpdatePriority_of_ne k₂ hu]
      · rw [show thr t = (mlfqsUpdatePriority k₂ t).thr t by rw [hr]; rfl, mlfqsUpdatePriority,
          if_neg (by rw [hi]; exact hne)]
        simp [UpToDate, mlfqsPriority_eq_formulaPriority]) k.allList rfl hn h₁
  exact ⟨thr, e, ev, rfl, hp⟩

/-- **`mlfqs_update_recent_cpu`** on all threads, then the new load average. -/
theorem mlfqsUpdateRcpuLa_spec (hn : k.allList.Nodup) (h : mlfqsUpdateRcpuLa fuel k = some k') :
    ∃ thr la, k' = { k.setThr thr with loadAvg := la } ∧
      ∀ t ∈ k.allList, k.idleThread ≠ some t →
        (thr t).priority = (k.thr t).priority ∧ (thr t).nice = (k.thr t).nice ∧
          decayedCpu k.loadAvg (k.thr t).recentCpu (k.thr t).nice = some (thr t).recentCpu := by
  obtain ⟨k₁, h₁, h⟩ := Option.bind_eq_some_iff.mp h
  obtain ⟨thr, rfl, -, hp⟩ := foldlM_each
    (I := fun k₁ => k₁.idleThread = k.idleThread ∧ k₁.loadAvg = k.loadAvg)
    (P := fun t th th' => k.idleThread ≠ some t →
      th'.priority = th.priority ∧ th'.nice = th.nice ∧
        decayedCpu k.loadAvg th.recentCpu th.nice = some th'.recentCpu)
    (fun _ _ h => h) (fun k₂ t k₃ hi h => by
      rw [mlfqsUpdateRecentCpu_eq, hi.1, hi.2] at h
      split at h
      case isTrue hidle =>
        cases h
        exact ⟨_, rfl, fun _ _ => rfl, fun hne => absurd hidle hne⟩
      case isFalse =>
        obtain ⟨c, hc, rfl⟩ := Option.map_eq_some_iff.mp h
        exact ⟨_, rfl, fun u hu => by simp [hu], fun _ => by simp [hc]⟩) k.allList ⟨rfl, rfl⟩ hn h₁
  obtain ⟨_, -, h⟩ := Option.bind_eq_some_iff.mp h
  obtain ⟨_, -, h⟩ := Option.bind_eq_some_iff.mp h
  obtain ⟨_, -, h⟩ := Option.bind_eq_some_iff.mp h
  cases h
  exact ⟨thr, _, rfl, hp⟩

/-! ### The handler -/

/-- What the handler does to the threads on a tick on which the priorities are computed. -/
theorem timerMlfqs_spec (hm : cfg.mlfqs = true) (h4 : k.ticks % 4 = 0) (hn : k.allList.Nodup)
    (h : timerMlfqs cfg fuel k = some (k', b)) :
    k'.allList = k.allList ∧ k'.idleThread = k.idleThread ∧
      ∀ t ∈ k.allList, k.idleThread ≠ some t →
        (k'.thr t).priority = formulaPriority (k.thr t).recentCpu (k.thr t).nice ∧
        (k'.thr t).nice = (k.thr t).nice ∧
        if k.ticks % timerFreq = 0 then
          decayedCpu k.loadAvg (k.thr t).recentCpu (k.thr t).nice = some (k'.thr t).recentCpu
        else (k'.thr t).recentCpu = (k.thr t).recentCpu := by
  rw [timerMlfqs, if_pos hm] at h
  obtain ⟨⟨k₁, b₁⟩, h₁, h⟩ := Option.bind_eq_some_iff.mp h
  obtain ⟨k₂, h₂, h⟩ := Option.bind_eq_some_iff.mp h
  obtain ⟨rfl, -⟩ : k₂ = k' ∧ b₁ = b := by simpa using h
  rw [timerPriorities, if_pos h4] at h₁
  obtain ⟨k₃, h₃, e⟩ := Option.map_eq_some_iff.mp h₁
  obtain rfl : k₃ = k₁ := congrArg Prod.fst e
  obtain ⟨thr, el, ev, rfl, hp⟩ := mlfqsUpdatePriorityAll_spec hn h₃
  dsimp only [timerLoad] at h₂
  split at h₂
  case isTrue hf =>
    have hf : k.ticks % timerFreq = 0 := hf
    obtain ⟨thr', la, rfl, hd⟩ := mlfqsUpdateRcpuLa_spec (k := { k.setThr thr with
      elems := el, log := ev }) hn h₂
    refine ⟨rfl, rfl, fun t ht hi => ?_⟩
    obtain ⟨hu, hr, hni⟩ := hp t ht hi
    obtain ⟨hpri, hni', hdec⟩ := hd t ht hi
    have hu : (thr t).priority = formulaPriority (thr t).recentCpu (thr t).nice := hu
    rw [hr, hni] at hu
    refine ⟨hpri.trans hu, hni'.trans hni, ?_⟩
    rw [if_pos hf, ← hr, ← hni]
    exact hdec
  case isFalse hf =>
    have hf : ¬ k.ticks % timerFreq = 0 := hf
    cases h₂
    refine ⟨rfl, rfl, fun t ht hi => ?_⟩
    obtain ⟨hu, hr, hni⟩ := hp t ht hi
    have hu : (thr t).priority = formulaPriority (thr t).recentCpu (thr t).nice := hu
    rw [hr, hni] at hu
    refine ⟨hu, hni, ?_⟩
    rw [if_neg hf]
    exact hr

/-- **Priorities at every fourth tick**: when the handler returns from such a tick, every thread
but the idle thread has the priority of its `recent_cpu` and `nice` if and only if the tick does
not end a second, or the decay of `recent_cpu` changes nobody's priority. -/
theorem priorities_up_to_date (hm : cfg.mlfqs = true) (hr : Reachable cfg ok k)
    (h4 : (k.ticks + 1) % 4 = 0) (h : timerHandler cfg fuel k = some (k', b)) :
    (∀ t ∈ k'.allList, k'.idleThread ≠ some t → UpToDate (k'.thr t)) ↔
      (k.ticks + 1) % timerFreq ≠ 0 ∨
        ∀ t ∈ k.allList, k.idleThread ≠ some t →
          ∀ c, decayedCpu k.loadAvg (tickedCpu cfg k t) (k.thr t).nice = some c →
            formulaPriority (tickedCpu cfg k t) (k.thr t).nice =
              formulaPriority c (k.thr t).nice := by
  obtain ⟨k₁, k₂, b', ht, hw, -, hl, -⟩ := timerHandler_cases h
  have hticks : k₂.ticks = k.ticks + 1 := hw.ticks.trans ht.ticks
  have hla : k₂.loadAvg = k.loadAvg := hw.loadAvg.trans ht.loadAvg
  have hall : k₂.allList = k.allList := hw.allList.trans ht.allList
  have hidle : k₂.idleThread = k.idleThread := hw.idleThread.trans ht.idleThread
  have hcpu : ∀ u, (k₂.thr u).recentCpu = tickedCpu cfg k u := by
    intro u
    rw [hw.recentCpu, ht.thr]
  have hnice : ∀ u, (k₂.thr u).nice = (k.thr u).nice := by
    intro u
    rw [hw.nice, ht.thr]
  obtain ⟨ha, hi, hp⟩ := timerMlfqs_spec hm (hticks ▸ h4) (hall ▸ hr.allListOk.nodup) hl
  rw [ha, hi, hall, hidle]
  rw [hall, hidle, hticks, hla] at hp
  by_cases hf : (k.ticks + 1) % timerFreq = 0
  · have hiff : ∀ t ∈ k.allList, k.idleThread ≠ some t → (UpToDate (k'.thr t) ↔
        ∀ c, decayedCpu k.loadAvg (tickedCpu cfg k t) (k.thr t).nice = some c →
          formulaPriority (tickedCpu cfg k t) (k.thr t).nice =
            formulaPriority c (k.thr t).nice) := by
      intro t htm hti
      obtain ⟨hpri, hni, hdec⟩ := hp t htm hti
      rw [if_pos hf, hcpu, hnice] at hdec
      rw [hcpu, hnice] at hpri
      rw [UpToDate, hpri, hni, hnice, hdec]
      simp
    rw [or_iff_right (not_not.mpr hf)]
    exact forall_congr' fun t => forall_congr' fun htm => forall_congr' fun hti => hiff t htm hti
  · refine iff_of_true (fun t htm hti => ?_) (.inl hf)
    obtain ⟨hpri, hni, hsame⟩ := hp t htm hti
    rw [if_neg hf] at hsame
    rw [UpToDate, hpri, hni, hsame]

/-- Boot, and `n` times four ticks, the last of which ends the time slice of the initial
thread, who then goes on. -/
def tickLabels (n : ℕ) : List Label :=
  List.replicate 48 Label.run ++ (List.replicate n [Label.timer, .timer, .timer, .timer, .run]).flatten ++
    [Label.timer, .timer, .timer]

/-- The fourth tick. -/
theorem priorities_up_to_date_fourth : ∃ k k' b, Reachable mlfqsTidConfig (fun _ _ => True) k ∧
    k.ticks + 1 = 4 ∧ timerHandler mlfqsTidConfig 70 k = some (k', b) ∧
      ∀ t ∈ k'.allList, k'.idleThread ≠ some t → UpToDate (k'.thr t) := by
  obtain ⟨k, hr, hk⟩ := exists_reachable mlfqsTidConfig 70 (fun _ _ => True)
    (List.replicate 77 Label.run ++ tickLabels 0)
    (fun k => k.ticks + 1 = 4 ∧ (timerHandler mlfqsTidConfig 70 k).isSome) (by decide +kernel)
  obtain ⟨h4, hs⟩ := of_decide_eq_true hk
  obtain ⟨⟨k', b⟩, h⟩ := Option.isSome_iff_exists.mp hs
  exact ⟨k, k', b, hr, h4, h, (priorities_up_to_date rfl hr (by rw [h4]; decide) h).mpr
    (.inl (by rw [h4]; decide))⟩

/-- At the end of the first second the `recent_cpu` of the initial thread decays, and its
priority is still that of the old value. -/
theorem priorities_out_of_date : ∃ k k' b, Reachable mlfqsTidConfig (fun _ _ => True) k ∧
    (k.ticks + 1) % 4 = 0 ∧ timerHandler mlfqsTidConfig 70 k = some (k', b) ∧
      ¬ ∀ t ∈ k'.allList, k'.idleThread ≠ some t → UpToDate (k'.thr t) := by
  obtain ⟨k, hr, hk⟩ := exists_reachable mlfqsTidConfig 70 (fun _ _ => True)
    (List.replicate 77 Label.run ++ tickLabels 24)
    (fun k => (k.ticks + 1) % 4 = 0 ∧ (timerHandler mlfqsTidConfig 70 k).any fun r =>
      0 ∈ r.1.allList ∧ r.1.idleThread ≠ some 0 ∧ ¬ UpToDate (r.1.thr 0)) (by decide +kernel)
  obtain ⟨h4, hs⟩ := of_decide_eq_true hk
  obtain ⟨⟨k', b⟩, h, hp⟩ := (Option.any_eq_true _ _).mp hs
  obtain ⟨ha, hi, hu⟩ := of_decide_eq_true hp
  exact ⟨k, k', b, hr, h4, h, fun hall => hu (hall 0 ha hi)⟩

end Pintos
