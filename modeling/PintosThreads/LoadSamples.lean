/-
PintosThreads/LoadSamples.lean

The load average of the running system.

`LoadAverage` is about the recurrence.  Here it is connected with the runs of
the kernel in MLFQS mode.  A sample is taken in the timer interrupt that ends a
second, after the threads that are due have been woken, and it is the number of
threads that are running or ready (`Kernel.busy`): the idle thread is not
counted, and it makes no difference that the interrupt may switch afterwards.
Nothing else writes `load_avg`.  So at any time it is the fixed-point average of
the samples so far, one a second, and it keeps its distance to the exact one
(`load_avg_run`).
-/
import PintosThreads.Bookkeeping
import PintosThreads.ThreadPages
import PintosThreads.Turns
import PintosThreads.WaiterLists
import PintosThreads.Statistics

namespace Pintos

open Intrusive

variable {cfg : Config} {fuel : ℕ} {srt : Prop} {ok : Kernel → Label → Prop}
variable {k k₁ k' : Kernel} {lab : Label} {N : ℕ}

/-! ### The samples -/

/-- The number of threads that are running or ready, but for the idle thread. -/
def Kernel.busy (k : Kernel) : ℕ :=
  k.allList.countP fun t => k.idleThread ≠ some t ∧
    ((k.thr t).status = .ready ∨ (k.thr t).status = .running)

theorem mlfqsQueued_mono {e : Links ListPtr ThreadPtr} (d : ℕ) : ∀ (i : ℕ) {n : ℕ},
    mlfqsQueued fuel e i = some n → mlfqsQueued (fuel + d) e i = some n
  | 0, _, h => h
  | i + 1, n, h => by
      simp only [mlfqsQueued, Option.bind_eq_bind, Option.bind_eq_some_iff] at h
      obtain ⟨c, hc, s, hs, h⟩ := h
      simp only [mlfqsQueued, mlfqsQueued_mono d i hc, listSize_mono hs d, Option.bind_eq_bind,
        Option.bind_some]
      exact h

/-- The threads that are counted. -/
theorem Scheduling.busy_eq (S : Scheduling cfg srt k) : k.busy = Set.ncard
    {t | k.idleThread ≠ some t ∧ ((k.thr t).status = .ready ∨ (k.thr t).status = .running)} := by
  obtain ⟨⟨q, home, L, P⟩, -⟩ := S
  have hset : {t | k.idleThread ≠ some t ∧
      ((k.thr t).status = .ready ∨ (k.thr t).status = .running)} =
      ↑(k.allList.filter fun t => k.idleThread ≠ some t ∧
        ((k.thr t).status = .ready ∨ (k.thr t).status = .running)).toFinset := by
    ext t
    simp only [Set.mem_ofPred_eq, Finset.mem_coe, List.mem_toFinset, List.mem_filter,
      decide_eq_true_eq]
    refine ⟨fun ht => ⟨?_, ht⟩, fun ht => ht.2⟩
    have halive : (k.thr t).status ≠ .dying := by
      intro hd
      rcases ht.2 with h | h <;> · rw [hd] at h; cases h
    exact (P.all t).mpr ⟨P.lt halive, halive⟩
  rw [hset, Set.ncard_coe_finset, List.toFinset_card_of_nodup (P.allNodup.filter _),
    ← List.countP_eq_length_filter]
  rfl

/-- **`mlfqs_ready_threads`** counts the busy threads. -/
theorem Scheduling.readyThreads_busy {n : ℕ} (hm : cfg.mlfqs = true) (S : Scheduling cfg srt k)
    (h : mlfqsReadyThreads fuel k = some n) : n = k.busy := by
  have hmore : mlfqsReadyThreads (fuel + (k.nextThread + 1)) k = some n := by
    obtain ⟨c, hc, h⟩ := Option.bind_eq_some_iff.mp h
    rw [mlfqsReadyThreads, mlfqsQueued_mono _ _ hc]
    exact h
  rw [S.readyThreads hm (Nat.lt_add_left fuel (Nat.lt_succ_self _))] at hmore
  rw [S.busy_eq]
  exact (Option.some.inj hmore).symm

/-- A switch in an interrupt makes no difference. -/
theorem Returns.busy (S : Scheduling cfg srt k) (S' : Scheduling cfg srt k')
    (hc : (k.thr k.cur).status = .running) (h : Returns srt k k') : k'.busy = k.busy := by
  rw [S.busy_eq, S'.busy_eq]
  congr 1
  ext t
  simp only [Set.mem_ofPred_eq]
  obtain rfl | h := h
  · rfl
  · have hi : k'.idleThread = k.idleThread := h.idleThread
    rw [hi]
    refine and_congr_right fun hne => ?_
    rw [h.status t]
    split
    case isTrue ht =>
      -- the thread that is picked was the running one, or a ready one
      refine iff_of_true (.inr rfl) ?_
      rw [ht] at hne ⊢
      rcases h.next with e | hr | hi'
      · rw [e]
        exact .inr hc
      · exact .inl hr
      · exact absurd hi' hne
    case isFalse =>
      split
      case isTrue ht =>
        -- the thread that has been switched from is ready
        rw [ht]
        exact iff_of_true (.inl rfl) (.inr hc)
      case isFalse => exact Iff.rfl

/-- What is counted has been left as it was when the handler is done. -/
theorem timerHandler_count {n : ℕ} {b : Bool} (hm : cfg.mlfqs = true)
    (hT : (k.ticks + 1) % timerFreq = 0) (hn : secondCount cfg fuel k = some n)
    (h : timerHandler cfg fuel k = some (k', b)) : mlfqsReadyThreads fuel k' = some n := by
  simp only [timerHandler, Option.bind_eq_bind, Option.bind_eq_some_iff] at h
  obtain ⟨k₂, h₂, ⟨k₃, b₃⟩, h₃, h⟩ := h
  cases h
  rw [timerMlfqs, if_pos hm] at h₃
  obtain ⟨⟨k₄, b₄⟩, h₄, h₃⟩ := Option.bind_eq_some_iff.mp h₃
  obtain ⟨k₅, h₅, h₃⟩ := Option.bind_eq_some_iff.mp h₃
  cases h₃
  -- what the handler does before the load average takes no further tick
  have hticks : k₄.ticks = k.ticks + 1 := by
    have hp : Turns 0 k₂ k₄ := by
      rw [timerPriorities] at h₄
      split at h₄
      · obtain ⟨k₆, h₆, h₄⟩ := Option.map_eq_some_iff.mp h₄
        cases h₄
        exact mlfqsUpdatePriorityAll_turns h₆
      · cases h₄
        exact .refl k₂
    have htick : OneTick k (threadTick cfg (ticked k)).1 := (threadTick_oneTick k).1
    exact ((htick.turns (timerWakeup_turns _ h₂)).turns hp).ticks
  rw [timerLoad, hticks, if_pos hT] at h₅
  obtain ⟨k₆, h₆, h₅⟩ := Option.bind_eq_some_iff.mp h₅
  have hcount : mlfqsReadyThreads fuel k₆ = some n := by
    rw [← hn]
    simp only [secondCount, Option.bind_eq_bind, h₂, h₄, h₆, Option.bind_some]
  rw [mlfqsUpdateLoadAvg_eq hcount] at h₅
  cases h₅
  exact hcount

/-- **The interrupt that ends a second** takes the number of threads that are busy when it returns
for a sample. -/
theorem Good.sample (hm : cfg.mlfqs = true) (G : Good cfg srt k) (G' : Good cfg srt k')
    (C : Control k) (C' : Control k') (hT : (k.ticks + 1) % timerFreq = 0)
    (h : Pintos.step cfg fuel k .timer = some k') :
    k'.loadAvg = nextLoad k.loadAvg k'.busy := by
  obtain ⟨⟨q, home, L, P⟩, hr⟩ := G.sched
  rw [Pintos.step] at h
  split at h
  case isFalse => cases h
  rw [timerInterrupt_eq] at h
  obtain ⟨⟨k₁, b⟩, h₁, h⟩ := Option.bind_eq_some_iff.mp h
  obtain ⟨hw, q₁, home₁, L₁, P₁⟩ := L.timerHandler P hr C.inv.idleFree h₁
  have S₁ : Scheduling cfg srt k₁ := ⟨⟨q₁, home₁, L₁, P₁⟩, hw.inRange (endHalt_inRange hr)⟩
  obtain ⟨hret, -⟩ := L₁.interruptReturn P₁ S₁.2 C'.inv.idleFree h
  have hload : k'.loadAvg = k₁.loadAvg := congrArg Prod.snd (interruptReturn_sameCpu h).2
  obtain ⟨n, hn, hl⟩ := (timerHandler_ticks hm P.allNodup h₁).load hT
  rw [hret.busy S₁ G'.sched P₁.cur_running, hload, hl,
    S₁.readyThreads_busy hm (timerHandler_count hm hT hn h₁)]

/-! ### Averages -/

/-- The average of the samples `ns` that `mlfqs_update_load_avg` computes. -/
def fixedAverage (ns : List ℕ) : ℤ :=
  ns.foldl (fun (l : ℤ) (n : ℕ) => nextLoad l n) 0

/-- The exact average. -/
def exactAverage (ns : List ℕ) : ℚ :=
  ns.foldl (fun (l : ℚ) (n : ℕ) => 59 / 60 * l + n / 60) 0

/-- **The error** of the fixed-point average: a sample shrinks it by the factor 59/60, and adds
less than `N + 1` units of the last place to it. -/
theorem fixedAverage_error (hN : N < 2 ^ 17) (ns : List ℕ) (hn : ∀ n ∈ ns, n ≤ N) :
    (0 ≤ fixedAverage ns ∧ fixedAverage ns ≤ N * fpOne) ∧
      0 ≤ 16384 * exactAverage ns - fixedAverage ns ∧
      16384 * exactAverage ns - fixedAverage ns ≤ 60 * (N + 1) := by
  induction ns using List.reverseRecOn with
  | nil =>
      refine ⟨⟨le_rfl, mul_nonneg N.cast_nonneg (by decide)⟩, ?_⟩
      have h : (0 : ℚ) ≤ 60 * (N + 1) := by positivity
      simpa [fixedAverage, exactAverage] using h
  | append_singleton ns n ih =>
      obtain ⟨⟨h0, h1⟩, e0, e1⟩ := ih fun m hm => hn m (by simp [hm])
      have hnN : (n : ℤ) ≤ N := by exact_mod_cast hn n (by simp)
      have hb := nextLoad_le hN h0 h1 (Int.natCast_nonneg n) hnN
      have he := (nextLoad_eq hN h0 h1 (Int.natCast_nonneg n) hnN).2
      have hf : fixedAverage (ns ++ [n]) = nextLoad (fixedAverage ns) n := by
        rw [fixedAverage, List.foldl_append]
        rfl
      have hx : exactAverage (ns ++ [n]) = 59 / 60 * exactAverage ns + n / 60 := by
        rw [exactAverage, List.foldl_append]
        rfl
      rw [hf, hx]
      refine ⟨hb, ?_⟩
      rw [he]
      have hF : fpOne = 16384 := rfl
      rw [hF] at h1
      generalize fixedAverage ns = x at *
      -- the product is rounded down by less than one unit
      have hlo : 16384 * (16110 * x / 16384) ≤ 16110 * x := by omega
      have hhi : 16110 * x < 16384 * (16110 * x / 16384 + 1) := by omega
      generalize 16110 * x / 16384 = a at hlo hhi
      have hlo' : (16384 : ℚ) * a ≤ 16110 * x := by exact_mod_cast hlo
      have hhi' : (16110 : ℚ) * x < 16384 * (a + 1) := by exact_mod_cast hhi
      have h0' : (0 : ℚ) ≤ x := by exact_mod_cast h0
      have h1' : (x : ℚ) ≤ N * 16384 := by exact_mod_cast h1
      have hn' : (n : ℚ) ≤ N := by exact_mod_cast hnN
      have hn0 : (0 : ℚ) ≤ n := by positivity
      push_cast
      constructor <;> linarith

/-! ### Runs -/

/-- The states in which the timer interrupts return that end a second. -/
def secondEnds : List (Kernel × Label) → Kernel → List Kernel
  | [], _ => []
  | (_, lab) :: tr, k' =>
      let next := (tr.head?.map Prod.fst).getD k'
      if lab = .timer ∧ next.ticks % timerFreq = 0 then next :: secondEnds tr k'
      else secondEnds tr k'

theorem secondEnds_snoc (tr : List (Kernel × Label)) (k₁ k₂ : Kernel) (lab : Label) :
    secondEnds (tr ++ [(k₁, lab)]) k₂ = secondEnds tr k₁ ++
      if lab = .timer ∧ k₂.ticks % timerFreq = 0 then [k₂] else [] := by
  induction tr with
  | nil =>
      show (if _ then _ else _) = [] ++ _
      rw [List.nil_append]
      rfl
  | cons s tr ih =>
      obtain ⟨k, lab'⟩ := s
      have hnext : ((tr ++ [(k₁, lab)]).head?.map Prod.fst).getD k₂ =
          (tr.head?.map Prod.fst).getD k₁ := by
        cases tr <;> rfl
      rw [List.cons_append, secondEnds, secondEnds, hnext, ih]
      split <;> rfl

/-- **The samples of a run**: one for each second, and the load average is made of them. -/
theorem Path.loadAvg {tr : List (Kernel × Label)} (hm : cfg.mlfqs = true)
    (hT : ∀ k lab, Reachable cfg ok k → ok k lab → Tame cfg srt k lab)
    (hrun : Path cfg ok (boot cfg) tr k) :
    ((secondEnds tr k).length : ℤ) = k.ticks / timerFreq ∧
      k.loadAvg = fixedAverage ((secondEnds tr k).map Kernel.busy) ∧ 0 ≤ k.ticks := by
  induction hrun with
  | nil => exact ⟨rfl, rfl, le_rfl⟩
  | @snoc k₁ k₂ tr lab fuel hrun hok hs ih =>
      obtain ⟨hlen, hload, h0⟩ := ih
      have hr₁ : Reachable cfg ok k₁ := hrun.reachable .refl
      have hr₂ : Reachable cfg ok k₂ := hr₁.tail ⟨lab, fuel, hok, hs⟩
      obtain ⟨-, hticks, -⟩ := step_slice hs hr₁.threadTicks
      rw [secondEnds_snoc]
      have hF : timerFreq = 100 := rfl
      by_cases hend : lab = .timer ∧ (k₁.ticks + 1) % timerFreq = 0
      · -- the end of a second: one more sample
        obtain ⟨rfl, hend⟩ := hend
        have hl := (hr₁.good hT).sample hm (hr₂.good hT) hr₁.control hr₂.control hend hs
        rw [if_pos rfl] at hticks
        rw [← hticks] at hend
        rw [if_pos ⟨rfl, hend⟩, List.length_append, List.map_append, hl, hload]
        refine ⟨?_, ?_, by omega⟩
        · rw [hF] at hlen hend ⊢
          push_cast
          rw [hlen]
          show k₁.ticks / 100 + 1 = k₂.ticks / 100
          omega
        · rw [fixedAverage, fixedAverage, List.foldl_append]
          rfl
      · -- any other step leaves the load average and the number of seconds as they are
        have hl : k₂.loadAvg = k₁.loadAvg := by
          rcases step_loadAvg hm hr₁ hs with hl | ⟨ht, he, -⟩
          · exact hl
          · exact absurd ⟨ht, he⟩ hend
        have hno : ¬ (lab = .timer ∧ k₂.ticks % timerFreq = 0) := by
          rintro ⟨rfl, he⟩
          rw [hticks, if_pos rfl] at he
          exact hend ⟨rfl, he⟩
        rw [if_neg hno, List.append_nil, hl, hlen, hload]
        refine ⟨?_, rfl, by split at hticks <;> omega⟩
        rw [hF] at *
        by_cases ht : lab = .timer
        · rw [if_pos ht] at hticks
          have hmod : k₂.ticks % 100 ≠ 0 := fun he => hno ⟨ht, he⟩
          omega
        · rw [if_neg ht] at hticks
          omega

/-- **The load average of the running system**: in every run of tame steps in MLFQS mode it is the
fixed-point average of the numbers of busy threads, one sample for each second that has passed, and
with at most `N` busy threads it is below the exact average by at most `60 (N + 1)` units of the
last place. -/
theorem load_avg_run {tr : List (Kernel × Label)} (hm : cfg.mlfqs = true) (hN : N < 2 ^ 17)
    (hT : ∀ k lab, Reachable cfg ok k → ok k lab → Tame cfg srt k lab)
    (hrun : Path cfg ok (boot cfg) tr k) (hn : ∀ s ∈ secondEnds tr k, s.busy ≤ N) :
    ((secondEnds tr k).length : ℤ) = k.ticks / timerFreq ∧
      k.loadAvg = fixedAverage ((secondEnds tr k).map Kernel.busy) ∧
      (0 ≤ k.loadAvg ∧ k.loadAvg ≤ N * fpOne) ∧
      0 ≤ exactAverage ((secondEnds tr k).map Kernel.busy) - k.loadAvg / fpOne ∧
      exactAverage ((secondEnds tr k).map Kernel.busy) - k.loadAvg / fpOne ≤
        60 * (N + 1) / fpOne := by
  obtain ⟨hlen, hload, -⟩ := hrun.loadAvg hm hT
  have herr := fixedAverage_error hN ((secondEnds tr k).map Kernel.busy) (by simpa using hn)
  rw [← hload] at herr
  obtain ⟨hb, e0, e1⟩ := herr
  refine ⟨hlen, hload, hb, ?_⟩
  rw [show ((fpOne : ℤ) : ℚ) = 16384 by norm_num [fpOne]]
  constructor <;> linarith

/-- A second in which the initial thread is alone. -/
theorem load_avg_run_second : ∃ tr k,
    Path mlfqsTidConfig (fun k lab => lab.peaceful k) (boot mlfqsTidConfig) tr k ∧
      (secondEnds tr k).map Kernel.busy = [1] ∧ k.ticks / timerFreq = 1 ∧
      k.loadAvg = fixedAverage [1] ∧
      exactAverage [1] - k.loadAvg / fpOne ≤ 60 * ((1 : ℕ) + 1) / fpOne := by
  let labs : List Label := List.replicate 125 .run ++
    (List.replicate 25 [Label.timer, .timer, .timer, .timer, .run]).flatten
  have hk : ((execute mlfqsTidConfig 70 (fun k lab => lab.peaceful k) (boot mlfqsTidConfig) labs).any
      fun k => (secondEnds (trace mlfqsTidConfig 70 (boot mlfqsTidConfig) labs) k).map Kernel.busy = [1])
        = true := by
    decide +kernel
  obtain ⟨k, hx, hb⟩ := (Option.any_eq_true _ _).mp hk
  have hb := of_decide_eq_true hb
  have hrun := execute_path hx
  have hT : ∀ k lab, Reachable mlfqsTidConfig (fun k lab => lab.peaceful k) k →
      lab.peaceful k = true → Tame mlfqsTidConfig True k lab := fun _ _ _ h => Label.peaceful.tame h
  have hn : ∀ s ∈ secondEnds (trace mlfqsTidConfig 70 (boot mlfqsTidConfig) labs) k, s.busy ≤ 1 := by
    intro s hs
    have hmem := List.mem_map_of_mem (f := Kernel.busy) hs
    rw [hb] at hmem
    exact (List.mem_singleton.mp hmem).le
  obtain ⟨hlen, hload, -, -, herr⟩ := load_avg_run rfl (by norm_num) hT hrun hn
  have hone := congrArg List.length hb
  rw [List.length_map] at hone
  rw [hone] at hlen
  rw [hb] at hload herr
  exact ⟨_, k, hrun, hb, hlen.symm, hload, herr⟩

end Pintos
