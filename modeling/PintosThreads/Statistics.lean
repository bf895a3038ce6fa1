/-
PintosThreads/Statistics.lean

The statistics that `thread_get_load_avg` and `thread_get_recent_cpu` return.

Both scale a fixed-point number by 100 in an `int` and round the product to
the nearest integer.  The load average is never too large for that with as
many ready threads as the functions are meant for (`Reachable.load_bounds`).
A `recent_cpu` may be: the functions are right as long as it is at most 1310
seconds and a fraction in absolute value (`statistics_exact`), and a run of
fourteen seconds takes it beyond that (`statistics_overflow`).
-/
import PintosThreads.StaleCpu

namespace Pintos

variable {cfg : Config} {fuel : ℕ} {ok : Kernel → Label → Prop} {k k' : Kernel} {N : ℕ}
variable {x : ℤ} {b : Bool}

/-! ### The functions -/

def threadGetLoadAvg (k : Kernel) : ℤ :=
  fpToIntNearest (fpMulInt k.loadAvg 100)

def threadGetRecentCpu (k : Kernel) : ℤ :=
  let temp := fpMulInt (k.thr k.cur).recentCpu 100
  fpToIntNearest temp

/-! ### Rounding -/

/-- `n` is the integer nearest to `num / den`; of two it is the one farther from zero. -/
structure RoundsAway (num den n : ℤ) : Prop where
  nearest : ∀ m : ℤ, (n * den - num).natAbs ≤ (m * den - num).natAbs
  away : ∀ m : ℤ, (n * den - num).natAbs = (m * den - num).natAbs → m.natAbs ≤ n.natAbs

/-- The sum that `fp_to_int_nearest` divides is an `int`. -/
def NearestFits (x : ℤ) : Prop :=
  if x ≥ 0 then InInt32 (x + fpOne / 2) else InInt32 (x - fpOne / 2)

theorem fpToIntNearest_rounds (h : NearestFits x) : RoundsAway x fpOne (fpToIntNearest x) := by
  have hF : fpOne = 16384 := rfl
  rw [NearestFits] at h
  rw [fpToIntNearest]
  split at h
  case isTrue h0 =>
    rw [if_pos h0, toInt32_of_inInt32 h, hF, Int.tdiv_eq_ediv_of_nonneg (by omega)]
    constructor <;> intro m <;> omega
  case isFalse h0 =>
    have hneg : (x - 16384 / 2).tdiv 16384 = -((16384 / 2 - x) / 16384) := by
      rw [← Int.neg_sub, Int.neg_tdiv, Int.tdiv_eq_ediv_of_nonneg (by omega)]
    rw [if_neg h0, toInt32_of_inInt32 h, hF, hneg]
    constructor <;> intro m <;> omega

/-- `x` is reported as `n`: every `int` on the way to it holds its value, and `n` is the integer
nearest to `100 * x / 2 ^ 14`. -/
structure Reported (x n : ℤ) : Prop where
  scaled : InInt32 (x * 100)
  summed : NearestFits (x * 100)
  rounds : RoundsAway (x * 100) fpOne n

/-- **The safe range** of the two functions. -/
theorem reported_iff (x : ℤ) :
    Reported x (fpToIntNearest (fpMulInt x 100)) ↔ -21474754 ≤ x ∧ x ≤ 21474754 := by
  have hF : fpOne = 16384 := rfl
  have hfit : InInt32 (x * 100) ∧ NearestFits (x * 100) ↔ -21474754 ≤ x ∧ x ≤ 21474754 := by
    rw [NearestFits, hF]
    split <;> simp only [InInt32] <;> omega
  constructor
  · intro h
    exact hfit.mp ⟨h.scaled, h.summed⟩
  · intro h
    obtain ⟨hs, hn⟩ := hfit.mpr h
    refine ⟨hs, hn, ?_⟩
    rw [fpMulInt, toInt32_of_inInt32 hs]
    exact fpToIntNearest_rounds hn

/-! ### The load average -/

/-- Only the interrupt that ends a second changes the load average. -/
theorem step_loadAvg {lab : Label} (hm : cfg.mlfqs = true) (hr : Reachable cfg ok k)
    (h : step cfg fuel k lab = some k') :
    k'.loadAvg = k.loadAvg ∨ lab = .timer ∧ (k.ticks + 1) % timerFreq = 0 ∧
      ∃ n : ℕ, secondCount cfg fuel k = some n ∧ k'.loadAvg = nextLoad k.loadAvg n := by
  have hintr : lab.isInterrupt = true → k'.loadAvg = k.loadAvg ∨
      lab = .timer ∧ (k.ticks + 1) % timerFreq = 0 ∧
        ∃ n : ℕ, secondCount cfg fuel k = some n ∧ k'.loadAvg = nextLoad k.loadAvg n := by
    intro hl
    rw [step_interrupt hl] at h
    split at h
    case isFalse => cases h
    obtain ⟨⟨k₁, y⟩, h₁, h⟩ := Option.bind_eq_some_iff.mp h
    have hn : k'.loadAvg = k₁.loadAvg := congrArg Prod.snd (interruptReturn_sameCpu h).2
    by_cases ht : lab = .timer
    · subst ht
      have T := timerHandler_ticks hm hr.allListOk.nodup h₁
      by_cases hT : (k.ticks + 1) % timerFreq = 0
      · obtain ⟨n, hc, hl⟩ := T.load hT
        exact .inr ⟨rfl, hT, n, hc, hn.trans hl⟩
      · exact .inl (hn.trans (T.loadAvg hT))
    · exact .inl (hn.trans (congrArg Prod.snd (semaHandler_sameCpu ht h₁).2))
  cases lab with
  | call c =>
      rw [step] at h
      split at h
      case isFalse => cases h
      case isTrue =>
        cases h
        exact .inl rfl
  | run =>
      rcases e : k.stack k.cur with - | ⟨f, fs⟩
      · simp [step, e] at h
      · rw [step, e] at h
        have hR : Resumes (popFrame k fs) f k' := exec_resumes (Reachable.anySync hr).2 h
        exact .inl (congrArg Prod.snd hR.numbers)
  | _ => exact hintr rfl

/-- With at most `N` ready threads the load average is at most `N`. -/
theorem Reachable.load_bounds (hm : cfg.mlfqs = true) (hN : N < 2 ^ 17)
    (hok : ∀ k lab, ok k lab → lab.CountsTo cfg N k) (h : Reachable cfg ok k) :
    0 ≤ k.loadAvg ∧ k.loadAvg ≤ N * fpOne := by
  induction h with
  | refl => exact ⟨le_rfl, mul_nonneg N.cast_nonneg (by decide)⟩
  | @tail k k' hr hstep ih =>
      obtain ⟨lab, fuel, hlab, h⟩ := hstep
      rcases step_loadAvg hm hr h with hl | ⟨ht, hT, n, hn, hl⟩
      · rw [hl]
        exact ih
      · have hnN := hok _ _ hlab ht hT fuel n hn
        rw [hl]
        exact nextLoad_le (by omega) ih.1 ih.2 (by omega) (by exact_mod_cast hnN)

/-! ### The reports -/

/-- **The statistics are exact** in every run with at most 1310 ready threads, as long as the
`recent_cpu` of the running thread is in the safe range: the load average always is reported
exactly, and `recent_cpu` is if and only if it is in that range. -/
theorem statistics_exact (hm : cfg.mlfqs = true) (hN : N ≤ 1310)
    (hok : ∀ k lab, ok k lab → lab.CountsTo cfg N k) (h : Reachable cfg ok k) :
    Reported k.loadAvg (threadGetLoadAvg k) ∧
      (Reported (k.thr k.cur).recentCpu (threadGetRecentCpu k) ↔
        -21474754 ≤ (k.thr k.cur).recentCpu ∧ (k.thr k.cur).recentCpu ≤ 21474754) := by
  have hF : fpOne = 16384 := rfl
  obtain ⟨h0, h1⟩ := h.load_bounds hm (by omega) hok
  refine ⟨(reported_iff _).mpr ⟨by omega, ?_⟩, reported_iff _⟩
  rw [hF] at h1
  omega

/-- Four ticks into the second second: the load average is 1 / 60, and the ticks of the first
second have decayed. -/
theorem statistics_exact_second : ∃ k : Kernel, k.ticks = 104 ∧ k.loadAvg = 273 ∧
    (k.thr k.cur).recentCpu = 4 * fpOne ∧ Reported k.loadAvg (threadGetLoadAvg k) ∧
      Reported (k.thr k.cur).recentCpu (threadGetRecentCpu k) := by
  obtain ⟨k, hr, h⟩ := exists_reachable mlfqsConfig 70 Label.Solo (tickLabels 25 ++ [.timer])
    (fun k => decide (k.ticks = 104 ∧ k.loadAvg = 273 ∧ (k.thr k.cur).recentCpu = 4 * fpOne))
    (by decide +kernel)
  obtain ⟨ht, hl, hc⟩ := of_decide_eq_true h
  have hr' : Reachable mlfqsConfig (fun k lab => lab.CountsTo mlfqsConfig 64 k) k :=
    hr.mono fun _ _ hr hlab e hT fuel n hn => ((hlab.counts hr).1 e hT fuel n hn).trans (by decide)
  obtain ⟨hload, hcpu⟩ := statistics_exact (N := 64) rfl (by norm_num) (fun _ _ h => h) hr'
  refine ⟨k, ht, hl, hc, hload, hcpu.mpr ?_⟩
  rw [hc]
  decide

/-- The listed threads that are ready to run. -/
def Kernel.readyCount (k : Kernel) : ℕ :=
  (k.allList.filter fun t => (k.thr t).status = .ready).length

/-- A thread that has been handed the ticks of fourteen seconds: with never more than three
threads its `recent_cpu` leaves the safe range. -/
theorem statistics_overflow : ¬ ∀ k : Kernel,
    Reachable mlfqsConfig (fun k lab => lab.CountsTo mlfqsConfig 64 k ∧ k.readyCount ≤ 64) k →
      Reported k.loadAvg (threadGetLoadAvg k) ∧
        Reported (k.thr k.cur).recentCpu (threadGetRecentCpu k) := by
  intro h
  obtain ⟨k, hr, -, hcpu⟩ := stale_recent_cpu (j := 14) (by norm_num)
  have hr : Reachable mlfqsConfig
      (fun k lab => lab.CountsTo mlfqsConfig 64 k ∧ k.readyCount ≤ 64) k := by
    refine Relation.ReflTransGen.mono (fun k k' ⟨lab, fuel, ⟨hc, hl⟩, h⟩ => ?_) _ _ hr
    refine ⟨lab, fuel, ⟨fun e hT fuel n hn => (hc e hT fuel n hn).trans (by norm_num), ?_⟩, h⟩
    have hlen : k.readyCount ≤ k.allList.length := List.length_filter_le ..
    omega
  obtain ⟨-, hrep⟩ := h k hr
  have hmax := ((reported_iff _).mp hrep).2
  rw [hcpu] at hmax
  exact absurd hmax (by decide)

end Pintos
