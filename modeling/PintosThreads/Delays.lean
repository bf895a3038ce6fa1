/-
PintosThreads/Delays.lean

`real_time_sleep` and `real_time_delay` of `devices/timer.c`, with the six
functions that call them, and what a call of `timer_sleep` waits for.

A time of a tick or more is slept through, and the ticks are rounded down; a
shorter one is spent in `busy_wait`.  The loops are counted with the
`loops_per_tick` that `timer_calibrate` has found, so the count is related to the
loops that really fit into a tick (`real_time_sleep_accurate`).

A sleeper stays in `sleep_list` until the interrupt of its tick, or the first one
after it went to sleep if its tick had come by then, and that interrupt wakes it
(`timer_sleep_punctual`).
-/
import PintosThreads.AlarmClock
import PintosThreads.Calibration
import PintosThreads.Runs

namespace Pintos

open Intrusive StableQueue

/-! ### The functions -/

/-- `real_time_delay`, with what it calls `busy_wait` for, or the assertion that fails. -/
def realTimeDelay (loopsPerTick : UInt32) (num denom : ℤ) : Except String ℤ :=
  if denom.tmod 1000 = 0 then
    .ok ((toInt64 ((toInt64 (loopsPerTick.toNat * num)).tdiv 1000 * timerFreq)).tdiv
      (denom.tdiv 1000))
  else .error "denom % 1000 == 0"

/-- How `real_time_sleep` waits. -/
inductive Wait where
  | timerSleep (ticks : ℤ)
  | busyWait (loops : ℤ)
deriving DecidableEq

/-- `real_time_sleep`. -/
def realTimeSleep (intrOn : Bool) (loopsPerTick : UInt32) (num denom : ℤ) : Except String Wait :=
  let ticks := (toInt64 (num * timerFreq)).tdiv denom
  if intrOn then
    if ticks > 0 then .ok (.timerSleep ticks)
    else (realTimeDelay loopsPerTick num denom).map .busyWait
  else .error "intr_get_level () == INTR_ON"

def timerMsleep (intrOn : Bool) (loopsPerTick : UInt32) (ms : ℤ) : Except String Wait :=
  realTimeSleep intrOn loopsPerTick ms 1000

def timerUsleep (intrOn : Bool) (loopsPerTick : UInt32) (us : ℤ) : Except String Wait :=
  realTimeSleep intrOn loopsPerTick us (1000 * 1000)

def timerNsleep (intrOn : Bool) (loopsPerTick : UInt32) (ns : ℤ) : Except String Wait :=
  realTimeSleep intrOn loopsPerTick ns (1000 * 1000 * 1000)

def timerMdelay (loopsPerTick : UInt32) (ms : ℤ) : Except String ℤ :=
  realTimeDelay loopsPerTick ms 1000

def timerUdelay (loopsPerTick : UInt32) (us : ℤ) : Except String ℤ :=
  realTimeDelay loopsPerTick us (1000 * 1000)

def timerNdelay (loopsPerTick : UInt32) (ns : ℤ) : Except String ℤ :=
  realTimeDelay loopsPerTick ns (1000 * 1000 * 1000)

/-- The denominators that the functions are called with. -/
def denoms : List ℤ := [1000, 1000 * 1000, 1000 * 1000 * 1000]

/-! ### Rounding -/

theorem denoms_pos {denom : ℤ} (hd : denom ∈ denoms) : 0 < denom := by
  rcases hd with - | ⟨-, - | ⟨-, - | ⟨-, ⟨⟩⟩⟩⟩ <;> decide

theorem denoms_le {denom : ℤ} (hd : denom ∈ denoms) : denom ≤ 2 ^ 30 := by
  rcases hd with - | ⟨-, - | ⟨-, - | ⟨-, ⟨⟩⟩⟩⟩ <;> decide

/-- Without overflow, a delay is rounded down twice: to a thousand loops, and to a loop. -/
theorem realTimeDelay_bounds {v : UInt32} {num denom : ℤ} (hd : denom ∈ denoms) (hnum : 0 ≤ num)
    (hmul : v.toNat * num * timerFreq < 2 ^ 63) :
    ∃ c, realTimeDelay v num denom = .ok c ∧ 0 ≤ c ∧
      c * denom ≤ v.toNat * num * timerFreq ∧
      v.toNat * num * timerFreq < c * denom + denom + 1000 * timerFreq := by
  have hloops : 0 ≤ v.toNat * num := Int.mul_nonneg (Int.natCast_nonneg _) hnum
  rw [realTimeDelay]
  generalize v.toNat * num = a at hloops hmul ⊢
  have hfreq : timerFreq = 100 := rfl
  rw [hfreq] at hmul ⊢
  rw [toInt64_eq (x := a) (by omega) (by omega), Int.tdiv_eq_ediv_of_nonneg hloops,
    toInt64_eq (x := a / 1000 * 100) (by omega) (by omega)]
  have hq : 0 ≤ a / 1000 * 100 := by omega
  rcases hd with - | ⟨-, - | ⟨-, - | ⟨-, ⟨⟩⟩⟩⟩
  · refine ⟨_, if_pos rfl, ?_⟩
    rw [Int.tdiv_eq_ediv_of_nonneg hq, show (1000 : ℤ).tdiv 1000 = 1 from rfl]
    omega
  · refine ⟨_, if_pos rfl, ?_⟩
    rw [Int.tdiv_eq_ediv_of_nonneg hq, show (1000 * 1000 : ℤ).tdiv 1000 = 1000 from rfl]
    omega
  · refine ⟨_, if_pos rfl, ?_⟩
    rw [Int.tdiv_eq_ediv_of_nonneg hq,
      show (1000 * 1000 * 1000 : ℤ).tdiv 1000 = 1000000 from rfl]
    omega

/-- A negative time is no time. -/
theorem realTimeDelay_neg {v : UInt32} {num denom : ℤ} (hd : denom ∈ denoms) (hnum : num ≤ 0)
    (hlo : -2 ^ 31 ≤ num) : ∃ c, realTimeDelay v num denom = .ok c ∧ c ≤ 0 := by
  have hv : (v.toNat : ℤ) < 2 ^ 32 := by exact_mod_cast v.toNat_lt
  have hloops : -2 ^ 63 ≤ v.toNat * num := by
    calc (-2 ^ 63 : ℤ) = 2 ^ 32 * -2 ^ 31 := by norm_num
      _ ≤ v.toNat * -2 ^ 31 := Int.mul_le_mul_of_nonpos_right hv.le (by norm_num)
      _ ≤ v.toNat * num := Int.mul_le_mul_of_nonneg_left hlo (Int.natCast_nonneg _)
  -- division rounds towards zero, so that the sign can be taken out of all of it
  obtain ⟨a, ha⟩ : ∃ a : ℕ, v.toNat * num = -a :=
    Int.exists_eq_neg_ofNat (Int.mul_nonpos_of_nonneg_of_nonpos (Int.natCast_nonneg _) hnum)
  have hfreq : timerFreq = 100 := rfl
  have hmod : denom.tmod 1000 = 0 := by
    rcases hd with - | ⟨-, - | ⟨-, - | ⟨-, ⟨⟩⟩⟩⟩ <;> rfl
  have hpos : 0 ≤ denom.tdiv 1000 := by
    rcases hd with - | ⟨-, - | ⟨-, - | ⟨-, ⟨⟩⟩⟩⟩ <;> decide
  refine ⟨_, if_pos hmod, ?_⟩
  rw [ha] at hloops ⊢
  rw [hfreq, toInt64_eq (x := -a) (by omega) (by omega), Int.neg_tdiv,
    Int.tdiv_eq_ediv_of_nonneg (Int.natCast_nonneg a),
    toInt64_eq (x := -(a / 1000 : ℤ) * 100) (by omega) (by omega), Int.neg_mul, Int.neg_tdiv]
  exact Int.neg_nonpos_of_nonneg (Int.tdiv_nonneg (by omega) hpos)

/-- A sleep of ticks is rounded down to a tick. -/
theorem realTimeSleep_ticks {v : UInt32} {num denom : ℤ} (hd : denom ∈ denoms)
    (hmul : num * timerFreq < 2 ^ 63) (htick : denom ≤ num * timerFreq) :
    ∃ n, realTimeSleep true v num denom = .ok (.timerSleep n) ∧ 0 < n ∧
      n * denom ≤ num * timerFreq ∧ num * timerFreq < n * denom + denom := by
  have hpos : 0 < denom := denoms_pos hd
  rw [realTimeSleep]
  generalize num * timerFreq = a at hmul htick ⊢
  rw [toInt64_eq (x := a) (by omega) hmul, Int.tdiv_eq_ediv_of_nonneg (by omega)]
  have hn : 1 ≤ a / denom := (Int.le_ediv_iff_mul_le hpos).mpr (by omega)
  have hlt := Int.lt_ediv_add_one_mul_self a hpos
  rw [Int.add_mul, Int.one_mul] at hlt
  exact ⟨a / denom, if_pos hn, hn, Int.ediv_mul_le a hpos.ne', hlt⟩

/-- A shorter one is a delay. -/
theorem realTimeSleep_short {v : UInt32} {num denom : ℤ} (hd : denom ∈ denoms)
    (hlo : -2 ^ 63 ≤ num * timerFreq) (htick : num * timerFreq < denom) :
    realTimeSleep true v num denom = (realTimeDelay v num denom).map .busyWait := by
  have hpos : 0 < denom := denoms_pos hd
  have hle := denoms_le hd
  rw [realTimeSleep]
  generalize num * timerFreq = a at hlo htick ⊢
  rw [toInt64_eq (x := a) hlo (by omega)]
  have hn : ¬ a.tdiv denom > 0 := by
    obtain h | h := le_total 0 a
    · rw [Int.tdiv_eq_zero_of_lt h htick]
      exact lt_irrefl _
    · rw [not_lt, ← Int.neg_nonneg, ← Int.neg_tdiv]
      exact Int.tdiv_nonneg (Int.neg_nonneg_of_nonpos h) hpos.le
  exact if_neg hn

/-- What the calibration leaves is less than a 512th below the loops of a tick. -/
theorem timerCalibrate_close {σ : Type} {tml : UInt32 → σ → Option (Bool × σ)} {T fuel : ℕ}
    {s s' : σ} {v : UInt32} (h : Exactly tml T) (hlo : 2 ^ 10 ≤ T) (hhi : T < 2 ^ 31)
    (hv : timerCalibrate tml true fuel s = some (.ok v, s')) :
    v.toNat ≤ T ∧ 511 * T < 512 * v.toNat := by
  obtain ⟨s₁, hs⟩ := timerCalibrate_eq h hlo hhi fuel s
  rw [hs] at hv
  split at hv
  case isFalse => cases hv
  case isTrue =>
    cases hv
    have hle := leading_le T (Nat.log 2 T - 10 + 1)
    rw [UInt32.toNat_ofNat', Nat.mod_eq_of_lt (by omega)]
    -- the highest bit of the threshold is at most the threshold
    have hpow : 2 ^ Nat.log 2 T ≤ T := Nat.pow_log_le_self 2 (by omega)
    have hgreatest : IsGreatest {p | (∃ j, p = 2 ^ j) ∧ p ≤ T} (2 ^ Nat.log 2 T) := by
      refine ⟨⟨⟨_, rfl⟩, hpow⟩, ?_⟩
      rintro p ⟨⟨j, rfl⟩, hj⟩
      exact Nat.pow_le_pow_right (by omega) (Nat.le_log_of_pow_le (by omega) hj)
    have hlt := (leading_bounds hlo hgreatest).2
    exact ⟨hle, by omega⟩

/-- **`real_time_sleep` is accurate**: when `T` loops fit into a tick, from `2 ^ 10` up, and the
calibration has ended, a time of a tick or more is slept through, less than a tick too short.  In a
shorter one the loops take no more than the time; they fall short of it by less than a 512th, one
loop, and the `1000 * timerFreq / denom` loops that the division by 1000 can lose. -/
theorem real_time_sleep_accurate {σ : Type} {tml : UInt32 → σ → Option (Bool × σ)} {T fuel : ℕ}
    {s s' : σ} {v : UInt32} {num denom : ℤ} (h : Exactly tml T) (hlo : 2 ^ 10 ≤ T) (hhi : T < 2 ^ 31)
    (hv : timerCalibrate tml true fuel s = some (.ok v, s')) (hd : denom ∈ denoms)
    (hmin : -2 ^ 31 ≤ num) (hmax : num * timerFreq < 2 ^ 63) :
    (denom ≤ num * timerFreq → ∃ n, realTimeSleep true v num denom = .ok (.timerSleep n) ∧
      0 < n ∧ n * denom ≤ num * timerFreq ∧ num * timerFreq < n * denom + denom) ∧
    (num * timerFreq < denom → ∃ c, realTimeSleep true v num denom = .ok (.busyWait c) ∧
      (num ≤ 0 → c ≤ 0) ∧
      (0 < num → c * denom ≤ T * num * timerFreq ∧
        511 * (T * num * timerFreq) < 512 * (c * denom + denom + 1000 * timerFreq))) := by
  refine ⟨realTimeSleep_ticks hd hmax, fun htick => ?_⟩
  have hfreq : timerFreq = 100 := rfl
  rw [realTimeSleep_short hd (by rw [hfreq]; omega) htick]
  obtain ⟨hle, hlt⟩ := timerCalibrate_close h hlo hhi hv
  obtain hnum | hnum := le_or_gt num 0
  · obtain ⟨c, hc, hc0⟩ := realTimeDelay_neg (v := v) hd hnum hmin
    exact ⟨c, by rw [hc]; rfl, fun _ => hc0, fun hpos => absurd hpos (not_lt.mpr hnum)⟩
  · -- the loops that are asked for, by what has been found and by what is so
    have hscale : 0 ≤ num * timerFreq := by
      rw [hfreq]
      omega
    have hle' : v.toNat * num * timerFreq ≤ T * num * timerFreq := by
      rw [Int.mul_assoc, Int.mul_assoc]
      exact Int.mul_le_mul_of_nonneg_right (by exact_mod_cast hle) hscale
    have hlt' : 511 * (T * num * timerFreq) ≤ 512 * (v.toNat * num * timerFreq) := by
      have hvT : (511 * T : ℤ) ≤ 512 * v.toNat := by exact_mod_cast hlt.le
      calc 511 * (T * num * timerFreq) = 511 * T * (num * timerFreq) := by ring
        _ ≤ 512 * v.toNat * (num * timerFreq) := Int.mul_le_mul_of_nonneg_right hvT hscale
        _ = 512 * (v.toNat * num * timerFreq) := by ring
    have hmul : v.toNat * num * timerFreq < 2 ^ 63 := by
      have hden := denoms_le hd
      calc v.toNat * num * timerFreq = v.toNat * (num * timerFreq) := Int.mul_assoc ..
        _ ≤ 2 ^ 31 * (num * timerFreq) :=
          Int.mul_le_mul_of_nonneg_right (by exact_mod_cast (hle.trans_lt hhi).le) hscale
        _ < 2 ^ 63 := by omega
    obtain ⟨c, hc, -, hc₁, hc₂⟩ := realTimeDelay_bounds hd hnum.le hmul
    refine ⟨c, by rw [hc]; rfl, fun h0 => absurd h0 (not_le.mpr hnum), fun _ => ⟨hc₁.trans hle', ?_⟩⟩
    omega

/-- Five milliseconds are half a tick, on a clock of 1501 loops. -/
theorem real_time_sleep_accurate_half : ∃ (v : UInt32) (c : ℤ),
    (∃ s, timerCalibrate (tooManyLoops (regularTicks 1501) 1502) true 32 0 = some (.ok v, s)) ∧
      timerUsleep true v 5000 = .ok (.busyWait c) ∧ 646 ≤ c ∧ c ≤ 750 := by
  have hexact := tooManyLoops_exactly 1500 (by omega : 1501 < 1502)
  have hlog : Nat.log 2 1500 < 31 := Nat.log_lt_of_lt_pow (by omega) (by omega)
  obtain ⟨s, hs⟩ := timerCalibrate_eq hexact (by omega) (by omega) 32 0
  rw [if_pos (by omega)] at hs
  obtain ⟨c, hc, -, hbounds⟩ := (real_time_sleep_accurate hexact (by omega) (by omega) hs
    (.tail _ (.head _) : 1000 * 1000 ∈ denoms) (by omega) (by decide : 5000 * timerFreq < 2 ^ 63)).2
      (by decide)
  obtain ⟨hle, hlt⟩ := hbounds (by omega)
  have hfreq : timerFreq = 100 := rfl
  rw [hfreq] at hle hlt
  exact ⟨_, c, ⟨s, hs⟩, hc, by omega, by omega⟩

/-! ### Sleepers -/

variable {cfg : Config} {fuel : ℕ} {srt : Prop} {ok : Kernel → Label → Prop}
variable {k k₁ k' : Kernel} {lab : Label} {t : ThreadPtr} {w : ℤ} {as : List (ThreadPtr × ℤ)}

theorem Kernel.mem_sleeping : (t, w) ∈ k.sleeping ↔ t ∈ k.sleepList ∧ (k.thr t).wakeupTick = w := by
  simp only [Kernel.sleeping, List.mem_map, Prod.mk.injEq]
  constructor
  · rintro ⟨u, hu, rfl, rfl⟩
    exact ⟨hu, rfl⟩
  · rintro ⟨ht, hw⟩
    exact ⟨t, ht, rfl, hw⟩

/-- The interrupt of a tick before its own leaves a sleeper alone. -/
theorem step_tick_early (S : Scheduling cfg srt k) (hq : Sorts deadline as k.sleeping)
    (h : step cfg fuel k .timer = some k') (ht : (t, w) ∈ k.sleeping) (hw : k.ticks + 1 < w) :
    (t, w) ∈ k'.sleeping ∧ k'.unblocks.count t = k.unblocks.count t := by
  obtain ⟨hin, rfl⟩ := Kernel.mem_sleeping.mp ht
  obtain ⟨-, hsl, hwake, hu⟩ := step_tick S h
  have hdue : Due k (k.ticks + 1) t = false := decide_eq_false (not_le.mpr hw)
  rw [Kernel.mem_sleeping, hsl, (sorts_due hq _).2, hwake t hin, hu, List.count_append,
    List.count_reverse, dueSleepers, (sorts_due hq _).1]
  refine ⟨⟨List.mem_filter.mpr ⟨hin, by rw [hdue]; rfl⟩, rfl⟩, ?_⟩
  rw [List.count_eq_zero_of_not_mem, Nat.zero_add]
  intro hmem
  rw [(List.mem_filter.mp hmem).2] at hdue
  cases hdue

/-- The first interrupt that is not before it wakes it, once. -/
theorem step_tick_due (S : Scheduling cfg srt k) (hq : Sorts deadline as k.sleeping)
    (h : step cfg fuel k .timer = some k') (ht : (t, w) ∈ k.sleeping) (hw : w ≤ k.ticks + 1) :
    t ∉ k'.sleepList ∧ k'.unblocks.count t = k.unblocks.count t + 1 := by
  obtain ⟨hin, rfl⟩ := Kernel.mem_sleeping.mp ht
  obtain ⟨-, hsl, -, hu⟩ := step_tick S h
  have hdue : Due k (k.ticks + 1) t = true := decide_eq_true hw
  obtain ⟨⟨q, home, L, P⟩, -⟩ := S
  rw [hsl, (sorts_due hq _).2, hu, List.count_append, List.count_reverse, dueSleepers,
    (sorts_due hq _).1, List.count_filter hdue, List.count_eq_one_of_mem P.sleepers hin]
  refine ⟨fun hmem => ?_, Nat.add_comm _ _⟩
  have hnot := (List.mem_filter.mp hmem).2
  rw [hdue] at hnot
  cases hnot

/-- Any other step leaves the sleepers alone. -/
theorem step_still (S : Scheduling cfg srt k) (S' : Scheduling cfg srt k')
    (hc : k.cur < k.nextThread) (h : step cfg fuel k lab = some k') (hl : lab ≠ .timer) :
    k'.ticks = k.ticks ∧ ((t, w) ∈ k.sleeping →
      (t, w) ∈ k'.sleeping ∧ k'.unblocks.count t = k.unblocks.count t) := by
  rcases e : lab.sleeper k with - | a
  · have hk := step_clockStill S S' h hl e
    refine ⟨hk.ticks, fun ht => ⟨?_, hk.unblocks t (Kernel.mem_sleeping.mp ht).1⟩⟩
    rwa [hk.sleeping]
  · obtain ⟨hticks, hu, hsl⟩ := step_sleeps S hc h e
    refine ⟨hticks, fun ht => ⟨?_, by rw [hu]⟩⟩
    rw [hsl]
    exact (List.mem_orderedInsert _).mpr (.inr ht)

/-- What is so until the tick of a sleeper, in a run that begins when it goes to sleep. -/
theorem Path.sleeps {now : ℤ} {n : ℕ} {tr : List (Kernel × Label)}
    (hok : ∀ k lab, Reachable cfg ok k → ok k lab → AlarmStep cfg k lab)
    (hr : Reachable cfg ok k) (hp : Path cfg ok k tr k') (hnow : k.ticks = now)
    (ht : (t, w) ∈ k.sleeping) (hn : k.unblocks.count t = n) :
    now ≤ k'.ticks ∧ (k'.ticks < max w (now + 1) →
      (t, w) ∈ k'.sleeping ∧ k'.unblocks.count t = n) := by
  have hT : ∀ k lab, Reachable cfg ok k → ok k lab → Tame cfg False k lab :=
    fun k lab hr hl => (hok k lab hr hl).tame
  induction hp with
  | nil => exact ⟨hnow.ge, fun _ => ⟨ht, hn⟩⟩
  | @snoc k₁ k₂ tr lab fuel hp hlab hs ih =>
      obtain ⟨hle, ih⟩ := ih
      have hr₁ := hp.reachable hr
      have S := (hr₁.good hT).sched
      have S' := (Reachable.good hT (hr₁.tail ⟨lab, fuel, hlab, hs⟩)).sched
      obtain rfl | hl := eq_or_ne lab .timer
      · obtain ⟨hticks, -⟩ := step_tick S hs
        refine ⟨by omega, fun hlt => ?_⟩
        obtain ⟨hmem, hcount⟩ := ih (by omega)
        obtain ⟨as, has⟩ := hr₁.sleepers
        -- the tick is not the first one, so it is before that of the sleeper
        obtain ⟨hmem', hcount'⟩ := step_tick_early S (has.sorts hok) hs hmem (by omega)
        exact ⟨hmem', hcount'.trans hcount⟩
      · obtain ⟨hticks, hstill⟩ := step_still S S' hr₁.anySync.2 hs hl
        refine ⟨by omega, fun hlt => ?_⟩
        obtain ⟨hmem, hcount⟩ := ih (by omega)
        obtain ⟨hmem', hcount'⟩ := hstill hmem
        exact ⟨hmem', hcount'.trans hcount⟩

/-- **`timer_sleep` is punctual**: a thread that goes to sleep until a tick stays in `sleep_list`,
blocked, until the interrupt of this tick, or the next interrupt if the tick has come already.
That interrupt takes it out and unblocks it, exactly once, whatever the other threads do. -/
theorem timer_sleep_punctual {tr : List (Kernel × Label)}
    (hok : ∀ k lab, Reachable cfg ok k → ok k lab → AlarmStep cfg k lab)
    (hr : Reachable cfg ok k) (hl : ok k lab) (hs : step cfg fuel k lab = some k₁)
    (hsl : lab.sleeper k = some (t, w)) (hp : Path cfg ok k₁ tr k')
    (hlt : k'.ticks < max w (k.ticks + 1)) :
    t ∈ k'.sleepList ∧ (k'.thr t).status = .blocked ∧
      k'.unblocks.count t = k.unblocks.count t ∧
      ∀ fuel k'', ok k' .timer → step cfg fuel k' .timer = some k'' →
        k''.ticks = k'.ticks + 1 ∧
        (k''.ticks < max w (k.ticks + 1) →
          t ∈ k''.sleepList ∧ k''.unblocks.count t = k.unblocks.count t) ∧
        (k''.ticks = max w (k.ticks + 1) →
          t ∉ k''.sleepList ∧ k''.unblocks.count t = k.unblocks.count t + 1) := by
  have hT : ∀ k lab, Reachable cfg ok k → ok k lab → Tame cfg False k lab :=
    fun k lab hr hl => (hok k lab hr hl).tame
  have hr₁ : Reachable cfg ok k₁ := hr.tail ⟨lab, fuel, hl, hs⟩
  have hr' := hp.reachable hr₁
  obtain ⟨hticks, hu, hins⟩ := step_sleeps (hr.good hT).sched hr.anySync.2 hs hsl
  have hmem : (t, w) ∈ k₁.sleeping := by
    rw [hins, AlarmStep.wakeupTick hok hr hl hsl]
    exact (List.mem_orderedInsert _).mpr (.inl rfl)
  obtain ⟨hle, hsleeps⟩ := hp.sleeps hok hr₁ hticks hmem (by rw [hu])
  obtain ⟨hmem', hcount⟩ := hsleeps hlt
  have hin := (Kernel.mem_sleeping.mp hmem').1
  have S := (hr'.good hT).sched
  refine ⟨hin, ?_, hcount, fun fuel k'' hlt' ht => ?_⟩
  · obtain ⟨⟨q, home, L, P⟩, -⟩ := S
    exact ((P.sleeping t).mp hin).1
  · obtain ⟨hticks', -⟩ := step_tick S ht
    obtain ⟨as, has⟩ := hr'.sleepers
    refine ⟨hticks', fun hearly => ?_, fun hdue => ?_⟩
    · obtain ⟨hmem'', hcount''⟩ := step_tick_early S (has.sorts hok) ht hmem' (by omega)
      exact ⟨(Kernel.mem_sleeping.mp hmem'').1, hcount''.trans hcount⟩
    · obtain ⟨hout, hcount''⟩ := step_tick_due S (has.sorts hok) ht hmem' (by omega)
      exact ⟨hout, by rw [hcount'', hcount]⟩

/-- Thread 2 goes to sleep for five ticks, of which four pass. -/
theorem timer_sleep_punctual_five : ∃ k k' k'' : Kernel,
    Label.run.sleeper k = some (2, 5) ∧ k'.ticks = 4 ∧ 2 ∈ k'.sleepList ∧
      k'.unblocks.count 2 = k.unblocks.count 2 ∧
      step priorityConfig 70 k' .timer = some k'' ∧ 2 ∉ k''.sleepList := by
  obtain ⟨k, hr, hk⟩ := exists_reachable priorityConfig 70 (fun k lab => lab.peaceful k)
    (List.replicate 19 Label.run ++ [Label.call (.threadCreate 40)] ++ List.replicate 10 Label.run ++
      [Label.call (.timerSleep 5), .run])
    (fun k => k.ticks = 0 ∧ Label.run.peaceful k ∧ Label.run.sleeper k = some (2, 5) ∧
      (step priorityConfig 70 k .run).any fun k₁ =>
        (execute priorityConfig 70 (fun k lab => lab.peaceful k) k₁
          (.run :: (List.replicate 4 Label.timer ++ [.run]))).any fun k' =>
            k'.ticks = 4 ∧ (step priorityConfig 70 k' .timer).isSome)
    (by decide +kernel)
  obtain ⟨hticks, hpeace, hsl, hk⟩ := of_decide_eq_true hk
  obtain ⟨k₁, hs, hk⟩ := (Option.any_eq_true _ _).mp hk
  obtain ⟨k', hx, hk⟩ := (Option.any_eq_true _ _).mp hk
  obtain ⟨hticks', hsome⟩ := of_decide_eq_true hk
  obtain ⟨k'', hs''⟩ := Option.isSome_iff_exists.mp hsome
  obtain ⟨hin, -, hcount, hnext⟩ := timer_sleep_punctual
    (fun _ _ _ h => Label.peaceful.alarmStep h) hr hpeace hs hsl (execute_path hx)
    (by rw [hticks', hticks]; decide)
  obtain ⟨hticks'', -, hdue⟩ := hnext 70 k'' rfl hs''
  refine ⟨k, k', k'', hsl, hticks', hin, hcount, hs'', (hdue ?_).1⟩
  rw [hticks'', hticks', hticks]
  rfl

end Pintos
