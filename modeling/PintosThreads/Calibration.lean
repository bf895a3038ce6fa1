/-
PintosThreads/Calibration.lean

`timer_calibrate` of `devices/timer.c`: how many empty loops fit into a tick.

`too_many_loops` waits, so it takes a state and returns the next one.  All that
the search needs is that its answers are those of a threshold (`Exactly`); a
clock that ticks at a fixed rate gives such answers (`tooManyLoops_exactly`).

The first loop finds the highest bit of the threshold `T`.  The second sets the
bits below it from the left: with bit `2 ^ j` next, the value is `T` with its
last `j + 1` bits cleared (`refineLoops_ends`).  The bit that ends it is the
tenth below the highest one and is not tried, so nine bits are
(`timerCalibrate_finds`).
-/
import Mathlib.Data.Nat.Log
import Mathlib.Order.Bounds.Basic
import Mathlib.Tactic.Ring

namespace Pintos

/-! ### The functions -/

section

variable {σ : Type} (tooManyLoops : UInt32 → σ → Option (Bool × σ))

/-- The first loop of `timer_calibrate`. -/
def doubleLoops : ℕ → UInt32 → σ → Option (Except String UInt32 × σ)
  | 0, _, _ => none
  | fuel + 1, loopsPerTick, s => do
      let (tooMany, s) ← tooManyLoops (loopsPerTick <<< 1) s
      if tooMany then some (.ok loopsPerTick, s)
      else
        let loopsPerTick := loopsPerTick <<< 1
        if loopsPerTick ≠ 0 then doubleLoops fuel loopsPerTick s
        else some (.error "loops_per_tick != 0", s)

/-- The second one. -/
def refineLoops (highBit : UInt32) : ℕ → UInt32 → UInt32 → σ → Option (UInt32 × σ)
  | 0, _, _, _ => none
  | fuel + 1, loopsPerTick, testBit, s =>
      if testBit = highBit >>> 10 then some (loopsPerTick, s)
      else do
        let (tooMany, s) ← tooManyLoops (loopsPerTick ||| testBit) s
        refineLoops highBit fuel (if tooMany then loopsPerTick else loopsPerTick ||| testBit)
          (testBit >>> 1) s

/-- `timer_calibrate`, with the value it leaves in `loops_per_tick`, or the
assertion that fails. -/
def timerCalibrate (intrOn : Bool) (fuel : ℕ) (s : σ) : Option (Except String UInt32 × σ) :=
  if intrOn then do
    let (r, s) ← doubleLoops tooManyLoops fuel ((1 : UInt32) <<< 10) s
    match r with
    | .error e => some (.error e, s)
    | .ok highBit =>
        (refineLoops tooManyLoops highBit fuel highBit (highBit >>> 1) s).map fun (v, s) =>
          (.ok v, s)
  else some (.error "intr_get_level () == INTR_ON", s)

/-- It always ends, and says yes to more than `T` loops only. -/
def Exactly (T : ℕ) : Prop :=
  ∀ n s, ∃ s', tooManyLoops n s = some (decide (T < n.toNat), s')

end

/-! ### `too_many_loops`

The time is the number of iterations that have been made, of either of its
loops; `ticks` is the tick counter at each time. -/

section

variable (ticks : ℕ → ℤ)

/-- `while (ticks == start)`. -/
def waitTick (start : ℤ) : ℕ → ℕ → Option ℕ
  | 0, _ => none
  | fuel + 1, now => if ticks now = start then waitTick start fuel (now + 1) else some now

/-- `busy_wait`. -/
def busyWait : ℕ → ℕ → ℕ
  | 0, now => now
  | loops + 1, now => busyWait loops (now + 1)

def tooManyLoops (fuel : ℕ) (loops : UInt32) (now : ℕ) : Option (Bool × ℕ) := do
  let now ← waitTick ticks (ticks now) fuel now
  let start := ticks now
  let now := busyWait loops.toNat now
  some (start ≠ ticks now, now)

end

theorem busyWait_eq : ∀ (loops now : ℕ), busyWait loops now = now + loops
  | 0, _ => rfl
  | loops + 1, now => by
      rw [busyWait, busyWait_eq loops]
      omega

/-- The counter of a clock that ticks every `period` iterations. -/
def regularTicks (period : ℕ) (now : ℕ) : ℤ :=
  (now / period : ℕ)

/-- The wait ends at the beginning of the next tick. -/
theorem waitTick_regular {period q : ℕ} (hp : 0 < period) : ∀ (fuel now : ℕ),
    now / period = q → period - now % period < fuel →
      waitTick (regularTicks period) q fuel now = some ((q + 1) * period)
  | 0, _, _, hf => absurd hf (Nat.not_lt_zero _)
  | fuel + 1, now, hq, hf => by
      rw [waitTick, if_pos (by simp [regularTicks, hq])]
      have hlt := Nat.mod_lt now hp
      have hnow := Nat.div_add_mod now period
      rw [hq] at hnow
      by_cases hend : now % period + 1 = period
      · -- the counter changes with this iteration
        have hnext : now + 1 = (q + 1) * period := by
          calc now + 1 = period * q + (now % period + 1) := by omega
            _ = (q + 1) * period := by rw [hend]; ring
        obtain ⟨fuel, rfl⟩ : ∃ n, fuel = n + 1 := ⟨fuel - 1, by omega⟩
        rw [hnext, waitTick, if_neg]
        simp only [regularTicks, Nat.mul_div_cancel _ hp]
        omega
      · have hsucc : now + 1 = now % period + 1 + period * q := by omega
        have hmod : (now + 1) % period = now % period + 1 := by
          rw [hsucc, Nat.add_mul_mod_self_left, Nat.mod_eq_of_lt (by omega)]
        have hdiv : (now + 1) / period = q := by
          rw [hsucc, Nat.add_mul_div_left _ _ hp, Nat.div_eq_of_lt (by omega), Nat.zero_add]
        exact waitTick_regular hp fuel (now + 1) hdiv (by omega)

/-- **`too_many_loops`** on a regular clock: more loops are too many than are begun in a tick. -/
theorem tooManyLoops_exactly (T : ℕ) {fuel : ℕ} (hf : T + 1 < fuel) :
    Exactly (tooManyLoops (regularTicks (T + 1)) fuel) T := by
  intro n now
  have hw := waitTick_regular (q := now / (T + 1)) (Nat.succ_pos T) fuel now rfl (by omega)
  refine ⟨(now / (T + 1) + 1) * (T + 1) + n.toNat, ?_⟩
  have hstart : waitTick (regularTicks (T + 1)) (regularTicks (T + 1) now) fuel now =
      some ((now / (T + 1) + 1) * (T + 1)) := hw
  rw [tooManyLoops, hstart]
  show some (_, _) = _
  rw [busyWait_eq]
  congr 2
  simp only [regularTicks, Nat.mul_div_cancel _ (Nat.succ_pos T), decide_eq_decide]
  have hdiv : ((now / (T + 1) + 1) * (T + 1) + n.toNat) / (T + 1) =
      now / (T + 1) + 1 + n.toNat / (T + 1) := by
    rw [Nat.add_comm, Nat.add_mul_div_right _ _ (Nat.succ_pos T), Nat.add_comm]
  rw [hdiv]
  have hz : n.toNat / (T + 1) = 0 ↔ n.toNat < T + 1 := Nat.div_eq_zero_iff_lt (Nat.succ_pos T)
  omega

/-! ### Powers of two and the bits of a number -/

/-- The power of two as an `unsigned`. -/
def bit (j : ℕ) : UInt32 := UInt32.ofNat (2 ^ j)

theorem bit_toNat {j : ℕ} (hj : j < 32) : (bit j).toNat = 2 ^ j := by
  rw [bit, UInt32.toNat_ofNat']
  exact Nat.mod_eq_of_lt (Nat.pow_lt_pow_right (by omega) hj)

theorem bit_shiftLeft {j : ℕ} (hj : j < 31) : bit j <<< 1 = bit (j + 1) := by
  apply UInt32.toNat_inj.mp
  rw [UInt32.toNat_shiftLeft, bit_toNat (by omega), bit_toNat (by omega)]
  show 2 ^ j <<< 1 % 2 ^ 32 = _
  rw [Nat.shiftLeft_eq, ← Nat.pow_add]
  exact Nat.mod_eq_of_lt (Nat.pow_lt_pow_right (by omega) (by omega))

theorem bit_shiftRight {j : ℕ} (i : ℕ) (hi : i < 32) (h : i + j < 32) :
    bit (i + j) >>> UInt32.ofNat i = bit j := by
  apply UInt32.toNat_inj.mp
  rw [UInt32.toNat_shiftRight, bit_toNat h, bit_toNat (by omega), UInt32.toNat_ofNat',
    Nat.mod_eq_of_lt (by omega : i < 2 ^ 32), Nat.mod_eq_of_lt hi, Nat.shiftRight_eq_div_pow,
    Nat.pow_add, Nat.mul_div_cancel_left _ (Nat.two_pow_pos i)]

theorem bit_inj {i j : ℕ} (hi : i < 32) (hj : j < 32) : bit i = bit j ↔ i = j := by
  rw [← UInt32.toNat_inj, bit_toNat hi, bit_toNat hj]
  exact Nat.pow_right_inj (Nat.le_refl 2)

/-- `T` with its last `j` bits cleared. -/
def leading (T j : ℕ) : ℕ := T / 2 ^ j * 2 ^ j

theorem leading_le (T j : ℕ) : leading T j ≤ T :=
  Nat.div_mul_le_self T (2 ^ j)

theorem lt_leading_add (T j : ℕ) : T < leading T j + 2 ^ j :=
  Nat.lt_div_mul_add (Nat.two_pow_pos j)

/-- The bit that is tried next is one of `T` when the value does not exceed `T` with it. -/
theorem leading_succ (T j : ℕ) :
    leading T j = if leading T (j + 1) + 2 ^ j ≤ T then leading T (j + 1) + 2 ^ j
      else leading T (j + 1) := by
  have hq : T / 2 ^ (j + 1) = T / 2 ^ j / 2 := by rw [Nat.pow_succ, Nat.div_div_eq_div_mul]
  have hl : leading T (j + 1) = 2 * (T / 2 ^ j / 2) * 2 ^ j := by
    rw [leading, hq, Nat.pow_succ]
    ring
  have hle : ∀ m, m * 2 ^ j ≤ T ↔ m ≤ T / 2 ^ j := fun m =>
    (Nat.le_div_iff_mul_le (Nat.two_pow_pos j)).symm
  have hadd : leading T (j + 1) + 2 ^ j = (2 * (T / 2 ^ j / 2) + 1) * 2 ^ j := by
    rw [hl]
    ring
  rw [hadd, leading]
  split
  case isTrue h =>
    rw [hle] at h
    congr 1
    omega
  case isFalse h =>
    rw [hle] at h
    rw [hl]
    congr 1
    omega

/-- The bit is not yet set, so to set it is to add it. -/
theorem leading_or_bit {T j : ℕ} (hT : T < 2 ^ 32) (hj : j < 32) :
    (UInt32.ofNat (leading T (j + 1)) ||| bit j).toNat = leading T (j + 1) + 2 ^ j := by
  have hlt : 2 ^ j < 2 ^ (j + 1) := Nat.pow_lt_pow_right (by omega) (Nat.lt_succ_self j)
  have hor := Nat.two_pow_add_eq_or_of_lt hlt (T / 2 ^ (j + 1))
  rw [Nat.mul_comm] at hor
  rw [UInt32.toNat_or, bit_toNat hj, UInt32.toNat_ofNat',
    Nat.mod_eq_of_lt ((leading_le T _).trans_lt hT)]
  exact hor.symm

/-! ### The two loops -/

section

variable {σ : Type} {tml : UInt32 → σ → Option (Bool × σ)} {T : ℕ}

theorem bit_ne_zero {j : ℕ} (hj : j < 32) : bit j ≠ 0 := by
  intro h
  have h := congrArg UInt32.toNat h
  rw [bit_toNat hj] at h
  exact absurd h (Nat.two_pow_pos j).ne'

/-- One pass of the first loop. -/
theorem doubleLoops_succ (h : Exactly tml T) (fuel : ℕ) {j : ℕ} (hj : j < 31) (s : σ) :
    ∃ s', doubleLoops tml (fuel + 1) (bit j) s =
      if T < 2 ^ (j + 1) then some (.ok (bit j), s') else doubleLoops tml fuel (bit (j + 1)) s' := by
  obtain ⟨s', h'⟩ := h (bit (j + 1)) s
  refine ⟨s', ?_⟩
  rw [bit_toNat (by omega)] at h'
  rw [doubleLoops, bit_shiftLeft hj, h']
  by_cases hT : T < 2 ^ (j + 1)
  · simp [hT]
  · simp [hT, bit_ne_zero (show j + 1 < 32 by omega)]

/-- The first loop, started at a power of two that is not too large, goes up to the highest bit. -/
theorem doubleLoops_eq (h : Exactly tml T) (hT : T < 2 ^ 31) : ∀ (fuel : ℕ) {j : ℕ} (s : σ),
    2 ^ j ≤ T → ∃ s', doubleLoops tml fuel (bit j) s =
      if Nat.log 2 T - j < fuel then some (.ok (bit (Nat.log 2 T)), s') else none
  | 0, _, s, _ => ⟨s, rfl⟩
  | fuel + 1, j, s, hj => by
      have hj31 : j < 31 := (Nat.pow_lt_pow_iff_right (by omega)).mp (hj.trans_lt hT)
      obtain ⟨s₁, h₁⟩ := doubleLoops_succ h fuel hj31 s
      rw [h₁]
      by_cases hlt : T < 2 ^ (j + 1)
      · have hlog : Nat.log 2 T = j := Nat.log_eq_of_pow_le_of_lt_pow hj hlt
        refine ⟨s₁, ?_⟩
        rw [if_pos hlt, hlog, if_pos (by omega)]
      · have hlog : j + 1 ≤ Nat.log 2 T := Nat.le_log_of_pow_le (by omega) (not_lt.mp hlt)
        obtain ⟨s', h'⟩ := doubleLoops_eq h hT fuel s₁ (not_lt.mp hlt)
        refine ⟨s', ?_⟩
        rw [if_neg hlt, h']
        exact if_congr (by omega) rfl rfl

/-- One pass of the second loop puts bit `j + 1` of the threshold in its place. -/
theorem refineLoops_succ (h : Exactly tml T) (hT : T < 2 ^ 31) {highBit : UInt32} (fuel : ℕ) {j : ℕ}
    (s : σ) (hj : j < 30) (hne : bit (j + 1) ≠ highBit >>> 10) :
    ∃ s', refineLoops tml highBit (fuel + 1) (UInt32.ofNat (leading T (j + 2))) (bit (j + 1)) s =
      refineLoops tml highBit fuel (UInt32.ofNat (leading T (j + 1))) (bit j) s' := by
  obtain ⟨s', h'⟩ := h (UInt32.ofNat (leading T (j + 2)) ||| bit (j + 1)) s
  refine ⟨s', ?_⟩
  have hor := leading_or_bit (T := T) (by omega) (by omega : j + 1 < 32)
  have hval : (if decide (T < leading T (j + 2) + 2 ^ (j + 1)) = true
      then UInt32.ofNat (leading T (j + 2))
      else UInt32.ofNat (leading T (j + 2)) ||| bit (j + 1)) =
        UInt32.ofNat (leading T (j + 1)) := by
    rw [leading_succ T (j + 1)]
    by_cases hlt : T < leading T (j + 2) + 2 ^ (j + 1)
    · rw [if_pos (decide_eq_true hlt), if_neg (not_le.mpr hlt)]
    · rw [if_neg (by simpa using hlt), if_pos (not_lt.mp hlt), ← hor, UInt32.ofNat_toNat]
  have hshift : bit (j + 1) >>> 1 = bit j := by
    rw [Nat.add_comm]
    exact bit_shiftRight 1 (by omega) (by omega)
  rw [refineLoops, if_neg hne, h', hor]
  show refineLoops tml highBit fuel _ (bit (j + 1) >>> 1) s' = _
  rw [hval, hshift]

/-- The last bit that is tried is the one above that which ends the loop. -/
theorem refineLoops_eq (h : Exactly tml T) (hT : T < 2 ^ 31) {highBit : UInt32} {m : ℕ}
    (hm : highBit >>> 10 = bit m) : ∀ (fuel i : ℕ) (s : σ), m + i < 31 →
      ∃ s', refineLoops tml highBit fuel (UInt32.ofNat (leading T (m + i + 1))) (bit (m + i)) s =
        if i < fuel then some (UInt32.ofNat (leading T (m + 1)), s') else none
  | 0, _, s, _ => ⟨s, rfl⟩
  | fuel + 1, 0, s, _ => by
      refine ⟨s, ?_⟩
      rw [if_pos (Nat.succ_pos fuel)]
      exact if_pos hm.symm
  | fuel + 1, i + 1, s, hi => by
      have hne : bit (m + i + 1) ≠ highBit >>> 10 := by
        rw [hm, Ne, bit_inj (by omega) (by omega)]
        omega
      obtain ⟨s₁, h₁⟩ := refineLoops_succ h hT fuel s (by omega) hne
      obtain ⟨s', h'⟩ := refineLoops_eq h hT hm fuel i s₁ (by omega)
      refine ⟨s', (h₁.trans h').trans ?_⟩
      exact if_congr (by omega) rfl rfl

/-- The value that is left has the ten highest bits of the threshold. -/
theorem leading_bounds {b : ℕ} (hlo : 2 ^ 10 ≤ T)
    (hb : IsGreatest {p | (∃ j, p = 2 ^ j) ∧ p ≤ T} b) :
    leading T (Nat.log 2 T - 10 + 1) ≤ T ∧ T < leading T (Nat.log 2 T - 10 + 1) + b / 512 := by
  have hlog : 10 ≤ Nat.log 2 T := Nat.le_log_of_pow_le (by omega) hlo
  have hT0 : T ≠ 0 := by omega
  obtain ⟨⟨⟨i, rfl⟩, hi⟩, hmax⟩ := hb
  obtain rfl : i = Nat.log 2 T := by
    apply Nat.le_antisymm (Nat.le_log_of_pow_le (by omega) hi)
    have h := hmax ⟨⟨Nat.log 2 T, rfl⟩, Nat.pow_log_le_self 2 hT0⟩
    exact (Nat.pow_le_pow_iff_right (by omega)).mp h
  have hdiv : 2 ^ Nat.log 2 T / 512 = 2 ^ (Nat.log 2 T - 10 + 1) := by
    calc 2 ^ Nat.log 2 T / 512 = 2 ^ Nat.log 2 T / 2 ^ 9 := rfl
      _ = 2 ^ (Nat.log 2 T - 9) := Nat.pow_div (by omega) (by omega)
      _ = 2 ^ (Nat.log 2 T - 10 + 1) := by congr 1; omega
  rw [hdiv]
  exact ⟨leading_le T _, lt_leading_add T _⟩

/-- The two loops together. -/
theorem timerCalibrate_eq (h : Exactly tml T) (hlo : 2 ^ 10 ≤ T) (hhi : T < 2 ^ 31) (fuel : ℕ)
    (s : σ) : ∃ s', timerCalibrate tml true fuel s =
      if max (Nat.log 2 T - 10) 9 < fuel then
        some (.ok (UInt32.ofNat (leading T (Nat.log 2 T - 10 + 1))), s')
      else none := by
  have hlog : 10 ≤ Nat.log 2 T := Nat.le_log_of_pow_le (by omega) hlo
  have hlog31 : Nat.log 2 T < 31 := Nat.log_lt_of_lt_pow (by omega) hhi
  obtain ⟨m, hm⟩ : ∃ m, Nat.log 2 T = m + 10 := ⟨Nat.log 2 T - 10, by omega⟩
  have hpow : 2 ^ (m + 10) ≤ T := hm ▸ Nat.pow_log_le_self 2 (by omega)
  have hpow' : T < 2 ^ (m + 10 + 1) := hm ▸ Nat.lt_pow_succ_log_self (by omega) T
  -- the high bit is `T` with all bits below it cleared
  have hhigh : bit (m + 10) = UInt32.ofNat (leading T (m + 9 + 1)) := by
    have hq : T / 2 ^ (m + 10) = 1 := Nat.div_eq_of_lt_le (by omega) (by omega)
    rw [bit, leading, hq, Nat.one_mul]
  have hend : bit (m + 10) >>> 10 = bit m := by
    rw [Nat.add_comm]
    exact bit_shiftRight 10 (by omega) (by omega)
  have htest : bit (m + 10) >>> 1 = bit (m + 9) := by
    rw [show m + 10 = 1 + (m + 9) by omega]
    exact bit_shiftRight 1 (by omega) (by omega)
  obtain ⟨s₁, h₁⟩ := doubleLoops_eq h hhi fuel s hlo
  obtain ⟨s₂, h₂⟩ := refineLoops_eq h hhi hend fuel 9 s₁ (by omega)
  rw [← hhigh] at h₂
  refine ⟨s₂, ?_⟩
  have hstart : (1 : UInt32) <<< 10 = bit 10 := rfl
  rw [timerCalibrate, if_pos rfl, hstart, h₁, hm]
  by_cases hf : m + 10 - 10 < fuel
  · rw [if_pos hf]
    show ((refineLoops tml (bit (m + 10)) fuel (bit (m + 10)) (bit (m + 10) >>> 1) s₁).map _) = _
    rw [htest, h₂]
    by_cases hf' : 9 < fuel
    · rw [if_pos hf', if_pos (by omega), Nat.add_sub_cancel]
      rfl
    · rw [if_neg hf', if_neg (by omega)]
      rfl
  · rw [if_neg hf, if_neg (by omega)]
    rfl

/-- **`timer_calibrate`** finds the threshold to nine bits below the highest one.  Its loops end,
its assertions hold, and it leaves the same value however long it has waited in between. -/
theorem timerCalibrate_finds (h : Exactly tml T) (hlo : 2 ^ 10 ≤ T) (hhi : T < 2 ^ 31) :
    ∃ v : UInt32,
      (∀ fuel s, 32 ≤ fuel → ∃ s', timerCalibrate tml true fuel s = some (.ok v, s')) ∧
      (∀ fuel s r s', timerCalibrate tml true fuel s = some (r, s') → r = .ok v) ∧
      ∀ b, IsGreatest {p | (∃ j, p = 2 ^ j) ∧ p ≤ T} b →
        v.toNat ≤ T ∧ T < v.toNat + b / 512 := by
  have hlog31 : Nat.log 2 T < 31 := Nat.log_lt_of_lt_pow (by omega) hhi
  refine ⟨UInt32.ofNat (leading T (Nat.log 2 T - 10 + 1)), ?_, ?_, ?_⟩
  · intro fuel s hf
    obtain ⟨s', hs⟩ := timerCalibrate_eq h hlo hhi fuel s
    exact ⟨s', hs.trans (if_pos (by omega))⟩
  · intro fuel s r s' hr
    obtain ⟨s₁, hs⟩ := timerCalibrate_eq h hlo hhi fuel s
    rw [hs] at hr
    split at hr
    case isTrue => exact (congrArg Prod.fst (Option.some.inj hr)).symm
    case isFalse => cases hr
  · intro b hb
    have hle := leading_le T (Nat.log 2 T - 10 + 1)
    rw [UInt32.toNat_ofNat', Nat.mod_eq_of_lt (by omega)]
    exact leading_bounds hlo hb

end

/-- A tick of 1501 iterations: the threshold is 1500, of which the bits from 1024 to 2 are found. -/
theorem timerCalibrate_finds_1500 : ∃ v : UInt32, v.toNat ≤ 1500 ∧ 1500 < v.toNat + 1024 / 512 ∧
    ∃ s, timerCalibrate (tooManyLoops (regularTicks 1501) 1502) true 32 0 = some (.ok v, s) := by
  obtain ⟨v, hv, -, hb⟩ := timerCalibrate_finds (tooManyLoops_exactly 1500 (by omega : 1501 < 1502))
    (by omega) (by omega)
  have hgreatest : IsGreatest {p | (∃ j, p = 2 ^ j) ∧ p ≤ 1500} 1024 := by
    refine ⟨⟨⟨10, rfl⟩, by omega⟩, ?_⟩
    rintro p ⟨⟨j, rfl⟩, hj⟩
    have hj11 : j < 11 := (Nat.pow_lt_pow_iff_right (by omega)).mp (hj.trans_lt (by omega))
    exact Nat.pow_le_pow_right (by omega) (Nat.lt_succ_iff.mp hj11)
  obtain ⟨hle, hlt⟩ := hb 1024 hgreatest
  exact ⟨v, hle, hlt, hv 32 0 le_rfl⟩

end Pintos
