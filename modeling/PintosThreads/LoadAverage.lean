/-
PintosThreads/LoadAverage.lean

The error of the fixed-point load average.

`mlfqs_update_load_avg` rounds three times: the two coefficients 59/60 and
1/60 are rounded down once and for all, and the product with the old average
is truncated at every call.  The distance to the exact average shrinks by the
factor 59/60 at each call, and each call adds less than `N + 1` units to it,
if there are never more than `N` ready threads.  What is added over the whole
past is therefore bounded by the sum of a geometric series
(`contraction_bound`).
-/
import PintosThreads.Runs
import Mathlib.Data.Rat.Cast.Order
import Mathlib.Tactic.Linarith
import Mathlib.Tactic.NormNum

namespace Pintos

/-! ### Errors that shrink -/

/-- An error that shrinks by the factor `a` and grows by at most `b` at each step stays
within `c`, if one such step leads from `c` to `c` at most. -/
theorem contraction_bound {α : Type*} [Ring α] [PartialOrder α] [IsOrderedRing α] {a b c : α}
    {e : ℕ → α} (ha : 0 ≤ a) (h0 : e 0 ≤ c) (hc : a * c + b ≤ c)
    (hs : ∀ k, e k ≤ c → e (k + 1) ≤ a * e k + b) (k : ℕ) : e k ≤ c := by
  induction k with
  | zero => exact h0
  | succ k ih =>
      calc e (k + 1) ≤ a * e k + b := hs k ih
        _ ≤ a * c + b := by gcongr
        _ ≤ c := hc

/-! ### One call -/

def InInt32 (x : ℤ) : Prop := -2 ^ 31 ≤ x ∧ x < 2 ^ 31

def InInt64 (x : ℤ) : Prop := -2 ^ 63 ≤ x ∧ x < 2 ^ 63

theorem toInt32_of_inInt32 {x : ℤ} (h : InInt32 x) : toInt32 x = x := by
  obtain ⟨h0, h1⟩ := h
  apply Int.bmod_eq_of_le <;> omega

/-- The coefficients 59/60 and 1/60, rounded. -/
def loadCoef : ℤ := (59 * fpOne).tdiv 60
def loadSecCoef : ℤ := (1 * fpOne).tdiv 60

theorem loadCoef_eq : loadCoef = 16110 := by decide

theorem loadSecCoef_eq : loadSecCoef = 273 := by decide

/-- None of the values that `mlfqs_update_load_avg` computes overflows its type. -/
structure LoadAvgFits (loadAvg readyThreads : ℤ) : Prop where
  counter : InInt32 readyThreads
  dividend : InInt32 (59 * fpOne)
  secDividend : InInt32 (1 * fpOne)
  product : InInt64 (loadCoef * loadAvg)
  a : InInt32 ((loadCoef * loadAvg).tdiv fpOne)
  b : InInt32 (loadSecCoef * readyThreads)
  sum : InInt32 ((loadCoef * loadAvg).tdiv fpOne + loadSecCoef * readyThreads)

/-- What `mlfqs_update_load_avg` makes of the average. -/
def nextLoad (loadAvg readyThreads : ℤ) : ℤ :=
  toInt32 (toInt32 ((loadCoef * loadAvg).tdiv fpOne) + toInt32 (loadSecCoef * readyThreads))

/-- The update succeeds whenever the threads can be counted. -/
theorem mlfqsUpdateLoadAvg_eq {fuel : ℕ} {k : Kernel} {n : ℕ}
    (h : mlfqsReadyThreads fuel k = some n) :
    mlfqsUpdateLoadAvg fuel k = some { k with loadAvg := nextLoad k.loadAvg n } := by
  unfold mlfqsUpdateLoadAvg
  rw [h]
  rfl

variable {N : ℕ} {x n : ℤ}

theorem nextLoad_eq (hN : N < 2 ^ 17) (hx : 0 ≤ x) (hxN : x ≤ N * fpOne) (hn : 0 ≤ n)
    (hnN : n ≤ N) :
    LoadAvgFits x n ∧ nextLoad x n = 16110 * x / 16384 + 273 * n := by
  have hF : fpOne = 16384 := rfl
  have ha : (16110 * x).tdiv 16384 = 16110 * x / 16384 := Int.tdiv_eq_ediv_of_nonneg (by omega)
  rw [hF] at hxN
  have hfit : LoadAvgFits x n := by
    constructor <;> simp only [InInt32, InInt64, loadCoef_eq, loadSecCoef_eq, hF, ha] <;> omega
  refine ⟨hfit, ?_⟩
  rw [nextLoad, toInt32_of_inInt32 hfit.a, toInt32_of_inInt32 hfit.b,
    toInt32_of_inInt32 hfit.sum, loadCoef_eq, loadSecCoef_eq, hF, ha]

theorem nextLoad_le (hN : N < 2 ^ 17) (hx : 0 ≤ x) (hxN : x ≤ N * fpOne) (hn : 0 ≤ n)
    (hnN : n ≤ N) : 0 ≤ nextLoad x n ∧ nextLoad x n ≤ N * fpOne := by
  have hF : fpOne = 16384 := rfl
  rw [(nextLoad_eq hN hx hxN hn hnN).2]
  rw [hF] at hxN ⊢
  omega

/-! ### Whole runs -/

/-- The exact average, for the counts `n` of ready threads. -/
def exactLoad (n : ℕ → ℕ) : ℕ → ℚ
  | 0 => 0
  | k + 1 => 59 / 60 * exactLoad n k + n k / 60

/-- `k i` is the kernel at the `i`-th call of `mlfqs_update_load_avg`, which counts `n i`
ready threads; nothing else writes the average. -/
structure LoadRun (fuel : ℕ → ℕ) (k : ℕ → Kernel) (n : ℕ → ℕ) : Prop where
  start : (k 0).loadAvg = 0
  count : ∀ i, mlfqsReadyThreads (fuel i) (k i) = some (n i)
  update : ∀ i, (mlfqsUpdateLoadAvg (fuel i) (k i)).map Kernel.loadAvg = some (k (i + 1)).loadAvg

variable {fuel : ℕ → ℕ} {k : ℕ → Kernel} {n : ℕ → ℕ}

theorem LoadRun.next (h : LoadRun fuel k n) (i : ℕ) :
    (k (i + 1)).loadAvg = nextLoad (k i).loadAvg (n i) := by
  have hu := h.update i
  rw [mlfqsUpdateLoadAvg_eq (h.count i)] at hu
  exact (Option.some.inj hu).symm

theorem LoadRun.bounds (h : LoadRun fuel k n) (hN : N < 2 ^ 17) (hn : ∀ i, n i ≤ N) (i : ℕ) :
    0 ≤ (k i).loadAvg ∧ (k i).loadAvg ≤ N * fpOne := by
  induction i with
  | zero =>
      rw [h.start]
      exact ⟨le_rfl, by simp [fpOne]⟩
  | succ i ih =>
      rw [h.next i]
      exact nextLoad_le hN ih.1 ih.2 (by omega) (by exact_mod_cast hn i)

/-- The distance to the exact average, in units of the last place. -/
def loadError (k : ℕ → Kernel) (n : ℕ → ℕ) (i : ℕ) : ℚ :=
  16384 * exactLoad n i - (k i).loadAvg

/-- One call: the error shrinks, and less than `N + 1` units are added to it. -/
theorem LoadRun.error_step (h : LoadRun fuel k n) (hN : N < 2 ^ 17) (hn : ∀ i, n i ≤ N) (i : ℕ) :
    59 / 60 * loadError k n i ≤ loadError k n (i + 1) ∧
      loadError k n (i + 1) ≤ 59 / 60 * loadError k n i + (N + 1) := by
  obtain ⟨h0, h1⟩ := h.bounds hN hn i
  have hF : fpOne = 16384 := rfl
  rw [hF] at h1
  have hni : (n i : ℤ) ≤ N := by exact_mod_cast hn i
  have e : (k (i + 1)).loadAvg = 16110 * (k i).loadAvg / 16384 + 273 * n i :=
    (h.next i).trans (nextLoad_eq hN h0 (by rwa [hF]) (by omega) hni).2
  simp only [loadError, exactLoad, e]
  generalize (k i).loadAvg = x at *
  -- the product is rounded down by less than one unit
  have hlo : 16384 * (16110 * x / 16384) ≤ 16110 * x := by omega
  have hhi : 16110 * x < 16384 * (16110 * x / 16384 + 1) := by omega
  generalize 16110 * x / 16384 = a at hlo hhi
  have hlo' : (16384 : ℚ) * a ≤ 16110 * x := by exact_mod_cast hlo
  have hhi' : (16110 : ℚ) * x < 16384 * (a + 1) := by exact_mod_cast hhi
  have h0' : (0 : ℚ) ≤ x := by exact_mod_cast h0
  have h1' : (x : ℚ) ≤ N * 16384 := by exact_mod_cast h1
  have hn' : (n i : ℚ) ≤ N := by exact_mod_cast hni
  have hn0 : (0 : ℚ) ≤ n i := by positivity
  push_cast
  constructor <;> linarith

theorem LoadRun.error_bounds (h : LoadRun fuel k n) (hN : N < 2 ^ 17) (hn : ∀ i, n i ≤ N) (i : ℕ) :
    0 ≤ loadError k n i ∧ loadError k n i ≤ 60 * (N + 1) := by
  have h0 : loadError k n 0 = 0 := by simp [loadError, exactLoad, h.start]
  constructor
  · induction i with
    | zero => exact h0.ge
    | succ i ih =>
        have hs := (h.error_step hN hn i).1
        linarith
  · refine contraction_bound (a := 59 / 60) (b := (N : ℚ) + 1) (by norm_num) ?_ ?_
      (fun i _ => (h.error_step hN hn i).2) i
    · rw [h0]
      positivity
    · linarith

/-- **The load average tracks the exact one**: over any number of calls nothing
overflows, the average stays between 0 and `N`, and it is below the exact
average by at most `60 (N + 1)` units of the last place. -/
theorem load_avg_tracks (hN : N < 2 ^ 17) (h : LoadRun fuel k n) (hn : ∀ i, n i ≤ N) (i : ℕ) :
    LoadAvgFits (k i).loadAvg (n i) ∧
      (0 ≤ (k i).loadAvg ∧ (k i).loadAvg ≤ N * fpOne) ∧
      0 ≤ exactLoad n i - (k i).loadAvg / fpOne ∧
        exactLoad n i - (k i).loadAvg / fpOne ≤ 60 * (N + 1) / fpOne := by
  obtain ⟨h0, h1⟩ := h.bounds hN hn i
  obtain ⟨e0, e1⟩ := h.error_bounds hN hn i
  refine ⟨(nextLoad_eq hN h0 h1 (by omega) (by exact_mod_cast hn i)).1, ⟨h0, h1⟩, ?_⟩
  rw [show ((fpOne : ℤ) : ℚ) = 16384 by norm_num [fpOne]]
  unfold loadError at e0 e1
  constructor
  · linarith
  · linarith

/-- One thread is ready all the time. -/
def busyLoad : ℕ → ℤ
  | 0 => 0
  | i + 1 => nextLoad (busyLoad i) 1

theorem busy_loadRun :
    LoadRun (fun _ => 1) (fun i => { boot mlfqsConfig with loadAvg := busyLoad i }) fun _ => 1 := by
  have hc : mlfqsReadyThreads 1 (boot mlfqsConfig) = some 1 := by decide +kernel
  refine ⟨rfl, fun i => hc, fun i => ?_⟩
  rw [mlfqsUpdateLoadAvg_eq (k := { boot mlfqsConfig with loadAvg := busyLoad i }) hc]
  rfl

theorem load_avg_tracks_busy : ∃ fuel k n, LoadRun fuel k n ∧ ∀ i,
    (0 ≤ (k i).loadAvg ∧ (k i).loadAvg ≤ (1 : ℕ) * fpOne) ∧
      exactLoad n i - (k i).loadAvg / fpOne ≤ 60 * ((1 : ℕ) + 1) / fpOne := by
  refine ⟨_, _, _, busy_loadRun, fun i => ?_⟩
  have h := load_avg_tracks (N := 1) (by norm_num) busy_loadRun (fun _ => le_rfl) i
  exact ⟨h.2.1, h.2.2.2⟩

end Pintos
