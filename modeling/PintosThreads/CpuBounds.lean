/-
PintosThreads/CpuBounds.lean

The bounds of `recent_cpu`.

Within a second a thread gains at most one unit a tick; the decay that ends
the second takes it back to where a second begins (`nextCpu_le`), because the
load average, and with it the coefficient, is bounded by the number of ready
threads.  The bound therefore depends on the tick (`cpuNow`), and what it says
at the last tick of a second is enough for every 32-bit step of the next decay
(`recentCpuFits`).

A new thread is given the `recent_cpu` that its creator had when `init_thread`
read it.  Where a second ends between the read and the insertion of the new
thread into `all_list`, the value escapes the decay; the bounds are those of
the runs in which this does not happen (`Label.CreatesWhole`).  `StaleCpu` has
both, the theorem that they give and a run that breaks them.
-/
import PintosThreads.RecentCpu
import PintosThreads.ControlFrames
import PintosThreads.IdlePriority
import Mathlib.Tactic.Ring

namespace Pintos

open Intrusive

variable {cfg : Config} {fuel : ℕ} {ok : Kernel → Label → Prop} {k k₁ k' : Kernel}
variable {N : ℕ} {l r n ticks : ℤ} {t : ThreadPtr} {b : Bool}

/-! ### The bounds -/

/-- The least and the greatest value of `recent_cpu` with at most `N` ready threads. -/
def cpuMin (N : ℕ) : ℤ := -20 * (2 * N + 1) * fpOne
def cpuMax (N : ℕ) : ℤ := 120 * (2 * N + 1) * fpOne

/-- The greatest value in a second of which `ticks` ticks have passed. -/
def cpuNow (N : ℕ) (ticks : ℤ) : ℤ := (240 * N + 20 + ticks % timerFreq) * fpOne

theorem cpuNow_le (N : ℕ) (ticks : ℤ) : cpuNow N ticks ≤ cpuMax N := by
  have hF : fpOne = 16384 := rfl
  have hT : timerFreq = 100 := rfl
  simp only [cpuNow, cpuMax, hF, hT]
  omega

/-- One more tick of the same second. -/
theorem cpuNow_tick (h : (ticks + 1) % timerFreq ≠ 0) :
    cpuNow N ticks + fpOne = cpuNow N (ticks + 1) := by
  have hF : fpOne = 16384 := rfl
  have hT : timerFreq = 100 := rfl
  simp only [cpuNow, hF, hT] at *
  omega

/-- The last tick of a second. -/
theorem cpuNow_last (h : (ticks + 1) % timerFreq = 0) : cpuNow N ticks + fpOne = cpuMax N := by
  have hF : fpOne = 16384 := rfl
  have hT : timerFreq = 100 := rfl
  simp only [cpuNow, cpuMax, hF, hT] at *
  omega

/-! ### The decay -/

/-- The coefficient is at most `2 * N / (2 * N + 1)`. -/
theorem decayCoef_mul_le (h0 : 0 ≤ l) (hl : l ≤ N * fpOne) :
    decayCoef l * (2 * N + 1) ≤ 2 * N * fpOne := by
  have hF : fpOne = 16384 := rfl
  obtain ⟨hc0, hc1⟩ := decayCoef_mem h0
  -- the quotient times the divisor
  have hdiv : decayCoef l * (l * 2 + fpOne) ≤ l * 2 * fpOne := by
    rw [decayCoef, Int.tdiv_eq_ediv_of_nonneg (by rw [hF]; omega)]
    exact Int.ediv_mul_le _ (by rw [hF]; omega)
  generalize decayCoef l = c at *
  rw [hF] at hl hc1 hdiv ⊢
  have h1 : c * 16384 ≤ l * 2 * (16384 - c) := by linarith
  have h2 : l * 2 * (16384 - c) ≤ N * 16384 * 2 * (16384 - c) := by
    have hpos : 0 ≤ 16384 - c := by omega
    gcongr
  linarith

/-- What the coefficient makes of a bound. -/
theorem decayCoef_mul_bound (h0 : 0 ≤ l) (hl : l ≤ N * fpOne) {a : ℤ} (ha : 0 ≤ a)
    (hr : r ≤ a * (2 * N + 1) * fpOne) :
    (decayCoef l * r).tdiv fpOne ≤ a * (2 * N) * fpOne := by
  have hcoef := decayCoef_mul_le h0 hl
  have hc0 := (decayCoef_mem h0).1
  have hF0 : 0 ≤ fpOne := by decide
  have hmul : decayCoef l * r ≤ a * (2 * N) * fpOne * fpOne := by
    calc decayCoef l * r ≤ decayCoef l * (a * (2 * N + 1) * fpOne) :=
          Int.mul_le_mul_of_nonneg_left hr hc0
      _ = a * fpOne * (decayCoef l * (2 * N + 1)) := by ring
      _ ≤ a * fpOne * (2 * N * fpOne) := Int.mul_le_mul_of_nonneg_left hcoef (mul_nonneg ha hF0)
      _ = a * (2 * N) * fpOne * fpOne := by ring
  calc (decayCoef l * r).tdiv fpOne ≤ (a * (2 * N) * fpOne * fpOne).tdiv fpOne :=
        Int.tdiv_le_tdiv (by decide) hmul
    _ = a * (2 * N) * fpOne := Int.mul_tdiv_cancel _ (by decide)

/-- A decay leaves at most what a second may begin with. -/
theorem nextCpu_le (h0 : 0 ≤ l) (hl : l ≤ N * fpOne) (hr : r ≤ cpuMax N) (hn : n ≤ niceMax) :
    nextCpu l r n ≤ cpuNow N 0 := by
  have hF : fpOne = 16384 := rfl
  have hT : (0 : ℤ) % timerFreq = 0 := by decide
  have hdiv := decayCoef_mul_bound h0 hl (a := 120) (by norm_num) hr
  rw [nextCpu, cpuNow, hT]
  rw [hF] at hdiv ⊢
  rw [niceMax] at hn
  omega

/-- A decay does not go below the least value. -/
theorem le_nextCpu (h0 : 0 ≤ l) (hl : l ≤ N * fpOne) (hr : cpuMin N ≤ r) (hn : niceMin ≤ n) :
    cpuMin N ≤ nextCpu l r n := by
  have hF : fpOne = 16384 := rfl
  have hr' : -r ≤ 20 * (2 * N + 1) * fpOne := by
    rw [cpuMin] at hr
    linarith
  have hdiv := decayCoef_mul_bound h0 hl (by norm_num) hr'
  rw [mul_neg, Int.neg_tdiv] at hdiv
  rw [nextCpu, cpuMin]
  rw [hF] at hdiv ⊢
  rw [niceMin] at hn
  omega

/-- With at most 545 ready threads the bounds are in the range of an `int`, also after one more
tick. -/
theorem cpu_inInt32 (hN : N ≤ 545) (hr0 : cpuMin N ≤ r) (hr : r ≤ cpuMax N) :
    InInt32 r ∧ InInt32 (r + fpOne) := by
  have hF : fpOne = 16384 := rfl
  simp only [cpuMin, cpuMax, hF, InInt32] at *
  omega

/-- With at most 545 ready threads no step of the update overflows. -/
theorem recentCpuFits (hN : N ≤ 545) (h0 : 0 ≤ l) (hl : l ≤ N * fpOne) (hr0 : cpuMin N ≤ r)
    (hr : r ≤ cpuMax N) (hn0 : niceMin ≤ n) (hn : n ≤ niceMax) : RecentCpuFits l r n := by
  have hF : fpOne = 16384 := rfl
  obtain ⟨hsum, -⟩ := cpu_inInt32 hN (le_nextCpu h0 hl hr0 hn0)
    ((nextCpu_le h0 hl hr hn).trans (cpuNow_le N 0))
  obtain ⟨⟨hr0, hr⟩, -⟩ := cpu_inInt32 hN hr0 hr
  obtain ⟨hc0, hc1⟩ := decayCoef_mem h0
  -- the product with the coefficient is shorter than that with one
  have hpos : decayCoef l * r ≤ decayCoef l * (2 ^ 31 - 1) :=
    Int.mul_le_mul_of_nonneg_left (Int.le_sub_one_of_lt hr) hc0
  have hneg : decayCoef l * -2 ^ 31 ≤ decayCoef l * r := Int.mul_le_mul_of_nonneg_left hr0 hc0
  have hdiv : InInt32 ((decayCoef l * r).tdiv fpOne) := by
    have h1 : (decayCoef l * r).tdiv fpOne ≤ ((2 ^ 31 - 1) * fpOne).tdiv fpOne :=
      Int.tdiv_le_tdiv (by decide) (by rw [hF] at *; omega)
    have h2 : (-2 ^ 31 * fpOne).tdiv fpOne ≤ (decayCoef l * r).tdiv fpOne :=
      Int.tdiv_le_tdiv (by decide) (by rw [hF] at *; omega)
    rw [Int.mul_tdiv_cancel _ (by decide)] at h1 h2
    exact ⟨h2, by omega⟩
  rw [niceMin] at hn0
  rw [niceMax] at hn
  refine ⟨?_, ?_, ?_, ?_, ?_, hdiv, ?_, hsum⟩ <;> simp only [InInt32, InInt64, hF] at * <;> omega

/-! ### The handler -/

/-- What `mlfqs_ready_threads` returns in the timer interrupt that ends a second. -/
def secondCount (cfg : Config) (fuel : ℕ) (k : Kernel) : Option ℕ := do
  let k := (threadTick cfg (ticked k)).1
  let k ← timerWakeup cfg fuel k.ticks k.sleepList k
  let (k, _) ← timerPriorities fuel k
  let k ← threadForeach mlfqsUpdateRecentCpu k
  mlfqsReadyThreads fuel k

/-- What the timer interrupt does to the values that the priorities are computed from, and to the
load average. -/
structure Ticks (cfg : Config) (fuel : ℕ) (k k' : Kernel) : Prop where
  allList : k'.allList = k.allList
  idleThread : k'.idleThread = k.idleThread
  ticks : k'.ticks = k.ticks + 1
  nice : ∀ t ∈ k.allList, (k'.thr t).nice = (k.thr t).nice
  recentCpu : ∀ t ∈ k.allList, (k.ticks + 1) % timerFreq ≠ 0 ∨ k.idleThread = some t →
    (k'.thr t).recentCpu = tickedCpu cfg k t
  decay : (k.ticks + 1) % timerFreq = 0 → ∀ t ∈ k.allList, k.idleThread ≠ some t →
    decayedCpu k.loadAvg (tickedCpu cfg k t) (k.thr t).nice = some (k'.thr t).recentCpu
  loadAvg : (k.ticks + 1) % timerFreq ≠ 0 → k'.loadAvg = k.loadAvg
  load : (k.ticks + 1) % timerFreq = 0 → ∃ n : ℕ, secondCount cfg fuel k = some n ∧
    k'.loadAvg = nextLoad k.loadAvg n

theorem timerHandler_ticks (hm : cfg.mlfqs = true) (hn : k.allList.Nodup)
    (h : timerHandler cfg fuel k = some (k', b)) : Ticks cfg fuel k k' := by
  obtain ⟨ht, -⟩ := threadTick_ticked cfg k
  obtain ⟨k₂, h₂, h⟩ := Option.bind_eq_some_iff.mp h
  obtain ⟨⟨k₅, b₅⟩, h₅, h⟩ := Option.bind_eq_some_iff.mp h
  cases h
  obtain ⟨k₁, hk₁⟩ : ∃ k₁, k₁ = (threadTick cfg (ticked k)).1 := ⟨_, rfl⟩
  have h₂ : timerWakeup cfg fuel k₁.ticks k₁.sleepList k₁ = some k₂ := by
    rw [hk₁]
    exact h₂
  rw [← hk₁] at ht
  obtain ⟨hw, -⟩ := timerWakeup_awakened _ h₂
  rw [timerMlfqs, if_pos hm] at h₅
  obtain ⟨⟨k₃, b₃⟩, h₃, h₅⟩ := Option.bind_eq_some_iff.mp h₅
  obtain ⟨k₄, h₄, h₅⟩ := Option.bind_eq_some_iff.mp h₅
  cases h₅
  have hall : k₂.allList = k.allList := hw.allList.trans ht.allList
  have hticks : k₂.ticks = k.ticks + 1 := hw.ticks.trans ht.ticks
  have hload : k₂.loadAvg = k.loadAvg := hw.loadAvg.trans ht.loadAvg
  have hidle : k₂.idleThread = k.idleThread := hw.idleThread.trans ht.idleThread
  have hthr : ∀ t, (k₂.thr t).recentCpu = tickedCpu cfg k t ∧ (k₂.thr t).nice = (k.thr t).nice := by
    intro t
    rw [hw.recentCpu, hw.nice, ht.thr]
    exact ⟨rfl, rfl⟩
  -- the priorities are computed before the decay, and leave these values alone
  have hpri : ∃ thr e ev, k₃ = { k₂.setThr thr with elems := e, log := ev } ∧
      ∀ t ∈ k.allList, (thr t).recentCpu = (k₂.thr t).recentCpu ∧
        (thr t).nice = (k₂.thr t).nice := by
    rw [timerPriorities] at h₃
    split at h₃
    case isFalse =>
      cases h₃
      exact ⟨k₂.thr, k₂.elems, k₂.log, rfl, fun _ _ => ⟨rfl, rfl⟩⟩
    case isTrue =>
      obtain ⟨k₆, h₆, he⟩ := Option.map_eq_some_iff.mp h₃
      cases he
      obtain ⟨k₇, h₇, h₆⟩ := Option.bind_eq_some_iff.mp h₆
      obtain ⟨e, -, h₆⟩ := Option.bind_eq_some_iff.mp h₆
      obtain ⟨e, ev, rfl⟩ := reinsertQueues_eq fuel h₆
      obtain ⟨thr, rfl, -, hp⟩ := foldlM_updatePriority (hall ▸ hn) h₇
      exact ⟨thr, e, ev, rfl, fun t ht => ⟨(hp t (hall ▸ ht)).1, (hp t (hall ▸ ht)).2.1⟩⟩
  obtain ⟨thr, e, ev, hk₃, hp⟩ := hpri
  have hticks₃ : k₃.ticks = k.ticks + 1 := by
    rw [hk₃]
    exact hticks
  have hsame : ∀ t ∈ k.allList, (thr t).recentCpu = tickedCpu cfg k t ∧
      (thr t).nice = (k.thr t).nice := fun t ht =>
    ⟨(hp t ht).1.trans (hthr t).1, (hp t ht).2.trans (hthr t).2⟩
  rw [timerLoad, hticks₃] at h₄
  split at h₄
  case isFalse hT =>
    cases h₄
    rw [hk₃]
    exact ⟨hall, hidle, hticks, fun t ht => (hsame t ht).2, fun t ht _ => (hsame t ht).1,
      fun e => absurd e hT, fun _ => hload, fun e => absurd e hT⟩
  case isTrue hT =>
    obtain ⟨k₆, h₆, h₄⟩ := Option.bind_eq_some_iff.mp h₄
    have hcount : ∃ n, mlfqsReadyThreads fuel k₆ = some n := by
      obtain ⟨n, hn, -⟩ := Option.bind_eq_some_iff.mp h₄
      exact ⟨n, hn⟩
    obtain ⟨n, hcount⟩ := hcount
    rw [mlfqsUpdateLoadAvg_eq hcount] at h₄
    cases h₄
    have hsec : secondCount cfg fuel k = some n := by
      simp only [secondCount, Option.bind_eq_bind, ← hk₁, h₂, h₃, h₆, Option.bind_some, hcount]
    subst hk₃
    have h₆ : k₂.allList.foldlM mlfqsUpdateRecentCpu _ = some k₆ := h₆
    obtain ⟨thr', rfl, -, hd⟩ := foldlM_updateRecentCpu (hall ▸ hn) h₆
    have hd : ∀ t ∈ k.allList, (thr' t).nice = (thr t).nice ∧ if k.idleThread = some t then
        (thr' t).recentCpu = (thr t).recentCpu
        else decayedCpu k.loadAvg (thr t).recentCpu (thr t).nice = some (thr' t).recentCpu := by
      intro t ht
      have hdt := hd t (hall ▸ ht)
      rw [← hidle, ← hload]
      exact hdt
    refine ⟨hall, hidle, hticks, fun t ht => (hd t ht).1.trans (hsame t ht).2, fun t ht hor => ?_,
      fun _ t ht hi => ?_, fun hne => absurd hT hne, fun _ => ⟨n, hsec, ?_⟩⟩
    · have hi := hor.resolve_left fun hne => hne hT
      have hdt := (hd t ht).2
      rw [if_pos hi] at hdt
      exact hdt.trans (hsame t ht).1
    · have hdt := (hd t ht).2
      rw [if_neg hi, (hsame t ht).1, (hsame t ht).2] at hdt
      exact hdt
    · show nextLoad k₂.loadAvg n = nextLoad k.loadAvg n
      rw [hload]

/-! ### What the other steps do -/

/-- The values that the priorities are computed from are as they were, for the threads that are
still listed. -/
structure SameCpu (k k' : Kernel) : Prop where
  recentCpu : ∀ t, (k'.thr t).recentCpu = (k.thr t).recentCpu
  nice : ∀ t, (k'.thr t).nice = (k.thr t).nice
  allList : k'.allList ⊆ k.allList
  idleThread : k'.idleThread = k.idleThread

theorem SameCpu.refl (k : Kernel) : SameCpu k k :=
  ⟨fun _ => rfl, fun _ => rfl, List.Subset.refl _, rfl⟩

theorem SameCpu.trans (h : SameCpu k k₁) (h' : SameCpu k₁ k') : SameCpu k k' :=
  ⟨fun t => (h'.recentCpu t).trans (h.recentCpu t), fun t => (h'.nice t).trans (h.nice t),
    fun _ ht => h.allList (h'.allList ht), h'.idleThread.trans h.idleThread⟩

/-- The frames that neither write a `nice` value nor create a thread nor assign `idle_thread`. -/
def Frame.KeepsCpu : Frame → Prop
  | threadSetNice _ | threadCreateLink _ _ _ _ | idle => False
  | _ => True

theorem Write.sameCpu {f : Frame} (hf : f.KeepsCpu) (h : Write cfg (some f) k k') :
    SameCpu k k' := by
  cases h with
  | silent hs => exact ⟨hs.recentCpu, hs.nice, hs.allList ▸ List.Subset.refl _, hs.idleThread⟩
  | links | insert | clock | dispatch =>
      exact ⟨fun _ => rfl, fun _ => rfl, List.Subset.refl _, rfl⟩
  | unlist => exact ⟨fun _ => rfl, fun _ => rfl, List.erase_subset, rfl⟩
  | @wake t | @compute t | @priority t =>
      refine ⟨fun u => ?_, fun u => ?_, List.Subset.refl _, rfl⟩ <;>
        obtain rfl | hu := eq_or_ne u t <;> simp [*]
  | sleep | waiting | setNice =>
      refine ⟨fun u => ?_, fun u => ?_, List.Subset.refl _, rfl⟩ <;>
        obtain rfl | hu := eq_or_ne u k.cur <;> simp [insertSleeper, *]
  | nice h | link h | idle h =>
      cases h
      exact hf.elim
  | recentCpu h => cases h

theorem Writes.sameCpu {f : Frame} (hf : f.KeepsCpu) (h : Writes cfg (some f) k k') :
    SameCpu k k' :=
  h.induct (P := SameCpu k) (fun _ _ hr hw => hr.trans (hw.sameCpu hf)) (.refl k)

theorem Silent.sameCpu (h : Silent k k') : SameCpu k k' :=
  ⟨h.recentCpu, h.nice, h.allList ▸ List.Subset.refl _, h.idleThread⟩

/-- The return from an interrupt. -/
theorem interruptReturn_sameCpu (h : interruptReturn cfg fuel k b = some k') :
    SameCpu k k' ∧ k'.numbers = k.numbers := by
  have hw : Writes cfg (some .threadYield) k k' :=
    interruptReturn_writes (by rintro f ⟨⟩; exact .threadYield) h
  have hf : Frame.threadYield.KeepsCpu := trivial
  refine ⟨hw.sameCpu hf, ?_⟩
  rw [interruptReturn] at h
  split at h
  · exact (yieldCurrent_switchedOff h).numbers
  · cases h
    rfl

/-- The interrupts whose handlers use semaphores. -/
theorem semaHandler_sameCpu {lab : Label} (hl : lab ≠ .timer)
    (h : lab.handler cfg fuel k = some (k', b)) :
    SameCpu k k' ∧ k'.numbers = k.numbers := by
  have he : Silent k ((endHalt k).setLevel false) := (endHalt_silent k).setLevel false
  have hn : ((endHalt k).setLevel false).numbers = k.numbers := by
    rw [endHalt]
    split <;> rfl
  cases lab with
  | timer => exact absurd rfl hl
  | semaUp m =>
      obtain ⟨k₁, h₁, h⟩ := Option.bind_eq_some_iff.mp h
      obtain ⟨b₁, -, h⟩ := Option.bind_eq_some_iff.mp h
      cases h
      have hw : Writes cfg (some (.semaUp (.user m))) ((endHalt k).setLevel false) k' :=
        semaUpBody_writes (by rintro f ⟨⟩; exact .semaUp) h₁
      have hf : (Frame.semaUp (.user m)).KeepsCpu := trivial
      exact ⟨he.sameCpu.trans (hw.sameCpu hf), (semaUpBody_sameControl h₁).numbers.trans hn⟩
  | semaTryDown m =>
      cases h
      exact ⟨(he.trans (semaTryDown_silent _ none _)).sameCpu,
        (semaTryDown_sameControl ((endHalt k).setLevel false) none _).numbers.trans hn⟩
  | _ => cases h

/-! ### The invariant -/

/-- Values of `nice` and `recent_cpu` within their bounds, in a second of which `ticks` ticks have
passed. -/
structure CpuOk (N : ℕ) (ticks nice recentCpu : ℤ) : Prop where
  niceMin_le : niceMin ≤ nice
  le_niceMax : nice ≤ niceMax
  cpuMin_le : cpuMin N ≤ recentCpu
  le_cpuNow : recentCpu ≤ cpuNow N ticks

/-- The values of the idle thread are not touched any more: it may keep those of the end of a
second. -/
def Kernel.agedAt (k : Kernel) (t : ThreadPtr) : ℤ :=
  if k.idleThread = some t then 99 else k.ticks

theorem CpuOk.last {nice : ℤ} (h : CpuOk N ticks nice r) : CpuOk N 99 nice r := by
  refine ⟨h.niceMin_le, h.le_niceMax, h.cpuMin_le, h.le_cpuNow.trans ?_⟩
  have hF : fpOne = 16384 := rfl
  have hT : timerFreq = 100 := rfl
  simp only [cpuNow, hF, hT]
  omega

/-- **The invariant**: the values of the threads are within their bounds, and so are those that a
thread being created will be given. -/
structure CpuInv (N : ℕ) (k : Kernel) : Prop where
  load_nonneg : 0 ≤ k.loadAvg
  load_le : k.loadAvg ≤ N * fpOne
  listed : ∀ t ∈ k.allList, CpuOk N (k.agedAt t) (k.thr t).nice (k.thr t).recentCpu
  created : ∀ u p e n r, .threadCreateLink p e n r ∈ k.stack u → CpuOk N k.ticks n r

/-- In the interrupt that ends a second no thread is being created between the read of its
creator's values and its insertion into the list of all threads; and no thread that has left that
list creates one. -/
def Label.CreatesWhole (k : Kernel) : Label → Prop
  | .timer => (k.ticks + 1) % timerFreq = 0 → ∀ u p e n r, .threadCreateLink p e n r ∉ k.stack u
  | .run => ∀ p e fs, k.stack k.cur = .threadCreate p e :: fs → k.cur ∈ k.allList
  | _ => True

/-- At the end of a second at most `N` threads are ready. -/
def Label.CountsTo (cfg : Config) (N : ℕ) (k : Kernel) (lab : Label) : Prop :=
  lab = .timer → (k.ticks + 1) % timerFreq = 0 →
    ∀ fuel n, secondCount cfg fuel k = some n → n ≤ N

theorem SameCpu.agedAt (h : SameCpu k k') (hn : k'.numbers = k.numbers) (t : ThreadPtr) :
    k'.agedAt t = k.agedAt t := by
  have ht : k'.ticks = k.ticks := congrArg Prod.fst hn
  rw [Kernel.agedAt, Kernel.agedAt, h.idleThread, ht]

/-- The frames of a thread being created come from `thread_create` only. -/
theorem Move.link_mem {s s' : Sync} {f : Frame} {gs : List Frame} {p : ℤ} {e : Entry}
    (h : Move t s f gs s') (hg : .threadCreateLink p e n r ∈ gs) : f = .threadCreate p e := by
  cases h with
  | quiet h =>
      cases h with
      | preempt _ hp | threadCreateUnblock hp =>
          obtain rfl := List.mem_singleton.mp hg
          cases hp
      | threadCreate =>
          cases List.mem_singleton.mp hg
          rfl
      | _ => simp at hg
  | up hp =>
      obtain rfl := List.mem_singleton.mp hg
      cases hp
  | _ => simp at hg

/-- Every frame of a thread being created was there before the step, or the step is the read in
`init_thread`. -/
theorem step_link_mem {lab : Label} {u : ThreadPtr} {p : ℤ} {e : Entry} (hr : Reachable cfg ok k)
    (h : step cfg fuel k lab = some k') (hm : .threadCreateLink p e n r ∈ k'.stack u) :
    .threadCreateLink p e n r ∈ k.stack u ∨
      lab = .run ∧ (∃ fs, k.stack k.cur = .threadCreate p e :: fs) ∧
        n = (k.thr k.cur).nice ∧ r = (k.thr k.cur).recentCpu := by
  have hc : k.cur < k.nextThread := (Reachable.anySync hr).2
  have I := hr.control.inv
  have hs := (step_syncStep hc h).1
  have hm : .threadCreateLink p e n r ∈ k'.sync.stack u := hm
  generalize hk : k'.sync = s' at hs hm
  cases hs with
  | @call c hnil =>
      refine .inl ?_
      obtain rfl | hu := eq_or_ne u k.cur
      · rw [Sync.setStack_stack, Function.update_self] at hm
        cases c <;> simp [Call.frame] at hm
      · rwa [Sync.setStack_stack, Function.update_of_ne hu] at hm
  | @run f fs gs s₁ hst hmove =>
      obtain ⟨hfs, ho⟩ := hmove.stack_run I.unborn hst
      obtain rfl | hu := eq_or_ne u k.cur
      · rw [Sync.setStack_stack, Function.update_self, hfs] at hm
        rcases List.mem_append.mp hm with hg | hg
        · obtain rfl := hmove.link_mem hg
          -- the frame is pushed with the values read in this step
          have hst : k.stack k.cur = .threadCreate p e :: fs := hst
          have he := congrArg (fun s => s.stack k.cur) hk
          simp only [Sync.setStack_stack, Function.update_self, hfs] at he
          rw [step, hst] at h
          simp only [exec] at h
          split at h
          case isTrue =>
            -- no page, and no frame
            cases h
            have hgs : gs ++ fs = fs := by
              rw [← he]
              simp [popFrame]
            rw [List.self_eq_append_left.mp hgs.symm] at hg
            cases hg
          split at h
          case isFalse => cases h
          cases h
          have hgs : gs ++ fs =
              .threadCreateLink p e (k.thr k.cur).nice (k.thr k.cur).recentCpu :: fs := by
            rw [← he]
            simp [popFrame]
          obtain rfl : gs = [_] := List.append_cancel_right (hgs.trans rfl)
          cases List.mem_singleton.mp hg
          exact .inr ⟨rfl, ⟨fs, hst⟩, rfl, rfl⟩
        · refine .inl ?_
          have hst : k.stack k.cur = f :: fs := hst
          rw [hst]
          exact .tail _ hg
      · rw [Sync.setStack_stack, Function.update_of_ne hu] at hm
        rcases ho u hu with ho | ⟨_, function, _, _, -, rfl, ho⟩
        · rw [ho] at hm
          exact .inl hm
        · rw [ho] at hm
          cases function <;> simp [Entry.stack] at hm
  | interrupt _ hin hh =>
      refine .inl ?_
      obtain rfl | hu := eq_or_ne u k.cur
      · rw [Sync.setStack_stack, Function.update_self] at hm
        generalize k.stack k.cur = gs at hin ⊢
        cases hin <;> simpa using hm
      · rw [Sync.setStack_stack, Function.update_of_ne hu] at hm
        cases hh <;> exact hm

theorem endHalt_link_mem {u : ThreadPtr} {p : ℤ} {e : Entry}
    (h : .threadCreateLink p e n r ∈ (endHalt k).stack u) :
    .threadCreateLink p e n r ∈ k.stack u := by
  rw [endHalt] at h
  split at h
  case h_1 hst =>
    obtain rfl | hu := eq_or_ne u k.cur
    · rw [hst]
      simpa using h
    · simpa [hu] using h
  case h_2 => exact h

theorem CpuInv.same (H : CpuInv N k) (h : SameCpu k k') (hn : k'.numbers = k.numbers)
    (hs : ∀ u p e n r, .threadCreateLink p e n r ∈ k'.stack u → CpuOk N k.ticks n r) :
    CpuInv N k' := by
  have hl : k'.loadAvg = k.loadAvg := congrArg Prod.snd hn
  have ht : k'.ticks = k.ticks := congrArg Prod.fst hn
  refine ⟨hl ▸ H.load_nonneg, hl ▸ H.load_le, fun t hm => ?_, fun u p e n r hm => ?_⟩
  · rw [h.agedAt hn, h.nice, h.recentCpu]
    exact H.listed t (h.allList hm)
  · rw [ht]
    exact hs u p e n r hm

/-- What the tick makes of the `recent_cpu` of a thread. -/
theorem CpuInv.tickedCpu (hN : N ≤ 545) (H : CpuInv N k) (ht : t ∈ k.allList)
    (hi : k.idleThread ≠ some t) :
    cpuMin N ≤ tickedCpu cfg k t ∧ tickedCpu cfg k t ≤ cpuNow N k.ticks + fpOne ∧
      (tickedCpu cfg k t = (k.thr t).recentCpu ∨
        tickedCpu cfg k t = (k.thr t).recentCpu + fpOne) := by
  have hF : fpOne = 16384 := rfl
  have hone : toInt32 (1 * fpOne) = fpOne := by decide
  have Ht := H.listed t ht
  rw [Kernel.agedAt, if_neg hi] at Ht
  have h0 := Ht.cpuMin_le
  have h1 := Ht.le_cpuNow
  rw [Pintos.tickedCpu]
  split
  · obtain ⟨-, hfit⟩ := cpu_inInt32 hN h0 (h1.trans (cpuNow_le N _))
    rw [fpAddInt, hone, toInt32_of_inInt32 hfit]
    exact ⟨by omega, by omega, .inr rfl⟩
  · exact ⟨h0, by omega, .inl rfl⟩

/-- What the update at the end of a second computes with. -/
theorem CpuInv.fits (hN : N ≤ 545) (H : CpuInv N k) (ht : t ∈ k.allList)
    (hi : k.idleThread ≠ some t) (hT : (k.ticks + 1) % timerFreq = 0) :
    Pintos.tickedCpu cfg k t ≤ cpuMax N ∧
      RecentCpuFits k.loadAvg (Pintos.tickedCpu cfg k t) (k.thr t).nice := by
  obtain ⟨h0, h1, -⟩ : cpuMin N ≤ Pintos.tickedCpu cfg k t ∧ _ ∧ _ := H.tickedCpu hN ht hi
  rw [cpuNow_last hT] at h1
  have Ht := H.listed t ht
  exact ⟨h1, recentCpuFits hN H.load_nonneg H.load_le h0 h1 Ht.niceMin_le Ht.le_niceMax⟩

/-- **The handler of the timer interrupt.** -/
theorem CpuInv.timerHandler (hm : cfg.mlfqs = true) (hN : N ≤ 545) (H : CpuInv N k)
    (hnd : k.allList.Nodup) (hw : Label.timer.CreatesWhole k) (hc : Label.timer.CountsTo cfg N k)
    (hs : ∀ u p e n r, .threadCreateLink p e n r ∈ k'.stack u →
      .threadCreateLink p e n r ∈ k.stack u)
    (h : timerHandler cfg fuel k = some (k', b)) : CpuInv N k' ∧
      ∀ u p e n r, .threadCreateLink p e n r ∈ k.stack u → CpuOk N k'.ticks n r := by
  have T := timerHandler_ticks hm hnd h
  have hload : 0 ≤ k'.loadAvg ∧ k'.loadAvg ≤ N * fpOne := by
    by_cases hT : (k.ticks + 1) % timerFreq = 0
    · obtain ⟨n, hn, hl⟩ := T.load hT
      have hnN := hc rfl hT fuel n hn
      rw [hl]
      exact nextLoad_le (by omega) H.load_nonneg H.load_le (by omega) (by exact_mod_cast hnN)
    · rw [T.loadAvg hT]
      exact ⟨H.load_nonneg, H.load_le⟩
  have hcreated : ∀ u p e n r, .threadCreateLink p e n r ∈ k.stack u →
      CpuOk N k'.ticks n r := by
    intro u p e n r hmem
    have Hc := H.created u p e n r hmem
    rw [T.ticks]
    by_cases hT : (k.ticks + 1) % timerFreq = 0
    · exact absurd hmem (hw hT u p e n r)
    · refine ⟨Hc.niceMin_le, Hc.le_niceMax, Hc.cpuMin_le, Hc.le_cpuNow.trans ?_⟩
      have hF : 0 ≤ fpOne := by decide
      rw [← cpuNow_tick hT]
      omega
  refine ⟨⟨hload.1, hload.2, fun t ht => ?_, fun u p e n r hmem =>
    hcreated u p e n r (hs u p e n r hmem)⟩, hcreated⟩
  · rw [T.allList] at ht
    have Ht := H.listed t ht
    rw [T.nice t ht, Kernel.agedAt, T.idleThread, T.ticks]
    by_cases hi : k.idleThread = some t
    · -- the idle thread does not age
      have hsame : Pintos.tickedCpu cfg k t = (k.thr t).recentCpu := by
        rw [Pintos.tickedCpu, if_neg]
        rintro ⟨-, hne, rfl⟩
        exact hne hi
      rw [if_pos hi, T.recentCpu t ht (.inr hi), hsame]
      rw [Kernel.agedAt, if_pos hi] at Ht
      exact Ht
    · rw [if_neg hi]
      obtain ⟨h0, h1, -⟩ : cpuMin N ≤ Pintos.tickedCpu cfg k t ∧ _ ∧ _ := H.tickedCpu hN ht hi
      by_cases hT : (k.ticks + 1) % timerFreq = 0
      · obtain ⟨hmax, hfit⟩ : Pintos.tickedCpu cfg k t ≤ cpuMax N ∧ _ := H.fits hN ht hi hT
        have hd := T.decay hT t ht hi
        rw [decayedCpu_eq H.load_nonneg hfit] at hd
        rw [← Option.some.inj hd]
        refine ⟨Ht.niceMin_le, Ht.le_niceMax,
          le_nextCpu H.load_nonneg H.load_le h0 Ht.niceMin_le, ?_⟩
        have hnow : cpuNow N (k.ticks + 1) = cpuNow N 0 := by
          rw [cpuNow, cpuNow, hT]
          rfl
        rw [hnow]
        exact nextCpu_le H.load_nonneg H.load_le hmax Ht.le_niceMax
      · rw [T.recentCpu t ht (.inl hT)]
        rw [cpuNow_tick hT] at h1
        exact ⟨Ht.niceMin_le, Ht.le_niceMax, h0, h1⟩

/-- What `thread_set_nice` writes is in the range. -/
theorem exec_threadSetNice (H : CpuInv N k) {m : ℤ}
    (h : exec cfg fuel k (.threadSetNice m) = some k') :
    ∀ t ∈ k'.allList, CpuOk N (k'.agedAt t) (k'.thr t).nice (k'.thr t).recentCpu := by
  cases h
  intro t ht
  have Ht := H.listed t ht
  by_cases hc : t = k.cur
  · subst hc
    simp only [Kernel.push_thr, Kernel.modify_thr, Function.update_self]
    refine ⟨?_, ?_, Ht.cpuMin_le, Ht.le_cpuNow⟩ <;> simp only [niceMin, niceMax] <;> split_ifs <;>
      omega
  · simp only [Kernel.push_thr, Kernel.modify_thr, Function.update_of_ne hc]
    exact Ht

/-- A new thread is given the values that were read in `init_thread`. -/
theorem exec_threadCreateLink {p : ℤ} {e : Entry} (hm : cfg.mlfqs = true) (A : AllListOk k)
    (hi : ∀ t, k.idleThread = some t → t < k.nextThread) (H : CpuInv N k)
    (hc : CpuOk N k.ticks n r) (h : exec cfg fuel k (.threadCreateLink p e n r) = some k') :
    ∀ t ∈ k'.allList, CpuOk N (k'.agedAt t) (k'.thr t).nice (k'.thr t).recentCpu := by
  have hl : ∀ t ∈ (linkThread cfg k p e n r).allList,
      CpuOk N (k.agedAt t) ((linkThread cfg k p e n r).thr t).nice
        ((linkThread cfg k p e n r).thr t).recentCpu := by
    intro t ht
    rcases List.mem_append.mp ht with ht | ht
    · have hne : t ≠ k.nextThread := (A.lt t ht).ne
      simp only [linkThread, Function.update_of_ne hne]
      exact H.listed t ht
    · obtain rfl := List.mem_singleton.mp ht
      have hni : k.idleThread ≠ some k.nextThread := fun he => lt_irrefl _ (hi _ he)
      simp only [linkThread, Function.update_self, initThread, hm, if_true]
      rw [Kernel.agedAt, if_neg hni]
      exact hc
  cases h
  split <;> exact hl

/-- `idle_thread` is assigned once. -/
theorem exec_idle (hi : k.idleThread = none) (H : CpuInv N k)
    (h : exec cfg fuel k .idle = some k') :
    ∀ t ∈ k'.allList, CpuOk N (k'.agedAt t) (k'.thr t).nice (k'.thr t).recentCpu := by
  cases h
  intro t ht
  have Ht := H.listed t ht
  have hn : k.agedAt t = k.ticks := by
    rw [Kernel.agedAt, hi, if_neg nofun]
  rw [hn] at Ht
  simp only [Kernel.agedAt, Kernel.pushes_idleThread, Kernel.pushes_ticks]
  split
  · exact Ht.last
  · exact Ht

/-- **One step.** -/
theorem CpuInv.step {lab : Label} (hm : cfg.mlfqs = true) (hN : N ≤ 545) (H : CpuInv N k)
    (hr : Reachable cfg ok k) (hw : lab.CreatesWhole k) (hc : lab.CountsTo cfg N k)
    (h : step cfg fuel k lab = some k') : CpuInv N k' := by
  have hlt : k.cur < k.nextThread := (Reachable.anySync hr).2
  have I := hr.control.inv
  have A : AllListOk k := hr.allListOk
  -- the values read in `init_thread` are those of a listed thread that ages
  have hcreated : ∀ u p e n r, .threadCreateLink p e n r ∈ k'.stack u →
      CpuOk N k.ticks n r := by
    intro u p e n r hmem
    rcases step_link_mem hr h hmem with hmem | ⟨rfl, ⟨fs, e₁⟩, rfl, rfl⟩
    · exact H.created u p e n r hmem
    · have Hc := H.listed k.cur (hw p e fs e₁)
      have hni : k.idleThread ≠ some k.cur := by
        intro hi
        have hof : Frame.OfIdle (.threadCreate p e) :=
          I.idle_mem hi (by rw [Kernel.sync_stack, e₁]; exact .head _)
        exact hof
      rwa [Kernel.agedAt, if_neg hni] at Hc
  have hintr : lab.isInterrupt = true → CpuInv N k' := by
    intro hl
    have hkeep : ∀ u p e n r, .threadCreateLink p e n r ∈ k'.stack u →
        .threadCreateLink p e n r ∈ k.stack u := by
      intro u p e n r hmem
      rcases step_link_mem hr h hmem with hmem | ⟨rfl, -⟩
      · exact hmem
      · cases hl
    rw [step_interrupt hl] at h
    split at h
    case isFalse => cases h
    obtain ⟨⟨k₁, y⟩, h₁, h⟩ := Option.bind_eq_some_iff.mp h
    obtain ⟨hs, hn⟩ := interruptReturn_sameCpu h
    by_cases ht : lab = .timer
    · subst ht
      obtain ⟨hst, -, -⟩ := handler_control h₁
      have hkeep₁ : ∀ u p e n r, .threadCreateLink p e n r ∈ k₁.stack u →
          .threadCreateLink p e n r ∈ k.stack u := by
        intro u p e n r hmem
        rw [hst] at hmem
        exact endHalt_link_mem hmem
      obtain ⟨H₁, hcr⟩ := H.timerHandler hm hN A.nodup hw hc hkeep₁ h₁
      exact H₁.same hs hn fun u p e n r hmem => hcr u p e n r (hkeep u p e n r hmem)
    · obtain ⟨hs₁, hn₁⟩ := semaHandler_sameCpu ht h₁
      exact H.same (hs₁.trans hs) (hn.trans hn₁) hcreated
  cases lab with
  | call c =>
      rw [Pintos.step] at h
      split at h
      case isFalse => cases h
      case isTrue =>
        cases h
        exact H.same (Silent.sameCpu ((Silent.refl k).push _)) rfl hcreated
  | run =>
      rcases e : k.stack k.cur with - | ⟨f, fs⟩
      · simp [Pintos.step, e] at h
      · rw [Pintos.step, e] at h
        have hR : Resumes (popFrame k fs) f k' := exec_resumes hlt h
        have hn : k'.numbers = k.numbers := hR.numbers
        have H₁ : CpuInv N (popFrame k fs) := by
          refine H.same ⟨fun _ => rfl, fun _ => rfl, List.Subset.refl _, rfl⟩ rfl
            fun u p e' n r hmem => H.created u p e' n r ?_
          obtain rfl | hu := eq_or_ne u k.cur
          · rw [e]
            exact List.mem_cons_of_mem _ (by simpa [popFrame] using hmem)
          · rwa [popFrame_stack_of_ne hu] at hmem
        have hhead : f ∈ k.stack k.cur := by
          rw [e]
          exact .head _
        by_cases hf : f.KeepsCpu
        · have hs : SameCpu (popFrame k fs) k' := (exec_writes h).sameCpu hf
          exact H.same ⟨hs.recentCpu, hs.nice, hs.allList, hs.idleThread⟩ hn hcreated
        · have hlisted : ∀ t ∈ k'.allList,
              CpuOk N (k'.agedAt t) (k'.thr t).nice (k'.thr t).recentCpu := by
            cases f <;> try exact absurd trivial hf
            case threadSetNice m => exact exec_threadSetNice H₁ h
            case threadCreateLink p e' n r =>
              have A₁ : AllListOk (popFrame k fs) := ⟨A.lt, A.nodup⟩
              refine exec_threadCreateLink hm A₁ (fun t ht => ?_) H₁
                (H.created _ p e' n r hhead) h
              obtain ⟨rfl, h1, -⟩ := I.idleThread t ht
              exact h1
            case idle =>
              refine exec_idle ?_ H₁ h
              have h1 : k.cur = 1 := (I.frameOk _ _ hhead).idle_eq .idle
              rcases hi : k.idleThread with - | t
              · exact hi
              · rw [h1] at hhead
                exact absurd hhead (I.idleThread t hi).2.2
          have hl : k'.loadAvg = k.loadAvg := congrArg Prod.snd hn
          have ht : k'.ticks = k.ticks := congrArg Prod.fst hn
          refine ⟨hl ▸ H.load_nonneg, hl ▸ H.load_le, hlisted, ?_⟩
          rw [ht]
          exact hcreated
  | _ => exact hintr rfl

theorem bootCpuInv (N : ℕ) : CpuInv N (boot cfg) := by
  have hF : fpOne = 16384 := rfl
  have hT : timerFreq = 100 := rfl
  refine ⟨le_rfl, by rw [hF]; exact mul_nonneg N.cast_nonneg (by norm_num), fun t ht => ?_,
    fun u p e n r hm => ?_⟩
  · obtain rfl := List.mem_singleton.mp ht
    have hn : (boot cfg).agedAt 0 = 0 := rfl
    have ht : ((boot cfg).thr 0).nice = 0 ∧ ((boot cfg).thr 0).recentCpu = 0 := by
      simp [boot, initThread, niceDefault, recentCpuDefault]
    rw [hn, ht.1, ht.2]
    refine ⟨by decide, by decide, ?_, ?_⟩ <;> simp only [cpuMin, cpuNow, hF, hT] <;> omega
  · obtain rfl | hu := eq_or_ne u 0
    · simp [boot] at hm
    · simp [boot, hu] at hm

/-- **Whole runs.** -/
theorem Reachable.cpuInv (hm : cfg.mlfqs = true) (hN : N ≤ 545)
    (hok : ∀ k lab, ok k lab → lab.CountsTo cfg N k ∧ lab.CreatesWhole k)
    (h : Reachable cfg ok k) : CpuInv N k := by
  induction h with
  | refl => exact bootCpuInv N
  | tail hr hstep ih =>
      obtain ⟨lab, fuel, hlab, hstep⟩ := hstep
      obtain ⟨hc, hw⟩ := hok _ _ hlab
      exact ih.step hm hN hr hw hc hstep

/-- The handler of the timer interrupt computes in the integers: nothing overflows, nothing is
divided by zero, and the coefficient is a fraction. -/
structure UpdatesExactly (cfg : Config) (fuel : ℕ) (k k' : Kernel) : Prop where
  tick : ∀ t ∈ k.allList, tickedCpu cfg k t =
    if k.idleThread ≠ some k.cur ∧ t = k.cur then (k.thr t).recentCpu + fpOne
    else (k.thr t).recentCpu
  decay : (k.ticks + 1) % timerFreq = 0 → ∀ t ∈ k.allList, k.idleThread ≠ some t →
    fpOne ≤ k.loadAvg * 2 + fpOne ∧ 0 ≤ decayCoef k.loadAvg ∧ decayCoef k.loadAvg < fpOne ∧
      RecentCpuFits k.loadAvg (tickedCpu cfg k t) (k.thr t).nice ∧
        (k'.thr t).recentCpu = nextCpu k.loadAvg (tickedCpu cfg k t) (k.thr t).nice
  load : (k.ticks + 1) % timerFreq = 0 → ∃ n : ℕ, secondCount cfg fuel k = some n ∧
    LoadAvgFits k.loadAvg n ∧ k'.loadAvg = nextLoad k.loadAvg n

theorem CpuInv.updatesExactly (hm : cfg.mlfqs = true) (hN : N ≤ 545) (H : CpuInv N k)
    (hnd : k.allList.Nodup) (hc : Label.timer.CountsTo cfg N k)
    (h : Pintos.timerHandler cfg fuel k = some (k', b)) : UpdatesExactly cfg fuel k k' := by
  have T := timerHandler_ticks hm hnd h
  refine ⟨fun t ht => ?_, fun hT t ht hi => ?_, fun hT => ?_⟩
  · by_cases hi : k.idleThread = some t
    · have hne : ¬ (k.idleThread ≠ some k.cur ∧ t = k.cur) := by
        rintro ⟨hne, rfl⟩
        exact hne hi
      rw [if_neg hne, Pintos.tickedCpu, if_neg fun h => hne h.2]
    · have hone : toInt32 (1 * fpOne) = fpOne := by decide
      have Ht := H.listed t ht
      rw [Kernel.agedAt, if_neg hi] at Ht
      obtain ⟨-, hfit⟩ := cpu_inInt32 hN Ht.cpuMin_le (Ht.le_cpuNow.trans (cpuNow_le N _))
      simp only [Pintos.tickedCpu, hm, true_and, fpAddInt, hone, toInt32_of_inInt32 hfit]
  · obtain ⟨-, hfit⟩ : Pintos.tickedCpu cfg k t ≤ cpuMax N ∧ _ := H.fits hN ht hi hT
    obtain ⟨hc0, hc1⟩ := decayCoef_mem H.load_nonneg
    have hd := T.decay hT t ht hi
    rw [decayedCpu_eq H.load_nonneg hfit] at hd
    have h0 := H.load_nonneg
    exact ⟨by omega, hc0, hc1, hfit, (Option.some.inj hd).symm⟩
  · obtain ⟨n, hn, hl⟩ := T.load hT
    have hnN := hc rfl hT fuel n hn
    exact ⟨n, hn, (nextLoad_eq (by omega) H.load_nonneg H.load_le (by omega)
      (by exact_mod_cast hnN)).1, hl⟩

end Pintos
