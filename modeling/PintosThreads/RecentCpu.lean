/-
PintosThreads/RecentCpu.lean

The decay of `recent_cpu`.

Once a second `mlfqs_update_recent_cpu` multiplies the field by
`2 * load_avg / (2 * load_avg + 1)` and adds `nice`.  The coefficient is a
fixed-point fraction below one (`decayCoef`), the product is truncated toward
zero, and so is everything that `mlfqs_update_priority` computes from it.
Truncation is monotone whatever the sign, and therefore no update reverses two
threads (`Ageing`).
-/
import PintosThreads.LoadAverage
import PintosThreads.TimerPriorities

namespace Pintos

/-! ### One update -/

/-- The coefficient `2 * load_avg / (2 * load_avg + 1)`. -/
def decayCoef (loadAvg : ℤ) : ℤ :=
  (loadAvg * 2 * fpOne).tdiv (loadAvg * 2 + fpOne)

/-- What `mlfqs_update_recent_cpu` makes of `recent_cpu` where nothing overflows. -/
def nextCpu (loadAvg recentCpu nice : ℤ) : ℤ :=
  (decayCoef loadAvg * recentCpu).tdiv fpOne + nice * fpOne

/-- None of the values that `mlfqs_update_recent_cpu` computes overflows its type. -/
structure RecentCpuFits (loadAvg recentCpu nice : ℤ) : Prop where
  twoLoad : InInt32 (loadAvg * 2)
  denom : InInt32 (loadAvg * 2 + fpOne)
  dividend : InInt64 (loadAvg * 2 * fpOne)
  coef : InInt32 (decayCoef loadAvg)
  product : InInt64 (decayCoef loadAvg * recentCpu)
  decayed : InInt32 ((decayCoef loadAvg * recentCpu).tdiv fpOne)
  niceFp : InInt32 (nice * fpOne)
  sum : InInt32 (nextCpu loadAvg recentCpu nice)

variable {loadAvg r r' n n' : ℤ}

theorem decayedCpu_eq (h0 : 0 ≤ loadAvg) (hf : RecentCpuFits loadAvg r n) :
    decayedCpu loadAvg r n = some (nextCpu loadAvg r n) := by
  have hF : fpOne = 16384 := rfl
  have hone : toInt32 (1 * fpOne) = fpOne := by decide
  have hden : loadAvg * 2 + fpOne ≠ 0 := by omega
  have hcoef : fpDiv (loadAvg * 2) (loadAvg * 2 + fpOne) = some (decayCoef loadAvg) := by
    rw [fpDiv, if_neg hden]
    exact congrArg some (toInt32_of_inInt32 hf.coef)
  have hdecayed : fpMul (decayCoef loadAvg) r = (decayCoef loadAvg * r).tdiv fpOne :=
    toInt32_of_inInt32 hf.decayed
  rw [decayedCpu, fpMulInt, toInt32_of_inInt32 hf.twoLoad, fpAddInt, hone,
    toInt32_of_inInt32 hf.denom, hcoef, Option.map_some, hdecayed, fpAddInt,
    toInt32_of_inInt32 hf.niceFp]
  exact congrArg some (toInt32_of_inInt32 hf.sum)

/-- The coefficient is a fraction below one. -/
theorem decayCoef_mem (h0 : 0 ≤ loadAvg) : 0 ≤ decayCoef loadAvg ∧ decayCoef loadAvg < fpOne := by
  have hF : fpOne = 16384 := rfl
  have hden : 0 < loadAvg * 2 + fpOne := by omega
  refine ⟨Int.tdiv_nonneg (by rw [hF]; omega) hden.le, ?_⟩
  rw [decayCoef, Int.tdiv_eq_ediv_of_nonneg (by rw [hF]; omega)]
  apply Int.ediv_lt_of_lt_mul hden
  rw [hF]
  omega

theorem nextCpu_mono (h0 : 0 ≤ loadAvg) (hr : r ≤ r') (hn : n ≤ n') :
    nextCpu loadAvg r n ≤ nextCpu loadAvg r' n' := by
  have hF : 0 < fpOne := by decide
  have hmul : decayCoef loadAvg * r ≤ decayCoef loadAvg * r' :=
    Int.mul_le_mul_of_nonneg_left hr (decayCoef_mem h0).1
  have hdiv : (decayCoef loadAvg * r).tdiv fpOne ≤ (decayCoef loadAvg * r').tdiv fpOne :=
    Int.tdiv_le_tdiv hF hmul
  have hnice : n * fpOne ≤ n' * fpOne := Int.mul_le_mul_of_nonneg_right hn hF.le
  unfold nextCpu
  omega

/-- The more a thread has run and the nicer it is, the lower is its priority. -/
theorem formulaPriority_anti (hr : r ≤ r') (hn : n ≤ n') :
    formulaPriority r' n' ≤ formulaPriority r n := by
  have hdiv : r.tdiv (4 * fpOne) ≤ r'.tdiv (4 * fpOne) := Int.tdiv_le_tdiv (by decide) hr
  unfold formulaPriority
  apply max_le_max le_rfl
  apply min_le_min le_rfl
  omega

/-! ### Over a list of threads -/

variable {ts : List ThreadPtr} {k k₁ k' : Kernel} {a b t : ThreadPtr}

/-- `mlfqs_update_recent_cpu` on each thread of a list. -/
theorem foldlM_updateRecentCpu (hn : ts.Nodup)
    (h : ts.foldlM mlfqsUpdateRecentCpu k = some k') :
    ∃ thr, k' = k.setThr thr ∧ (∀ u, u ∉ ts → thr u = k.thr u) ∧
      ∀ t ∈ ts, (thr t).nice = (k.thr t).nice ∧ if k.idleThread = some t then
        (thr t).recentCpu = (k.thr t).recentCpu
      else decayedCpu k.loadAvg (k.thr t).recentCpu (k.thr t).nice = some (thr t).recentCpu := by
  refine foldlM_each (I := fun k₁ => k₁.idleThread = k.idleThread ∧ k₁.loadAvg = k.loadAvg)
    (P := fun t th th' => th'.nice = th.nice ∧ if k.idleThread = some t then
        th'.recentCpu = th.recentCpu
      else decayedCpu k.loadAvg th.recentCpu th.nice = some th'.recentCpu)
    (fun _ _ h => h) (fun k₁ t k₂ hi h => ?_) ts ⟨rfl, rfl⟩ hn h
  rw [mlfqsUpdateRecentCpu_eq, hi.1, hi.2] at h
  split at h
  case isTrue hidle =>
    cases h
    exact ⟨_, rfl, fun _ _ => rfl, by simp [hidle]⟩
  case isFalse hidle =>
    obtain ⟨c, hc, rfl⟩ := Option.map_eq_some_iff.mp h
    exact ⟨_, rfl, fun u hu => by simp [hu], by simp [hidle, hc]⟩

/-- `mlfqs_update_priority` on each thread of a list. -/
theorem foldlM_updatePriority (hn : ts.Nodup)
    (h : ts.foldlM (fun k t => some (mlfqsUpdatePriority k t)) k = some k') :
    ∃ thr, k' = k.setThr thr ∧ (∀ u, u ∉ ts → thr u = k.thr u) ∧
      ∀ t ∈ ts, (thr t).recentCpu = (k.thr t).recentCpu ∧ (thr t).nice = (k.thr t).nice ∧
        (k.idleThread ≠ some t →
          (thr t).priority = formulaPriority (k.thr t).recentCpu (k.thr t).nice) := by
  refine foldlM_each (I := fun k₁ => k₁.idleThread = k.idleThread)
    (P := fun t th th' => th'.recentCpu = th.recentCpu ∧ th'.nice = th.nice ∧
      (k.idleThread ≠ some t → th'.priority = formulaPriority th.recentCpu th.nice))
    (fun _ _ h => h) (fun k₁ t k₂ hi h => ?_) ts rfl hn h
  cases h
  unfold mlfqsUpdatePriority
  rw [hi]
  split
  case isTrue hidle => exact ⟨k₁.thr, rfl, fun _ _ => rfl, rfl, rfl, fun hne => absurd hidle hne⟩
  case isFalse =>
    refine ⟨_, rfl, fun u hu => by simp [hu], ?_⟩
    simp [mlfqsPriority_eq_formulaPriority]

/-! ### Ageing -/

/-- A step in which neither `a` nor `b` runs or changes its `nice`: an update of `recent_cpu` or of
the priorities, on both of them and on any other threads, or a step that concerns neither.  The
load average is not negative, and nothing overflows. -/
inductive Ageing (a b : ThreadPtr) (k : Kernel) : Kernel → Prop
  | recentCpu {ts : List ThreadPtr} {k' : Kernel} : ts.Nodup → a ∈ ts → b ∈ ts → 0 ≤ k.loadAvg →
      RecentCpuFits k.loadAvg (k.thr a).recentCpu (k.thr a).nice →
      RecentCpuFits k.loadAvg (k.thr b).recentCpu (k.thr b).nice →
      ts.foldlM mlfqsUpdateRecentCpu k = some k' → Ageing a b k k'
  | priority {ts : List ThreadPtr} {k' : Kernel} : ts.Nodup → a ∈ ts → b ∈ ts →
      ts.foldlM (fun k t => some (mlfqsUpdatePriority k t)) k = some k' → Ageing a b k k'
  | other {k' : Kernel} : k'.idleThread = k.idleThread →
      (∀ t, t = a ∨ t = b → (k'.thr t).recentCpu = (k.thr t).recentCpu ∧
        (k'.thr t).nice = (k.thr t).nice) → Ageing a b k k'

/-- Neither thread is the idle thread, and `a` is not behind `b`. -/
structure Ordered (a b : ThreadPtr) (k : Kernel) : Prop where
  idle : ∀ t, t = a ∨ t = b → k.idleThread ≠ some t
  nice : (k.thr a).nice ≤ (k.thr b).nice
  recentCpu : (k.thr a).recentCpu ≤ (k.thr b).recentCpu

theorem Ordered.step (O : Ordered a b k) (h : Ageing a b k k') : Ordered a b k' := by
  cases h with
  | recentCpu hn ha hb h0 hfa hfb h =>
      obtain ⟨thr, rfl, -, hp⟩ := foldlM_updateRecentCpu hn h
      obtain ⟨hna, hra⟩ := hp a ha
      obtain ⟨hnb, hrb⟩ := hp b hb
      rw [if_neg (O.idle a (.inl rfl)), decayedCpu_eq h0 hfa] at hra
      rw [if_neg (O.idle b (.inr rfl)), decayedCpu_eq h0 hfb] at hrb
      refine ⟨O.idle, ?_, ?_⟩
      · show (thr a).nice ≤ (thr b).nice
        rw [hna, hnb]
        exact O.nice
      · show (thr a).recentCpu ≤ (thr b).recentCpu
        rw [← Option.some.inj hra, ← Option.some.inj hrb]
        exact nextCpu_mono h0 O.recentCpu O.nice
  | priority hn ha hb h =>
      obtain ⟨thr, rfl, -, hp⟩ := foldlM_updatePriority hn h
      obtain ⟨hra, hna, -⟩ := hp a ha
      obtain ⟨hrb, hnb, -⟩ := hp b hb
      refine ⟨O.idle, ?_, ?_⟩
      · show (thr a).nice ≤ (thr b).nice
        rw [hna, hnb]
        exact O.nice
      · show (thr a).recentCpu ≤ (thr b).recentCpu
        rw [hra, hrb]
        exact O.recentCpu
  | other hi hsame =>
      obtain ⟨hra, hna⟩ := hsame a (.inl rfl)
      obtain ⟨hrb, hnb⟩ := hsame b (.inr rfl)
      refine ⟨fun t ht => hi ▸ O.idle t ht, ?_, ?_⟩
      · rw [hna, hnb]
        exact O.nice
      · rw [hra, hrb]
        exact O.recentCpu

theorem Ordered.steps (O : Ordered a b k) (h : Relation.ReflTransGen (Ageing a b) k k') :
    Ordered a b k' := by
  induction h with
  | refl => exact O
  | tail _ h ih => exact ih.step h

/-- **The handler of the timer interrupt** is such steps, for two threads that do not run. -/
theorem timerHandler_ageing {cfg : Config} {fuel : ℕ} {y : Bool} (hm : cfg.mlfqs = true)
    (hk : k.allList.Nodup) (ha : a ∈ k.allList) (hb : b ∈ k.allList) (hac : a ≠ k.cur)
    (hbc : b ≠ k.cur) (h0 : 0 ≤ k.loadAvg)
    (hfa : RecentCpuFits k.loadAvg (k.thr a).recentCpu (k.thr a).nice)
    (hfb : RecentCpuFits k.loadAvg (k.thr b).recentCpu (k.thr b).nice)
    (h : timerHandler cfg fuel k = some (k', y)) :
    Relation.ReflTransGen (Ageing a b) k k' := by
  obtain ⟨k₁, k₂, y', ht, hw, -, hl, -⟩ := timerHandler_cases h
  have hall : k₂.allList = k.allList := hw.allList.trans ht.allList
  have hidle : k₂.idleThread = k.idleThread := hw.idleThread.trans ht.idleThread
  have hload : k₂.loadAvg = k.loadAvg := hw.loadAvg.trans ht.loadAvg
  have hsame : ∀ t, t = a ∨ t = b → (k₂.thr t).recentCpu = (k.thr t).recentCpu ∧
      (k₂.thr t).nice = (k.thr t).nice := by
    intro t hab
    have hc : t ≠ k.cur := by
      rcases hab with rfl | rfl
      · exact hac
      · exact hbc
    rw [hw.recentCpu, hw.nice, ht.thr, tickedCpu, if_neg fun h => hc h.2.2]
    exact ⟨rfl, rfl⟩
  -- the tick and the wake-ups concern neither thread
  refine .head (.other hidle hsame) ?_
  rw [timerMlfqs, if_pos hm] at hl
  obtain ⟨⟨k₃, y₃⟩, h₃, hl⟩ := Option.bind_eq_some_iff.mp hl
  obtain ⟨k₄, h₄, hl⟩ := Option.bind_eq_some_iff.mp hl
  cases hl
  have hpri : Relation.ReflTransGen (Ageing a b) k₂ k₃ ∧ k₃.allList = k₂.allList ∧
      k₃.loadAvg = k₂.loadAvg ∧ ∀ t, t = a ∨ t = b →
        (k₃.thr t).recentCpu = (k₂.thr t).recentCpu ∧ (k₃.thr t).nice = (k₂.thr t).nice := by
    unfold timerPriorities at h₃
    split at h₃
    case isFalse =>
      cases h₃
      exact ⟨.refl, rfl, rfl, fun _ _ => ⟨rfl, rfl⟩⟩
    case isTrue =>
      obtain ⟨k₄, h₄, he⟩ := Option.map_eq_some_iff.mp h₃
      cases he
      obtain ⟨k₅, h₅, h₆⟩ := Option.bind_eq_some_iff.mp h₄
      obtain ⟨e, -, h₆⟩ := Option.bind_eq_some_iff.mp h₆
      obtain ⟨e, ev, rfl⟩ := reinsertQueues_eq fuel h₆
      have hstep : Ageing a b k₂ k₅ := .priority (hall ▸ hk) (hall ▸ ha) (hall ▸ hb) h₅
      obtain ⟨thr, rfl, -, hp⟩ := foldlM_updatePriority (hall ▸ hk) h₅
      refine ⟨.tail (.single hstep) (.other rfl fun _ _ => ⟨rfl, rfl⟩), rfl, rfl, ?_⟩
      rintro t (rfl | rfl)
      · exact ⟨(hp t (hall ▸ ha)).1, (hp t (hall ▸ ha)).2.1⟩
      · exact ⟨(hp t (hall ▸ hb)).1, (hp t (hall ▸ hb)).2.1⟩
  obtain ⟨hpri, hall₃, hload₃, hsame₃⟩ := hpri
  refine hpri.trans ?_
  unfold timerLoad at h₄
  split at h₄
  case isFalse =>
    cases h₄
    exact .refl
  case isTrue =>
    obtain ⟨k₅, h₅, h₆⟩ := Option.bind_eq_some_iff.mp h₄
    have hf : ∀ t, t = a ∨ t = b →
        RecentCpuFits k₃.loadAvg (k₃.thr t).recentCpu (k₃.thr t).nice := by
      intro t hab
      rw [hload₃, hload, (hsame₃ t hab).1, (hsame₃ t hab).2, (hsame t hab).1, (hsame t hab).2]
      rcases hab with rfl | rfl
      · exact hfa
      · exact hfb
    have hall₃ : k₃.allList = k.allList := hall₃.trans hall
    have hstep : Ageing a b k₃ k₅ := .recentCpu (hall₃ ▸ hk) (hall₃ ▸ ha) (hall₃ ▸ hb)
      (by rw [hload₃, hload]; exact h0) (hf a (.inl rfl)) (hf b (.inr rfl)) h₅
    refine .tail (.single hstep) ?_
    -- the new load average
    obtain ⟨_, -, h₆⟩ := Option.bind_eq_some_iff.mp h₆
    obtain ⟨_, -, h₆⟩ := Option.bind_eq_some_iff.mp h₆
    obtain ⟨_, -, h₆⟩ := Option.bind_eq_some_iff.mp h₆
    cases h₆
    exact .other rfl fun _ _ => ⟨rfl, rfl⟩

/-- **Ageing never reverses two threads**: what is ahead stays ahead, and has the higher priority
whenever both priorities are computed. -/
theorem ageing_keeps_order (ha : k.idleThread ≠ some a) (hb : k.idleThread ≠ some b)
    (hn : (k.thr a).nice ≤ (k.thr b).nice) (hr : (k.thr a).recentCpu ≤ (k.thr b).recentCpu)
    (h : Relation.ReflTransGen (Ageing a b) k k') :
    (k'.thr a).recentCpu ≤ (k'.thr b).recentCpu ∧
      ∀ (ts : List ThreadPtr) (k'' : Kernel), ts.Nodup → a ∈ ts → b ∈ ts →
        ts.foldlM (fun k t => some (mlfqsUpdatePriority k t)) k' = some k'' →
          (k''.thr b).priority ≤ (k''.thr a).priority := by
  have hidle : ∀ t, t = a ∨ t = b → k.idleThread ≠ some t := by
    rintro t (rfl | rfl)
    · exact ha
    · exact hb
  have O : Ordered a b k' := Ordered.steps ⟨hidle, hn, hr⟩ h
  refine ⟨O.recentCpu, fun ts k'' hnd hat hbt hu => ?_⟩
  obtain ⟨thr, rfl, -, hp⟩ := foldlM_updatePriority hnd hu
  show (thr b).priority ≤ (thr a).priority
  rw [(hp a hat).2.2 (O.idle a (.inl rfl)), (hp b hbt).2.2 (O.idle b (.inr rfl))]
  exact formulaPriority_anti O.recentCpu O.nice

/-- The initial thread has run for nothing, thread 1 for a tick, and it is nicer; a second later
both values have decayed. -/
theorem ageing_keeps_order_second : ∃ k k' : Kernel, (k.thr 1).nice = 5 ∧
    [0, 1].foldlM mlfqsUpdateRecentCpu k = some k' ∧
      (k'.thr 0).recentCpu ≤ (k'.thr 1).recentCpu := by
  have hF : fpOne = 16384 := rfl
  have hcoef : decayCoef 16384 = 10922 := by decide
  have hfit : ∀ r n, (r = 0 ∧ n = 0) ∨ (r = 16384 ∧ n = 5) → RecentCpuFits 16384 r n := by
    rintro r n (⟨rfl, rfl⟩ | ⟨rfl, rfl⟩) <;> constructor <;>
      simp only [InInt32, InInt64, nextCpu, hcoef, hF] <;> decide
  let th : Thread := { Thread.blank with recentCpu := 16384, nice := 5 }
  let k : Kernel := { boot mlfqsConfig with
    thr := Function.update (fun _ => Thread.blank) 1 th, loadAvg := 16384 }
  obtain ⟨k', hk⟩ : ∃ k', [0, 1].foldlM mlfqsUpdateRecentCpu k = some k' := ⟨_, rfl⟩
  have h : Ageing 0 1 k k' := .recentCpu (by decide) (by decide) (by decide) (by decide)
    (hfit _ _ (.inl ⟨rfl, rfl⟩)) (hfit _ _ (.inr ⟨rfl, rfl⟩)) hk
  have hi : ∀ t, k.idleThread ≠ some t := fun t h => by cases h
  exact ⟨k, k', rfl, hk, (ageing_keeps_order (hi 0) (hi 1) (by decide) (by decide) (.single h)).1⟩

end Pintos
