/-
PintosThreads/CpuCharge.lean

What a thread is charged for.

`CpuBounds` says how large `recent_cpu` can become.  Here it is computed from
the run (`recent_cpu_run`): each tick charges the running thread with one unit
and nobody else, whatever the kernel is in the middle of; the tick that ends a
second is charged first, and then the value decays with the load average of the
second before, and `nice` is added.  Nothing else in the system touches the
value of a thread, neither a yield nor a change of its `nice`.  Within a second
the difference is therefore the number of ticks in which the thread was running.
-/
import PintosThreads.CpuBounds

namespace Pintos

variable {cfg : Config} {fuel : ℕ} {ok : Kernel → Label → Prop}
variable {k k' : Kernel} {lab : Label} {N : ℕ} {t : ThreadPtr}

/-! ### Steps -/

/-- What a step charges thread `t` with, whose `recent_cpu` is `r` before it. -/
def charge (t : ThreadPtr) (r : ℤ) (s : Kernel × Label) : ℤ :=
  if s.2 = .timer then
    let r := if s.1.cur = t then r + fpOne else r
    if (s.1.ticks + 1) % timerFreq = 0 then nextCpu s.1.loadAvg r (s.1.thr t).nice else r
  else r

/-- A frame leaves the `recent_cpu` of every thread alone that exists. -/
theorem exec_recentCpu {f : Frame} (ht : t < k.nextThread) (h : exec cfg fuel k f = some k') :
    (k'.thr t).recentCpu = (k.thr t).recentCpu := by
  by_cases hf : f.KeepsCpu
  · exact ((exec_writes h).sameCpu hf).recentCpu t
  · cases f <;> try exact absurd trivial hf
    case threadSetNice m =>
      cases h
      obtain rfl | hc := eq_or_ne t k.cur <;> simp [*]
    case threadCreateLink p e n r =>
      cases h
      have hl : ((linkThread cfg k p e n r).thr t).recentCpu = (k.thr t).recentCpu := by
        simp only [linkThread, Function.update_of_ne ht.ne]
      split <;> exact hl
    case idle =>
      cases h
      rfl

/-- Every step but a tick leaves the `recent_cpu` of every thread alone that exists. -/
theorem step_recentCpu (hl : lab ≠ .timer) (ht : t < k.nextThread)
    (h : step cfg fuel k lab = some k') : (k'.thr t).recentCpu = (k.thr t).recentCpu := by
  -- an interrupt handler calls `sema_up` or `sema_try_down`, and may yield on its return
  have hintr : lab.isInterrupt = true → (k'.thr t).recentCpu = (k.thr t).recentCpu := by
    intro hi
    rw [step_interrupt hi] at h
    split at h
    case isFalse => cases h
    obtain ⟨⟨k₁, y⟩, h₁, h⟩ := Option.bind_eq_some_iff.mp h
    have hs := (semaHandler_sameCpu hl h₁).1
    exact ((interruptReturn_sameCpu h).1.recentCpu t).trans (hs.recentCpu t)
  cases lab with
  | call c =>
      rw [step] at h
      split at h
      case isFalse => cases h
      case isTrue =>
        cases h
        rfl
  | run =>
      rcases e : k.stack k.cur with - | ⟨f, fs⟩
      · simp [step, e] at h
      · rw [step, e] at h
        have hn : t < (popFrame k fs).nextThread := ht
        have hx : exec cfg fuel (popFrame k fs) f = some k' := h
        have hc := exec_recentCpu hn hx
        exact hc
  | _ => exact hintr rfl

/-- **A step** charges thread `t`, which is not the idle thread. -/
theorem CpuInv.charge (hm : cfg.mlfqs = true) (hN : N ≤ 545) (H : CpuInv N k)
    (hr : Reachable cfg ok k) (hc : lab.CountsTo cfg N k) (ht : t ∈ k.allList)
    (hi : k.idleThread ≠ some t) (h : Pintos.step cfg fuel k lab = some k') :
    (k'.thr t).recentCpu = Pintos.charge t (k.thr t).recentCpu (k, lab) := by
  have A : AllListOk k := hr.allListOk
  by_cases hl : lab = .timer
  · subst hl
    rw [step_interrupt rfl] at h
    split at h
    case isFalse => cases h
    obtain ⟨⟨k₁, y⟩, h₁, h⟩ := Option.bind_eq_some_iff.mp h
    have h₁ : Pintos.timerHandler cfg fuel k = some (k₁, y) := h₁
    have U := H.updatesExactly hm hN A.nodup hc h₁
    have htick : Pintos.tickedCpu cfg k t =
        if k.cur = t then (k.thr t).recentCpu + fpOne else (k.thr t).recentCpu := by
      rw [U.tick t ht]
      refine if_congr ⟨fun h => h.2.symm, ?_⟩ rfl rfl
      rintro rfl
      exact ⟨hi, rfl⟩
    rw [(interruptReturn_sameCpu h).1.recentCpu t, Pintos.charge, if_pos rfl]
    dsimp only
    rw [← htick]
    split
    case isTrue hT => exact (U.decay hT t ht hi).2.2.2.2
    case isFalse hT => exact (timerHandler_ticks hm A.nodup h₁).recentCpu t ht (.inl hT)
  · rw [step_recentCpu hl (A.lt t ht) h, Pintos.charge, if_neg hl]

/-! ### Runs -/

/-- Within a second, what a thread is charged with is the number of ticks. -/
theorem foldl_charge {tr : List (Kernel × Label)} (r : ℤ)
    (h : ∀ s ∈ tr, s.2 = .timer → (s.1.ticks + 1) % timerFreq ≠ 0) :
    tr.foldl (charge t) r = r + fpOne * tr.countP (fun s => s.2 = .timer ∧ s.1.cur = t) := by
  induction tr generalizing r with
  | nil => simp
  | cons s tr ih =>
      have hs := h s (by simp)
      rw [List.foldl_cons, ih _ fun s hs => h s (by simp [hs]), List.countP_cons, charge]
      by_cases hl : s.2 = .timer
      · rw [if_pos hl]
        dsimp only
        rw [if_neg (hs hl)]
        by_cases hc : s.1.cur = t
        · simp only [hl, hc, and_self, decide_true, if_true]
          push_cast
          ring
        · simp [hc]
      · simp [hl]

/-- **What a thread is charged for**: in every run in MLFQS mode with at most 545 ready threads, in
which no second ends while a thread is being created, the `recent_cpu` of a thread is computed from
the ticks of the run alone; within a second it has grown by one for each tick in which the thread
was running. -/
theorem recent_cpu_run {tr : List (Kernel × Label)} (hm : cfg.mlfqs = true) (hN : N ≤ 545)
    (hok : ∀ k lab, ok k lab → lab.CountsTo cfg N k ∧ lab.CreatesWhole k)
    (hr : Reachable cfg ok k) (hrun : Path cfg ok k tr k')
    (ht : ∀ s ∈ tr, t ∈ s.1.allList ∧ s.1.idleThread ≠ some t) :
    (k'.thr t).recentCpu = tr.foldl (charge t) (k.thr t).recentCpu ∧
      ((∀ s ∈ tr, s.2 = .timer → (s.1.ticks + 1) % timerFreq ≠ 0) →
        (k'.thr t).recentCpu = (k.thr t).recentCpu +
          fpOne * tr.countP (fun s => s.2 = .timer ∧ s.1.cur = t)) := by
  have key : (k'.thr t).recentCpu = tr.foldl (charge t) (k.thr t).recentCpu := by
    induction hrun with
    | nil => rfl
    | @snoc k₁ k₂ tr lab fuel hrun hlab hs ih =>
        have hr₁ : Reachable cfg ok k₁ := hrun.reachable hr
        obtain ⟨hall, hi⟩ := ht (k₁, lab) (by simp)
        have H := hr₁.cpuInv hm hN hok
        rw [H.charge hm hN hr₁ (hok _ _ hlab).1 hall hi hs, ih fun s hs => ht s (by simp [hs]),
          List.foldl_append]
        rfl
  exact ⟨key, fun h => by rw [key, foldl_charge _ h]⟩

/-- The steps of listed threads, and ticks that do not end a second. -/
def Label.WithinSecond (k : Kernel) : Label → Prop
  | .timer => (k.ticks + 1) % timerFreq ≠ 0
  | .run => k.cur ∈ k.allList
  | _ => False

instance (k : Kernel) : DecidablePred (Label.WithinSecond k)
  | .timer => inferInstanceAs (Decidable (_ ≠ _))
  | .run => inferInstanceAs (Decidable (_ ∈ _))
  | .call _ | .semaUp _ | .semaTryDown _ => inferInstanceAs (Decidable False)

/-- The initial thread is charged for four ticks, and for a fifth one after it has been taken from
the processor and picked again. -/
theorem recent_cpu_run_five : ∃ k tr k', Reachable mlfqsTidConfig Label.WithinSecond k ∧
    Path mlfqsTidConfig Label.WithinSecond k tr k' ∧
      tr.countP (fun s => s.2 = .timer ∧ s.1.cur = 0) = 5 ∧
      (k'.thr 0).recentCpu = (k.thr 0).recentCpu + fpOne * (5 : ℕ) := by
  have hok : ∀ k lab, Label.WithinSecond k lab →
      lab.CountsTo mlfqsTidConfig 1 k ∧ lab.CreatesWhole k := by
    intro k lab h
    cases lab with
    | timer => exact ⟨fun _ hT => absurd hT h, fun hT => absurd hT h⟩
    | run => exact ⟨by rintro ⟨⟩, fun _ _ _ _ => h⟩
    | _ => cases h
  let labs : List Label := [.timer, .timer, .timer, .timer, .run, .timer]
  obtain ⟨k, hr, hk⟩ := exists_reachable mlfqsTidConfig 70 Label.WithinSecond
    (List.replicate 125 .run)
    (fun k => (execute mlfqsTidConfig 70 Label.WithinSecond k labs).isSome &&
      ((trace mlfqsTidConfig 70 k labs).all (fun s => 0 ∈ s.1.allList && s.1.idleThread ≠ some 0 &&
        (s.1.ticks + 1) % timerFreq ≠ 0) &&
          (trace mlfqsTidConfig 70 k labs).countP (fun s => s.2 = .timer ∧ s.1.cur = 0) = 5))
    (by decide +kernel)
  simp only [Bool.and_eq_true, decide_eq_true_eq, List.all_eq_true] at hk
  obtain ⟨hx, hall, hcount⟩ := hk
  obtain ⟨k', hx⟩ := Option.isSome_iff_exists.mp hx
  have hrun := execute_path hx
  obtain ⟨-, hsecond⟩ := recent_cpu_run rfl (by norm_num) hok hr hrun fun s hs => (hall s hs).1
  have hsum := hsecond fun s hs _ => (hall s hs).2
  rw [hcount] at hsum
  exact ⟨k, _, k', hr, hrun, hcount, hsum⟩

end Pintos
