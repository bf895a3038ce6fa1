/-
PintosThreads/PriorityMode.lean

The priority scheduler and the queues of the MLFQS.

Where the two schedulers differ the code asks `thread_mlfqs`, and what belongs
to the MLFQS is behind such a test everywhere but in `thread_set_nice`.  As
long as nobody calls that function, a step of the priority scheduler does the
same whatever the memory of `mlfqs_list` is, leaves this memory as it is, and
takes no priority from the formula (`priority_mode_spares_queues`).  The memory
is not initialised in this mode, and `thread_set_nice` reads it
(`priority_mode_reads_queues`).
-/
import PintosThreads.SparedLists
import PintosThreads.Writes
import PintosThreads.Runs

namespace Pintos

open Intrusive

variable {cfg : Config} {fuel : ℕ} {ok : Kernel → Label → Prop} {k k' : Kernel} {lab : Label}

/-- The queues of the MLFQS, and what lies next to them. -/
def ListPtr.ofMlfqs : ListPtr → Bool
  | .mlfqsList _ => true
  | _ => false

theorem spares_ofMlfqs : Spares ListPtr.ofMlfqs :=
  ⟨rfl, fun _ => rfl⟩

/-- The frames that write a priority in the priority scheduler. -/
inductive Frame.TouchesPriority : Frame → Prop
  | threadSetPriority {p} : TouchesPriority (threadSetPriority p)
  | lockAcquireBody {l} : TouchesPriority (lockAcquireBody l)
  | lockReleaseRefresh {old} : TouchesPriority (lockReleaseRefresh old)

/-- Step `lab` in state `k` neither reads nor writes `mlfqs_list`, and takes no priority from the
formula of the MLFQS: a priority is changed by `thread_set_priority`, by a donation and by
`refresh_priority` only, and a new thread has the one it is created with. -/
structure SparesMlfqs (cfg : Config) (fuel : ℕ) (k : Kernel) (lab : Label) : Prop where
  reads : ∀ m, step cfg fuel (k.over ListPtr.ofMlfqs m) lab =
    (step cfg fuel k lab).map (·.over ListPtr.ofMlfqs m)
  writes : ∀ k', step cfg fuel k lab = some k' → ∀ n : Node ListPtr ThreadPtr,
    n.isOf ListPtr.ofMlfqs = true → k'.elems.next n = k.elems.next n ∧
      k'.elems.prev n = k.elems.prev n
  priority : ∀ k', step cfg fuel k lab = some k' → ∀ t < k.nextThread,
    (k'.thr t).priority = (k.thr t).priority ∨
      ∃ f fs, lab = .run ∧ k.stack k.cur = f :: fs ∧ f.TouchesPriority
  created : ∀ k', step cfg fuel k lab = some k' → ∀ p e n r fs, lab = .run →
    k.stack k.cur = .threadCreateLink p e n r :: fs → (k'.thr k.nextThread).priority = p

/-- `thread_set_nice` is not called. -/
def Label.KeepsNice (lab : Label) : Prop :=
  ∀ n, lab ≠ .call (.threadSetNice n)

/-! ### The memory of the queues -/

theorem not_beyond_of_ofMlfqs {l : ListPtr} (hl : l.ofMlfqs = false) : ¬ l.Beyond := by
  cases l with
  | mlfqsList i => cases hl
  | _ => exact nofun

/-- At the start no pointer leads to a list from the outside, but for the memory next to
`mlfqs_list`. -/
theorem bootApart (cfg : Config) {D : ListPtr → Bool} (hb : ∀ l, D l = false → ¬ l.Beyond) :
    Apart D (boot cfg) where
  links := by
    constructor <;> intro n n' hn h
    · cases n with
      | head l =>
          simp only [boot, bootElems, if_neg (hb l hn)] at h
          split at h <;> cases h
          exact hn
      | tail l =>
          simp only [boot, bootElems, if_neg (hb l hn)] at h
          cases h
      | item t => cases h
    · cases n with
      | tail l =>
          simp only [boot, bootElems, if_neg (hb l hn)] at h
          split at h <;> cases h
          exact hn
      | head l =>
          simp only [boot, bootElems, if_neg (hb l hn)] at h
          cases h
      | item t => cases h
  frames u f hf := by
    obtain rfl | hu := eq_or_ne u 0
    · simp only [boot, Function.update_self, List.mem_cons, List.not_mem_nil, or_false] at hf
      obtain rfl | rfl := hf <;> rintro ⟨⟩
    · simp only [boot, Function.update_of_ne hu, List.not_mem_nil] at hf

theorem Apart.step (hm : cfg.mlfqs = false) (A : Apart ListPtr.ofMlfqs k) (hn : lab.KeepsNice)
    (m : Links ListPtr ThreadPtr) : Mirrored ListPtr.ofMlfqs m (step cfg fuel k lab)
      (Pintos.step cfg fuel (k.over ListPtr.ofMlfqs m) lab) :=
  step_over hm A spares_ofMlfqs hn (.inl fun _ => rfl)

theorem Reachable.apart (hm : cfg.mlfqs = false) (hok : ∀ k lab, ok k lab → lab.KeepsNice)
    (h : Reachable cfg ok k) : Apart ListPtr.ofMlfqs k := by
  induction h with
  | refl => exact bootApart cfg fun _ => not_beyond_of_ofMlfqs
  | @tail k k' _ hstep ih =>
      obtain ⟨lab, fuel, hlab, h⟩ := hstep
      exact (ih.step hm (hok _ _ hlab) k.elems).2 k' h

/-- A step leaves the memory of the queues as it is. -/
theorem step_keeps {D : ListPtr → Bool} (h : Mirrored D k.elems (step cfg fuel k lab)
      (step cfg fuel (k.over D k.elems) lab)) (hk : step cfg fuel k lab = some k')
    {n : Node ListPtr ThreadPtr} (hn : n.isOf D = true) :
    k'.elems.next n = k.elems.next n ∧ k'.elems.prev n = k.elems.prev n := by
  have hself : k.over D k.elems = k := by
    simp only [Kernel.over, overlay_self]
  have he := h.1
  rw [hself, hk] at he
  have hk' : k' = k'.over D k.elems := Option.some.inj he
  rw [hk', Kernel.over_elems, Links.overlay]
  simp only [hn, if_true, and_self]

/-! ### The priorities -/

/-- No other frame and no interrupt writes a priority. -/
theorem Write.keepsPriority {o : Option Frame} (hm : cfg.mlfqs = false)
    (ho : ∀ f, o = some f → ¬ f.TouchesPriority ∧ ¬ f.OfNice) (h : Write cfg o k k') :
    k.nextThread ≤ k'.nextThread ∧
      ∀ t < k.nextThread, (k'.thr t).priority = (k.thr t).priority := by
  cases h with
  | silent h => exact ⟨h.nextThread.ge, fun t _ => h.priority t⟩
  | links | insert | idle | unlist | dispatch | clock => exact ⟨le_rfl, fun _ _ => rfl⟩
  | priority h =>
      cases h with
      | set => exact absurd .threadSetPriority (ho _ rfl).1
      | donated => exact absurd .lockAcquireBody (ho _ rfl).1
      | base => exact absurd .lockReleaseRefresh (ho _ rfl).1
      | waiter => exact absurd .lockReleaseRefresh (ho _ rfl).1
  | compute h => exact absurd h (by rw [hm]; nofun)
  | setNice h => exact absurd trivial (ho _ h).2
  | @recentCpu u | @wake u =>
      refine ⟨le_rfl, fun t _ => ?_⟩
      obtain rfl | ht := eq_or_ne t u <;> simp [*]
  | nice | waiting | sleep =>
      refine ⟨le_rfl, fun t _ => ?_⟩
      obtain rfl | ht := eq_or_ne t k.cur <;> simp [insertSleeper, *]
  | link =>
      refine ⟨Nat.le_succ _, fun t ht => ?_⟩
      simp only [linkThread, Function.update_of_ne ht.ne]

theorem Writes.keepsPriority {o : Option Frame} (hm : cfg.mlfqs = false)
    (ho : ∀ f, o = some f → ¬ f.TouchesPriority ∧ ¬ f.OfNice) (h : Writes cfg o k k') :
    ∀ t < k.nextThread, (k'.thr t).priority = (k.thr t).priority := by
  have key : k.nextThread ≤ k'.nextThread ∧
      ∀ t < k.nextThread, (k'.thr t).priority = (k.thr t).priority :=
    h.induct (P := fun k₁ => k.nextThread ≤ k₁.nextThread ∧
      ∀ t < k.nextThread, (k₁.thr t).priority = (k.thr t).priority)
      (fun k₁ k₂ ⟨hn, hp⟩ hw => by
        obtain ⟨hn', hp'⟩ := hw.keepsPriority hm ho
        exact ⟨hn.trans hn', fun t ht => (hp' t (ht.trans_le hn)).trans (hp t ht)⟩)
      ⟨le_rfl, fun _ _ => rfl⟩
  exact key.2

/-- **Priority mode spares the queues of the MLFQS**: in a run in which `thread_set_nice` is not
called no step reads or writes them, and none computes a priority by the formula. -/
theorem priority_mode_spares_queues (hm : cfg.mlfqs = false)
    (hok : ∀ k lab, ok k lab → lab.KeepsNice) (h : Reachable cfg ok k) (hlab : ok k lab) :
    SparesMlfqs cfg fuel k lab := by
  have A := h.apart hm hok
  have hn := hok k lab hlab
  refine ⟨fun m => (A.step hm hn m).1, fun k' hk n hn' =>
    step_keeps (A.step hm hn k.elems) hk hn',
    fun k' hk t ht => ?_, fun k' hk p e n r fs hrun hst => ?_⟩
  · by_cases hf : ∃ f fs, lab = .run ∧ k.stack k.cur = f :: fs ∧ f.TouchesPriority
    · exact .inr hf
    · refine .inl ((step_writes hk).keepsPriority hm (fun f hf' => ?_) t ht)
      cases lab with
      | run =>
          obtain ⟨fs, e⟩ : ∃ fs, k.stack k.cur = f :: fs := List.head?_eq_some_iff.mp hf'
          exact ⟨fun hs => hf ⟨f, fs, rfl, e, hs⟩, A.frames k.cur f (e ▸ .head _)⟩
      | _ => cases hf'
  · subst hrun
    rw [step, hst] at hk
    simp only [exec] at hk
    split at hk <;> cases hk <;> simp [linkThread, initThread, hm, popFrame]

/-- `Label.KeepsNice`, computed. -/
def Label.keepsNice : Label → Bool
  | .call (.threadSetNice _) => false
  | _ => true

/-- Thread 2 has waited on a semaphore and been woken, five ticks have come, and now it is about to
wait for a lock that the initial thread holds. -/
theorem priority_mode_spares_queues_run : ∃ k,
    Reachable tidConfig (fun _ lab => lab.keepsNice) k ∧ k.ticks = 5 ∧
      k.stack k.cur = [.lockAcquireBody (.user 0)] ∧ k.lockHolder (.user 0) = some 0 ∧
      SparesMlfqs tidConfig 70 k .run ∧ SparesMlfqs tidConfig 70 k .timer := by
  obtain ⟨k, hr, hk⟩ := exists_reachable tidConfig 70 (fun _ lab => lab.keepsNice)
    (List.replicate 31 Label.run ++ [Label.call (.lockAcquire 0), .run, .run, .run, .run,
        .call (.threadCreate 40)] ++ List.replicate 22 Label.run ++
      [Label.call (.semaDown 0), .run, .run, .timer, .timer, .timer, .timer, .run,
        .call (.semaUp 0)] ++ List.replicate 7 Label.run ++
      [Label.timer, .call (.lockAcquire 0), .run])
    (fun k => k.ticks = 5 ∧ k.stack k.cur = [.lockAcquireBody (.user 0)] ∧
      k.lockHolder (.user 0) = some 0) (by decide +kernel)
  obtain ⟨ht, hs, hl⟩ := of_decide_eq_true hk
  have hok : ∀ (k : Kernel) (lab : Label), lab.keepsNice = true → lab.KeepsNice := by
    rintro _ _ h n rfl
    cases h
  exact ⟨k, hr, ht, hs, hl, priority_mode_spares_queues rfl hok hr rfl,
    priority_mode_spares_queues rfl hok hr rfl⟩

/-- Two memories of the queues in which `mlfqs_check_preemption` goes two ways: zeroed list heads
are not empty. -/
theorem priority_mode_reads_queues : ¬ ∀ (k : Kernel) (lab : Label) (fuel : ℕ),
    Reachable priorityConfig (fun _ _ => True) k → SparesMlfqs priorityConfig fuel k lab := by
  intro h
  obtain ⟨k, hr, hk⟩ := exists_reachable priorityConfig 70 (fun _ _ => True)
    (List.replicate 19 .run ++ [.call (.threadSetNice 0), .run, .run, .run])
    (fun k => k.stack k.cur = [.mlfqsCheckPreemption 64] ∧
      k.elems.listEmpty (.mlfqsList 63) = false) (by decide +kernel)
  obtain ⟨hst, hne⟩ := of_decide_eq_true hk
  have hread := (h k .run 0 hr).reads (bootElems mlfqsConfig)
  obtain ⟨k₂, hk₂⟩ : ∃ k₂, k₂ = k.over ListPtr.ofMlfqs (bootElems mlfqsConfig) := ⟨_, rfl⟩
  have hst₂ : k₂.stack k₂.cur = [.mlfqsCheckPreemption 64] := by
    rw [hk₂]
    exact hst
  have hempty : k₂.elems.listEmpty (.mlfqsList 63) = true := by
    rw [hk₂]
    rfl
  have h₁ : step priorityConfig 0 k .run =
      some ((popFrame k []).push (.mlfqsCheckPreemptionCompare 63)) := by
    simp [step, exec, hst, popFrame, hne]
  have h₂ : step priorityConfig 0 k₂ .run =
      some ((popFrame k₂ []).push (.mlfqsCheckPreemption 63)) := by
    simp [step, exec, hst₂, popFrame, hempty]
  rw [← hk₂, h₂, h₁] at hread
  have hstack := congrArg (fun k : Kernel => k.stack k.cur) (Option.some.inj hread)
  simp [popFrame] at hstack

end Pintos
