/-
PintosThreads/Preemption.lean

Who has the processor.

In the priority scheduler every operation that may leave a thread of higher
priority in `ready_list` ends in `check_preemption`: `sema_up` and
`thread_create`, which unblock a thread, and `thread_set_priority`, which lowers
the running one.  Until the check has been made the processor may be with the
wrong thread.  So a state is `Settled`, or the running thread is at a frame of
the check (`Pending`); a step goes from one to the other
(`Settled.step`, `Pending.step`), and a switch always settles the state, since
the front of a sorted list is foremost.

Operations on locks write priorities without a check, and so do not belong
here; nor does the wake-up of sleepers by the timer.
-/
import PintosThreads.DispatchOrder

namespace Pintos

open Intrusive

/-! ### The operations -/

/-- The calls of thread creation, yielding, priorities and semaphores. -/
def Call.Simple : Call → Prop
  | semaDown _ | semaTryDown _ | semaUp _ => True
  | threadCreate _ | threadExit | threadYield | threadSetPriority _ => True
  | _ => False

instance : DecidablePred Call.Simple
  | .semaDown _ | .semaTryDown _ | .semaUp _ => inferInstanceAs (Decidable True)
  | .threadCreate _ | .threadExit | .threadYield => inferInstanceAs (Decidable True)
  | .threadSetPriority _ => inferInstanceAs (Decidable True)
  | .intrSetLevel _ | .lockAcquire _ | .lockTryAcquire _ => inferInstanceAs (Decidable False)
  | .lockRelease _ | .condWait _ _ | .condSignal _ _ => inferInstanceAs (Decidable False)
  | .condBroadcast _ _ | .threadBlock | .threadUnblock _ => inferInstanceAs (Decidable False)
  | .threadSetNice _ | .timerSleep _ => inferInstanceAs (Decidable False)

/-- Such calls, in thread context, and the timer. -/
def Label.Simple : Label → Prop
  | .call c => c.Simple
  | .run | .timer => True
  | .semaUp _ | .semaTryDown _ => False

instance : DecidablePred Label.Simple
  | .call c => inferInstanceAs (Decidable c.Simple)
  | .run | .timer => inferInstanceAs (Decidable True)
  | .semaUp _ | .semaTryDown _ => inferInstanceAs (Decidable False)

/-- No frame of a direct `thread_block` or `thread_unblock`, of `thread_set_nice` or of
`timer_sleep`. -/
def Frame.Simple : Frame → Prop
  | threadBlock | threadBlockReturn | threadUnblock _ => False
  | threadSetNice _ | threadSetNiceUpdate | threadSetNiceWrite _ => False
  | timerSleep _ | timerSleepBody _ _ | timerSleepReturn _ => False
  | _ => True

variable {cfg : Config} {fuel : ℕ} {srt : Prop} {ok : Kernel → Label → Prop}
variable {okCall : Call → Prop} {k k₁ k' : Kernel} {lab : Label} {t u : ThreadPtr}
variable {s s' : Sync} {f : Frame} {fs gs : List Frame}

theorem Call.Simple.frame {c : Call} (h : c.Simple) : c.frame.Simple ∧ c.frame.Lockless := by
  cases c with
  | semaDown | semaTryDown | semaUp | threadCreate | threadExit | threadYield
  | threadSetPriority => exact ⟨trivial, trivial⟩
  | _ => exact h.elim

theorem Frame.Preempts.simple (h : f.Preempts) : f.Simple := by
  cases h <;> trivial

theorem Local.simple (h : Local f gs) (hf : f.Simple) : ∀ g ∈ gs, g.Simple := by
  cases h with
  | preempt _ hp | threadCreateUnblock hp =>
      intro g hg
      obtain rfl := List.mem_singleton.mp hg
      exact hp.simple
  | threadBlock | threadSetNice | threadSetNiceIdle | threadSetNiceUpdate | threadSetNiceWrite
  | timerSleep | timerSleepBody => exact hf.elim
  | _ => simp [Frame.Simple]

theorem Move.simple (h : Move t s f gs s') (hf : f.Simple) : ∀ g ∈ gs, g.Simple := by
  cases h with
  | quiet h => exact h.simple hf
  | up hp =>
      intro g hg
      obtain rfl := List.mem_singleton.mp hg
      exact hp.simple
  | _ => simp [Frame.Simple]

theorem Entry.simple (e : Entry) : ∀ f ∈ e.stack, f.Simple := by
  cases e <;> simp [Entry.stack, Frame.Simple]

theorem Sync.Step.simple (I : s.Inv) (h : Sync.Step okCall t s s')
    (hc : ∀ c, okCall c → c.frame.Simple) (hf : ∀ u, ∀ f ∈ s.stack u, f.Simple) :
    ∀ u, ∀ f ∈ s'.stack u, f.Simple := by
  refine h.frames I.unborn (Q := fun _ f => f.Simple) hf (fun _ _ _ _ h => h)
    (fun c hok _ _ => hc c hok) ?_ (fun _ e _ _ _ => e.simple) trivial (fun _ => trivial)
  exact fun f fs gs s₁ _ hm _ hf g hg => hm.simple hf g hg

theorem boot_simple (cfg : Config) : ∀ u, ∀ f ∈ (boot cfg).stack u, f.Simple := by
  intro u f hf
  rcases boot_stack hf with rfl | rfl <;> trivial

/-- **The frames of a run** of these operations. -/
theorem Reachable.simple (ha : cfg.atomicTid = true) (hok : ∀ k lab, ok k lab → lab.Simple)
    (h : Reachable cfg ok k) : ∀ u, ∀ f ∈ k.stack u, f.Simple ∧ f.Lockless := by
  have hl := h.lockless ha fun k c hc => (Call.Simple.frame (hok k _ hc)).2
  suffices hp : ∀ u, ∀ f ∈ k.stack u, f.Simple from fun u f hf => ⟨hp u f hf, hl u f hf⟩
  clear hl
  induction h with
  | refl => exact boot_simple cfg
  | tail hr hn ih =>
      obtain ⟨lab, fuel, hlab, h⟩ := hn
      have hc : ∀ c, lab = .call c → c.Simple := by
        rintro c rfl
        exact hok _ _ hlab
      obtain ⟨hs, -⟩ := step_sync (Reachable.anySync hr).2 hc h
      exact hs.simple (Reachable.control hr).inv (fun c hc => (Call.Simple.frame hc).1) ih

/-- Their steps are tame, and so `ready_list` stays sorted. -/
theorem Reachable.simple_tame (hm : cfg.mlfqs = false) (ha : cfg.atomicTid = true)
    (hok : ∀ k lab, ok k lab → lab.Simple) (hr : Reachable cfg ok k) : Tame cfg srt k lab := by
  cases lab with
  | run =>
      intro f fs e
      have hf : f.Simple ∧ f.Lockless := hr.simple ha hok k.cur f (e ▸ .head _)
      cases f with
      | threadUnblock => exact hf.1.elim
      | lockAcquireBody => exact hf.2.elim
      | threadSetPriority =>
          intro hm'
          rw [hm] at hm'
          cases hm'
      | _ => trivial
  | _ => trivial

/-! ### Settled states -/

/-- No ready thread has a higher priority than `t`. -/
def Leads (k : Kernel) (t : ThreadPtr) : Prop :=
  ∀ u, (k.thr u).status = .ready → k.idleThread ≠ some u → (k.thr u).priority ≤ (k.thr t).priority

/-- The running thread has the highest priority. -/
def Settled (k : Kernel) : Prop :=
  Leads k k.cur

/-- The running thread is about to check whether it has to yield, or to yield.  At the comparison
it has found the front of `ready_list`. -/
inductive Pending (k : Kernel) : List Frame → Prop
  | check {fs : List Frame} : Pending k (.checkPreemption :: fs)
  | front {fs : List Frame} : Pending k (.checkPreemptionFront :: fs)
  | read {fs : List Frame} : Pending k (.checkPreemptionRead :: fs)
  | compare {t : ThreadPtr} {fs : List Frame} : Leads k t →
      Pending k (.checkPreemptionCompare (.item t) :: fs)
  | yield {fs : List Frame} : Pending k (.threadYield :: fs)

/-- **The invariant.** -/
def Rightful (k : Kernel) : Prop :=
  Settled k ∨ Pending k (k.stack k.cur)

/-- Nobody has become ready, and the priorities of the ready threads are the same. -/
structure KeepsReady (k k' : Kernel) : Prop where
  ready : ∀ u, (k'.thr u).status = .ready →
    (k.thr u).status = .ready ∧ (k'.thr u).priority = (k.thr u).priority
  idleThread : k'.idleThread = k.idleThread

theorem Leads.congr (h : Leads k t) (e : KeepsReady k k')
    (ht : (k'.thr t).priority = (k.thr t).priority) : Leads k' t := by
  intro u hu hi
  obtain ⟨hr, hp⟩ := e.ready u hu
  rw [hp, ht]
  exact h u hr (e.idleThread ▸ hi)

theorem Settled.congr (h : Settled k) (e : KeepsReady k k') (hc : k'.cur = k.cur)
    (hp : (k'.thr k.cur).priority = (k.thr k.cur).priority) : Settled k' := by
  have hl : Leads k' k.cur := Leads.congr h e hp
  rwa [← hc] at hl

theorem Pending.congr (h : Pending k fs) (e : KeepsReady k k')
    (hp : ∀ u, (k'.thr u).priority = (k.thr u).priority) : Pending k' fs := by
  cases h with
  | check => exact .check
  | front => exact .front
  | read => exact .read
  | compare ht => exact .compare (ht.congr e (hp _))
  | yield => exact .yield

theorem Foremost.settled (h : Foremost True k) : Settled k := by
  rcases h with ⟨-, ht⟩ | ⟨-, hnone⟩
  · exact ht trivial
  · exact fun u hu hi => absurd (hnone u hu) hi

/-- A switch settles the state. -/
theorem Switches.settled {st : ThreadStatus} (h : Switches True k k' st) : Settled k' :=
  h.justDispatched.2.settled

/-! ### The front of the list -/

/-- The ready list of the priority scheduler: its front is foremost, and if it is empty everybody
is. -/
theorem Scheduling.readyList (S : Scheduling cfg True k) (hm : cfg.mlfqs = false) :
    ∃ xs, IsList k.elems .readyList xs ∧
      (∀ u, u ∈ xs ↔ (k.thr u).status = .ready ∧ k.idleThread ≠ some u) ∧
      (xs = [] → ∀ t, Leads k t) ∧ ∀ x ys, xs = x :: ys → Leads k x := by
  obtain ⟨⟨q, home, L, P⟩, -⟩ := S
  obtain ⟨xs, hq⟩ := L.ready _ (.readyList hm)
  have hx : IsList k.elems .readyList xs := L.repr.isList hq
  have hmem : ∀ u, u ∈ xs ↔ (k.thr u).status = .ready ∧ k.idleThread ≠ some u := by
    intro u
    rw [← hx.inList, L.inList hq]
    constructor
    · intro hu
      obtain ⟨hs, hi, -⟩ := P.ready_of_home hu (by rintro _ ⟨⟩)
      exact ⟨hs, hi⟩
    · rintro ⟨hs, hi⟩
      obtain ⟨l, hl, hh⟩ := P.home_of_ready hs hi
      cases hl with
      | readyList => exact hh
      | mlfqsList hm' =>
          rw [hm] at hm'
          cases hm'
  refine ⟨xs, hx, hmem, ?_, ?_⟩
  · rintro rfl t u hu hi
    exact absurd ((hmem u).mpr ⟨hu, hi⟩) List.not_mem_nil
  · rintro x ys rfl u hu hi
    obtain rfl | hy := List.mem_cons.mp ((hmem u).mpr ⟨hu, hi⟩)
    · exact le_rfl
    · exact List.rel_of_pairwise_cons (L.sorted trivial hm _ hq) hy

/-! ### One step -/

theorem Rightful.push {g : Frame} (h : Pending (k.push g) (g :: k.stack k.cur)) :
    Rightful (k.push g) := by
  refine .inr ?_
  rw [Kernel.push_stack, Kernel.push_cur, Function.update_self]
  exact h

/-- **A step of the check** goes on to the next point, or finds the state settled. -/
theorem Pending.step (S : Scheduling cfg True k) (hm : cfg.mlfqs = false)
    (H : Pending k (f :: fs)) (hy : f ≠ .threadYield)
    (h : exec cfg fuel (popFrame k fs) f = some k') : Rightful k' := by
  obtain ⟨xs, hx, -, hnil, hcons⟩ := S.readyList hm
  cases H with
  | check =>
      cases h
      split
      case isTrue he => exact .inl (hnil (hx.listEmpty.mp he) k.cur)
      case isFalse => exact .push .front
  | front =>
      simp only [exec] at h
      split at h <;> cases h
      exact .push .read
  | read =>
      obtain ⟨n, hn, rfl⟩ := Option.map_eq_some_iff.mp h
      cases xs with
      | nil => exact .inl (hnil rfl k.cur)
      | cons x ys =>
          rw [show (popFrame k fs).elems = k.elems from rfl, hx.seg.next_eq] at hn
          cases hn
          exact .push (.compare (hcons x ys rfl))
  | @compare t _ ht =>
      cases h
      split
      case isTrue => exact .push .yield
      case isFalse hlt =>
        refine .inl fun u hu hi => ?_
        exact (ht u hu hi).trans (not_lt.mp hlt)
  | yield => exact absurd rfl hy

/-- The operations that have to be followed by a check are. -/
theorem exec_checked (hm : cfg.mlfqs = false) (h : exec cfg fuel k f = some k')
    (hf : (∃ p, f = .semaUp p) ∨ (∃ t, f = .threadCreateUnblock t) ∨
      ∃ p, f = .threadSetPriority p) :
    Rightful k' := by
  have hc : preemptionCheck cfg = .checkPreemption := by
    rw [preemptionCheck, if_neg (by rw [hm]; exact Bool.false_ne_true)]
  obtain ⟨p, rfl⟩ | ⟨t, rfl⟩ | ⟨p, rfl⟩ := hf
  · obtain ⟨k₁, -, rfl⟩ := Option.map_eq_some_iff.mp h
    rw [hc]
    exact .push .check
  · obtain ⟨k₁, -, rfl⟩ := Option.map_eq_some_iff.mp h
    rw [hc]
    exact .push .check
  · cases h
    exact .push .check

theorem Same.keepsReady (h : Same cfg k k' gs) : KeepsReady k k' where
  ready u hu := ⟨h.status u ▸ hu, h.priority u⟩
  idleThread := h.idleThread

/-- A new thread is not ready. -/
theorem linkThread_keepsReady {p n r : ℤ} {e : Entry} :
    KeepsReady k (linkThread cfg k p e n r) where
  ready u hu := by
    obtain rfl | hne := eq_or_ne u k.nextThread
    · simp [linkThread, initThread] at hu
    · have he : (linkThread cfg k p e n r).thr u = k.thr u := by simp [linkThread, hne]
      rw [he] at hu ⊢
      exact ⟨hu, rfl⟩
  idleThread := rfl

theorem KeepsReady.trans (h₁ : KeepsReady k k₁) (h₂ : KeepsReady k₁ k') : KeepsReady k k' where
  ready u hu := by
    obtain ⟨hr, hp⟩ := h₂.ready u hu
    obtain ⟨hr', hp'⟩ := h₁.ready u hr
    exact ⟨hr', hp.trans hp'⟩
  idleThread := h₂.idleThread.trans h₁.idleThread

/-- **A frame** of these operations. -/
theorem Rightful.run (H : Rightful k) (S : Scheduling cfg True k) (hm : cfg.mlfqs = false)
    (hn : k.cur ≠ k.nextThread) (e : k.stack k.cur = f :: fs) (hf : f.Simple ∧ f.Lockless)
    (hi : f = .idle → k.idleThread = none) (he : Effect cfg True (popFrame k fs) f k')
    (h : exec cfg fuel (popFrame k fs) f = some k') : Rightful k' := by
  have hpop : KeepsReady k (popFrame k fs) := ⟨fun _ hu => ⟨hu, rfl⟩, rfl⟩
  by_cases hp : Pending k (f :: fs) ∧ f ≠ .threadYield
  · exact hp.1.step S hm hp.2 h
  have hset : Settled k ∨ f = .threadYield := by
    rcases H with hs | hpend
    · exact .inl hs
    · rw [e] at hpend
      exact .inr (not_not.mp fun hy => hp ⟨hpend, hy⟩)
  cases he with
  | same ha hs =>
      rcases hset with hset | rfl
      · exact .inl (hset.congr (hpop.trans hs.keepsReady) hs.cur (hs.priority k.cur))
      · exact absurd trivial ha
  | priority hp hs =>
      cases hp with
      | threadSetPriority => exact exec_checked hm h (.inr (.inr ⟨_, rfl⟩))
      | threadSetNiceWrite => exact hf.1.elim
      | lockReleaseRefresh => exact hf.2.elim
  | switch _ _ _ hsw => exact .inl hsw.settled
  | wake hu =>
      cases hu with
      | threadUnblock => exact hf.1.elim
      | threadCreateUnblock => exact exec_checked hm h (.inr (.inl ⟨_, rfl⟩))
  | up => exact exec_checked hm h (.inl ⟨_, rfl⟩)
  | contend => exact hf.2.elim
  | link hs =>
      rcases hset with hset | hy
      · refine .inl (hset.congr ((hpop.trans linkThread_keepsReady).trans hs.keepsReady) hs.cur ?_)
        rw [hs.priority]
        simp [linkThread, popFrame, hn]
      · cases hy
  | idle hs =>
      -- the idle thread has been at the front of the list, and `idle_thread` has not been set
      rcases hset with hset | hy
      · refine .inl fun u hu _ => ?_
        have hu : (k.thr u).status = .ready := (hs.status u).symm.trans hu
        have hp : ∀ v, (k'.thr v).priority = (k.thr v).priority := hs.priority
        have hc : k'.cur = k.cur := hs.cur
        have hnone : k.idleThread ≠ some u := by
          rw [hi rfl]
          rintro ⟨⟩
        rw [hp, hp, hc]
        exact hset u hu hnone
      · cases hy

/-- Nobody sleeps, so that the timer wakes nobody. -/
theorem Wakes.keepsReady {W : ThreadPtr → Prop} (h : Wakes cfg W k k') (hm : cfg.mlfqs = false)
    (hw : ∀ u, ¬ W u) : KeepsReady k k' where
  ready u hu := by
    rcases h.status u with e | ⟨hs, -⟩
    · exact ⟨e ▸ hu, h.priority hm u⟩
    · exact absurd hs (hw u)
  idleThread := congrArg Sync.idleThread h.sync.1

theorem endHalt_not_sleeps (hf : ∀ u, ∀ f ∈ k.stack u, f.Simple) (u : ThreadPtr) :
    ¬ Sleeps ((endHalt k).stack u) := by
  rintro ⟨old, gs, e⟩
  have hu : k.stack u ≠ .timerSleepReturn old :: gs := by
    intro e
    exact hf u (.timerSleepReturn old) (e ▸ .head _)
  unfold endHalt at e
  split at e
  · obtain rfl | hne := eq_or_ne u k.cur
    · simp at e
    · exact hu (by simpa [hne] using e)
  · exact hu e

/-- The running thread is at a check, and so it does not halt. -/
theorem Pending.endHalt (h : Pending k (k.stack k.cur)) : Pintos.endHalt k = k := by
  unfold Pintos.endHalt
  split
  case h_1 fs e =>
    rw [e] at h
    cases h
  case h_2 => rfl

/-- **One step.** -/
theorem Rightful.step (H : Rightful k) (G : Good cfg True k) (C : Control k) (C' : Control k')
    (hm : cfg.mlfqs = false) (hT : Tame cfg True k lab) (hn : k.cur < k.nextThread)
    (hl : lab.Simple) (hf : ∀ u, ∀ f ∈ k.stack u, f.Simple ∧ f.Lockless)
    (h : Pintos.step cfg fuel k lab = some k') : Rightful k' := by
  obtain ⟨he, -⟩ := G.stepEffect C hT C'.inv.idleFree h
  cases he with
  | call e =>
      rcases H with hs | hp
      · exact .inl hs
      · rw [e] at hp
        cases hp
  | @run f fs _ e he =>
      rw [step_run e] at h
      have hL := G.legal C e (hT f fs e)
      exact H.run G.sched hm hn.ne e (hf k.cur f (e ▸ .head _)) hL.idle he h
  | @timer k₁ _ hw hr =>
      have hk₀ : KeepsReady k (endHalt k) := by
        refine ⟨fun u hu => ?_, congrArg Sync.idleThread (endHalt_sync k).1⟩
        rw [endHalt_thr] at hu ⊢
        exact ⟨hu, rfl⟩
      have hk : KeepsReady k k₁ :=
        hk₀.trans (hw.keepsReady hm (endHalt_not_sleeps fun u f hu => (hf u f hu).1))
      have hp : ∀ u, (k₁.thr u).priority = (k.thr u).priority := by
        intro u
        rw [hw.priority hm, endHalt_thr]
      have hc : k₁.cur = k.cur := hw.sync.2.trans (endHalt_cur k)
      rcases hr with rfl | hsw
      · rcases H with hs | hpend
        · have hs₁ : Settled k₁ := hs.congr hk hc (hp k.cur)
          exact .inl hs₁
        · have hst : k₁.stack k₁.cur = k.stack k.cur := by
            rw [hc, show k₁.stack = (endHalt k).stack from congrArg Sync.stack hw.sync.1,
              hpend.endHalt]
          have hp₁ : Pending k₁ (k₁.stack k₁.cur) := hst ▸ hpend.congr hk hp
          exact .inr (hp₁.congr ⟨fun _ hu => ⟨hu, rfl⟩, rfl⟩ fun _ => rfl)
      · exact .inl hsw.settled
  | semaUp | semaTryDown => exact hl.elim

/-! ### Runs -/

/-- At the start nobody is ready. -/
theorem boot_settled (cfg : Config) : Settled (boot cfg) := by
  refine fun u hu _ => ?_
  obtain rfl | hne := eq_or_ne u 0 <;> simp [boot, Thread.blank, *] at hu

theorem Reachable.rightful (hm : cfg.mlfqs = false) (ha : cfg.atomicTid = true)
    (hok : ∀ k lab, ok k lab → lab.Simple) (h : Reachable cfg ok k) : Rightful k := by
  have hT : ∀ k lab, Reachable cfg ok k → ok k lab → Tame cfg True k lab :=
    fun k lab hr _ => hr.simple_tame hm ha hok
  induction h with
  | refl => exact .inl (boot_settled cfg)
  | tail hr hn ih =>
      obtain ⟨lab, fuel, hlab, h⟩ := hn
      have hr' : Reachable cfg ok _ := .tail hr ⟨lab, fuel, hlab, h⟩
      exact ih.step (Reachable.good hT hr) (Reachable.control hr) hr'.control hm (hT _ _ hr hlab)
        (Reachable.anySync hr).2 (hok _ _ hlab) (Reachable.simple ha hok hr) h

/-- **The processor belongs to a thread of highest priority** whenever a thread runs its own code,
or the idle thread halts, in every run of these operations. -/
theorem cpu_highest (hm : cfg.mlfqs = false) (ha : cfg.atomicTid = true)
    (hok : ∀ k lab, ok k lab → lab.Simple) (hr : Reachable cfg ok k)
    (hs : k.stack k.cur = [] ∨ ∃ fs, k.stack k.cur = .idleHalt :: fs) :
    ∀ u, k.elems.InList .readyList u → (k.thr u).priority ≤ (k.thr k.cur).priority := by
  have G : Good cfg True k := hr.good fun k lab hr _ => hr.simple_tame hm ha hok
  obtain ⟨xs, hx, hmem, -⟩ := G.sched.readyList hm
  intro u hu
  obtain ⟨hu, hi⟩ := (hmem u).mp (hx.inList.mp hu)
  rcases hr.rightful hm ha hok with hl | hp
  · exact hl u hu hi
  · rcases hs with hs | ⟨fs, hs⟩ <;>
      · rw [hs] at hp
        cases hp

/-- The initial thread has created threads 2 and 3, of priorities 20 and 40: thread 3 runs. -/
theorem cpu_highest_created : ∃ k, Reachable priorityConfig (fun _ lab => lab.Simple) k ∧
    k.cur = 3 ∧ k.elems.InList .readyList 0 ∧
      ∀ u, k.elems.InList .readyList u → (k.thr u).priority ≤ (k.thr 3).priority := by
  obtain ⟨k, hr, hk⟩ := exists_reachable priorityConfig 70 (fun _ lab => lab.Simple)
    (List.replicate 19 Label.run ++ [Label.call (.threadCreate 20)] ++
      List.replicate 8 Label.run ++ [Label.call (.threadCreate 40)] ++ List.replicate 10 Label.run)
    (fun k => k.stack k.cur = [] && (k.cur = 3 &&
      k.elems.next (.head .readyList) = some (.item 0))) (by decide +kernel)
  simp only [Bool.and_eq_true, decide_eq_true_eq] at hk
  obtain ⟨hs, hc, hn⟩ := hk
  have h := cpu_highest rfl rfl (fun _ _ h => h) hr (.inl hs)
  rw [hc] at h
  exact ⟨k, hr, hc, .single hn, h⟩

end Pintos
