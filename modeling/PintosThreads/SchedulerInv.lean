/-
PintosThreads/SchedulerInv.lean

The scheduler's invariant over whole runs.

The lists of the kernel stay lists in the runs whose steps are `Tame`: a thread
is unblocked directly only while it is in a direct `thread_block`, a contended
`lock_acquire` finds nobody in `lock->waiters`, and in the MLFQS no priority is
set out of range.  `Good` is the invariant of these runs: to the lists it adds
what the stacks say of the waiting threads and of those being created.

A lock that a thread waits for is not released any more (`LockQueues`), so that
its holder is the same from then on.
-/
import PintosThreads.StepEffects
import PintosThreads.PriorityRange
import PintosThreads.CondWakeups

namespace Pintos

open Intrusive

variable {cfg : Config} {fuel : ℕ} {srt : Prop} {k k' : Kernel} {lab : Label}
variable {okCall : Call → Prop} {s s' : Sync} {t u : ThreadPtr} {l : LockPtr}

/-! ### What the stacks say -/

/-- Above the frame of a contended `lock_acquire` there is its `sema_down`. -/
theorem Stacked.of_held_mem {f : Frame} {fs : List Frame} (h : Stacked (f :: fs))
    (hm : .lockAcquireHeld l ∈ fs) :
    f.Downs (.ofLock l) ∨ f = .threadYield ∨ ∃ old, f = .intrSetLevel old :=
  h.of_share_mem hm (by simp [Frame.share])

theorem Interrupted.held_mem {fs fs' : List Frame} (h : Interrupted fs fs') :
    .lockAcquireHeld l ∈ fs' ↔ .lockAcquireHeld l ∈ fs := by
  cases h <;> simp

theorem Local.held_not_mem {f : Frame} {gs : List Frame} (h : Local f gs) :
    .lockAcquireHeld l ∉ gs := by
  cases h with
  | preempt _ hp | threadCreateUnblock hp =>
      intro hg
      obtain rfl := List.mem_singleton.mp hg
      cases hp
  | _ => simp

theorem Move.held_mem {f : Frame} {gs : List Frame} (h : Move t s f gs s') :
    .lockAcquireHeld l ∈ gs ↔ f = .lockAcquireBody l ∧ s.holder l ≠ none := by
  cases h with
  | quiet h =>
      refine iff_of_false h.held_not_mem ?_
      rintro ⟨rfl, -⟩
      cases h with | preempt hc | preemptEnd hc => cases hc.1
  | down hd | wait hd =>
      cases hd <;> simp
  | up hp =>
      refine iff_of_false (fun hg => ?_) nofun
      obtain rfl := List.mem_singleton.mp hg
      cases hp
  | lockAcquireFree hh =>
      refine iff_of_false (by simp) ?_
      rintro ⟨⟨⟩, hn⟩
      exact hn hh
  | @lockAcquireHeld m h hh =>
      by_cases hm : m = l
      · subst hm
        simp [hh]
      · simp [hm, Ne.symm hm]
  | take hf => cases hf <;> simp
  | _ => simp

/-- A `lock_acquire` gets to wait by finding a holder, and has waited when its last frame
is executed. -/
theorem Sync.Inv.held_run {f : Frame} {fs gs : List Frame} {s₁ : Sync} (I : s.Inv)
    (e : s.stack t = f :: fs) (hm : Move t (s.setStack t fs) f gs s₁) (l : LockPtr)
    (u : ThreadPtr) : .lockAcquireHeld l ∈ (s₁.setStack t (gs ++ s₁.stack t)).stack u ↔
      (.lockAcquireHeld l ∈ s.stack u ∧ ¬ (u = t ∧ f = .lockAcquireHeld l)) ∨
        (u = t ∧ f = .lockAcquireBody l ∧ s.holder l ≠ none) := by
  obtain ⟨ht, ho⟩ := hm.stack_run I.unborn e
  have hs : Stacked (f :: fs) := e ▸ I.stacked t
  obtain rfl | hu := eq_or_ne u t
  · have hg := hm.held_mem (l := l)
    simp only [Sync.setStack_stack, Function.update_self, ht, List.mem_append, hg, e,
      Sync.setStack_holder, List.mem_cons, true_and]
    by_cases hf : f = .lockAcquireHeld l
    · -- the frame is executed, and there is no other one below it
      subst hf
      have hn : .lockAcquireHeld l ∉ fs := by
        intro hmem
        rcases hs.of_held_mem hmem with hd | hy | ⟨old, hy⟩
        · cases hd
        · cases hy
        · cases hy
      simp [hn]
    · simp only [Ne.symm hf, false_or, hf, not_false_eq_true, and_true]
      exact or_comm
  · rcases ho u hu with ho | ⟨p, function, n, r, rfl, rfl, ho⟩
    · simp [hu, ho]
    · have hb := I.unborn _ le_rfl
      cases function <;> simp [hu, ho, hb, Entry.stack]

/-- What a step does to the holders. -/
theorem Sync.Step.holder_cases (h : Sync.Step okCall t s s') :
    s'.holder = s.holder ∨
      (∃ f fs l, s.stack t = f :: fs ∧ f.Takes l ∧
        s'.holder = Function.update s.holder l (some t)) ∨
      ∃ l fs, s.stack t = .lockReleaseBody l :: fs ∧
        s'.holder = Function.update s.holder l none := by
  cases h with
  | call => exact .inl rfl
  | interrupt _ hh => cases hh <;> exact .inl rfl
  | run e hm =>
      cases hm with
      | take hf => exact .inr (.inl ⟨_, _, _, e, hf, rfl⟩)
      | lockReleaseBody => exact .inr (.inr ⟨_, _, e, rfl⟩)
      | _ => exact .inl rfl

/-- The stacks of the other threads. -/
theorem Sync.Step.stack_of_ne (I : s.Inv) (h : Sync.Step okCall t s s') (hu : u ≠ t) :
    s'.stack u = s.stack u ∨ u = s.nextThread ∧
      ∃ p e n r fs, s.stack t = .threadCreateLink p e n r :: fs ∧ s'.stack u = e.stack := by
  cases h with
  | call => exact .inl (by simp [hu])
  | interrupt _ hh => cases hh <;> exact .inl (by simp [hu])
  | run e hm =>
      obtain ⟨-, ho⟩ := hm.stack_run I.unborn e
      rcases ho u hu with ho | ⟨p, function, n, r, rfl, rfl, ho⟩
      · exact .inl (by simp [hu, ho])
      · exact .inr ⟨rfl, p, function, n, r, _, e, by simp [hu, ho]⟩

/-! ### The idle thread -/

/-- The frames that can be on the stack of the idle thread. -/
def Frame.OfIdle : Frame → Prop
  | semaUp p => p = .idleStarted
  | kernelThread | intrSetLevel _ | idle | idleLoop | idleResume | idleHalt => True
  | checkPreemption | checkPreemptionFront | checkPreemptionRead | checkPreemptionCompare _ => True
  | mlfqsCheckPreemption _ | mlfqsCheckPreemptionCompare _ | threadYield => True
  | _ => False

theorem Frame.ofIdle {f : Frame} (h : f.InIdle ∨ f.IsIdle) : f.OfIdle := by
  rcases h with h | h
  · cases h with
    | preempts hp => cases hp <;> trivial
    | semaUp => exact rfl
    | _ => trivial
  · cases h <;> trivial

/-- The idle thread neither waits on a semaphore nor sleeps. -/
theorem idle_stack_free {fs : List Frame} (h : ∀ f ∈ fs, f.OfIdle) :
    waitsOn fs = none ∧ ¬ Sleeps fs := by
  rcases fs with - | ⟨f, fs⟩
  · exact ⟨rfl, by rintro ⟨_, _, ⟨⟩⟩⟩
  · have hf := h f (.head _)
    refine ⟨?_, ?_⟩
    · unfold waitsOn
      split
      case h_1 p old gs e =>
        cases e
        exact hf.elim
      case h_2 => rfl
    · rintro ⟨old, gs, e⟩
      cases e
      exact hf

theorem Sync.Inv.idle_mem (I : s.Inv) (hi : s.idleThread = some t) {f : Frame}
    (hf : f ∈ s.stack t) : f.OfIdle := by
  obtain ⟨rfl, hn, -⟩ := I.idleThread t hi
  exact Frame.ofIdle ((I.idling hn).mem hf)

theorem Sync.Inv.idleFree (I : k.sync.Inv) : IdleFree k :=
  fun _ hi => idle_stack_free fun _ hf => I.idle_mem hi hf

/-- Also while the running thread executes its innermost frame. -/
theorem Sync.Inv.idleFree_pop (I : k.sync.Inv) {f : Frame} {fs : List Frame}
    (e : k.stack k.cur = f :: fs) : IdleFree (popFrame k fs) := by
  intro t hi
  refine idle_stack_free fun g hg => I.idle_mem hi (t := t) ?_
  obtain rfl | ht := eq_or_ne t k.cur
  · have hg : g ∈ fs := by simpa [popFrame] using hg
    rw [Kernel.sync_stack, e]
    exact .tail _ hg
  · rwa [popFrame_stack_of_ne ht] at hg

/-! ### Tame steps -/

/-- What frame `f` of the running thread asks of the state. -/
def Frame.Tame (cfg : Config) (srt : Prop) (k : Kernel) : Frame → Prop
  | threadUnblock t => ∃ gs, k.stack t = .threadBlockReturn :: gs
  | lockAcquireBody l => ∀ h, k.lockHolder l = some h →
      k.elems.listEmpty (.lockWaiters l) = true ∧ (srt → KeepsQueues cfg k h)
  | threadSetPriority p => cfg.mlfqs = true → PriorityOk p
  | _ => True

/-- The step unblocks directly only a thread that is in a direct `thread_block`, waits for a
lock only if nobody else is in its list of waiters, and, where `srt` holds, only if the donation
leaves the ready queues in order; with the MLFQS it sets no priority out of range. -/
def Tame (cfg : Config) (srt : Prop) (k : Kernel) : Label → Prop
  | .run => ∀ f fs, k.stack k.cur = f :: fs → f.Tame cfg srt k
  | _ => True

/-- **The invariant of the tame runs.** -/
structure Good (cfg : Config) (srt : Prop) (k : Kernel) : Prop where
  sched : Scheduling cfg srt k
  waits : ∀ t l, (k.thr t).waitingLock = some l ↔ .lockAcquireHeld l ∈ k.stack t
  held : ∀ t l, .lockAcquireHeld l ∈ k.stack t → k.lockHolder l ≠ none
  embryo : ∀ u f x, f ∈ k.stack u → f.created = some x →
    (k.thr x).status = .blocked ∧ ∃ e : Entry, k.stack x = e.stack
  gone : ∀ t, (k.thr t).status = .dying → k.stack t = []

/-- The invariants of the synchronization machine. -/
structure Control (k : Kernel) : Prop where
  inv : k.sync.Inv
  lock : ∀ l, LockInv l k.sync
  ranged : ∀ u, ∀ f ∈ k.stack u, f.Ranged False

theorem Reachable.control {ok : Kernel → Label → Prop} (h : Reachable cfg ok k) : Control k where
  inv := Sync.Reachable.inv h.anySync.1
  lock := Sync.Reachable.lockInv h.anySync.1
  ranged := Sync.Reachable.ranged h.anySync.1 fun _ _ h => h.elim

/-! ### Tame steps are legal -/

theorem Control.known (C : Control k) {p : SemaPtr} {f : Frame} (hf : f ∈ k.stack u)
    (hp : f.Downs p ∨ f = .semaUp p) : k.Known p := by
  rintro w rfl
  refine (C.inv.frameOk u f hf).record_lt w ?_
  rcases hp with hp | rfl
  · cases hp <;> simp [Frame.records]
  · simp [Frame.records]

theorem Control.waiting (C : Control k) {p : SemaPtr} (h : Waiting k p t) : k.Known p := by
  obtain ⟨old, fs, e⟩ := h.stack
  exact C.known (f := .semaDownWait p old) (u := t) (by rw [e]; exact .head _) (.inl .semaDownWait)

/-- A thread in a contended `lock_acquire` is not at its last frame. -/
theorem Good.not_held (G : Good cfg srt k) (C : Control k) {f : Frame} {fs : List Frame}
    (e : k.stack t = f :: fs) (l : LockPtr) : f ≠ .lockAcquireHeld l := by
  rintro rfl
  have hm : .lockAcquireHeld l ∈ k.stack t := by
    rw [e]
    exact .head _
  exact G.held t l hm ((C.lock l).holder_none C.inv e .lockAcquireHeld)

/-- A waiting thread that does not run is ready, or sleeps on the semaphore of the lock. -/
theorem Good.waits_cases (G : Good cfg srt k) (C : Control k)
    (hw : (k.thr t).waitingLock = some l) (hc : t ≠ k.cur) :
    (k.thr t).status = .ready ∧ k.idleThread ≠ some t ∨ Waiting k (.ofLock l) t := by
  obtain ⟨⟨q, home, L, P⟩, -⟩ := G.sched
  have hm := (G.waits t l).mp hw
  rcases e : (k.thr t).status with - | - | - | -
  · exact absurd (Option.some.inj ((P.running t).mp e)).symm hc
  · refine .inl ⟨rfl, fun hi => ?_⟩
    exact C.inv.idle_mem hi hm
  · obtain ⟨f, fs, ef, hp⟩ := P.parked t e
    refine .inr ⟨e, ?_⟩
    have hst : Stacked (k.stack t) := C.inv.stacked t
    rw [ef] at hm hst ⊢
    rcases List.mem_cons.mp hm with rfl | hm
    · cases hp
    · rcases hst.of_held_mem hm with hd | rfl | ⟨old, rfl⟩
      · cases hd with
        | semaDown => cases hp
        | semaDownWait => rfl
      · cases hp
      · cases hp
  · rw [G.gone t e] at hm
    cases hm

theorem Entry.stack_head (e : Entry) : waitsOn e.stack = none ∧ ¬ Sleeps e.stack := by
  cases e <;> exact ⟨rfl, by rintro ⟨_, _, ⟨⟩⟩⟩

/-- A thread that is being created is not the idle thread yet. -/
theorem Good.embryo_not_idle (G : Good cfg srt k) (C : Control k) {f : Frame}
    (hf : f ∈ k.stack u) (hx : f.created = some t) : k.idleThread ≠ some t := by
  intro hi
  obtain ⟨rfl, hn, hne⟩ := C.inv.idleThread t hi
  obtain ⟨-, e, he⟩ := G.embryo u f 1 hf hx
  have hne : Frame.idle ∉ k.stack 1 := hne
  have hid : Idling (k.stack 1) := C.inv.idling hn
  rw [he] at hne hid
  cases e with
  | idle => exact hne (by simp [Entry.stack])
  | user =>
      obtain ⟨gs, x, hs, -, hx⟩ := hid
      obtain ⟨rfl, rfl⟩ : gs = [] ∧ x = .kernelThread := by
        rcases gs with - | ⟨g, gs⟩ <;> simp_all [Entry.stack]
      cases hx

theorem raises_popFrame {fs : List Frame} {p : ℤ} {h : ThreadPtr} :
    Raises (popFrame k fs) p u h ↔ Raises k p u h :=
  ⟨fun H => H.congr (fun _ hv => ⟨hv, rfl⟩) rfl, fun H => H.congr (fun _ hv => ⟨hv, rfl⟩) rfl⟩

theorem KeepsQueues.popFrame {h : ThreadPtr} (H : KeepsQueues cfg k h) (fs : List Frame) :
    KeepsQueues cfg (Pintos.popFrame k fs) h := by
  refine ⟨fun hm a u hr ha => ?_, fun hm u hr => H.2 hm u (raises_popFrame.mp hr)⟩
  exact (H.1 hm a u (raises_popFrame.mp hr) ha).imp id raises_popFrame.mpr

/-- **A tame step is legal.** -/
theorem Good.legal (G : Good cfg srt k) (C : Control k) {f : Frame} {fs : List Frame}
    (e : k.stack k.cur = f :: fs) (hT : f.Tame cfg srt k) : Legal cfg srt (popFrame k fs) f := by
  have hf : f ∈ k.stack k.cur := by
    rw [e]
    exact .head _
  obtain ⟨⟨q, home, L, P⟩, hin⟩ := G.sched
  have hst : ∀ t, (k.thr t).status = .blocked → (popFrame k fs).stack t = k.stack t := by
    intro t ht
    refine popFrame_stack_of_ne fun hc => ?_
    rw [hc, P.cur_running] at ht
    cases ht
  have hwait : ∀ {p t}, Waiting (popFrame k fs) p t → Waiting k p t := by
    intro p t hw
    exact ⟨hw.1, hst t hw.1 ▸ hw.2⟩
  have hnone : ∀ {l}, .lockAcquireHeld l ∉ k.stack k.cur → (k.thr k.cur).waitingLock ≠ some l :=
    fun h hw => h ((G.waits _ _).mp hw)
  refine ⟨fun p hp => C.known hf hp, fun p t hw => C.waiting (hwait hw), G.not_held C e, ?_, ?_,
    ?_, ?_, ?_, ?_, ?_⟩
  · -- a contended `lock_acquire`
    rintro l h rfl hh
    obtain ⟨hemp, hk⟩ := hT h hh
    refine ⟨fun t hw => ?_, ?_, fun hs => (hk hs).popFrame fs⟩
    · rw [L.waited_not_empty hw] at hemp
      cases hemp
    · rcases hw : (k.thr k.cur).waitingLock with - | m
      · exact hw
      · have hm := (G.waits k.cur m).mp hw
        have hs : Stacked (k.stack k.cur) := C.inv.stacked k.cur
        rw [e] at hm hs
        rcases hs.of_held_mem ((List.mem_cons.mp hm).resolve_left nofun) with hd | hy | ⟨old, hy⟩
        · cases hd
        · cases hy
        · cases hy
  · -- the waiters while a lock is released
    intro hr m t hw
    have hw : (k.thr t).waitingLock = some m := hw
    have hc : t ≠ k.cur := by
      rintro rfl
      have hm := (G.waits k.cur m).mp hw
      have hs : Stacked (k.stack k.cur) := C.inv.stacked k.cur
      rw [e] at hm hs
      rcases List.mem_cons.mp hm with rfl | hm
      · cases hr
      · rcases hs.of_held_mem hm with hd | rfl | ⟨old, rfl⟩
        · cases hd <;> cases hr
        · cases hr
        · cases hr
    refine (G.waits_cases C hw hc).imp id fun hw => ⟨.ofLock m, fun w => nofun, hw.1, ?_⟩
    rw [hst t hw.1]
    exact hw.2
  · -- a new page
    rintro p en n rc rfl
    refine ⟨?_, C.ranged k.cur _ hf⟩
    rcases hw : (k.thr k.nextThread).waitingLock with - | m
    · exact hw
    · have hm := (G.waits _ m).mp hw
      have hu : k.stack k.nextThread = [] := C.inv.unborn k.nextThread le_rfl
      rw [hu] at hm
      cases hm
  · rintro p (rfl | rfl) hm
    · exact hT hm
    · exact C.ranged k.cur _ hf
  · -- an unblocking
    rintro t hu hb
    rw [hst t hb]
    cases hu with
    | threadUnblock =>
        obtain ⟨gs, hs⟩ := hT
        rw [hs]
        refine ⟨fun hi => ?_, rfl, by rintro ⟨_, _, ⟨⟩⟩⟩
        exact C.inv.idle_mem (f := .threadBlockReturn) hi (by
          rw [Kernel.sync_stack, hs]
          exact .head _)
    | threadCreateUnblock =>
        obtain ⟨-, en, hs⟩ := G.embryo k.cur _ t hf rfl
        rw [hs]
        exact ⟨G.embryo_not_idle C hf rfl, en.stack_head⟩
  · rintro rfl
    rcases hi : k.idleThread with - | t
    · exact hi
    · obtain ⟨rfl, -, hn⟩ := C.inv.idleThread t hi
      have hc : k.cur = 1 := (C.inv.frameOk k.cur _ hf).idle_eq .idle
      exact absurd (hc ▸ hf) hn
  · rintro rfl hi
    exact C.inv.idle_mem (f := .threadExit) hi hf

theorem Scheduling.popFrame (S : Scheduling cfg srt k) (fs : List Frame) :
    Scheduling cfg srt (Pintos.popFrame k fs) := by
  obtain ⟨⟨q, home, L, P⟩, hin⟩ := S
  refine ⟨⟨q, home, L.congr rfl (fun _ => rfl) rfl fun _ _ _ _ => rfl, ?_⟩, hin⟩
  exact P.congr (fun _ => rfl) (fun u hu => popFrame_stack_of_ne fun h => hu (h ▸ rfl)) rfl rfl rfl

theorem Returns.inRange (h : Returns srt k k') (hr : InRange cfg k) : InRange cfg k' := by
  rcases h with rfl | h
  · exact hr
  · exact h.inRange hr

/-- **Every tame step has its effect**, and keeps the queues in order. -/
theorem Good.stepEffect (G : Good cfg srt k) (C : Control k) (hT : Tame cfg srt k lab)
    (hf : IdleFree k') (h : step cfg fuel k lab = some k') :
    StepEffect cfg srt k lab k' ∧ Scheduling cfg srt k' := by
  have S := G.sched
  obtain ⟨⟨q, home, L, P⟩, hin⟩ := G.sched
  have hin₀ : InRange cfg (endHalt k) := by
    intro hm t
    rw [endHalt_thr]
    exact hin hm t
  cases lab with
  | call c =>
      rw [step] at h
      split at h
      case isTrue e =>
        cases h
        exact ⟨.call e, S.calm ((Calm.refl k).push _)⟩
      case isFalse => cases h
  | run =>
      rcases e : k.stack k.cur with - | ⟨f, fs⟩
      · simp [step, e] at h
      · rw [step, e] at h
        obtain ⟨he, S'⟩ := exec_effect (S.popFrame fs) (G.legal C e (hT f fs e))
          (C.inv.idleFree_pop e) hf h
        exact ⟨.run e he, S'⟩
  | timer =>
      rw [step] at h
      split at h
      case isTrue =>
        obtain ⟨⟨k₁, b, -, hw, hr⟩, hq⟩ := L.timerInterrupt P hin C.inv.idleFree hf h
        exact ⟨.timer hw hr, hq, hr.inRange (hw.inRange hin₀)⟩
      case isFalse => cases h
  | semaUp n =>
      rw [step] at h
      split at h
      case isTrue =>
        obtain ⟨⟨k₁, -, hw, hr⟩, hq⟩ := L.semaUpInterrupt (p := .user n) P hin
          (fun _ => by rintro ⟨⟩) C.inv.idleFree hf h
        refine ⟨.semaUp hw hr, hq, hr.inRange ?_⟩
        rcases hw with ⟨rfl, -⟩ | ⟨t, -, hw⟩
        · exact hin₀
        · exact hw.inRange hin₀
      case isFalse => cases h
  | semaTryDown n =>
      rw [step] at h
      split at h
      case isTrue =>
        obtain ⟨rfl, hq⟩ := L.semaTryDownInterrupt P h
        refine ⟨.semaTryDown, hq, fun hm t => ?_⟩
        have hs := (semaTryDown_silent ((endHalt k).setLevel false) none (.user n))
        exact (hin₀ hm t).of_eq (hs.priority t) (hs.basePriority t)
      case isFalse => cases h

/-! ### What a step does to the waiting threads -/

/-- Contended, frame `f` makes the running thread wait for lock `l`. -/
def Contended (k : Kernel) (f : Frame) (l : LockPtr) : Prop :=
  f = .lockAcquireBody l ∧ k.lockHolder l ≠ none

theorem Contended.acts {f : Frame} (h : Contended k f l) : f.Acts k := by
  obtain ⟨rfl, h⟩ := h
  exact h

/-- Only a contended `lock_acquire` writes a `waiting_lock`. -/
theorem Effect.waitingLock {f : Frame} (h : Effect cfg srt k f k') (u : ThreadPtr)
    (hu : u = k.nextThread → (k.thr u).waitingLock = none) :
    (∀ l, Contended k f l → u = k.cur → (k'.thr u).waitingLock = some l) ∧
      ((∀ l, Contended k f l → u ≠ k.cur) → (k'.thr u).waitingLock = (k.thr u).waitingLock) := by
  have hsame : ¬ (∃ l, Contended k f l) → (k'.thr u).waitingLock = (k.thr u).waitingLock →
      (∀ l, Contended k f l → u = k.cur → (k'.thr u).waitingLock = some l) ∧
        ((∀ l, Contended k f l → u ≠ k.cur) → (k'.thr u).waitingLock = (k.thr u).waitingLock) :=
    fun hn he => ⟨fun l hl => absurd ⟨l, hl⟩ hn, fun _ => he⟩
  cases h with
  | same ha hs => exact hsame (fun ⟨l, hl⟩ => ha hl.acts) (hs.waitingLock u)
  | priority hp hs =>
      refine hsame ?_ ((hs.waitingLock u).trans ?_)
      · rintro ⟨l, rfl, -⟩
        cases hp
      · obtain rfl | hc := eq_or_ne u k.cur <;> simp [*]
  | switch hp _ hs hsw =>
      refine hsame ?_ ((hsw.waitingLock u).trans (hs.waitingLock u))
      rintro ⟨l, rfl, -⟩
      cases hp with | wait hd => cases hd
  | wake hw hwo hs =>
      refine hsame ?_ ((hs.waitingLock u).trans (hwo.waitingLock u))
      rintro ⟨l, rfl, -⟩
      cases hw
  | up hw hs =>
      refine hsame (by rintro ⟨l, ⟨⟩, -⟩) ((hs.waitingLock u).trans ?_)
      rcases hw with ⟨rfl, -⟩ | ⟨t, -, hw⟩
      · rfl
      · exact hw.waitingLock u
  | @contend l h _ _ _ hh hc hs =>
      obtain ⟨p, e, -⟩ := hc.thr u
      have hw : (k'.thr u).waitingLock = if u = k.cur then some l else (k.thr u).waitingLock := by
        rw [hs.waitingLock u, e]
      rw [hw]
      refine ⟨?_, fun hne => if_neg (hne l ⟨rfl, by simp [hh]⟩)⟩
      rintro m ⟨hm, -⟩ rfl
      cases hm
      exact if_pos rfl
  | link hs =>
      refine hsame (by rintro ⟨l, ⟨⟩, -⟩) ((hs.waitingLock u).trans ?_)
      obtain rfl | hn := eq_or_ne u k.nextThread
      · rw [hu rfl]
        simp [linkThread, initThread]
      · simp [linkThread, hn]
  | idle hs => exact hsame (by rintro ⟨l, ⟨⟩, -⟩) (hs.waitingLock u)

/-- Interrupts write none. -/
theorem StepEffect.waitingLock (h : StepEffect cfg srt k lab k') (hl : lab ≠ .run)
    (u : ThreadPtr) : (k'.thr u).waitingLock = (k.thr u).waitingLock := by
  have hret : ∀ {k₁}, Returns srt k₁ k' → (k'.thr u).waitingLock = (k₁.thr u).waitingLock := by
    rintro k₁ (rfl | hs)
    · rfl
    · exact hs.waitingLock u
  cases h with
  | call => rfl
  | run => exact absurd rfl hl
  | timer hw hr => rw [hret hr, hw.waitingLock, endHalt_thr]
  | semaUp hw hr =>
      rw [hret hr]
      rcases hw with ⟨rfl, -⟩ | ⟨t, -, hw⟩
      · exact congrArg (fun th => (th u).waitingLock) (endHalt_thr k)
      · exact (hw.waitingLock u).trans (congrArg (fun th => (th u).waitingLock) (endHalt_thr k))
  | @semaTryDown n =>
      have hs := (semaTryDown_calm ((endHalt k).setLevel false) none (.user n) :
        Calm cfg _ _ _).waitingLock u
      exact hs.trans (congrArg (fun th => (th u).waitingLock) (endHalt_thr k))

theorem SyncStep.held_mem (h : SyncStep k lab s') (hl : lab ≠ .run) (u : ThreadPtr) (m : LockPtr) :
    .lockAcquireHeld m ∈ s'.stack u ↔ .lockAcquireHeld m ∈ k.stack u := by
  cases h with
  | run => exact absurd rfl hl
  | @call c e =>
      have hc : c.frame ≠ .lockAcquireHeld m := by cases c <;> exact nofun
      obtain rfl | hu := eq_or_ne u k.cur
      · simp [e, hc.symm]
      · simp [hu]
  | @interrupt _ fs' s₁ _ hi hh =>
      have hst : s₁.stack = k.stack := by cases hh <;> rfl
      obtain rfl | hu := eq_or_ne u k.cur
      · simp [hi.held_mem]
      · simp [hu, hst]

/-- Where the frames of contended `lock_acquire`s are after a step. -/
theorem Good.held_step (G : Good cfg srt k) (C : Control k) (h : SyncStep k lab s') (u : ThreadPtr)
    (m : LockPtr) : .lockAcquireHeld m ∈ s'.stack u ↔ .lockAcquireHeld m ∈ k.stack u ∨
      lab = .run ∧ u = k.cur ∧ ∃ f fs, k.stack k.cur = f :: fs ∧ Contended k f m := by
  by_cases hl : lab = .run
  · subst hl
    cases h with
    | interrupt hl => exact absurd rfl hl
    | @run f fs gs s₁ e hm =>
        refine (C.inv.held_run e hm m u).trans ?_
        have hf : ¬ (u = k.cur ∧ f = .lockAcquireHeld m) := fun hf => G.not_held C e m hf.2
        simp only [hf, not_false_eq_true, and_true, true_and]
        refine or_congr Iff.rfl (and_congr_right fun _ => ?_)
        simp [e, Contended]
  · simp [h.held_mem hl u m, hl]

/-- A waiting thread stays one, and becomes one by contending. -/
theorem Good.waits_step (G : Good cfg srt k) (C : Control k) (hT : Tame cfg srt k lab)
    (he : StepEffect cfg srt k lab k') (h : SyncStep k lab k'.sync) (u : ThreadPtr)
    (m : LockPtr) : (k'.thr u).waitingLock = some m ↔ .lockAcquireHeld m ∈ k'.stack u := by
  refine Iff.trans ?_ (G.held_step C h u m).symm
  by_cases hl : lab = .run
  · subst hl
    cases he with
    | @run f fs _ e he =>
      have hnew : u = k.nextThread → (k.thr u).waitingLock = none := by
        rintro rfl
        rcases hw : (k.thr k.nextThread).waitingLock with - | m
        · rfl
        · have hm := (G.waits _ m).mp hw
          have hu : k.stack k.nextThread = [] := C.inv.unborn k.nextThread le_rfl
          rw [hu] at hm
          cases hm
      obtain ⟨hnow, hold⟩ := he.waitingLock u hnew
      have hex : (∃ f' fs', k.stack k.cur = f' :: fs' ∧ Contended k f' m) ↔ Contended k f m := by
        rw [e]
        constructor
        · rintro ⟨_, _, ⟨⟩, hc⟩
          exact hc
        · exact fun hc => ⟨f, fs, rfl, hc⟩
      rw [hex, ← G.waits u m]
      simp only [true_and]
      by_cases hc : ∃ l, Contended k f l ∧ u = k.cur
      · -- the running thread, which has waited for no lock
        obtain ⟨l, hl, rfl⟩ := hc
        have hnone : (k.thr k.cur).waitingLock = none := by
          obtain ⟨rfl, hne⟩ := hl
          obtain ⟨h₀, hh⟩ := Option.ne_none_iff_exists'.mp hne
          exact ((G.legal C e (hT _ fs e)).contended l h₀ rfl hh).2.1
        rw [hnow l hl rfl, hnone]
        simp only [Option.some.injEq, reduceCtorEq, false_or, true_and]
        refine ⟨fun e => e ▸ hl, fun hm => ?_⟩
        obtain ⟨rfl, -⟩ := hl
        exact Frame.lockAcquireBody.inj hm.1
      · rw [hold fun l hl hu => hc ⟨l, hl, hu⟩]
        refine ⟨.inl, fun h => h.resolve_right fun ⟨hu, hm⟩ => hc ⟨m, hm, hu⟩⟩
  · rw [he.waitingLock hl u, G.waits u m]
    simp [hl]

/-! ### Every step keeps the invariant -/

/-- Interrupts and calls change no holder. -/
theorem SyncStep.holder (h : SyncStep k lab s') (hl : lab ≠ .run) : s'.holder = k.lockHolder := by
  cases h with
  | call => rfl
  | run => exact absurd rfl hl
  | interrupt _ _ hh => cases hh <;> rfl

/-- A lock that a thread waits for is held. -/
theorem Good.held_kept (G : Good cfg srt k) (C : Control k) (hT : Tame cfg srt k lab)
    (h : step cfg fuel k lab = some k') (hs : SyncStep k lab k'.sync)
    (hst : Sync.Step okCall k.cur k.sync k'.sync) (hu : .lockAcquireHeld l ∈ k'.stack u) :
    k'.lockHolder l ≠ none := by
  have hu := (G.held_step C hs u l).mp hu
  have hold : k.lockHolder l ≠ none := by
    rcases hu with hm | ⟨-, -, f, fs, -, hm⟩
    · exact G.held u l hm
    · exact hm.2
  rcases hst.holder_cases with e | ⟨f, fs, m, -, -, e⟩ | ⟨m, fs, e₀, e⟩
  · have e : k'.lockHolder = k.lockHolder := e
    rwa [e]
  · have e : k'.lockHolder = Function.update k.lockHolder m (some k.cur) := e
    rw [e]
    by_cases hl : l = m
    · simp [hl]
    · simpa [hl] using hold
  · -- the lock that is released has no waiters
    have e : k'.lockHolder = Function.update k.lockHolder m none := e
    have hne : l ≠ m := by
      rintro rfl
      have e₀ : k.stack k.cur = .lockReleaseBody l :: fs := e₀
      rcases hu with hm | ⟨-, -, f, fs', ef, rfl, -⟩
      · have hrun : lab = .run := by
          by_contra hl
          have hh : k'.lockHolder = k.lockHolder := hs.holder hl
          exact hold (by rw [← hh, e, Function.update_self])
        subst hrun
        rw [step, e₀] at h
        obtain ⟨k₁, h₁, -⟩ := Option.map_eq_some_iff.mp h
        have hL := G.legal C e₀ (hT _ fs e₀)
        have hfree := ((G.sched.popFrame fs).releaseLock (hL.queued .lockReleaseBody) h₁).1
        exact hfree u ((G.waits u l).mpr hm)
      · rw [e₀] at ef
        cases ef
    rwa [e, Function.update_of_ne hne]

theorem Frame.created_creates {f : Frame} {x : ThreadPtr} (h : f.created = some x) :
    f.Creates := by
  cases f <;> first | constructor | cases h

/-- Only the new thread gets a frame that creates it. -/
theorem Sync.Step.created (I : s.Inv) (h : Sync.Step okCall t s s') :
    ∀ u, ∀ f ∈ s'.stack u, ∀ x, f.created = some x →
      (∃ g ∈ s.stack u, g.created = some x) ∨ x = s.nextThread ∧ s.nextThread < s'.nextThread := by
  refine h.frames (Q := fun u f => f ∈ s.stack u) I.unborn (fun _ _ hf => hf) ?_ ?_ ?_ ?_ ?_ ?_
  · exact fun u f hf _ _ x hx => .inl ⟨f, hf, hx⟩
  · intro c _ _ _ x hx
    rw [Call.created] at hx
    cases hx
  · rintro f fs gs s₁ e hm rfl hf g hg x hx
    rcases hm.created hg hx with hx | ⟨rfl, hn⟩
    · exact .inl ⟨f, hf, hx⟩
    · refine .inr ⟨rfl, ?_⟩
      show s.nextThread < s₁.nextThread
      rw [hn]
      exact Nat.lt_succ_self _
  · intro p e n r _ f hf x hx
    cases e <;> simp [Entry.stack] at hf <;> rcases hf with rfl | rfl <;> cases hx
  · rintro _ ⟨⟩
  · exact fun _ => by rintro _ ⟨⟩

theorem Move.of_threadCreateUnblock {x : ThreadPtr} {gs : List Frame}
    (h : Move t s (.threadCreateUnblock x) gs s') : ∃ g, g.Preempts ∧ gs = [g] ∧ s' = s := by
  cases h with
  | down h | wait h | take h => cases h
  | quiet h =>
      cases h with
      | preempt h | preemptEnd h => cases h.1
      | threadCreateUnblock hp => exact ⟨_, hp, rfl, rfl⟩

/-- After a creator has unblocked its thread, no frame names the thread. -/
theorem Sync.Inv.creator_done (I : k.sync.Inv) (h : SyncStep k .run s') {x : ThreadPtr}
    {fs : List Frame} (e : k.stack k.cur = .threadCreateUnblock x :: fs) {f : Frame}
    (hf : f ∈ s'.stack u) : f.created ≠ some x := by
  intro hx
  have hst : Stacked (.threadCreateUnblock x :: fs) := e ▸ I.stacked k.cur
  have htop : .threadCreateUnblock x ∈ k.sync.stack k.cur := by
    rw [Kernel.sync_stack, e]
    exact .head _
  cases h with
  | interrupt hl => exact hl rfl
  | run e' hm =>
      cases e.symm.trans e'
      obtain ⟨g, hp, rfl, rfl⟩ := hm.of_threadCreateUnblock
      obtain rfl | hu := eq_or_ne u k.cur
      · have hf : f ∈ g :: fs := by simpa using hf
        rcases List.mem_cons.mp hf with rfl | hf
        · rw [hp.created] at hx
          cases hx
        · cases hst.inCreate_of_mem hf (Frame.created_creates hx) with
          | acquires h | releases h | downs h | preempts h => cases h
      · obtain ⟨o, ho⟩ := I.owner x
        have hf : f ∈ k.sync.stack u := by simpa [hu] using hf
        exact hu ((ho u f hf hx).trans (ho k.cur _ htop rfl).symm)

/-- While a thread is being created it is blocked in front of its first frames. -/
theorem Good.embryo_step (G : Good cfg srt k) (C : Control k) (hT : Tame cfg srt k lab)
    (hc : k.cur < k.nextThread) (he : StepEffect cfg srt k lab k')
    (hs : SyncStep k lab k'.sync) (hst : Sync.Step okCall k.cur k.sync k'.sync) {f : Frame}
    {x : ThreadPtr} (hf : f ∈ k'.stack u) (hx : f.created = some x) :
    (k'.thr x).status = .blocked ∧ ∃ e : Entry, k'.stack x = e.stack := by
  obtain ⟨g, hg, hgx⟩ | ⟨rfl, hn⟩ := hst.created C.inv u f hf x hx
  · obtain ⟨hb, en, hen⟩ := G.embryo u g x hg hgx
    have hxn : x < k.nextThread := (C.inv.frameOk u g hg).created_lt x hgx
    have hxc : x ≠ k.cur := by
      rintro rfl
      obtain ⟨⟨q, home, L, P⟩, -⟩ := G.sched
      rw [P.cur_running] at hb
      cases hb
    have hstack : k'.stack x = k.stack x :=
      (hst.stack_of_ne C.inv hxc).resolve_right fun h => absurd h.1 (ne_of_lt hxn)
    refine ⟨?_, en, hstack.trans hen⟩
    obtain hb' | hw := he.blocked hb hxc hxn
    · exact hb'
    · exfalso
      cases hw with
      | @unblocks f₀ fs e hu =>
          cases hu with
          | threadUnblock =>
              obtain ⟨gs, hgs⟩ := hT _ fs e
              rw [hgs] at hen
              cases en <;> cases hen
          | threadCreateUnblock =>
              exact C.inv.creator_done hs e hf hx
      | up _ hw =>
          obtain ⟨old, fs, e⟩ := hw.stack
          rw [hen] at e
          cases en <;> cases e
      | idle hi => exact G.embryo_not_idle C hg hgx hi
      | sleep hsl => exact en.stack_head.2 (hen ▸ hsl)
      | interrupt hw =>
          obtain ⟨old, fs, e⟩ := hw.stack
          rw [hen] at e
          cases en <;> cases e
  · exact (he.born (ne_of_lt hc)).resolve_left (ne_of_gt hn)

theorem Move.of_threadExit {gs : List Frame} (h : Move t s .threadExit gs s') :
    gs = [] ∧ s' = s := by
  cases h with
  | down h | wait h | take h => cases h
  | quiet h =>
      cases h with
      | preempt h | preemptEnd h => cases h.1
      | threadExit => exact ⟨rfl, rfl⟩

/-- `thread_exit` is called by the thread's own code, and leaves its stack empty. -/
theorem SyncStep.exits (I : k.sync.Inv) {fs : List Frame} (h : SyncStep k .run s')
    (e : k.stack k.cur = .threadExit :: fs) : s'.stack k.cur = [] := by
  have hst : Stacked (.threadExit :: fs) := e ▸ I.stacked k.cur
  have hfs : fs = [] := by
    obtain ⟨⟨old, ho⟩ | ⟨π, ho, hr⟩, -⟩ := hst
    · cases ho
    · rcases fs with - | ⟨f, fs⟩
      · rfl
      · cases ho <;> cases hr <;> rename_i h <;> cases h
  cases h with
  | interrupt hl => exact absurd rfl hl
  | run e' hm =>
      cases e.symm.trans e'
      obtain ⟨rfl, rfl⟩ := hm.of_threadExit
      simp [hfs]

theorem Good.gone_step (G : Good cfg srt k) (C : Control k) (hc : k.cur < k.nextThread)
    (he : StepEffect cfg srt k lab k') (hs : SyncStep k lab k'.sync)
    (hst : Sync.Step okCall k.cur k.sync k'.sync) (hu : (k'.thr u).status = .dying) :
    k'.stack u = [] := by
  obtain hd | ⟨rfl, rfl, fs, e⟩ := he.dies hu
  · have huc : u ≠ k.cur := by
      rintro rfl
      obtain ⟨⟨q, home, L, P⟩, -⟩ := G.sched
      rw [P.cur_running] at hd
      cases hd
    obtain h | ⟨rfl, p, en, n, r, fs, e, he'⟩ := hst.stack_of_ne C.inv huc
    · exact h.trans (G.gone u hd)
    · obtain hn | ⟨hb, -⟩ := he.born (ne_of_lt hc)
      · have hu : k'.nextThread ≤ k.nextThread := le_of_eq hn
        exact (C.inv.step hst).unborn _ hu
      · have hu : (k'.thr k.nextThread).status = .dying := hu
        rw [hb] at hu
        cases hu
  · exact hs.exits C.inv e

/-- **The invariant is kept** by every tame step. -/
theorem Good.step (G : Good cfg srt k) (C : Control k) (C' : Control k')
    (hc : k.cur < k.nextThread) (hT : Tame cfg srt k lab) (h : step cfg fuel k lab = some k') :
    StepEffect cfg srt k lab k' ∧ Good cfg srt k' := by
  obtain ⟨he, S⟩ := G.stepEffect C hT C'.inv.idleFree h
  obtain ⟨hs, -⟩ := step_syncStep hc h
  obtain ⟨hst, -⟩ : Sync.Step (fun _ => True) k.cur k.sync k'.sync ∧ _ :=
    step_sync hc (fun _ _ => trivial) h
  exact ⟨he, S, fun u m => G.waits_step C hT he hs u m,
    fun u m hu => G.held_kept C hT h hs hst hu,
    fun u f x hf hx => G.embryo_step C hT hc he hs hst hf hx,
    fun u hu => G.gone_step C hc he hs hst hu⟩

/-! ### Runs -/

theorem boot_queues (cfg : Config) (srt : Prop) : Queues cfg srt (some 0) (boot cfg) := by
  have hw : ∀ t, ((boot cfg).thr t).waitingLock = none := by
    intro t
    by_cases ht : t = 0 <;> simp [boot, ht, initThread, Thread.blank]
  have hs : ∀ t, ((boot cfg).thr t).status = if t = 0 then .running else .dying := by
    intro t
    by_cases ht : t = 0 <;> simp [boot, ht, initThread, Thread.blank]
  refine ⟨fun l => if l.initialised cfg then some [] else none, fun _ => none, ?_, ?_⟩
  · refine ⟨⟨?_, ?_⟩, ?_, ?_, ?_, ?_, ?_, ?_, ?_, ?_⟩
    · intro l xs hq
      split at hq
      case isTrue h =>
        cases hq
        exact bootElems_isList h
      case isFalse => cases hq
    · intro l l' xs ys a hq _ ha
      split at hq
      case isTrue =>
        cases hq
        cases ha
      case isFalse => cases hq
    · intro l xs hq a
      have hq : (if l.initialised cfg then some [] else none) = some xs := hq
      split at hq
      case isTrue =>
        cases hq
        simp
      case isFalse => cases hq
    · exact fun l hl => ⟨[], if_pos hl.initialised⟩
    · intro p hp
      refine ⟨[], if_pos ?_⟩
      cases p with
      | ofWaiter w => exact absurd (hp w rfl) (Nat.not_lt_zero _)
      | _ => rfl
    · intro p hp
      simp only [Kernel.Known, not_forall] at hp
      obtain ⟨w, rfl, -⟩ := hp
      rfl
    · exact fun l _ => rfl
    · intro l t ht
      rw [hw] at ht
      cases ht
    · intro _ _ xs hq
      cases hq
      exact .nil
    · exact fun _ _ _ _ => by rintro ⟨⟩
  · refine ⟨?_, ?_, ?_, ?_, ?_, .nil, ?_, ?_, (by rintro _ ⟨⟩)⟩
    · intro t
      rw [hs]
      obtain rfl | ht := eq_or_ne t 0
      · simp
      · simp [ht, ht.symm]
    · intro t
      rw [hs]
      by_cases ht : t = 0 <;> simp [ht, Stands]
    · intro t ht
      rw [hs, if_neg]
      rintro rfl
      exact absurd ht (Nat.not_succ_le_zero 0)
    · intro t ht
      rw [hs] at ht
      split at ht <;> cases ht
    · intro t
      rw [hs]
      refine iff_of_false (by rintro ⟨⟩) ?_
      rintro ⟨ht, -⟩
      split at ht <;> cases ht
    · intro t
      rw [hs]
      by_cases ht : t = 0
      · simp [boot, ht]
      · simp [boot, ht]
    · exact List.nodup_singleton 0

theorem boot_inRange (cfg : Config) : InRange cfg (boot cfg) := by
  intro _ t
  by_cases ht : t = 0
  · subst ht
    have hp : ((boot cfg).thr 0).priority = priDefault := rfl
    have hb : ((boot cfg).thr 0).basePriority = priDefault := rfl
    refine ⟨?_, ?_⟩
    · rw [hp]
      decide
    · rw [hb]
      decide
  · have hb : (boot cfg).thr t = Thread.blank := by simp [boot, ht]
    rw [hb]
    exact ⟨by decide, by decide⟩

theorem boot_stack {f : Frame} (h : f ∈ (boot cfg).stack t) :
    f = .threadCreate priMin .idle ∨ f = .threadStart := by
  obtain rfl | ht := eq_or_ne t 0
  · simpa [boot] using h
  · simp [boot, ht] at h

theorem boot_good (cfg : Config) (srt : Prop) : Good cfg srt (boot cfg) where
  sched := ⟨boot_queues cfg srt, boot_inRange cfg⟩
  waits := by
    intro t l
    refine iff_of_false ?_ fun h => by cases boot_stack h <;> contradiction
    by_cases ht : t = 0 <;> simp [boot, ht, initThread, Thread.blank]
  held := by
    intro t l h
    cases boot_stack h <;> contradiction
  embryo := by
    intro u f x hf hx
    rcases boot_stack hf with rfl | rfl <;> cases hx
  gone := by
    intro t h
    by_cases ht : t = 0 <;> simp_all [boot]

/-- **The invariant of the tame runs** holds in all of them. -/
theorem Reachable.good {ok : Kernel → Label → Prop}
    (hT : ∀ k lab, Reachable cfg ok k → ok k lab → Tame cfg srt k lab) (h : Reachable cfg ok k) :
    Good cfg srt k := by
  induction h with
  | refl => exact boot_good cfg srt
  | tail hr hn ih =>
      obtain ⟨lab, fuel, hok, hstep⟩ := hn
      have hr' : Reachable cfg ok _ := .tail hr ⟨lab, fuel, hok, hstep⟩
      exact (ih.step (Reachable.control hr) hr'.control (Reachable.anySync hr).2 (hT _ _ hr hok)
        hstep).2

/-! ### Runs without locks -/

/-- No frame of an operation on a lock or a condition variable, nor of `allocate_tid`. -/
def Frame.Lockless : Frame → Prop
  | lockAcquire _ | lockAcquireBody _ | lockAcquireFree _ _ | lockAcquireHeld _ => False
  | lockTryAcquire _ | lockTryAcquireDown _ | lockTryAcquireHolder _ => False
  | lockRelease _ | lockReleaseBody _ | lockReleaseRefresh _ => False
  | condWait _ _ | condWaitReturn _ _ | condSignal _ _ | condSignalFirst _ => False
  | condSignalMax _ _ _ | condSignalRemove _ _ | condBroadcast _ _ => False
  | allocateTidRead _ | allocateTidWrite _ _ => False
  | _ => True

theorem Frame.Preempts.lockless {f : Frame} (h : f.Preempts) : f.Lockless := by
  cases h <;> trivial

theorem Local.lockless {f : Frame} {gs : List Frame} (h : Local f gs) (hf : f.Lockless) :
    ∀ g ∈ gs, g.Lockless := by
  cases h with
  | preempt _ hp | threadCreateUnblock hp =>
      intro g hg
      obtain rfl := List.mem_singleton.mp hg
      exact hp.lockless
  | lockReleaseYield | lockReleaseRefresh | condWaitReturn | allocateTidRead
  | allocateTidWrite => exact hf.elim
  | _ => simp [Frame.Lockless]

theorem Move.lockless {f : Frame} {gs : List Frame} (h : Move t s f gs s') (hf : f.Lockless)
    (hc : ∀ p e n r, f ≠ .threadCreateLink p e n r) : ∀ g ∈ gs, g.Lockless := by
  cases h with
  | quiet h => exact h.lockless hf
  | wait => simp [Frame.Lockless]
  | up hp =>
      intro g hg
      obtain rfl := List.mem_singleton.mp hg
      exact hp.lockless
  | createAtomic | create => exact absurd rfl (hc _ _ _ _)
  | idle => simp [Frame.Lockless]
  | down | tryDown | tryDownFail => exact nofun
  | take h => exact nofun
  | _ => exact hf.elim

theorem Interrupted.lockless {fs fs' : List Frame} (h : Interrupted fs fs')
    (hf : ∀ f ∈ fs, f.Lockless) : ∀ f ∈ fs', f.Lockless := by
  have hmem : ∀ {g : Frame} {gs : List Frame}, (∀ f ∈ g :: gs, f.Lockless) → ∀ f ∈ gs, f.Lockless :=
    fun h f hf => h f (.tail _ hf)
  cases h with
  | halt => exact List.forall_mem_cons.mpr ⟨trivial, hmem hf⟩
  | haltYield =>
      exact List.forall_mem_cons.mpr ⟨trivial, List.forall_mem_cons.mpr ⟨trivial, hmem hf⟩⟩
  | none => exact hf
  | yield => exact List.forall_mem_cons.mpr ⟨trivial, hf⟩

theorem Entry.lockless (e : Entry) : ∀ f ∈ e.stack, f.Lockless := by
  cases e <;> simp [Entry.stack, Frame.Lockless]

/-- Where tids are allocated in one step, a thread only gets to a lock by a call. -/
theorem lockless_step (ha : cfg.atomicTid = true) (hc : k.cur < k.nextThread)
    (hl : ∀ c, lab = .call c → c.frame.Lockless) (hb : k.sync.Unborn)
    (hf : ∀ u, ∀ f ∈ k.stack u, f.Lockless) (h : step cfg fuel k lab = some k') :
    ∀ u, ∀ f ∈ k'.stack u, f.Lockless := by
  by_cases hcreate : ∃ p e n r fs, lab = .run ∧ k.stack k.cur = .threadCreateLink p e n r :: fs
  · obtain ⟨p, en, n, r, fs, rfl, e⟩ := hcreate
    have hfs : ∀ f ∈ fs, f.Lockless := fun f hm => hf k.cur f (e ▸ .tail _ hm)
    rw [step, e] at h
    simp only [exec, ha, if_true] at h
    cases h
    intro u f hu
    obtain rfl | huc := eq_or_ne u k.cur
    · have hu : f = .threadCreateTid k.nextThread k.nextTid ∨ f ∈ fs := by
        simpa [linkThread, popFrame, hc.ne] using hu
      rcases hu with rfl | hu
      · trivial
      · exact hfs f hu
    · obtain rfl | hun := eq_or_ne u k.nextThread
      · have hu : f ∈ en.stack := by simpa [linkThread, popFrame, huc] using hu
        exact en.lockless f hu
      · have hu : f ∈ k.stack u := by simpa [linkThread, popFrame, huc, hun] using hu
        exact hf u f hu
  · -- the other frames are moves of the synchronization machine
    obtain ⟨hs, -⟩ := step_syncStep hc h
    have hput : ∀ {s₁ : Sync} {gs : List Frame}, (∀ g ∈ gs, g.Lockless) →
        (∀ u, u ≠ k.cur → s₁.stack u = k.stack u) →
        ∀ u, ∀ f ∈ (s₁.setStack k.cur gs).stack u, f.Lockless := by
      intro s₁ gs hg ho u f hu
      obtain rfl | huc := eq_or_ne u k.cur
      · exact hg f (by simpa using hu)
      · exact hf u f (ho u huc ▸ (by simpa [huc] using hu))
    show ∀ u, ∀ f ∈ k'.sync.stack u, f.Lockless
    generalize k'.sync = s₁ at hs
    cases hs with
    | @call c e => exact hput (by simpa using hl c rfl) fun _ _ => rfl
    | @interrupt _ fs' _ _ hi hh =>
        refine hput (hi.lockless (hf k.cur)) fun u _ => ?_
        cases hh <;> rfl
    | @run f fs gs s₁ e hm =>
        have hmem : ∀ g ∈ f :: fs, g.Lockless := e ▸ hf k.cur
        obtain ⟨hft, hfs⟩ := List.forall_mem_cons.mp hmem
        have hne : ∀ p e n r, f ≠ .threadCreateLink p e n r := by
          rintro p en n r rfl
          exact hcreate ⟨p, en, n, r, fs, rfl, e⟩
        obtain ⟨ht, ho⟩ := hm.stack_run hb e
        refine hput (fun g hg => ?_) fun u hu => ?_
        · rcases List.mem_append.mp hg with hg | hg
          · exact hm.lockless hft hne g hg
          · exact hfs g (ht ▸ hg)
        · refine (ho u hu).resolve_right ?_
          rintro ⟨p, en, n, r, hl, -⟩
          exact hne p en n r hl

/-- **A run without lock operations** has no frame of one. -/
theorem Reachable.lockless {ok : Kernel → Label → Prop} (ha : cfg.atomicTid = true)
    (hc : ∀ k c, ok k (.call c) → c.frame.Lockless) (h : Reachable cfg ok k) :
    ∀ u, ∀ f ∈ k.stack u, f.Lockless := by
  induction h with
  | refl =>
      intro u f hf
      rcases boot_stack hf with rfl | rfl <;> trivial
  | tail hr hn ih =>
      obtain ⟨lab, fuel, hok, h⟩ := hn
      exact lockless_step ha (Reachable.anySync hr).2 (fun c e => hc _ c (e ▸ hok))
        (Reachable.control hr).inv.unborn ih h

/-- **The steps of a run without lock operations are tame**, if its threads unblock directly only
threads that have blocked themselves, and in the MLFQS set priorities in range. -/
theorem Reachable.tame {ok : Kernel → Label → Prop} (ha : cfg.atomicTid = true)
    (hc : ∀ k c, ok k (.call c) → c.frame.Lockless)
    (hu : ∀ k t fs, ok k .run → k.stack k.cur = .threadUnblock t :: fs →
      ∃ gs, k.stack t = .threadBlockReturn :: gs)
    (hp : cfg.mlfqs = true → ∀ k p, ok k (.call (.threadSetPriority p)) → PriorityOk p)
    (hr : Reachable cfg ok k) (hok : ok k lab) : Tame cfg srt k lab := by
  cases lab with
  | run =>
      intro f fs e
      have hf : f ∈ k.stack k.cur := by
        rw [e]
        exact .head _
      have hl := hr.lockless ha hc k.cur f hf
      cases f with
      | threadUnblock t => exact hu k t fs hok e
      | threadSetPriority p =>
          intro hm
          obtain ⟨hs, -⟩ : Sync.Reachable cfg (fun c => ∃ k, ok k (.call c)) k.sync ∧ _ :=
            Reachable.sync (fun k c h => ⟨k, h⟩) hr
          exact hs.ranged (S := True) (fun p ⟨k, h⟩ _ => hp hm k p h) k.cur _ hf trivial
      | lockAcquireBody l => exact hl.elim
      | _ => trivial
  | _ => trivial

/-- No thread is unblocked directly, no priority is set, no thread sleeps for too long, and whoever
waits for a lock does so alone and donates nothing. -/
def Label.peaceful (k : Kernel) : Label → Bool
  | .run =>
      match k.stack k.cur with
      | .lockAcquireBody l :: _ => (k.lockHolder l).all fun h =>
          k.elems.listEmpty (.lockWaiters l) && (k.thr k.cur).priority ≤ (k.thr h).priority
      | .threadUnblock _ :: _ | .threadSetPriority _ :: _ => false
      | .timerSleepBody start n :: _ => start + n < 2 ^ 63
      | _ => true
  | _ => true

theorem KeepsQueues.of_le {h : ThreadPtr} (hp : (k.thr k.cur).priority ≤ (k.thr h).priority) :
    KeepsQueues cfg k h := by
  have hr : ∀ u, ¬ Raises k (k.thr k.cur).priority u h := by
    intro u hr
    cases hr with
    | here hlt | next hlt => exact absurd hlt (not_lt.mpr hp)
  exact ⟨fun _ a u hu => absurd hu (hr u), fun _ u hu => absurd hu (hr u)⟩

theorem Label.peaceful.tame (h : lab.peaceful k = true) : Tame cfg srt k lab := by
  cases lab with
  | run =>
      intro f fs e
      simp only [Label.peaceful, e] at h
      cases f with
      | threadUnblock | threadSetPriority => cases h
      | lockAcquireBody l =>
          intro t ht
          dsimp only at h
          rw [ht, Option.all_some, Bool.and_eq_true] at h
          exact ⟨h.1, fun _ => .of_le (of_decide_eq_true h.2)⟩
      | _ => trivial
  | _ => trivial

end Pintos
