/-
PintosThreads/ControlFrames.lean

What a step does to the interrupt level.

A function that turns interrupts off keeps the old level in a local and
restores it before it returns.  What the locals on a stack will do to the level
is a function of the frames (`returnLevel`): the level at which the code below
them goes on.  A thread that is switched away from goes on with interrupts off
(`Kernel.level`), because `schedule` is only entered so.  Executing a frame
leaves the level at which the code below it goes on as it was (`exec_resumes`),
and so does the handler of an interrupt (`handler_control`).
-/
import PintosThreads.DispatchOrder
import PintosThreads.TimerPriorities

namespace Pintos

open Intrusive

variable {cfg : Config} {fuel : ℕ} {ok : Kernel → Label → Prop} {k k₁ k₂ k' : Kernel}
variable {t u : ThreadPtr}

/-! ### Functions that leave control alone -/

/-- The tick count and the load average. -/
def Kernel.numbers (k : Kernel) : ℤ × ℤ :=
  (k.ticks, k.loadAvg)

/-- The stacks, the running thread, the level and the numbers are as they were. -/
structure SameControl (k k' : Kernel) : Prop where
  stack : k'.stack = k.stack
  cur : k'.cur = k.cur
  intrOn : k'.intrOn = k.intrOn
  numbers : k'.numbers = k.numbers

namespace SameControl

theorem refl (k : Kernel) : SameControl k k :=
  ⟨rfl, rfl, rfl, rfl⟩

theorem trans (h : SameControl k k₁) (h' : SameControl k₁ k') : SameControl k k' :=
  ⟨h'.stack.trans h.stack, h'.cur.trans h.cur, h'.intrOn.trans h.intrOn,
    h'.numbers.trans h.numbers⟩

theorem modify (k : Kernel) (t : ThreadPtr) (f : Thread → Thread) : SameControl k (k.modify t f) :=
  ⟨rfl, rfl, rfl, rfl⟩

theorem setElems (k : Kernel) (e : Links ListPtr ThreadPtr) : SameControl k (k.setElems e) :=
  ⟨rfl, rfl, rfl, rfl⟩

end SameControl

theorem insertByPriority_sameControl {l : ListPtr} (h : insertByPriority cfg fuel k l t = some k') :
    SameControl k k' := by
  obtain ⟨e, rfl⟩ := insertByPriority_eq h
  exact .setElems k e

theorem mlfqsInsert_sameControl (h : mlfqsInsert k t = some k') : SameControl k k' := by
  obtain ⟨e, rfl⟩ := mlfqsInsert_eq h
  exact ⟨rfl, rfl, rfl, rfl⟩

theorem mlfqsUpdatePriority_sameControl (k : Kernel) (t : ThreadPtr) :
    SameControl k (mlfqsUpdatePriority k t) := by
  rw [mlfqsUpdatePriority]
  split
  · exact .refl k
  · exact .modify k t _

theorem threadUnblock_sameControl (h : threadUnblock cfg fuel k t = some k') : SameControl k k' := by
  rw [threadUnblock] at h
  split at h
  case isFalse => cases h
  have hw : SameControl k
      ((k.modify t fun th => { th with status := .ready }).record (.unblock t)) := ⟨rfl, rfl, rfl, rfl⟩
  refine hw.trans ?_
  dsimp only at h
  split at h
  · exact (mlfqsUpdatePriority_sameControl _ t).trans (mlfqsInsert_sameControl h)
  · exact insertByPriority_sameControl h

theorem yieldInsert_sameControl (h : yieldInsert cfg fuel k = some k') : SameControl k k' := by
  rw [yieldInsert] at h
  split at h
  · cases h
    exact .refl k
  · split at h
    · exact mlfqsInsert_sameControl h
    · exact insertByPriority_sameControl h

theorem donatePriority_sameControl : ∀ (fuel : ℕ) {k k' : Kernel} {f t : ThreadPtr},
    donatePriority fuel k f t = some k' → SameControl k k'
  | 0, _, _, _, _, h => nomatch h
  | fuel + 1, k, k', f, t, h => by
      rw [donatePriority] at h
      split at h
      · dsimp only at h
        have hm : SameControl k (k.modify t fun th => { th with priority := (k.thr f).priority }) :=
          .modify k t _
        refine hm.trans ?_
        split at h
        · exact donatePriority_sameControl fuel h
        · cases h
          exact .refl _
      · cases h
        exact .refl k

theorem refreshWaiters_sameControl {l : LockPtr} :
    ∀ (fuel : ℕ) {k k' : Kernel} {n : Node ListPtr ThreadPtr},
      refreshWaiters cfg t l fuel k n = some k' → SameControl k k'
  | 0, _, _, _, h => nomatch h
  | fuel + 1, k, k', n, h => by
      rw [refreshWaiters] at h
      split at h
      · cases h
        exact .refl k
      · obtain ⟨n', -, h⟩ := Option.bind_eq_some_iff.mp h
        refine SameControl.trans ?_ (refreshWaiters_sameControl fuel h)
        split
        · exact .modify k t _
        · exact .refl k

theorem refreshLock_sameControl {l : LockPtr} (h : refreshLock cfg fuel t k l = some k') :
    SameControl k k' := by
  rw [refreshLock] at h
  split at h
  · cases h
    exact .refl k
  · obtain ⟨n, -, h⟩ := Option.bind_eq_some_iff.mp h
    exact refreshWaiters_sameControl fuel h

theorem refreshLocks_sameControl : ∀ (fuel' : ℕ) {k k' : Kernel} {n : Node ThreadPtr LockPtr},
    refreshLocks cfg fuel t fuel' k n = some k' → SameControl k k'
  | 0, _, _, _, h => nomatch h
  | fuel' + 1, k, k', .item l, h => by
      obtain ⟨k₁, h₁, h⟩ := Option.bind_eq_some_iff.mp h
      obtain ⟨n, -, h⟩ := Option.bind_eq_some_iff.mp h
      exact (refreshLock_sameControl h₁).trans (refreshLocks_sameControl fuel' h)
  | fuel' + 1, k, k', .head u, h => by
      simp [refreshLocks] at h
  | fuel' + 1, k, k', .tail u, h => by
      obtain ⟨-, rfl⟩ := by simpa [refreshLocks] using h
      exact .refl k

theorem refreshPriority_sameControl (h : refreshPriority cfg fuel k t = some k') : SameControl k k' := by
  obtain ⟨n, -, h⟩ := Option.bind_eq_some_iff.mp h
  exact SameControl.trans (.modify k t _) (refreshLocks_sameControl fuel h)

theorem semaWake_sameControl {p : SemaPtr} (h : semaWake cfg fuel k p = some k') : SameControl k k' := by
  rw [semaWake] at h
  split at h
  · cases h
    exact .refl k
  · obtain ⟨⟨t, e⟩, -, h⟩ := Option.bind_eq_some_iff.mp h
    exact SameControl.trans (.setElems k e) (threadUnblock_sameControl h)

theorem waitForLock_sameControl {l : LockPtr} (h : waitForLock cfg fuel k l t = some k') :
    SameControl k k' := by
  obtain ⟨k₁, h₁, h₂⟩ := Option.bind_eq_some_iff.mp h
  exact SameControl.trans (.modify k _ _)
    ((insertByPriority_sameControl h₁).trans (donatePriority_sameControl fuel h₂))

/-! ### The level below a frame -/

/-- The level at which the code below frame `f` goes on, if `f` itself goes on at level `b`. -/
def Frame.levelAfter (b : Bool) : Frame → Bool
  | semaDownWait _ old | lockAcquireFree _ old | lockReleaseRefresh old | intrSetLevel old
  | timerSleepReturn old => old
  -- a new thread starts with interrupts on, and the idle loop never returns
  | threadStart | kernelThread | idle | idleLoop | idleResume | idleHalt => true
  | threadExit => false
  | _ => b

/-- The level at which the code below the frames `gs` goes on, if the first of them goes on at
level `b`. -/
def returnLevel (b : Bool) (gs : List Frame) : Bool :=
  gs.foldl Frame.levelAfter b

@[simp]
theorem returnLevel_nil (b : Bool) : returnLevel b [] = b :=
  rfl

@[simp]
theorem returnLevel_cons (b : Bool) (f : Frame) (gs : List Frame) :
    returnLevel b (f :: gs) = returnLevel (f.levelAfter b) gs :=
  rfl

theorem returnLevel_append (b : Bool) (gs hs : List Frame) :
    returnLevel b (gs ++ hs) = returnLevel (returnLevel b gs) hs :=
  List.foldl_append ..

/-- The level at which thread `t` goes on: a thread that does not run is in `schedule`. -/
def Kernel.level (k : Kernel) (t : ThreadPtr) : Bool :=
  decide (k.cur = t) && k.intrOn

theorem Kernel.level_cur (k : Kernel) : k.level k.cur = k.intrOn := by
  simp [Kernel.level]

theorem Kernel.level_of_ne (h : k.cur ≠ t) : k.level t = false := by
  simp [Kernel.level, h]

/-- `schedule` has been entered in state `k`. -/
structure SwitchedOff (k k' : Kernel) : Prop where
  stack : k'.stack = k.stack
  intrOn : k'.intrOn = false
  numbers : k'.numbers = k.numbers

theorem SwitchedOff.level (h : SwitchedOff k k') (t : ThreadPtr) : k'.level t = false := by
  simp [Kernel.level, h.intrOn]

theorem SwitchedOff.after (h : SwitchedOff k₁ k') (h' : SameControl k k₁) : SwitchedOff k k' :=
  ⟨h.stack.trans h'.stack, h.intrOn, h.numbers.trans h'.numbers⟩

theorem schedule_switchedOff (h : schedule cfg k = some k') : SwitchedOff k k' := by
  obtain ⟨⟨n, e⟩, -, h⟩ := Option.bind_eq_some_iff.mp h
  dsimp only at h
  split at h <;> cases h
  case isTrue hg => exact ⟨rfl, hg.1, rfl⟩

theorem blockCurrent_switchedOff (h : blockCurrent cfg k = some k') :
    SwitchedOff k k' ∧ k.intrOn = false := by
  rw [blockCurrent] at h
  split at h
  case isTrue hi => exact ⟨(schedule_switchedOff h).after (.modify k _ _), hi⟩
  case isFalse => cases h

theorem yieldCurrent_switchedOff (h : yieldCurrent cfg fuel k = some k') : SwitchedOff k k' := by
  obtain ⟨k₁, h₁, h₂⟩ := Option.bind_eq_some_iff.mp h
  exact ((schedule_switchedOff h₂).after (.modify k₁ _ _)).after (yieldInsert_sameControl h₁)

/-! ### One frame -/

/-- What the execution of frame `f` does to the stack of the running thread, to the level and to
the numbers. -/
structure Resumes (k : Kernel) (f : Frame) (k' : Kernel) : Prop where
  stack : ∃ gs, k'.stack k.cur = gs ++ k.stack k.cur ∧
    returnLevel (k'.level k.cur) gs = f.levelAfter k.intrOn ∧
      (k'.cur ≠ k.cur → gs = [] → f = .threadExit)
  switched : k'.cur ≠ k.cur → k'.intrOn = false
  numbers : k'.numbers = k.numbers

theorem Resumes.of_eq {f : Frame} (gs : List Frame)
    (hs : k'.stack k.cur = gs ++ k.stack k.cur) (hc : k'.cur = k.cur)
    (hn : k'.numbers = k.numbers)
    (hl : returnLevel k'.intrOn gs = f.levelAfter k.intrOn) : Resumes k f k' := by
  refine ⟨⟨gs, hs, ?_, fun hne => absurd hc hne⟩, fun hne => absurd hc hne, hn⟩
  rw [← hc, Kernel.level_cur]
  exact hl

/-- The frame is over. -/
theorem Resumes.done {f : Frame} (h : SameControl k k')
    (hl : k.intrOn = f.levelAfter k.intrOn) : Resumes k f k' :=
  .of_eq [] (congrFun h.stack _) h.cur h.numbers (h.intrOn.trans hl)

/-- The frame is replaced by others. -/
theorem Resumes.pushes {f : Frame} {gs : List Frame} (h : SameControl k k₁)
    (hl : returnLevel k.intrOn gs = f.levelAfter k.intrOn) : Resumes k f (k₁.pushes gs) := by
  refine .of_eq gs ?_ h.cur h.numbers ?_
  · rw [Kernel.pushes_stack, h.cur, Function.update_self, h.stack]
  · rw [Kernel.pushes_intrOn, h.intrOn, hl]

theorem Resumes.push {f g : Frame} (h : SameControl k k₁)
    (hl : g.levelAfter k.intrOn = f.levelAfter k.intrOn) : Resumes k f (k₁.push g) := by
  have hp : Resumes k f (k₁.pushes [g]) := .pushes h hl
  exact hp

/-- The frame is replaced, and a switch follows. -/
theorem Resumes.switch {f : Frame} (gs : List Frame) (h : SwitchedOff k₁ k')
    (hs : k₁.stack k.cur = gs ++ k.stack k.cur) (hn : k₁.numbers = k.numbers)
    (hl : returnLevel false gs = f.levelAfter k.intrOn) (hg : gs = [] → f = .threadExit) :
    Resumes k f k' := by
  refine ⟨⟨gs, (congrFun h.stack _).trans hs, ?_, fun _ => hg⟩, fun _ => h.intrOn,
    h.numbers.trans hn⟩
  rw [h.level, hl]

theorem semaDownTest_resumes {f : Frame} {p : SemaPtr} {old : Bool} (hk : k.cur = k₁.cur)
    (hs : k.stack = k₁.stack) (hn : k.numbers = k₁.numbers)
    (hl : old = f.levelAfter k₁.intrOn) (h : semaDownTest cfg fuel k p old = some k') :
    Resumes k₁ f k' := by
  rw [semaDownTest] at h
  split at h
  case isTrue =>
    obtain ⟨k₂, h₂, h⟩ := Option.bind_eq_some_iff.mp h
    have ho := insertByPriority_sameControl h₂
    refine .switch [.semaDownWait p old] (blockCurrent_switchedOff h).1 ?_
      (ho.numbers.trans hn) hl (by rintro ⟨⟩)
    rw [Kernel.push_stack, ho.cur, ho.stack, hk, hs, Function.update_self]
    rfl
  case isFalse =>
    cases h
    exact .of_eq [] (congrFun hs _) hk hn hl

theorem semaUpBody_sameControl {p : SemaPtr} {agent : Option ThreadPtr}
    (h : semaUpBody cfg fuel k agent p = some k') : SameControl k k' := by
  obtain ⟨k₁, h₁, h⟩ := Option.bind_eq_some_iff.mp h
  cases h
  have hw := semaWake_sameControl h₁
  exact ⟨hw.stack, hw.cur, hw.intrOn, hw.numbers⟩

theorem semaTryDown_sameControl (k : Kernel) (agent : Option ThreadPtr) (p : SemaPtr) :
    SameControl k (semaTryDown k agent p).1 := by
  rw [semaTryDown]
  split <;> exact ⟨rfl, rfl, rfl, rfl⟩

theorem takeLock_sameControl {l : LockPtr} (h : takeLock k l = some k') : SameControl k k' := by
  obtain ⟨e, -, rfl⟩ := Option.map_eq_some_iff.mp h
  exact ⟨rfl, rfl, rfl, rfl⟩

theorem releaseLock_sameControl {l : LockPtr} (h : releaseLock fuel k l = some k') :
    SameControl k k' := by
  obtain ⟨_, -, h⟩ := Option.bind_eq_some_iff.mp h
  obtain ⟨_, -, h⟩ := Option.bind_eq_some_iff.mp h
  obtain ⟨_, -, h⟩ := Option.bind_eq_some_iff.mp h
  cases h
  exact ⟨rfl, rfl, rfl, rfl⟩

theorem preemptionCheck_levelAfter (cfg : Config) (b : Bool) :
    (preemptionCheck cfg).levelAfter b = b := by
  rw [preemptionCheck]
  split <;> rfl

/-- **Every frame** leaves the level at which the code below it goes on as its locals say. -/
theorem exec_resumes {f : Frame} (hc : k.cur < k.nextThread)
    (h : exec cfg fuel k f = some k') : Resumes k f k' := by
  cases f <;> simp only [exec] at h
  case semaDown p =>
    exact semaDownTest_resumes (k := k.setLevel false) rfl rfl rfl rfl h
  case semaDownWait p old => exact semaDownTest_resumes rfl rfl rfl rfl h
  case semaTryDown p =>
    cases h
    exact .done (semaTryDown_sameControl k _ p) rfl
  case semaUp p =>
    obtain ⟨k₁, h₁, rfl⟩ := Option.map_eq_some_iff.mp h
    exact .push (semaUpBody_sameControl h₁) (preemptionCheck_levelAfter cfg _)
  case lockAcquire l =>
    split at h <;> cases h
    case isFalse => exact .push (.refl k) rfl
  case lockAcquireBody l =>
    split at h
    · cases h
      exact .of_eq [.semaDown (.ofLock l), .lockAcquireFree l k.intrOn]
        (Function.update_self ..) rfl rfl rfl
    · obtain ⟨k₁, h₁, rfl⟩ := Option.map_eq_some_iff.mp h
      exact .pushes (waitForLock_sameControl h₁) rfl
  case lockAcquireFree l old =>
    obtain ⟨k₁, h₁, rfl⟩ := Option.map_eq_some_iff.mp h
    have ht := takeLock_sameControl h₁
    exact .of_eq [] (congrFun ht.stack _) ht.cur ht.numbers rfl
  case lockAcquireHeld l =>
    obtain ⟨k₁, h₁, rfl⟩ := Option.map_eq_some_iff.mp h
    exact .done ((takeLock_sameControl h₁).trans (.modify k₁ _ _)) rfl
  case lockTryAcquire l =>
    split at h <;> cases h
    case isFalse => exact .push (.refl k) rfl
  case lockTryAcquireDown l =>
    cases h
    have hd := semaTryDown_sameControl k (some k.cur) (.ofLock l)
    split
    · exact .push hd rfl
    · exact .done hd rfl
  case lockTryAcquireHolder l =>
    cases h
    exact .done ⟨rfl, rfl, rfl, rfl⟩ rfl
  case lockRelease l =>
    split at h <;> cases h
    case isTrue => exact .push (.refl k) rfl
  case lockReleaseBody l =>
    obtain ⟨k₁, h₁, rfl⟩ := Option.map_eq_some_iff.mp h
    have hr := releaseLock_sameControl h₁
    refine .of_eq [.semaUp (.ofLock l), .lockReleaseRefresh k.intrOn] ?_ hr.cur hr.numbers rfl
    rw [Kernel.setLevel_stack, Kernel.pushes_stack, hr.cur, Function.update_self, hr.stack]
  case lockReleaseRefresh old =>
    obtain ⟨k₁, h₁, rfl⟩ := Option.map_eq_some_iff.mp h
    have hr := refreshPriority_sameControl h₁
    split
    · exact .pushes hr rfl
    · exact .push hr rfl
  case condWait c l =>
    split at h <;> cases h
    case isTrue =>
      have hp : SameControl k (publishWaiter k c) := ⟨rfl, rfl, rfl, rfl⟩
      exact .pushes hp rfl
  case condWaitReturn c w =>
    cases h
    exact .done (.refl k) rfl
  case condSignal c l =>
    split at h <;> cases h
    case isTrue => exact .push (.refl k) rfl
  case condSignalFirst c =>
    split at h <;> cases h
    · exact .done (.refl k) rfl
    · exact .push (.refl k) rfl
  case condSignalMax c m es =>
    cases es with
    | nil =>
        cases h
        exact .push (.refl k) rfl
    | cons e es =>
        obtain ⟨less, -, rfl⟩ := Option.map_eq_some_iff.mp h
        exact .push (.refl k) rfl
  case condSignalRemove c m =>
    cases h
    exact .of_eq [.semaUp (.ofWaiter m)] (Function.update_self ..) rfl rfl rfl
  case condBroadcast c l =>
    split at h <;> cases h
    · exact .done (.refl k) rfl
    · exact .pushes (.refl k) rfl
  case checkPreemption =>
    cases h
    split
    · exact .done (.refl k) rfl
    · exact .push (.refl k) rfl
  case checkPreemptionFront =>
    split at h <;> cases h
    exact .push (.refl k) rfl
  case checkPreemptionRead =>
    obtain ⟨n, -, rfl⟩ := Option.map_eq_some_iff.mp h
    exact .push (.refl k) rfl
  case checkPreemptionCompare n =>
    cases h
    split
    · exact .push (.refl k) rfl
    · exact .done (.refl k) rfl
  case mlfqsCheckPreemption i =>
    cases i with
    | zero =>
        cases h
        exact .push (.refl k) rfl
    | succ i =>
        cases h
        split <;> exact .push (.refl k) rfl
  case mlfqsCheckPreemptionCompare p =>
    cases h
    split
    · exact .push (.refl k) rfl
    · exact .done (.refl k) rfl
  case threadYield =>
    exact .switch [.intrSetLevel k.intrOn] (yieldCurrent_switchedOff h) (Function.update_self ..)
      rfl rfl (by rintro ⟨⟩)
  case intrSetLevel old =>
    cases h
    exact .of_eq [] rfl rfl rfl rfl
  case threadBlock =>
    obtain ⟨hs, hi⟩ := blockCurrent_switchedOff h
    exact .switch [.threadBlockReturn] hs (Function.update_self ..) rfl hi.symm (by rintro ⟨⟩)
  case threadBlockReturn =>
    cases h
    exact .done (.refl k) rfl
  case threadUnblock t => exact .done (threadUnblock_sameControl h) rfl
  case threadExit =>
    exact .switch [] (schedule_switchedOff h) rfl rfl rfl fun _ => rfl
  case threadCreate p e =>
    split at h
    case isTrue =>
      cases h
      exact .of_eq [] rfl rfl rfl rfl
    case isFalse =>
      split at h <;> cases h
      case isTrue => exact .push (.refl k) rfl
  case threadCreateLink p e n r =>
    cases h
    have hs : (linkThread cfg k p e n r).stack k.cur = k.stack k.cur :=
      Function.update_of_ne hc.ne ..
    split
    · refine .of_eq [.threadCreateTid k.nextThread k.nextTid] ?_ rfl rfl rfl
      rw [← hs]
      exact Function.update_self ..
    · refine .of_eq [.lockAcquire .tidLock, .allocateTidRead k.nextThread] ?_ rfl rfl rfl
      rw [← hs]
      exact Function.update_self ..
  case allocateTidRead t =>
    cases h
    exact .push (.refl k) rfl
  case allocateTidWrite t tid =>
    cases h
    exact .of_eq [.lockRelease .tidLock, .threadCreateTid t tid] (Function.update_self ..) rfl rfl rfl
  case threadCreateTid t tid =>
    cases h
    exact .of_eq [.threadCreateUnblock t] (Function.update_self ..) rfl rfl rfl
  case threadCreateUnblock t =>
    obtain ⟨k₁, h₁, rfl⟩ := Option.map_eq_some_iff.mp h
    exact .push (threadUnblock_sameControl h₁) (preemptionCheck_levelAfter cfg _)
  case threadSetPriority p =>
    cases h
    exact .push (.modify k _ _) rfl
  case threadSetNice n =>
    cases h
    exact .push (.modify k _ _) rfl
  case threadSetNiceUpdate =>
    cases h
    split <;> exact .push (.refl k) rfl
  case threadSetNiceWrite p =>
    cases h
    exact .push (.modify k _ _) rfl
  case threadStart =>
    cases h
    exact .of_eq [.semaDown .idleStarted] (Function.update_self ..) rfl rfl rfl
  case kernelThread =>
    cases h
    exact .of_eq [] rfl rfl rfl rfl
  case idle =>
    cases h
    exact .of_eq [.semaUp .idleStarted, .idleLoop] (Function.update_self ..) rfl rfl rfl
  case idleLoop =>
    exact .switch [.idleResume] (blockCurrent_switchedOff h).1 (Function.update_self ..) rfl rfl
      (by rintro ⟨⟩)
  case idleResume =>
    cases h
    exact .of_eq [.idleHalt] (Function.update_self ..) rfl rfl rfl
  case idleHalt => cases h
  case timerSleep n =>
    split at h <;> cases h
    split
    · exact .done (.refl k) rfl
    · exact .push (.refl k) rfl
  case timerSleepBody start n =>
    exact .switch [.timerSleepReturn k.intrOn] (blockCurrent_switchedOff h).1
      (Function.update_self ..) rfl rfl (by rintro ⟨⟩)
  case timerSleepReturn old =>
    cases h
    exact .of_eq [] rfl rfl rfl rfl

/-- The frames of `thread_block`, `thread_exit`, `timer_sleep` and the idle loop, which the calls
below do not make. -/
def Frame.Outside : Frame → Prop
  | threadBlock | threadExit | timerSleep _ | timerSleepBody _ _ => True
  | idle | idleLoop | idleResume | idleHalt => True
  | _ => False

theorem Frame.Preempts.not_outside {f : Frame} (h : f.Preempts) : ¬ f.Outside := by
  cases h <;> exact id

theorem Move.outside {s s' : Sync} {f : Frame} {gs : List Frame} (h : Move t s f gs s')
    (hf : ¬ f.Outside) : ∀ g ∈ gs, ¬ g.Outside := by
  cases h with
  | quiet h =>
      cases h with
      | preempt _ hp | threadCreateUnblock hp => simpa using hp.not_outside
      | threadExit | timerSleep | timerSleepBody | idleLoop | idleResume => exact absurd trivial hf
      | _ => simp [Frame.Outside]
  | up hp => simpa using hp.not_outside
  | idle => exact absurd trivial hf
  | _ => simp [Frame.Outside]

/-! ### Interrupts -/

/-- The handler of an interrupt, with whether a yield has been requested. -/
def Label.handler (cfg : Config) (fuel : ℕ) (k : Kernel) : Label → Option (Kernel × Bool)
  | .timer => timerHandler cfg fuel k
  | .semaUp n => do
      let k ← semaUpBody cfg fuel ((endHalt k).setLevel false) none (.user n)
      let b ← preemptionCheckIntr cfg k
      some (k, b)
  | .semaTryDown n => some ((Pintos.semaTryDown ((endHalt k).setLevel false) none (.user n)).1, false)
  | _ => none

/-- The labels of the interrupts. -/
def Label.isInterrupt : Label → Bool
  | .timer | .semaUp _ | .semaTryDown _ => true
  | _ => false

theorem step_interrupt {lab : Label} (hl : lab.isInterrupt = true) : step cfg fuel k lab =
    if k.intrOn then (lab.handler cfg fuel k).bind fun (k, b) => interruptReturn cfg fuel k b
    else none := by
  cases lab with
  | timer => rw [step, timerInterrupt_eq, Label.handler]
  | semaUp n =>
      rw [step, semaUpInterrupt, Label.handler]
      simp only [Option.bind_eq_bind, Option.bind_assoc]
      rfl
  | semaTryDown n => rfl
  | _ => cases hl

theorem timerWakeup_sameControl {now : ℤ} : ∀ (ts : List ThreadPtr) {k k' : Kernel},
    timerWakeup cfg fuel now ts k = some k' → SameControl k k'
  | [], k, k', h => by
      cases h
      exact ⟨rfl, rfl, rfl, rfl⟩
  | t :: ts, k, k', h => by
      rw [timerWakeup] at h
      split at h
      · cases h
        exact ⟨rfl, rfl, rfl, rfl⟩
      · obtain ⟨k₁, h₁, h₂⟩ := Option.bind_eq_some_iff.mp h
        exact (threadUnblock_sameControl h₁).trans (timerWakeup_sameControl ts h₂)

theorem SameControl.foldlM {func : Kernel → ThreadPtr → Option Kernel}
    (hf : ∀ k t k', func k t = some k' → SameControl k k') (ts : List ThreadPtr)
    (h : ts.foldlM func k = some k') : SameControl k k' :=
  foldlM_rel .refl .trans hf ts h

theorem mlfqsUpdatePriorityAll_sameControl (h : mlfqsUpdatePriorityAll fuel k = some k') :
    SameControl k k' := by
  obtain ⟨k₁, h₁, h₂⟩ := Option.bind_eq_some_iff.mp h
  obtain ⟨e, -, h₂⟩ := Option.bind_eq_some_iff.mp h₂
  obtain ⟨e', ev, rfl⟩ := reinsertQueues_eq fuel h₂
  have hf : SameControl k k₁ := by
    refine .foldlM (fun k t k' h => ?_) _ h₁
    cases h
    exact mlfqsUpdatePriority_sameControl k t
  exact hf.trans ⟨rfl, rfl, rfl, rfl⟩

theorem mlfqsUpdateRcpuLa_intrOn (h : mlfqsUpdateRcpuLa fuel k = some k') :
    k'.intrOn = k.intrOn := by
  obtain ⟨k₁, h₁, h₂⟩ := Option.bind_eq_some_iff.mp h
  have hf : SameControl k k₁ := by
    refine .foldlM (fun k t k' h => ?_) _ h₁
    rw [mlfqsUpdateRecentCpu_eq] at h
    split at h
    · cases h
      exact .refl k
    · obtain ⟨c, -, rfl⟩ := Option.map_eq_some_iff.mp h
      exact .modify k t _
  obtain ⟨_, -, h₂⟩ := Option.bind_eq_some_iff.mp h₂
  obtain ⟨_, -, h₂⟩ := Option.bind_eq_some_iff.mp h₂
  obtain ⟨_, -, h₂⟩ := Option.bind_eq_some_iff.mp h₂
  cases h₂
  exact hf.intrOn

theorem timerMlfqs_intrOn {b : Bool} (h : timerMlfqs cfg fuel k = some (k', b)) :
    k'.intrOn = k.intrOn := by
  rw [timerMlfqs] at h
  split at h
  case isFalse =>
    cases h
    rfl
  obtain ⟨⟨k₁, b₁⟩, h₁, h⟩ := Option.bind_eq_some_iff.mp h
  obtain ⟨k₂, h₂, h⟩ := Option.bind_eq_some_iff.mp h
  cases h
  have hp : k₁.intrOn = k.intrOn := by
    rw [timerPriorities] at h₁
    split at h₁
    · obtain ⟨k₃, h₃, e⟩ := Option.map_eq_some_iff.mp h₁
      cases e
      exact (mlfqsUpdatePriorityAll_sameControl h₃).intrOn
    · cases h₁
      rfl
  rw [timerLoad] at h₂
  split at h₂
  · exact (mlfqsUpdateRcpuLa_intrOn h₂).trans hp
  · cases h₂
    exact hp

/-- A handler runs with interrupts off in the interrupted thread. -/
theorem handler_control {lab : Label} {b : Bool} (h : lab.handler cfg fuel k = some (k', b)) :
    k'.stack = (endHalt k).stack ∧ k'.cur = k.cur ∧ k'.intrOn = false := by
  have hc : (endHalt k).cur = k.cur := (endHalt_sync k).2.1
  cases lab with
  | timer =>
      obtain ⟨k₁, h₁, h⟩ := Option.bind_eq_some_iff.mp h
      obtain ⟨⟨k₂, b₂⟩, h₂, h⟩ := Option.bind_eq_some_iff.mp h
      cases h
      have ht : SameControl (ticked k) (threadTick cfg (ticked k)).1 := by
        simp only [threadTick]
        split <;> exact ⟨rfl, rfl, rfl, rfl⟩
      have hw := ht.trans (timerWakeup_sameControl _ h₁)
      obtain ⟨hs, hcur⟩ := timerMlfqs_sameSync h₂
      exact ⟨(congrArg Sync.stack hs).trans hw.stack, (hcur.trans hw.cur).trans hc,
        (timerMlfqs_intrOn h₂).trans hw.intrOn⟩
  | semaUp n =>
      obtain ⟨k₁, h₁, h⟩ := Option.bind_eq_some_iff.mp h
      obtain ⟨b₁, -, h⟩ := Option.bind_eq_some_iff.mp h
      cases h
      have hu := semaUpBody_sameControl h₁
      exact ⟨hu.stack, hu.cur.trans hc, hu.intrOn⟩
  | semaTryDown n =>
      cases h
      have hd := semaTryDown_sameControl ((endHalt k).setLevel false) none (.user n)
      exact ⟨hd.stack, hd.cur.trans hc, hd.intrOn⟩
  | _ => cases h

/-- The end of a halt does not change the level at which the code below goes on. -/
theorem endHalt_level (k : Kernel) {gs fs : List Frame} (h : k.stack k.cur = gs ++ fs)
    (hg : gs ≠ []) : ∃ gs', gs' ≠ [] ∧ (endHalt k).stack k.cur = gs' ++ fs ∧
      returnLevel true gs' = returnLevel true gs ∧
        ((∀ g ∈ gs, ¬ g.Outside) → ∀ g ∈ gs', ¬ g.Outside) := by
  rw [endHalt]
  split
  case h_1 e =>
    obtain ⟨g, gs, rfl⟩ := List.exists_cons_of_ne_nil hg
    rw [h, List.cons_append] at e
    obtain ⟨rfl, rfl⟩ := List.cons.inj e
    exact ⟨.idleLoop :: gs, nofun, Function.update_self .., rfl,
      fun hin => absurd trivial (hin .idleHalt List.mem_cons_self)⟩
  case h_2 => exact ⟨gs, hg, h, rfl, id⟩

/-! ### One step -/

/-- A switch leaves interrupts off. -/
theorem step_switched {lab : Label} (hc : k.cur < k.nextThread)
    (h : step cfg fuel k lab = some k') (hne : k'.cur ≠ k.cur) : k'.intrOn = false := by
  have hintr : lab.isInterrupt = true → k'.intrOn = false := by
    intro hl
    rw [step_interrupt hl] at h
    split at h
    case isFalse => cases h
    obtain ⟨⟨k₁, b⟩, h₁, h⟩ := Option.bind_eq_some_iff.mp h
    obtain ⟨-, hc₁, -⟩ := handler_control h₁
    dsimp only [interruptReturn] at h
    split at h
    · exact (yieldCurrent_switchedOff h).intrOn
    · cases h
      exact absurd hc₁ hne
  cases lab with
  | call c =>
      rw [step] at h
      split at h <;> cases h
      exact absurd rfl hne
  | run =>
      rw [step] at h
      split at h
      · cases h
      case h_2 f fs e =>
        have hr : Resumes (popFrame k fs) f k' := exec_resumes hc h
        exact hr.switched hne
  | _ => exact hintr rfl

/-- A thread that did not run before the step goes on with interrupts off. -/
theorem step_level_of_ne {lab : Label} (hc : k.cur < k.nextThread) (ht : t ≠ k.cur)
    (h : step cfg fuel k lab = some k') : k'.level t = false := by
  by_cases ht' : k'.cur = t
  · rw [← ht', Kernel.level_cur]
    exact step_switched hc h (ht' ▸ ht)
  · exact Kernel.level_of_ne ht'

end Pintos
