/-
PintosThreads/CallStacks.lean

Which frames can stand on which.  A frame that waits for a call to return
`Awaits` a function; only a frame that is a point of that function (`Runs`),
or the return from an interrupt, can stand directly above it.  The rule is
local (`Over`), it is kept by every step of every interleaving
(`Sync.Step.stacked`), and it says what the rest of a thread's stack can be
while a given frame is executed.
-/
import PintosThreads.SyncSim

namespace Pintos

/-! ### Functions and their frames -/

/-- A function that a frame can be waiting for. -/
inductive Callee
  | user
  | yield
  | preempt
  | down (p : SemaPtr)
  | up (p : SemaPtr)
  | acquire (l : LockPtr)
  | release
  | signal
  | create
  | start

namespace Frame

/-- The frames of `lock_acquire`. -/
inductive Acquires (l : LockPtr) : Frame → Prop
  | lockAcquire : Acquires l (lockAcquire l)
  | lockAcquireBody : Acquires l (lockAcquireBody l)
  | lockAcquireFree {old} : Acquires l (lockAcquireFree l old)
  | lockAcquireHeld : Acquires l (lockAcquireHeld l)

/-- The frames of `lock_release`. -/
inductive Releases : Frame → Prop
  | lockRelease {l} : Releases (lockRelease l)
  | lockReleaseBody {l} : Releases (lockReleaseBody l)
  | lockReleaseRefresh {old} : Releases (lockReleaseRefresh old)

/-- The frames of `cond_signal` before its preemption check. -/
inductive Signals : Frame → Prop
  | condSignal {c l} : Signals (condSignal c l)
  | condSignalFirst {c} : Signals (condSignalFirst c)
  | condSignalMax {c m es} : Signals (condSignalMax c m es)
  | condSignalRemove {c m} : Signals (condSignalRemove c m)
  | semaUp {w} : Signals (semaUp (.ofWaiter w))

/-- The frames of `thread_create` before its preemption check. -/
inductive Creates : Frame → Prop
  | threadCreate {p e} : Creates (threadCreate p e)
  | threadCreateLink {p e n r} : Creates (threadCreateLink p e n r)
  | allocateTidRead {t} : Creates (allocateTidRead t)
  | allocateTidWrite {t tid} : Creates (allocateTidWrite t tid)
  | threadCreateTid {t tid} : Creates (threadCreateTid t tid)
  | threadCreateUnblock {t} : Creates (threadCreateUnblock t)

/-- The frames of calls that only the kernel itself makes. -/
inductive Inner : Frame → Prop
  | semaDownLock {l} : Inner (semaDown (.ofLock l))
  | semaDownWaitLock {l old} : Inner (semaDownWait (.ofLock l) old)
  | semaUpLock {l} : Inner (semaUp (.ofLock l))
  | semaDownWaiter {w} : Inner (semaDown (.ofWaiter w))
  | semaDownWaitWaiter {w old} : Inner (semaDownWait (.ofWaiter w) old)
  | semaTryDownLock {l} : Inner (semaTryDown (.ofLock l))
  | semaTryDownWaiter {w} : Inner (semaTryDown (.ofWaiter w))

/-- The points of a function. -/
def Runs (f : Frame) : Callee → Prop
  | .user => ¬ f.Inner
  | .yield => f = .threadYield
  | .preempt => f.Preempts
  | .down p => f.Downs p
  | .up p => f = .semaUp p ∨ f.Preempts
  | .acquire l => f.Acquires l
  | .release => f.Releases
  | .signal => f.Signals ∨ f.Preempts
  | .create => f.Creates ∨ f.Preempts
  | .start => f = .kernelThread

end Frame

/-- The function that the frame below waits for; `none` is the bottom of a
stack. -/
inductive Awaits : Option Frame → Callee → Prop
  | user : Awaits none .user
  | intrSetLevel {old} : Awaits (some (.intrSetLevel old)) .yield
  | lockAcquireFree {l old} : Awaits (some (.lockAcquireFree l old)) (.down (.ofLock l))
  | lockAcquireHeld {l} : Awaits (some (.lockAcquireHeld l)) (.down (.ofLock l))
  | lockReleaseRefresh {l old} : Awaits (some (.lockReleaseRefresh old)) (.up (.ofLock l))
  | semaDown {w} : Awaits (some (.semaDown (.ofWaiter w))) .release
  | lockAcquire {l w} : Awaits (some (.lockAcquire l)) (.down (.ofWaiter w))
  | checkPreemption {l} : Awaits (some .checkPreemption) (.acquire l)
  | condWaitReturn {c w} : Awaits (some (.condWaitReturn c w)) .preempt
  | condBroadcast {c l} : Awaits (some (.condBroadcast c l)) .signal
  | allocateTidRead {t} : Awaits (some (.allocateTidRead t)) (.acquire .tidLock)
  | threadCreateTid {t tid} : Awaits (some (.threadCreateTid t tid)) .release
  | threadStart : Awaits (some .threadStart) .create
  | idle : Awaits (some .idle) .start
  | idleLoop : Awaits (some .idleLoop) (.up .idleStarted)

/-- Frame `f` may stand directly above `o`. -/
def Over (f : Frame) (o : Option Frame) : Prop :=
  (∃ old, f = .intrSetLevel old) ∨ ∃ π, Awaits o π ∧ f.Runs π

/-- Every frame stands on one that it may stand on. -/
def Stacked : List Frame → Prop
  | [] => True
  | f :: fs => Over f fs.head? ∧ Stacked fs

/-- The frames `gs` may be put above a frame that waits for `π`. -/
def Serves (π : Callee) : List Frame → Prop
  | [] => True
  | [g] => (∃ old, g = .intrSetLevel old) ∨ g.Runs π
  | g :: g' :: gs => Over g (some g') ∧ Serves π (g' :: gs)

/-! ### Moves -/

theorem Frame.Preempts.not_inner {f : Frame} (h : f.Preempts) : ¬ f.Inner := by
  cases h <;> exact nofun

theorem Frame.Checks.runs {f g : Frame} {π : Callee} (hf : f.Checks) (hg : g.Preempts)
    (h : f.Runs π) : g.Runs π := by
  obtain ⟨hf, hy⟩ := hf
  cases π with
  | user => exact hg.not_inner
  | yield => exact absurd h hy
  | preempt => exact hg
  | up => exact .inr hg
  | signal => exact .inr hg
  | create => exact .inr hg
  | down | acquire | release | start => cases hf <;> cases h

theorem Over.level {old : Bool} (o : Option Frame) : Over (.intrSetLevel old) o :=
  .inl ⟨old, rfl⟩

/-- Control that goes on locally goes on for the same caller. -/
theorem Local.serves {f : Frame} {gs : List Frame} {π : Callee} (h : Local f gs)
    (hf : f.Runs π) : Serves π gs := by
  cases h with
  | preempt hc hg => exact .inr (hc.runs hg hf)
  | threadYield | lockReleaseRefresh => exact .inl ⟨_, rfl⟩
  | lockReleaseYield => exact ⟨.inr ⟨_, .intrSetLevel, rfl⟩, .inl ⟨_, rfl⟩⟩
  | threadCreateUnblock hg =>
      cases π with
      | user => exact .inr hg.not_inner
      | create => exact .inr (.inr hg)
      | yield | preempt | down | acquire | release | start => cases hf
      | up | signal => exact hf.elim nofun nofun
  | threadCreate | allocateTidRead | threadCreateTid =>
      cases π with
      | user => exact .inr nofun
      | create => exact .inr (.inl (by constructor))
      | yield | preempt | down | acquire | release | start => cases hf
      | up | signal => exact hf.elim nofun nofun
  | allocateTidWrite =>
      refine ⟨.inr ⟨_, .threadCreateTid, .lockRelease⟩, .inr ?_⟩
      cases π with
      | user => exact nofun
      | create => exact .inl .threadCreateTid
      | yield | preempt | down | acquire | release | start => cases hf
      | up | signal => exact hf.elim nofun nofun
  | preemptEnd | intrSetLevel | threadBlockReturn | threadUnblock | threadExit | kernelThread
  | timerSleepNone | timerSleepReturn | condWaitReturn | threadCreateFail => trivial
  | threadBlock | threadSetPriority | threadSetNice | threadSetNiceIdle | threadSetNiceUpdate
  | threadSetNiceWrite | threadStart | idleLoop | idleResume | timerSleep | timerSleepBody =>
      cases π with
      | user => exact .inr nofun
      | yield | preempt | down | acquire | release | start => cases hf
      | up | signal | create => exact hf.elim nofun nofun

/-- What goes on in place of a frame goes on for the same caller. -/
theorem Move.serves {t : ThreadPtr} {s s' : Sync} {f : Frame} {gs : List Frame} {π : Callee}
    (h : Move t s f gs s') (hf : f.Runs π) : Serves π gs := by
  cases h with
  | quiet h => exact h.serves hf
  | down | tryDown | tryDownFail | take | lockTryAcquireFail | condSignalNone
  | condBroadcastEnd => trivial
  | wait hd =>
      cases π with
      | user =>
          refine .inr fun hi => hf ?_
          cases hd with
          | semaDown => cases hi <;> constructor
          | semaDownWait => cases hi <;> constructor
      | down q =>
          obtain ⟨⟩ | ⟨⟩ := hd <;> obtain ⟨⟩ | ⟨⟩ := hf <;> exact .inr .semaDownWait
      | yield | preempt | acquire | release | start => cases hd <;> cases hf
      | up | signal | create => cases hd <;> exact hf.elim nofun nofun
  | up hg =>
      cases π with
      | user => exact .inr hg.not_inner
      | up | signal => exact .inr (.inr hg)
      | yield | preempt | down | acquire | release | start => cases hf
      | create => exact hf.elim nofun nofun
  | lockAcquire =>
      cases π with
      | user => exact .inr nofun
      | acquire =>
          cases hf
          exact .inr .lockAcquireBody
      | yield | preempt | down | release | start => cases hf
      | up | signal | create => exact hf.elim nofun nofun
  | lockAcquireFree =>
      refine ⟨.inr ⟨_, .lockAcquireFree, .semaDown⟩, .inr ?_⟩
      cases π with
      | user => exact nofun
      | acquire =>
          cases hf
          exact .lockAcquireFree
      | yield | preempt | down | release | start => cases hf
      | up | signal | create => exact hf.elim nofun nofun
  | lockAcquireHeld =>
      refine ⟨.inr ⟨_, .lockAcquireHeld, .semaDown⟩, .inr ?_⟩
      cases π with
      | user => exact nofun
      | acquire =>
          cases hf
          exact .lockAcquireHeld
      | yield | preempt | down | release | start => cases hf
      | up | signal | create => exact hf.elim nofun nofun
  | lockTryAcquire | lockTryAcquireDown =>
      cases π with
      | user => exact .inr nofun
      | yield | preempt | down | acquire | release | start => cases hf
      | up | signal | create => exact hf.elim nofun nofun
  | lockRelease =>
      cases π with
      | user => exact .inr nofun
      | release => exact .inr .lockReleaseBody
      | yield | preempt | down | acquire | start => cases hf
      | up | signal | create => exact hf.elim nofun nofun
  | lockReleaseBody =>
      refine ⟨.inr ⟨_, .lockReleaseRefresh, .inl rfl⟩, .inr ?_⟩
      cases π with
      | user => exact nofun
      | release => exact .lockReleaseRefresh
      | yield | preempt | down | acquire | start => cases hf
      | up | signal | create => exact hf.elim nofun nofun
  | condWait =>
      refine ⟨.inr ⟨_, .semaDown, .lockRelease⟩, .inr ⟨_, .lockAcquire, .semaDown⟩,
        .inr ⟨_, .checkPreemption, .lockAcquire⟩,
        .inr ⟨_, .condWaitReturn, .checkPreemption⟩, .inr ?_⟩
      cases π with
      | user => exact nofun
      | yield | preempt | down | acquire | release | start => cases hf
      | up | signal | create => exact hf.elim nofun nofun
  | condSignal | condSignalFirst | condSignalMax | condSignalFound | condSignalRemove =>
      cases π with
      | user => exact .inr nofun
      | signal => exact .inr (.inl (by constructor))
      | yield | preempt | down | acquire | release | start => cases hf
      | up | create => exact hf.elim nofun nofun
  | condBroadcast =>
      refine ⟨.inr ⟨_, .condBroadcast, .inl .condSignal⟩, .inr ?_⟩
      cases π with
      | user => exact nofun
      | yield | preempt | down | acquire | release | start => cases hf
      | up | signal | create => exact hf.elim nofun nofun
  | createAtomic =>
      cases π with
      | user => exact .inr nofun
      | create => exact .inr (.inl .threadCreateTid)
      | yield | preempt | down | acquire | release | start => cases hf
      | up | signal => exact hf.elim nofun nofun
  | create =>
      refine ⟨.inr ⟨_, .allocateTidRead, .lockAcquire⟩, .inr ?_⟩
      cases π with
      | user => exact nofun
      | create => exact .inl .allocateTidRead
      | yield | preempt | down | acquire | release | start => cases hf
      | up | signal => exact hf.elim nofun nofun
  | idle =>
      refine ⟨.inr ⟨_, .idleLoop, .inl rfl⟩, .inr ?_⟩
      cases π with
      | user => exact nofun
      | yield | preempt | down | acquire | release | start => cases hf
      | up | signal | create => exact hf.elim nofun nofun

/-! ### Stacks -/

theorem Serves.stacked {π : Callee} {fs : List Frame} (hfs : Stacked fs)
    (ho : Awaits fs.head? π) : ∀ {gs : List Frame}, Serves π gs → Stacked (gs ++ fs)
  | [], _ => hfs
  | [_], h => ⟨h.imp id fun h => ⟨π, ho, h⟩, hfs⟩
  | _ :: _ :: _, h => ⟨h.1, Serves.stacked hfs ho h.2⟩

theorem Move.of_level {t : ThreadPtr} {s s' : Sync} {old : Bool} {gs : List Frame}
    (h : Move t s (.intrSetLevel old) gs s') : gs = [] ∧ s' = s := by
  cases h with
  | quiet h =>
      cases h with
      | preempt hc => cases hc.1
      | preemptEnd => exact ⟨rfl, rfl⟩
      | intrSetLevel => exact ⟨rfl, rfl⟩
  | down hd | wait hd => cases hd
  | take ht => cases ht

/-- A step of a frame keeps the stack in order. -/
theorem Move.stacked {t : ThreadPtr} {s s' : Sync} {f : Frame} {fs gs : List Frame}
    (h : Move t s f gs s') (hs : Stacked (f :: fs)) : Stacked (gs ++ fs) := by
  obtain ⟨⟨old, rfl⟩ | ⟨π, ho, hf⟩, hfs⟩ := hs
  · obtain ⟨rfl, -⟩ := h.of_level
    exact hfs
  · exact (h.serves hf).stacked hfs ho

/-- A frame that waits for nothing has only a yield or the return from an
interrupt above it. -/
theorem Stacked.yields_of_mem {f x : Frame} {fs : List Frame} (h : Stacked (f :: fs))
    (hx : x ∈ fs) (hl : ∀ π, ¬ Awaits (some x) π) :
    f = .threadYield ∨ ∃ old, f = .intrSetLevel old := by
  induction fs generalizing f with
  | nil => cases hx
  | cons g fs ih =>
      obtain ⟨ho, hfs⟩ := h
      obtain ho | ⟨π, ho, hf⟩ := ho
      · exact .inr ho
      · rcases List.mem_cons.mp hx with rfl | hx
        · exact absurd ho (hl π)
        · obtain rfl | ⟨old, rfl⟩ := ih hfs hx
          · cases ho
          · cases ho
            exact .inl hf

/-- The frames that can be above a frame of `thread_create`. -/
inductive Frame.InCreate : Frame → Prop
  | acquires {l f} : f.Acquires l → InCreate f
  | releases {f} : f.Releases → InCreate f
  | downs {p f} : f.Downs p → InCreate f
  | semaUp {p} : InCreate (.semaUp p)
  | preempts {f} : f.Preempts → InCreate f
  | intrSetLevel {old} : InCreate (.intrSetLevel old)

theorem Frame.Runs.inCreate {f : Frame} {π : Callee} (h : f.Runs π)
    (hπ : match π with | .user | .signal | .create | .start => False | _ => True) :
    f.InCreate := by
  cases π with
  | yield =>
      cases h
      exact .preempts .threadYield
  | preempt => exact .preempts h
  | down => exact .downs h
  | up =>
      obtain rfl | h := h
      · exact .semaUp
      · exact .preempts h
  | acquire => exact .acquires h
  | release => exact .releases h
  | user | signal | create | start => exact hπ.elim

/-- A stack has at most one frame of `thread_create`. -/
theorem Stacked.inCreate_of_mem {f x : Frame} {fs : List Frame} (h : Stacked (f :: fs))
    (hx : x ∈ fs) (hc : x.Creates) : f.InCreate := by
  induction fs generalizing f with
  | nil => cases hx
  | cons g fs ih =>
      obtain ⟨⟨old, rfl⟩ | ⟨π, ho, hf⟩, hfs⟩ := h
      · exact .intrSetLevel
      · refine hf.inCreate ?_
        rcases List.mem_cons.mp hx with rfl | hx
        · cases hc <;> cases ho
          all_goals trivial
        · obtain hg | hg | hg | - | hg | - := ih hfs hx
          · cases hg <;> cases ho
            all_goals trivial
          · cases hg <;> cases ho
            trivial
          · cases hg <;> cases ho
            trivial
          · cases ho
          · cases hg <;> cases ho
            trivial
          · cases ho
            trivial

/-! ### Steps -/

theorem Move.stack_cases {t : ThreadPtr} {s s' : Sync} {f : Frame} {gs : List Frame}
    (h : Move t s f gs s') :
    (s'.stack = s.stack ∧ s'.nextThread = s.nextThread) ∨
      ∃ p e n r, f = .threadCreateLink p e n r ∧ s' = s.create e := by
  cases h with
  | createAtomic | create => exact .inr ⟨_, _, _, _, rfl, rfl⟩
  | _ => exact .inl ⟨rfl, rfl⟩

/-- The threads that have not been created have no frames. -/
def Sync.Unborn (s : Sync) : Prop :=
  ∀ u, s.nextThread ≤ u → s.stack u = []

theorem Sync.Unborn.lt {s : Sync} (hb : s.Unborn) {t : ThreadPtr} (ht : s.stack t ≠ []) :
    t < s.nextThread := by
  by_contra hlt
  exact ht (hb t (not_lt.mp hlt))

variable {okCall : Call → Prop} {t : ThreadPtr} {s s' : Sync}

/-- The stacks after thread `t` has executed its innermost frame. -/
theorem Move.stack_run {f : Frame} {fs gs : List Frame} {s₁ : Sync} (hb : s.Unborn)
    (e : s.stack t = f :: fs) (h : Move t (s.setStack t fs) f gs s₁) :
    s₁.stack t = fs ∧ ∀ u, u ≠ t → s₁.stack u = s.stack u ∨
      ∃ p e n r, f = .threadCreateLink p e n r ∧ u = s.nextThread ∧ s₁.stack u = e.stack := by
  have ht : t < s.nextThread := hb.lt (by simp [e])
  obtain ⟨hs, -⟩ | ⟨p, function, n, r, rfl, rfl⟩ := h.stack_cases
  · rw [hs]
    exact ⟨by simp, fun u hu => .inl (by simp [hu])⟩
  · refine ⟨by simp [Function.update_of_ne ht.ne], fun u hu => ?_⟩
    by_cases hn : u = s.nextThread
    · exact .inr ⟨p, function, n, r, rfl, hn, by simp [hn]⟩
    · exact .inl (by simp [hu, hn])

theorem Sync.Step.unborn (h : Sync.Step okCall t s s') (hb : s.Unborn) : s'.Unborn := by
  cases h with
  | call _ _ ht =>
      intro u hu
      have hut : u ≠ t := (ht.trans_le hu).ne'
      simpa [hut] using hb u hu
  | interrupt _ hh ht =>
      intro u hu
      have hn : s.nextThread ≤ u := by cases hh <;> exact hu
      have hut : u ≠ t := (ht.trans_le hn).ne'
      cases hh <;> simpa [hut] using hb u hn
  | @run f fs gs s₁ e h =>
      have ht : t < s.nextThread := hb.lt (by simp [e])
      intro u hu
      obtain ⟨hs, hn⟩ | ⟨p, function, n, r, rfl, rfl⟩ := h.stack_cases
      · have hu' : s.nextThread ≤ u := by simpa [hn] using hu
        have hut : u ≠ t := (ht.trans_le hu').ne'
        simpa [hut, hs] using hb u hu'
      · have hu' : s.nextThread < u := hu
        have hut : u ≠ t := (ht.trans hu').ne'
        simpa [hut, hu'.ne'] using hb u hu'.le

theorem Entry.stacked (e : Entry) : Stacked e.stack := by
  cases e with
  | user => exact ⟨.inr ⟨_, .user, nofun⟩, trivial⟩
  | idle => exact ⟨.inr ⟨_, .idle, rfl⟩, .inr ⟨_, .user, nofun⟩, trivial⟩

theorem Call.stacked (c : Call) : Stacked [c.frame] := by
  refine ⟨.inr ⟨_, .user, ?_⟩, trivial⟩
  cases c <;> exact nofun

theorem Interrupted.stacked {fs fs' : List Frame} (h : Interrupted fs fs') (hs : Stacked fs) :
    Stacked fs' := by
  have halt : ∀ fs, Stacked (.idleHalt :: fs) → Stacked (.idleLoop :: fs) := by
    rintro fs ⟨⟨old, he⟩ | ⟨π, ho, hf⟩, hfs⟩
    · cases he
    · refine ⟨.inr ⟨π, ho, ?_⟩, hfs⟩
      cases π with
      | user => exact nofun
      | yield | preempt | down | acquire | release | start => cases hf
      | up | signal | create => exact hf.elim nofun nofun
  cases h with
  | halt => exact halt _ hs
  | haltYield => exact ⟨Over.level _, halt _ hs⟩
  | none => exact hs
  | yield => exact ⟨Over.level _, hs⟩

/-- **Every step keeps the stacks in order.** -/
theorem Sync.Step.stacked (h : Sync.Step okCall t s s') (hb : s.Unborn)
    (hs : ∀ u, Stacked (s.stack u)) (u : ThreadPtr) : Stacked (s'.stack u) := by
  cases h with
  | call =>
      by_cases hu : u = t
      · subst hu
        simpa using Call.stacked _
      · simpa [hu] using hs u
  | interrupt hi hh =>
      by_cases hu : u = t
      · subst hu
        simpa using hi.stacked (hs u)
      · cases hh <;> simpa [hu] using hs u
  | @run f fs gs s₁ e h =>
      obtain ⟨ht, ho⟩ := h.stack_run hb e
      by_cases hu : u = t
      · subst hu
        simpa [ht] using h.stacked (e ▸ hs u)
      · obtain ho | ⟨p, function, n, r, -, -, ho⟩ := ho u hu
        · simpa [hu, ho] using hs u
        · simpa [hu, ho] using function.stacked

/-- A property of single frames holds of all frames after a step if it holds
of all frames before it, of the frames of a call, of a new thread and of an
interrupt, and of what goes on in place of a frame. -/
theorem Sync.Step.frames {Q Q' : ThreadPtr → Frame → Prop} (h : Sync.Step okCall t s s')
    (hb : s.Unborn) (hQ : ∀ u, ∀ f ∈ s.stack u, Q u f)
    (mono : ∀ u f, f ∈ s.stack u → f ∈ s'.stack u → Q u f → Q' u f)
    (call : ∀ c : Call, okCall c → t < s.nextThread → s.stack t = [] → Q' t c.frame)
    (move : ∀ f fs gs s₁, s.stack t = f :: fs → Move t (s.setStack t fs) f gs s₁ →
      s' = s₁.setStack t (gs ++ s₁.stack t) → Q t f → ∀ g ∈ gs, Q' t g)
    (born : ∀ p e n r, .threadCreateLink p e n r ∈ s.stack t → ∀ f ∈ e.stack, Q' s.nextThread f)
    (level : Q' t (.intrSetLevel true)) (loop : Q t .idleHalt → Q' t .idleLoop) :
    ∀ u, ∀ f ∈ s'.stack u, Q' u f := by
  intro u f hf
  have hmem := hf
  cases h with
  | call hok he ht =>
      by_cases hu : u = t
      · subst hu
        obtain rfl : f = _ := by simpa using hf
        exact call _ hok ht he
      · simp only [Sync.setStack_stack, Function.update_of_ne hu] at hf
        exact mono u f hf hmem (hQ u f hf)
  | interrupt hi hh =>
      by_cases hu : u = t
      · subst hu
        simp only [Sync.setStack_stack, Function.update_self] at hf
        generalize hfs : s.stack u = fs at hi
        have hQu : ∀ g ∈ fs, Q u g := hfs ▸ hQ u
        have hmono : f ∈ fs → Q' u f := fun hg => mono u f (hfs ▸ hg) hmem (hQu f hg)
        cases hi with
        | halt =>
            obtain rfl | hf := List.mem_cons.mp hf
            · exact loop (hQu _ (by simp))
            · exact hmono (by simp [hf])
        | haltYield =>
            obtain rfl | hf := List.mem_cons.mp hf
            · exact level
            · obtain rfl | hf := List.mem_cons.mp hf
              · exact loop (hQu _ (by simp))
              · exact hmono (by simp [hf])
        | none => exact hmono hf
        | yield =>
            obtain rfl | hf := List.mem_cons.mp hf
            · exact level
            · exact hmono hf
      · have hf' : f ∈ s.stack u := by cases hh <;> simpa [hu] using hf
        exact mono u f hf' hmem (hQ u f hf')
  | @run f' fs gs s₁ e h =>
      obtain ⟨ht, ho⟩ := h.stack_run hb e
      by_cases hu : u = t
      · subst hu
        have hf' : f ∈ gs ++ fs := by simpa [ht] using hf
        obtain hf' | hf' := List.mem_append.mp hf'
        · exact move f' fs gs s₁ e h rfl (hQ u f' (by simp [e])) f hf'
        · exact mono u f (by simp [e, hf']) hmem (hQ u f (by simp [e, hf']))
      · simp only [Sync.setStack_stack, Function.update_of_ne hu] at hf
        obtain ho | ⟨p, function, n, r, rfl, rfl, ho⟩ := ho u hu
        · rw [ho] at hf
          exact mono u f hf hmem (hQ u f hf)
        · rw [ho] at hf
          exact born p function n r (by simp [e]) f hf

end Pintos
