/-
PintosThreads/Sync.lean

The synchronization machine: what the kernel is when the scheduler is
forgotten.

A state (`Sync`) keeps the call stacks, the semaphore values, the holders of
the locks and the records queued on condition variables, and nothing about
ready queues, statuses or priorities.  Any thread may take the next step at
any time, so a run is an arbitrary interleaving.  What is proved of these runs
therefore holds for both schedulers, whatever happens to the queues.

`Move` is one frame of one thread, `Sync.Step` one step of one thread or of an
interrupt that arrives while it runs.  `SyncSim` shows that every step of the
kernel is such a step of the running thread.
-/
import PintosThreads.Machine

namespace Pintos

/-- The part of the kernel that synchronization is about.  `events` are the
recorded downs and ups of semaphores. -/
structure Sync where
  stack : ThreadPtr → List Frame
  value : SemaPtr → ℕ
  holder : LockPtr → Option ThreadPtr
  waiters : CondPtr → List WaiterPtr
  idleThread : Option ThreadPtr
  nextThread : ThreadPtr
  nextWaiter : WaiterPtr
  events : List Event

namespace Sync

@[simps]
def setStack (s : Sync) (t : ThreadPtr) (fs : List Frame) : Sync :=
  { s with stack := Function.update s.stack t fs }

@[simps]
def down (s : Sync) (agent : Option ThreadPtr) (p : SemaPtr) : Sync :=
  { s with value := Function.update s.value p (s.value p - 1)
           events := .down agent p :: s.events }

@[simps]
def up (s : Sync) (agent : Option ThreadPtr) (p : SemaPtr) : Sync :=
  { s with value := Function.update s.value p ((s.value p + 1) % 2 ^ 32)
           events := .up agent p :: s.events }

@[simps]
def setHolder (s : Sync) (l : LockPtr) (h : Option ThreadPtr) : Sync :=
  { s with holder := Function.update s.holder l h }

/-- A new record is queued on condition variable `c`. -/
@[simps]
def publish (s : Sync) (c : CondPtr) : Sync :=
  { s with value := Function.update s.value (.ofWaiter s.nextWaiter) 0
           waiters := Function.update s.waiters c (s.waiters c ++ [s.nextWaiter])
           nextWaiter := s.nextWaiter + 1 }

@[simps]
def unlink (s : Sync) (c : CondPtr) (m : WaiterPtr) : Sync :=
  { s with waiters := Function.update s.waiters c ((s.waiters c).erase m) }

/-- A new thread. -/
@[simps]
def create (s : Sync) (function : Entry) : Sync :=
  { s with stack := Function.update s.stack s.nextThread function.stack
           nextThread := s.nextThread + 1 }

@[simps]
def setIdle (s : Sync) (t : ThreadPtr) : Sync :=
  { s with idleThread := some t }

end Sync

/-! ### Frames -/

namespace Frame

/-- The frames of a preemption check. -/
inductive Preempts : Frame → Prop
  | checkPreemption : Preempts checkPreemption
  | checkPreemptionFront : Preempts checkPreemptionFront
  | checkPreemptionRead : Preempts checkPreemptionRead
  | checkPreemptionCompare {n} : Preempts (checkPreemptionCompare n)
  | mlfqsCheckPreemption {i} : Preempts (mlfqsCheckPreemption i)
  | mlfqsCheckPreemptionCompare {p} : Preempts (mlfqsCheckPreemptionCompare p)
  | threadYield : Preempts threadYield

/-- The frames of a preemption check before it has decided. -/
def Checks (f : Frame) : Prop :=
  f.Preempts ∧ f ≠ threadYield

/-- The frames of a `sema_down` on `p`. -/
inductive Downs (p : SemaPtr) : Frame → Prop
  | semaDown : Downs p (semaDown p)
  | semaDownWait {old} : Downs p (semaDownWait p old)

/-- The frames that make the running thread the holder of `l`. -/
inductive Takes (l : LockPtr) : Frame → Prop
  | lockAcquireFree {old} : Takes l (lockAcquireFree l old)
  | lockAcquireHeld : Takes l (lockAcquireHeld l)
  | lockTryAcquireHolder : Takes l (lockTryAcquireHolder l)

end Frame

/-! ### One frame -/

/-- The frames that change nothing of a `Sync` state, with the frames that go
on in their place. -/
inductive Local : Frame → List Frame → Prop
  | preempt {f g} : f.Checks → g.Preempts → Local f [g]
  | preemptEnd {f} : f.Checks → Local f []
  | threadYield {old} : Local .threadYield [.intrSetLevel old]
  | intrSetLevel {old} : Local (.intrSetLevel old) []
  | threadBlock : Local .threadBlock [.threadBlockReturn]
  | threadBlockReturn : Local .threadBlockReturn []
  | threadUnblock {t} : Local (.threadUnblock t) []
  | threadExit : Local .threadExit []
  | threadSetPriority {p} : Local (.threadSetPriority p) [.checkPreemption]
  | threadSetNice {n} : Local (.threadSetNice n) [.threadSetNiceUpdate]
  | threadSetNiceIdle : Local .threadSetNiceUpdate [.mlfqsCheckPreemption 64]
  | threadSetNiceUpdate {p} : priMin ≤ p → p ≤ priMax →
      Local .threadSetNiceUpdate [.threadSetNiceWrite p]
  | threadSetNiceWrite {p} : Local (.threadSetNiceWrite p) [.mlfqsCheckPreemption 64]
  | threadStart : Local .threadStart [.semaDown .idleStarted]
  | kernelThread : Local .kernelThread []
  | idleLoop : Local .idleLoop [.idleResume]
  | idleResume : Local .idleResume [.idleHalt]
  | timerSleepNone {n} : Local (.timerSleep n) []
  | timerSleep {n start} : Local (.timerSleep n) [.timerSleepBody start n]
  | timerSleepBody {start n old} : Local (.timerSleepBody start n) [.timerSleepReturn old]
  | timerSleepReturn {old} : Local (.timerSleepReturn old) []
  | lockReleaseYield {old} : Local (.lockReleaseRefresh old) [.threadYield, .intrSetLevel old]
  | lockReleaseRefresh {old} : Local (.lockReleaseRefresh old) [.intrSetLevel old]
  | condWaitReturn {c w} : Local (.condWaitReturn c w) []
  | threadCreate {p e n r} : priMin ≤ p → p ≤ priMax →
      Local (.threadCreate p e) [.threadCreateLink p e n r]
  | threadCreateFail {p e} : Local (.threadCreate p e) []
  | allocateTidRead {t tid} : Local (.allocateTidRead t) [.allocateTidWrite t tid]
  | allocateTidWrite {t tid} :
      Local (.allocateTidWrite t tid) [.lockRelease .tidLock, .threadCreateTid t tid]
  | threadCreateTid {t tid} : Local (.threadCreateTid t tid) [.threadCreateUnblock t]
  | threadCreateUnblock {t g} : g.Preempts → Local (.threadCreateUnblock t) [g]

/-- `Move t s f gs s'`: thread `t` executes frame `f` in state `s`, which
becomes `s'`, and frames `gs` go on in its place. -/
inductive Move (t : ThreadPtr) (s : Sync) : Frame → List Frame → Sync → Prop
  | quiet {f gs} : Local f gs → Move t s f gs s
  | down {f p} : f.Downs p → s.value p ≠ 0 → Move t s f [] (s.down (some t) p)
  | wait {f p old} : f.Downs p → s.value p = 0 → Move t s f [.semaDownWait p old] s
  | tryDown {p} : s.value p ≠ 0 → Move t s (.semaTryDown p) [] (s.down (some t) p)
  | tryDownFail {p} : Move t s (.semaTryDown p) [] s
  | up {p g} : g.Preempts → Move t s (.semaUp p) [g] (s.up (some t) p)
  | lockAcquire {l} : s.holder l ≠ some t →
      Move t s (.lockAcquire l) [.lockAcquireBody l] s
  | lockAcquireFree {l old} : s.holder l = none →
      Move t s (.lockAcquireBody l) [.semaDown (.ofLock l), .lockAcquireFree l old] s
  | lockAcquireHeld {l h} : s.holder l = some h →
      Move t s (.lockAcquireBody l) [.semaDown (.ofLock l), .lockAcquireHeld l] s
  | take {f l} : f.Takes l → Move t s f [] (s.setHolder l (some t))
  | lockTryAcquire {l} : s.holder l ≠ some t →
      Move t s (.lockTryAcquire l) [.lockTryAcquireDown l] s
  | lockTryAcquireDown {l} : s.value (.ofLock l) ≠ 0 →
      Move t s (.lockTryAcquireDown l) [.lockTryAcquireHolder l] (s.down (some t) (.ofLock l))
  | lockTryAcquireFail {l} : Move t s (.lockTryAcquireDown l) [] s
  | lockRelease {l} : s.holder l = some t → Move t s (.lockRelease l) [.lockReleaseBody l] s
  | lockReleaseBody {l old} :
      Move t s (.lockReleaseBody l) [.semaUp (.ofLock l), .lockReleaseRefresh old]
        (s.setHolder l none)
  | condWait {c l} : s.holder l = some t →
      Move t s (.condWait c l)
        [.lockRelease l, .semaDown (.ofWaiter s.nextWaiter), .lockAcquire l, .checkPreemption,
          .condWaitReturn c s.nextWaiter] (s.publish c)
  | condSignal {c l} : s.holder l = some t → Move t s (.condSignal c l) [.condSignalFirst c] s
  | condSignalNone {c} : s.waiters c = [] → Move t s (.condSignalFirst c) [] s
  | condSignalFirst {c m es} : s.waiters c = m :: es →
      Move t s (.condSignalFirst c) [.condSignalMax c m es] s
  | condSignalMax {c m m' e es} : m' = m ∨ m' = e →
      Move t s (.condSignalMax c m (e :: es)) [.condSignalMax c m' es] s
  | condSignalFound {c m} : Move t s (.condSignalMax c m []) [.condSignalRemove c m] s
  | condSignalRemove {c m} :
      Move t s (.condSignalRemove c m) [.semaUp (.ofWaiter m)] (s.unlink c m)
  | condBroadcastEnd {c l} : Move t s (.condBroadcast c l) [] s
  | condBroadcast {c l} :
      Move t s (.condBroadcast c l) [.condSignal c l, .condBroadcast c l] s
  | createAtomic {p e n r tid} :
      Move t s (.threadCreateLink p e n r) [.threadCreateTid s.nextThread tid] (s.create e)
  | create {p e n r} :
      Move t s (.threadCreateLink p e n r)
        [.lockAcquire .tidLock, .allocateTidRead s.nextThread] (s.create e)
  | idle : Move t s .idle [.semaUp .idleStarted, .idleLoop] (s.setIdle t)

/-! ### One step -/

/-- What an interrupt leaves of the interrupted thread's stack: a halt is
over, and a yield may have been requested. -/
inductive Interrupted : List Frame → List Frame → Prop
  | halt {fs} : Interrupted (.idleHalt :: fs) (.idleLoop :: fs)
  | haltYield {fs} : Interrupted (.idleHalt :: fs) (.intrSetLevel true :: .idleLoop :: fs)
  | none {fs} : Interrupted fs fs
  | yield {fs} : Interrupted fs (.intrSetLevel true :: fs)

/-- What the handler of an interrupt does. -/
inductive Handler (s : Sync) : Sync → Prop
  | quiet : Handler s s
  | up {n} : Handler s (s.up none (.user n))
  | down {n} : s.value (.user n) ≠ 0 → Handler s (s.down none (.user n))

/-- A step while thread `t` runs.  The calls of the threads' own code meet
`okCall`. -/
inductive Sync.Step (okCall : Call → Prop) (t : ThreadPtr) (s : Sync) : Sync → Prop
  | call {c : Call} : okCall c → s.stack t = [] → t < s.nextThread →
      Step okCall t s (s.setStack t [c.frame])
  | run {f fs gs s'} : s.stack t = f :: fs → Move t (s.setStack t fs) f gs s' →
      Step okCall t s (s'.setStack t (gs ++ s'.stack t))
  | interrupt {fs' s'} : Interrupted (s.stack t) fs' → Handler s s' → t < s.nextThread →
      Step okCall t s (s'.setStack t fs')

end Pintos
