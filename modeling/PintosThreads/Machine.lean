/-
PintosThreads/Machine.lean

The kernel as a transition system.

`exec f k` is the step of the running thread at frame `f`, which has been
taken off its stack.  Frames of one C function follow each other in the order
of its statements: a frame that calls a function pushes the callee's first
frame above the frame where it goes on itself.

A step (`step`) is made by the running thread, which in its own code (an
empty stack) calls one of the kernel's functions with any arguments, and
otherwise executes its innermost frame; or, whenever interrupts are on, by an
interrupt.  A run (`Reachable`) starts where `thread_init` has returned and
`thread_start` is called.  A failed assertion ends it.
-/
import PintosThreads.Timer

namespace Pintos

open Intrusive

/-! ### The functions a thread calls -/

/-- The kernel's functions, as the threads' own code calls them. -/
inductive Call
  | intrSetLevel (level : Bool)
  | semaDown (n : ℕ)
  | semaTryDown (n : ℕ)
  | semaUp (n : ℕ)
  | lockAcquire (n : ℕ)
  | lockTryAcquire (n : ℕ)
  | lockRelease (n : ℕ)
  | condWait (c : CondPtr) (n : ℕ)
  | condSignal (c : CondPtr) (n : ℕ)
  | condBroadcast (c : CondPtr) (n : ℕ)
  | threadCreate (priority : ℤ)
  | threadExit
  | threadBlock
  | threadUnblock (t : ThreadPtr)
  | threadYield
  | threadSetPriority (newPriority : ℤ)
  | threadSetNice (newNice : ℤ)
  | timerSleep (ticks : ℤ)
deriving DecidableEq

/-- Where a call starts. -/
def Call.frame : Call → Frame
  | intrSetLevel level => .intrSetLevel level
  | semaDown n => .semaDown (.user n)
  | semaTryDown n => .semaTryDown (.user n)
  | semaUp n => .semaUp (.user n)
  | lockAcquire n => .lockAcquire (.user n)
  | lockTryAcquire n => .lockTryAcquire (.user n)
  | lockRelease n => .lockRelease (.user n)
  | condWait c n => .condWait c (.user n)
  | condSignal c n => .condSignal c (.user n)
  | condBroadcast c n => .condBroadcast c (.user n)
  | threadCreate priority => .threadCreate priority .user
  | threadExit => .threadExit
  | threadBlock => .threadBlock
  | threadUnblock t => .threadUnblock t
  | threadYield => .threadYield
  | threadSetPriority newPriority => .threadSetPriority newPriority
  | threadSetNice newNice => .threadSetNice newNice
  | timerSleep ticks => .timerSleep ticks

variable (cfg : Config) (fuel : ℕ)

/-! ### Thread creation -/

/-- The first frames of a new thread. -/
def Entry.stack : Entry → List Frame
  | .user => [.kernelThread]
  | .idle => [.kernelThread, .idle]

/-- The record that `init_thread` fills in.  In the MLFQS the priority is the
computed one; `thread_create` then sets the base and effective priorities. -/
def initThread (priority nice recentCpu : ℤ) : Thread where
  wakeupTick := 0
  tid := 0
  status := .blocked
  priority := if cfg.mlfqs then mlfqsPriority recentCpu nice else priority
  basePriority := priority
  effectivePriority := priority
  waitingLock := none
  nice := if cfg.mlfqs then nice else 0
  recentCpu := if cfg.mlfqs then recentCpu else 0
  computed := if cfg.mlfqs then mlfqsPriority recentCpu nice else 0

/-- `init_thread` on the page of a new thread, with the nice and recent_cpu of the parent. -/
def linkThread (k : Kernel) (priority : ℤ) (function : Entry) (nice recentCpu : ℤ) : Kernel :=
  { k with
    thr := Function.update k.thr k.nextThread (initThread cfg priority nice recentCpu)
    stack := Function.update k.stack k.nextThread function.stack
    lockElems := k.lockElems.listInit k.nextThread
    allList := k.allList ++ [k.nextThread]
    nextThread := k.nextThread + 1 }

/-- The preemption check that follows an unblocking, by scheduler. -/
def preemptionCheck : Frame :=
  if cfg.mlfqs then .mlfqsCheckPreemption 64 else .checkPreemption

/-! ### One step of the running thread -/

/-- Executes frame `f` of the running thread, already taken off its stack. -/
def exec (k : Kernel) : Frame → Option Kernel
  -- sema_down, sema_try_down, sema_up
  | .semaDown s => semaDownTest cfg fuel (k.setLevel false) s k.intrOn
  | .semaDownWait s old => semaDownTest cfg fuel k s old
  | .semaTryDown s => some (semaTryDown k (some k.cur) s).1
  | .semaUp s => (semaUpBody cfg fuel k (some k.cur) s).map (·.push (preemptionCheck cfg))
  -- lock_acquire
  | .lockAcquire l =>
      if k.lockHolder l = some k.cur then none else some (k.push (.lockAcquireBody l))
  | .lockAcquireBody l =>
      match k.lockHolder l with
      | none =>
          some ((k.pushes [.semaDown (.ofLock l), .lockAcquireFree l k.intrOn]).setLevel false)
      | some h =>
          (waitForLock cfg fuel k l h).map
            (·.pushes [.semaDown (.ofLock l), .lockAcquireHeld l])
  | .lockAcquireFree l old => (takeLock k l).map (·.setLevel old)
  | .lockAcquireHeld l =>
      (takeLock k l).map (·.modify k.cur fun th => { th with waitingLock := none })
  -- lock_try_acquire
  | .lockTryAcquire l =>
      if k.lockHolder l = some k.cur then none else some (k.push (.lockTryAcquireDown l))
  | .lockTryAcquireDown l =>
      let (k, success) := semaTryDown k (some k.cur) (.ofLock l)
      some (if success then k.push (.lockTryAcquireHolder l) else k)
  | .lockTryAcquireHolder l =>
      some { k with lockHolder := Function.update k.lockHolder l (some k.cur) }
  -- lock_release
  | .lockRelease l =>
      if k.lockHolder l = some k.cur then some (k.push (.lockReleaseBody l)) else none
  | .lockReleaseBody l =>
      (releaseLock fuel k l).map fun k' =>
        (k'.pushes [.semaUp (.ofLock l), .lockReleaseRefresh k.intrOn]).setLevel false
  | .lockReleaseRefresh old =>
      (refreshPriority cfg fuel k k.cur).map fun k =>
        if yieldNecessary cfg k then k.pushes [.threadYield, .intrSetLevel old]
        else k.push (.intrSetLevel old)
  -- cond_wait
  | .condWait c l =>
      if k.lockHolder l = some k.cur then
        some ((publishWaiter k c).pushes
          [.lockRelease l, .semaDown (.ofWaiter k.nextWaiter), .lockAcquire l, .checkPreemption,
            .condWaitReturn c k.nextWaiter])
      else none
  | .condWaitReturn _ _ => some k
  -- cond_signal, cond_broadcast
  | .condSignal c l =>
      if k.lockHolder l = some k.cur then some (k.push (.condSignalFirst c)) else none
  | .condSignalFirst c =>
      match k.condWaiters c with
      | [] => some k
      | m :: es => some (k.push (.condSignalMax c m es))
  | .condSignalMax c m [] => some (k.push (.condSignalRemove c m))
  | .condSignalMax c m (e :: es) =>
      (condSemaPriorityCmp cfg k m e).map fun less =>
        k.push (.condSignalMax c (if less then e else m) es)
  | .condSignalRemove c m =>
      some ({ k with condWaiters :=
          Function.update k.condWaiters c ((k.condWaiters c).erase m) }.push
        (.semaUp (.ofWaiter m)))
  | .condBroadcast c l =>
      if k.condWaiters c = [] then some k
      else some (k.pushes [.condSignal c l, .condBroadcast c l])
  -- check_preemption
  | .checkPreemption =>
      some (if k.elems.listEmpty .readyList then k else k.push .checkPreemptionFront)
  | .checkPreemptionFront =>
      if k.elems.listEmpty .readyList then none else some (k.push .checkPreemptionRead)
  | .checkPreemptionRead =>
      (k.elems.next (.head .readyList)).map fun n => k.push (.checkPreemptionCompare n)
  | .checkPreemptionCompare n =>
      some (if k.priorityAt cfg n > (k.thr k.cur).priority then k.push .threadYield else k)
  -- mlfqs_check_preemption
  | .mlfqsCheckPreemption 0 => some (k.push (.mlfqsCheckPreemptionCompare (-1)))
  | .mlfqsCheckPreemption (i + 1) =>
      some (if k.elems.listEmpty (.mlfqsList i) then k.push (.mlfqsCheckPreemption i)
        else k.push (.mlfqsCheckPreemptionCompare i))
  | .mlfqsCheckPreemptionCompare highestPriority =>
      some (if highestPriority > (k.thr k.cur).priority then k.push .threadYield else k)
  -- thread_yield, thread_block, thread_unblock, thread_exit
  | .threadYield => yieldCurrent cfg fuel ((k.push (.intrSetLevel k.intrOn)).setLevel false)
  | .intrSetLevel old => some (k.setLevel old)
  | .threadBlock => blockCurrent cfg (k.push .threadBlockReturn)
  | .threadBlockReturn => some k
  | .threadUnblock t => threadUnblock cfg fuel k t
  | .threadExit => exitCurrent cfg k
  -- thread_create
  | .threadCreate priority function =>
      if cfg.palloc k.log = false then some (k.record (.noPage k.cur))
      else if priMin ≤ priority ∧ priority ≤ priMax then
        some (k.push (.threadCreateLink priority function (k.thr k.cur).nice
          (k.thr k.cur).recentCpu))
      else none
  | .threadCreateLink priority function nice recentCpu =>
      let t := k.nextThread
      let k := linkThread cfg k priority function nice recentCpu
      some (if cfg.atomicTid then
          { k.push (.threadCreateTid t k.nextTid) with nextTid := toInt32 (k.nextTid + 1) }
        else k.pushes [.lockAcquire .tidLock, .allocateTidRead t])
  | .allocateTidRead t => some (k.push (.allocateTidWrite t k.nextTid))
  | .allocateTidWrite t tid =>
      some ({ k with nextTid := toInt32 (tid + 1) }.pushes
        [.lockRelease .tidLock, .threadCreateTid t tid])
  | .threadCreateTid t tid =>
      some (((k.modify t fun th => { th with tid := tid }).record (.tid t tid)).push
        (.threadCreateUnblock t))
  | .threadCreateUnblock t =>
      (threadUnblock cfg fuel k t).map (·.push (preemptionCheck cfg))
  -- thread_set_priority, thread_set_nice
  | .threadSetPriority newPriority =>
      some ((k.modify k.cur fun th => { th with priority := newPriority }).push .checkPreemption)
  | .threadSetNice newNice =>
      let newNice := if newNice > niceMax then niceMax else newNice
      let newNice := if newNice < niceMin then niceMin else newNice
      some ((k.modify k.cur fun th => { th with nice := newNice }).push .threadSetNiceUpdate)
  | .threadSetNiceUpdate =>
      some (if k.idleThread = some k.cur then k.push (.mlfqsCheckPreemption 64)
        else k.push (.threadSetNiceWrite
          (mlfqsPriority (k.thr k.cur).recentCpu (k.thr k.cur).nice)))
  | .threadSetNiceWrite newPriority =>
      some ((k.modify k.cur fun th =>
        { th with priority := newPriority, computed := newPriority }).push
          (.mlfqsCheckPreemption 64))
  -- thread_start after its thread_create, kernel_thread, idle
  | .threadStart => some ((k.push (.semaDown .idleStarted)).setLevel true)
  | .kernelThread => some (k.setLevel true)
  | .idle => some ({ k with idleThread := some k.cur }.pushes [.semaUp .idleStarted, .idleLoop])
  | .idleLoop => blockCurrent cfg ((k.push .idleResume).setLevel false)
  | .idleResume => some ((k.push .idleHalt).setLevel true)
  | .idleHalt => none
  -- timer_sleep
  | .timerSleep ticks =>
      if k.intrOn then
        some (if ticks ≤ 0 then k else k.push (.timerSleepBody k.ticks ticks))
      else none
  | .timerSleepBody start ticks =>
      let old := k.intrOn
      let k := k.modify k.cur fun th => { th with wakeupTick := toInt64 (start + ticks) }
      blockCurrent cfg (((insertSleeper k k.cur).push (.timerSleepReturn old)).setLevel false)
  | .timerSleepReturn old => some (k.setLevel old)

/-! ### Steps and runs -/

inductive Label
  | call (c : Call)
  | run
  | timer
  | semaUp (n : ℕ)
  | semaTryDown (n : ℕ)
deriving DecidableEq

/-- Takes the innermost frame off the running thread's stack. -/
def popFrame (k : Kernel) (fs : List Frame) : Kernel :=
  { k with stack := Function.update k.stack k.cur fs }

def step (k : Kernel) : Label → Option Kernel
  | .call c => if k.stack k.cur = [] then some (k.push c.frame) else none
  | .run =>
      match k.stack k.cur with
      | [] => none
      | f :: fs => exec cfg fuel (popFrame k fs) f
  | .timer => if k.intrOn then timerInterrupt cfg fuel k else none
  | .semaUp n => if k.intrOn then semaUpInterrupt cfg fuel k (.user n) else none
  | .semaTryDown n => if k.intrOn then semaTryDownInterrupt cfg fuel k (.user n) else none

/-- The lists that are initialised when `thread_init` has returned; those of
the threads' own semaphores and locks count among them. -/
def ListPtr.initialised : ListPtr → Bool
  | .readyList => true
  | .mlfqsList i => cfg.mlfqs && priMin ≤ i && i ≤ priMax
  | .semaWaiters (.ofWaiter _) => false
  | .semaWaiters _ => true
  | .lockWaiters _ => true
  | .tempList => false

/-- The memory next to the array `mlfqs_list`. -/
def ListPtr.Beyond : ListPtr → Prop
  | .mlfqsList i => i < priMin ∨ priMax < i
  | _ => False

instance : DecidablePred ListPtr.Beyond
  | .mlfqsList _ => inferInstanceAs (Decidable (_ ∨ _))
  | .readyList | .semaWaiters _ | .lockWaiters _ | .tempList => inferInstanceAs (Decidable False)

def bootElems : Links ListPtr ThreadPtr where
  next
    | .head l =>
        if l.initialised cfg then some (.tail l)
        else if l.Beyond then (cfg.beyond (.head l)).1 else none
    | .tail l => if l.Beyond then (cfg.beyond (.tail l)).1 else none
    | .item _ => none
  prev
    | .tail l =>
        if l.initialised cfg then some (.head l)
        else if l.Beyond then (cfg.beyond (.tail l)).2 else none
    | .head l => if l.Beyond then (cfg.beyond (.head l)).2 else none
    | .item _ => none

/-- The initial thread (number 0) has acquired and released `tid_lock`. -/
def bootLockElems : Links ThreadPtr LockPtr where
  next
    | .head t => if t = 0 then some (.tail t) else none
    | .item .tidLock => some (.tail 0)
    | .item l => (cfg.lockElemInit l).2
    | _ => none
  prev
    | .tail t => if t = 0 then some (.head t) else none
    | .item .tidLock => some (.head 0)
    | .item l => (cfg.lockElemInit l).1
    | _ => none

/-- The state in which `thread_init` has returned and the initial thread has
called `thread_start`, which has initialised `idle_started`.  The release of
`tid_lock` in `allocate_tid` has left the initial thread's base priority, with
both schedulers. -/
def boot : Kernel where
  thr := Function.update (fun _ => Thread.blank) 0
    { initThread cfg priDefault niceDefault recentCpuDefault with
      status := .running, priority := priDefault, tid := 1, effectivePriority := 0 }
  stack := Function.update (fun _ => []) 0
    [.threadCreate priMin .idle, .threadStart]
  cur := 0
  intrOn := false
  elems := bootElems cfg
  lockElems := bootLockElems cfg
  semaValue
    | .user n => cfg.semaInit n
    | .ofLock _ => 1
    | _ => 0
  lockHolder := fun _ => none
  condWaiters := fun _ => []
  allList := [0]
  sleepList := []
  idleThread := none
  nextTid := 2
  ticks := 0
  threadTicks := 0
  loadAvg := 0
  nextThread := 1
  nextWaiter := 0
  log := []

/-- A step between two states, in a run whose steps are restricted to `ok`. -/
def Next (ok : Kernel → Label → Prop) (k k' : Kernel) : Prop :=
  ∃ lab fuel, ok k lab ∧ step cfg fuel k lab = some k'

/-- The states of the runs whose steps all meet `ok`. -/
def Reachable (ok : Kernel → Label → Prop) (k : Kernel) : Prop :=
  Relation.ReflTransGen (Next cfg ok) (boot cfg) k

end Pintos
