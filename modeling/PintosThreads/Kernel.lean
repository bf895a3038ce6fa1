/-
PintosThreads/Kernel.lean

The data of the kernel: `struct thread`, semaphores, locks, condition
variables, the queues, and the control state of every thread.

A pointer is its identity.  A `struct thread` is a natural number, one for each
call of `init_thread`; what this has to do with the pages that `palloc_get_page`
hands out, and hands out again, is said in `ThreadPages`.  The semaphores embedded
in locks and in the stack records of `cond_wait` are named by what they are
embedded in (`SemaPtr`), and so are the lists (`ListPtr`).  All the lists that are
linked through `thread.elem` share one link memory (`Kernel.elems`), because they
share the link node; the `locks_held` lists, linked through `lock.elem`, have
their own (`Kernel.lockElems`).  The lists whose nodes are used for nothing else
(`all_list`, `sleep_list`, `cond->waiters`) are sequences.

The call stack of a thread is the list of its `Frame`s, innermost first.  A
frame names the point where a C function goes on, with the locals that it
still needs; one frame is executed in one atomic step.  Wherever the code runs
with interrupts enabled, a step reads or writes shared data at most once;
where it has disabled them, a step may run up to the next point where another
thread can be switched to.
-/
import PintosThreads.Intrusive
import PintosThreads.FixedPoint

namespace Pintos

open Intrusive

/-! ### Pointers -/

/-- A `struct thread *`. -/
abbrev ThreadPtr := ℕ

/-- A `struct lock *`: the static `tid_lock` or another lock. -/
inductive LockPtr
  | tidLock
  | user (n : ℕ)
deriving DecidableEq

/-- A `struct condition *`. -/
abbrev CondPtr := ℕ

/-- A `struct semaphore_elem *`: a record on the stack of `cond_wait`. -/
abbrev WaiterPtr := ℕ

/-- A `struct semaphore *`. -/
inductive SemaPtr
  | user (n : ℕ)
  | idleStarted
  | ofLock (l : LockPtr)
  | ofWaiter (w : WaiterPtr)
deriving DecidableEq

/-- The lists linked through `thread.elem`. -/
inductive ListPtr
  | readyList
  | mlfqsList (i : ℤ)
  | semaWaiters (s : SemaPtr)
  | lockWaiters (l : LockPtr)
  | tempList
deriving DecidableEq

/-! ### Threads -/

inductive ThreadStatus
  | running
  | ready
  | blocked
  | dying
deriving DecidableEq

def priMin : ℤ := 0
def priDefault : ℤ := 31
def priMax : ℤ := 63

def niceMin : ℤ := -20
def niceDefault : ℤ := 0
def niceMax : ℤ := 20

def recentCpuDefault : ℤ := 0

def timeSlice : ℕ := 4
def timerFreq : ℤ := 100

/-- `struct thread`, less its links, its name and its machine stack. -/
structure Thread where
  wakeupTick : ℤ
  tid : ℤ
  status : ThreadStatus
  priority : ℤ
  basePriority : ℤ
  effectivePriority : ℤ
  waitingLock : Option LockPtr
  nice : ℤ
  recentCpu : ℤ
  /-- What the last `mlfqs_update_priority` of the thread has computed.  Like the
  log it is there for the record only. -/
  computed : ℤ

/-- What a page that holds no live thread is read as. -/
def Thread.blank : Thread where
  wakeupTick := 0
  tid := 0
  status := .dying
  priority := 0
  basePriority := 0
  effectivePriority := 0
  waitingLock := none
  nice := 0
  recentCpu := 0
  computed := 0

/-! ### Control -/

/-- The function a kernel thread is created with. -/
inductive Entry
  | user
  | idle
deriving DecidableEq

/-- A point of the code where a thread goes on, with its live locals.  `old`
is always the interrupt level that the function saved (`true` is on). -/
inductive Frame
  -- synch.c
  | semaDown (s : SemaPtr)
  | semaDownWait (s : SemaPtr) (old : Bool)
  | semaTryDown (s : SemaPtr)
  | semaUp (s : SemaPtr)
  | lockAcquire (l : LockPtr)
  | lockAcquireBody (l : LockPtr)
  | lockAcquireFree (l : LockPtr) (old : Bool)
  | lockAcquireHeld (l : LockPtr)
  | lockTryAcquire (l : LockPtr)
  | lockTryAcquireDown (l : LockPtr)
  | lockTryAcquireHolder (l : LockPtr)
  | lockRelease (l : LockPtr)
  | lockReleaseBody (l : LockPtr)
  | lockReleaseRefresh (old : Bool)
  | condWait (c : CondPtr) (l : LockPtr)
  | condWaitReturn (c : CondPtr) (w : WaiterPtr)
  | condSignal (c : CondPtr) (l : LockPtr)
  | condSignalFirst (c : CondPtr)
  | condSignalMax (c : CondPtr) (m : WaiterPtr) (es : List WaiterPtr)
  | condSignalRemove (c : CondPtr) (m : WaiterPtr)
  | condBroadcast (c : CondPtr) (l : LockPtr)
  -- thread.c
  | checkPreemption
  | checkPreemptionFront
  | checkPreemptionRead
  | checkPreemptionCompare (n : Node ListPtr ThreadPtr)
  | mlfqsCheckPreemption (i : ℕ)
  | mlfqsCheckPreemptionCompare (highestPriority : ℤ)
  | threadYield
  | intrSetLevel (old : Bool)
  | threadBlock
  | threadBlockReturn
  | threadUnblock (t : ThreadPtr)
  | threadExit
  | threadCreate (priority : ℤ) (function : Entry)
  | threadCreateLink (priority : ℤ) (function : Entry) (nice recentCpu : ℤ)
  | allocateTidRead (t : ThreadPtr)
  | allocateTidWrite (t : ThreadPtr) (tid : ℤ)
  | threadCreateTid (t : ThreadPtr) (tid : ℤ)
  | threadCreateUnblock (t : ThreadPtr)
  | threadSetPriority (newPriority : ℤ)
  | threadSetNice (newNice : ℤ)
  | threadSetNiceUpdate
  | threadSetNiceWrite (newPriority : ℤ)
  | threadStart
  | kernelThread
  | idle
  | idleLoop
  | idleResume
  | idleHalt
  -- timer.c
  | timerSleep (ticks : ℤ)
  | timerSleepBody (start ticks : ℤ)
  | timerSleepReturn (old : Bool)
deriving DecidableEq

/-- What a run leaves on record.  No function of the kernel reads it.  In
`down` and `up` the thread is the one that executed the statement, or `none`
for an interrupt handler; `dispatch` is the result of `next_thread_to_run`,
`insert` a call of `mlfqs_insert`, with the index it uses, and `noPage` a
`thread_create` that has returned `TID_ERROR`. -/
inductive Event
  | down (t : Option ThreadPtr) (s : SemaPtr)
  | up (t : Option ThreadPtr) (s : SemaPtr)
  | unblock (t : ThreadPtr)
  | dispatch (t : ThreadPtr)
  | insert (t : ThreadPtr) (i : ℤ)
  | tid (t : ThreadPtr) (tid : ℤ)
  | noPage (t : ThreadPtr)
deriving DecidableEq

/-! ### The kernel -/

structure Kernel where
  thr : ThreadPtr → Thread
  /-- The call stacks, innermost frame first; `[]` is the thread's own code. -/
  stack : ThreadPtr → List Frame
  /-- `running_thread ()`. -/
  cur : ThreadPtr
  /-- `intr_get_level () == INTR_ON`. -/
  intrOn : Bool
  elems : Links ListPtr ThreadPtr
  /-- The `locks_held` lists; the list of thread `t` is called `t`. -/
  lockElems : Links ThreadPtr LockPtr
  semaValue : SemaPtr → ℕ
  lockHolder : LockPtr → Option ThreadPtr
  condWaiters : CondPtr → List WaiterPtr
  allList : List ThreadPtr
  sleepList : List ThreadPtr
  idleThread : Option ThreadPtr
  nextTid : ℤ
  ticks : ℤ
  threadTicks : ℕ
  loadAvg : ℤ
  /-- The next thread that `init_thread` makes. -/
  nextThread : ThreadPtr
  /-- The next `struct semaphore_elem` that `cond_wait` puts on a stack. -/
  nextWaiter : WaiterPtr
  log : List Event

/-- What a run does not choose: the scheduler (`thread_mlfqs`), when the page
allocator fails, and the values of memory that the code reads without having
written it. -/
structure Config where
  mlfqs : Bool
  /-- Whether `palloc_get_page` finds a page, after what is on record; otherwise
  it returns `NULL`. -/
  palloc : List Event → Bool
  /-- `allocate_tid` is one atomic step, without its lock. -/
  atomicTid : Bool
  /-- What `list_entry (e, struct thread, elem)->priority` reads when `e` is a
  sentinel of a list. -/
  junkPriority : Node ListPtr ThreadPtr → ℤ
  /-- The pointers that are found at an index outside `mlfqs_list`. -/
  beyond : Node ListPtr ThreadPtr → Option (Node ListPtr ThreadPtr) × Option (Node ListPtr ThreadPtr)
  /-- The argument of `sema_init` for each semaphore of the threads' own code. -/
  semaInit : ℕ → ℕ
  /-- The pointers in `lock.elem`, which `lock_init` leaves alone. -/
  lockElemInit : LockPtr → Option (Node ThreadPtr LockPtr) × Option (Node ThreadPtr LockPtr)

namespace Kernel

/-- Updates the `struct thread` at `t`. -/
@[simps]
def modify (k : Kernel) (t : ThreadPtr) (f : Thread → Thread) : Kernel :=
  { k with thr := Function.update k.thr t (f (k.thr t)) }

@[simps]
def setThr (k : Kernel) (thr : ThreadPtr → Thread) : Kernel :=
  { k with thr := thr }

/-- Puts a frame on the running thread's stack. -/
@[simps]
def push (k : Kernel) (f : Frame) : Kernel :=
  { k with stack := Function.update k.stack k.cur (f :: k.stack k.cur) }

/-- Puts several frames on the running thread's stack, the first one innermost. -/
@[simps]
def pushes (k : Kernel) (fs : List Frame) : Kernel :=
  { k with stack := Function.update k.stack k.cur (fs ++ k.stack k.cur) }

@[simps]
def setLevel (k : Kernel) (b : Bool) : Kernel :=
  { k with intrOn := b }

@[simps]
def setElems (k : Kernel) (e : Links ListPtr ThreadPtr) : Kernel :=
  { k with elems := e }

@[simps]
def record (k : Kernel) (e : Event) : Kernel :=
  { k with log := e :: k.log }

/-- The `priority` that `list_entry` finds at a node of a list of threads. -/
def priorityAt (cfg : Config) (k : Kernel) : Node ListPtr ThreadPtr → ℤ
  | .item t => (k.thr t).priority
  | n => cfg.junkPriority n

end Kernel

end Pintos
