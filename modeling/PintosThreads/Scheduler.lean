/-
PintosThreads/Scheduler.lean

`threads/thread.c`: the ready queues of both schedulers, blocking, waking,
yielding, the switch itself, priority donation and the MLFQS formulas.

Each definition is the body of a C function, or the part of one that runs
with interrupts off.  `none` is a failed `ASSERT`, a divide error, or a list
traversal that has not come to its end within `fuel` iterations; a traversal
that ends at all ends for every larger `fuel` with the same result, so the
steps of the kernel are those taken for some `fuel`.
-/
import PintosThreads.Kernel

namespace Pintos

open Intrusive

variable (cfg : Config) (fuel : ℕ)

/-! ### Ready queues -/

/-- `less_priority`, with the element to insert as its first argument. -/
def lessPriority (k : Kernel) (t : ThreadPtr) (n : Node ListPtr ThreadPtr) : Bool :=
  (k.thr t).priority > k.priorityAt cfg n

/-- `list_insert_ordered (list, &t->elem, less_priority, NULL)`. -/
def insertByPriority (k : Kernel) (l : ListPtr) (t : ThreadPtr) : Option Kernel :=
  (k.elems.listInsertOrdered fuel l (.item t) (lessPriority cfg k t)).map k.setElems

def mlfqsInsert (k : Kernel) (t : ThreadPtr) : Option Kernel :=
  let tPriority := (k.thr t).priority
  (k.elems.listPushBack (.mlfqsList tPriority) (.item t)).map fun e =>
    (k.setElems e).record (.insert t tPriority)

/-- The priority that `mlfqs_update_priority` computes. -/
def mlfqsPriority (recentCpu nice : ℤ) : ℤ :=
  let middle := fpToInt (recentCpu.tdiv 4)
  let newPriority := priMax - middle - nice * 2
  if newPriority > priMax then priMax
  else if newPriority < priMin then priMin
  else newPriority

def mlfqsUpdatePriority (k : Kernel) (t : ThreadPtr) : Kernel :=
  if k.idleThread = some t then k
  else k.modify t fun th =>
    { th with priority := mlfqsPriority th.recentCpu th.nice
              computed := mlfqsPriority th.recentCpu th.nice }

/-- `list_entry (list_pop_front (l), struct thread, elem)`; a sentinel is no
thread, and fails the `is_thread` assertion that follows every call. -/
def popThread (e : Links ListPtr ThreadPtr) (l : ListPtr) :
    Option (ThreadPtr × Links ListPtr ThreadPtr) :=
  match e.listPopFront l with
  | some (.item t, e') => some (t, e')
  | _ => none

/-- The highest index below `i` whose queue is not empty. -/
def mlfqsHighest (e : Links ListPtr ThreadPtr) : ℕ → Option ℕ
  | 0 => none
  | i + 1 => if e.listEmpty (.mlfqsList i) then mlfqsHighest e i else some i

def mlfqsNextThreadToRun (k : Kernel) : Option (ThreadPtr × Links ListPtr ThreadPtr) :=
  match mlfqsHighest k.elems 64 with
  | some i => popThread k.elems (.mlfqsList i)
  | none => k.idleThread.map (·, k.elems)

def nextThreadToRun (k : Kernel) : Option (ThreadPtr × Links ListPtr ThreadPtr) :=
  if cfg.mlfqs then mlfqsNextThreadToRun k
  else if k.elems.listEmpty .readyList then k.idleThread.map (·, k.elems)
  else popThread k.elems .readyList

/-! ### Switching threads -/

/-- `is_thread`: `init_thread` has written the magic number of the page. -/
def isThread (k : Kernel) (t : ThreadPtr) : Prop := t < k.nextThread

instance (k : Kernel) (t : ThreadPtr) : Decidable (isThread k t) :=
  inferInstanceAs (Decidable (_ < _))

/-- `thread_schedule_tail`, in the thread that has just been switched to. -/
def threadScheduleTail (k : Kernel) : Kernel :=
  { k.modify k.cur fun th => { th with status := .running } with threadTicks := 0 }

def schedule (k : Kernel) : Option Kernel := do
  let (next, e) ← nextThreadToRun cfg k
  if k.intrOn = false ∧ (k.thr k.cur).status ≠ .running ∧ isThread k next then
    some (threadScheduleTail ({ k with elems := e, cur := next }.record (.dispatch next)))
  else none

/-- The body of `thread_block`. -/
def blockCurrent (k : Kernel) : Option Kernel :=
  if k.intrOn = false then
    schedule cfg (k.modify k.cur fun th => { th with status := .blocked })
  else none

/-- `thread_unblock`; it leaves the interrupt level as it was. -/
def threadUnblock (k : Kernel) (t : ThreadPtr) : Option Kernel :=
  if isThread k t ∧ (k.thr t).status = .blocked then
    let k := (k.modify t fun th => { th with status := .ready }).record (.unblock t)
    if cfg.mlfqs then mlfqsInsert (mlfqsUpdatePriority k t) t
    else insertByPriority cfg fuel k .readyList t
  else none

/-- The insertion of the running thread into a ready queue by `thread_yield`. -/
def yieldInsert (k : Kernel) : Option Kernel :=
  if k.idleThread = some k.cur then some k
  else if cfg.mlfqs then mlfqsInsert k k.cur
  else insertByPriority cfg fuel k .readyList k.cur

/-- The part of `thread_yield` after `intr_disable`, up to the switch. -/
def yieldCurrent (k : Kernel) : Option Kernel := do
  let k ← yieldInsert cfg fuel k
  schedule cfg (k.modify k.cur fun th => { th with status := .ready })

/-- `thread_exit`: the stack is not returned to. -/
def exitCurrent (k : Kernel) : Option Kernel :=
  schedule cfg
    ({ k with intrOn := false, allList := k.allList.erase k.cur }.modify k.cur
      fun th => { th with status := .dying })

/-! ### Priority donation -/

/-- `donate_priority (from, to)`, with `f` and `t` for its arguments. -/
def donatePriority : ℕ → Kernel → ThreadPtr → ThreadPtr → Option Kernel
  | 0, _, _, _ => none
  | fuel + 1, k, f, t =>
      if (k.thr f).priority > (k.thr t).priority then
        let p := (k.thr f).priority
        let k := k.modify t fun th => { th with priority := p }
        match (k.thr t).waitingLock.bind k.lockHolder with
        | some h => donatePriority fuel k t h
        | none => some k
      else some k

/-- The inner loop of `refresh_priority`: over the waiters of lock `l`, from
node `n` on. -/
def refreshWaiters (t : ThreadPtr) (l : LockPtr) :
    ℕ → Kernel → Node ListPtr ThreadPtr → Option Kernel
  | 0, _, _ => none
  | fuel + 1, k, n =>
      if n = .tail (.lockWaiters l) then some k
      else
        let p := k.priorityAt cfg n
        let k :=
          if p > (k.thr t).priority then k.modify t fun th => { th with priority := p } else k
        (k.elems.next n).bind (refreshWaiters t l fuel k)

/-- One pass of the outer loop of `refresh_priority`, for lock `l`. -/
def refreshLock (t : ThreadPtr) (k : Kernel) (l : LockPtr) : Option Kernel :=
  if k.elems.listEmpty (.lockWaiters l) then some k
  else (k.elems.next (.head (.lockWaiters l))).bind (refreshWaiters cfg t l fuel k)

/-- The outer loop of `refresh_priority`: over the locks that `t` holds, from
node `n` on.  A sentinel of another list is no lock. -/
def refreshLocks (t : ThreadPtr) : ℕ → Kernel → Node ThreadPtr LockPtr → Option Kernel
  | 0, _, _ => none
  | fuel' + 1, k, .item l => do
      let k ← refreshLock cfg fuel t k l
      let n ← k.lockElems.next (.item l)
      refreshLocks t fuel' k n
  | _ + 1, k, n => if n = .tail t then some k else none

def refreshPriority (k : Kernel) (t : ThreadPtr) : Option Kernel :=
  let k := k.modify t fun th => { th with priority := th.basePriority }
  (k.lockElems.next (.head t)).bind (refreshLocks cfg fuel t fuel k)

/-! ### MLFQS -/

def threadForeach (func : Kernel → ThreadPtr → Option Kernel) (k : Kernel) : Option Kernel :=
  k.allList.foldlM func k

def mlfqsUpdateRecentCpu (k : Kernel) (t : ThreadPtr) : Option Kernel :=
  if k.idleThread = some t then some k
  else do
    let twoLoad := fpMulInt k.loadAvg 2
    let denom := fpAddInt twoLoad 1
    let coef ← fpDiv twoLoad denom
    let newCpu := fpMul coef (k.thr t).recentCpu
    let newCpu := fpAddInt newCpu (k.thr t).nice
    some (k.modify t fun th => { th with recentCpu := newCpu })

/-- The sum of the lengths of the queues below index `i`. -/
def mlfqsQueued (e : Links ListPtr ThreadPtr) : ℕ → Option ℕ
  | 0 => some 0
  | i + 1 => do
      let counter ← mlfqsQueued e i
      let count ← e.listSize fuel (.mlfqsList i)
      some (counter + count)

def mlfqsReadyThreads (k : Kernel) : Option ℕ := do
  let counter ← mlfqsQueued fuel k.elems 64
  some (if k.idleThread ≠ some k.cur then counter + 1 else counter)

def mlfqsUpdateLoadAvg (k : Kernel) : Option Kernel := do
  let readyThreads ← mlfqsReadyThreads fuel k
  let coef ← fpDivInt (intToFp 59) 60
  let a := fpMul coef k.loadAvg
  let secCoef ← fpDivInt (intToFp 1) 60
  let b := fpMulInt secCoef readyThreads
  some { k with loadAvg := fpAdd a b }

def mlfqsUpdateRcpuLa (k : Kernel) : Option Kernel := do
  let k ← threadForeach mlfqsUpdateRecentCpu k
  mlfqsUpdateLoadAvg fuel k

/-- Moves every element of `src` to the end of `dst`. -/
def drain (src dst : ListPtr) :
    ℕ → Links ListPtr ThreadPtr → Option (Links ListPtr ThreadPtr)
  | 0, _ => none
  | fuel + 1, e =>
      if e.listEmpty src then some e
      else do
        let (n, e) ← e.listPopFront src
        let e ← e.listPushBack dst n
        drain src dst fuel e

/-- Drains the queues below index `i` into the temporary list, in the order
of their indices. -/
def collectQueues (e : Links ListPtr ThreadPtr) : ℕ → Option (Links ListPtr ThreadPtr)
  | 0 => some e
  | i + 1 => (collectQueues e i).bind (drain (.mlfqsList i) .tempList fuel)

/-- Puts the threads of the temporary list into the queues of their
priorities. -/
def reinsertQueues : ℕ → Kernel → Option Kernel
  | 0, _ => none
  | fuel + 1, k =>
      if k.elems.listEmpty .tempList then some k
      else do
        let (t, e) ← popThread k.elems .tempList
        let k ← mlfqsInsert (k.setElems e) t
        reinsertQueues fuel k

def mlfqsReorganizeQueues (k : Kernel) : Option Kernel := do
  let e ← collectQueues fuel (k.elems.listInit .tempList) 64
  reinsertQueues fuel (k.setElems e)

def mlfqsUpdatePriorityAll (k : Kernel) : Option Kernel := do
  let k ← threadForeach (fun k t => some (mlfqsUpdatePriority k t)) k
  mlfqsReorganizeQueues fuel k

/-! ### Preemption requests of an interrupt handler -/

/-- `check_preemption` in interrupt context: whether it calls
`intr_yield_on_return`. -/
def checkPreemptionIntr (k : Kernel) : Option Bool :=
  if k.elems.listEmpty .readyList then some false
  else do
    let n ← k.elems.listFront .readyList
    some (k.priorityAt cfg n > (k.thr k.cur).priority)

/-- `mlfqs_check_preemption` in interrupt context. -/
def mlfqsCheckPreemptionIntr (k : Kernel) : Bool :=
  match mlfqsHighest k.elems 64 with
  | some i => (i : ℤ) > (k.thr k.cur).priority
  | none => (-1 : ℤ) > (k.thr k.cur).priority

/-- The preemption check at the end of a `sema_up` in interrupt context. -/
def preemptionCheckIntr (k : Kernel) : Option Bool :=
  if cfg.mlfqs then some (mlfqsCheckPreemptionIntr k) else checkPreemptionIntr cfg k

/-- The epilogue of an external interrupt: a requested yield is taken with
interrupts still off, and the return enables them. -/
def interruptReturn (k : Kernel) (yieldOnReturn : Bool) : Option Kernel :=
  if yieldOnReturn then yieldCurrent cfg fuel (k.push (.intrSetLevel true))
  else some (k.setLevel true)

end Pintos
