/-
PintosThreads/Synch.lean

`threads/synch.c`: the parts of the semaphore, lock and condition variable
operations that run with interrupts off.  What goes on with interrupts on is
cut into frames in `Machine`.
-/
import PintosThreads.Scheduler

namespace Pintos

open Intrusive

variable (cfg : Config) (fuel : ℕ)

/-! ### Semaphores -/

/-- One test of the loop in `sema_down`, entered with interrupts off; `old` is
the level to restore. -/
def semaDownTest (k : Kernel) (s : SemaPtr) (old : Bool) : Option Kernel :=
  if k.semaValue s = 0 then do
    let k ← insertByPriority cfg fuel k (.semaWaiters s) k.cur
    blockCurrent cfg (k.push (.semaDownWait s old))
  else
    some ({ k with semaValue := Function.update k.semaValue s (k.semaValue s - 1)
                   intrOn := old }.record (.down (some k.cur) s))

/-- `sema_try_down`, executed by `agent`; the flag is its result. -/
def semaTryDown (k : Kernel) (agent : Option ThreadPtr) (s : SemaPtr) : Kernel × Bool :=
  if k.semaValue s > 0 then
    ({ k with semaValue := Function.update k.semaValue s (k.semaValue s - 1) }.record
      (.down agent s), true)
  else (k, false)

/-- `sema_up` unblocks the first thread that waits on `s`, if there is one. -/
def semaWake (k : Kernel) (s : SemaPtr) : Option Kernel :=
  if k.elems.listEmpty (.semaWaiters s) then some k
  else do
    let (t, e) ← popThread k.elems (.semaWaiters s)
    threadUnblock cfg fuel (k.setElems e) t

/-- `sema_up` up to its preemption check, executed by `agent`; `value` is
unsigned. -/
def semaUpBody (k : Kernel) (agent : Option ThreadPtr) (s : SemaPtr) : Option Kernel := do
  let k ← semaWake cfg fuel k s
  some ({ k with semaValue := Function.update k.semaValue s ((k.semaValue s + 1) % 2 ^ 32) }.record
    (.up agent s))

/-! ### Locks -/

/-- `lock->holder = cur` and the insertion of the lock into `locks_held`. -/
def takeLock (k : Kernel) (l : LockPtr) : Option Kernel :=
  (k.lockElems.listPushBack k.cur (.item l)).map fun e =>
    { k with lockHolder := Function.update k.lockHolder l (some k.cur), lockElems := e }

/-- The contended branch of `lock_acquire` before its `sema_down`, for a lock
held by `h`. -/
def waitForLock (k : Kernel) (l : LockPtr) (h : ThreadPtr) : Option Kernel := do
  let k := k.modify k.cur fun th => { th with waitingLock := some l }
  let k ← insertByPriority cfg fuel k (.lockWaiters l) k.cur
  donatePriority fuel k k.cur h

/-- The loop of `lock_release` over the waiters of the lock, from node `n` on:
it removes the running thread `t`. -/
def removeWaiter (l : LockPtr) (t : ThreadPtr) :
    ℕ → Links ListPtr ThreadPtr → Node ListPtr ThreadPtr → Option (Links ListPtr ThreadPtr)
  | 0, _, _ => none
  | fuel + 1, e, n =>
      if n = .tail (.lockWaiters l) then some e
      else do
        let n' ← e.next n
        if n = .item t then (e.listRemove n).bind (removeWaiter l t fuel · n')
        else removeWaiter l t fuel e n'

/-- `lock_release` from `intr_disable` to its `sema_up`. -/
def releaseLock (k : Kernel) (l : LockPtr) : Option Kernel := do
  let le ← k.lockElems.listRemove (.item l)
  let n ← k.elems.next (.head (.lockWaiters l))
  let e ← removeWaiter l k.cur fuel k.elems n
  some { k with lockElems := le, elems := e
                lockHolder := Function.update k.lockHolder l none }

/-- Whether `thread_yield_if_necessary` yields. -/
def yieldNecessary (k : Kernel) : Bool :=
  match k.elems.listFront .readyList with
  | some n => k.priorityAt cfg n > (k.thr k.cur).priority
  | none => false

/-! ### Condition variables -/

/-- The record that `cond_wait` puts on its stack and in `cond->waiters`. -/
def publishWaiter (k : Kernel) (c : CondPtr) : Kernel :=
  { k with
    semaValue := Function.update k.semaValue (.ofWaiter k.nextWaiter) 0
    elems := k.elems.listInit (.semaWaiters (.ofWaiter k.nextWaiter))
    condWaiters := Function.update k.condWaiters c (k.condWaiters c ++ [k.nextWaiter])
    nextWaiter := k.nextWaiter + 1 }

/-- `cond_sema_priority_cmp`: each record's semaphore is read for the first
thread that waits on it. -/
def condSemaPriorityCmp (k : Kernel) (a b : WaiterPtr) : Option Bool := do
  let ta ← k.elems.listFront (.semaWaiters (.ofWaiter a))
  let tb ← k.elems.listFront (.semaWaiters (.ofWaiter b))
  some (k.priorityAt cfg ta < k.priorityAt cfg tb)

end Pintos
