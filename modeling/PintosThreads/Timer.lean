/-
PintosThreads/Timer.lean

`devices/timer.c`: the alarm clock and the timer interrupt.
-/
import PintosThreads.Synch

namespace Pintos

open Intrusive

variable (cfg : Config) (fuel : ℕ)

/-- `list_insert_ordered (&sleep_list, &t->sleep_elem, wakeup_less, NULL)`. -/
def insertSleeper (k : Kernel) (t : ThreadPtr) : Kernel :=
  { k with sleepList :=
      k.sleepList.orderedInsert (fun a b => (k.thr a).wakeupTick < (k.thr b).wakeupTick) t }

/-- The loop of `timer_wakeup`, with the sleep list that is left. -/
def timerWakeup (now : ℤ) : List ThreadPtr → Kernel → Option Kernel
  | [], k => some { k with sleepList := [] }
  | t :: ts, k =>
      if (k.thr t).wakeupTick > now then some { k with sleepList := t :: ts }
      else (threadUnblock cfg fuel k t).bind (timerWakeup now ts)

/-- `thread_tick`; the flag is whether it calls `intr_yield_on_return`. -/
def threadTick (k : Kernel) : Kernel × Bool :=
  let k :=
    if cfg.mlfqs ∧ k.idleThread ≠ some k.cur then
      k.modify k.cur fun th => { th with recentCpu := fpAddInt th.recentCpu 1 }
    else k
  ({ k with threadTicks := k.threadTicks + 1 }, k.threadTicks + 1 ≥ timeSlice)

/-- What `timer_interrupt` does every four ticks; the flag is whether it calls
`intr_yield_on_return`. -/
def timerPriorities (k : Kernel) : Option (Kernel × Bool) :=
  if k.ticks % 4 = 0 then
    (mlfqsUpdatePriorityAll fuel k).map fun k => (k, mlfqsCheckPreemptionIntr k)
  else some (k, false)

/-- What `timer_interrupt` does every second. -/
def timerLoad (k : Kernel) : Option Kernel :=
  if k.ticks % timerFreq = 0 then mlfqsUpdateRcpuLa fuel k else some k

/-- The MLFQS part of `timer_interrupt`. -/
def timerMlfqs (k : Kernel) : Option (Kernel × Bool) :=
  if cfg.mlfqs then do
    let (k, yieldOnReturn) ← timerPriorities fuel k
    let k ← timerLoad fuel k
    some (k, yieldOnReturn)
  else some (k, false)

/-- An interrupt ends the halt of the idle thread, whose loop then goes on. -/
def endHalt (k : Kernel) : Kernel :=
  match k.stack k.cur with
  | .idleHalt :: fs => { k with stack := Function.update k.stack k.cur (.idleLoop :: fs) }
  | _ => k

/-- A timer interrupt, from its delivery to its return. -/
def timerInterrupt (k : Kernel) : Option Kernel := do
  let k := (endHalt k).setLevel false
  let k := { k with ticks := k.ticks + 1 }
  let (k, yieldTick) := threadTick cfg k
  let k ← timerWakeup cfg fuel k.ticks k.sleepList k
  let (k, yieldMlfqs) ← timerMlfqs cfg fuel k
  interruptReturn cfg fuel k (yieldTick || yieldMlfqs)

/-- An interrupt whose handler calls `sema_up`. -/
def semaUpInterrupt (k : Kernel) (s : SemaPtr) : Option Kernel := do
  let k := (endHalt k).setLevel false
  let k ← semaUpBody cfg fuel k none s
  let yieldOnReturn ← preemptionCheckIntr cfg k
  interruptReturn cfg fuel k yieldOnReturn

/-- An interrupt whose handler calls `sema_try_down`. -/
def semaTryDownInterrupt (k : Kernel) (s : SemaPtr) : Option Kernel :=
  let k := (endHalt k).setLevel false
  interruptReturn cfg fuel (semaTryDown k none s).1 false

end Pintos
