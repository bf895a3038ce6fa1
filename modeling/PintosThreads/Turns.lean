/-
PintosThreads/Turns.lean

The time slice, and what the functions of the kernel leave alone.

`Turns n k k'` says that on the way from `k` to `k'` the processor has been
given up `n` times, and that nothing else has been done to the lists
`locks_held` or to the time: `thread_ticks` starts again with each switch, and
`ticks` is the same.  All functions of the scheduler and all handlers have such
a footprint, and so do all frames but those that write `locks_held`
(`exec_turns`).

`thread_tick` is the other half of it: it counts `thread_ticks` up, and asks
for a yield at `TIME_SLICE`.  So the number of ticks in a run bounds the number
of switches from below (`time_slice`), in every state and with every
interleaving of interrupts.
-/
import PintosThreads.RefreshedPriority
import PintosThreads.SchedulerInv

namespace Pintos

open Intrusive

variable {cfg : Config} {fuel m n : ℕ} {k k₁ k' : Kernel} {lab : Label} {t : ThreadPtr}
variable {l : LockPtr} {p : SemaPtr}

/-- The event is a switch to a thread. -/
def Event.isDispatch : Event → Bool
  | .dispatch _ => true
  | _ => false

/-- How often `schedule` has switched so far. -/
def Kernel.switches (k : Kernel) : ℕ :=
  k.log.countP Event.isDispatch

/-- The processor has been given up `n` times, and no time has passed. -/
structure Clock (n : ℕ) (k k' : Kernel) : Prop where
  ticks : k'.ticks = k.ticks
  switches : k'.switches = k.switches + n
  threadTicks : k'.threadTicks = if n = 0 then k.threadTicks else 0
  cur : n = 0 → k'.cur = k.cur

/-- Nor have the lists `locks_held` been written. -/
structure Turns (n : ℕ) (k k' : Kernel) : Prop extends Clock n k k' where
  lockElems : k'.lockElems = k.lockElems

theorem Turns.refl (k : Kernel) : Turns 0 k k :=
  ⟨⟨rfl, rfl, rfl, fun _ => rfl⟩, rfl⟩

theorem Turns.trans (h : Turns m k k₁) (h' : Turns n k₁ k') : Turns (m + n) k k' where
  lockElems := h'.lockElems.trans h.lockElems
  ticks := h'.ticks.trans h.ticks
  switches := by rw [h'.switches, h.switches, Nat.add_assoc]
  threadTicks := by
    rw [h'.threadTicks, h.threadTicks]
    split <;> split <;> simp_all
  cur := fun e =>
    (h'.cur (Nat.eq_zero_of_add_eq_zero_left e)).trans (h.cur (Nat.eq_zero_of_add_eq_zero_right e))

/-- What is done before and after the function at hand changes none of it. -/
theorem Turns.after (h : Turns n k₁ k') (h₀ : Turns 0 k k₁) : Turns n k k' :=
  Nat.zero_add n ▸ h₀.trans h

/-- None of it is written. -/
theorem Turns.same (ht : k'.ticks = k.ticks) (hs : k'.switches = k.switches)
    (hn : k'.threadTicks = k.threadTicks) (hc : k'.cur = k.cur)
    (hl : k'.lockElems = k.lockElems) : Turns 0 k k' :=
  ⟨⟨ht, hs, hn, fun _ => hc⟩, hl⟩

/-- Between two functions, none of it is written. -/
theorem Turns.via {k₂ : Kernel} (h₀ : Turns 0 k k₁) (h : Turns n k₂ k') (hs : Turns 0 k₁ k₂) :
    Turns n k k' :=
  h.after (hs.after h₀)

/-- Nor after the last one. -/
theorem Turns.done (h : Turns n k k₁) (hs : Turns 0 k₁ k') : Turns n k k' :=
  h.trans hs

/-! ### Threads and queues -/

theorem schedule_turns (h : schedule cfg k = some k') : Turns 1 k k' := by
  obtain ⟨next, e, -, -, rfl⟩ := by
    simpa [schedule, Option.bind_eq_some_iff] using h
  exact ⟨⟨rfl, List.countP_cons_of_pos rfl, rfl, fun h => absurd h one_ne_zero⟩, rfl⟩

theorem blockCurrent_turns (h : blockCurrent cfg k = some k') : Turns 1 k k' := by
  rw [blockCurrent] at h
  split at h
  · exact (schedule_turns h).after (.same rfl rfl rfl rfl rfl)
  · cases h

theorem insertByPriority_turns {m : ListPtr} (h : insertByPriority cfg fuel k m t = some k') :
    Turns 0 k k' := by
  obtain ⟨e, rfl⟩ := insertByPriority_eq h
  exact ⟨⟨rfl, rfl, rfl, fun _ => rfl⟩, rfl⟩

theorem mlfqsInsert_turns (h : mlfqsInsert k t = some k') : Turns 0 k k' := by
  obtain ⟨e, rfl⟩ := mlfqsInsert_eq h
  exact ⟨⟨rfl, rfl, rfl, fun _ => rfl⟩, rfl⟩

theorem mlfqsUpdatePriority_turns (k : Kernel) (t : ThreadPtr) :
    Turns 0 k (mlfqsUpdatePriority k t) := by
  obtain ⟨thr, h⟩ := mlfqsUpdatePriority_rest k t
  rw [h]
  exact ⟨⟨rfl, rfl, rfl, fun _ => rfl⟩, rfl⟩

theorem threadUnblock_turns (h : threadUnblock cfg fuel k t = some k') : Turns 0 k k' := by
  rw [threadUnblock] at h
  split at h
  · dsimp only at h
    split at h
    · exact ((mlfqsInsert_turns h).after (mlfqsUpdatePriority_turns _ t)).after
        (.same rfl rfl rfl rfl rfl)
    · exact (insertByPriority_turns h).after (.same rfl rfl rfl rfl rfl)
  · cases h

theorem yieldInsert_turns (h : yieldInsert cfg fuel k = some k') : Turns 0 k k' := by
  rw [yieldInsert] at h
  split at h
  · cases h
    exact .refl k
  · split at h
    · exact mlfqsInsert_turns h
    · exact insertByPriority_turns h

theorem yieldCurrent_turns (h : yieldCurrent cfg fuel k = some k') : Turns 1 k k' := by
  obtain ⟨k₁, h₁, h₂⟩ := Option.bind_eq_some_iff.mp h
  exact (yieldInsert_turns h₁).via (schedule_turns h₂) (.same rfl rfl rfl rfl rfl)

theorem exitCurrent_turns (h : exitCurrent cfg k = some k') : Turns 1 k k' :=
  (schedule_turns h).after (.same rfl rfl rfl rfl rfl)

/-! ### Semaphores and locks -/

/-- A test of `sema_down` gives up the processor at value zero. -/
theorem semaDownTest_turns {old : Bool} (h : semaDownTest cfg fuel k p old = some k') :
    Turns (if k.semaValue p = 0 then 1 else 0) k k' := by
  rw [semaDownTest] at h
  split at h
  case isTrue hv =>
    rw [if_pos hv]
    obtain ⟨k₁, h₁, h₂⟩ := Option.bind_eq_some_iff.mp h
    exact (insertByPriority_turns h₁).via (blockCurrent_turns h₂) (.same rfl rfl rfl rfl rfl)
  case isFalse hv =>
    rw [if_neg hv]
    cases h
    exact ⟨⟨rfl, rfl, rfl, fun _ => rfl⟩, rfl⟩

theorem semaTryDown_turns (k : Kernel) (agent : Option ThreadPtr) (p : SemaPtr) :
    Turns 0 k (semaTryDown k agent p).1 := by
  rw [semaTryDown]
  split <;> exact ⟨⟨rfl, rfl, rfl, fun _ => rfl⟩, rfl⟩

theorem semaUpBody_turns {agent : Option ThreadPtr}
    (h : semaUpBody cfg fuel k agent p = some k') : Turns 0 k k' := by
  obtain ⟨k₁, h₁, h⟩ := Option.bind_eq_some_iff.mp h
  cases h
  have hw : Turns 0 k k₁ := by
    rw [semaWake] at h₁
    split at h₁
    · cases h₁
      exact .refl k
    · obtain ⟨⟨t, e⟩, -, h₁⟩ := Option.bind_eq_some_iff.mp h₁
      exact (threadUnblock_turns h₁).after (.same rfl rfl rfl rfl rfl)
  exact hw.done (.same rfl rfl rfl rfl rfl)

theorem waitForLock_turns (h : waitForLock cfg fuel k l t = some k') : Turns 0 k k' := by
  obtain ⟨k₁, h₁, h₂⟩ := Option.bind_eq_some_iff.mp h
  obtain ⟨⟨thr, rfl⟩, -⟩ := donatePriority_spec fuel h₂
  have hin : Turns 0 k k₁ := (insertByPriority_turns h₁).after (.same rfl rfl rfl rfl rfl)
  exact hin.done (.same rfl rfl rfl rfl rfl)

theorem refreshPriority_turns (h : refreshPriority cfg fuel k t = some k') : Turns 0 k k' := by
  obtain ⟨p, rfl, -⟩ := refreshPriority_isGreatest h
  exact ⟨⟨rfl, rfl, rfl, fun _ => rfl⟩, rfl⟩

/-! ### Interrupts -/

theorem timerWakeup_turns {now : ℤ} : ∀ (ts : List ThreadPtr) {k k' : Kernel},
    timerWakeup cfg fuel now ts k = some k' → Turns 0 k k'
  | [], _, _, h => by
      cases h
      exact ⟨⟨rfl, rfl, rfl, fun _ => rfl⟩, rfl⟩
  | t :: ts, k, k', h => by
      rw [timerWakeup] at h
      split at h
      · cases h
        exact ⟨⟨rfl, rfl, rfl, fun _ => rfl⟩, rfl⟩
      · obtain ⟨k₁, h₁, h₂⟩ := Option.bind_eq_some_iff.mp h
        exact (timerWakeup_turns ts h₂).after (threadUnblock_turns h₁)

/-- A loop over the threads leaves them alone when its body does. -/
theorem threadForeach_turns {func : Kernel → ThreadPtr → Option Kernel}
    (hf : ∀ k t k', func k t = some k' → Turns 0 k k') (h : threadForeach func k = some k') :
    Turns 0 k k' :=
  foldlM_rel .refl (fun h₁ h₂ => h₂.after h₁) hf _ h

theorem reinsertQueues_turns : ∀ (fuel : ℕ) {k k' : Kernel},
    reinsertQueues fuel k = some k' → Turns 0 k k'
  | 0, _, _, h => by cases h
  | fuel + 1, k, k', h => by
      rw [reinsertQueues] at h
      split at h
      · cases h
        exact .refl k
      · simp only [Option.bind_eq_bind, Option.bind_eq_some_iff] at h
        obtain ⟨⟨t, e⟩, -, k₁, h₁, h₂⟩ := h
        have hi := mlfqsInsert_turns h₁
        exact (reinsertQueues_turns fuel h₂).after (hi.after (.same rfl rfl rfl rfl rfl))

theorem mlfqsUpdatePriorityAll_turns (h : mlfqsUpdatePriorityAll fuel k = some k') :
    Turns 0 k k' := by
  obtain ⟨k₁, h₁, h₂⟩ := Option.bind_eq_some_iff.mp h
  obtain ⟨e, -, h₂⟩ := Option.bind_eq_some_iff.mp h₂
  have hall : Turns 0 k k₁ := by
    refine threadForeach_turns (fun k t k' h => ?_) h₁
    cases h
    exact mlfqsUpdatePriority_turns k t
  exact hall.via (reinsertQueues_turns fuel h₂) (.same rfl rfl rfl rfl rfl)

theorem mlfqsUpdateRcpuLa_turns (h : mlfqsUpdateRcpuLa fuel k = some k') : Turns 0 k k' := by
  obtain ⟨k₁, h₁, h₂⟩ := Option.bind_eq_some_iff.mp h
  have hall : Turns 0 k k₁ := by
    refine threadForeach_turns (fun k t k' h => ?_) h₁
    rw [mlfqsUpdateRecentCpu] at h
    split at h
    · cases h
      exact .refl k
    · obtain ⟨c, -, rfl⟩ := by simpa [Option.bind_eq_some_iff] using h
      exact ⟨⟨rfl, rfl, rfl, fun _ => rfl⟩, rfl⟩
  simp only [mlfqsUpdateLoadAvg, Option.bind_eq_bind, Option.bind_eq_some_iff,
    Option.some.injEq] at h₂
  obtain ⟨_, -, _, -, _, -, rfl⟩ := h₂
  exact hall.done (.same rfl rfl rfl rfl rfl)

theorem timerMlfqs_turns {b : Bool} (h : timerMlfqs cfg fuel k = some (k', b)) :
    Turns 0 k k' := by
  rw [timerMlfqs] at h
  split at h
  · simp only [Option.bind_eq_bind, Option.bind_eq_some_iff] at h
    obtain ⟨⟨k₁, b₁⟩, h₁, k₂, h₂, h⟩ := h
    cases h
    have hp : Turns 0 k k₁ := by
      rw [timerPriorities] at h₁
      split at h₁
      · obtain ⟨k₃, h₃, h₁⟩ := Option.map_eq_some_iff.mp h₁
        cases h₁
        exact mlfqsUpdatePriorityAll_turns h₃
      · cases h₁
        exact .refl k
    rw [timerLoad] at h₂
    split at h₂
    · exact (mlfqsUpdateRcpuLa_turns h₂).after hp
    · cases h₂
      exact hp
  · cases h
    exact .refl k

theorem interruptReturn_turns {b : Bool} (h : interruptReturn cfg fuel k b = some k') :
    Turns b.toNat k k' := by
  rw [interruptReturn] at h
  split at h
  case isTrue hb =>
    subst hb
    exact (yieldCurrent_turns h).after (.same rfl rfl rfl rfl rfl)
  case isFalse hb =>
    obtain rfl := Bool.eq_false_of_not_eq_true hb
    cases h
    exact ⟨⟨rfl, rfl, rfl, fun _ => rfl⟩, rfl⟩

theorem endHalt_turns (k : Kernel) : Turns 0 k (endHalt k) := by
  rw [endHalt]
  split <;> exact ⟨⟨rfl, rfl, rfl, fun _ => rfl⟩, rfl⟩

theorem semaUpInterrupt_turns (h : semaUpInterrupt cfg fuel k p = some k') :
    ∃ n ≤ 1, Turns n k k' := by
  simp only [semaUpInterrupt, Option.bind_eq_bind, Option.bind_eq_some_iff] at h
  obtain ⟨k₁, h₁, b, -, h⟩ := h
  have hup : Turns 0 k k₁ := (endHalt_turns k).via (semaUpBody_turns h₁) (.same rfl rfl rfl rfl rfl)
  exact ⟨_, b.toNat_le, hup.via (interruptReturn_turns h) (.same rfl rfl rfl rfl rfl)⟩

theorem semaTryDownInterrupt_turns (h : semaTryDownInterrupt cfg fuel k p = some k') :
    Turns 0 k k' := by
  have hdown := (endHalt_turns k).via (semaTryDown_turns ((endHalt k).setLevel false) none p)
    (.same rfl rfl rfl rfl rfl)
  exact hdown.via (interruptReturn_turns h) (.same rfl rfl rfl rfl rfl)

/-- One tick has passed, and the running thread has used up one more of its time slice. -/
structure OneTick (k k' : Kernel) : Prop where
  lockElems : k'.lockElems = k.lockElems
  ticks : k'.ticks = k.ticks + 1
  switches : k'.switches = k.switches
  threadTicks : k'.threadTicks = k.threadTicks + 1
  cur : k'.cur = k.cur

theorem OneTick.turns (h : OneTick k k₁) (h' : Turns 0 k₁ k') : OneTick k k' where
  lockElems := h'.lockElems.trans h.lockElems
  ticks := h'.ticks.trans h.ticks
  switches := h'.switches.trans h.switches
  threadTicks := h'.threadTicks.trans h.threadTicks
  cur := (h'.cur rfl).trans h.cur

theorem threadTick_oneTick (k : Kernel) : OneTick k (threadTick cfg (ticked k)).1 ∧
    (threadTick cfg (ticked k)).2 = decide (timeSlice ≤ k.threadTicks + 1) := by
  have ht := endHalt_turns k
  have key : OneTick (endHalt k) (threadTick cfg (ticked k)).1 ∧
      (threadTick cfg (ticked k)).2 = decide (timeSlice ≤ (endHalt k).threadTicks + 1) := by
    rw [threadTick]
    dsimp only
    split <;> exact ⟨⟨rfl, rfl, rfl, rfl, rfl⟩, rfl⟩
  obtain ⟨hk, hb⟩ := key
  have hth : (endHalt k).threadTicks = k.threadTicks := ht.threadTicks
  refine ⟨⟨hk.lockElems.trans ht.lockElems, ?_, hk.switches.trans ht.switches, ?_,
    hk.cur.trans (ht.cur rfl)⟩, by rw [hb, hth]⟩
  · rw [hk.ticks, ht.ticks]
  · rw [hk.threadTicks, hth]

/-- The handler of the timer interrupt asks for a yield at the end of the time slice. -/
theorem timerHandler_oneTick {b : Bool} (h : timerHandler cfg fuel k = some (k', b)) :
    OneTick k k' ∧ (timeSlice ≤ k.threadTicks + 1 → b = true) := by
  simp only [timerHandler, Option.bind_eq_bind, Option.bind_eq_some_iff] at h
  obtain ⟨k₂, h₂, ⟨k₃, b'⟩, h₃, h⟩ := h
  cases h
  have htick : OneTick k (threadTick cfg (ticked k)).1 ∧
      (threadTick cfg (ticked k)).2 = decide (timeSlice ≤ k.threadTicks + 1) := threadTick_oneTick k
  obtain ⟨ht, hb⟩ := htick
  refine ⟨(ht.turns (timerWakeup_turns _ h₂)).turns (timerMlfqs_turns h₃), fun hs => ?_⟩
  rw [hb, decide_eq_true hs]
  rfl

/-- **The timer interrupt** gives up the processor at the end of the time slice. -/
theorem timerInterrupt_oneTick (h : timerInterrupt cfg fuel k = some k') :
    ∃ k₁, OneTick k k₁ ∧ ∃ b : Bool, (timeSlice ≤ k.threadTicks + 1 → b = true) ∧
      Turns b.toNat k₁ k' := by
  rw [timerInterrupt_eq] at h
  obtain ⟨⟨k₁, b⟩, h₁, h⟩ := Option.bind_eq_some_iff.mp h
  obtain ⟨ht, hb⟩ := timerHandler_oneTick h₁
  exact ⟨k₁, ht, b, hb, interruptReturn_turns h⟩

/-! ### Frames -/

/-- The frames that write the lists `locks_held`. -/
def Frame.MovesLocks : Frame → Prop
  | lockAcquireFree _ _ | lockAcquireHeld _ | lockReleaseBody _ | threadCreateLink _ _ _ _ => True
  | _ => False

/-- The processor has been given up once at most. -/
def TurnsOnce (k k' : Kernel) : Prop :=
  ∃ n ≤ 1, Turns n k k'

theorem Turns.zero (h : Turns 0 k k') : TurnsOnce k k' :=
  ⟨0, Nat.zero_le 1, h⟩

theorem Turns.one (h : Turns 1 k k') : TurnsOnce k k' :=
  ⟨1, le_rfl, h⟩

/-- **Every frame** but four leaves the lists `locks_held` alone, and gives up the processor once
at most. -/
theorem exec_turns {f : Frame} (hf : ¬ f.MovesLocks) (h : exec cfg fuel k f = some k') :
    TurnsOnce k k' := by
  cases f <;> simp only [exec] at h
  case lockAcquireFree | lockAcquireHeld | lockReleaseBody | threadCreateLink =>
    exact absurd trivial hf
  -- a thread gives up the processor where it blocks, yields or exits
  case semaDown p =>
    refine ⟨_, ?_, (semaDownTest_turns h).after (.same rfl rfl rfl rfl rfl)⟩
    split <;> decide
  case semaDownWait p old =>
    refine ⟨_, ?_, semaDownTest_turns h⟩
    split <;> decide
  case semaTryDown p =>
    cases h
    exact (semaTryDown_turns k _ p).zero
  case semaUp p =>
    obtain ⟨k₁, h₁, rfl⟩ := Option.map_eq_some_iff.mp h
    exact Turns.zero ((semaUpBody_turns h₁).done (.same rfl rfl rfl rfl rfl))
  case lockAcquireBody l =>
    split at h
    · cases h
      exact Turns.zero (.same rfl rfl rfl rfl rfl)
    · obtain ⟨k₁, h₁, rfl⟩ := Option.map_eq_some_iff.mp h
      exact Turns.zero ((waitForLock_turns h₁).done (.same rfl rfl rfl rfl rfl))
  case lockTryAcquireDown l =>
    cases h
    have hd := semaTryDown_turns k (some k.cur) (.ofLock l)
    split
    · exact Turns.zero (hd.done (.same rfl rfl rfl rfl rfl))
    · exact hd.zero
  case lockReleaseRefresh old =>
    obtain ⟨k₁, h₁, rfl⟩ := Option.map_eq_some_iff.mp h
    have hr := refreshPriority_turns h₁
    split
    · exact Turns.zero (hr.done (.same rfl rfl rfl rfl rfl))
    · exact Turns.zero (hr.done (.same rfl rfl rfl rfl rfl))
  case condSignalMax c m es =>
    cases es with
    | nil =>
        cases h
        exact Turns.zero (.same rfl rfl rfl rfl rfl)
    | cons e es =>
        obtain ⟨less, -, rfl⟩ := Option.map_eq_some_iff.mp h
        exact Turns.zero (.same rfl rfl rfl rfl rfl)
  case checkPreemptionRead =>
    obtain ⟨n, -, rfl⟩ := Option.map_eq_some_iff.mp h
    exact Turns.zero (.same rfl rfl rfl rfl rfl)
  case mlfqsCheckPreemption i =>
    cases i with
    | zero =>
        cases h
        exact Turns.zero (.same rfl rfl rfl rfl rfl)
    | succ i =>
        cases h
        split <;> exact Turns.zero (.same rfl rfl rfl rfl rfl)
  case threadYield => exact Turns.one ((yieldCurrent_turns h).after (.same rfl rfl rfl rfl rfl))
  case threadBlock => exact Turns.one ((blockCurrent_turns h).after (.same rfl rfl rfl rfl rfl))
  case threadUnblock t => exact (threadUnblock_turns h).zero
  case threadExit =>
    exact (exitCurrent_turns h).one
  case threadCreate p e =>
    split at h
    · cases h
      exact Turns.zero (.same rfl rfl rfl rfl rfl)
    · split at h <;> cases h
      exact Turns.zero (.same rfl rfl rfl rfl rfl)
  case threadCreateUnblock t =>
    obtain ⟨k₁, h₁, rfl⟩ := Option.map_eq_some_iff.mp h
    exact Turns.zero ((threadUnblock_turns h₁).done (.same rfl rfl rfl rfl rfl))
  case idleLoop => exact Turns.one ((blockCurrent_turns h).after (.same rfl rfl rfl rfl rfl))
  case timerSleepBody start n =>
    exact Turns.one ((blockCurrent_turns h).after (.same rfl rfl rfl rfl rfl))
  case idleHalt => cases h
  -- what is left pushes frames, perhaps behind an assertion or a test
  all_goals first
    | (cases h; exact Turns.zero (.same rfl rfl rfl rfl rfl))
    | (split at h <;> cases h <;> exact Turns.zero (.same rfl rfl rfl rfl rfl))
    | (split at h <;> cases h; split <;> exact Turns.zero (.same rfl rfl rfl rfl rfl))

theorem exec_clock {f : Frame} (h : exec cfg fuel k f = some k') : ∃ n ≤ 1, Clock n k k' := by
  by_cases hf : f.MovesLocks
  · -- the four frames that move locks
    refine ⟨0, Nat.zero_le 1, ?_⟩
    have hlock : ∀ l {k₁}, takeLock k l = some k₁ → Clock 0 k k₁ := by
      intro l k₁ h₁
      obtain ⟨e, -, rfl⟩ := Option.map_eq_some_iff.mp h₁
      exact ⟨rfl, rfl, rfl, fun _ => rfl⟩
    cases f with
    | lockAcquireFree l old =>
        obtain ⟨k₁, h₁, rfl⟩ := Option.map_eq_some_iff.mp h
        have hc := hlock l h₁
        exact ⟨hc.ticks, hc.switches, hc.threadTicks, hc.cur⟩
    | lockAcquireHeld l =>
        obtain ⟨k₁, h₁, rfl⟩ := Option.map_eq_some_iff.mp h
        have hc := hlock l h₁
        exact ⟨hc.ticks, hc.switches, hc.threadTicks, hc.cur⟩
    | lockReleaseBody l =>
        obtain ⟨k₁, h₁, rfl⟩ := Option.map_eq_some_iff.mp h
        obtain ⟨le, -, h₁⟩ := Option.bind_eq_some_iff.mp h₁
        obtain ⟨x, -, h₁⟩ := Option.bind_eq_some_iff.mp h₁
        obtain ⟨e, -, h₁⟩ := Option.bind_eq_some_iff.mp h₁
        cases h₁
        exact ⟨rfl, rfl, rfl, fun _ => rfl⟩
    | threadCreateLink p e n r =>
        simp only [exec] at h
        cases h
        split <;> exact ⟨rfl, rfl, rfl, fun _ => rfl⟩
    | _ => exact absurd hf id
  · obtain ⟨n, hn, ht⟩ := exec_turns hf h
    exact ⟨n, hn, ht.toClock⟩

/-- Every step but a timer interrupt takes no time. -/
theorem step_clock (hl : lab ≠ .timer) (h : step cfg fuel k lab = some k') :
    ∃ n ≤ 1, Clock n k k' := by
  cases lab with
  | call c =>
      rw [step] at h
      split at h
      · cases h
        exact ⟨0, Nat.zero_le 1, rfl, rfl, rfl, fun _ => rfl⟩
      · cases h
  | run =>
      rw [step] at h
      split at h
      · cases h
      · obtain ⟨n, hn, hc⟩ := exec_clock h
        exact ⟨n, hn, hc.ticks, hc.switches, hc.threadTicks, hc.cur⟩
  | timer => exact absurd rfl hl
  | semaUp n =>
      rw [step] at h
      split at h
      · obtain ⟨n, hn, ht⟩ := semaUpInterrupt_turns h
        exact ⟨n, hn, ht.toClock⟩
      · cases h
  | semaTryDown n =>
      rw [step] at h
      split at h
      · exact ⟨0, Nat.zero_le 1, (semaTryDownInterrupt_turns h).toClock⟩
      · cases h

/-! ### The time slice -/

/-- What a step does to the time slice of the running thread, given the number of ticks in it and
the number of switches. -/
theorem Clock.slice {d : ℕ} (hn : n ≤ 1) (hd : d ≤ 1) (hc : Clock n k₁ k')
    (hth : k₁.threadTicks = k.threadTicks + d) (hs : k₁.switches = k.switches)
    (hlast : timeSlice ≤ k.threadTicks + d → n = 1) (hk : k.threadTicks < timeSlice) :
    k'.threadTicks < timeSlice ∧ k.switches ≤ k'.switches ∧
      k.threadTicks + timeSlice * k.switches + d ≤ k'.threadTicks + timeSlice * k'.switches := by
  have h₁ := hc.switches
  have h₂ := hc.threadTicks
  rw [hs] at h₁
  rw [hth] at h₂
  obtain rfl | rfl : n = 0 ∨ n = 1 := by omega
  · -- without a switch the slice goes on, and has not been used up
    rw [Nat.add_zero] at h₁
    have hlt : ¬ timeSlice ≤ k.threadTicks + d := fun h => absurd (hlast h) zero_ne_one
    rw [if_pos rfl] at h₂
    rw [h₁, h₂]
    omega
  · -- with one it starts again
    rw [if_neg one_ne_zero] at h₂
    rw [h₁, h₂, Nat.mul_add]
    omega

theorem step_slice (h : step cfg fuel k lab = some k') (hk : k.threadTicks < timeSlice) :
    (k'.threadTicks < timeSlice ∧ k.switches ≤ k'.switches ∧
      k.threadTicks + timeSlice * k.switches + (if lab = .timer then 1 else 0) ≤
        k'.threadTicks + timeSlice * k'.switches) ∧
      k'.ticks = k.ticks + (if lab = .timer then 1 else 0) ∧
      (k'.switches = k.switches → k'.cur = k.cur) := by
  by_cases hl : lab = .timer
  · subst hl
    rw [step] at h
    split at h
    case isFalse => cases h
    case isTrue =>
      obtain ⟨k₁, ht, b, hb, hr⟩ := timerInterrupt_oneTick h
      refine ⟨hr.slice b.toNat_le le_rfl ht.threadTicks ht.switches (fun hs => ?_) hk,
        hr.ticks.trans ht.ticks, fun hs => ?_⟩
      · rw [hb hs]
        rfl
      · have hs₁ := hr.switches
        rw [ht.switches] at hs₁
        exact (hr.cur (by omega)).trans ht.cur
  · obtain ⟨n, hn, hc⟩ := step_clock hl h
    rw [if_neg hl, if_neg hl]
    refine ⟨hc.slice hn (Nat.zero_le 1) rfl rfl (fun hs => absurd hk (not_lt.mpr hs)) hk, ?_,
      fun hs => hc.cur ?_⟩
    · rw [hc.ticks, add_zero]
    · have hs₁ := hc.switches
      omega

theorem Reachable.threadTicks {ok : Kernel → Label → Prop} (h : Reachable cfg ok k) :
    k.threadTicks < timeSlice := by
  induction h with
  | refl => exact Nat.zero_lt_succ 3
  | tail _ hn ih =>
      obtain ⟨lab, fuel, -, hs⟩ := hn
      exact (step_slice hs ih).1.1

theorem Path.slice {ok : Kernel → Label → Prop} {tr : List (Kernel × Label)}
    (hrun : Path cfg ok k tr k') (hk : k.threadTicks < timeSlice) :
    (k'.threadTicks < timeSlice ∧ k.switches ≤ k'.switches ∧
      k.threadTicks + timeSlice * k.switches + tr.countP (fun s => s.2 = .timer) ≤
        k'.threadTicks + timeSlice * k'.switches) ∧
      k'.ticks = k.ticks + tr.countP (fun s => s.2 = .timer) ∧
      (k'.switches = k.switches → k'.cur = k.cur) := by
  induction hrun with
  | nil => exact ⟨⟨hk, le_rfl, le_rfl⟩, by simp, fun _ => rfl⟩
  | @snoc k₁ k₂ tr lab fuel _ _ hs ih =>
      obtain ⟨⟨hk₁, hle, hsum⟩, ht, hc⟩ := ih
      obtain ⟨⟨hk₂, hle', hsum'⟩, ht', hc'⟩ := step_slice hs hk₁
      have hcount : (tr ++ [(k₁, lab)]).countP (fun s => s.2 = .timer) =
          tr.countP (fun s => s.2 = .timer) + if lab = .timer then 1 else 0 := by
        simp [List.countP_append, List.countP_cons]
      rw [hcount]
      refine ⟨⟨hk₂, hle.trans hle', ?_⟩, ?_, fun e => ?_⟩
      · omega
      · rw [ht', ht]
        push_cast
        split <;> omega
      · exact (hc' (by omega)).trans (hc (by omega))

end Pintos
