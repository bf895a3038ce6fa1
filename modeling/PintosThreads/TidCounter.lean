/-
PintosThreads/TidCounter.lean

Who writes `next_tid`.

Nothing but the write of `allocate_tid` does (`step_nextTid`), whatever the
schedulers, the locks and the interrupt handlers do in between.  The counter is
therefore what the last write has left in it.
-/
import PintosThreads.RefreshedPriority
import PintosThreads.LockQueues
import PintosThreads.Runs

namespace Pintos

open Intrusive

variable {cfg : Config} {fuel : ℕ} {k k₁ k' : Kernel} {t : ThreadPtr} {p : SemaPtr} {l : LockPtr}

/-! ### The scheduler -/

theorem insertByPriority_nextTid {l : ListPtr} (h : insertByPriority cfg fuel k l t = some k') :
    k'.nextTid = k.nextTid := by
  obtain ⟨e, rfl⟩ := insertByPriority_eq h
  rfl

theorem mlfqsInsert_nextTid (h : mlfqsInsert k t = some k') : k'.nextTid = k.nextTid := by
  obtain ⟨e, rfl⟩ := mlfqsInsert_eq h
  rfl

theorem mlfqsUpdatePriority_nextTid (k : Kernel) (t : ThreadPtr) :
    (mlfqsUpdatePriority k t).nextTid = k.nextTid := by
  obtain ⟨thr, h⟩ := mlfqsUpdatePriority_rest k t
  rw [h]
  rfl

theorem schedule_nextTid (h : schedule cfg k = some k') : k'.nextTid = k.nextTid := by
  obtain ⟨next, e, -, -, rfl⟩ := by
    simpa [schedule, Option.bind_eq_some_iff] using h
  rfl

theorem blockCurrent_nextTid (h : blockCurrent cfg k = some k') : k'.nextTid = k.nextTid := by
  rw [blockCurrent] at h
  split at h
  · exact (schedule_nextTid h).trans rfl
  · cases h

theorem threadUnblock_nextTid (h : threadUnblock cfg fuel k t = some k') :
    k'.nextTid = k.nextTid := by
  rw [threadUnblock] at h
  split at h
  · dsimp only at h
    split at h
    · exact (mlfqsInsert_nextTid h).trans (mlfqsUpdatePriority_nextTid _ t)
    · exact (insertByPriority_nextTid h).trans rfl
  · cases h

theorem yieldInsert_nextTid (h : yieldInsert cfg fuel k = some k') : k'.nextTid = k.nextTid := by
  rw [yieldInsert] at h
  split at h
  · cases h
    rfl
  · split at h
    · exact mlfqsInsert_nextTid h
    · exact insertByPriority_nextTid h

theorem yieldCurrent_nextTid (h : yieldCurrent cfg fuel k = some k') : k'.nextTid = k.nextTid := by
  obtain ⟨k₁, h₁, h₂⟩ := Option.bind_eq_some_iff.mp h
  have h₂ : k'.nextTid = k₁.nextTid := (schedule_nextTid h₂ :)
  exact h₂.trans (yieldInsert_nextTid h₁)

theorem exitCurrent_nextTid (h : exitCurrent cfg k = some k') : k'.nextTid = k.nextTid :=
  (schedule_nextTid h).trans rfl

/-! ### Semaphores and locks -/

theorem semaDownTest_nextTid {old : Bool} (h : semaDownTest cfg fuel k p old = some k') :
    k'.nextTid = k.nextTid := by
  rw [semaDownTest] at h
  split at h
  · obtain ⟨k₁, h₁, h₂⟩ := Option.bind_eq_some_iff.mp h
    have h₂ : k'.nextTid = k₁.nextTid := (blockCurrent_nextTid h₂ :)
    exact h₂.trans (insertByPriority_nextTid h₁)
  · cases h
    rfl

theorem semaTryDown_nextTid (k : Kernel) (agent : Option ThreadPtr) (p : SemaPtr) :
    (semaTryDown k agent p).1.nextTid = k.nextTid := by
  rw [semaTryDown]
  split <;> rfl

theorem semaUpBody_nextTid {agent : Option ThreadPtr}
    (h : semaUpBody cfg fuel k agent p = some k') : k'.nextTid = k.nextTid := by
  obtain ⟨k₁, h₁, h⟩ := Option.bind_eq_some_iff.mp h
  cases h
  show k₁.nextTid = k.nextTid
  rw [semaWake] at h₁
  split at h₁
  · cases h₁
    rfl
  · obtain ⟨⟨t, e⟩, -, h₁⟩ := Option.bind_eq_some_iff.mp h₁
    have h₁ : k₁.nextTid = (k.setElems e).nextTid := threadUnblock_nextTid h₁
    exact h₁

theorem waitForLock_nextTid (h : waitForLock cfg fuel k l t = some k') :
    k'.nextTid = k.nextTid := by
  obtain ⟨k₁, h₁, h₂⟩ := Option.bind_eq_some_iff.mp h
  obtain ⟨⟨thr, rfl⟩, -⟩ := donatePriority_spec fuel h₂
  exact (insertByPriority_nextTid h₁).trans rfl

theorem takeLock_nextTid (h : takeLock k l = some k') : k'.nextTid = k.nextTid := by
  obtain ⟨e, -, rfl⟩ := Option.map_eq_some_iff.mp h
  rfl

theorem releaseLock_nextTid (h : releaseLock fuel k l = some k') : k'.nextTid = k.nextTid := by
  obtain ⟨_, -, h⟩ := Option.bind_eq_some_iff.mp h
  obtain ⟨_, -, h⟩ := Option.bind_eq_some_iff.mp h
  obtain ⟨_, -, h⟩ := Option.bind_eq_some_iff.mp h
  cases h
  rfl

theorem refreshPriority_nextTid (h : refreshPriority cfg fuel k t = some k') :
    k'.nextTid = k.nextTid := by
  obtain ⟨p, rfl, -⟩ := refreshPriority_isGreatest h
  rfl

/-! ### Interrupts -/

theorem timerWakeup_nextTid {now : ℤ} : ∀ (ts : List ThreadPtr) {k k' : Kernel},
    timerWakeup cfg fuel now ts k = some k' → k'.nextTid = k.nextTid
  | [], _, _, h => by
      cases h
      rfl
  | t :: ts, k, k', h => by
      rw [timerWakeup] at h
      split at h
      · cases h
        rfl
      · obtain ⟨k₁, h₁, h₂⟩ := Option.bind_eq_some_iff.mp h
        exact (timerWakeup_nextTid ts h₂).trans (threadUnblock_nextTid h₁)

/-- A loop over the threads leaves the counter alone when its body does. -/
theorem threadForeach_nextTid {func : Kernel → ThreadPtr → Option Kernel}
    (hf : ∀ k t k', func k t = some k' → k'.nextTid = k.nextTid)
    (h : threadForeach func k = some k') : k'.nextTid = k.nextTid := by
  have hrel := @foldlM_rel _ _ (fun k k' : Kernel => k'.nextTid = k.nextTid) (fun _ => rfl)
    (fun h₁ h₂ => h₂.trans h₁) _ hf
  exact hrel _ h

theorem reinsertQueues_nextTid : ∀ (fuel : ℕ) {k k' : Kernel},
    reinsertQueues fuel k = some k' → k'.nextTid = k.nextTid
  | 0, _, _, h => by cases h
  | fuel + 1, k, k', h => by
      rw [reinsertQueues] at h
      split at h
      · cases h
        rfl
      · simp only [Option.bind_eq_bind, Option.bind_eq_some_iff] at h
        obtain ⟨⟨t, e⟩, -, k₁, h₁, h₂⟩ := h
        have h₁ : k₁.nextTid = (k.setElems e).nextTid := mlfqsInsert_nextTid h₁
        exact (reinsertQueues_nextTid fuel h₂).trans h₁

theorem mlfqsUpdatePriorityAll_nextTid (h : mlfqsUpdatePriorityAll fuel k = some k') :
    k'.nextTid = k.nextTid := by
  obtain ⟨k₁, h₁, h₂⟩ := Option.bind_eq_some_iff.mp h
  obtain ⟨e, -, h₂⟩ := Option.bind_eq_some_iff.mp h₂
  have hall : k₁.nextTid = k.nextTid := by
    refine threadForeach_nextTid (fun k t k' h => ?_) h₁
    cases h
    exact mlfqsUpdatePriority_nextTid k t
  exact (reinsertQueues_nextTid fuel h₂).trans hall

theorem mlfqsUpdateRecentCpu_nextTid (h : mlfqsUpdateRecentCpu k t = some k') :
    k'.nextTid = k.nextTid := by
  rw [mlfqsUpdateRecentCpu] at h
  split at h
  · cases h
    rfl
  · obtain ⟨c, -, rfl⟩ := by simpa [Option.bind_eq_some_iff] using h
    rfl

theorem mlfqsUpdateRcpuLa_nextTid (h : mlfqsUpdateRcpuLa fuel k = some k') :
    k'.nextTid = k.nextTid := by
  obtain ⟨k₁, h₁, h₂⟩ := Option.bind_eq_some_iff.mp h
  have hall := threadForeach_nextTid (fun _ _ _ => mlfqsUpdateRecentCpu_nextTid) h₁
  simp only [mlfqsUpdateLoadAvg, Option.bind_eq_bind, Option.bind_eq_some_iff,
    Option.some.injEq] at h₂
  obtain ⟨_, -, _, -, _, -, rfl⟩ := h₂
  exact hall

theorem timerPriorities_nextTid {b : Bool} (h : timerPriorities fuel k = some (k', b)) :
    k'.nextTid = k.nextTid := by
  rw [timerPriorities] at h
  split at h
  · obtain ⟨k₁, h₁, h⟩ := Option.map_eq_some_iff.mp h
    cases h
    exact mlfqsUpdatePriorityAll_nextTid h₁
  · cases h
    rfl

theorem timerLoad_nextTid (h : timerLoad fuel k = some k') : k'.nextTid = k.nextTid := by
  rw [timerLoad] at h
  split at h
  · exact mlfqsUpdateRcpuLa_nextTid h
  · cases h
    rfl

theorem timerMlfqs_nextTid {b : Bool} (h : timerMlfqs cfg fuel k = some (k', b)) :
    k'.nextTid = k.nextTid := by
  rw [timerMlfqs] at h
  split at h
  · simp only [Option.bind_eq_bind, Option.bind_eq_some_iff] at h
    obtain ⟨⟨k₁, b₁⟩, h₁, k₂, h₂, h⟩ := h
    cases h
    exact (timerLoad_nextTid h₂).trans (timerPriorities_nextTid h₁)
  · cases h
    rfl

theorem interruptReturn_nextTid {b : Bool} (h : interruptReturn cfg fuel k b = some k') :
    k'.nextTid = k.nextTid := by
  rw [interruptReturn] at h
  split at h
  · exact (yieldCurrent_nextTid h).trans rfl
  · cases h
    rfl

theorem endHalt_nextTid (k : Kernel) : (endHalt k).nextTid = k.nextTid := by
  rw [endHalt]
  split <;> rfl

theorem threadTick_nextTid (k : Kernel) : (threadTick cfg k).1.nextTid = k.nextTid := by
  rw [threadTick]
  dsimp only
  split <;> rfl

theorem timerInterrupt_nextTid (h : timerInterrupt cfg fuel k = some k') :
    k'.nextTid = k.nextTid := by
  simp only [timerInterrupt, Option.bind_eq_bind, Option.bind_eq_some_iff] at h
  obtain ⟨k₁, h₁, ⟨k₂, b⟩, h₂, h⟩ := h
  have hwake := timerWakeup_nextTid _ h₁
  rw [threadTick_nextTid, Kernel.setLevel_nextTid, endHalt_nextTid] at hwake
  calc k'.nextTid = k₂.nextTid := interruptReturn_nextTid h
    _ = k₁.nextTid := timerMlfqs_nextTid h₂
    _ = k.nextTid := hwake

theorem semaUpInterrupt_nextTid (h : semaUpInterrupt cfg fuel k p = some k') :
    k'.nextTid = k.nextTid := by
  simp only [semaUpInterrupt, Option.bind_eq_bind, Option.bind_eq_some_iff] at h
  obtain ⟨k₁, h₁, b, -, h⟩ := h
  have hup := semaUpBody_nextTid h₁
  rw [Kernel.setLevel_nextTid, endHalt_nextTid] at hup
  exact (interruptReturn_nextTid h).trans hup

theorem semaTryDownInterrupt_nextTid (h : semaTryDownInterrupt cfg fuel k p = some k') :
    k'.nextTid = k.nextTid := by
  rw [semaTryDownInterrupt] at h
  have hdown := semaTryDown_nextTid ((endHalt k).setLevel false) none p
  rw [Kernel.setLevel_nextTid, endHalt_nextTid] at hdown
  exact (interruptReturn_nextTid h).trans hdown

/-! ### Steps -/

theorem exec_nextTid {f : Frame} (ha : cfg.atomicTid = false)
    (hf : ∀ t tid, f ≠ .allocateTidWrite t tid) (h : exec cfg fuel k f = some k') :
    k'.nextTid = k.nextTid := by
  cases f <;> simp only [exec] at h
  case allocateTidWrite t tid => exact absurd rfl (hf t tid)
  case semaDown p => exact (semaDownTest_nextTid h :)
  case semaDownWait p old => exact (semaDownTest_nextTid h :)
  case semaTryDown p =>
    cases h
    exact (semaTryDown_nextTid k _ p :)
  case semaUp p =>
    obtain ⟨k₁, h₁, rfl⟩ := Option.map_eq_some_iff.mp h
    exact (semaUpBody_nextTid h₁ :)
  case lockAcquireBody l =>
    split at h
    case h_1 =>
      cases h
      rfl
    case h_2 =>
      obtain ⟨k₁, h₁, rfl⟩ := Option.map_eq_some_iff.mp h
      exact (waitForLock_nextTid h₁ :)
  case lockAcquireFree l old | lockAcquireHeld l =>
    obtain ⟨k₁, h₁, rfl⟩ := Option.map_eq_some_iff.mp h
    exact (takeLock_nextTid h₁ :)
  case lockTryAcquireDown l =>
    cases h
    split
    · exact (semaTryDown_nextTid k _ _ :)
    · exact (semaTryDown_nextTid k _ _ :)
  case lockReleaseBody l =>
    obtain ⟨k₁, h₁, rfl⟩ := Option.map_eq_some_iff.mp h
    exact (releaseLock_nextTid h₁ :)
  case lockReleaseRefresh old =>
    obtain ⟨k₁, h₁, rfl⟩ := Option.map_eq_some_iff.mp h
    split
    · exact (refreshPriority_nextTid h₁ :)
    · exact (refreshPriority_nextTid h₁ :)
  case threadYield => exact (yieldCurrent_nextTid h :)
  case threadBlock | idleLoop => exact (blockCurrent_nextTid h :)
  case timerSleepBody start n => exact (blockCurrent_nextTid h :)
  case threadUnblock t => exact (threadUnblock_nextTid h :)
  case threadExit => exact (exitCurrent_nextTid h :)
  case threadCreateUnblock t =>
    obtain ⟨k₁, h₁, rfl⟩ := Option.map_eq_some_iff.mp h
    exact (threadUnblock_nextTid h₁ :)
  case threadCreateLink p e n r =>
    rw [ha] at h
    cases h
    rfl
  case condSignalMax c m es =>
    cases es with
    | nil =>
        cases h
        rfl
    | cons e es =>
        obtain ⟨less, -, rfl⟩ := Option.map_eq_some_iff.mp h
        rfl
  case checkPreemptionRead =>
    obtain ⟨n, -, rfl⟩ := Option.map_eq_some_iff.mp h
    rfl
  case mlfqsCheckPreemption i =>
    cases i with
    | zero =>
        cases h
        rfl
    | succ i =>
        cases h
        split <;> rfl
  -- the rest is one assignment, behind at most one test
  case idleHalt => cases h
  case condSignalFirst c | checkPreemptionFront | condBroadcast c l =>
    split at h <;> cases h <;> rfl
  case lockAcquire l | lockTryAcquire l | lockRelease l | condWait c l | condSignal c l =>
    split at h <;> cases h
    rfl
  case threadCreate p e =>
    split at h
    · cases h
      rfl
    · split at h <;> cases h
      rfl
  case checkPreemption | checkPreemptionCompare n | mlfqsCheckPreemptionCompare p =>
    cases h
    split <;> rfl
  case threadSetNiceUpdate =>
    cases h
    split <;> rfl
  case timerSleep n =>
    split at h <;> cases h
    split <;> rfl
  all_goals
    cases h
    rfl

/-- **Only the write in `allocate_tid` changes `next_tid`.** -/
theorem step_nextTid {lab : Label} (ha : cfg.atomicTid = false)
    (hf : lab = .run → ∀ t tid fs, k.stack k.cur ≠ .allocateTidWrite t tid :: fs)
    (h : step cfg fuel k lab = some k') : k'.nextTid = k.nextTid := by
  cases lab <;> simp only [step] at h
  case call c =>
    split at h <;> cases h
    rfl
  case run =>
    split at h
    · cases h
    case h_2 f fs e => exact (exec_nextTid ha (fun t tid hft => hf rfl t tid fs (hft ▸ e)) h :)
  case timer =>
    split at h
    · exact timerInterrupt_nextTid h
    · cases h
  case semaUp n =>
    split at h
    · exact semaUpInterrupt_nextTid h
    · cases h
  case semaTryDown n =>
    split at h
    · exact semaTryDownInterrupt_nextTid h
    · cases h

end Pintos
