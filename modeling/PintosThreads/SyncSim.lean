/-
PintosThreads/SyncSim.lean

The kernel refines the synchronization machine: every step of the kernel is a
step of `Sync.Step` of the running thread (`sync_step`), and so every
reachable state of the kernel shows a reachable state of the synchronization
machine (`Reachable.sync`).

The functions of the scheduler are invisible to the synchronization machine.
`SameSync` says so of those that do not switch threads, `Switched` of those
that may.
-/
import PintosThreads.Sync

namespace Pintos

open Intrusive

variable {cfg : Config} {fuel : ℕ} {k k' : Kernel}

/-! ### What synchronization sees of a kernel -/

def Event.isSema : Event → Bool
  | down _ _ | up _ _ => true
  | _ => false

namespace Kernel

@[simps]
def sync (k : Kernel) : Sync where
  stack := k.stack
  value := k.semaValue
  holder := k.lockHolder
  waiters := k.condWaiters
  idleThread := k.idleThread
  nextThread := k.nextThread
  nextWaiter := k.nextWaiter
  events := k.log.filter Event.isSema

variable (k : Kernel)

@[simp]
theorem sync_modify (t : ThreadPtr) (f : Thread → Thread) : (k.modify t f).sync = k.sync :=
  rfl

@[simp]
theorem sync_setLevel (b : Bool) : (k.setLevel b).sync = k.sync :=
  rfl

@[simp]
theorem sync_setElems (e : Links ListPtr ThreadPtr) : (k.setElems e).sync = k.sync :=
  rfl

theorem sync_pushes (fs : List Frame) :
    (k.pushes fs).sync = k.sync.setStack k.cur (fs ++ k.sync.stack k.cur) :=
  rfl

theorem sync_push (f : Frame) :
    (k.push f).sync = k.sync.setStack k.cur ([f] ++ k.sync.stack k.cur) :=
  rfl

end Kernel

/-! ### Functions that are invisible to synchronization -/

/-- The synchronization machine does not see the difference, and the running
thread stays the same. -/
def SameSync (k k' : Kernel) : Prop :=
  k'.sync = k.sync ∧ k'.cur = k.cur

/-- The synchronization machine does not see the difference, and the running
thread is one that has been created. -/
def Switched (k k' : Kernel) : Prop :=
  k'.sync = k.sync ∧ k'.cur < k'.nextThread

theorem SameSync.refl (k : Kernel) : SameSync k k :=
  ⟨rfl, rfl⟩

theorem SameSync.after {k₁ k₂ k₃ : Kernel} (h₂ : SameSync k₂ k₃) (h₁ : SameSync k₁ k₂) :
    SameSync k₁ k₃ :=
  ⟨h₂.1.trans h₁.1, h₂.2.trans h₁.2⟩

theorem SameSync.nextThread (h : SameSync k k') : k'.nextThread = k.nextThread :=
  congrArg Sync.nextThread h.1

theorem Switched.after {k₁ k₂ k₃ : Kernel} (h₂ : Switched k₂ k₃) (h₁ : SameSync k₁ k₂) :
    Switched k₁ k₃ :=
  ⟨h₂.1.trans h₁.1, h₂.2⟩

theorem SameSync.lt (h : SameSync k k') (hc : k.cur < k.nextThread) : Switched k k' := by
  refine ⟨h.1, ?_⟩
  rw [h.2, h.nextThread]
  exact hc

/-- A loop stays within a preorder that each of its passes stays within. -/
theorem foldlM_rel {σ α : Type*} {R : σ → σ → Prop} (hr : ∀ s, R s s)
    (ht : ∀ {s₁ s₂ s₃}, R s₁ s₂ → R s₂ s₃ → R s₁ s₃) {func : σ → α → Option σ}
    (hf : ∀ s a s', func s a = some s' → R s s') :
    ∀ (xs : List α) {s s' : σ}, xs.foldlM func s = some s' → R s s'
  | [], s, s', h => by
      obtain rfl : s = s' := by simpa using h
      exact hr s
  | x :: xs, s, s', h => by
      obtain ⟨s₁, h₁, h₂⟩ := by simpa [List.foldlM_cons, Option.bind_eq_some_iff] using h
      exact ht (hf s x s₁ h₁) (foldlM_rel hr ht hf xs h₂)

theorem SameSync.foldlM {α : Type*} {func : Kernel → α → Option Kernel}
    (hf : ∀ k a k', func k a = some k' → SameSync k k') (xs : List α) {k k' : Kernel}
    (h : xs.foldlM func k = some k') : SameSync k k' :=
  foldlM_rel .refl (fun h₁ h₂ => h₂.after h₁) hf xs h

theorem insertByPriority_eq {l : ListPtr} {t : ThreadPtr}
    (h : insertByPriority cfg fuel k l t = some k') : ∃ e, k' = k.setElems e := by
  obtain ⟨e, -, rfl⟩ := by simpa [insertByPriority, Option.map_eq_some_iff] using h
  exact ⟨e, rfl⟩

theorem mlfqsInsert_eq {t : ThreadPtr} (h : mlfqsInsert k t = some k') :
    ∃ e, k' = (k.setElems e).record (.insert t (k.thr t).priority) := by
  obtain ⟨e, -, rfl⟩ := Option.map_eq_some_iff.mp h
  exact ⟨e, rfl⟩

theorem mlfqsUpdatePriority_sameSync (k : Kernel) (t : ThreadPtr) :
    SameSync k (mlfqsUpdatePriority k t) := by
  unfold mlfqsUpdatePriority
  split <;> exact ⟨rfl, rfl⟩

theorem threadUnblock_sameSync {t : ThreadPtr} (h : threadUnblock cfg fuel k t = some k') :
    SameSync k k' := by
  unfold threadUnblock at h
  split at h
  · dsimp only at h
    split at h
    · obtain ⟨e, rfl⟩ := mlfqsInsert_eq h
      exact (mlfqsUpdatePriority_sameSync _ t).after ⟨rfl, rfl⟩
    · obtain ⟨e, rfl⟩ := insertByPriority_eq h
      exact ⟨rfl, rfl⟩
  · cases h

theorem schedule_switched (h : schedule cfg k = some k') : Switched k k' := by
  obtain ⟨next, e, -, hg, rfl⟩ := by
    simpa [schedule, Option.bind_eq_some_iff] using h
  exact ⟨rfl, hg.2.2⟩

theorem blockCurrent_switched (h : blockCurrent cfg k = some k') : Switched k k' := by
  unfold blockCurrent at h
  split at h
  · exact (schedule_switched h).after ⟨rfl, rfl⟩
  · cases h

theorem yieldInsert_sameSync (h : yieldInsert cfg fuel k = some k') : SameSync k k' := by
  unfold yieldInsert at h
  split at h
  · cases h
    exact .refl k
  · split at h
    · obtain ⟨e, rfl⟩ := mlfqsInsert_eq h
      exact ⟨rfl, rfl⟩
    · obtain ⟨e, rfl⟩ := insertByPriority_eq h
      exact ⟨rfl, rfl⟩

theorem yieldCurrent_switched (h : yieldCurrent cfg fuel k = some k') : Switched k k' := by
  obtain ⟨k₁, h₁, h₂⟩ := Option.bind_eq_some_iff.mp h
  have hs : SameSync k₁ (k₁.modify k₁.cur fun th => { th with status := .ready }) := ⟨rfl, rfl⟩
  exact (schedule_switched h₂).after (hs.after (yieldInsert_sameSync h₁))

theorem exitCurrent_switched (h : exitCurrent cfg k = some k') : Switched k k' := by
  unfold exitCurrent at h
  exact (schedule_switched h).after ⟨rfl, rfl⟩

theorem donatePriority_sameSync : ∀ (fuel : ℕ) {k k' : Kernel} {f t : ThreadPtr},
    donatePriority fuel k f t = some k' → SameSync k k'
  | 0, _, _, _, _, h => by cases h
  | fuel + 1, k, k', f, t, h => by
      rw [donatePriority] at h
      split at h
      · dsimp only at h
        split at h
        · exact (donatePriority_sameSync fuel h).after ⟨rfl, rfl⟩
        · cases h
          exact ⟨rfl, rfl⟩
      · cases h
        exact .refl _

theorem refreshWaiters_sameSync {t : ThreadPtr} {l : LockPtr} :
    ∀ (fuel : ℕ) {k k' : Kernel} {n : Node ListPtr ThreadPtr},
      refreshWaiters cfg t l fuel k n = some k' → SameSync k k'
  | 0, _, _, _, h => by cases h
  | fuel + 1, k, k', n, h => by
      rw [refreshWaiters] at h
      split at h
      · cases h
        exact .refl _
      · obtain ⟨n', -, h⟩ := Option.bind_eq_some_iff.mp h
        refine (refreshWaiters_sameSync fuel h).after ?_
        split <;> exact ⟨rfl, rfl⟩

theorem refreshLock_sameSync {t : ThreadPtr} {l : LockPtr}
    (h : refreshLock cfg fuel t k l = some k') : SameSync k k' := by
  unfold refreshLock at h
  split at h
  · cases h
    exact .refl _
  · obtain ⟨n, -, h⟩ := Option.bind_eq_some_iff.mp h
    exact refreshWaiters_sameSync fuel h

theorem refreshLocks_sameSync {t : ThreadPtr} :
    ∀ (fuel' : ℕ) {k k' : Kernel} {n : Node ThreadPtr LockPtr},
      refreshLocks cfg fuel t fuel' k n = some k' → SameSync k k'
  | 0, _, _, _, h => by cases h
  | fuel' + 1, k, k', .item l, h => by
      simp only [refreshLocks, Option.bind_eq_bind, Option.bind_eq_some_iff] at h
      obtain ⟨k₁, h₁, n', -, h₂⟩ := h
      exact (refreshLocks_sameSync fuel' h₂).after (refreshLock_sameSync h₁)
  | fuel' + 1, k, k', .head u, h => by
      simp [refreshLocks] at h
  | fuel' + 1, k, k', .tail u, h => by
      obtain ⟨-, rfl⟩ := by simpa [refreshLocks] using h
      exact .refl k

theorem refreshPriority_sameSync {t : ThreadPtr} (h : refreshPriority cfg fuel k t = some k') :
    SameSync k k' := by
  obtain ⟨n, -, h⟩ := Option.bind_eq_some_iff.mp h
  exact (refreshLocks_sameSync fuel h).after ⟨rfl, rfl⟩

theorem mlfqsUpdateRecentCpu_sameSync {t : ThreadPtr} (h : mlfqsUpdateRecentCpu k t = some k') :
    SameSync k k' := by
  unfold mlfqsUpdateRecentCpu at h
  split at h
  · cases h
    exact .refl k
  · obtain ⟨c, -, rfl⟩ := by simpa [Option.bind_eq_some_iff] using h
    exact ⟨rfl, rfl⟩

theorem mlfqsUpdateLoadAvg_sameSync (h : mlfqsUpdateLoadAvg fuel k = some k') :
    SameSync k k' := by
  simp only [mlfqsUpdateLoadAvg, Option.bind_eq_bind, Option.bind_eq_some_iff,
    Option.some.injEq] at h
  obtain ⟨_, -, _, -, _, -, rfl⟩ := h
  exact ⟨rfl, rfl⟩

theorem mlfqsUpdateRcpuLa_sameSync (h : mlfqsUpdateRcpuLa fuel k = some k') : SameSync k k' := by
  obtain ⟨k₁, h₁, h₂⟩ := Option.bind_eq_some_iff.mp h
  exact (mlfqsUpdateLoadAvg_sameSync h₂).after
    (SameSync.foldlM (fun _ _ _ => mlfqsUpdateRecentCpu_sameSync) _ h₁)

theorem reinsertQueues_sameSync : ∀ (fuel : ℕ) {k k' : Kernel},
    reinsertQueues fuel k = some k' → SameSync k k'
  | 0, _, _, h => by cases h
  | fuel + 1, k, k', h => by
      rw [reinsertQueues] at h
      split at h
      · cases h
        exact .refl _
      · simp only [Option.bind_eq_bind, Option.bind_eq_some_iff] at h
        obtain ⟨⟨t, e⟩, -, k₁, h₁, h₂⟩ := h
        obtain ⟨e', rfl⟩ := mlfqsInsert_eq h₁
        exact (reinsertQueues_sameSync fuel h₂).after ⟨rfl, rfl⟩

theorem mlfqsUpdatePriorityAll_sameSync (h : mlfqsUpdatePriorityAll fuel k = some k') :
    SameSync k k' := by
  obtain ⟨k₁, h₁, h₂⟩ := Option.bind_eq_some_iff.mp h
  obtain ⟨e, -, h₂⟩ := Option.bind_eq_some_iff.mp h₂
  have hf : SameSync k k₁ := by
    refine SameSync.foldlM (fun k t k' h => ?_) _ h₁
    cases h
    exact mlfqsUpdatePriority_sameSync k t
  have hs : SameSync k₁ (k₁.setElems e) := ⟨rfl, rfl⟩
  exact (reinsertQueues_sameSync fuel h₂).after (hs.after hf)

theorem timerWakeup_sameSync {now : ℤ} : ∀ (ts : List ThreadPtr) {k k' : Kernel},
    timerWakeup cfg fuel now ts k = some k' → SameSync k k'
  | [], k, k', h => by
      cases h
      exact ⟨rfl, rfl⟩
  | t :: ts, k, k', h => by
      rw [timerWakeup] at h
      split at h
      · cases h
        exact ⟨rfl, rfl⟩
      · obtain ⟨k₁, h₁, h₂⟩ := Option.bind_eq_some_iff.mp h
        exact (timerWakeup_sameSync ts h₂).after (threadUnblock_sameSync h₁)

theorem threadTick_sameSync (k : Kernel) : SameSync k (threadTick cfg k).1 := by
  unfold threadTick
  dsimp only
  split <;> exact ⟨rfl, rfl⟩

theorem timerPriorities_sameSync {b : Bool} (h : timerPriorities fuel k = some (k', b)) :
    SameSync k k' := by
  unfold timerPriorities at h
  split at h
  · obtain ⟨k₁, h₁, h⟩ := Option.map_eq_some_iff.mp h
    cases h
    exact mlfqsUpdatePriorityAll_sameSync h₁
  · cases h
    exact .refl k

theorem timerLoad_sameSync (h : timerLoad fuel k = some k') : SameSync k k' := by
  unfold timerLoad at h
  split at h
  · exact mlfqsUpdateRcpuLa_sameSync h
  · cases h
    exact .refl k

theorem timerMlfqs_sameSync {b : Bool} (h : timerMlfqs cfg fuel k = some (k', b)) :
    SameSync k k' := by
  unfold timerMlfqs at h
  split at h
  · simp only [Option.bind_eq_bind, Option.bind_eq_some_iff] at h
    obtain ⟨⟨k₁, b₁⟩, h₁, k₂, h₂, h⟩ := h
    cases h
    exact (timerLoad_sameSync h₂).after (timerPriorities_sameSync h₁)
  · cases h
    exact .refl k

/-! ### One frame of the running thread -/

/-- Frame `f`, executed between the states `k` and `k'`, is a move of the
running thread. -/
def Moves (k : Kernel) (f : Frame) (k' : Kernel) : Prop :=
  (∃ gs s', Move k.cur k.sync f gs s' ∧ k'.sync = s'.setStack k.cur (gs ++ s'.stack k.cur)) ∧
    k'.cur < k'.nextThread

theorem Sync.setStack_self (s : Sync) (t : ThreadPtr) : s.setStack t (s.stack t) = s := by
  simp [Sync.setStack]

/-- The frame is over; a switch may have followed. -/
theorem Moves.done {f : Frame} {s' : Sync} (hm : Move k.cur k.sync f [] s')
    (hs : k'.sync = s') (hc : k'.cur < k'.nextThread) : Moves k f k' :=
  ⟨⟨[], s', hm, by rw [hs, List.nil_append, Sync.setStack_self]⟩, hc⟩

/-- The frame is replaced, and a switch follows. -/
theorem Moves.switch {f : Frame} {gs : List Frame} (hm : Move k.cur k.sync f gs k.sync)
    (hs : Switched (k.pushes gs) k') : Moves k f k' :=
  ⟨⟨gs, k.sync, hm, hs.1⟩, hs.2⟩

/-- The frame is replaced by others. -/
theorem Moves.pushes {k₁ : Kernel} {f : Frame} {gs : List Frame} {s' : Sync}
    (hm : Move k.cur k.sync f gs s') (hs : k₁.sync = s') (hcur : k₁.cur = k.cur)
    (hc : k.cur < s'.nextThread) : Moves k f (k₁.pushes gs) := by
  subst hs
  refine ⟨⟨gs, _, hm, ?_⟩, ?_⟩
  · rw [Kernel.sync_pushes, hcur]
  · simpa [hcur] using hc

theorem Moves.push {k₁ : Kernel} {f g : Frame} {s' : Sync}
    (hm : Move k.cur k.sync f [g] s') (hs : k₁.sync = s') (hcur : k₁.cur = k.cur)
    (hc : k.cur < s'.nextThread) : Moves k f (k₁.push g) :=
  Moves.pushes hm hs hcur hc

/-- A preemption check goes on. -/
theorem Moves.check {f g : Frame} (hc : k.cur < k.nextThread) (hf : f.Checks)
    (hg : g.Preempts) : Moves k f (k.push g) :=
  .push (.quiet (.preempt hf hg)) rfl rfl hc

/-- A preemption check is over. -/
theorem Moves.checked {f : Frame} (hc : k.cur < k.nextThread) (hf : f.Checks) : Moves k f k :=
  .done (.quiet (.preemptEnd hf)) rfl hc

theorem semaWake_sameSync {p : SemaPtr} (h : semaWake cfg fuel k p = some k') :
    SameSync k k' := by
  unfold semaWake at h
  split at h
  · cases h
    exact .refl k
  · obtain ⟨⟨t, e⟩, -, h⟩ := Option.bind_eq_some_iff.mp h
    exact (threadUnblock_sameSync h).after ⟨rfl, rfl⟩

theorem semaUpBody_sync {p : SemaPtr} {agent : Option ThreadPtr}
    (h : semaUpBody cfg fuel k agent p = some k') :
    k'.sync = k.sync.up agent p ∧ k'.cur = k.cur := by
  obtain ⟨k₁, h₁, h⟩ := Option.bind_eq_some_iff.mp h
  cases h
  obtain ⟨hs, hc⟩ := semaWake_sameSync h₁
  exact ⟨congrArg (Sync.up · agent p) hs, hc⟩

theorem semaTryDown_cases (k : Kernel) (agent : Option ThreadPtr) (p : SemaPtr) :
    (k.semaValue p ≠ 0 ∧ (semaTryDown k agent p).2 = true ∧
      (semaTryDown k agent p).1.sync = k.sync.down agent p ∧
      (semaTryDown k agent p).1.cur = k.cur) ∨
    semaTryDown k agent p = (k, false) := by
  unfold semaTryDown
  split
  · exact .inl ⟨by omega, rfl, rfl, rfl⟩
  · exact .inr rfl

theorem semaDownTest_moves {f : Frame} {p : SemaPtr} {old : Bool} (hf : f.Downs p)
    (hc : k.cur < k.nextThread) (h : semaDownTest cfg fuel k p old = some k') :
    Moves k f k' := by
  unfold semaDownTest at h
  split at h
  case isTrue hv =>
    obtain ⟨k₁, h₁, h₂⟩ := Option.bind_eq_some_iff.mp h
    obtain ⟨e, rfl⟩ := insertByPriority_eq h₁
    have hs := blockCurrent_switched h₂
    exact .switch (.wait hf hv) hs
  case isFalse hv =>
    cases h
    exact .done (.down hf hv) rfl hc

theorem takeLock_moves {f : Frame} {l : LockPtr} (hc : k.cur < k.nextThread) (hf : f.Takes l)
    (h : takeLock k l = some k') : Moves k f k' := by
  obtain ⟨e, -, rfl⟩ := Option.map_eq_some_iff.mp h
  exact .done (.take hf) rfl hc

theorem waitForLock_sameSync {l : LockPtr} {t : ThreadPtr}
    (h : waitForLock cfg fuel k l t = some k') : SameSync k k' := by
  obtain ⟨k₁, h₁, h₂⟩ := Option.bind_eq_some_iff.mp h
  obtain ⟨e, rfl⟩ := insertByPriority_eq h₁
  exact (donatePriority_sameSync fuel h₂).after ⟨rfl, rfl⟩

theorem releaseLock_sync {l : LockPtr} (h : releaseLock fuel k l = some k') :
    k'.sync = k.sync.setHolder l none ∧ k'.cur = k.cur := by
  obtain ⟨_, -, h⟩ := Option.bind_eq_some_iff.mp h
  obtain ⟨_, -, h⟩ := Option.bind_eq_some_iff.mp h
  obtain ⟨_, -, h⟩ := Option.bind_eq_some_iff.mp h
  cases h
  exact ⟨rfl, rfl⟩

theorem preemptionCheck_preempts (cfg : Config) : (preemptionCheck cfg).Preempts := by
  unfold preemptionCheck
  split
  · exact .mlfqsCheckPreemption
  · exact .checkPreemption

theorem mlfqsPriority_mem (recentCpu nice : ℤ) :
    priMin ≤ mlfqsPriority recentCpu nice ∧ mlfqsPriority recentCpu nice ≤ priMax := by
  unfold mlfqsPriority priMin priMax
  dsimp only
  split_ifs <;> omega

/-- **Every frame is a move** of the running thread. -/
theorem exec_moves {f : Frame} (hc : k.cur < k.nextThread)
    (h : exec cfg fuel k f = some k') : Moves k f k' := by
  cases f <;> simp only [exec] at h
  case semaDown p =>
    have hm : Moves (k.setLevel false) (.semaDown p) k' := semaDownTest_moves .semaDown hc h
    exact hm
  case semaDownWait p old => exact semaDownTest_moves .semaDownWait hc h
  case semaTryDown p =>
    cases h
    obtain ⟨hv, -, hs, hcur⟩ | e := semaTryDown_cases k (some k.cur) p
    · refine .done (.tryDown hv) hs ?_
      rw [hcur]
      exact hc.trans_eq (congrArg Sync.nextThread hs).symm
    · rw [e]
      exact .done .tryDownFail rfl hc
  case semaUp p =>
    obtain ⟨k₁, h₁, rfl⟩ := Option.map_eq_some_iff.mp h
    obtain ⟨hs, hcur⟩ := semaUpBody_sync h₁
    exact .pushes (.up (preemptionCheck_preempts cfg)) hs hcur hc
  case lockAcquire l =>
    split at h <;> cases h
    case isFalse hl => exact .pushes (.lockAcquire hl) rfl rfl hc
  case lockAcquireBody l =>
    split at h
    case h_1 hl =>
      cases h
      exact .pushes (.lockAcquireFree hl) rfl rfl hc
    case h_2 u hl =>
      obtain ⟨k₁, h₁, rfl⟩ := Option.map_eq_some_iff.mp h
      obtain ⟨hs, hcur⟩ := waitForLock_sameSync h₁
      exact .pushes (.lockAcquireHeld hl) hs hcur hc
  case lockAcquireFree l old =>
    obtain ⟨k₁, h₁, rfl⟩ := Option.map_eq_some_iff.mp h
    have hm : Moves k (.lockAcquireFree l old) k₁ := takeLock_moves hc .lockAcquireFree h₁
    exact hm
  case lockAcquireHeld l =>
    obtain ⟨k₁, h₁, rfl⟩ := Option.map_eq_some_iff.mp h
    have hm : Moves k (.lockAcquireHeld l) k₁ := takeLock_moves hc .lockAcquireHeld h₁
    exact hm
  case lockTryAcquire l =>
    split at h <;> cases h
    case isFalse hl => exact .pushes (.lockTryAcquire hl) rfl rfl hc
  case lockTryAcquireDown l =>
    cases h
    obtain ⟨hv, e, hs, hcur⟩ | e := semaTryDown_cases k (some k.cur) (.ofLock l)
    · rw [if_pos e]
      exact .push (.lockTryAcquireDown hv) hs hcur hc
    · rw [e, if_neg Bool.false_ne_true]
      exact .done .lockTryAcquireFail rfl hc
  case lockTryAcquireHolder l =>
    cases h
    exact .done (.take .lockTryAcquireHolder) rfl hc
  case lockRelease l =>
    split at h <;> cases h
    case isTrue hl => exact .pushes (.lockRelease hl) rfl rfl hc
  case lockReleaseBody l =>
    obtain ⟨k₁, h₁, rfl⟩ := Option.map_eq_some_iff.mp h
    obtain ⟨hs, hcur⟩ := releaseLock_sync h₁
    exact .pushes .lockReleaseBody hs hcur hc
  case lockReleaseRefresh old =>
    obtain ⟨k₁, h₁, rfl⟩ := Option.map_eq_some_iff.mp h
    obtain ⟨hs, hcur⟩ := refreshPriority_sameSync h₁
    split
    · exact .pushes (.quiet .lockReleaseYield) hs hcur hc
    · exact .pushes (.quiet .lockReleaseRefresh) hs hcur hc
  case condWait c l =>
    split at h <;> cases h
    case isTrue hl => exact .pushes (.condWait hl) rfl rfl hc
  case condWaitReturn c w =>
    cases h
    exact .done (.quiet .condWaitReturn) rfl hc
  case condSignal c l =>
    split at h <;> cases h
    case isTrue hl => exact .pushes (.condSignal hl) rfl rfl hc
  case condSignalFirst c =>
    split at h <;> cases h
    case h_1 hw => exact .done (.condSignalNone hw) rfl hc
    case h_2 m es hw => exact .pushes (.condSignalFirst hw) rfl rfl hc
  case condSignalMax c m es =>
    cases es with
    | nil =>
        cases h
        exact .pushes .condSignalFound rfl rfl hc
    | cons e es =>
        obtain ⟨less, -, rfl⟩ := Option.map_eq_some_iff.mp h
        refine .pushes (.condSignalMax ?_) rfl rfl hc
        cases less <;> simp
  case condSignalRemove c m =>
    cases h
    exact .pushes .condSignalRemove rfl rfl hc
  case condBroadcast c l =>
    split at h <;> cases h
    · exact .done .condBroadcastEnd rfl hc
    · exact .pushes .condBroadcast rfl rfl hc
  case checkPreemption =>
    cases h
    split
    · exact .checked hc ⟨.checkPreemption, (by rintro ⟨⟩)⟩
    · exact .check hc ⟨.checkPreemption, (by rintro ⟨⟩)⟩ .checkPreemptionFront
  case checkPreemptionFront =>
    split at h <;> cases h
    exact .check hc ⟨.checkPreemptionFront, (by rintro ⟨⟩)⟩ .checkPreemptionRead
  case checkPreemptionRead =>
    obtain ⟨n, -, rfl⟩ := Option.map_eq_some_iff.mp h
    exact .check hc ⟨.checkPreemptionRead, (by rintro ⟨⟩)⟩ .checkPreemptionCompare
  case checkPreemptionCompare n =>
    cases h
    split
    · exact .check hc ⟨.checkPreemptionCompare, (by rintro ⟨⟩)⟩ .threadYield
    · exact .checked hc ⟨.checkPreemptionCompare, (by rintro ⟨⟩)⟩
  case mlfqsCheckPreemption i =>
    cases i with
    | zero =>
        cases h
        exact .check hc ⟨.mlfqsCheckPreemption, (by rintro ⟨⟩)⟩ .mlfqsCheckPreemptionCompare
    | succ i =>
        cases h
        split
        · exact .check hc ⟨.mlfqsCheckPreemption, (by rintro ⟨⟩)⟩ .mlfqsCheckPreemption
        · exact .check hc ⟨.mlfqsCheckPreemption, (by rintro ⟨⟩)⟩ .mlfqsCheckPreemptionCompare
  case mlfqsCheckPreemptionCompare p =>
    cases h
    split
    · exact .check hc ⟨.mlfqsCheckPreemptionCompare, (by rintro ⟨⟩)⟩ .threadYield
    · exact .checked hc ⟨.mlfqsCheckPreemptionCompare, (by rintro ⟨⟩)⟩
  case threadYield =>
    have hs := yieldCurrent_switched h
    exact .switch (.quiet .threadYield) hs
  case intrSetLevel old =>
    cases h
    exact .done (.quiet .intrSetLevel) rfl hc
  case threadBlock =>
    have hs := blockCurrent_switched h
    exact .switch (.quiet .threadBlock) hs
  case threadBlockReturn =>
    cases h
    exact .done (.quiet .threadBlockReturn) rfl hc
  case threadUnblock t =>
    have hs := threadUnblock_sameSync h
    exact .done (.quiet .threadUnblock) hs.1 (hs.lt hc).2
  case threadExit =>
    have hs := exitCurrent_switched h
    exact .done (.quiet .threadExit) hs.1 hs.2
  case threadCreate p e =>
    split at h
    case isTrue =>
      cases h
      exact .done (.quiet .threadCreateFail) rfl hc
    case isFalse =>
      split at h <;> cases h
      case isTrue hp => exact .pushes (.quiet (.threadCreate hp.1 hp.2)) rfl rfl hc
  case threadCreateLink p e n r =>
    cases h
    split
    · exact .pushes .createAtomic rfl rfl (Nat.lt_succ_of_lt hc)
    · exact .pushes .create rfl rfl (Nat.lt_succ_of_lt hc)
  case allocateTidRead t =>
    cases h
    exact .pushes (.quiet .allocateTidRead) rfl rfl hc
  case allocateTidWrite t tid =>
    cases h
    exact .pushes (.quiet .allocateTidWrite) rfl rfl hc
  case threadCreateTid t tid =>
    cases h
    exact .pushes (.quiet .threadCreateTid) rfl rfl hc
  case threadCreateUnblock t =>
    obtain ⟨k₁, h₁, rfl⟩ := Option.map_eq_some_iff.mp h
    obtain ⟨hs, hcur⟩ := threadUnblock_sameSync h₁
    exact .pushes (.quiet (.threadCreateUnblock (preemptionCheck_preempts cfg))) hs hcur hc
  case threadSetPriority p =>
    cases h
    exact .pushes (.quiet .threadSetPriority) rfl rfl hc
  case threadSetNice n =>
    cases h
    exact .pushes (.quiet .threadSetNice) rfl rfl hc
  case threadSetNiceUpdate =>
    cases h
    split
    · exact .pushes (.quiet .threadSetNiceIdle) rfl rfl hc
    · obtain ⟨hl, hu⟩ := mlfqsPriority_mem (k.thr k.cur).recentCpu (k.thr k.cur).nice
      exact .pushes (.quiet (.threadSetNiceUpdate hl hu)) rfl rfl hc
  case threadSetNiceWrite p =>
    cases h
    exact .pushes (.quiet .threadSetNiceWrite) rfl rfl hc
  case threadStart =>
    cases h
    exact .pushes (.quiet .threadStart) rfl rfl hc
  case kernelThread =>
    cases h
    exact .done (.quiet .kernelThread) rfl hc
  case idle =>
    cases h
    exact .pushes .idle rfl rfl hc
  case idleLoop =>
    have hs := blockCurrent_switched h
    exact .switch (.quiet .idleLoop) hs
  case idleResume =>
    cases h
    exact .pushes (.quiet .idleResume) rfl rfl hc
  case idleHalt => cases h
  case timerSleep n =>
    split at h <;> cases h
    split
    · exact .done (.quiet .timerSleepNone) rfl hc
    · exact .pushes (.quiet .timerSleep) rfl rfl hc
  case timerSleepBody start n =>
    have hs := blockCurrent_switched h
    exact .switch (.quiet .timerSleepBody) hs
  case timerSleepReturn old =>
    cases h
    exact .done (.quiet .timerSleepReturn) rfl hc

/-! ### Interrupts -/

theorem endHalt_sync (k : Kernel) :
    (endHalt k).sync = k.sync.setStack k.cur ((endHalt k).stack k.cur) ∧
      (endHalt k).cur = k.cur ∧ Interrupted (k.stack k.cur) ((endHalt k).stack k.cur) ∧
        Interrupted (k.stack k.cur) (.intrSetLevel true :: (endHalt k).stack k.cur) := by
  unfold endHalt
  split
  case h_1 fs e =>
    rw [e]
    refine ⟨?_, rfl, ?_, ?_⟩
    · simp [Sync.setStack, Kernel.sync]
    · simpa using Interrupted.halt
    · simpa using Interrupted.haltYield
  case h_2 => exact ⟨(Sync.setStack_self k.sync k.cur).symm, rfl, .none, .yield⟩

theorem interruptReturn_switched {b : Bool} (hc : k.cur < k.nextThread)
    (h : interruptReturn cfg fuel k b = some k') :
    Switched k k' ∨ Switched (k.push (.intrSetLevel true)) k' := by
  unfold interruptReturn at h
  split at h
  · exact .inr (yieldCurrent_switched h)
  · cases h
    exact .inl ⟨rfl, hc⟩

/-- An interrupt of the running thread, for the synchronization machine. -/
def Serviced (k k' : Kernel) : Prop :=
  (∃ fs' s', Interrupted (k.stack k.cur) fs' ∧ Handler k.sync s' ∧
    k'.sync = s'.setStack k.cur fs') ∧ k'.cur < k'.nextThread

/-- An interrupt whose handler leaves `k₁`. -/
theorem interrupt_sync {k₁ : Kernel} {s' : Sync} {b : Bool}
    (hc : k.cur < k.nextThread) (hh : Handler k.sync s')
    (hs : k₁.sync = s'.setStack k.cur ((endHalt k).stack k.cur)) (hcur : k₁.cur = k.cur)
    (h : interruptReturn cfg fuel k₁ b = some k') : Serviced k k' := by
  obtain ⟨-, -, hi, hy⟩ := endHalt_sync k
  have hn : k₁.nextThread = k.nextThread := by
    have hn : k₁.nextThread = s'.nextThread := congrArg Sync.nextThread hs
    rw [hn]
    cases hh <;> rfl
  have hc₁ : k₁.cur < k₁.nextThread := by rwa [hcur, hn]
  obtain ⟨hs', hlt⟩ | ⟨hs', hlt⟩ := interruptReturn_switched hc₁ h
  · exact ⟨⟨_, s', hi, hh, hs'.trans hs⟩, hlt⟩
  · refine ⟨⟨_, s', hy, hh, ?_⟩, hlt⟩
    have e : (k₁.push (.intrSetLevel true)).sync =
        s'.setStack k.cur (.intrSetLevel true :: (endHalt k).stack k.cur) := by
      rw [Kernel.sync_push, hs, hcur]
      simp [Sync.setStack]
    rw [hs', e]

theorem timerInterrupt_sync (hc : k.cur < k.nextThread)
    (h : timerInterrupt cfg fuel k = some k') : Serviced k k' := by
  obtain ⟨hs₀, hc₀, -, -⟩ := endHalt_sync k
  simp only [timerInterrupt, Option.bind_eq_bind, Option.bind_eq_some_iff] at h
  obtain ⟨k₁, h₁, ⟨k₂, b⟩, h₂, h⟩ := h
  have ht : SameSync (endHalt k) (threadTick cfg
      { (endHalt k).setLevel false with ticks := (endHalt k).ticks + 1 }).1 :=
    (threadTick_sameSync _).after ⟨rfl, rfl⟩
  obtain ⟨hs₂, hc₂⟩ := (timerMlfqs_sameSync h₂).after ((timerWakeup_sameSync _ h₁).after ht)
  exact interrupt_sync hc .quiet (hs₂.trans hs₀) (hc₂.trans hc₀) h

theorem semaUpInterrupt_sync {n : ℕ} (hc : k.cur < k.nextThread)
    (h : semaUpInterrupt cfg fuel k (.user n) = some k') : Serviced k k' := by
  obtain ⟨hs₀, hc₀, -, -⟩ := endHalt_sync k
  simp only [semaUpInterrupt, Option.bind_eq_bind, Option.bind_eq_some_iff] at h
  obtain ⟨k₁, h₁, b, -, h⟩ := h
  obtain ⟨hs₁, hc₁⟩ := semaUpBody_sync h₁
  rw [Kernel.sync_setLevel, hs₀] at hs₁
  exact interrupt_sync hc .up hs₁ (hc₁.trans hc₀) h

theorem semaTryDownInterrupt_sync {n : ℕ} (hc : k.cur < k.nextThread)
    (h : semaTryDownInterrupt cfg fuel k (.user n) = some k') : Serviced k k' := by
  obtain ⟨hs₀, hc₀, -, -⟩ := endHalt_sync k
  have hv₀ : (endHalt k).semaValue = k.semaValue := congrArg Sync.value hs₀
  unfold semaTryDownInterrupt at h
  dsimp only at h
  obtain ⟨hv, -, hs, hcur⟩ | e := semaTryDown_cases ((endHalt k).setLevel false) none (.user n)
  · rw [Kernel.setLevel_semaValue, hv₀] at hv
    rw [Kernel.sync_setLevel, hs₀] at hs
    exact interrupt_sync hc (.down hv) hs (hcur.trans hc₀) h
  · rw [e] at h
    have hs : ((endHalt k).setLevel false).sync = _ := hs₀
    exact interrupt_sync hc .quiet hs hc₀ h

/-! ### Steps and runs -/

/-- What a step of the kernel is for the synchronization machine. -/
inductive SyncStep (k : Kernel) : Label → Sync → Prop
  | call {c : Call} : k.stack k.cur = [] →
      SyncStep k (.call c) (k.sync.setStack k.cur [c.frame])
  | run {f fs gs s'} : k.stack k.cur = f :: fs → Move k.cur (k.sync.setStack k.cur fs) f gs s' →
      SyncStep k .run (s'.setStack k.cur (gs ++ s'.stack k.cur))
  | interrupt {lab fs' s'} : lab ≠ .run → Interrupted (k.stack k.cur) fs' → Handler k.sync s' →
      SyncStep k lab (s'.setStack k.cur fs')

theorem Serviced.syncStep {lab : Label} (h : Serviced k k') (hl : lab ≠ .run) :
    SyncStep k lab k'.sync ∧ k'.cur < k'.nextThread := by
  obtain ⟨⟨fs', s', hi, hh, hs⟩, hlt⟩ := h
  exact ⟨hs ▸ .interrupt hl hi hh, hlt⟩

theorem step_syncStep {lab : Label} (hc : k.cur < k.nextThread)
    (h : step cfg fuel k lab = some k') :
    SyncStep k lab k'.sync ∧ k'.cur < k'.nextThread := by
  cases lab <;> simp only [step] at h
  case call c =>
    split at h <;> cases h
    case isTrue he =>
      refine ⟨?_, hc⟩
      have hs : (k.push c.frame).sync = k.sync.setStack k.cur [c.frame] := by
        rw [Kernel.sync_push, Kernel.sync_stack, he]
        rfl
      rw [hs]
      exact .call he
  case run =>
    split at h
    · cases h
    case h_2 f fs e =>
      have hm : Moves (popFrame k fs) f k' := exec_moves hc h
      obtain ⟨⟨gs, s', hm, hs⟩, hlt⟩ := hm
      refine ⟨?_, hlt⟩
      rw [hs]
      exact .run e hm
  case timer =>
    split at h
    · exact (timerInterrupt_sync hc h).syncStep nofun
    · cases h
  case semaUp n =>
    split at h
    · exact (semaUpInterrupt_sync hc h).syncStep nofun
    · cases h
  case semaTryDown n =>
    split at h
    · exact (semaTryDownInterrupt_sync hc h).syncStep nofun
    · cases h

/-- **Every step of the kernel is a step of the synchronization machine**, of
the running thread. -/
theorem step_sync {okCall : Call → Prop} {lab : Label} (hc : k.cur < k.nextThread)
    (hok : ∀ c, lab = .call c → okCall c) (h : step cfg fuel k lab = some k') :
    Sync.Step okCall k.cur k.sync k'.sync ∧ k'.cur < k'.nextThread := by
  obtain ⟨hs, hlt⟩ := step_syncStep hc h
  refine ⟨?_, hlt⟩
  generalize k'.sync = s' at hs
  cases hs with
  | call e => exact .call (hok _ rfl) e hc
  | run e hm => exact .run e hm
  | interrupt _ hi hh => exact .interrupt hi hh hc

/-- The states of the runs of the synchronization machine from the state in
which `thread_start` is called. -/
def Sync.Reachable (cfg : Config) (okCall : Call → Prop) : Sync → Prop :=
  Relation.ReflTransGen (fun s s' => ∃ t, Sync.Step okCall t s s') (boot cfg).sync

/-- **The kernel refines the synchronization machine.** -/
theorem Reachable.sync {ok : Kernel → Label → Prop} {okCall : Call → Prop}
    (hok : ∀ k c, ok k (.call c) → okCall c) (h : Reachable cfg ok k) :
    Sync.Reachable cfg okCall k.sync ∧ k.cur < k.nextThread := by
  induction h with
  | refl => exact ⟨.refl, Nat.zero_lt_one⟩
  | tail _ hstep ih =>
      obtain ⟨lab, fuel, hlab, hstep⟩ := hstep
      obtain ⟨hs, hlt⟩ := step_sync ih.2 (fun c e => hok _ c (e ▸ hlab)) hstep
      exact ⟨ih.1.tail ⟨_, hs⟩, hlt⟩

/-- The runs of the kernel, whatever its threads call. -/
theorem Reachable.anySync {ok : Kernel → Label → Prop} (h : Reachable cfg ok k) :
    Sync.Reachable cfg (fun _ => True) k.sync ∧ k.cur < k.nextThread :=
  h.sync fun _ _ _ => trivial

end Pintos
