/-
PintosThreads/Effects.lean

What the execution of a frame does to the threads, as the scheduler sees them.

`Effect` has one constructor for each kind of thing that can happen: nothing,
a new priority for the running thread, a switch, a wake-up, a contended
`lock_acquire`, a new thread, the idle thread introducing itself.  Each gives
the state after the frame in terms of the state before, so that the results on
whole runs need eight cases and not one for every frame: the invariant of the
queues (`Good.step`), the preemption checks (`Rightful.step`), the lives of the
threads (`StepEffect.life`).

`exec_effect` proves that every frame has its effect and keeps the scheduler's
invariant, under the conditions `Legal`; `SchedulerInv` derives them for whole
runs.
-/
import PintosThreads.LockQueues
import PintosThreads.InterruptQueues

namespace Pintos

open Intrusive

variable {cfg : Config} {fuel : ℕ} {srt : Prop} {k k' : Kernel}
variable {q : ListPtr → Option (List ThreadPtr)} {home : ThreadPtr → Option ListPtr}
variable {A : ListPtr → Prop} {r : Option ThreadPtr} {sl : List ThreadPtr}

/-! ### Nothing happens -/

/-- The frames `gs` are put on the stack of the running thread, and the scheduler
sees no other difference. -/
structure Same (cfg : Config) (k k' : Kernel) (gs : List Frame) : Prop where
  status : ∀ u, (k'.thr u).status = (k.thr u).status
  waitingLock : ∀ u, (k'.thr u).waitingLock = (k.thr u).waitingLock
  priority : ∀ u, (k'.thr u).priority = (k.thr u).priority
  inRange : InRange cfg k → InRange cfg k'
  cur : k'.cur = k.cur
  stack : k'.stack = Function.update k.stack k.cur (gs ++ k.stack k.cur)
  idleThread : k'.idleThread = k.idleThread
  nextThread : k'.nextThread = k.nextThread
  allList : k'.allList = k.allList

/-- The lists are not touched either. -/
structure Calm (cfg : Config) (k k' : Kernel) (gs : List Frame) : Prop
    extends Same cfg k k' gs where
  elems : k'.elems = k.elems
  nextWaiter : k'.nextWaiter = k.nextWaiter
  sleepList : k'.sleepList = k.sleepList

/-- Fields that the scheduler does not look at are written. -/
theorem Same.of_eq (ht : k'.thr = k.thr) (hs : k'.stack = k.stack) (hc : k'.cur = k.cur)
    (hi : k'.idleThread = k.idleThread) (hn : k'.nextThread = k.nextThread)
    (ha : k'.allList = k.allList) : Same cfg k k' [] := by
  refine ⟨?_, ?_, ?_, fun h hm u => ht ▸ h hm u, hc, ?_, hi, hn, ha⟩
  · exact fun u => by rw [ht]
  · exact fun u => by rw [ht]
  · exact fun u => by rw [ht]
  · rw [hs, List.nil_append, Function.update_eq_self]

theorem Calm.of_eq (ht : k'.thr = k.thr) (hs : k'.stack = k.stack) (hc : k'.cur = k.cur)
    (hi : k'.idleThread = k.idleThread) (hn : k'.nextThread = k.nextThread)
    (ha : k'.allList = k.allList) (he : k'.elems = k.elems) (hw : k'.nextWaiter = k.nextWaiter)
    (hsl : k'.sleepList = k.sleepList) : Calm cfg k k' [] :=
  ⟨.of_eq ht hs hc hi hn ha, he, hw, hsl⟩

theorem Calm.refl (k : Kernel) : Calm cfg k k [] :=
  .of_eq rfl rfl rfl rfl rfl rfl rfl rfl rfl

theorem Same.pushes (h : Same cfg k k' []) (gs : List Frame) : Same cfg k (k'.pushes gs) gs := by
  refine ⟨h.status, h.waitingLock, h.priority, h.inRange, h.cur, ?_, h.idleThread, h.nextThread,
    h.allList⟩
  change Function.update k'.stack k'.cur (gs ++ k'.stack k'.cur) = _
  rw [h.stack, h.cur]
  simp

theorem Same.push (h : Same cfg k k' []) (g : Frame) : Same cfg k (k'.push g) [g] :=
  h.pushes [g]

theorem Calm.pushes (h : Calm cfg k k' []) (gs : List Frame) : Calm cfg k (k'.pushes gs) gs :=
  ⟨h.toSame.pushes gs, h.elems, h.nextWaiter, h.sleepList⟩

theorem Calm.push (h : Calm cfg k k' []) (g : Frame) : Calm cfg k (k'.push g) [g] :=
  h.pushes [g]

theorem Same.setLevel {gs : List Frame} (h : Same cfg k k' gs) (b : Bool) :
    Same cfg k (k'.setLevel b) gs :=
  ⟨h.status, h.waitingLock, h.priority, h.inRange, h.cur, h.stack, h.idleThread, h.nextThread,
    h.allList⟩

theorem Calm.setLevel {gs : List Frame} (h : Calm cfg k k' gs) (b : Bool) :
    Calm cfg k (k'.setLevel b) gs :=
  ⟨h.toSame.setLevel b, h.elems, h.nextWaiter, h.sleepList⟩

/-- A field of a thread is written that the scheduler does not look at. -/
theorem Calm.modify {t : ThreadPtr} {f : Thread → Thread} (hs : ∀ th, (f th).status = th.status)
    (hw : ∀ th, (f th).waitingLock = th.waitingLock) (hp : ∀ th, (f th).priority = th.priority)
    (hb : ∀ th, (f th).basePriority = th.basePriority) : Calm cfg k (k.modify t f) [] := by
  refine ⟨⟨fun u => ?_, fun u => ?_, fun u => ?_, fun h hm u => ?_, rfl, ?_, rfl, rfl, rfl⟩,
    rfl, rfl, rfl⟩
  · obtain rfl | hu := eq_or_ne u t <;> simp [*]
  · obtain rfl | hu := eq_or_ne u t <;> simp [*]
  · obtain rfl | hu := eq_or_ne u t <;> simp [*]
  · refine (h hm u).of_eq ?_ ?_ <;> obtain rfl | hu := eq_or_ne u t <;> simp [*]
  · rw [List.nil_append, Function.update_eq_self]
    rfl

theorem Same.trans {k₁ : Kernel} {gs : List Frame} (h₁ : Same cfg k k₁ [])
    (h₂ : Same cfg k₁ k' gs) : Same cfg k k' gs where
  status := fun u => (h₂.status u).trans (h₁.status u)
  waitingLock := fun u => (h₂.waitingLock u).trans (h₁.waitingLock u)
  priority := fun u => (h₂.priority u).trans (h₁.priority u)
  inRange := fun h => h₂.inRange (h₁.inRange h)
  cur := h₂.cur.trans h₁.cur
  stack := by
    rw [h₂.stack, h₁.cur, h₁.stack]
    simp
  idleThread := h₂.idleThread.trans h₁.idleThread
  nextThread := h₂.nextThread.trans h₁.nextThread
  allList := h₂.allList.trans h₁.allList

theorem Calm.trans {k₁ : Kernel} {gs : List Frame} (h₁ : Calm cfg k k₁ [])
    (h₂ : Calm cfg k₁ k' gs) : Calm cfg k k' gs :=
  ⟨h₁.toSame.trans h₂.toSame, h₂.elems.trans h₁.elems, h₂.nextWaiter.trans h₁.nextWaiter,
    h₂.sleepList.trans h₁.sleepList⟩

theorem Calm.lists {gs : List Frame} (h : Calm cfg k k' gs) (L : Lists cfg srt k q home) :
    Lists cfg srt k' q home :=
  L.congr h.elems h.waitingLock h.nextWaiter fun _ u _ _ => h.priority u

theorem Same.stack_of_ne {gs : List Frame} (h : Same cfg k k' gs) {u : ThreadPtr}
    (hu : u ≠ k.cur) : k'.stack u = k.stack u := by
  simp [h.stack, hu]

theorem Same.placed {gs : List Frame} (h : Same cfg k k' gs)
    (P : Placed A (some k.cur) sl k home) : Placed A (some k'.cur) sl k' home := by
  rw [h.cur]
  refine P.congr h.status (fun u hu => h.stack_of_ne ?_) h.idleThread h.nextThread h.allList
  rintro rfl
  exact hu rfl

/-! ### The effects -/

/-- **The scheduler's invariant**, in a state where a thread is running. -/
structure Scheduling (cfg : Config) (srt : Prop) (k : Kernel) : Prop where
  queues : Queues cfg srt (some k.cur) k
  inRange : InRange cfg k

namespace Frame

/-- The frames that give up the processor, with what they leave on the stack and
the status that the thread takes. -/
inductive Parking : Frame → List Frame → ThreadStatus → Prop
  | wait {f p old} : f.Downs p → Parking f [semaDownWait p old] .blocked
  | threadYield {old} : Parking threadYield [intrSetLevel old] .ready
  | threadBlock : Parking threadBlock [threadBlockReturn] .blocked
  | idleLoop : Parking idleLoop [idleResume] .blocked
  | timerSleepBody {start n old} :
      Parking (timerSleepBody start n) [timerSleepReturn old] .blocked
  | threadExit : Parking threadExit [] .dying

/-- The frames that wake thread `t`. -/
inductive Unblocks (t : ThreadPtr) : Frame → Prop
  | threadUnblock : Unblocks t (threadUnblock t)
  | threadCreateUnblock : Unblocks t (threadCreateUnblock t)

/-- The frames that write the priority of the running thread. -/
inductive SetsPriority (th : Thread) : Frame → ℤ → Prop
  | threadSetPriority {p} : SetsPriority th (threadSetPriority p) p
  | threadSetNiceWrite {p} : SetsPriority th (threadSetNiceWrite p) p
  | lockReleaseRefresh {old} : SetsPriority th (lockReleaseRefresh old) th.basePriority

/-- The frames with an effect that the scheduler sees. -/
def Acts (k : Kernel) : Frame → Prop
  | semaDown p | semaDownWait p _ => k.semaValue p = 0
  | lockAcquireBody l => k.lockHolder l ≠ none
  | semaUp _ | lockReleaseRefresh _ | threadYield | threadBlock | threadUnblock _ | threadExit
  | threadCreateLink _ _ _ _ | threadCreateUnblock _ | threadSetPriority _
  | threadSetNiceWrite _ | idle | idleLoop | timerSleepBody _ _ => True
  | _ => False

end Frame

/-- What frame `f`, already taken off the stack of the running thread, does. -/
inductive Effect (cfg : Config) (srt : Prop) (k : Kernel) : Frame → Kernel → Prop
  | same {f gs k'} : ¬ f.Acts k → Same cfg k k' gs → Effect cfg srt k f k'
  | priority {f p gs k'} : f.SetsPriority (k.thr k.cur) p →
      Same cfg (k.modify k.cur fun th => { th with priority := p }) k' gs → Effect cfg srt k f k'
  | switch {f gs s k₁ k'} : f.Parking gs s → (∀ p, f.Downs p → k.semaValue p = 0) →
      Same cfg k k₁ gs → Switches srt k₁ k' s → Effect cfg srt k f k'
  | wake {f t gs k₁ k'} : f.Unblocks t → Woken cfg t k k₁ → Same cfg k₁ k' gs →
      Effect cfg srt k f k'
  | up {p gs k₁ k'} : WakesWaiter cfg p k k₁ → Same cfg k₁ k' gs →
      Effect cfg srt k (.semaUp p) k'
  | contend {l h gs k₁ k'} : k.lockHolder l = some h → Contends k k₁ l h → Same cfg k₁ k' gs →
      Effect cfg srt k (.lockAcquireBody l) k'
  | link {p e n r gs k'} : Same cfg (linkThread cfg k p e n r) k' gs →
      Effect cfg srt k (.threadCreateLink p e n r) k'
  | idle {gs k'} : Same cfg { k with idleThread := some k.cur } k' gs →
      Effect cfg srt k .idle k'

/-! ### The invariant under each effect -/

theorem Scheduling.calm {gs : List Frame} (S : Scheduling cfg srt k) (h : Calm cfg k k' gs) :
    Scheduling cfg srt k' := by
  obtain ⟨⟨q, home, L, P⟩, hr⟩ := S
  refine ⟨⟨q, home, h.lists L, ?_⟩, h.inRange hr⟩
  rw [h.sleepList]
  exact h.placed P

theorem Same.setElems {gs : List Frame} (h : Same cfg k k' gs) (e : Links ListPtr ThreadPtr) :
    Same cfg k (k'.setElems e) gs :=
  ⟨h.status, h.waitingLock, h.priority, h.inRange, h.cur, h.stack, h.idleThread, h.nextThread,
    h.allList⟩

theorem Switches.inRange {s : ThreadStatus} (h : Switches srt k k' s) (hr : InRange cfg k) :
    InRange cfg k' := by
  obtain ⟨k₁, hl, hd⟩ := h
  intro hm u
  rw [hd.thr u, hl.thr]
  refine (hr hm u).of_eq ?_ ?_ <;> obtain rfl | hu := eq_or_ne u k.cur <;> simp [*]

/-- A test of `sema_down` either takes the unit or blocks. -/
theorem Scheduling.semaDownTest {p : SemaPtr} {old : Bool} (S : Scheduling cfg srt k)
    (hp : k.Known p) (hf : IdleFree k') (h : semaDownTest cfg fuel k p old = some k') :
    (k.semaValue p ≠ 0 ∧ Calm cfg k k' [] ∨
      k.semaValue p = 0 ∧ ∃ k₁, Same cfg k k₁ [.semaDownWait p old] ∧
        Switches srt k₁ k' .blocked) ∧ Scheduling cfg srt k' := by
  by_cases hv : k.semaValue p = 0
  · obtain ⟨⟨q, home, L, P⟩, hr⟩ := S
    obtain ⟨⟨e, hs⟩, q', home', L', P'⟩ := L.semaDownTest P hp hf hv h
    have hsame : Same cfg k ((k.setElems e).push (.semaDownWait p old)) [.semaDownWait p old] :=
      ((Calm.refl k).setElems e).push _
    refine ⟨.inr ⟨hv, _, hsame, hs⟩, ⟨q', home', L', ?_⟩, hs.inRange (hsame.inRange hr)⟩
    rw [hs.sleepList]
    exact P'
  · unfold Pintos.semaDownTest at h
    rw [if_neg hv] at h
    cases h
    have hc : Calm cfg k ({ k with
        semaValue := Function.update k.semaValue p (k.semaValue p - 1), intrOn := old }.record
          (.down (some k.cur) p)) [] :=
      .of_eq rfl rfl rfl rfl rfl rfl rfl rfl rfl
    exact ⟨.inl ⟨hv, hc⟩, S.calm hc⟩

/-- A yield of the running thread, after frames `gs` are put on its stack. -/
theorem Scheduling.yieldCurrent {gs : List Frame} {k₁ : Kernel} (S : Scheduling cfg srt k)
    (hc : Calm cfg k k₁ gs) (hf : IdleFree k') (h : yieldCurrent cfg fuel k₁ = some k') :
    Switches srt k₁ k' .ready ∧ Scheduling cfg srt k' := by
  obtain ⟨⟨q, home, L, P⟩, hr⟩ := S.calm hc
  obtain ⟨hs, q', home', L', P'⟩ := L.yieldCurrent P hr hf h
  refine ⟨hs, ⟨q', home', L', ?_⟩, hs.inRange hr⟩
  rw [hs.sleepList]
  exact P'

/-- A block of the running thread outside the semaphores. -/
theorem Scheduling.blockCurrent {g : Frame} {k₁ : Kernel} (S : Scheduling cfg srt k)
    (hc : Same cfg k k₁ [g]) (he : k₁.elems = k.elems) (hn : k₁.nextWaiter = k.nextWaiter)
    (hg : g.Parks) (hw : waitsOn (g :: k.stack k.cur) = none)
    (hsl : ∀ u, u ∈ k₁.sleepList ↔ u ∈ k.sleepList ∨ (u = k.cur ∧ Sleeps (g :: k.stack k.cur)))
    (hnd : k.cur ∉ k.sleepList → k.sleepList.Nodup → k₁.sleepList.Nodup) (hf : IdleFree k')
    (h : blockCurrent cfg k₁ = some k') :
    Switches srt k₁ k' .blocked ∧ Scheduling cfg srt k' := by
  obtain ⟨⟨q, home, L, P⟩, hr⟩ := S
  have hst : k₁.stack k₁.cur = g :: k.stack k.cur := by simp [hc.cur, hc.stack]
  have L₁ : Lists cfg srt k₁ q home :=
    L.congr he hc.waitingLock hn fun _ u _ _ => hc.priority u
  have P₁ := hc.placed P
  have hcs : k.cur ∉ k.sleepList := by
    rw [P.sleeping, P.cur_running]
    exact fun h => nomatch h.1
  have L₂ : Lists cfg srt k₁ q (Function.update home k₁.cur (waitsOn (k₁.stack k₁.cur))) := by
    rwa [hst, hw, ← P₁.home_cur, Function.update_eq_self]
  have hne : ∀ u, u ≠ k₁.cur → (u ∈ k₁.sleepList ↔ u ∈ k.sleepList) := by
    intro u hu
    rw [hc.cur] at hu
    simp [hsl, hu]
  have hcur : k₁.cur ∈ k₁.sleepList ↔ Sleeps (k₁.stack k₁.cur) := by
    rw [hsl, hst, hc.cur]
    simp [hcs]
  obtain ⟨hs, q', home', L', P'⟩ := L₂.blockCurrent P₁ ⟨_, _, hst, hg⟩ hne hcur
    (hnd hcs P.sleepers) hf h
  refine ⟨hs, ⟨q', home', L', ?_⟩, hs.inRange (hc.inRange hr)⟩
  rw [hs.sleepList]
  exact P'

theorem Scheduling.exitCurrent (S : Scheduling cfg srt k) (hi : k.idleThread ≠ some k.cur)
    (hf : IdleFree k') (h : exitCurrent cfg k = some k') :
    Switches srt k k' .dying ∧ Scheduling cfg srt k' := by
  obtain ⟨⟨q, home, L, P⟩, hr⟩ := S
  obtain ⟨hs, q', home', L', P'⟩ := L.exitCurrent P hi hf h
  refine ⟨hs, ⟨q', home', L', ?_⟩, hs.inRange hr⟩
  rw [hs.sleepList]
  exact P'

/-- `thread_unblock` of a thread that is in no list. -/
theorem Scheduling.threadUnblock {t : ThreadPtr} (S : Scheduling cfg srt k)
    (hi : k.idleThread ≠ some t) (hw : waitsOn (k.stack t) = none) (hsl : ¬ Sleeps (k.stack t))
    (h : threadUnblock cfg fuel k t = some k') : Woken cfg t k k' ∧ Scheduling cfg srt k' := by
  obtain ⟨⟨q, home, L, P⟩, hr⟩ := S
  have hwk := threadUnblock_woken h
  have hh : home t = none := by
    have hs := P.stands t
    rw [hwk.blocked] at hs
    exact hs.trans hw
  have ht : t ∉ k.sleepList := fun hm => hsl ((P.sleeping t).mp hm).2
  rw [← Function.update_eq_self t home, hh] at L
  obtain ⟨q', home', L', P'⟩ := L.threadUnblock P hr hi h
  rw [List.erase_of_not_mem ht, ← hwk.sleepList, ← hwk.sync.2] at P'
  exact ⟨hwk, ⟨q', home', L', P'⟩, hwk.inRange hr⟩

theorem Scheduling.semaUpBody {p : SemaPtr} {agent : Option ThreadPtr} (S : Scheduling cfg srt k)
    (hp : k.Known p) (hf : IdleFree k) (h : semaUpBody cfg fuel k agent p = some k') :
    (∃ k₁, WakesWaiter cfg p k k₁ ∧ k' = k₁.raised agent p) ∧ Scheduling cfg srt k' := by
  obtain ⟨⟨q, home, L, P⟩, hr⟩ := S
  obtain ⟨⟨k₁, hw, rfl⟩, q', home', L', P'⟩ := L.semaUpBody P hr hp hf h
  refine ⟨⟨k₁, hw, rfl⟩, ⟨q', home', L', ?_⟩, ?_⟩
  · obtain ⟨rfl, -⟩ | ⟨t, -, hw⟩ := hw
    · exact P'
    · have hsl : (k₁.raised agent p).sleepList = k.sleepList := hw.sleepList
      have hc : (k₁.raised agent p).cur = k.cur := hw.sync.2
      rw [hsl, hc]
      exact P'
  · obtain ⟨rfl, -⟩ | ⟨t, -, hw⟩ := hw
    · exact hr
    · exact hw.inRange hr

/-- A waiting thread is in a list. -/
theorem Placed.inQueue (P : Placed (ListPtr.IsReady cfg) r sl k home)
    (L : Lists cfg srt k q home) {t : ThreadPtr}
    (ht : (k.thr t).status = .ready ∧ k.idleThread ≠ some t ∨ ∃ p, k.Known p ∧ Waiting k p t) :
    InQueue q t := by
  obtain ⟨hr, hi⟩ | ⟨p, hp, hw⟩ := ht
  · obtain ⟨l, hl, hh⟩ := P.home_of_ready hr hi
    obtain ⟨xs, hq⟩ := L.ready l hl
    refine ⟨l, xs, ?_, hq, (L.homes _ _ hq t).mpr hh⟩
    rintro m rfl
    cases hl
  · obtain ⟨xs, hq⟩ := L.semas p hp
    refine ⟨.semaWaiters p, xs, nofun, hq, (L.homes _ _ hq t).mpr ?_⟩
    exact (P.waiting_iff (not_isReady_semaWaiters p) t).mpr hw

/-- A thread that waits for a lock is ready, or on a semaphore. -/
def LockWaitersQueued (k : Kernel) : Prop :=
  ∀ l t, (k.thr t).waitingLock = some l →
    (k.thr t).status = .ready ∧ k.idleThread ≠ some t ∨ ∃ p, k.Known p ∧ Waiting k p t

theorem Scheduling.waitForLock {l : LockPtr} {h : ThreadPtr} (S : Scheduling cfg srt k)
    (hl : ∀ t, (k.thr t).waitingLock ≠ some l) (hc : (k.thr k.cur).waitingLock = none)
    (hk : srt → KeepsQueues cfg k h)
    (hw : waitForLock cfg fuel k l h = some k') : Contends k k' l h ∧ Scheduling cfg srt k' := by
  obtain ⟨⟨q, home, L, P⟩, hr⟩ := S
  have H := waitForLock_contends hw
  obtain ⟨q', L'⟩ := L.waitForLock P.home_cur hl hc (fun hs hm => (hk hs).1 hm)
    (fun hs hm u i hu hru => by
      obtain ⟨hst, hi, -⟩ := P.ready_of_home hu nofun
      exact hi ((hk hs).2 hm u hru hst)) hw
  refine ⟨H, ⟨q', home, L', ?_⟩, fun hm u => ?_⟩
  · rw [H.sync.2, H.sleepList]
    refine P.congr (fun u => ?_) (fun u _ => ?_) (congrArg Sync.idleThread H.sync.1)
      H.sync.nextThread H.allList
    · obtain ⟨p, e, -⟩ := H.thr u
      rw [e]
    · rw [show k'.stack = k.stack from congrArg Sync.stack H.sync.1]
  · obtain ⟨p, e, hr₁, hn₁⟩ := H.thr u
    rw [e]
    refine ⟨?_, (hr hm u).basePriority⟩
    by_cases hru : Raises k (k.thr k.cur).priority u h
    · rw [hr₁ hru]
      exact (hr hm _).priority
    · rw [hn₁ hru]
      exact (hr hm u).priority

theorem Scheduling.releaseLock {l : LockPtr} (S : Scheduling cfg srt k)
    (hS : LockWaitersQueued k) (h : releaseLock fuel k l = some k') :
    (∀ t, (k.thr t).waitingLock ≠ some l) ∧ Calm cfg k k' [] := by
  obtain ⟨⟨q, home, L, P⟩, -⟩ := S
  obtain ⟨hn, le, -, rfl⟩ := L.releaseLock P.home_cur (fun t ht => P.inQueue L (hS l t ht)) h
  exact ⟨hn, .of_eq rfl rfl rfl rfl rfl rfl rfl rfl rfl⟩

/-- The running thread may be given any priority in range. -/
theorem Scheduling.setPriority {p : ℤ} (S : Scheduling cfg srt k)
    (hp : cfg.mlfqs = true → priMin ≤ p ∧ p ≤ priMax) :
    Scheduling cfg srt (k.modify k.cur fun th => { th with priority := p }) := by
  obtain ⟨⟨q, home, L, P⟩, hr⟩ := S
  refine ⟨⟨q, home, L.congr rfl (fun u => ?_) rfl fun _ u l hu => ?_,
    P.congr (fun u => ?_) (fun _ _ => rfl) rfl rfl rfl⟩, fun hm u => ?_⟩
  · obtain rfl | hu := eq_or_ne u k.cur <;> simp [*]
  · have hne : u ≠ k.cur := by
      rintro rfl
      rw [P.home_cur] at hu
      cases hu
    simp [hne]
  · obtain rfl | hu := eq_or_ne u k.cur <;> simp [*]
  · obtain rfl | hu := eq_or_ne u k.cur
    · exact ⟨by simpa using hp hm, by simpa using (hr hm k.cur).basePriority⟩
    · simpa [hu] using hr hm u

theorem Scheduling.publish (S : Scheduling cfg srt k) (c : CondPtr)
    (hk : ∀ p t, Waiting k p t → k.Known p) : Scheduling cfg srt (publishWaiter k c) := by
  obtain ⟨⟨q, home, L, P⟩, hr⟩ := S
  set w := k.nextWaiter with hw
  have hfresh : ∀ t, home t ≠ some (.semaWaiters (.ofWaiter w)) := by
    intro t ht
    have hlt := hk _ t ((P.waiting_iff (not_isReady_semaWaiters _) t).mp ht) w rfl
    exact absurd hlt (lt_irrefl _)
  obtain ⟨-, hs⟩ := isList_listInit k.elems (.semaWaiters (.ofWaiter w))
  refine ⟨⟨Function.update q (.semaWaiters (.ofWaiter w)) (some []), home, ?_, ?_⟩, hr⟩
  · refine ⟨L.repr.init _, ?_, ?_, ?_, ?_, ?_, ?_, ?_, L.bucket⟩
    · intro l xs hl t
      by_cases hlw : l = .semaWaiters (.ofWaiter w)
      · subst hlw
        obtain rfl : [] = xs := by simpa using hl
        exact iff_of_false (by simp) (hfresh t)
      · exact L.homes l xs (by simpa [hlw] using hl) t
    · intro l hl
      have hlw : l ≠ .semaWaiters (.ofWaiter w) := by
        rintro rfl
        cases hl
      simpa [hlw] using L.ready l hl
    · intro p hp
      by_cases hpw : p = .ofWaiter w
      · exact ⟨[], by simp [hpw]⟩
      · have hpk : k.Known p := by
          rintro v rfl
          have hv : v < w + 1 := hp v rfl
          exact lt_of_le_of_ne (Nat.lt_succ_iff.mp hv) fun h => hpw (h ▸ rfl)
        simpa [hpw] using L.semas p hpk
    · intro p hp
      have hpw : p ≠ .ofWaiter w := by
        rintro rfl
        exact hp fun v hv => by cases hv; exact Nat.lt_succ_self w
      have hpk : ¬ k.Known p := fun hpk => hp fun v hv => Nat.lt_succ_of_lt (hpk v hv)
      exact (hs _ (not_within_head (by simpa using hpw))).1.trans (L.fresh p hpk)
    · intro l hl
      simpa using L.locks l hl
    · intro l t ht
      obtain ⟨hn, hh⟩ := L.waited l t ht
      exact ⟨by simpa using hn, (hs (.head (.lockWaiters l)) (not_within_head nofun)).1.trans hh⟩
    · intro hsrt hm xs hx
      exact L.sorted hsrt hm xs (by simpa using hx)
  · exact P.congr (fun _ => rfl) (fun _ _ => rfl) rfl rfl rfl

theorem Entry.stack_eq (e : Entry) : ∃ fs, e.stack = .kernelThread :: fs := by
  cases e <;> exact ⟨_, rfl⟩

theorem Scheduling.link {p : ℤ} {e : Entry} {n rc : ℤ} (S : Scheduling cfg srt k)
    (hb : (k.thr k.nextThread).waitingLock = none) (hp : priMin ≤ p ∧ p ≤ priMax) :
    Scheduling cfg srt (linkThread cfg k p e n rc) := by
  obtain ⟨⟨q, home, L, P⟩, hr⟩ := S
  set x := k.nextThread with hx
  have hthr : ∀ u, u ≠ x → (linkThread cfg k p e n rc).thr u = k.thr u := by
    intro u hu
    simp [linkThread, ← hx, hu]
  have hself : (linkThread cfg k p e n rc).thr x = initThread cfg p n rc := by
    simp [linkThread, hx]
  have hst : ∀ u, u ≠ x → (linkThread cfg k p e n rc).stack u = k.stack u := by
    intro u hu
    simp [linkThread, ← hx, hu]
  have hsx : (linkThread cfg k p e n rc).stack x = e.stack := by simp [linkThread, hx]
  have hdx : (k.thr x).status = .dying := P.unborn x le_rfl
  have hhx : home x = none := by
    have hs := P.stands x
    rwa [hdx] at hs
  have hix : k.idleThread ≠ some x := fun hi => P.idleAlive x hi hdx
  obtain ⟨fs, he⟩ := e.stack_eq
  refine ⟨⟨q, home, L.congr rfl (fun u => ?_) rfl fun _ u l hu => ?_, ?_⟩, fun hm u => ?_⟩
  · obtain rfl | hu := eq_or_ne u x
    · rw [hself, hb]
      rfl
    · rw [hthr u hu]
  · have hux : u ≠ x := by
      rintro rfl
      rw [hhx] at hu
      cases hu
    rw [hthr u hux]
  · refine ⟨fun u => ?_, fun u => ?_, fun u hu => ?_, fun u hu => ?_, fun u => ?_, P.sleepers,
      fun u => ?_, ?_, fun u hu => ?_⟩
    · obtain rfl | hu := eq_or_ne u x
      · rw [hself]
        exact iff_of_false nofun fun h => P.cur_lt.ne (Option.some.inj h)
      · rw [hthr u hu]
        exact P.running u
    · obtain rfl | hu := eq_or_ne u x
      · rw [hself, hsx, he]
        exact hhx
      · rw [hthr u hu, hst u hu]
        exact P.stands u
    · have hlt : x < u := hu
      rw [hthr u hlt.ne']
      exact P.unborn u hlt.le
    · obtain rfl | hux := eq_or_ne u x
      · exact ⟨_, _, hsx.trans he, .kernelThread⟩
      · rw [hthr u hux] at hu
        rw [hst u hux]
        exact P.parked u hu
    · obtain rfl | hu := eq_or_ne u x
      · rw [hsx, he]
        refine iff_of_false ?_ ?_
        · rw [show (linkThread cfg k p e n rc).sleepList = k.sleepList from rfl, P.sleeping, hdx]
          exact fun h => nomatch h.1
        · rintro ⟨-, old, gs, h⟩
          cases h
      · rw [hthr u hu, hst u hu]
        exact P.sleeping u
    · change u ∈ k.allList ++ [x] ↔ u < x + 1 ∧ _
      obtain rfl | hu := eq_or_ne u x
      · rw [hself]
        exact iff_of_true (by simp) ⟨Nat.lt_succ_self _, nofun⟩
      · rw [hthr u hu, List.mem_append, P.all, List.mem_singleton, Nat.lt_succ_iff_lt_or_eq]
        simp [hu, ← hx]
    · refine List.nodup_append.mpr ⟨P.allNodup, List.nodup_singleton x, ?_⟩
      rintro a ha b hb rfl
      obtain rfl := List.mem_singleton.mp hb
      exact lt_irrefl _ ((P.all _).mp ha).1
    · have hux : u ≠ x := by
        rintro rfl
        exact hix hu
      rw [hthr u hux]
      exact P.idleAlive u hu
  · obtain rfl | hu := eq_or_ne u x
    · rw [hself]
      refine ⟨?_, hp⟩
      rw [show (initThread cfg p n rc).priority = mlfqsPriority rc n by simp [initThread, hm]]
      exact mlfqsPriority_mem rc n
    · rw [hthr u hu]
      exact hr hm u

theorem Scheduling.setIdle (S : Scheduling cfg srt k) (hi : k.idleThread = none) :
    Scheduling cfg srt { k with idleThread := some k.cur } := by
  obtain ⟨⟨q, home, L, P⟩, hr⟩ := S
  refine ⟨⟨q, home, L.congr rfl (fun _ => rfl) rfl fun _ _ _ _ => rfl,
    { P with stands := fun t => ?_, idleAlive := fun t ht => ?_ }⟩, hr⟩
  · have hs := P.stands t
    obtain rfl | ht := eq_or_ne t k.cur
    · rw [P.cur_running] at hs ⊢
      exact hs
    · rw [hi] at hs
      have hne : ¬ some k.cur = some t := fun h => ht (Option.some.inj h).symm
      change Stands _ (some k.cur = some t) _ _ _
      simpa only [hne, reduceCtorEq] using hs
  · obtain rfl : k.cur = t := Option.some.inj ht
    rw [P.cur_running]
    exact nofun

/-! ### Every frame has its effect -/

/-- What frame `f` needs to keep the scheduler's invariant. -/
structure Legal (cfg : Config) (srt : Prop) (k : Kernel) (f : Frame) : Prop where
  known : ∀ p, f.Downs p ∨ f = .semaUp p → k.Known p
  waiting : ∀ p t, Waiting k p t → k.Known p
  held : ∀ l, f ≠ .lockAcquireHeld l
  contended : ∀ l h, f = .lockAcquireBody l → k.lockHolder l = some h →
    (∀ t, (k.thr t).waitingLock ≠ some l) ∧ (k.thr k.cur).waitingLock = none ∧
      (srt → KeepsQueues cfg k h)
  queued : f.Releases → LockWaitersQueued k
  born : ∀ p e n rc, f = .threadCreateLink p e n rc →
    (k.thr k.nextThread).waitingLock = none ∧ priMin ≤ p ∧ p ≤ priMax
  ranged : ∀ p, f = .threadSetPriority p ∨ f = .threadSetNiceWrite p → cfg.mlfqs = true →
    priMin ≤ p ∧ p ≤ priMax
  unblocks : ∀ t, f.Unblocks t → (k.thr t).status = .blocked →
    k.idleThread ≠ some t ∧ waitsOn (k.stack t) = none ∧ ¬ Sleeps (k.stack t)
  idle : f = .idle → k.idleThread = none
  exit : f = .threadExit → k.idleThread ≠ some k.cur

/-- A frame without an effect on the scheduler. -/
theorem Scheduling.calmEffect {f : Frame} {gs : List Frame} (S : Scheduling cfg srt k)
    (h : Calm cfg k k' gs) (ha : ¬ f.Acts k := by exact id) :
    Effect cfg srt k f k' ∧ Scheduling cfg srt k' :=
  ⟨.same ha h.toSame, S.calm h⟩

theorem Scheduling.downEffect {f : Frame} {p : SemaPtr} {old : Bool} (S : Scheduling cfg srt k)
    (hd : f.Downs p) (hp : k.Known p) (hf : IdleFree k')
    (h : Pintos.semaDownTest cfg fuel k p old = some k') :
    Effect cfg srt k f k' ∧ Scheduling cfg srt k' := by
  obtain ⟨⟨hv, hc⟩ | ⟨hv, k₁, hsame, hs⟩, S'⟩ := S.semaDownTest hp hf h
  · refine ⟨.same ?_ hc.toSame, S'⟩
    cases hd <;> exact hv
  · refine ⟨.switch (.wait hd) (fun p' hd' => ?_) hsame hs, S'⟩
    obtain rfl : p = p' := by cases hd <;> cases hd' <;> rfl
    exact hv

theorem takeLock_calm {l : LockPtr} (h : takeLock k l = some k') : Calm cfg k k' [] := by
  obtain ⟨e, -, rfl⟩ := Option.map_eq_some_iff.mp h
  exact .of_eq rfl rfl rfl rfl rfl rfl rfl rfl rfl

theorem semaTryDown_calm (k : Kernel) (agent : Option ThreadPtr) (p : SemaPtr) :
    Calm cfg k (semaTryDown k agent p).1 [] := by
  unfold semaTryDown
  split
  · exact .of_eq rfl rfl rfl rfl rfl rfl rfl rfl rfl
  · exact .refl k

/-- **Every frame has its effect** on the threads, and keeps the invariant of the
scheduler. -/
theorem exec_effect {f : Frame} (S : Scheduling cfg srt k) (hl : Legal cfg srt k f)
    (hf : IdleFree k) (hf' : IdleFree k') (h : exec cfg fuel k f = some k') :
    Effect cfg srt k f k' ∧ Scheduling cfg srt k' := by
  have hr : Calm cfg k k [] := .refl k
  cases f <;> simp only [exec] at h
  case semaDown p =>
    have hc := hr.setLevel false
    obtain ⟨e, S'⟩ := (S.calm hc).downEffect .semaDown (hl.known p (.inl .semaDown)) hf' h
    refine ⟨?_, S'⟩
    cases e with
    | same ha hs => exact .same ha (hc.toSame.trans hs)
    | switch hp hv hs hsw => exact .switch hp hv (hc.toSame.trans hs) hsw
    | priority hp => cases hp
    | wake hu => cases hu
  case semaDownWait p old => exact S.downEffect .semaDownWait (hl.known p (.inl .semaDownWait)) hf' h
  case semaTryDown p =>
    cases h
    exact S.calmEffect (semaTryDown_calm k _ p)
  case semaUp p =>
    obtain ⟨k₁, h₁, rfl⟩ := Option.map_eq_some_iff.mp h
    obtain ⟨⟨k₂, hw, rfl⟩, S'⟩ := S.semaUpBody (hl.known p (.inr rfl)) hf h₁
    have hc : Calm cfg k₂ (k₂.raised (some k.cur) p) [] :=
      .of_eq rfl rfl rfl rfl rfl rfl rfl rfl rfl
    exact ⟨.up hw (hc.push _).toSame, S'.calm ((Calm.refl _).push _)⟩
  case lockAcquire l =>
    split at h <;> cases h
    exact S.calmEffect (hr.push _)
  case lockAcquireBody l =>
    split at h
    case h_1 hn =>
      cases h
      exact S.calmEffect ((hr.pushes _).setLevel false) fun ha => ha hn
    case h_2 t ht =>
      obtain ⟨k₁, h₁, rfl⟩ := Option.map_eq_some_iff.mp h
      obtain ⟨hn, hc, hk⟩ := hl.contended l t rfl ht
      obtain ⟨H, S'⟩ := S.waitForLock hn hc hk h₁
      exact ⟨.contend ht H ((Calm.refl k₁).pushes _).toSame, S'.calm ((Calm.refl k₁).pushes _)⟩
  case lockAcquireFree l old =>
    obtain ⟨k₁, h₁, rfl⟩ := Option.map_eq_some_iff.mp h
    exact S.calmEffect ((takeLock_calm h₁).setLevel old)
  case lockAcquireHeld l => exact absurd rfl (hl.held l)
  case lockTryAcquire l =>
    split at h <;> cases h
    exact S.calmEffect (hr.push _)
  case lockTryAcquireDown l =>
    cases h
    split
    · exact S.calmEffect ((semaTryDown_calm k _ _).push _)
    · exact S.calmEffect (semaTryDown_calm k _ _)
  case lockTryAcquireHolder l =>
    cases h
    exact S.calmEffect (.of_eq rfl rfl rfl rfl rfl rfl rfl rfl rfl)
  case lockRelease l =>
    split at h <;> cases h
    exact S.calmEffect (hr.push _)
  case lockReleaseBody l =>
    obtain ⟨k₁, h₁, rfl⟩ := Option.map_eq_some_iff.mp h
    exact S.calmEffect (((S.releaseLock (hl.queued .lockReleaseBody) h₁).2.pushes _).setLevel false)
  case lockReleaseRefresh old =>
    obtain ⟨k₁, h₁, rfl⟩ := Option.map_eq_some_iff.mp h
    obtain ⟨⟨q, home, L, P⟩, hin⟩ := S
    have hrp := (L.refreshPriority (fun l t ht =>
      P.inQueue L (hl.queued .lockReleaseRefresh l t ht)) h₁).1
    have S₁ : Scheduling cfg srt (k.modify k.cur fun th =>
        { th with priority := (k.thr k.cur).basePriority }) :=
      Scheduling.setPriority ⟨⟨q, home, L, P⟩, hin⟩ fun hm => (hin hm k.cur).basePriority
    have hk₁ : k₁ = k.modify k.cur fun th =>
        { th with priority := (k.thr k.cur).basePriority } := hrp
    subst hk₁
    split
    · exact ⟨.priority .lockReleaseRefresh ((Calm.refl _).pushes _).toSame,
        S₁.calm ((Calm.refl _).pushes _)⟩
    · exact ⟨.priority .lockReleaseRefresh ((Calm.refl _).push _).toSame,
        S₁.calm ((Calm.refl _).push _)⟩
  case condWait c l =>
    split at h <;> cases h
    have hsame : Same cfg k (publishWaiter k c) [] := .of_eq rfl rfl rfl rfl rfl rfl
    exact ⟨.same id (hsame.pushes _), (S.publish c hl.waiting).calm ((Calm.refl _).pushes _)⟩
  case condWaitReturn c w =>
    cases h
    exact S.calmEffect hr
  case condSignal c l =>
    split at h <;> cases h
    exact S.calmEffect (hr.push _)
  case condSignalFirst c =>
    split at h <;> cases h
    · exact S.calmEffect hr
    · exact S.calmEffect (hr.push _)
  case condSignalMax c m es =>
    cases es with
    | nil =>
        cases h
        exact S.calmEffect (hr.push _)
    | cons e es =>
        obtain ⟨less, -, rfl⟩ := Option.map_eq_some_iff.mp h
        exact S.calmEffect (hr.push _)
  case condSignalRemove c m =>
    cases h
    have hc : Calm cfg k { k with
        condWaiters := Function.update k.condWaiters c ((k.condWaiters c).erase m) } [] :=
      .of_eq rfl rfl rfl rfl rfl rfl rfl rfl rfl
    exact S.calmEffect (hc.push _)
  case condBroadcast c l =>
    split at h <;> cases h
    · exact S.calmEffect hr
    · exact S.calmEffect (hr.pushes _)
  case checkPreemption =>
    cases h
    split
    · exact S.calmEffect hr
    · exact S.calmEffect (hr.push _)
  case checkPreemptionFront =>
    split at h <;> cases h
    exact S.calmEffect (hr.push _)
  case checkPreemptionRead =>
    obtain ⟨n, -, rfl⟩ := Option.map_eq_some_iff.mp h
    exact S.calmEffect (hr.push _)
  case checkPreemptionCompare n =>
    cases h
    split
    · exact S.calmEffect (hr.push _)
    · exact S.calmEffect hr
  case mlfqsCheckPreemption i =>
    cases i with
    | zero =>
        cases h
        exact S.calmEffect (hr.push _)
    | succ i =>
        cases h
        split
        · exact S.calmEffect (hr.push _)
        · exact S.calmEffect (hr.push _)
  case mlfqsCheckPreemptionCompare p =>
    cases h
    split
    · exact S.calmEffect (hr.push _)
    · exact S.calmEffect hr
  case threadYield =>
    have hc := (hr.push (.intrSetLevel k.intrOn)).setLevel false
    obtain ⟨hs, S'⟩ := S.yieldCurrent hc hf' h
    exact ⟨.switch .threadYield (by rintro _ ⟨⟩) hc.toSame hs, S'⟩
  case intrSetLevel old =>
    cases h
    exact S.calmEffect (hr.setLevel old)
  case threadBlock =>
    have hc := hr.push .threadBlockReturn
    obtain ⟨hs, S'⟩ := S.blockCurrent hc.toSame rfl rfl .threadBlockReturn rfl
      (fun u => by simp [Sleeps]) (fun _ h => h) hf' h
    exact ⟨.switch .threadBlock (by rintro _ ⟨⟩) hc.toSame hs, S'⟩
  case threadBlockReturn =>
    cases h
    exact S.calmEffect hr
  case threadUnblock t =>
    obtain ⟨hi, hw, hsl⟩ := hl.unblocks t .threadUnblock (threadUnblock_woken h).blocked
    obtain ⟨hwk, S'⟩ := S.threadUnblock hi hw hsl h
    exact ⟨.wake .threadUnblock hwk (Calm.refl k').toSame, S'⟩
  case threadExit =>
    obtain ⟨hs, S'⟩ := S.exitCurrent (hl.exit rfl) hf' h
    exact ⟨.switch .threadExit (by rintro _ ⟨⟩) hr.toSame hs, S'⟩
  case threadCreate p e =>
    split at h
    · cases h
      exact S.calmEffect (.of_eq rfl rfl rfl rfl rfl rfl rfl rfl rfl)
    · split at h <;> cases h
      exact S.calmEffect (hr.push _)
  case threadCreateLink p e n rc =>
    cases h
    obtain ⟨hb, hp⟩ := hl.born p e n rc rfl
    have S' : Scheduling cfg srt (linkThread cfg k p e n rc) := S.link hb hp
    split
    · have hc : Calm cfg (linkThread cfg k p e n rc)
          { (linkThread cfg k p e n rc).push (.threadCreateTid k.nextThread
            (linkThread cfg k p e n rc).nextTid) with
              nextTid := toInt32 ((linkThread cfg k p e n rc).nextTid + 1) }
          [.threadCreateTid k.nextThread (linkThread cfg k p e n rc).nextTid] := by
        have hc₁ : Calm cfg (linkThread cfg k p e n rc) { linkThread cfg k p e n rc with
          nextTid := toInt32 ((linkThread cfg k p e n rc).nextTid + 1) } [] :=
          .of_eq rfl rfl rfl rfl rfl rfl rfl rfl rfl
        exact hc₁.push _
      exact ⟨.link hc.toSame, S'.calm hc⟩
    · exact ⟨.link ((Calm.refl _).pushes _).toSame, S'.calm ((Calm.refl _).pushes _)⟩
  case allocateTidRead t =>
    cases h
    exact S.calmEffect (hr.push _)
  case allocateTidWrite t tid =>
    cases h
    have hc : Calm cfg k { k with nextTid := toInt32 (tid + 1) } [] :=
      .of_eq rfl rfl rfl rfl rfl rfl rfl rfl rfl
    exact S.calmEffect (hc.pushes _)
  case threadCreateTid t tid =>
    cases h
    have hc : Calm cfg k (k.modify t fun th => { th with tid := tid }) [] :=
      .modify (fun _ => rfl) (fun _ => rfl) (fun _ => rfl) fun _ => rfl
    have hc' : Calm cfg k ((k.modify t fun th => { th with tid := tid }).record (.tid t tid)) [] :=
      hc.trans (.of_eq rfl rfl rfl rfl rfl rfl rfl rfl rfl)
    exact S.calmEffect (hc'.push _)
  case threadCreateUnblock t =>
    obtain ⟨k₁, h₁, rfl⟩ := Option.map_eq_some_iff.mp h
    obtain ⟨hi, hw, hsl⟩ := hl.unblocks t .threadCreateUnblock (threadUnblock_woken h₁).blocked
    obtain ⟨hwk, S'⟩ := S.threadUnblock hi hw hsl h₁
    exact ⟨.wake .threadCreateUnblock hwk ((Calm.refl k₁).push _).toSame,
      S'.calm ((Calm.refl k₁).push _)⟩
  case threadSetPriority p =>
    cases h
    have S' := S.setPriority (p := p) (hl.ranged p (.inl rfl))
    exact ⟨.priority .threadSetPriority ((Calm.refl _).push _).toSame,
      S'.calm ((Calm.refl _).push _)⟩
  case threadSetNice n =>
    cases h
    have hc : ∀ n, Calm cfg k (k.modify k.cur fun th => { th with nice := n }) [] := fun n =>
      .modify (fun _ => rfl) (fun _ => rfl) (fun _ => rfl) fun _ => rfl
    exact S.calmEffect ((hc _).push _)
  case threadSetNiceUpdate =>
    cases h
    split
    · exact S.calmEffect (hr.push _)
    · exact S.calmEffect (hr.push _)
  case threadSetNiceWrite p =>
    cases h
    have S' := S.setPriority (p := p) (hl.ranged p (.inr rfl))
    have hc : Calm cfg (k.modify k.cur fun th => { th with priority := p })
        (k.modify k.cur fun th => { th with priority := p, computed := p }) [] := by
      have e : (k.modify k.cur fun th => { th with priority := p, computed := p }) =
          (k.modify k.cur fun th => { th with priority := p }).modify k.cur
            fun th => { th with computed := p } := by simp [Kernel.modify]
      rw [e]
      exact .modify (fun _ => rfl) (fun _ => rfl) (fun _ => rfl) fun _ => rfl
    exact ⟨.priority .threadSetNiceWrite (hc.push _).toSame, S'.calm (hc.push _)⟩
  case threadStart =>
    cases h
    exact S.calmEffect ((hr.push _).setLevel true)
  case kernelThread =>
    cases h
    exact S.calmEffect (hr.setLevel true)
  case idle =>
    cases h
    have S' := S.setIdle (hl.idle rfl)
    exact ⟨.idle ((Calm.refl _).pushes _).toSame, S'.calm ((Calm.refl _).pushes _)⟩
  case idleLoop =>
    have hc := (hr.push .idleResume).setLevel false
    obtain ⟨hs, S'⟩ := S.blockCurrent hc.toSame rfl rfl .idleResume rfl
      (fun u => by simp [Sleeps]) (fun _ h => h) hf' h
    exact ⟨.switch .idleLoop (by rintro _ ⟨⟩) hc.toSame hs, S'⟩
  case idleResume =>
    cases h
    exact S.calmEffect ((hr.push _).setLevel true)
  case idleHalt => cases h
  case timerSleep n =>
    split at h <;> cases h
    split
    · exact S.calmEffect hr
    · exact S.calmEffect (hr.push _)
  case timerSleepBody start n =>
    have hm : Calm cfg k (k.modify k.cur fun th => { th with wakeupTick := toInt64 (start + n) }) [] :=
      .modify (fun _ => rfl) (fun _ => rfl) (fun _ => rfl) fun _ => rfl
    set k₁ := k.modify k.cur fun th => { th with wakeupTick := toInt64 (start + n) }
    have hi : Same cfg k (insertSleeper k₁ k₁.cur) [] :=
      hm.toSame.trans (.of_eq rfl rfl rfl rfl rfl rfl)
    have hc := (hi.push (.timerSleepReturn k.intrOn)).setLevel false
    obtain ⟨hs, S'⟩ := S.blockCurrent hc rfl rfl .timerSleepReturn rfl
      (fun u => by simp [Sleeps, insertSleeper, k₁, or_comm])
      (fun hn hd => (List.perm_orderedInsert _ _ _).nodup_iff.mpr (List.nodup_cons.mpr ⟨hn, hd⟩)) hf' h
    exact ⟨.switch .timerSleepBody (by rintro _ ⟨⟩) hc hs, S'⟩
  case timerSleepReturn old =>
    cases h
    exact S.calmEffect (hr.setLevel old)

end Pintos
