/-
PintosThreads/SparedLists.lean

The lists that the priority scheduler leaves alone.

`D` names lists that no function is called for, and `k.over D m` is the state
`k` with the memory of these lists taken from `m`.  Every step does the same in
`k` and in `k.over D m` (`Mirrored`), as long as the link memory is sealed against
`D` and no frame of the MLFQS is on a stack (`Apart`); the functions of locks
need that the waiters of locks are not among `D`.
-/
import PintosThreads.Overlay
import PintosThreads.Machine

namespace Pintos

open Intrusive

/-- The state with the sentinels of the lists `D` as they are in `m`. -/
@[simps]
def Kernel.over (D : ListPtr → Bool) (m : Links ListPtr ThreadPtr) (k : Kernel) : Kernel :=
  { k with elems := k.elems.overlay D m }

/-- The frames of `mlfqs_check_preemption` and `thread_set_nice`, which do not ask which scheduler
is in force. -/
def Frame.OfNice : Frame → Prop
  | mlfqsCheckPreemption _ | mlfqsCheckPreemptionCompare _ => True
  | threadSetNice _ | threadSetNiceUpdate | threadSetNiceWrite _ => True
  | _ => False

variable {cfg : Config} {fuel : ℕ} {D : ListPtr → Bool} {m : Links ListPtr ThreadPtr}
variable {k k' : Kernel} {t : ThreadPtr} {l : ListPtr}

/-- Nothing leads to the lists `D`: no pointer, and no frame that goes through the MLFQS queues. -/
structure Apart (D : ListPtr → Bool) (k : Kernel) : Prop where
  links : Sealed D k.elems
  frames : ∀ u f, f ∈ k.stack u → ¬ f.OfNice

/-- The ready list of the priority scheduler and the waiters of semaphores are not among `D`. -/
structure Spares (D : ListPtr → Bool) : Prop where
  readyList : D .readyList = false
  semaWaiters : ∀ p, D (.semaWaiters p) = false

/-- The second of two results is the first one with the lists `D` as in `m`, and nothing leads to
them. -/
def Mirrored (D : ListPtr → Bool) (m : Links ListPtr ThreadPtr) (x y : Option Kernel) : Prop :=
  y = x.map (·.over D m) ∧ ∀ k, x = some k → Apart D k

theorem Mirrored.none : Mirrored D m none none := ⟨rfl, nofun⟩

theorem Mirrored.some (A : Apart D k) : Mirrored D m (some k) (some (k.over D m)) :=
  ⟨rfl, fun _ h => Option.some.inj h ▸ A⟩

theorem Mirrored.bind {x y : Option Kernel} {f : Kernel → Option Kernel} (h : Mirrored D m x y)
    (hf : ∀ k, Apart D k → Mirrored D m (f k) (f (k.over D m))) :
    Mirrored D m (x.bind f) (y.bind f) := by
  obtain ⟨rfl, hA⟩ := h
  rcases x with - | k
  · exact .none
  · exact hf k (hA k rfl)

theorem Mirrored.map {x y : Option Kernel} {g : Kernel → Kernel} (h : Mirrored D m x y)
    (hg : ∀ k, Apart D k → g (k.over D m) = (g k).over D m ∧ Apart D (g k)) :
    Mirrored D m (x.map g) (y.map g) := by
  obtain ⟨rfl, hA⟩ := h
  rcases x with - | k
  · exact .none
  · obtain ⟨he, hA'⟩ := hg k (hA k rfl)
    exact ⟨congrArg Option.some he, fun _ h => Option.some.inj h ▸ hA'⟩

theorem Mirrored.ite {c : Prop} [Decidable c] {x y x' y' : Option Kernel} (h : c → Mirrored D m x y)
    (h' : ¬ c → Mirrored D m x' y') : Mirrored D m (if c then x else x') (if c then y else y') := by
  split
  case isTrue hc => exact h hc
  case isFalse hc => exact h' hc

/-! ### What the relation does not look at -/

theorem Kernel.modify_over (k : Kernel) (t : ThreadPtr) (f : Thread → Thread) :
    (k.over D m).modify t f = (k.modify t f).over D m := rfl

theorem Kernel.record_over (k : Kernel) (e : Event) :
    (k.over D m).record e = (k.record e).over D m := rfl

theorem Kernel.push_over (k : Kernel) (f : Frame) :
    (k.over D m).push f = (k.push f).over D m := rfl

theorem Kernel.setLevel_over (k : Kernel) (b : Bool) :
    (k.over D m).setLevel b = (k.setLevel b).over D m := rfl

theorem Apart.modify (A : Apart D k) (t : ThreadPtr) (f : Thread → Thread) :
    Apart D (k.modify t f) :=
  ⟨A.links, A.frames⟩

theorem Apart.record (A : Apart D k) (e : Event) : Apart D (k.record e) :=
  ⟨A.links, A.frames⟩

theorem Apart.setLevel (A : Apart D k) (b : Bool) : Apart D (k.setLevel b) :=
  ⟨A.links, A.frames⟩

theorem Apart.congr (A : Apart D k) (he : k'.elems = k.elems) (hs : k'.stack = k.stack) :
    Apart D k' :=
  ⟨he ▸ A.links, hs ▸ A.frames⟩

theorem Apart.push (A : Apart D k) {f : Frame} (hf : ¬ f.OfNice) : Apart D (k.push f) where
  links := A.links
  frames u g hg := by
    obtain rfl | hu := eq_or_ne u k.cur
    · simp only [Kernel.push_stack, Function.update_self, List.mem_cons] at hg
      obtain rfl | hg := hg
      · exact hf
      · exact A.frames _ g hg
    · simp only [Kernel.push_stack, Function.update_of_ne hu] at hg
      exact A.frames u g hg

theorem Apart.pushes (A : Apart D k) {fs : List Frame} (hf : ∀ f ∈ fs, ¬ f.OfNice) :
    Apart D (k.pushes fs) where
  links := A.links
  frames u g hg := by
    obtain rfl | hu := eq_or_ne u k.cur
    · simp only [Kernel.pushes_stack, Function.update_self, List.mem_append] at hg
      obtain hg | hg := hg
      · exact hf g hg
      · exact A.frames _ g hg
    · simp only [Kernel.pushes_stack, Function.update_of_ne hu] at hg
      exact A.frames u g hg

theorem Apart.setElems (A : Apart D k) {e : Links ListPtr ThreadPtr} (he : Sealed D e) :
    Apart D (k.setElems e) :=
  ⟨he, A.frames⟩

/-! ### The ready list -/

theorem insertByPriority_over (A : Apart D k) (hl : D l = false) (t : ThreadPtr) :
    Mirrored D m (insertByPriority cfg fuel k l t) (insertByPriority cfg fuel (k.over D m) l t) := by
  have O : Overlaid D m (k.elems.listInsertOrdered fuel l (.item t) (lessPriority cfg k t)) _ :=
    A.links.listInsertOrdered hl rfl
  obtain ⟨heq, hs⟩ := O
  rw [insertByPriority, insertByPriority]
  show Mirrored D m _ ((Links.listInsertOrdered (k.elems.overlay D m) fuel l (.item t)
    (lessPriority cfg k t)).map (k.over D m).setElems)
  rw [heq]
  rcases h : k.elems.listInsertOrdered fuel l (.item t) (lessPriority cfg k t) with - | e
  · exact .none
  · exact .some (A.setElems (hs e h))

/-- The front of a list, in the state and in its overlay. -/
theorem popThread_over (A : Apart D k) (hl : D l = false) :
    popThread (k.elems.overlay D m) l =
        (popThread k.elems l).map (fun x => (x.1, x.2.overlay D m)) ∧
      ∀ t e, popThread k.elems l = some (t, e) → Sealed D e := by
  obtain ⟨heq, hs⟩ := A.links.listPopFront (m := m) hl
  rw [popThread, popThread, heq]
  rcases h : k.elems.listPopFront l with - | ⟨n, e⟩
  · exact ⟨rfl, nofun⟩
  · cases n with
    | item t =>
        refine ⟨rfl, fun t' e' he => ?_⟩
        cases he
        exact hs _ _ h
    | head l' => exact ⟨rfl, nofun⟩
    | tail l' => exact ⟨rfl, nofun⟩

theorem nextThreadToRun_over (hm : cfg.mlfqs = false) (A : Apart D k) (hD : Spares D) :
    nextThreadToRun cfg (k.over D m) =
        (nextThreadToRun cfg k).map (fun x => (x.1, x.2.overlay D m)) ∧
      ∀ t e, nextThreadToRun cfg k = some (t, e) → Sealed D e := by
  have hmf : ¬ cfg.mlfqs = true := by
    rw [hm]
    nofun
  rw [nextThreadToRun, nextThreadToRun, if_neg hmf, if_neg hmf, Kernel.over_elems,
    listEmpty_overlay hD.readyList]
  split
  · refine ⟨?_, fun t e h => ?_⟩
    · rw [Kernel.over_idleThread]
      rcases k.idleThread with - | i <;> rfl
    · obtain ⟨i, -, he⟩ := Option.map_eq_some_iff.mp h
      cases he
      exact A.links
  · exact popThread_over A hD.readyList

theorem schedule_over (hm : cfg.mlfqs = false) (A : Apart D k) (hD : Spares D) :
    Mirrored D m (schedule cfg k) (schedule cfg (k.over D m)) := by
  obtain ⟨heq, hs⟩ := nextThreadToRun_over (m := m) hm A hD
  rw [schedule, schedule, heq]
  rcases h : nextThreadToRun cfg k with - | ⟨n, e⟩
  · exact .none
  · simp only [Option.map_some, Option.bind_eq_bind, Option.bind_some]
    refine Mirrored.ite (fun _ => ?_) fun _ => .none
    exact .some ⟨hs n e h, A.frames⟩

theorem blockCurrent_over (hm : cfg.mlfqs = false) (A : Apart D k) (hD : Spares D) :
    Mirrored D m (blockCurrent cfg k) (blockCurrent cfg (k.over D m)) := by
  rw [blockCurrent, blockCurrent]
  refine Mirrored.ite (fun _ => ?_) fun _ => .none
  rw [Kernel.over_cur, Kernel.modify_over]
  exact schedule_over hm (A.modify _ _) hD

theorem threadUnblock_over (hm : cfg.mlfqs = false) (A : Apart D k) (hD : Spares D)
    (t : ThreadPtr) :
    Mirrored D m (threadUnblock cfg fuel k t) (threadUnblock cfg fuel (k.over D m) t) := by
  have hmf : ¬ cfg.mlfqs = true := by
    rw [hm]
    nofun
  rw [threadUnblock, threadUnblock]
  refine Mirrored.ite (fun _ => ?_) fun _ => .none
  dsimp only
  rw [if_neg hmf, if_neg hmf, Kernel.modify_over, Kernel.record_over]
  exact insertByPriority_over ((A.modify _ _).record _) hD.readyList t

theorem yieldCurrent_over (hm : cfg.mlfqs = false) (A : Apart D k) (hD : Spares D) :
    Mirrored D m (yieldCurrent cfg fuel k) (yieldCurrent cfg fuel (k.over D m)) := by
  have hmf : ¬ cfg.mlfqs = true := by
    rw [hm]
    nofun
  have hins : Mirrored D m (yieldInsert cfg fuel k) (yieldInsert cfg fuel (k.over D m)) := by
    rw [yieldInsert, yieldInsert]
    refine Mirrored.ite (fun _ => .some A) fun _ => ?_
    rw [if_neg hmf, if_neg hmf]
    exact insertByPriority_over A hD.readyList k.cur
  rw [yieldCurrent, yieldCurrent]
  refine hins.bind fun k A => ?_
  rw [Kernel.over_cur, Kernel.modify_over]
  exact schedule_over hm (A.modify _ _) hD

theorem exitCurrent_over (hm : cfg.mlfqs = false) (A : Apart D k) (hD : Spares D) :
    Mirrored D m (exitCurrent cfg k) (exitCurrent cfg (k.over D m)) := by
  rw [exitCurrent, exitCurrent]
  exact schedule_over hm (A.congr rfl rfl) hD

/-! ### Semaphores -/

theorem semaDownTest_over (hm : cfg.mlfqs = false) (A : Apart D k) (hD : Spares D) (p : SemaPtr)
    (old : Bool) :
    Mirrored D m (semaDownTest cfg fuel k p old) (semaDownTest cfg fuel (k.over D m) p old) := by
  rw [semaDownTest, semaDownTest]
  refine Mirrored.ite (fun _ => ?_) fun _ => .some (A.congr rfl rfl)
  refine (insertByPriority_over A (hD.semaWaiters p) k.cur).bind fun k A => ?_
  rw [Kernel.push_over]
  exact blockCurrent_over hm (A.push nofun) hD

theorem semaTryDown_over (A : Apart D k) (agent : Option ThreadPtr) (p : SemaPtr) :
    semaTryDown (k.over D m) agent p =
        ((semaTryDown k agent p).1.over D m, (semaTryDown k agent p).2) ∧
      Apart D (semaTryDown k agent p).1 := by
  rw [semaTryDown, semaTryDown, Kernel.over_semaValue]
  split
  · exact ⟨rfl, A.congr rfl rfl⟩
  · exact ⟨rfl, A⟩

theorem semaUpBody_over (hm : cfg.mlfqs = false) (A : Apart D k) (hD : Spares D)
    (agent : Option ThreadPtr) (p : SemaPtr) :
    Mirrored D m (semaUpBody cfg fuel k agent p) (semaUpBody cfg fuel (k.over D m) agent p) := by
  have hwake : Mirrored D m (semaWake cfg fuel k p) (semaWake cfg fuel (k.over D m) p) := by
    obtain ⟨heq, hs⟩ := popThread_over (m := m) A (hD.semaWaiters p)
    rw [semaWake, semaWake, Kernel.over_elems, listEmpty_overlay (hD.semaWaiters p), heq]
    refine Mirrored.ite (fun _ => .some A) fun _ => ?_
    rcases h : popThread k.elems (.semaWaiters p) with - | ⟨t, e⟩
    · exact .none
    · exact threadUnblock_over hm (A.setElems (hs t e h)) hD t
  rw [semaUpBody, semaUpBody]
  exact hwake.bind fun k A => .some (A.congr rfl rfl)

/-! ### Locks -/

theorem takeLock_over (A : Apart D k) (l : LockPtr) :
    Mirrored D m (takeLock k l) (takeLock (k.over D m) l) := by
  rw [takeLock, takeLock, Kernel.over_lockElems, Kernel.over_cur]
  rcases k.lockElems.listPushBack k.cur (.item l) with - | e
  · exact .none
  · exact .some (A.congr rfl rfl)

theorem donatePriority_over : ∀ (fuel : ℕ) {k : Kernel} {f t : ThreadPtr}, Apart D k →
    Mirrored D m (donatePriority fuel k f t) (donatePriority fuel (k.over D m) f t)
  | 0, _, _, _, _ => .none
  | fuel + 1, k, f, t, A => by
      rw [donatePriority, donatePriority]
      refine Mirrored.ite (fun _ => ?_) fun _ => .some A
      obtain ⟨k₁, hk₁⟩ : ∃ k₁, k₁ = k.modify t fun th => { th with priority := (k.thr f).priority } :=
        ⟨_, rfl⟩
      have A₁ : Apart D k₁ := hk₁ ▸ A.modify _ _
      dsimp only
      rw [Kernel.over_thr, Kernel.modify_over, ← hk₁]
      simp only [Kernel.over]
      rcases (k₁.thr t).waitingLock.bind k₁.lockHolder with - | h
      · exact .some A₁
      · exact donatePriority_over fuel A₁

theorem waitForLock_over (A : Apart D k) {l : LockPtr} (hl : D (.lockWaiters l) = false)
    (h : ThreadPtr) :
    Mirrored D m (waitForLock cfg fuel k l h) (waitForLock cfg fuel (k.over D m) l h) := by
  rw [waitForLock, waitForLock, Kernel.over_cur, Kernel.modify_over]
  exact (insertByPriority_over (A.modify _ _) hl _).bind fun k A => donatePriority_over fuel A

theorem removeWaiter_over {l : LockPtr} {t : ThreadPtr} : ∀ (fuel : ℕ)
    {e : Links ListPtr ThreadPtr} {n : Node ListPtr ThreadPtr}, Sealed D e → n.isOf D = false →
    Overlaid D m (removeWaiter l t fuel e n) (removeWaiter l t fuel (e.overlay D m) n)
  | 0, _, _, _, _ => ⟨rfl, nofun⟩
  | fuel + 1, e, n, S, hn => by
      rw [removeWaiter, removeWaiter, overlay_next hn]
      split
      · exact ⟨rfl, fun _ h => Option.some.inj h ▸ S⟩
      · rcases hn' : e.next n with - | n'
        · exact ⟨rfl, nofun⟩
        · have hd := S.next hn hn'
          simp only [Option.bind_eq_bind, Option.bind_some]
          split
          · obtain ⟨heq, hs⟩ := S.listRemove (m := m) hn
            rw [heq]
            rcases hr : e.listRemove n with - | e₁
            · exact ⟨rfl, nofun⟩
            · exact removeWaiter_over fuel (hs e₁ hr) hd
          · exact removeWaiter_over fuel S hd

theorem releaseLock_over (A : Apart D k) {l : LockPtr} (hl : D (.lockWaiters l) = false) :
    Mirrored D m (releaseLock fuel k l) (releaseLock fuel (k.over D m) l) := by
  have hh : (Node.head (.lockWaiters l) : Node ListPtr ThreadPtr).isOf D = false := hl
  rw [releaseLock, releaseLock, Kernel.over_lockElems, Kernel.over_elems, Kernel.over_cur,
    overlay_next hh]
  rcases k.lockElems.listRemove (.item l) with - | le
  · exact .none
  rcases hn : k.elems.next (.head (.lockWaiters l)) with - | n
  · exact .none
  obtain ⟨heq, hs⟩ := removeWaiter_over (m := m) (l := l) (t := k.cur) fuel A.links
    (A.links.next hh hn)
  simp only [Option.bind_eq_bind, Option.bind_some, heq]
  rcases hr : removeWaiter l k.cur fuel k.elems n with - | e
  · exact .none
  · exact .some ⟨hs e hr, A.frames⟩

theorem refreshWaiters_over {l : LockPtr} {t : ThreadPtr} : ∀ (fuel : ℕ) {k : Kernel}
    {n : Node ListPtr ThreadPtr}, Apart D k → n.isOf D = false →
    Mirrored D m (refreshWaiters cfg t l fuel k n) (refreshWaiters cfg t l fuel (k.over D m) n)
  | 0, _, _, _, _ => .none
  | fuel + 1, k, n, A, hn => by
      have hp : (k.over D m).priorityAt cfg n = k.priorityAt cfg n := by
        cases n <;> rfl
      rw [refreshWaiters, refreshWaiters]
      refine Mirrored.ite (fun _ => .some A) fun _ => ?_
      obtain ⟨k₁, hk₁⟩ : ∃ k₁, k₁ = if k.priorityAt cfg n > (k.thr t).priority then
          k.modify t fun th => { th with priority := k.priorityAt cfg n } else k := ⟨_, rfl⟩
      have A₁ : Apart D k₁ := by
        rw [hk₁]
        split
        · exact A.modify _ _
        · exact A
      have he : k₁.elems = k.elems := by
        rw [hk₁]
        split <;> rfl
      have hk₂ : (if k.priorityAt cfg n > (k.thr t).priority then
          (k.over D m).modify t fun th => { th with priority := k.priorityAt cfg n }
          else k.over D m) = k₁.over D m := by
        rw [hk₁]
        split <;> rfl
      dsimp only
      rw [hp, Kernel.over_thr, hk₂, ← hk₁, Kernel.over_elems, overlay_next hn]
      rcases hn' : k₁.elems.next n with - | n'
      · exact .none
      · exact refreshWaiters_over fuel A₁ (A₁.links.next hn hn')

theorem refreshLocks_over (hL : ∀ l, D (.lockWaiters l) = false) {t : ThreadPtr} : ∀ (fuel' : ℕ)
    {k : Kernel} {n : Node ThreadPtr LockPtr}, Apart D k →
    Mirrored D m (refreshLocks cfg fuel t fuel' k n) (refreshLocks cfg fuel t fuel' (k.over D m) n)
  | 0, _, _, _ => .none
  | fuel' + 1, k, n, A => by
      cases n with
      | item l =>
          have hh : (Node.head (.lockWaiters l) : Node ListPtr ThreadPtr).isOf D = false := hL l
          have hlock : Mirrored D m (refreshLock cfg fuel t k l)
              (refreshLock cfg fuel t (k.over D m) l) := by
            rw [refreshLock, refreshLock, Kernel.over_elems, listEmpty_overlay (hL l),
              overlay_next hh]
            refine Mirrored.ite (fun _ => .some A) fun _ => ?_
            rcases hn : k.elems.next (.head (.lockWaiters l)) with - | n
            · exact .none
            · exact refreshWaiters_over fuel A (A.links.next hh hn)
          rw [refreshLocks, refreshLocks]
          refine hlock.bind fun k A => ?_
          rw [Kernel.over_lockElems]
          rcases k.lockElems.next (.item l) with - | n'
          · exact .none
          · exact refreshLocks_over hL fuel' A
      | head t' =>
          rw [refreshLocks, refreshLocks]
          · exact Mirrored.ite (fun _ => .some A) fun _ => .none
          · exact nofun
          · exact nofun
      | tail t' =>
          rw [refreshLocks, refreshLocks]
          · exact Mirrored.ite (fun _ => .some A) fun _ => .none
          · exact nofun
          · exact nofun

theorem refreshPriority_over (hL : ∀ l, D (.lockWaiters l) = false) (A : Apart D k)
    (t : ThreadPtr) :
    Mirrored D m (refreshPriority cfg fuel k t) (refreshPriority cfg fuel (k.over D m) t) := by
  rw [refreshPriority, refreshPriority, Kernel.modify_over, Kernel.over_lockElems]
  rcases (k.modify t fun th => { th with priority := th.basePriority }).lockElems.next (.head t)
    with - | n
  · exact .none
  · exact refreshLocks_over hL fuel (A.modify _ _)

/-! ### One step -/

/-- The frames that go through the waiters of a lock. -/
def Frame.VisitsWaiters : Frame → Prop
  | lockAcquireBody _ | lockReleaseBody _ | lockReleaseRefresh _ => True
  | _ => False

theorem preemptionCheck_not_ofNice (hm : cfg.mlfqs = false) : ¬ (preemptionCheck cfg).OfNice := by
  rw [preemptionCheck, if_neg (by rw [hm]; nofun)]
  exact nofun

theorem priorityAt_over (n : Node ListPtr ThreadPtr) :
    (k.over D m).priorityAt cfg n = k.priorityAt cfg n := by
  cases n <;> rfl

theorem Apart.linkThread (A : Apart D k) (p : ℤ) (e : Entry) (n r : ℤ) :
    Apart D (linkThread cfg k p e n r) where
  links := A.links
  frames u f hf := by
    obtain rfl | hu := eq_or_ne u k.nextThread
    · simp only [Pintos.linkThread, Function.update_self] at hf
      cases e <;> simp only [Entry.stack, List.mem_cons, List.not_mem_nil, or_false] at hf
      · rw [hf]
        exact nofun
      · obtain rfl | rfl := hf <;> exact nofun
    · simp only [Pintos.linkThread, Function.update_of_ne hu] at hf
      exact A.frames u f hf

/-- **The frames** of the running thread. -/
theorem exec_over (hm : cfg.mlfqs = false) (A : Apart D k) (hD : Spares D) {f : Frame}
    (hf : ¬ f.OfNice) (hL : f.VisitsWaiters → ∀ l, D (.lockWaiters l) = false) :
    Mirrored D m (exec cfg fuel k f) (exec cfg fuel (k.over D m) f) := by
  have hpre : ¬ (preemptionCheck cfg).OfNice := preemptionCheck_not_ofNice hm
  cases f with
  | semaDown p => exact semaDownTest_over hm (A.setLevel false) hD p k.intrOn
  | semaDownWait p old => exact semaDownTest_over hm A hD p old
  | semaTryDown p =>
      obtain ⟨heq, A'⟩ := semaTryDown_over (m := m) A (some k.cur) p
      simp only [exec, Kernel.over_cur, heq]
      exact .some A'
  | semaUp p =>
      exact (semaUpBody_over hm A hD (some k.cur) p).map fun k A => ⟨rfl, A.push hpre⟩
  | lockAcquire l =>
      exact Mirrored.ite (fun _ => .none) fun _ => .some (A.push not_false)
  | lockAcquireBody l =>
      simp only [exec, Kernel.over_lockHolder]
      rcases k.lockHolder l with - | h
      · exact .some ((A.pushes (by simp [Frame.OfNice])).setLevel false)
      · exact (waitForLock_over A (hL trivial l) h).map fun k A =>
          ⟨rfl, A.pushes (by simp [Frame.OfNice])⟩
  | lockAcquireFree l old => exact (takeLock_over A l).map fun k A => ⟨rfl, A.setLevel old⟩
  | lockAcquireHeld l => exact (takeLock_over A l).map fun k A => ⟨rfl, A.modify _ _⟩
  | lockTryAcquire l => exact Mirrored.ite (fun _ => .none) fun _ => .some (A.push not_false)
  | lockTryAcquireDown l =>
      obtain ⟨heq, A'⟩ := semaTryDown_over (m := m) A (some k.cur) (.ofLock l)
      simp only [exec, Kernel.over_cur, heq]
      split
      · exact .some (A'.push not_false)
      · exact .some A'
  | lockTryAcquireHolder l => exact .some (A.congr rfl rfl)
  | lockRelease l => exact Mirrored.ite (fun _ => .some (A.push not_false)) fun _ => .none
  | lockReleaseBody l =>
      exact (releaseLock_over A (hL trivial l)).map fun k A =>
        ⟨rfl, (A.pushes (by simp [Frame.OfNice])).setLevel false⟩
  | lockReleaseRefresh old =>
      refine (refreshPriority_over (hL trivial) A k.cur).map fun k A => ?_
      have hy : yieldNecessary cfg (k.over D m) = yieldNecessary cfg k := by
        rw [yieldNecessary, yieldNecessary, Kernel.over_elems, listFront_overlay hD.readyList]
        rcases k.elems.listFront .readyList with - | n
        · rfl
        · dsimp only
          rw [priorityAt_over]
          rfl
      rw [hy]
      split
      · exact ⟨rfl, A.pushes (by simp [Frame.OfNice])⟩
      · exact ⟨rfl, A.push not_false⟩
  | condWait c l =>
      refine Mirrored.ite (fun _ => ?_) fun _ => .none
      have hi := listInit_overlay (h := k.elems) (m := m) (hD.semaWaiters (.ofWaiter k.nextWaiter))
      have he : publishWaiter (k.over D m) c = (publishWaiter k c).over D m := by
        simp only [publishWaiter, Kernel.over, hi]
      rw [he]
      have A₁ : Apart D (publishWaiter k c) :=
        ⟨A.links.listInit (hD.semaWaiters _), A.frames⟩
      exact .some (A₁.pushes (by simp [Frame.OfNice]))
  | condWaitReturn c w => exact .some A
  | condSignal c l => exact Mirrored.ite (fun _ => .some (A.push not_false)) fun _ => .none
  | condSignalFirst c =>
      simp only [exec, Kernel.over_condWaiters]
      rcases k.condWaiters c with - | ⟨w, es⟩
      · exact .some A
      · exact .some (A.push not_false)
  | condSignalMax c w es =>
      rcases es with - | ⟨e, es⟩
      · exact .some (A.push not_false)
      · have hc : condSemaPriorityCmp cfg (k.over D m) w e = condSemaPriorityCmp cfg k w e := by
          rw [condSemaPriorityCmp, condSemaPriorityCmp, Kernel.over_elems,
            listFront_overlay (hD.semaWaiters _), listFront_overlay (hD.semaWaiters _)]
          simp only [priorityAt_over]
        simp only [exec, hc]
        rcases condSemaPriorityCmp cfg k w e with - | less
        · exact .none
        · exact .some (A.push not_false)
  | condSignalRemove c w =>
      have A₁ : Apart D { k with
          condWaiters := Function.update k.condWaiters c ((k.condWaiters c).erase w) } :=
        ⟨A.links, A.frames⟩
      exact .some (A₁.push not_false)
  | condBroadcast c l =>
      exact Mirrored.ite (fun _ => .some A) fun _ => .some (A.pushes (by simp [Frame.OfNice]))
  | checkPreemption =>
      simp only [exec, Kernel.over_elems, listEmpty_overlay hD.readyList]
      split
      · exact .some A
      · exact .some (A.push not_false)
  | checkPreemptionFront =>
      simp only [exec, Kernel.over_elems, listEmpty_overlay hD.readyList]
      exact Mirrored.ite (fun _ => .none) fun _ => .some (A.push not_false)
  | checkPreemptionRead =>
      have hh : (Node.head .readyList : Node ListPtr ThreadPtr).isOf D = false := hD.readyList
      simp only [exec, Kernel.over_elems, overlay_next hh]
      rcases k.elems.next (.head .readyList) with - | n
      · exact .none
      · exact .some (A.push not_false)
  | checkPreemptionCompare n =>
      simp only [exec, priorityAt_over, Kernel.over_thr, Kernel.over_cur]
      split
      · exact .some (A.push not_false)
      · exact .some A
  | mlfqsCheckPreemption i => exact absurd trivial hf
  | mlfqsCheckPreemptionCompare h => exact absurd trivial hf
  | threadYield => exact yieldCurrent_over hm ((A.push (by exact not_false)).setLevel false) hD
  | intrSetLevel old => exact .some (A.setLevel old)
  | threadBlock => exact blockCurrent_over hm (A.push (by exact not_false)) hD
  | threadBlockReturn => exact .some A
  | threadUnblock t => exact threadUnblock_over hm A hD t
  | threadExit => exact exitCurrent_over hm A hD
  | threadCreate p e =>
      refine Mirrored.ite (fun _ => .some (A.record _)) fun _ => ?_
      exact Mirrored.ite (fun _ => .some (A.push not_false)) fun _ => .none
  | threadCreateLink p e n r =>
      have A₁ : Apart D (linkThread cfg k p e n r) := A.linkThread p e n r
      simp only [exec]
      split
      · have A₂ : Apart D { (linkThread cfg k p e n r).push
            (.threadCreateTid k.nextThread (linkThread cfg k p e n r).nextTid) with
              nextTid := toInt32 ((linkThread cfg k p e n r).nextTid + 1) } :=
          (A₁.push (by exact not_false)).congr rfl rfl
        exact .some A₂
      · exact .some (A₁.pushes (by simp [Frame.OfNice]))
  | allocateTidRead t => exact .some (A.push not_false)
  | allocateTidWrite t n =>
      have A₁ : Apart D { k with nextTid := toInt32 (n + 1) } := ⟨A.links, A.frames⟩
      exact .some (A₁.pushes (by simp [Frame.OfNice]))
  | threadCreateTid t n => exact .some (((A.modify _ _).record _).push not_false)
  | threadCreateUnblock t =>
      exact (threadUnblock_over hm A hD t).map fun k A => ⟨rfl, A.push hpre⟩
  | threadSetPriority p => exact .some ((A.modify _ _).push not_false)
  | threadSetNice n => exact absurd trivial hf
  | threadSetNiceUpdate => exact absurd trivial hf
  | threadSetNiceWrite p => exact absurd trivial hf
  | threadStart => exact .some ((A.push (by exact not_false)).setLevel true)
  | kernelThread => exact .some (A.setLevel true)
  | idle =>
      have A₁ : Apart D { k with idleThread := some k.cur } := ⟨A.links, A.frames⟩
      exact .some (A₁.pushes (by simp [Frame.OfNice]))
  | idleLoop => exact blockCurrent_over hm ((A.push (by exact not_false)).setLevel false) hD
  | idleResume => exact .some ((A.push (by exact not_false)).setLevel true)
  | idleHalt => exact .none
  | timerSleep n =>
      refine Mirrored.ite (fun _ => ?_) fun _ => .none
      split
      · exact .some A
      · exact .some (A.push not_false)
  | timerSleepBody start n =>
      obtain ⟨k₁, hk₁⟩ : ∃ k₁, k₁ = k.modify k.cur fun th =>
        { th with wakeupTick := toInt64 (start + n) } := ⟨_, rfl⟩
      have A₁ : Apart D (insertSleeper k₁ k₁.cur) := hk₁ ▸ ⟨A.links, A.frames⟩
      simp only [exec]
      rw [Kernel.over_cur, Kernel.modify_over, ← hk₁]
      exact blockCurrent_over hm ((A₁.push (by exact not_false)).setLevel false) hD
  | timerSleepReturn old => exact .some (A.setLevel old)

/-! ### The interrupts -/

theorem Apart.popFrame (A : Apart D k) {f : Frame} {fs : List Frame}
    (h : k.stack k.cur = f :: fs) : Apart D (popFrame k fs) where
  links := A.links
  frames u g hg := by
    obtain rfl | hu := eq_or_ne u k.cur
    · simp only [Pintos.popFrame, Function.update_self] at hg
      exact A.frames k.cur g (h ▸ List.mem_cons_of_mem _ hg)
    · simp only [Pintos.popFrame, Function.update_of_ne hu] at hg
      exact A.frames u g hg

theorem endHalt_over (A : Apart D k) :
    endHalt (k.over D m) = (endHalt k).over D m ∧ Apart D (endHalt k) := by
  have hstack : (k.over D m).stack (k.over D m).cur = k.stack k.cur := rfl
  rw [endHalt, endHalt, hstack]
  split
  case h_1 fs h =>
    have hk : { k with stack := Function.update k.stack k.cur (.idleLoop :: fs) } =
        (Pintos.popFrame k fs).push .idleLoop := by
      simp [Pintos.popFrame, Kernel.push]
    refine ⟨rfl, ?_⟩
    rw [hk]
    exact (A.popFrame h).push nofun
  case h_2 => exact ⟨rfl, A⟩

theorem interruptReturn_over (hm : cfg.mlfqs = false) (A : Apart D k) (hD : Spares D) (b : Bool) :
    Mirrored D m (interruptReturn cfg fuel k b) (interruptReturn cfg fuel (k.over D m) b) := by
  rw [interruptReturn, interruptReturn]
  refine Mirrored.ite (fun _ => ?_) fun _ => .some (A.setLevel true)
  rw [Kernel.push_over]
  exact yieldCurrent_over hm (A.push nofun) hD

theorem timerWakeup_over (hm : cfg.mlfqs = false) (hD : Spares D) {now : ℤ} :
    ∀ (ts : List ThreadPtr) {k : Kernel}, Apart D k →
      Mirrored D m (timerWakeup cfg fuel now ts k) (timerWakeup cfg fuel now ts (k.over D m))
  | [], _, A => .some ⟨A.links, A.frames⟩
  | t :: ts, k, A => by
      rw [timerWakeup, timerWakeup, Kernel.over_thr]
      refine Mirrored.ite (fun _ => .some ⟨A.links, A.frames⟩) fun _ => ?_
      exact (threadUnblock_over hm A hD t).bind fun k A => timerWakeup_over hm hD ts A

theorem timerInterrupt_over (hm : cfg.mlfqs = false) (A : Apart D k) (hD : Spares D) :
    Mirrored D m (timerInterrupt cfg fuel k) (timerInterrupt cfg fuel (k.over D m)) := by
  obtain ⟨heq, A₁⟩ := endHalt_over (m := m) A
  have htick : ∀ k : Kernel, threadTick cfg k =
      ({ k with threadTicks := k.threadTicks + 1 }, decide (k.threadTicks + 1 ≥ timeSlice)) := by
    intro k
    have hno : ¬ (cfg.mlfqs = true ∧ k.idleThread ≠ some k.cur) := by
      rw [hm]
      nofun
    rw [threadTick, if_neg hno]
  have hno : ∀ k, timerMlfqs cfg fuel k = some (k, false) := by
    intro k
    rw [timerMlfqs, if_neg (by rw [hm]; nofun)]
  rw [timerInterrupt, timerInterrupt, heq]
  simp only [htick, hno, Option.bind_eq_bind, Option.bind_some]
  have A₂ : Apart D { (endHalt k).setLevel false with
      ticks := (endHalt k).ticks + 1, threadTicks := (endHalt k).threadTicks + 1 } :=
    ⟨A₁.links, A₁.frames⟩
  exact (timerWakeup_over hm hD _ A₂).bind fun k A => interruptReturn_over hm A hD _

theorem semaUpInterrupt_over (hm : cfg.mlfqs = false) (A : Apart D k) (hD : Spares D)
    (p : SemaPtr) :
    Mirrored D m (semaUpInterrupt cfg fuel k p) (semaUpInterrupt cfg fuel (k.over D m) p) := by
  obtain ⟨heq, A₁⟩ := endHalt_over (m := m) A
  rw [semaUpInterrupt, semaUpInterrupt, heq]
  refine (semaUpBody_over hm (A₁.setLevel false) hD none p).bind fun k A => ?_
  have hc : preemptionCheckIntr cfg (k.over D m) = preemptionCheckIntr cfg k := by
    have hmf : ¬ cfg.mlfqs = true := by
      rw [hm]
      nofun
    rw [preemptionCheckIntr, preemptionCheckIntr, if_neg hmf, if_neg hmf, checkPreemptionIntr,
      checkPreemptionIntr, Kernel.over_elems, listEmpty_overlay hD.readyList,
      listFront_overlay hD.readyList]
    simp only [priorityAt_over, Kernel.over_thr, Kernel.over_cur]
  rw [hc]
  rcases preemptionCheckIntr cfg k with - | b
  · exact .none
  · exact interruptReturn_over hm A hD b

theorem semaTryDownInterrupt_over (hm : cfg.mlfqs = false) (A : Apart D k) (hD : Spares D)
    (p : SemaPtr) :
    Mirrored D m (semaTryDownInterrupt cfg fuel k p)
      (semaTryDownInterrupt cfg fuel (k.over D m) p) := by
  obtain ⟨heq, A₁⟩ := endHalt_over (m := m) A
  obtain ⟨heq', A₂⟩ := semaTryDown_over (m := m) (A₁.setLevel false) none p
  rw [semaTryDownInterrupt, semaTryDownInterrupt, heq, Kernel.setLevel_over, heq']
  exact interruptReturn_over hm A₂ hD false

/-- The step does not go through the waiters of a lock. -/
def Label.SkipsWaiters (k : Kernel) (lab : Label) : Prop :=
  lab = .run → ∀ f fs, k.stack k.cur = f :: fs → ¬ f.VisitsWaiters

/-- **One step** does the same whatever the lists `D` are, and leaves them as they are. -/
theorem step_over {lab : Label} (hm : cfg.mlfqs = false) (A : Apart D k) (hD : Spares D)
    (hn : ∀ n, lab ≠ .call (.threadSetNice n))
    (hL : (∀ l, D (.lockWaiters l) = false) ∨ lab.SkipsWaiters k) :
    Mirrored D m (step cfg fuel k lab) (step cfg fuel (k.over D m) lab) := by
  cases lab with
  | call c =>
      have hc : ¬ c.frame.OfNice := by
        cases c with
        | threadSetNice n => exact absurd rfl (hn n)
        | _ => exact nofun
      exact Mirrored.ite (fun _ => .some (A.push hc)) fun _ => .none
  | run =>
      have hstack : (k.over D m).stack (k.over D m).cur = k.stack k.cur := rfl
      rw [step, step, hstack]
      rcases e : k.stack k.cur with - | ⟨f, fs⟩
      · exact .none
      · have hf : ¬ f.OfNice := A.frames k.cur f (e ▸ .head _)
        refine exec_over hm (A.popFrame e) hD hf fun hv => ?_
        exact hL.resolve_right fun hs => hs rfl f fs e hv
  | timer => exact Mirrored.ite (fun _ => timerInterrupt_over hm A hD) fun _ => .none
  | semaUp n => exact Mirrored.ite (fun _ => semaUpInterrupt_over hm A hD _) fun _ => .none
  | semaTryDown n => exact Mirrored.ite (fun _ => semaTryDownInterrupt_over hm A hD _) fun _ => .none

end Pintos
