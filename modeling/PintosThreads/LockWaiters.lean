/-
PintosThreads/LockWaiters.lean

Waiting for a lock, over whole runs.

A thread in the contended branch of `lock_acquire` has written its
`waiting_lock`, stands in `lock->waiters` and sleeps on the semaphore of the
lock.  The results here are about what holds of it from then on: that it never gets
the lock (`contended_lock_kept`), that the field and the list agree
(`lock_waiters_coherent`), and that the holder has at least its priority
(`blocked_below_holder`), along whole chains (`no_priority_inversion`).  The
first one is the price of the shared link: the `lock_release` that is to wake the
waiter does not come to the end of `lock->waiters`.

With the lists of `LocksHeld` this makes the books of the locks agree
(`lock_bookkeeping`), as long as `lock_try_acquire` gets no lock
(`locks_held_missing`).
-/
import PintosThreads.LocksHeld
import PintosThreads.FreeBranch
import PintosThreads.Bookkeeping
import PintosThreads.Waiters
import PintosThreads.Donation

namespace Pintos

open Intrusive

variable {cfg : Config} {fuel : ℕ} {srt : Prop} {ok : Kernel → Label → Prop}
variable {k k' : Kernel} {lab : Label} {t u h : ThreadPtr} {l : LockPtr}
variable {q : ThreadPtr → Option (List LockPtr)}

/-! ### A contended lock -/

/-- **A thread that waits for a lock** goes on waiting, and the lock goes on being held by the
same thread. -/
theorem Good.contended_step (G : Good cfg srt k) (G' : Good cfg srt k') (C : Control k)
    (hT : Tame cfg srt k lab) (hc : k.cur < k.nextThread)
    (hs : Pintos.step cfg fuel k lab = some k') (hw : (k.thr t).waitingLock = some l) :
    (k'.thr t).waitingLock = some l ∧ k'.lockHolder l = k.lockHolder l := by
  have hsync : SyncStep k lab k'.sync := (step_syncStep hc hs).1
  have hst : Sync.Step (fun _ => True) k.cur k.sync k'.sync :=
    (step_sync hc (fun _ _ => trivial) hs).1
  have hmem := (G.waits t l).mp hw
  have hmem' : .lockAcquireHeld l ∈ k'.stack t := (G.held_step C hsync t l).mpr (.inl hmem)
  refine ⟨(G'.waits t l).mpr hmem', ?_⟩
  rcases hst.holder_cases with e | ⟨f, fs, m, e, hf, hh⟩ | ⟨m, fs, -, hh⟩
  · exact congrFun e l
  · -- a lock that is taken has no holder, and so no waiters
    have hne : l ≠ m := by
      rintro rfl
      exact G.held t l hmem ((C.lock l).holder_none C.inv e hf)
    exact (congrFun hh l).trans (Function.update_of_ne hne ..)
  · have hne : l ≠ m := by
      rintro rfl
      have hnone : k'.lockHolder l = none := (congrFun hh l).trans (Function.update_self ..)
      exact G.held_kept C hT hs hsync hst hmem' hnone
    exact (congrFun hh l).trans (Function.update_of_ne hne ..)

/-- The `lock_release` of a lock that somebody waits for does not get past its loop over the
waiters. -/
theorem Good.release_stuck (G : Good cfg srt k) (C : Control k) {fs : List Frame}
    (e : k.stack k.cur = .lockReleaseBody l :: fs)
    (hw : (k.thr t).waitingLock = some l) : Pintos.step cfg fuel k .run = none := by
  rcases hs : Pintos.step cfg fuel k .run with - | k'
  · rfl
  · exfalso
    have hL := G.legal (f := .lockReleaseBody l) C e trivial
    rw [Pintos.step, e] at hs
    obtain ⟨k₁, h₁, -⟩ := Option.map_eq_some_iff.mp hs
    exact ((G.sched.popFrame fs).releaseLock (hL.queued .lockReleaseBody) h₁).1 t hw

/-- **A contended lock is never handed over**: once a thread waits for a lock, in every later state
of the run it still does, the lock has the holder that it had, and a `lock_release` by that holder
fails. -/
theorem contended_lock_kept
    (hT : ∀ k lab, Reachable cfg ok k → ok k lab → Tame cfg srt k lab) (hr : Reachable cfg ok k)
    (hw : (k.thr t).waitingLock = some l) (hrun : Relation.ReflTransGen (Next cfg ok) k k') :
    (k'.thr t).waitingLock = some l ∧ .lockAcquireHeld l ∈ k'.stack t ∧
      (∃ h, k.lockHolder l = some h ∧ k'.lockHolder l = some h) ∧
      ∀ fuel fs, k'.stack k'.cur = .lockReleaseBody l :: fs → step cfg fuel k' .run = none := by
  have hkept : (k'.thr t).waitingLock = some l ∧ k'.lockHolder l = k.lockHolder l := by
    induction hrun with
    | refl => exact ⟨hw, rfl⟩
    | tail hrun hn ih =>
        have hr₁ : Reachable cfg ok _ := Relation.ReflTransGen.trans hr hrun
        have hr₂ : Reachable cfg ok _ := hr₁.tail hn
        obtain ⟨lab, fuel, hok, hs⟩ := hn
        obtain ⟨hw', hh'⟩ := Good.contended_step (hr₁.good hT) (hr₂.good hT) hr₁.control
          (hT _ _ hr₁ hok) hr₁.anySync.2 hs ih.1
        exact ⟨hw', hh'.trans ih.2⟩
  have hr' : Reachable cfg ok k' := Relation.ReflTransGen.trans hr hrun
  have G := hr.good hT
  have G' := hr'.good hT
  refine ⟨hkept.1, (G'.waits t l).mp hkept.1, ?_, fun fuel fs e => ?_⟩
  · obtain ⟨h, hh⟩ := Option.ne_none_iff_exists'.mp (G.held t l ((G.waits t l).mp hw))
    exact ⟨h, hh, hkept.2.trans hh⟩
  · exact G'.release_stuck hr'.control e hkept.1

/-- `Tame`, computed, without regard to the order of the ready queues. -/
def Label.tame (cfg : Config) (k : Kernel) : Label → Bool
  | .run =>
      match k.stack k.cur with
      | .threadUnblock t :: _ =>
          match k.stack t with
          | .threadBlockReturn :: _ => true
          | _ => false
      | .lockAcquireBody l :: _ => k.lockHolder l = none || k.elems.listEmpty (.lockWaiters l)
      | .threadSetPriority p :: _ => !cfg.mlfqs || PriorityOk p
      | _ => true
  | _ => true

theorem Tame.of_check (h : lab.tame cfg k = true) : Tame cfg False k lab := by
  cases lab with
  | run =>
      intro f fs e
      rw [Label.tame, e] at h
      cases f with
      | threadUnblock t =>
          rcases es : k.stack t with - | ⟨g, gs⟩
          · simp [es] at h
          · cases g <;> simp [es] at h
            exact ⟨gs, es⟩
      | lockAcquireBody l =>
          intro x hx
          exact ⟨by simpa [hx] using h, False.elim⟩
      | threadSetPriority p =>
          intro hm
          simpa [hm] using h
      | _ => trivial
  | _ => trivial

/-- Thread 2 waits for a lock of the initial thread, which then calls `lock_release`. -/
theorem contended_lock_kept_release : ∃ k k',
    Reachable priorityConfig (fun k lab => lab.tame priorityConfig k) k ∧
      (k.thr 2).waitingLock = some (.user 0) ∧
      Relation.ReflTransGen (Next priorityConfig fun k lab => lab.tame priorityConfig k) k k' ∧
      k'.stack k'.cur = [.lockReleaseBody (.user 0)] ∧
      ∀ fuel, step priorityConfig fuel k' .run = none := by
  obtain ⟨k, hr, hk⟩ := exists_reachable priorityConfig 70
    (fun k lab => lab.tame priorityConfig k)
    (List.replicate 19 Label.run ++ [Label.call (.lockAcquire 0)] ++ List.replicate 4 Label.run ++
      [Label.call (.threadCreate 40)] ++ List.replicate 10 Label.run ++
      [Label.call (.lockAcquire 0), .run, .run, .run, .run])
    (fun k => (k.thr 2).waitingLock = some (.user 0) &&
      (execute priorityConfig 70 (fun k lab => lab.tame priorityConfig k) k
        [.call (.lockRelease 0), .run]).any fun k' =>
          k'.stack k'.cur = [.lockReleaseBody (.user 0)])
    (by decide +kernel)
  simp only [Bool.and_eq_true, decide_eq_true_eq] at hk
  obtain ⟨hw, hk⟩ := hk
  obtain ⟨k', hx, he⟩ := (Option.any_eq_true _ _).mp hk
  have hrun := execute_steps hx
  have e := of_decide_eq_true he
  have hT : ∀ k lab, Reachable priorityConfig (fun k lab => lab.tame priorityConfig k) k →
      lab.tame priorityConfig k = true → Tame priorityConfig False k lab :=
    fun _ _ _ h => .of_check h
  exact ⟨k, k', hr, hw, hrun, e, fun fuel => (contended_lock_kept hT hr hw hrun).2.2.2 fuel _ e⟩

/-! ### The list of waiters -/

/-- At most one thread waits for a lock. -/
theorem Good.waiter_unique (G : Good cfg srt k) (ht : (k.thr t).waitingLock = some l)
    (hu : (k.thr u).waitingLock = some l) : t = u := by
  obtain ⟨⟨q', home, L, -⟩, -⟩ := G.sched
  exact Node.item.inj (Option.some.inj ((L.waited l t ht).2.symm.trans (L.waited l u hu).2))

/-- Where no `lock_try_acquire` gets its lock, a lock that nobody holds is unclaimed. -/
theorem TriesFail.unclaimed
    (hT : ∀ k lab, Reachable cfg ok k → ok k lab → Tame cfg srt k lab) (hF : TriesFail cfg ok)
    (hr : Reachable cfg ok k) : Unclaimed k lab := by
  cases lab with
  | run =>
      intro m fs e hh u hu
      have hmem : ∃ f ∈ k.stack u, f.TakesLate m := by
        clear e
        generalize k.stack u = gs at hu
        induction hu with
        | here hf => exact ⟨_, .head _, hf⟩
        | level _ ih | yield _ ih =>
            obtain ⟨f, hf, hl⟩ := ih
            exact ⟨f, .tail _ hf, hl⟩
      obtain ⟨f, hf, hl⟩ := hmem
      cases hl with
      | lockTryAcquireHolder => exact hF.noTries hr u _ hf m rfl
      | lockAcquireHeld => exact (hr.good hT).held u m hf hh
  | _ => trivial

/-- A thread that sleeps on the semaphore of a lock waits for the lock. -/
theorem TriesFail.waits (hT : ∀ k lab, Reachable cfg ok k → ok k lab → Tame cfg srt k lab)
    (hF : TriesFail cfg ok) (hr : Reachable cfg ok k) (hw : Waiting k (.ofLock l) u) :
    (k.thr u).waitingLock = some l := by
  have M : Masked k := Reachable.masked (fun _ _ hr _ => hF.unclaimed hT hr) hr
  obtain ⟨old, fs, e⟩ := hw.stack
  have hst : Stacked (.semaDownWait (.ofLock l) old :: fs) :=
    e ▸ (Reachable.control hr).inv.stacked u
  obtain ⟨g, hg, hgt⟩ := hst.1.downs_lock .semaDownWait
  obtain ⟨gs, rfl⟩ : ∃ gs, fs = g :: gs := ⟨_, (List.cons_head?_tail hg).symm⟩
  cases hgt with
  | lockAcquireFree =>
      -- the free branch does not sleep
      exfalso
      obtain ⟨-, -, ha⟩ := M u _ (by rw [e]; exact .tail _ (.head _)) .lockAcquireFree
      rw [e] at ha
      cases ha with | next hf => cases hf
  | lockAcquireHeld =>
      refine ((Reachable.good hT hr).waits u l).mpr ?_
      rw [e]
      exact .tail _ (.head _)
  | lockTryAcquireHolder =>
      exact absurd rfl (hF.noTries hr u _ (by rw [Kernel.sync_stack, e]; exact .tail _ (.head _)) l)

/-- While all who wait for the lock are asleep, they sleep on its semaphore. -/
theorem Good.sleeps (G : Good cfg srt k) (C : Control k)
    (hb : ∀ t, (k.thr t).waitingLock = some l → (k.thr t).status = .blocked)
    (ht : (k.thr t).waitingLock = some l) : Waiting k (.ofLock l) t := by
  obtain ⟨⟨q, home, L, P⟩, -⟩ := G.sched
  -- who waits for the lock is neither running nor ready
  refine (G.waits_cases C ht ?_).resolve_left fun h => ?_
  · rintro rfl
    have hrun := P.cur_running
    rw [hb _ ht] at hrun
    cases hrun
  · have hready := h.1
    rw [hb _ ht] at hready
    cases hready

/-- While all who wait for the lock are asleep, a traversal of `lock->waiters` meets them, and
nobody else. -/
theorem TriesFail.inList_iff
    (hT : ∀ k lab, Reachable cfg ok k → ok k lab → Tame cfg srt k lab) (hF : TriesFail cfg ok)
    (hr : Reachable cfg ok k)
    (hb : ∀ t, (k.thr t).waitingLock = some l → (k.thr t).status = .blocked) (u : ThreadPtr) :
    k.elems.InList (.lockWaiters l) u ↔ (k.thr u).waitingLock = some l := by
  have G := hr.good hT
  have C := hr.control
  obtain ⟨⟨q', home, L, P⟩, -⟩ := G.sched
  refine ⟨fun hin => ?_, fun hu => .single (L.waited l u hu).2⟩
  by_cases hn : ∀ t, (k.thr t).waitingLock ≠ some l
  · have hq := L.locks l hn
    exact absurd ((L.inList hq u).mp hin) (L.home_ne_lockWaiters hq u)
  · obtain ⟨t, ht⟩ : ∃ t, (k.thr t).waitingLock = some l := by
      simpa only [not_forall, not_not] using hn
    have hts : Waiting k (.ofLock l) t := G.sleeps C hb ht
    have hA : ¬ ListPtr.IsReady cfg (.semaWaiters (.ofLock l)) :=
      not_isReady_semaWaiters (.ofLock l)
    obtain ⟨xs, hxs⟩ := L.semas (.ofLock l) (C.waiting hts)
    have hl := L.repr.isList hxs
    have htx : t ∈ xs := (hl.inList).mp ((L.inList hxs t).mpr ((P.waiting_iff hA t).mpr hts))
    have hux : u ∈ xs := by
      obtain ⟨n, h₁, hrest⟩ := Relation.TransGen.head'_iff.mp hin
      rw [(L.waited l t ht).2, Option.some.injEq] at h₁
      exact hl.mem_of_reaches htx (h₁ ▸ hrest)
    exact hF.waits hT hr ((P.waiting_iff hA u).mp ((L.inList hxs u).mp (hl.inList.mpr hux)))

/-- **`waiting_lock` and `lock->waiters` agree**: while all who wait for lock `l` are asleep, what a
traversal of `lock->waiters` meets is what has `l` for its `waiting_lock`, and that is what sleeps on
the semaphore of the lock, into whose list the traversal leads. -/
theorem lock_waiters_coherent
    (hT : ∀ k lab, Reachable cfg ok k → ok k lab → Tame cfg srt k lab) (hF : TriesFail cfg ok)
    (hr : Reachable cfg ok k)
    (hb : ∀ t, (k.thr t).waitingLock = some l → (k.thr t).status = .blocked) :
    (∀ u, k.elems.InList (.lockWaiters l) u ↔ (k.thr u).waitingLock = some l) ∧
      ∀ u, Waiting k (.ofLock l) u ↔ (k.thr u).waitingLock = some l :=
  ⟨hF.inList_iff hT hr hb, fun _ => ⟨hF.waits hT hr, (hr.good hT).sleeps hr.control hb⟩⟩

/-- Thread 2 sleeps in `lock_acquire`, and is the only one in the list. -/
theorem lock_waiters_coherent_asleep : ∃ k ok, Reachable priorityConfig ok k ∧
    (k.thr 2).waitingLock = some (.user 0) ∧
      ∀ u, k.elems.InList (.lockWaiters (.user 0)) u ↔ (k.thr u).waitingLock = some (.user 0) := by
  let ok : Kernel → Label → Prop := fun k lab =>
    (lab.tame priorityConfig k && lab.tryFails k) = true
  obtain ⟨k, hr, hk⟩ := exists_reachable priorityConfig 70 ok
    (List.replicate 19 Label.run ++ [Label.call (.lockAcquire 0)] ++ List.replicate 4 Label.run ++
      [Label.call (.threadCreate 40)] ++ List.replicate 10 Label.run ++
      [Label.call (.lockAcquire 0), .run, .run, .run])
    (fun k => (k.thr 2).waitingLock = some (.user 0) && (k.thr 2).status = .blocked)
    (by decide +kernel)
  simp only [Bool.and_eq_true, decide_eq_true_eq] at hk
  obtain ⟨hw, hb⟩ := hk
  have hT : ∀ k lab, Reachable priorityConfig ok k → ok k lab → Tame priorityConfig False k lab :=
    fun _ _ _ h => .of_check (Bool.and_eq_true_iff.mp h).1
  have hF : TriesFail priorityConfig ok := fun _ _ _ h => .of_check (Bool.and_eq_true_iff.mp h).2
  refine ⟨k, ok, hr, hw, (lock_waiters_coherent hT hF hr fun t ht => ?_).1⟩
  obtain rfl := (Reachable.good hT hr).waiter_unique ht hw
  exact hb

/-! ### The books -/

/-- **The books of the locks**: in every run in which no `lock_try_acquire` gets its lock and no lock
has a second waiter, a lock is in the list `locks_held` of its holder, once, and in no other; while
all who wait for a lock are asleep, they are what is in its list of waiters; and the lock that
`lock_release` unlinks is linked in the list of the thread that calls it. -/
theorem lock_bookkeeping
    (hT : ∀ k lab, Reachable cfg ok k → ok k lab → Tame cfg srt k lab ∧ lab.ExitsClean k)
    (hF : TriesFail cfg ok) (hr : Reachable cfg ok k) :
    (∀ t, k.PageInUse t → ∃ ls, IsList k.lockElems t ls ∧
      ∀ l, ls.count l = if k.lockHolder l = some t then 1 else 0) ∧
    (∀ l t, k.lockHolder l = some t → k.PageInUse t) ∧
    (∀ l, (∀ t, (k.thr t).waitingLock = some l → (k.thr t).status = .blocked) →
      ∀ t, k.elems.InList (.lockWaiters l) t ↔ (k.thr t).waitingLock = some l) ∧
    ∀ l fs, k.stack k.cur = .lockReleaseBody l :: fs →
      ∃ ls, IsList k.lockElems k.cur ls ∧ l ∈ ls ∧ ∃ e,
        k.lockElems.listRemove (.item l) = some e ∧ IsList e k.cur (ls.erase l) := by
  obtain ⟨q, H⟩ := hF.heldLocks hr
  have hT₀ : ∀ k lab, Reachable cfg ok k → ok k lab → Tame cfg srt k lab :=
    fun k lab hr h => (hT k lab hr h).1
  have hA : HoldersAlive k := Reachable.holdersAlive hT₀ (fun k lab hr h => (hT k lab hr h).2) hr
  refine ⟨fun t ht => H.count ht.1, fun l t hl => ⟨H.live l t hl, fun hd => ?_⟩,
    fun l hb => hF.inList_iff hT₀ hr hb, fun l fs e => ?_⟩
  · exact absurd hd (hA l t hl)
  · exact H.unlinks ((Reachable.control hr).releases e)

/-- The initial thread holds two locks, and thread 2 sleeps in `lock_acquire` for the first of
them. -/
theorem lock_bookkeeping_waiter : ∃ k ok, Reachable tidConfig ok k ∧ k.stack k.cur = [] ∧
    k.lockHolder (.user 0) = some 0 ∧ k.lockHolder (.user 1) = some 0 ∧
      (k.thr 2).waitingLock = some (.user 0) ∧
      (∃ ls, IsList k.lockElems 0 ls ∧ ls.count (.user 0) = 1 ∧ ls.count (.user 1) = 1) ∧
      ∀ u, k.elems.InList (.lockWaiters (.user 0)) u ↔ (k.thr u).waitingLock = some (.user 0) := by
  let ok : Kernel → Label → Prop := fun k lab =>
    (lab.tame tidConfig k && (lab.tryFails k && lab.exitsClean k)) = true
  obtain ⟨k, hr, hk⟩ := exists_reachable tidConfig 70 ok
    (List.replicate 31 Label.run ++ [Label.call (.lockAcquire 0)] ++ List.replicate 4 Label.run ++
      [Label.call (.lockAcquire 1)] ++ List.replicate 4 Label.run ++
      [Label.call (.threadCreate 40)] ++ List.replicate 22 Label.run ++
      [Label.call (.lockAcquire 0), .run, .run, .run, .run])
    (fun k => k.stack k.cur = [] ∧ k.lockHolder (.user 0) = some 0 ∧
      k.lockHolder (.user 1) = some 0 ∧ (k.thr 2).waitingLock = some (.user 0) ∧
      (k.thr 2).status = .blocked) (by decide +kernel)
  obtain ⟨hs, h₀, h₁, hw, hb⟩ := of_decide_eq_true hk
  have hand : ∀ {k lab}, ok k lab → lab.tame tidConfig k = true ∧
      lab.tryFails k = true ∧ lab.exitsClean k = true := by
    intro k lab h
    obtain ⟨ht, h⟩ := Bool.and_eq_true_iff.mp h
    exact ⟨ht, Bool.and_eq_true_iff.mp h⟩
  have hF : TriesFail tidConfig ok := fun _ _ _ h => .of_check (hand h).2.1
  have hT : ∀ k lab, Reachable tidConfig ok k → ok k lab →
      Tame tidConfig False k lab ∧ lab.ExitsClean k := by
    intro k lab hr h
    obtain ⟨q, H⟩ := hF.heldLocks hr
    exact ⟨.of_check (hand h).1, H.exitsClean hr.anySync.2 (hand h).2.2⟩
  obtain ⟨hcount, hlive, hlist, -⟩ := lock_bookkeeping hT hF hr
  obtain ⟨ls, hl, hc⟩ := hcount 0 (hlive _ _ h₀)
  refine ⟨k, ok, hr, hs, h₀, h₁, hw, ⟨ls, hl, ?_, ?_⟩, hlist _ fun t ht => ?_⟩
  · rw [hc, if_pos h₀]
  · rw [hc, if_pos h₁]
  · obtain rfl := (Reachable.good (fun k lab hr h => (hT k lab hr h).1) hr).waiter_unique ht hw
    exact hb

/-- The initial thread has acquired a lock by `lock_try_acquire`: it is the holder, and its list
is empty. -/
theorem locks_held_missing : ∃ k, Reachable priorityConfig (fun _ _ => True) k ∧
    k.stack k.cur = [] ∧ k.lockHolder (.user 0) = some k.cur ∧ IsList k.lockElems k.cur [] := by
  obtain ⟨k, hr, hk⟩ := exists_reachable priorityConfig 70 (fun _ _ => True)
    (List.replicate 19 Label.run ++ [Label.call (.lockTryAcquire 0), .run, .run, .run])
    (fun k => k.stack k.cur = [] && (k.lockHolder (.user 0) = some k.cur &&
      (k.lockElems.next (.head k.cur) = some (.tail k.cur) &&
      (k.lockElems.prev (.tail k.cur) = some (.head k.cur) &&
      (k.lockElems.prev (.head k.cur) = none && k.lockElems.next (.tail k.cur) = none)))))
    (by decide +kernel)
  simp only [Bool.and_eq_true, decide_eq_true_eq] at hk
  obtain ⟨hs, hh, hn, hp, hp', hn'⟩ := hk
  exact ⟨k, hr, hs, hh, ⟨hn, hp⟩, hp', hn', List.nodup_nil⟩

/-! ### Priority inversion -/

/-- What a step does to the priorities, without the MLFQS. -/
inductive PriorityEffect (k : Kernel) (lab : Label) (k' : Kernel) : Prop
  | same : (∀ u, u ≠ k.nextThread → (k'.thr u).priority = (k.thr u).priority) →
      (∀ l fs, lab = .run → k.stack k.cur = .lockAcquireBody l :: fs → k.lockHolder l = none) →
      PriorityEffect k lab k'
  | write {f : Frame} {fs : List Frame} {p : ℤ} : lab = .run → k.stack k.cur = f :: fs →
      f.SetsPriority (k.thr k.cur) p →
      (∀ u, (k'.thr u).priority = if u = k.cur then p else (k.thr u).priority) →
      PriorityEffect k lab k'
  | contend {l : LockPtr} {h : ThreadPtr} {fs : List Frame} {k₁ : Kernel} : lab = .run →
      k.stack k.cur = .lockAcquireBody l :: fs → k.lockHolder l = some h →
      Contends (popFrame k fs) k₁ l h → (∀ u, (k'.thr u).priority = (k₁.thr u).priority) →
      PriorityEffect k lab k'

theorem WakesWaiter.priority {p : SemaPtr} (hm : cfg.mlfqs = false) (h : WakesWaiter cfg p k k')
    (u : ThreadPtr) : (k'.thr u).priority = (k.thr u).priority := by
  obtain ⟨rfl, -⟩ | ⟨t, -, hw⟩ := h
  · rfl
  · exact hw.priority hm u

/-- A frame that is no contended `lock_acquire`, and writes no priority. -/
theorem PriorityEffect.of_run {f : Frame} {fs : List Frame} (e : k.stack k.cur = f :: fs)
    (hf : ∀ l, ¬ Contended k f l)
    (hp : ∀ u, u ≠ k.nextThread → (k'.thr u).priority = (k.thr u).priority) :
    PriorityEffect k .run k' := by
  refine .same hp fun l gs _ e' => ?_
  obtain ⟨rfl, -⟩ := List.cons.inj (e.symm.trans e')
  exact not_not.mp fun hn => hf l ⟨rfl, hn⟩

theorem PriorityEffect.of_ne_run (hl : lab ≠ .run)
    (hp : ∀ u, (k'.thr u).priority = (k.thr u).priority) : PriorityEffect k lab k' :=
  .same (fun u _ => hp u) fun _ _ h => absurd h hl

/-- **The priorities after a step** without the MLFQS: written by the running thread, raised by its
donation, or the same. -/
theorem StepEffect.priorities (hm : cfg.mlfqs = false) (h : StepEffect cfg srt k lab k') :
    PriorityEffect k lab k' := by
  cases h with
  | call => exact .of_ne_run (by rintro ⟨⟩) fun _ => rfl
  | @run f fs _ e he =>
      cases he with
      | same ha hs => exact .of_run e (fun l hl => ha hl.acts) fun u _ => hs.priority u
      | @priority _ p _ _ hp hs =>
          refine .write rfl e hp fun u => (hs.priority u).trans ?_
          show (Function.update k.thr k.cur _ u).priority = _
          obtain rfl | hu := eq_or_ne u k.cur <;> simp [*]
      | switch hp _ hs hsw =>
          -- to block, to yield and to exit write no priority
          refine .of_run e ?_ fun u _ => (hsw.priority u).trans (hs.priority u)
          rintro l ⟨rfl, -⟩
          cases hp with | wait hd => cases hd
      | wake hu hw hs =>
          refine .of_run e ?_ fun u _ => (hs.priority u).trans (hw.priority hm u)
          rintro l ⟨rfl, -⟩
          cases hu
      | up hw hs =>
          refine .of_run e ?_ fun u _ => (hs.priority u).trans (hw.priority hm u)
          rintro l ⟨⟨⟩, -⟩
      | contend hh hc hs => exact .contend rfl e hh hc hs.priority
      | link hs =>
          refine .of_run e (by rintro l ⟨⟨⟩, -⟩) fun u hu => (hs.priority u).trans ?_
          show (Function.update k.thr k.nextThread _ u).priority = _
          rw [Function.update_of_ne hu]
      | idle hs => exact .of_run e (by rintro l ⟨⟨⟩, -⟩) fun u _ => hs.priority u
  | timer hw hr =>
      refine .of_ne_run (by rintro ⟨⟩) fun u => (hr.priority u).trans ((hw.priority hm u).trans ?_)
      rw [endHalt_thr]
  | semaUp hw hr =>
      refine .of_ne_run (by rintro ⟨⟩) fun u => (hr.priority u).trans ((hw.priority hm u).trans ?_)
      show ((endHalt k).thr u).priority = _
      rw [endHalt_thr]
  | @semaTryDown n =>
      have hc : Calm cfg ((endHalt k).setLevel false)
        (Pintos.semaTryDown ((endHalt k).setLevel false) none (.user n)).1 [] :=
          semaTryDown_calm _ none _
      refine .of_ne_run (by rintro ⟨⟩) fun u => (hc.priority u).trans ?_
      show ((endHalt k).thr u).priority = _
      rw [endHalt_thr]

/-- The holder of a lock has at least the priority of each thread that waits for the lock. -/
def HoldersAbove (k : Kernel) : Prop :=
  ∀ t l h, (k.thr t).waitingLock = some l → k.lockHolder l = some h →
    (k.thr t).priority ≤ (k.thr h).priority

/-- The running thread does not put itself below a thread that waits for one of its locks. -/
def Label.StaysAbove (k : Kernel) : Label → Prop
  | .run => ∀ p fs, k.stack k.cur = .threadSetPriority p :: fs ∨
      k.stack k.cur = .threadSetNiceWrite p :: fs →
    ∀ t l, (k.thr t).waitingLock = some l → k.lockHolder l = some k.cur → (k.thr t).priority ≤ p
  | _ => True

/-- After a `refresh_priority` nobody waits for the locks of the running thread. -/
theorem Good.refreshed (G : Good cfg srt k) (C : Control k) (H : HeldLocks k q) {old : Bool}
    {fs : List Frame} (e : k.stack k.cur = .lockReleaseRefresh old :: fs)
    (hs : Pintos.step cfg fuel k .run = some k') (hl : k.lockHolder l = some k.cur) :
    (k.thr t).waitingLock ≠ some l := by
  have hL := G.legal (f := .lockReleaseRefresh old) C e trivial
  rw [Pintos.step, e] at hs
  obtain ⟨k₁, h₁, -⟩ := Option.map_eq_some_iff.mp hs
  obtain ⟨⟨q', home, L, P⟩, -⟩ := G.sched.popFrame fs
  obtain ⟨xs, ys, hq⟩ := H.split hl
  exact (L.refreshPriority (fun m u hu => P.inQueue L (hL.queued .lockReleaseRefresh m u hu)) h₁).2
    _ (H.repr.isList hq) l (by simp) t

/-- A thread that waits for a lock does not write its priority. -/
theorem Good.waiter_ne_writer (G : Good cfg srt k) (C : Control k) {f : Frame} {fs : List Frame}
    {p : ℤ} (e : k.stack k.cur = f :: fs) (hf : f.SetsPriority (k.thr k.cur) p)
    (hw : (k.thr t).waitingLock = some l) : t ≠ k.cur := by
  rintro rfl
  have hmem := (G.waits k.cur l).mp hw
  have hs : Stacked (k.stack k.cur) := C.inv.stacked k.cur
  rw [e] at hmem hs
  rcases List.mem_cons.mp hmem with rfl | hmem
  · cases hf
  · rcases hs.of_held_mem hmem with hd | rfl | ⟨old, rfl⟩
    · cases hd <;> cases hf
    · cases hf
    · cases hf

/-- **Every step** keeps the holders above. -/
theorem HoldersAbove.step (V : HoldersAbove k) (hm : cfg.mlfqs = false) (G : Good cfg srt k)
    (C : Control k) (C' : Control k') (H : HeldLocks k q) (hc : k.cur < k.nextThread)
    (hT : Tame cfg srt k lab) (hA : lab.StaysAbove k)
    (hs : Pintos.step cfg fuel k lab = some k') : HoldersAbove k' := by
  obtain ⟨he, G'⟩ := G.step C C' hc hT hs
  have hsync : SyncStep k lab k'.sync := (step_syncStep hc hs).1
  intro t l h hw hh
  have hmem' : .lockAcquireHeld l ∈ k'.stack t := (G'.waits t l).mp hw
  rcases (G.held_step C hsync t l).mp hmem' with hmem | ⟨rfl, rfl, f, fs, e, rfl, hne⟩
  · -- the thread has waited before, for the same holder
    have hw₀ := (G.waits t l).mpr hmem
    have hh₀ : k.lockHolder l = some h :=
      (G.contended_step G' C hT hc hs hw₀).2.symm.trans hh
    have hle := V t l h hw₀ hh₀
    have htn : t ≠ k.nextThread := by
      rintro rfl
      have hu : k.stack k.nextThread = [] := C.inv.unborn k.nextThread le_rfl
      rw [hu] at hmem
      cases hmem
    have hhn : h ≠ k.nextThread := (H.live l h hh₀).ne
    cases he.priorities hm with
    | same hp => rwa [hp t htn, hp h hhn]
    | @write f fs p hl e hf hp =>
        subst hl
        rw [hp t, if_neg (G.waiter_ne_writer C e hf hw₀), hp h]
        split
        case isFalse => exact hle
        case isTrue hcur =>
          -- the holder writes its own priority
          subst hcur
          cases hf with
          | threadSetPriority => exact hA p fs (.inl e) t l hw₀ hh₀
          | threadSetNiceWrite => exact hA p fs (.inr e) t l hw₀ hh₀
          | lockReleaseRefresh => exact absurd hw₀ (G.refreshed C H e hs hh₀)
    | contend _ _ _ hcon hp =>
        rw [hp t, hp h]
        rcases hcon.priority_cases t with ⟨hr, ht⟩ | ⟨-, ht⟩
        · -- where the donation has come to the waiter it goes on to the holder
          rw [ht]
          by_cases hlt : (k.thr h).priority < (k.thr k.cur).priority
          · have hrh := hr.extend (v := h) (by
              show (k.thr t).waitingLock.bind k.lockHolder = some h
              rwa [hw₀]) hlt
            rcases hcon.priority_cases h with ⟨-, e⟩ | ⟨hn, -⟩
            · exact e.ge
            · exact absurd hrh hn
          · exact (not_lt.mp hlt).trans (hcon.priority_le h)
        · rw [ht]
          exact hle.trans (hcon.priority_le h)
  · -- the running thread begins to wait, and donates
    cases he.priorities hm with
    | same _ hn => exact absurd (hn l fs rfl e) hne
    | write _ e' hf =>
        obtain ⟨rfl, -⟩ := List.cons.inj (e.symm.trans e')
        cases hf
    | contend _ e' hh' hcon hp =>
        obtain ⟨hf, rfl⟩ := List.cons.inj (e.symm.trans e')
        cases hf
        -- `lock_acquire` writes the holder later only
        have hkeep : k'.lockHolder = k.lockHolder := by
          have hst : Sync.Step (fun _ => True) k.cur k.sync k'.sync :=
            (step_sync hc (fun _ _ => trivial) hs).1
          rcases hst.holder_cases with e₁ | ⟨f, gs, m, e₁, hf, -⟩ | ⟨m, gs, e₁, -⟩
          · exact e₁
          · obtain ⟨rfl, -⟩ := List.cons.inj (e.symm.trans e₁)
            cases hf
          · obtain ⟨⟨⟩, -⟩ := List.cons.inj (e.symm.trans e₁)
        rw [hkeep] at hh
        obtain rfl : h = _ := Option.some.inj (hh.symm.trans hh')
        rw [hp k.cur, hp h]
        rcases hcon.priority_cases k.cur with ⟨hr, -⟩ | ⟨-, hcur⟩
        · exact absurd hr.lt (lt_irrefl _)
        · rw [hcur]
          rcases hcon.priority_cases h with ⟨-, e₁⟩ | ⟨hn, e₁⟩
          · exact e₁.ge
          · rw [e₁]
            exact not_lt.mp fun hlt => hn (.here hlt)

theorem boot_holdersAbove (cfg : Config) : HoldersAbove (boot cfg) := by
  rintro t l h - ⟨⟩

/-- The runs without the MLFQS in which no `lock_try_acquire` gets its lock and nobody puts itself
below a thread that waits for it. -/
theorem Reachable.holdersAbove (hm : cfg.mlfqs = false)
    (hT : ∀ k lab, Reachable cfg ok k → ok k lab → Tame cfg srt k lab) (hF : TriesFail cfg ok)
    (hA : ∀ k lab, Reachable cfg ok k → ok k lab → lab.StaysAbove k) (hr : Reachable cfg ok k) :
    HoldersAbove k := by
  induction hr with
  | refl => exact boot_holdersAbove cfg
  | tail hr hn ih =>
      have hr' : Reachable cfg ok _ := hr.tail hn
      obtain ⟨lab, fuel, hok, hs⟩ := hn
      obtain ⟨q, H⟩ := hF.heldLocks hr
      exact ih.step hm (Reachable.good hT hr) (Reachable.control hr) hr'.control H
        (Reachable.anySync hr).2 (hT _ _ hr hok) (hA _ _ hr hok) hs

/-- Along a chain of holders the priorities do not decrease. -/
theorem HoldersAbove.chain (V : HoldersAbove k)
    (hth : Relation.TransGen (fun u v => waitsFor k u = some v) t h) :
    (k.thr t).priority ≤ (k.thr h).priority := by
  have hone : ∀ u v, waitsFor k u = some v → (k.thr u).priority ≤ (k.thr v).priority := by
    intro u v huv
    obtain ⟨l, hw, hl⟩ := Option.bind_eq_some_iff.mp huv
    exact V u l v hw hl
  induction hth with
  | single huv => exact hone _ _ huv
  | tail _ huv ih => exact ih.trans (hone _ _ huv)

/-- `Label.StaysAbove`, computed. -/
def Label.staysAbove (k : Kernel) : Label → Bool
  | .run =>
      match k.stack k.cur with
      | .threadSetPriority p :: _ | .threadSetNiceWrite p :: _ =>
          (List.range k.nextThread).all fun t =>
            waitsFor k t = some k.cur → (k.thr t).priority ≤ p
      | _ => true
  | _ => true

theorem Good.staysAbove (G : Good cfg srt k) (C : Control k) (h : lab.staysAbove k = true) :
    lab.StaysAbove k := by
  cases lab with
  | run =>
      intro p fs e t l hw hl
      have hlt : t < k.nextThread :=
        C.inv.unborn.lt (List.ne_nil_of_mem ((G.waits t l).mp hw))
      have hall : ∀ t < k.nextThread, ¬ waitsFor k t = some k.cur ∨ (k.thr t).priority ≤ p := by
        rcases e with e | e <;> simpa [Label.staysAbove, e] using h
      refine (hall t hlt).resolve_left fun hn => hn ?_
      rw [waitsFor, hw, Option.bind_some, hl]
  | _ => trivial

/-- **A thread that is blocked in `lock_acquire`** has at most the priority of the holder of the
lock, without the MLFQS, and priorities do not decrease along the chain that begins with it.  In the
runs that this holds for no thread puts itself below one that waits for it. -/
theorem blocked_below_holder (hm : cfg.mlfqs = false)
    (hT : ∀ k lab, Reachable cfg ok k → ok k lab → Tame cfg srt k lab) (hF : TriesFail cfg ok)
    (hA : ∀ k lab, Reachable cfg ok k → ok k lab → lab.StaysAbove k) (hr : Reachable cfg ok k)
    (hw : Waiting k (.ofLock l) t) :
    (k.thr t).waitingLock = some l ∧
      (∀ h, k.lockHolder l = some h → (k.thr t).priority ≤ (k.thr h).priority) ∧
      ∀ u v, Relation.ReflTransGen (fun u v => waitsFor k u = some v) t u →
        waitsFor k u = some v → (k.thr u).priority ≤ (k.thr v).priority := by
  have hl : (k.thr t).waitingLock = some l := hF.waits hT hr hw
  have V : HoldersAbove k := hr.holdersAbove hm hT hF hA
  exact ⟨hl, fun h hh => V t l h hl hh, fun u v _ huv => V.chain (.single huv)⟩

/-- Thread 2 is blocked in `lock_acquire`, with priority 40, and the holder of the lock has set its
own priority to 45. -/
theorem blocked_below_holder_set : ∃ k ok, Reachable tidConfig ok k ∧
    Waiting k (.ofLock (.user 0)) 2 ∧ k.lockHolder (.user 0) = some 0 ∧
      (k.thr 2).priority = 40 ∧ (k.thr 0).priority = 45 ∧
      (k.thr 2).priority ≤ (k.thr 0).priority := by
  let ok : Kernel → Label → Prop := fun k lab =>
    (lab.tame tidConfig k && (lab.tryFails k && lab.staysAbove k)) = true
  obtain ⟨k, hr, hk⟩ := exists_reachable tidConfig 70 ok
    (List.replicate 31 Label.run ++ [Label.call (.lockAcquire 0)] ++ List.replicate 4 Label.run ++
      [Label.call (.threadCreate 40)] ++ List.replicate 22 Label.run ++
      [Label.call (.lockAcquire 0), .run, .run, .run, .run, .call (.threadSetPriority 45), .run])
    (fun k => Waiting k (.ofLock (.user 0)) 2 ∧ k.lockHolder (.user 0) = some 0 ∧
      (k.thr 2).priority = 40 ∧ (k.thr 0).priority = 45) (by decide +kernel)
  obtain ⟨hw, hl, h₂, h₀⟩ := of_decide_eq_true hk
  have hand : ∀ {k lab}, ok k lab → lab.tame tidConfig k = true ∧
      lab.tryFails k = true ∧ lab.staysAbove k = true := by
    intro k lab h
    obtain ⟨ht, h⟩ := Bool.and_eq_true_iff.mp h
    exact ⟨ht, Bool.and_eq_true_iff.mp h⟩
  have hT : ∀ k lab, Reachable tidConfig ok k → ok k lab → Tame tidConfig False k lab :=
    fun _ _ _ h => .of_check (hand h).1
  have hF : TriesFail tidConfig ok := fun _ _ _ h => .of_check (hand h).2.1
  refine ⟨k, ok, hr, hw, hl, h₂, h₀, ?_⟩
  exact (blocked_below_holder rfl hT hF
    (fun _ _ hr h => (Reachable.good hT hr).staysAbove hr.control (hand h).2.2) hr hw).2.1 0 hl

/-- The same run, but the holder sets its priority to 20, below that of the thread that waits for
it. -/
theorem blocked_above_holder : ∃ k, Reachable tidConfig (fun _ _ => True) k ∧
    k.stack k.cur = [] ∧ Waiting k (.ofLock (.user 0)) 2 ∧ k.lockHolder (.user 0) = some 0 ∧
      ¬ (k.thr 2).priority ≤ (k.thr 0).priority := by
  obtain ⟨k, hr, hk⟩ := exists_reachable tidConfig 70 (fun _ _ => True)
    (List.replicate 31 Label.run ++ [Label.call (.lockAcquire 0)] ++ List.replicate 4 Label.run ++
      [Label.call (.threadCreate 40)] ++ List.replicate 22 Label.run ++
      [Label.call (.lockAcquire 0), .run, .run, .run, .run, .call (.threadSetPriority 20), .run,
        .run])
    (fun k => k.stack k.cur = [] ∧ Waiting k (.ofLock (.user 0)) 2 ∧
      k.lockHolder (.user 0) = some 0 ∧ ¬ (k.thr 2).priority ≤ (k.thr 0).priority)
    (by decide +kernel)
  exact ⟨k, hr, of_decide_eq_true hk⟩

end Pintos
