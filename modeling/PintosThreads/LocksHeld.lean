/-
PintosThreads/LocksHeld.lean

The lists `locks_held`, and the field `holder` of the locks.

`lock_acquire` writes both in one step, and so does `lock_release`; the list of
a new thread is initialised with its page.  The link of a lock is therefore in
the list of the thread that holds it, once, and in no list while the lock is
free (`HeldLocks`), and the `list_remove` of `lock_release` takes it out of the
list that it is in (`locks_held_coherent`).  This is so as long as nobody exits
with a lock (`Label.ExitsClean`): nothing takes the holder out of `holder`, and its
page may become that of another thread, with an empty list.

The third operation is different.  `lock_try_acquire` writes the holder only,
and the `lock_release` that follows unlinks a lock that has not been linked
(`locks_held_missing` in `LockWaiters`).  The lists themselves are independent of
the scheduler and of what becomes of the other lists.
-/
import PintosThreads.ThreadPages
import PintosThreads.Turns

namespace Pintos

open Intrusive

variable {cfg : Config} {fuel : ℕ} {ok : Kernel → Label → Prop} {okCall : Call → Prop}
variable {k k' : Kernel} {lab : Label} {s s' : Sync} {t u : ThreadPtr} {l : LockPtr} {p : SemaPtr}

/-! ### The frames that write the lists -/

/-- What frame `f` of the running thread makes of the lists `locks_held`. -/
inductive LockLinks (k : Kernel) : Frame → Links ThreadPtr LockPtr → Prop
  | same {f} : ¬ f.MovesLocks → LockLinks k f k.lockElems
  | take {f l e} : f.Takes l → f.MovesLocks → k.lockElems.listPushBack k.cur (.item l) = some e →
      LockLinks k f e
  | release {l e} : k.lockElems.listRemove (.item l) = some e → LockLinks k (.lockReleaseBody l) e
  | create {p e n r} :
      LockLinks k (.threadCreateLink p e n r) (k.lockElems.listInit k.nextThread)

theorem takeLock_lockLinks {f : Frame} (hf : f.Takes l) (hm : f.MovesLocks)
    (h : takeLock k l = some k') : LockLinks k f k'.lockElems := by
  obtain ⟨e, he, rfl⟩ := Option.map_eq_some_iff.mp h
  exact .take hf hm he

/-- **Every frame** but four leaves the lists alone. -/
theorem exec_lockLinks {f : Frame} (h : exec cfg fuel k f = some k') :
    LockLinks k f k'.lockElems := by
  by_cases hf : f.MovesLocks
  · cases f with
    | lockAcquireFree l old =>
        obtain ⟨k₁, h₁, rfl⟩ := Option.map_eq_some_iff.mp h
        have ht : LockLinks k (.lockAcquireFree l old) k₁.lockElems :=
          takeLock_lockLinks .lockAcquireFree trivial h₁
        exact ht
    | lockAcquireHeld l =>
        obtain ⟨k₁, h₁, rfl⟩ := Option.map_eq_some_iff.mp h
        have ht : LockLinks k (.lockAcquireHeld l) k₁.lockElems :=
          takeLock_lockLinks .lockAcquireHeld trivial h₁
        exact ht
    | lockReleaseBody l =>
        obtain ⟨k₁, h₁, rfl⟩ := Option.map_eq_some_iff.mp h
        obtain ⟨le, hle, h₁⟩ := Option.bind_eq_some_iff.mp h₁
        obtain ⟨n, -, h₁⟩ := Option.bind_eq_some_iff.mp h₁
        obtain ⟨e, -, h₁⟩ := Option.bind_eq_some_iff.mp h₁
        cases h₁
        exact .release hle
    | threadCreateLink p e n r =>
        simp only [exec] at h
        cases h
        split <;> exact .create
    | _ => exact absurd hf id
  · obtain ⟨n, -, ht⟩ := exec_turns hf h
    rw [ht.lockElems]
    exact .same hf

/-! ### What becomes of the holders -/

/-- What frame `f` of thread `t` makes of the holders, and of the number of threads. -/
inductive HolderMove (t : ThreadPtr) (s : Sync) : Frame → Sync → Prop
  | same {f : Frame} {s' : Sync} : ¬ f.MovesLocks → (∀ l, ¬ f.Takes l) → s'.holder = s.holder →
      s'.nextThread = s.nextThread → HolderMove t s f s'
  | take {f : Frame} {l : LockPtr} {s' : Sync} : f.Takes l →
      s'.holder = Function.update s.holder l (some t) →
      s'.nextThread = s.nextThread → HolderMove t s f s'
  | release {l : LockPtr} {s' : Sync} : s'.holder = Function.update s.holder l none →
      s'.nextThread = s.nextThread → HolderMove t s (.lockReleaseBody l) s'
  | create {p e n r} {s' : Sync} : s'.holder = s.holder → s'.nextThread = s.nextThread + 1 →
      HolderMove t s (.threadCreateLink p e n r) s'

theorem Frame.Takes.unique {f : Frame} {m : LockPtr} (h : f.Takes l) (h' : f.Takes m) : l = m := by
  cases h <;> cases h' <;> rfl

theorem Local.not_movesLocks {f : Frame} {gs : List Frame} (h : Local f gs) :
    ¬ f.MovesLocks ∧ ∀ l, ¬ f.Takes l := by
  cases h with
  | preempt hc | preemptEnd hc =>
      obtain ⟨hp, -⟩ := hc
      cases hp <;> exact ⟨id, by rintro l ⟨⟩⟩
  | _ => exact ⟨id, by rintro l ⟨⟩⟩

theorem Move.holderMove {f : Frame} {gs : List Frame} (h : Move t s f gs s') :
    HolderMove t s f s' := by
  cases h with
  | quiet hl =>
      obtain ⟨hm, ht⟩ := hl.not_movesLocks
      exact .same hm ht rfl rfl
  | down hd | wait hd => cases hd <;> exact .same id (by rintro l ⟨⟩) rfl rfl
  | take hf => exact .take hf rfl rfl
  | lockReleaseBody => exact .release rfl rfl
  | createAtomic | create => exact .create rfl rfl
  | _ => exact .same id (by rintro l ⟨⟩) rfl rfl

/-! ### What the lists hold -/

/-- The lists `q` are those of the created threads, and hold what the holders say. -/
structure HeldLocks (k : Kernel) (q : ThreadPtr → Option (List LockPtr)) : Prop where
  repr : Repr k.lockElems q
  created : ∀ t, t < k.nextThread → ∃ ls, q t = some ls
  holder : ∀ t ls, q t = some ls → ∀ l, l ∈ ls ↔ k.lockHolder l = some t
  live : ∀ l t, k.lockHolder l = some t → t < k.nextThread

variable {q : ThreadPtr → Option (List LockPtr)}

theorem HeldLocks.congr (H : HeldLocks k q) (he : k'.lockElems = k.lockElems)
    (hh : k'.lockHolder = k.lockHolder) (hn : k'.nextThread = k.nextThread) : HeldLocks k' q where
  repr := he ▸ H.repr
  created := hn ▸ H.created
  holder := hh ▸ H.holder
  live := by
    rw [hh, hn]
    exact H.live

/-- A free lock is in no list. -/
theorem HeldLocks.unlinked (H : HeldLocks k q) (hl : k.lockHolder l = none) : Unlinked q l := by
  intro t ls hq hm
  rw [(H.holder t ls hq l).mp hm] at hl
  cases hl

/-- The lock that a thread holds is in its list. -/
theorem HeldLocks.split (H : HeldLocks k q) (hl : k.lockHolder l = some t) :
    ∃ xs ys, q t = some (xs ++ l :: ys) := by
  obtain ⟨ls, hq⟩ := H.created t (H.live l t hl)
  obtain ⟨xs, ys, rfl⟩ := List.append_of_mem ((H.holder t ls hq l).mpr hl)
  exact ⟨xs, ys, hq⟩

/-- The threads have lists when that of thread `t` has been changed. -/
theorem HeldLocks.created_update (H : HeldLocks k q) (hn : k'.nextThread = k.nextThread)
    (t : ThreadPtr) (ls : List LockPtr) :
    ∀ u < k'.nextThread, ∃ ms, Function.update q t (some ls) u = some ms := by
  intro u hu
  obtain rfl | hut := eq_or_ne u t
  · exact ⟨ls, Function.update_self ..⟩
  · rw [Function.update_of_ne hut]
    exact H.created u (hn ▸ hu)

/-- **A lock is taken.** -/
theorem HeldLocks.take {e : Links ThreadPtr LockPtr} (H : HeldLocks k q) (ht : t < k.nextThread)
    (hl : k.lockHolder l = none) (hp : k.lockElems.listPushBack t (.item l) = some e)
    (he : k'.lockElems = e) (hh : k'.lockHolder = Function.update k.lockHolder l (some t))
    (hn : k'.nextThread = k.nextThread) : ∃ q', HeldLocks k' q' := by
  obtain ⟨ls, hq⟩ := H.created t ht
  obtain ⟨e', hp', R, -⟩ := H.repr.pushBack hq (H.unlinked hl)
  obtain rfl : e' = e := Option.some.inj (hp'.symm.trans hp)
  refine ⟨_, he ▸ R, H.created_update hn t _, ?_, ?_⟩
  · intro u ms hu m
    rw [hh]
    obtain rfl | hut := eq_or_ne u t
    · obtain rfl : ls ++ [l] = ms := by simpa using hu
      obtain rfl | hml := eq_or_ne m l
      · simp
      · simpa [hml] using H.holder u ls hq m
    · rw [Function.update_of_ne hut] at hu
      obtain rfl | hml := eq_or_ne m l
      · -- a lock without a holder was in no list
        refine iff_of_false (H.unlinked hl u ms hu) ?_
        rw [Function.update_self]
        exact fun h => hut (Option.some.inj h).symm
      · rw [Function.update_of_ne hml]
        exact H.holder u ms hu m
  · intro m u hm
    rw [hh] at hm
    rw [hn]
    obtain rfl | hml := eq_or_ne m l
    · rw [Function.update_self] at hm
      exact Option.some.inj hm ▸ ht
    · exact H.live m u (by rwa [Function.update_of_ne hml] at hm)

/-- **A lock is given up** by its holder. -/
theorem HeldLocks.release {e : Links ThreadPtr LockPtr} (H : HeldLocks k q)
    (hl : k.lockHolder l = some t) (hr : k.lockElems.listRemove (.item l) = some e)
    (he : k'.lockElems = e) (hh : k'.lockHolder = Function.update k.lockHolder l none)
    (hn : k'.nextThread = k.nextThread) : ∃ q', HeldLocks k' q' := by
  obtain ⟨xs, ys, hq⟩ := H.split hl
  obtain ⟨e', hr', R, -⟩ := H.repr.remove hq
  obtain rfl : e' = e := Option.some.inj (hr'.symm.trans hr)
  have hnd := (H.repr.isList hq).nodup
  refine ⟨_, he ▸ R, H.created_update hn t _, ?_, ?_⟩
  · intro u ms hu m
    rw [hh]
    obtain rfl | hml := eq_or_ne m l
    · -- the lock is in the list of nobody any more
      rw [Function.update_self]
      refine iff_of_false (fun hm => ?_) (by rintro ⟨⟩)
      obtain rfl | hut := eq_or_ne u t
      · obtain rfl : xs ++ ys = ms := by simpa using hu
        have hcons := List.nodup_middle.mp hnd
        exact (List.nodup_cons.mp hcons).1 hm
      · rw [Function.update_of_ne hut] at hu
        have hh' := (H.holder u ms hu m).mp hm
        exact hut (Option.some.inj (hh'.symm.trans hl))
    · rw [Function.update_of_ne hml]
      obtain rfl | hut := eq_or_ne u t
      · obtain rfl : xs ++ ys = ms := by simpa using hu
        simpa [hml] using H.holder u _ hq m
      · rw [Function.update_of_ne hut] at hu
        exact H.holder u ms hu m
  · intro m u hm
    rw [hh] at hm
    rw [hn]
    obtain rfl | hml := eq_or_ne m l
    · rw [Function.update_self] at hm
      cases hm
    · exact H.live m u (by rwa [Function.update_of_ne hml] at hm)

/-- **A thread is created**, with an empty list. -/
theorem HeldLocks.create (H : HeldLocks k q)
    (he : k'.lockElems = k.lockElems.listInit k.nextThread) (hh : k'.lockHolder = k.lockHolder)
    (hn : k'.nextThread = k.nextThread + 1) : ∃ q', HeldLocks k' q' := by
  refine ⟨_, he ▸ H.repr.init k.nextThread, ?_, ?_, ?_⟩
  · intro u hu
    obtain rfl | hun := eq_or_ne u k.nextThread
    · exact ⟨_, Function.update_self ..⟩
    · rw [Function.update_of_ne hun]
      refine H.created u ?_
      rw [hn] at hu
      exact lt_of_le_of_ne (Nat.lt_succ_iff.mp hu) hun
  · intro u ms hu m
    rw [hh]
    obtain rfl | hun := eq_or_ne u k.nextThread
    · obtain rfl : [] = ms := by simpa using hu
      exact iff_of_false List.not_mem_nil fun h => lt_irrefl _ (H.live m _ h)
    · rw [Function.update_of_ne hun] at hu
      exact H.holder u ms hu m
  · intro m u hm
    rw [hh] at hm
    rw [hn]
    exact (H.live m u hm).trans (Nat.lt_succ_self _)

/-! ### Steps -/

/-- No `lock_try_acquire` gets the lock. -/
def Label.TryFails (k : Kernel) : Label → Prop
  | .run => ∀ l fs, k.stack k.cur = .lockTryAcquireDown l :: fs → k.semaValue (.ofLock l) = 0
  | _ => True

/-- Nobody is in front of the assignment to `holder` in `lock_try_acquire`. -/
def NoTries (s : Sync) : Prop :=
  ∀ u, ∀ f ∈ s.stack u, ∀ l, f ≠ .lockTryAcquireHolder l

theorem Local.not_tries {f g : Frame} {gs : List Frame} (h : Local f gs) (hg : g ∈ gs) :
    g ≠ .lockTryAcquireHolder l := by
  cases h with
  | preempt _ hp | threadCreateUnblock hp =>
      obtain rfl := List.mem_singleton.mp hg
      cases hp <;> rintro ⟨⟩
  | _ =>
      rintro rfl
      simp at hg

theorem Move.not_tries {f g : Frame} {gs : List Frame} (h : Move t s f gs s') (hg : g ∈ gs)
    (hf : f = .lockTryAcquireDown l → s.value (.ofLock l) = 0) : g ≠ .lockTryAcquireHolder l := by
  cases h with
  | quiet hl => exact hl.not_tries hg
  | up hp =>
      obtain rfl := List.mem_singleton.mp hg
      cases hp <;> rintro ⟨⟩
  | @lockTryAcquireDown m hv =>
      rintro rfl
      obtain rfl : l = m := by simpa using hg
      exact hv (hf rfl)
  | _ =>
      rintro rfl
      simp at hg

theorem NoTries.step (N : NoTries k.sync) (C : Control k) (hc : k.cur < k.nextThread)
    (hT : lab.TryFails k) (h : Pintos.step cfg fuel k lab = some k') : NoTries k'.sync := by
  obtain ⟨hs, -⟩ := step_syncStep hc h
  by_cases hl : lab = .run
  · subst hl
    have hst : Sync.Step (fun _ => True) k.cur k.sync k'.sync :=
      (step_sync hc (fun _ _ => trivial) h).1
    refine hst.frames C.inv.unborn N (fun _ _ _ _ hf => hf) ?_ ?_ ?_ ?_ ?_
    · intro c _ _ _ l
      cases c <;> rintro ⟨⟩
    · intro f fs gs s₁ e hm _ _ g hg l
      refine hm.not_tries hg ?_
      rintro rfl
      exact hT l fs e
    · intro p e n r _ f hf l
      cases e <;> simp [Entry.stack] at hf <;> rcases hf with rfl | rfl <;> rintro ⟨⟩
    · rintro l ⟨⟩
    · rintro - l ⟨⟩
  · intro u f hf l
    rcases hs.frame_mem hl hf with hf | ⟨c, rfl⟩ | rfl | rfl
    · exact N u f hf l
    · cases c <;> rintro ⟨⟩
    · rintro ⟨⟩
    · rintro ⟨⟩

/-- Calls and interrupts leave the lists `locks_held` alone. -/
theorem step_lockElems (hl : lab ≠ .run) (h : step cfg fuel k lab = some k') :
    k'.lockElems = k.lockElems := by
  cases lab with
  | run => exact absurd rfl hl
  | call c =>
      rw [step] at h
      split at h
      · cases h
        rfl
      · cases h
  | timer =>
      rw [step] at h
      split at h
      · obtain ⟨k₁, ht, b, -, hr⟩ := timerInterrupt_oneTick h
        exact hr.lockElems.trans ht.lockElems
      · cases h
  | semaUp n =>
      rw [step] at h
      split at h
      · obtain ⟨n, -, ht⟩ := semaUpInterrupt_turns h
        exact ht.lockElems
      · cases h
  | semaTryDown n =>
      rw [step] at h
      split at h
      · exact (semaTryDownInterrupt_turns h).lockElems
      · cases h

/-- Who releases a lock is its holder. -/
theorem Control.releases (C : Control k) {fs : List Frame}
    (e : k.stack k.cur = .lockReleaseBody l :: fs) : k.lockHolder l = some k.cur :=
  (C.lock l).body k.cur (by simp [e])

theorem SyncStep.nextThread (h : SyncStep k lab s') (hl : lab ≠ .run) :
    s'.nextThread = k.nextThread := by
  cases h with
  | call => rfl
  | run => exact absurd rfl hl
  | interrupt _ _ hh => cases hh <;> rfl

theorem SyncStep.holderMove {f : Frame} {fs : List Frame} (h : SyncStep k .run s')
    (e : k.stack k.cur = f :: fs) : HolderMove k.cur k.sync f s' := by
  cases h with
  | interrupt hne => exact absurd rfl hne
  | run e' hm =>
      obtain ⟨rfl, rfl⟩ := List.cons.inj (e'.symm.trans e)
      have hmove := hm.holderMove
      cases hmove with
      | same hf ht hh hn => exact .same hf ht hh hn
      | take hf hh hn => exact .take hf hh hn
      | release hh hn => exact .release hh hn
      | create hh hn => exact .create hh hn

/-- **Only the holder** gives a lock up. -/
theorem Control.holder_step (C : Control k) (hc : k.cur < k.nextThread)
    (h : Pintos.step cfg fuel k lab = some k') (ht : t ≠ k.cur) (hl : k.lockHolder l = some t) :
    k'.lockHolder l = some t := by
  obtain ⟨hs, -⟩ := step_syncStep hc h
  by_cases hlab : lab = .run
  · subst hlab
    rcases e : k.stack k.cur with - | ⟨f, fs⟩
    · simp [Pintos.step, e] at h
    · cases hs.holderMove e with
      | same _ _ hh => exact (congrFun hh l).trans hl
      | @take _ m _ hf hh =>
          have hnone : k.lockHolder m = none := (C.lock m).holder_none C.inv e hf
          refine (congrFun hh l).trans ((Function.update_of_ne ?_ ..).trans hl)
          rintro rfl
          rw [hl] at hnone
          cases hnone
      | @release m _ hh =>
          have hold : k.lockHolder m = some k.cur := C.releases e
          refine (congrFun hh l).trans ((Function.update_of_ne ?_ ..).trans hl)
          rintro rfl
          exact ht (Option.some.inj (hl.symm.trans hold))
      | create hh => exact (congrFun hh l).trans hl
  · exact (congrFun (hs.holder hlab) l).trans hl

/-- **Every step** keeps the lists in agreement with the holders, as long as no
`lock_try_acquire` writes one. -/
theorem HeldLocks.step (H : HeldLocks k q) (N : NoTries k.sync) (C : Control k)
    (hc : k.cur < k.nextThread) (h : Pintos.step cfg fuel k lab = some k') :
    ∃ q', HeldLocks k' q' := by
  obtain ⟨hs, -⟩ := step_syncStep hc h
  by_cases hl : lab = .run
  · subst hl
    rcases e : k.stack k.cur with - | ⟨f, fs⟩
    · simp [Pintos.step, e] at h
    · have hx : exec cfg fuel (popFrame k fs) f = some k' := by rwa [Pintos.step, e] at h
      have hlinks := exec_lockLinks hx
      have hhold := hs.holderMove e
      have hf : ∀ l, f ≠ .lockTryAcquireHolder l := N k.cur f (by simp [e])
      generalize he : k'.lockElems = le at hlinks
      -- the frame that writes the holder is the one that moves the lock
      cases hhold with
      | same hm _ hh hn =>
          cases hlinks with
          | same => exact ⟨q, H.congr he hh hn⟩
          | take _ hm' => exact absurd hm' hm
          | release | create => exact absurd trivial hm
      | @take _ l _ hf' hh hn =>
          have hnone : k.lockHolder l = none := (C.lock l).holder_none C.inv e hf'
          cases hlinks with
          | same hm =>
              cases hf' with
              | lockTryAcquireHolder => exact absurd rfl (hf l)
              | _ => exact absurd trivial hm
          | take hf'' _ hp =>
              obtain rfl := hf'.unique hf''
              exact H.take hc hnone hp he hh hn
          | release | create => cases hf'
      | @release l _ hh hn =>
          have hold : k.lockHolder l = some k.cur := C.releases e
          cases hlinks with
          | same hm => exact absurd trivial hm
          | take hf' => cases hf'
          | release hr => exact H.release hold hr he hh hn
      | create hh hn =>
          cases hlinks with
          | same hm => exact absurd trivial hm
          | take hf' => cases hf'
          | create => exact H.create he hh hn
  · exact ⟨q, H.congr (step_lockElems hl h) (hs.holder hl) (hs.nextThread hl)⟩

/-! ### Runs -/

theorem boot_heldLocks (cfg : Config) :
    HeldLocks (boot cfg) fun t => if t = 0 then some [] else none where
  repr :=
    { isList := by
        intro t ls ht
        obtain ⟨rfl, rfl⟩ : t = 0 ∧ [] = ls := by simpa using ht
        exact ⟨⟨rfl, rfl⟩, rfl, rfl, List.nodup_nil⟩
      disj := by
        intro t u xs ys l ht _ hl
        obtain ⟨-, rfl⟩ : t = 0 ∧ [] = xs := by simpa using ht
        cases hl }
  created := by
    intro t ht
    exact ⟨[], if_pos (Nat.lt_one_iff.mp ht)⟩
  holder := by
    intro t ls ht l
    obtain ⟨-, rfl⟩ : t = 0 ∧ [] = ls := by simpa using ht
    exact iff_of_false List.not_mem_nil (by rintro ⟨⟩)
  live := by rintro l t ⟨⟩

theorem boot_noTries (cfg : Config) : NoTries (boot cfg).sync := by
  intro u f hf l
  have hf : f ∈ (boot cfg).stack u := hf
  rcases boot_stack hf with rfl | rfl <;> rintro ⟨⟩

/-- In no step of the run does a `lock_try_acquire` get the lock. -/
def TriesFail (cfg : Config) (ok : Kernel → Label → Prop) : Prop :=
  ∀ k lab, Reachable cfg ok k → ok k lab → lab.TryFails k

theorem TriesFail.noTries (hT : TriesFail cfg ok) (hr : Reachable cfg ok k) : NoTries k.sync := by
  induction hr with
  | refl => exact boot_noTries cfg
  | tail hr hn ih =>
      obtain ⟨lab, fuel, hok, h⟩ := hn
      exact ih.step (Reachable.control hr) (Reachable.anySync hr).2 (hT _ _ hr hok) h

theorem TriesFail.heldLocks (hT : TriesFail cfg ok) (hr : Reachable cfg ok k) :
    ∃ q, HeldLocks k q := by
  induction hr with
  | refl => exact ⟨_, boot_heldLocks cfg⟩
  | tail hr hn ih =>
      obtain ⟨q, H⟩ := ih
      obtain ⟨lab, fuel, hok, h⟩ := hn
      exact H.step (hT.noTries hr) (Reachable.control hr) (Reachable.anySync hr).2 h

/-- Nobody exits while it holds a lock. -/
def Label.ExitsClean (k : Kernel) : Label → Prop
  | .run => ∀ fs, k.stack k.cur = .threadExit :: fs → ∀ l, k.lockHolder l ≠ some k.cur
  | _ => True

/-- The holders of the locks have not exited. -/
def HoldersAlive (k : Kernel) : Prop :=
  ∀ l t, k.lockHolder l = some t → (k.thr t).status ≠ .dying

theorem HoldersAlive.step {srt : Prop} (H : HoldersAlive k) (G : Good cfg srt k) (C : Control k)
    (C' : Control k') (hc : k.cur < k.nextThread) (hT : Tame cfg srt k lab)
    (hx : lab.ExitsClean k) (h : Pintos.step cfg fuel k lab = some k') : HoldersAlive k' := by
  obtain ⟨he, -⟩ := G.step C C' hc hT h
  obtain ⟨⟨q, home, L, P⟩, -⟩ := G.sched
  have hs : SyncStep k lab k'.sync := (step_syncStep hc h).1
  have hst : Sync.Step (fun _ => True) k.cur k.sync k'.sync :=
    (step_sync hc (fun _ _ => trivial) h).1
  intro l t hl hd
  -- the holder is that of before, or the running thread
  have hold : k.lockHolder l = some t ∨
      t = k.cur ∧ ∃ f fs, k.stack k.cur = f :: fs ∧ f.Takes l := by
    rcases hst.holder_cases with e | ⟨f, fs, m, e, hf, hh⟩ | ⟨m, fs, -, hh⟩
    · exact .inl ((congrFun e l).symm.trans hl)
    · have hl : Function.update k.lockHolder m (some k.cur) l = some t :=
        (congrFun hh l).symm.trans hl
      obtain rfl | hlm := eq_or_ne l m
      · rw [Function.update_self] at hl
        exact .inr ⟨(Option.some.inj hl).symm, f, fs, e, hf⟩
      · exact .inl (by rwa [Function.update_of_ne hlm] at hl)
    · have hl : Function.update k.lockHolder m none l = some t := (congrFun hh l).symm.trans hl
      obtain rfl | hlm := eq_or_ne l m
      · rw [Function.update_self] at hl
        cases hl
      · exact .inl (by rwa [Function.update_of_ne hlm] at hl)
  rcases he.dies hd with hd | ⟨rfl, rfl, fs, e⟩
  · rcases hold with hl | ⟨rfl, -⟩
    · exact H l t hl hd
    · rw [P.cur_running] at hd
      cases hd
  · rcases hold with hl | ⟨-, f, gs, e', hf⟩
    · exact hx fs e l hl
    · obtain ⟨rfl, -⟩ := List.cons.inj (e.symm.trans e')
      cases hf

theorem Reachable.holdersAlive {srt : Prop}
    (hT : ∀ k lab, Reachable cfg ok k → ok k lab → Tame cfg srt k lab)
    (hx : ∀ k lab, Reachable cfg ok k → ok k lab → lab.ExitsClean k) (hr : Reachable cfg ok k) :
    HoldersAlive k := by
  induction hr with
  | refl => rintro l t ⟨⟩
  | @tail k k' hr hn ih =>
      have hr : Reachable cfg ok k := hr
      obtain ⟨lab, fuel, hok, h⟩ := hn
      have hr' : Reachable cfg ok k' := hr.tail ⟨lab, fuel, hok, h⟩
      exact ih.step (hr.good hT) hr.control hr'.control hr.anySync.2 (hT k lab hr hok)
        (hx k lab hr hok) h

/-- The list of a thread holds each lock as often as the thread is its holder. -/
theorem HeldLocks.count (H : HeldLocks k q) (ht : t < k.nextThread) :
    ∃ ls, IsList k.lockElems t ls ∧ ∀ l, ls.count l = if k.lockHolder l = some t then 1 else 0 := by
  obtain ⟨ls, hq⟩ := H.created t ht
  have hl := H.repr.isList hq
  refine ⟨ls, hl, fun l => ?_⟩
  rw [hl.nodup.count]
  exact if_congr (H.holder t ls hq l) rfl rfl

/-- A lock is linked in the list of its holder, and can be unlinked there. -/
theorem HeldLocks.unlinks (H : HeldLocks k q) (hl : k.lockHolder l = some t) :
    ∃ ls, IsList k.lockElems t ls ∧ l ∈ ls ∧ ∃ e,
      k.lockElems.listRemove (.item l) = some e ∧ IsList e t (ls.erase l) := by
  obtain ⟨xs, ys, hq⟩ := H.split hl
  obtain ⟨e, he, R, -⟩ := H.repr.remove hq
  have hls := H.repr.isList hq
  have hx : l ∉ xs := by
    intro hx
    have hcons := List.nodup_middle.mp hls.nodup
    exact (List.nodup_cons.mp hcons).1 (List.mem_append_left _ hx)
  refine ⟨_, hls, by simp, e, he, ?_⟩
  have herase : (xs ++ l :: ys).erase l = xs ++ ys := by
    rw [List.erase_append_right _ hx, List.erase_cons_head]
  rw [herase]
  exact R.isList (Function.update_self ..)

/-- **Ownership is on the books**: in every run in which no `lock_try_acquire` gets its lock and no
thread exits while it holds one, the list `locks_held` of every thread is well formed and has each
lock as often as the thread is its holder, no other thread lives in the page that `holder` points
to, and the lock that `lock_release` unlinks is in the list of the thread that calls it. -/
theorem locks_held_coherent {srt : Prop} {page : ThreadPtr → ℕ} (hF : TriesFail cfg ok)
    (hT : ∀ k lab, Reachable cfg ok k → ok k lab →
      Tame cfg srt k lab ∧ lab.ExitsClean k ∧ lab.TakesFree page k) (hr : Reachable cfg ok k) :
    (∀ t, k.PageInUse t → ∃ ls, IsList k.lockElems t ls ∧
      ∀ l, ls.count l = if k.lockHolder l = some t then 1 else 0) ∧
    (∀ l t, k.lockHolder l = some t → k.PageInUse t ∧ (k.thr t).status ≠ .dying ∧
      ∀ u, k.PageInUse u → page u = page t → u = t) ∧
    ∀ l fs, k.stack k.cur = .lockReleaseBody l :: fs →
      ∃ ls, IsList k.lockElems k.cur ls ∧ l ∈ ls ∧ ∃ e,
        k.lockElems.listRemove (.item l) = some e ∧ IsList e k.cur (ls.erase l) := by
  obtain ⟨q, H⟩ := hF.heldLocks hr
  have hT₀ : ∀ k lab, Reachable cfg ok k → ok k lab → Tame cfg srt k lab :=
    fun k lab hr h => (hT k lab hr h).1
  refine ⟨fun t ht => H.count ht.1, fun l t hl => ?_, fun l fs e => ?_⟩
  · have ha : (k.thr t).status ≠ .dying :=
      Reachable.holdersAlive hT₀ (fun k lab hr h => (hT k lab hr h).2.1) hr l t hl
    have ht : k.PageInUse t := ⟨H.live l t hl, fun hd => absurd hd ha⟩
    refine ⟨ht, ha, fun u hu e => ?_⟩
    exact hr.distinct_pages hT₀ (fun k lab hr h => (hT k lab hr h).2.2) hu ht e
  · exact H.unlinks ((Reachable.control hr).releases e)

/-- `Label.TryFails`, computed. -/
def Label.tryFails (k : Kernel) : Label → Bool
  | .run =>
      match k.stack k.cur with
      | .lockTryAcquireDown l :: _ => k.semaValue (.ofLock l) = 0
      | _ => true
  | _ => true

theorem Label.TryFails.of_check (h : lab.tryFails k = true) : lab.TryFails k := by
  cases lab with
  | run =>
      intro l fs e
      simpa [Label.tryFails, e] using h
  | _ => trivial

/-- `Label.ExitsClean`, computed: the list of the thread that exits is empty. -/
def Label.exitsClean (k : Kernel) : Label → Bool
  | .run =>
      match k.stack k.cur with
      | .threadExit :: _ => k.lockElems.listEmpty k.cur
      | _ => true
  | _ => true

theorem HeldLocks.exitsClean (H : HeldLocks k q) (hc : k.cur < k.nextThread)
    (h : lab.exitsClean k = true) : lab.ExitsClean k := by
  cases lab with
  | run =>
      intro fs e l hl
      simp only [Label.exitsClean, e] at h
      obtain ⟨ls, hq⟩ := H.created k.cur hc
      obtain rfl := (H.repr.isList hq).listEmpty.mp h
      exact absurd ((H.holder k.cur [] hq l).mpr hl) List.not_mem_nil
  | _ => trivial

/-- Thread 3 lives in the page of thread 2. -/
def handedOn (t : ThreadPtr) : ℕ :=
  if t = 3 then 2 else t

/-- Thread 2 has exited and thread 3 has been made in its page; it is about to unlink the second of
the two locks that it holds. -/
theorem locks_held_coherent_release : ∃ k,
    Reachable tidConfig (fun k lab => lab.tryFails k &&
      (lab.peaceful k && (lab.exitsClean k && lab.takesFree handedOn k))) k ∧
      k.cur = 3 ∧ (k.thr 2).status = .dying ∧ handedOn 2 = handedOn 3 ∧
      k.stack k.cur = [.lockReleaseBody (.user 1)] ∧ k.lockHolder (.user 0) = some k.cur ∧
      (∀ u, k.PageInUse u → handedOn u = handedOn k.cur → u = k.cur) ∧
      ∃ ls, IsList k.lockElems k.cur ls ∧ .user 1 ∈ ls ∧ ∃ e,
        k.lockElems.listRemove (.item (.user 1)) = some e ∧
          IsList e k.cur (ls.erase (.user 1)) := by
  obtain ⟨k, hr, hk⟩ := exists_reachable tidConfig 70 (fun k lab => lab.tryFails k &&
      (lab.peaceful k && (lab.exitsClean k && lab.takesFree handedOn k)))
    (List.replicate 31 Label.run ++ [Label.call (.threadCreate 33)] ++
      List.replicate 22 Label.run ++ [Label.call .threadExit, .run, .run,
        .call (.threadCreate 33)] ++ List.replicate 22 Label.run ++
      [Label.call (.lockAcquire 0)] ++ List.replicate 4 Label.run ++
      [Label.call (.lockAcquire 1)] ++ List.replicate 4 Label.run ++
      [Label.call (.lockRelease 1), .run])
    (fun k => k.cur = 3 ∧ (k.thr 2).status = .dying ∧
      k.stack k.cur = [.lockReleaseBody (.user 1)] ∧ k.lockHolder (.user 0) = some k.cur)
    (by decide +kernel)
  obtain ⟨hc, hd, hs, hl⟩ := of_decide_eq_true hk
  have hF : TriesFail tidConfig (fun k lab => lab.tryFails k &&
      (lab.peaceful k && (lab.exitsClean k && lab.takesFree handedOn k))) :=
    fun _ _ _ h => Label.TryFails.of_check (Bool.and_eq_true_iff.mp h).1
  have hT : ∀ k lab, Reachable tidConfig (fun k lab => lab.tryFails k &&
      (lab.peaceful k && (lab.exitsClean k && lab.takesFree handedOn k))) k →
      (lab.tryFails k && (lab.peaceful k && (lab.exitsClean k && lab.takesFree handedOn k))) = true →
        Tame tidConfig True k lab ∧ lab.ExitsClean k ∧ lab.TakesFree handedOn k := by
    intro k lab hr h
    obtain ⟨-, h⟩ := Bool.and_eq_true_iff.mp h
    obtain ⟨hp, h⟩ := Bool.and_eq_true_iff.mp h
    obtain ⟨hx, hf⟩ := Bool.and_eq_true_iff.mp h
    obtain ⟨q, H⟩ := hF.heldLocks hr
    exact ⟨Label.peaceful.tame hp, H.exitsClean hr.anySync.2 hx, .of_check hf⟩
  obtain ⟨-, hheld, hrel⟩ := locks_held_coherent hF hT hr
  exact ⟨k, hr, hc, hd, rfl, hs, hl, (hheld _ _ hl).2.2, hrel _ _ hs⟩

end Pintos
