/-
PintosThreads/Queues.lean

The queues of the kernel, as sequences.

`Lists k q home` says that the link memory of state `k` is a set of disjoint,
well-formed lists, which hold the sequences `q`, and that each thread is in
the list that `home` says it is in.  `Placed` says that this list is the one
that the thread's status and stack call for: a ready thread is in a ready
queue, a thread that is blocked in `sema_down` is on the semaphore, and every
other thread is in no list.  `Queues` is the two together.

A thread that waits for a lock stays linked into `lock->waiters` by the same
node that `sema_down` then links into the semaphore's list.  Such a list is
left out of `q`; all that is known of it is that it starts at that thread.
-/
import PintosThreads.LockExclusion

namespace Pintos

open Intrusive

/-! ### Where a thread is linked -/

/-- The ready queues of the scheduler in force. -/
inductive ListPtr.IsReady (cfg : Config) : ListPtr → Prop
  | readyList : cfg.mlfqs = false → IsReady cfg .readyList
  | mlfqsList {i : ℤ} : cfg.mlfqs = true → priMin ≤ i → i ≤ priMax → IsReady cfg (.mlfqsList i)

/-- The semaphore exists: it is not in a record of `cond_wait` that is yet to come. -/
def Kernel.Known (k : Kernel) (p : SemaPtr) : Prop :=
  ∀ w, p = .ofWaiter w → w < k.nextWaiter

/-- The list that a blocked thread is in. -/
def waitsOn : List Frame → Option ListPtr
  | .semaDownWait p _ :: _ => some (.semaWaiters p)
  | _ => none

/-- A blocked thread is in the sleep list. -/
def Sleeps (fs : List Frame) : Prop :=
  ∃ old gs, fs = .timerSleepReturn old :: gs

/-- The frames that a blocked thread can be at. -/
inductive Frame.Parks : Frame → Prop
  | semaDownWait {p old} : Parks (semaDownWait p old)
  | threadBlockReturn : Parks threadBlockReturn
  | timerSleepReturn {old} : Parks (timerSleepReturn old)
  | idleResume : Parks idleResume
  | kernelThread : Parks kernelThread

/-- A thread with the given stack and status is linked into list `o`.  Ready
threads other than the idle thread are in a list of `A`. -/
def Stands (A : ListPtr → Prop) (idle : Prop) (fs : List Frame) (o : Option ListPtr) :
    ThreadStatus → Prop
  | .ready => idle ∧ o = none ∨ ¬ idle ∧ ∃ l, A l ∧ o = some l
  | .blocked => o = waitsOn fs
  | .running | .dying => o = none

/-! ### The invariants -/

/-- The link memory holds the sequences `q`, and each thread is where `home`
says.  Where `srt` holds, the ready list of the priority scheduler is sorted,
and a thread in an MLFQS queue has its priority for its index. -/
structure Lists (cfg : Config) (srt : Prop) (k : Kernel) (q : ListPtr → Option (List ThreadPtr))
    (home : ThreadPtr → Option ListPtr) : Prop where
  repr : Repr k.elems q
  homes : Homes q home
  ready : ∀ l, l.IsReady cfg → ∃ xs, q l = some xs
  semas : ∀ p, k.Known p → ∃ xs, q (.semaWaiters p) = some xs
  fresh : ∀ p, ¬ k.Known p → k.elems.next (.head (.semaWaiters p)) = none
  locks : ∀ l, (∀ t, (k.thr t).waitingLock ≠ some l) → q (.lockWaiters l) = some []
  waited : ∀ l t, (k.thr t).waitingLock = some l →
    q (.lockWaiters l) = none ∧ k.elems.next (.head (.lockWaiters l)) = some (.item t)
  sorted : srt → cfg.mlfqs = false → ∀ xs, q .readyList = some xs →
    xs.Pairwise fun a b => (k.thr b).priority ≤ (k.thr a).priority
  bucket : srt → cfg.mlfqs = true → ∀ t i, home t = some (.mlfqsList i) → (k.thr t).priority = i

/-- The list of each thread is the one that its status and its stack call for.
`r` is the running thread, `none` when it has just given up the processor, and
`sl` the sleep list. -/
structure Placed (A : ListPtr → Prop) (r : Option ThreadPtr) (sl : List ThreadPtr) (k : Kernel)
    (home : ThreadPtr → Option ListPtr) : Prop where
  running : ∀ t, (k.thr t).status = .running ↔ r = some t
  stands : ∀ t, Stands A (k.idleThread = some t) (k.stack t) (home t) (k.thr t).status
  unborn : ∀ t, k.nextThread ≤ t → (k.thr t).status = .dying
  parked : ∀ t, (k.thr t).status = .blocked → ∃ f fs, k.stack t = f :: fs ∧ f.Parks
  sleeping : ∀ t, t ∈ sl ↔ (k.thr t).status = .blocked ∧ Sleeps (k.stack t)
  sleepers : sl.Nodup
  all : ∀ t, t ∈ k.allList ↔ t < k.nextThread ∧ (k.thr t).status ≠ .dying
  allNodup : k.allList.Nodup
  idleAlive : ∀ t, k.idleThread = some t → (k.thr t).status ≠ .dying

/-- **The invariant of the scheduler.** -/
def Queues (cfg : Config) (srt : Prop) (r : Option ThreadPtr) (k : Kernel) : Prop :=
  ∃ q home, Lists cfg srt k q home ∧ Placed (ListPtr.IsReady cfg) r k.sleepList k home

variable {cfg : Config} {fuel : ℕ} {srt : Prop} {k k' : Kernel}
variable {q : ListPtr → Option (List ThreadPtr)} {home : ThreadPtr → Option ListPtr}
variable {A : ListPtr → Prop} {r : Option ThreadPtr} {sl : List ThreadPtr}

/-! ### Reading the lists -/

theorem Lists.known (L : Lists cfg srt k q home) {p : SemaPtr} {xs : List ThreadPtr}
    (h : q (.semaWaiters p) = some xs) : k.Known p := by
  by_contra hp
  have hn := (L.repr.isList h).seg.next_eq
  rw [L.fresh p hp] at hn
  cases hn

theorem Lists.known_of_eq (L : Lists cfg srt k q home) {l : ListPtr} {xs : List ThreadPtr}
    (h : q l = some xs) (p : SemaPtr) (e : l = .semaWaiters p) : k.Known p :=
  L.known (e ▸ h)

theorem Lists.lockWaiters_eq (L : Lists cfg srt k q home) {l : LockPtr} {xs : List ThreadPtr}
    (h : q (.lockWaiters l) = some xs) : xs = [] := by
  have hl : ∀ t, (k.thr t).waitingLock ≠ some l := by
    intro t ht
    rw [(L.waited l t ht).1] at h
    cases h
  rw [L.locks l hl] at h
  exact (Option.some.inj h).symm

theorem Lists.home_ne_lockWaiters (L : Lists cfg srt k q home) {l : LockPtr} {xs : List ThreadPtr}
    (h : q (.lockWaiters l) = some xs) (t : ThreadPtr) : home t ≠ some (.lockWaiters l) := by
  obtain rfl := L.lockWaiters_eq h
  intro ht
  exact absurd ((L.homes _ _ h t).mpr ht) (by simp)

theorem Lists.listEmpty (L : Lists cfg srt k q home) {l : ListPtr} {xs : List ThreadPtr}
    (h : q l = some xs) : k.elems.listEmpty l = true ↔ ∀ t, home t ≠ some l := by
  rw [(L.repr.isList h).listEmpty]
  constructor
  · rintro rfl t ht
    exact absurd ((L.homes _ _ h t).mpr ht) (by simp)
  · intro hn
    refine List.eq_nil_iff_forall_not_mem.mpr fun t ht => hn t ((L.homes _ _ h t).mp ht)

theorem Lists.inList (L : Lists cfg srt k q home) {l : ListPtr} {xs : List ThreadPtr}
    (h : q l = some xs) (t : ThreadPtr) : k.elems.InList l t ↔ home t = some l :=
  (L.repr.isList h).inList.trans (L.homes l xs h t)

/-- A lock that a thread waits for is never seen without waiters. -/
theorem Lists.waited_not_empty (L : Lists cfg srt k q home) {l : LockPtr} {t : ThreadPtr}
    (h : (k.thr t).waitingLock = some l) : k.elems.listEmpty (.lockWaiters l) = false := by
  simp [Links.listEmpty, (L.waited l t h).2]

/-! ### Changing one list -/

theorem not_within_head {l l' : ListPtr} {xs : List ThreadPtr} (h : l' ≠ l) :
    ¬ Within l xs (.head l' : Node ListPtr ThreadPtr) := by
  simp [Within, h]

/-- One list other than the waiters of a lock changes to `zs`. -/
theorem Lists.setList (L : Lists cfg srt k q home) {l : ListPtr} {ys zs : List ThreadPtr}
    {e : Links ListPtr ThreadPtr} {home' : ThreadPtr → Option ListPtr}
    (hk : ∀ p, l = .semaWaiters p → k.Known p) (hl : ∀ m, l ≠ .lockWaiters m)
    (R : Repr e (Function.update q l (some zs))) (hs : SameOff (Within l ys) k.elems e)
    (H : Homes (Function.update q l (some zs)) home')
    (hz : srt → cfg.mlfqs = false → l = .readyList →
      zs.Pairwise fun a b => (k.thr b).priority ≤ (k.thr a).priority)
    (hb : ∀ t i, home' t = some (.mlfqsList i) →
      home t = some (.mlfqsList i) ∨ (k.thr t).priority = i) :
    Lists cfg srt (k.setElems e) (Function.update q l (some zs)) home' where
  repr := R
  homes := H
  ready := by
    intro l' hl'
    by_cases hll : l' = l
    · exact ⟨zs, by simp [hll]⟩
    · simpa [hll] using L.ready l' hl'
  semas := by
    intro p hp
    by_cases hll : .semaWaiters p = l
    · exact ⟨zs, by simp [hll]⟩
    · simpa [hll] using L.semas p hp
  fresh := by
    intro p hp
    have hll : .semaWaiters p ≠ l := by
      rintro rfl
      exact hp (hk p rfl)
    exact (hs _ (not_within_head hll)).1.trans (L.fresh p hp)
  locks := by
    intro m hm
    simpa [(hl m).symm] using L.locks m hm
  waited := by
    intro m t ht
    obtain ⟨hn, hh⟩ := L.waited m t ht
    refine ⟨by simpa [(hl m).symm] using hn, ?_⟩
    exact (hs _ (not_within_head (hl m).symm)).1.trans hh
  sorted := by
    intro h hm xs' hx
    by_cases hll : .readyList = l
    · subst hll
      obtain rfl : zs = xs' := by simpa using hx
      exact hz h hm rfl
    · exact L.sorted h hm xs' (by simpa [hll] using hx)
  bucket := fun h hm t i ht => (hb t i ht).elim (L.bucket h hm t i) id

/-- The lists do not depend on the rest of the kernel. -/
theorem Lists.congr (L : Lists cfg srt k q home) (he : k'.elems = k.elems)
    (hw : ∀ t, (k'.thr t).waitingLock = (k.thr t).waitingLock) (hn : k'.nextWaiter = k.nextWaiter)
    (hp : srt → ∀ t l, home t = some l → (k'.thr t).priority = (k.thr t).priority) :
    Lists cfg srt k' q home where
  repr := he ▸ L.repr
  homes := L.homes
  ready := L.ready
  semas := fun p h => L.semas p (by simpa [Kernel.Known, hn] using h)
  fresh := fun p h => by
    rw [he]
    exact L.fresh p (by simpa [Kernel.Known, hn] using h)
  locks := fun l h => L.locks l fun t => hw t ▸ h t
  waited := fun l t h => by
    rw [he]
    exact L.waited l t (hw t ▸ h)
  sorted := by
    intro h hm xs hx
    refine (L.sorted h hm xs hx).imp_of_mem ?_
    intro a b ha hb hab
    rw [hp h a _ ((L.homes _ _ hx a).mp ha), hp h b _ ((L.homes _ _ hx b).mp hb)]
    exact hab
  bucket := fun h hm t i ht => (hp h t _ ht).trans (L.bucket h hm t i ht)

theorem Lists.unsorted (L : Lists cfg srt k q home) : Lists cfg False k q home :=
  ⟨L.repr, L.homes, L.ready, L.semas, L.fresh, L.locks, L.waited, False.elim, False.elim⟩

/-! ### The operations on the lists -/

/-- The priority and the base priority are indices of the MLFQS queues. -/
structure Thread.InRange (th : Thread) : Prop where
  priority : priMin ≤ th.priority ∧ th.priority ≤ priMax
  basePriority : priMin ≤ th.basePriority ∧ th.basePriority ≤ priMax

theorem Thread.InRange.of_eq {th th' : Thread} (h : th.InRange)
    (hp : th'.priority = th.priority) (hb : th'.basePriority = th.basePriority) : th'.InRange :=
  ⟨hp ▸ h.priority, hb ▸ h.basePriority⟩

/-- With the MLFQS every priority is an index of its queues. -/
def InRange (cfg : Config) (k : Kernel) : Prop :=
  cfg.mlfqs = true → ∀ t, (k.thr t).InRange

/-- A thread that is in no list is inserted by its priority. -/
theorem Lists.inserted (L : Lists cfg srt k q home) {l : ListPtr} {t : ThreadPtr}
    {xs : List ThreadPtr} (hq : q l = some xs) (hl : ∀ m, l ≠ .lockWaiters m)
    (hi : ∀ i, l ≠ .mlfqsList i) (ht : home t = none)
    (h : insertByPriority cfg fuel k l t = some k') :
    ∃ q', Lists cfg srt k' q' (Function.update home t (some l)) := by
  obtain ⟨e, he, rfl⟩ := Option.map_eq_some_iff.mp h
  obtain ⟨R, hs⟩ := L.repr.insertOrdered
    (fun a b => (k.thr b).priority < (k.thr a).priority) (fun _ => rfl) hq (L.homes.unlinked ht) he
  refine ⟨_, L.setList (L.known_of_eq hq) hl R hs
    (L.homes.insert hq ht fun a => List.mem_orderedInsert _) ?_ fun u i hu => ?_⟩
  · rintro hsrt hm rfl
    exact pairwise_orderedInsert (fun a => (k.thr a).priority) t (L.sorted hsrt hm xs hq)
  · by_cases hut : u = t
    · exact absurd (by simpa [hut] using hu) (hi i)
    · exact .inl (by simpa [hut] using hu)

theorem Lists.pushed (L : Lists cfg srt k q home) {t : ThreadPtr} {xs : List ThreadPtr}
    (hq : q (.mlfqsList (k.thr t).priority) = some xs) (ht : home t = none)
    (h : mlfqsInsert k t = some k') :
    ∃ q', Lists cfg srt k' q' (Function.update home t (some (.mlfqsList (k.thr t).priority))) := by
  obtain ⟨e, he, rfl⟩ := Option.map_eq_some_iff.mp h
  obtain ⟨e', he', R, hs⟩ := L.repr.pushBack hq (L.homes.unlinked ht)
  obtain rfl : e = e' := Option.some.inj (he.symm.trans he')
  refine ⟨_, (L.setList (L.known_of_eq hq) nofun R hs (L.homes.insert hq ht ?_) nofun
    fun u i hu => ?_).congr rfl (fun _ => rfl) rfl fun _ _ _ _ => rfl⟩
  · simp [or_comm]
  · obtain rfl | hut := eq_or_ne u t
    · exact .inr (by simpa using hu)
    · exact .inl (by simpa [hut] using hu)

/-- A thread that is in no list is inserted into a ready queue. -/
theorem Lists.enqueued (fuel : ℕ) (L : Lists cfg srt k q home) {t : ThreadPtr} (hr : InRange cfg k)
    (ht : home t = none)
    (h : (if cfg.mlfqs then mlfqsInsert k t
      else insertByPriority cfg fuel k .readyList t) = some k') :
    ∃ q' l, l.IsReady cfg ∧ Lists cfg srt k' q' (Function.update home t (some l)) := by
  split at h
  case isTrue hm =>
    have hl : (ListPtr.mlfqsList (k.thr t).priority).IsReady cfg :=
      .mlfqsList hm (hr hm t).priority.1 (hr hm t).priority.2
    obtain ⟨xs, hq⟩ := L.ready _ hl
    obtain ⟨q', L'⟩ := L.pushed hq ht h
    exact ⟨q', _, hl, L'⟩
  case isFalse hm =>
    have hl : ListPtr.readyList.IsReady cfg := .readyList (by simpa using hm)
    obtain ⟨xs, hq⟩ := L.ready _ hl
    obtain ⟨q', L'⟩ := L.inserted hq nofun nofun ht h
    exact ⟨q', _, hl, L'⟩

/-- The first thread of a list leaves it. -/
theorem Lists.popped (L : Lists cfg srt k q home) {l : ListPtr} {t : ThreadPtr}
    {xs : List ThreadPtr} {e : Links ListPtr ThreadPtr} (hq : q l = some xs)
    (hl : ∀ m, l ≠ .lockWaiters m) (h : popThread k.elems l = some (t, e)) :
    ∃ ys, xs = t :: ys ∧ home t = some l ∧
      Lists cfg srt (k.setElems e) (Function.update q l (some ys)) (Function.update home t none) := by
  cases xs with
  | nil =>
    have he : k.elems.listEmpty l = true := (L.repr.isList hq).listEmpty.mpr rfl
    simp [popThread, Links.listPopFront, Links.listFront, he] at h
  | cons x ys =>
    obtain ⟨e', he, R, hs⟩ := L.repr.popFront hq
    obtain ⟨rfl, rfl⟩ : x = t ∧ e' = e := by simpa [popThread, he] using h
    have hnd := List.nodup_cons.mp (L.repr.isList hq).nodup
    refine ⟨ys, rfl, (L.homes _ _ hq x).mp (by simp),
      L.setList (L.known_of_eq hq) hl R hs ?_ ?_ fun u i hu => ?_⟩
    · refine L.homes.remove hq (by simp) fun a => ?_
      constructor
      · exact fun ha => ⟨by simp [ha], fun hax => hnd.1 (hax ▸ ha)⟩
      · rintro ⟨ha, hax⟩
        simpa [hax] using ha
    · rintro hsrt hm rfl
      exact (List.pairwise_cons.mp (L.sorted hsrt hm _ hq)).2
    · obtain rfl | hux := eq_or_ne u x
      · simp at hu
      · exact .inl (by simpa [hux] using hu)

/-! ### Changing one thread -/

/-- The statuses of the threads other than `t` stay, and `t` has status `s`. -/
def Restatus (k k' : Kernel) (t : ThreadPtr) (s : ThreadStatus) : Prop :=
  (k'.thr t).status = s ∧ ∀ u, u ≠ t → (k'.thr u).status = (k.thr u).status

theorem Kernel.modify_restatus (k : Kernel) (t : ThreadPtr) (f : Thread → Thread) :
    Restatus k (k.modify t f) t (f (k.thr t)).status := by
  refine ⟨by simp, fun u hu => by simp [hu]⟩

/-- Thread `t` gets a status `s` and goes to list `o`. -/
theorem Placed.update {r' : Option ThreadPtr} {sl' : List ThreadPtr} {t : ThreadPtr}
    {s : ThreadStatus} {o : Option ListPtr} (P : Placed A r sl k home) (hk : Restatus k k' t s)
    (hst : ∀ u, u ≠ t → k'.stack u = k.stack u) (hi : k'.idleThread = k.idleThread)
    (hn : k'.nextThread = k.nextThread) (ht : t < k.nextThread)
    (hr : ∀ u, u ≠ t → (r' = some u ↔ r = some u)) (hrt : s = .running ↔ r' = some t)
    (hs : Stands A (k.idleThread = some t) (k'.stack t) o s)
    (hp : s = .blocked → ∃ f fs, k'.stack t = f :: fs ∧ f.Parks)
    (hsl : ∀ u, u ≠ t → (u ∈ sl' ↔ u ∈ sl)) (hslt : t ∈ sl' ↔ s = .blocked ∧ Sleeps (k'.stack t))
    (hsn : sl'.Nodup) (ha : ∀ u, u ≠ t → (u ∈ k'.allList ↔ u ∈ k.allList))
    (hat : t ∈ k'.allList ↔ s ≠ .dying) (han : k'.allList.Nodup)
    (hid : k.idleThread = some t → s ≠ .dying) :
    Placed A r' sl' k' (Function.update home t o) where
  running := by
    intro u
    obtain rfl | hu := eq_or_ne u t
    · rw [hk.1, hrt]
    · rw [hk.2 u hu, P.running, hr u hu]
  stands := by
    intro u
    obtain rfl | hu := eq_or_ne u t
    · rw [hk.1, hi, Function.update_self]
      exact hs
    · rw [hk.2 u hu, hi, hst u hu, Function.update_of_ne hu]
      exact P.stands u
  unborn := by
    intro u hu
    obtain rfl | hut := eq_or_ne u t
    · exact absurd (hu.trans_lt' (hn ▸ ht)) (lt_irrefl _)
    · rw [hk.2 u hut]
      exact P.unborn u (hn ▸ hu)
  parked := by
    intro u hu
    obtain rfl | hut := eq_or_ne u t
    · exact hp (hk.1 ▸ hu)
    · rw [hst u hut]
      exact P.parked u (hk.2 u hut ▸ hu)
  sleeping := by
    intro u
    obtain rfl | hu := eq_or_ne u t
    · rw [hslt, hk.1]
    · rw [hsl u hu, P.sleeping, hk.2 u hu, hst u hu]
  sleepers := hsn
  all := by
    intro u
    obtain rfl | hu := eq_or_ne u t
    · rw [hat, hk.1, hn]
      exact ⟨fun h => ⟨ht, h⟩, fun h => h.2⟩
    · rw [ha u hu, P.all, hk.2 u hu, hn]
  allNodup := han
  idleAlive := by
    intro u hu
    rw [hi] at hu
    obtain rfl | hut := eq_or_ne u t
    · rw [hk.1]
      exact hid hu
    · rw [hk.2 u hut]
      exact P.idleAlive u hu

theorem Placed.lt (P : Placed A r sl k home) {t : ThreadPtr} (h : (k.thr t).status ≠ .dying) :
    t < k.nextThread := by
  by_contra hn
  exact h (P.unborn t (not_lt.mp hn))

/-- What the queues do not depend on may change. -/
theorem Placed.congr (P : Placed A r sl k home) (hk : ∀ u, (k'.thr u).status = (k.thr u).status)
    (hst : ∀ u, r ≠ some u → k'.stack u = k.stack u) (hi : k'.idleThread = k.idleThread)
    (hn : k'.nextThread = k.nextThread) (ha : k'.allList = k.allList) :
    Placed A r sl k' home where
  running := fun u => by rw [hk, P.running]
  stands := by
    intro u
    rw [hk, hi]
    by_cases hu : r = some u
    · have hrun := (P.running u).mpr hu
      have hs := P.stands u
      rw [hrun] at hs ⊢
      exact hs
    · rw [hst u hu]
      exact P.stands u
  unborn := fun u hu => by
    rw [hk]
    exact P.unborn u (hn ▸ hu)
  parked := by
    intro u hu
    rw [hk] at hu
    rw [hst u fun hr => by simp [(P.running u).mpr hr] at hu]
    exact P.parked u hu
  sleeping := by
    intro u
    rw [hk, P.sleeping]
    refine and_congr_right fun hu => ?_
    rw [hst u fun hr => by simp [(P.running u).mpr hr] at hu]
  sleepers := P.sleepers
  all := fun u => by rw [ha, P.all, hn, hk]
  allNodup := ha ▸ P.allNodup
  idleAlive := fun u hu => by
    rw [hk]
    exact P.idleAlive u (hi ▸ hu)

/-! ### Waking a thread -/

/-- What `thread_unblock` does to the threads. -/
structure Woken (cfg : Config) (t : ThreadPtr) (k k' : Kernel) : Prop where
  blocked : (k.thr t).status = .blocked
  restatus : Restatus k k' t .ready
  waitingLock : ∀ u, (k'.thr u).waitingLock = (k.thr u).waitingLock
  priority : cfg.mlfqs = false → ∀ u, (k'.thr u).priority = (k.thr u).priority
  others : ∀ u, u ≠ t → k'.thr u = k.thr u
  sync : SameSync k k'
  allList : k'.allList = k.allList
  sleepList : k'.sleepList = k.sleepList
  inRange : InRange cfg k → InRange cfg k'

/-- `mlfqs_update_priority` writes the priority of its thread only, and keeps it in range. -/
theorem mlfqsUpdatePriority_thr (k : Kernel) (t u : ThreadPtr) :
    ∃ p c, (mlfqsUpdatePriority k t).thr u = { k.thr u with priority := p, computed := c } ∧
      (p = (k.thr u).priority ∨ priMin ≤ p ∧ p ≤ priMax) := by
  unfold mlfqsUpdatePriority
  split
  · exact ⟨_, _, rfl, .inl rfl⟩
  · obtain rfl | hu := eq_or_ne u t
    · exact ⟨_, _, by simp; rfl, .inr (mlfqsPriority_mem (k.thr u).recentCpu (k.thr u).nice)⟩
    · exact ⟨_, _, by simp [hu]; rfl, .inl rfl⟩

theorem mlfqsUpdatePriority_of_ne (k : Kernel) {t u : ThreadPtr} (hu : u ≠ t) :
    (mlfqsUpdatePriority k t).thr u = k.thr u := by
  unfold mlfqsUpdatePriority
  split
  · rfl
  · simp [hu]

theorem mlfqsUpdatePriority_rest (k : Kernel) (t : ThreadPtr) :
    ∃ thr, mlfqsUpdatePriority k t = k.setThr thr := by
  unfold mlfqsUpdatePriority
  split
  · exact ⟨k.thr, rfl⟩
  · exact ⟨_, rfl⟩

theorem mlfqsUpdatePriority_inRange (h : InRange cfg k) (t : ThreadPtr) :
    InRange cfg (mlfqsUpdatePriority k t) := by
  intro hm u
  obtain ⟨p, c, e, rfl | hp⟩ := mlfqsUpdatePriority_thr k t u
  · rw [e]
    exact ⟨(h hm u).priority, (h hm u).basePriority⟩
  · rw [e]
    exact ⟨hp, (h hm u).basePriority⟩

theorem threadUnblock_woken {t : ThreadPtr} (h : threadUnblock cfg fuel k t = some k') :
    Woken cfg t k k' := by
  have hs := threadUnblock_sameSync h
  unfold threadUnblock at h
  split at h
  case isFalse => cases h
  case isTrue hb =>
    dsimp only at h
    -- the status, and what the MLFQS makes of the priority
    have hmod : Restatus k ((k.modify t fun th => { th with status := .ready }).record
        (.unblock t)) t .ready :=
      k.modify_restatus t fun th => { th with status := .ready }
    split at h
    case isTrue hm =>
      obtain ⟨e, rfl⟩ := mlfqsInsert_eq h
      obtain ⟨thr, hr⟩ := mlfqsUpdatePriority_rest
        ((k.modify t fun th => { th with status := .ready }).record (.unblock t)) t
      have hthr := mlfqsUpdatePriority_thr
        ((k.modify t fun th => { th with status := .ready }).record (.unblock t)) t
      refine ⟨hb.2, ⟨?_, fun u hu => ?_⟩, fun u => ?_, fun hf => ?_, fun u hu => ?_, hs, ?_, ?_,
        fun hi => ?_⟩
      · obtain ⟨p, c, e, -⟩ := hthr t
        rw [Kernel.record_thr, Kernel.setElems_thr, e]
        exact hmod.1
      · obtain ⟨p, c, e, -⟩ := hthr u
        rw [Kernel.record_thr, Kernel.setElems_thr, e]
        exact hmod.2 u hu
      · obtain ⟨p, c, e, -⟩ := hthr u
        rw [Kernel.record_thr, Kernel.setElems_thr, e]
        obtain rfl | hu := eq_or_ne u t <;> simp [*]
      · rw [hm] at hf
        cases hf
      · rw [Kernel.record_thr, Kernel.setElems_thr, mlfqsUpdatePriority_of_ne _ hu]
        simp [hu]
      · rw [hr]
        rfl
      · rw [hr]
        rfl
      · have hi' : InRange cfg ((k.modify t fun th => { th with status := .ready }).record
            (.unblock t)) := by
          intro hm u
          obtain rfl | hu := eq_or_ne u t
          · exact (hi hm u).of_eq (by simp) (by simp)
          · simpa [hu] using hi hm u
        exact mlfqsUpdatePriority_inRange hi' t
    case isFalse hm =>
      obtain ⟨e, rfl⟩ := insertByPriority_eq h
      refine ⟨hb.2, hmod, fun u => ?_, fun _ u => ?_, fun u hu => by simp [hu], hs, rfl, rfl,
        fun hi hm' => absurd hm' hm⟩
      · obtain rfl | hu := eq_or_ne u t <;> simp [*]
      · obtain rfl | hu := eq_or_ne u t <;> simp [*]

/-- A blocked thread that is in no list any more becomes ready. -/
theorem Placed.woken {t : ThreadPtr} {l : ListPtr} (P : Placed A r sl k home)
    (h : Woken cfg t k k') (hl : A l) (hi : k.idleThread ≠ some t) :
    Placed A r (sl.erase t) k' (Function.update home t (some l)) := by
  have hd : (k.thr t).status ≠ .dying := by simp [h.blocked]
  have hrt : r ≠ some t := by
    rw [Ne, ← P.running, h.blocked]
    exact nofun
  have hs : k'.stack = k.stack := congrArg Sync.stack h.sync.1
  have ha : t ∈ k'.allList := by
    rw [h.allList, P.all]
    exact ⟨P.lt hd, hd⟩
  refine P.update h.restatus (fun u _ => by rw [hs]) (congrArg Sync.idleThread h.sync.1)
    h.sync.nextThread (P.lt hd) (fun u _ => Iff.rfl) ?_ (.inr ⟨hi, l, hl, rfl⟩) nofun
    (fun u hu => List.mem_erase_of_ne hu) ?_ (P.sleepers.erase t) (fun u _ => by rw [h.allList])
    (iff_of_true ha nofun) (h.allList ▸ P.allNodup) (fun _ => nofun)
  · simpa using hrt
  · exact iff_of_false (P.sleepers.not_mem_erase) nofun

/-- **`thread_unblock`** moves a thread from outside the lists into a ready queue. -/
theorem Lists.threadUnblock {t : ThreadPtr} (L : Lists cfg srt k q (Function.update home t none))
    (P : Placed (ListPtr.IsReady cfg) r sl k home) (hr : InRange cfg k)
    (hi : k.idleThread ≠ some t) (h : threadUnblock cfg fuel k t = some k') :
    ∃ q' home', Lists cfg srt k' q' home' ∧
      Placed (ListPtr.IsReady cfg) r (sl.erase t) k' home' := by
  have hw := threadUnblock_woken h
  unfold Pintos.threadUnblock at h
  split at h
  case isFalse => cases h
  case isTrue hb =>
    dsimp only at h
    set k₁ := (k.modify t fun th => { th with status := .ready }).record (.unblock t)
    have hpr : ∀ u, (k₁.thr u).priority = (k.thr u).priority := by
      intro u
      obtain rfl | hu := eq_or_ne u t <;> simp [k₁, *]
    have hwl : ∀ u, (k₁.thr u).waitingLock = (k.thr u).waitingLock := by
      intro u
      obtain rfl | hu := eq_or_ne u t <;> simp [k₁, *]
    have L₁ : Lists cfg srt k₁ q (Function.update home t none) :=
      L.congr rfl hwl rfl fun _ u _ _ => hpr u
    have hr₁ : InRange cfg k₁ := by
      intro hm u
      refine (hr hm u).of_eq (hpr u) ?_
      obtain rfl | hu := eq_or_ne u t <;> simp [k₁, *]
    suffices hl : ∃ q' l, l.IsReady cfg ∧
        Lists cfg srt k' q' (Function.update (Function.update home t none) t (some l)) by
      obtain ⟨q', l, hl, L'⟩ := hl
      rw [Function.update_idem] at L'
      exact ⟨q', _, L', P.woken hw hl hi⟩
    split at h
    case isTrue hm =>
      obtain ⟨thr, he⟩ := mlfqsUpdatePriority_rest k₁ t
      have L₂ : Lists cfg srt (mlfqsUpdatePriority k₁ t) q (Function.update home t none) := by
        refine L₁.congr (by rw [he]; rfl) (fun u => ?_) (by rw [he]; rfl) ?_
        · obtain ⟨p, c, e, -⟩ := mlfqsUpdatePriority_thr k₁ t u
          rw [e]
        · intro _ u l hu
          have hut : u ≠ t := by
            rintro rfl
            simp at hu
          rw [mlfqsUpdatePriority_of_ne k₁ hut]
      refine L₂.enqueued fuel (mlfqsUpdatePriority_inRange hr₁ t) (by simp) ?_
      rw [if_pos hm]
      exact h
    case isFalse hm =>
      refine L₁.enqueued fuel hr₁ (by simp) ?_
      rw [if_neg hm]
      exact h

/-! ### The switch -/

/-- The next thread is a ready one, and one of highest priority, or it is the idle thread for
lack of a ready one. -/
def Chosen (srt : Prop) (k : Kernel) (n : ThreadPtr) : Prop :=
  ((k.thr n).status = .ready ∧ k.idleThread ≠ some n ∧
    (srt → ∀ u, (k.thr u).status = .ready → k.idleThread ≠ some u →
      (k.thr u).priority ≤ (k.thr n).priority)) ∨
  (k.idleThread = some n ∧ (k.thr n).status ≠ .dying ∧
    ∀ u, (k.thr u).status = .ready → k.idleThread = some u)

/-- What `schedule` does to the threads. -/
structure Dispatched (srt : Prop) (k k' : Kernel) : Prop where
  sync : k'.sync = k.sync
  thr : ∀ u, k'.thr u = { k.thr u with status := (k'.thr u).status }
  restatus : Restatus k k' k'.cur .running
  allList : k'.allList = k.allList
  sleepList : k'.sleepList = k.sleepList
  log : k'.log = .dispatch k'.cur :: k.log
  chosen : Chosen srt k k'.cur

/-- A thread in a ready queue is a ready thread other than the idle thread. -/
theorem Placed.ready_of_home (P : Placed A r sl k home) {t : ThreadPtr} {l : ListPtr}
    (ht : home t = some l) (hl : ∀ p, l ≠ .semaWaiters p) :
    (k.thr t).status = .ready ∧ k.idleThread ≠ some t ∧ A l := by
  have hs := P.stands t
  rw [ht] at hs
  generalize hst : (k.thr t).status = st at hs
  cases st with
  | ready =>
      obtain ⟨-, hs⟩ | ⟨hi, l', hl', hs⟩ := hs
      · cases hs
      · cases hs
        exact ⟨rfl, hi, hl'⟩
  | blocked =>
      have hw : some l = waitsOn (k.stack t) := hs
      unfold waitsOn at hw
      split at hw
      · cases hw
        exact absurd rfl (hl _)
      · cases hw
  | running | dying => cases hs

/-- A ready thread other than the idle thread is in a ready queue. -/
theorem Placed.home_of_ready (P : Placed A r sl k home) {t : ThreadPtr}
    (ht : (k.thr t).status = .ready) (hi : k.idleThread ≠ some t) :
    ∃ l, A l ∧ home t = some l := by
  have hs := P.stands t
  rw [ht] at hs
  obtain ⟨hi', -⟩ | ⟨-, hs⟩ := hs
  · exact absurd hi' hi
  · exact hs

/-- The queues above the highest one that is not empty are empty. -/
theorem mlfqsHighest_spec {e : Links ListPtr ThreadPtr} : ∀ (n : ℕ),
    (∀ i, mlfqsHighest e n = some i → i < n ∧ e.listEmpty (.mlfqsList i) = false ∧
      ∀ j, i < j → j < n → e.listEmpty (.mlfqsList j) = true) ∧
    (mlfqsHighest e n = none → ∀ j, j < n → e.listEmpty (.mlfqsList j) = true)
  | 0 => ⟨nofun, fun _ _ h => absurd h (Nat.not_lt_zero _)⟩
  | n + 1 => by
      obtain ⟨hs, hn⟩ := mlfqsHighest_spec (e := e) n
      rw [mlfqsHighest]
      split
      case isTrue he =>
        refine ⟨fun i hi => ?_, fun hi j hj => ?_⟩
        · obtain ⟨hlt, hne, hab⟩ := hs i hi
          refine ⟨hlt.trans (Nat.lt_succ_self n), hne, fun j hj hjn => ?_⟩
          obtain hjn | rfl := Nat.lt_succ_iff_lt_or_eq.mp hjn
          · exact hab j hj hjn
          · exact he
        · obtain hjn | rfl := Nat.lt_succ_iff_lt_or_eq.mp hj
          · exact hn hi j hjn
          · exact he
      case isFalse he =>
        refine ⟨fun i hi => ?_, nofun⟩
        obtain rfl := Option.some.inj hi
        exact ⟨Nat.lt_succ_self n, by simpa using he, fun j hj hjn => by omega⟩

/-- The idle thread is in no list. -/
def IdleFree (k : Kernel) : Prop :=
  ∀ t, k.idleThread = some t → waitsOn (k.stack t) = none ∧ ¬ Sleeps (k.stack t)

theorem IdleFree.of_sync (h : IdleFree k') (hs : k'.sync = k.sync) : IdleFree k := by
  intro t ht
  have hst : k'.stack = k.stack := congrArg Sync.stack hs
  rw [← hst]
  exact h t ((congrArg Sync.idleThread hs).trans ht)

theorem Placed.home_idle (P : Placed A r sl k home) (hf : IdleFree k) {t : ThreadPtr}
    (hi : k.idleThread = some t) : home t = none := by
  have hs := P.stands t
  generalize (k.thr t).status = st at hs
  cases st with
  | ready =>
      obtain ⟨-, hs⟩ | ⟨hi', -⟩ := hs
      · exact hs
      · exact absurd hi hi'
  | blocked => exact hs.trans (hf t hi).1
  | running | dying => exact hs

/-- The thread that `next_thread_to_run` returns is out of the lists. -/
theorem Lists.nextThreadToRun (L : Lists cfg srt k q home)
    (P : Placed (ListPtr.IsReady cfg) none sl k home) (hf : IdleFree k) {n : ThreadPtr}
    {e : Links ListPtr ThreadPtr} (h : nextThreadToRun cfg k = some (n, e)) :
    (∃ q', Lists cfg srt (k.setElems e) q' (Function.update home n none)) ∧
      Chosen srt k n := by
  have hpop : ∀ {l}, l.IsReady cfg → popThread k.elems l = some (n, e) →
      ∃ ys, q l = some (n :: ys) ∧ home n = some l ∧
        Lists cfg srt (k.setElems e) (Function.update q l (some ys))
          (Function.update home n none) := by
    intro l hl hp
    obtain ⟨xs, hq⟩ := L.ready l hl
    obtain ⟨ys, rfl, hh, L'⟩ := L.popped hq (by rintro m rfl; cases hl) hp
    exact ⟨ys, hq, hh, L'⟩
  have hidle : k.idleThread = some n → e = k.elems →
      ∃ q', Lists cfg srt (k.setElems e) q' (Function.update home n none) := by
    rintro hi rfl
    refine ⟨q, ?_⟩
    rw [← P.home_idle hf hi, Function.update_eq_self]
    exact L.congr rfl (fun _ => rfl) rfl fun _ _ _ _ => rfl
  -- with the MLFQS a ready thread is in one of the 64 queues
  have hqueue : cfg.mlfqs = true → ∀ {u}, (k.thr u).status = .ready → k.idleThread ≠ some u →
      ∃ j : ℕ, j < 64 ∧ home u = some (.mlfqsList j) ∧ k.elems.listEmpty (.mlfqsList j) = false := by
    intro hm u hu hiu
    obtain ⟨l, hl, hh⟩ := P.home_of_ready hu hiu
    obtain ⟨xs, hq⟩ := L.ready l hl
    cases hl with
    | readyList hf =>
        rw [hm] at hf
        cases hf
    | @mlfqsList i _ h0 h1 =>
        lift i to ℕ using h0
        refine ⟨i, by unfold priMax at h1; omega, hh, ?_⟩
        rw [Bool.eq_false_iff, Ne, L.listEmpty hq]
        exact fun hall => hall u hh
  unfold Pintos.nextThreadToRun at h
  split at h
  case isTrue hm =>
    unfold mlfqsNextThreadToRun at h
    split at h
    case h_1 i hi =>
      obtain ⟨hlt, -, hab⟩ := (mlfqsHighest_spec 64).1 i hi
      have hl : (ListPtr.mlfqsList i).IsReady cfg :=
        .mlfqsList hm (Int.natCast_nonneg i) (by unfold priMax; omega)
      obtain ⟨ys, -, hh, L'⟩ := hpop hl h
      obtain ⟨hst, hni, -⟩ := P.ready_of_home hh (by rintro _ ⟨⟩)
      refine ⟨⟨_, L'⟩, .inl ⟨hst, hni, fun hsrt u hu hiu => ?_⟩⟩
      obtain ⟨j, hj, huj, hne⟩ := hqueue hm hu hiu
      rw [L.bucket hsrt hm u j huj, L.bucket hsrt hm n i hh]
      by_contra hij
      rw [hab j (by omega) hj] at hne
      cases hne
    case h_2 hn =>
      obtain ⟨t, hi, hte⟩ := Option.map_eq_some_iff.mp h
      cases hte
      refine ⟨hidle hi rfl, .inr ⟨hi, P.idleAlive _ hi, fun u hu => ?_⟩⟩
      by_contra hiu
      obtain ⟨j, hj, -, hne⟩ := hqueue hm hu hiu
      rw [(mlfqsHighest_spec 64).2 hn j hj] at hne
      cases hne
  case isFalse hm =>
    have hl : ListPtr.readyList.IsReady cfg := .readyList (by simpa using hm)
    have hall : ∀ {u}, (k.thr u).status = .ready → k.idleThread ≠ some u →
        home u = some .readyList := by
      intro u hu hiu
      obtain ⟨l, hl, hh⟩ := P.home_of_ready hu hiu
      cases hl with
      | readyList => exact hh
      | mlfqsList hm' => exact absurd hm' hm
    split at h
    case isTrue he =>
      obtain ⟨t, hi, hte⟩ := Option.map_eq_some_iff.mp h
      cases hte
      refine ⟨hidle hi rfl, .inr ⟨hi, P.idleAlive _ hi, fun u hu => ?_⟩⟩
      by_contra hiu
      obtain ⟨xs, hq⟩ := L.ready _ hl
      exact (L.listEmpty hq).mp he u (hall hu hiu)
    case isFalse he =>
      obtain ⟨ys, hq, hh, L'⟩ := hpop hl h
      obtain ⟨hst, hni, -⟩ := P.ready_of_home hh (by rintro _ ⟨⟩)
      refine ⟨⟨_, L'⟩, .inl ⟨hst, hni, fun hsrt u hu hiu => ?_⟩⟩
      have hmem : u ∈ n :: ys := (L.homes _ _ hq u).mpr (hall hu hiu)
      obtain rfl | hmem := List.mem_cons.mp hmem
      · exact le_rfl
      · exact (List.pairwise_cons.mp (L.sorted hsrt (by simpa using hm) _ hq)).1 u hmem

/-- **`schedule`**: the next thread leaves its ready queue and runs. -/
theorem Lists.schedule (L : Lists cfg srt k q home)
    (P : Placed (ListPtr.IsReady cfg) none sl k home) (hf : IdleFree k)
    (h : schedule cfg k = some k') :
    Dispatched srt k k' ∧ ∃ q' home', Lists cfg srt k' q' home' ∧
      Placed (ListPtr.IsReady cfg) (some k'.cur) sl k' home' := by
  obtain ⟨n, e, hn, hg, rfl⟩ := by simpa [Pintos.schedule, Option.bind_eq_some_iff] using h
  obtain ⟨⟨q', L'⟩, hnext⟩ := L.nextThreadToRun P hf hn
  set k' := threadScheduleTail ({ k with elems := e, cur := n }.record (.dispatch n))
  have hthr : ∀ u, k'.thr u = { k.thr u with status := (k'.thr u).status } := by
    intro u
    obtain rfl | hu := eq_or_ne u n
    · simp [k', threadScheduleTail]
    · simp [k', threadScheduleTail, hu]
  have hre : Restatus k k' n .running := by
    refine ⟨by simp [k', threadScheduleTail], fun u hu => ?_⟩
    simp [k', threadScheduleTail, hu]
  have hd : (k.thr n).status ≠ .dying := by
    obtain ⟨hs, -⟩ | ⟨-, hs, -⟩ := hnext
    · rw [hs]
      rintro ⟨⟩
    · exact hs
  have hsl : n ∉ sl := by
    rw [P.sleeping]
    obtain ⟨hs, -⟩ | ⟨hi, -⟩ := hnext
    · rw [hs]
      rintro ⟨⟨⟩, -⟩
    · exact fun h => (hf n hi).2 h.2
  refine ⟨⟨rfl, hthr, hre, rfl, rfl, rfl, hnext⟩, q', Function.update home n none, ?_, ?_⟩
  · exact L'.congr rfl (fun u => by rw [hthr]; rfl) rfl fun _ u _ _ => by rw [hthr]; rfl
  · refine P.update hre (fun _ _ => rfl) rfl rfl (P.lt hd) ?_ (iff_of_true rfl rfl) rfl
      (by rintro ⟨⟩) (fun _ _ => Iff.rfl) (iff_of_false hsl (by rintro ⟨⟨⟩, -⟩)) P.sleepers
      (fun _ _ => Iff.rfl) ?_ P.allNodup (fun _ => by rintro ⟨⟩)
    · intro u hu
      simp only [reduceCtorEq, iff_false, Option.some.injEq]
      exact hu.symm
    · refine iff_of_true ?_ (by rintro ⟨⟩)
      exact (P.all n).mpr ⟨P.lt hd, hd⟩

/-! ### Giving up the processor -/

/-- The running thread gives up the processor with status `s`, which changes
nothing of the other threads. -/
structure Leaves (k k' : Kernel) (s : ThreadStatus) : Prop where
  thr : k'.thr = Function.update k.thr k.cur { k.thr k.cur with status := s }
  sync : k'.sync = k.sync
  cur : k'.cur = k.cur
  log : k'.log = k.log ∨ ∃ i, k'.log = .insert k.cur i :: k.log
  sleepList : k'.sleepList = k.sleepList

theorem Leaves.restatus {s : ThreadStatus} (h : Leaves k k' s) : Restatus k k' k.cur s := by
  refine ⟨by simp [h.thr], fun u hu => by simp [h.thr, hu]⟩

theorem Leaves.priority {s : ThreadStatus} (h : Leaves k k' s) (u : ThreadPtr) :
    (k'.thr u).priority = (k.thr u).priority := by
  obtain rfl | hu := eq_or_ne u k.cur <;> simp [h.thr, *]

theorem Leaves.waitingLock {s : ThreadStatus} (h : Leaves k k' s) (u : ThreadPtr) :
    (k'.thr u).waitingLock = (k.thr u).waitingLock := by
  obtain rfl | hu := eq_or_ne u k.cur <;> simp [h.thr, *]

/-- The running thread switches to the next one, after it has taken status `s`. -/
def Switches (srt : Prop) (k k' : Kernel) (s : ThreadStatus) : Prop :=
  ∃ k₁, Leaves k k₁ s ∧ Dispatched srt k₁ k'

theorem Switches.sleepList {s : ThreadStatus} (h : Switches srt k k' s) :
    k'.sleepList = k.sleepList := by
  obtain ⟨k₁, hl, hd⟩ := h
  exact hd.sleepList.trans hl.sleepList

theorem Placed.cur_running (P : Placed A (some k.cur) sl k home) :
    (k.thr k.cur).status = .running :=
  (P.running _).mpr rfl

theorem Placed.cur_lt (P : Placed A (some k.cur) sl k home) : k.cur < k.nextThread := by
  refine P.lt ?_
  rw [P.cur_running]
  exact nofun

theorem Placed.home_cur (P : Placed A (some k.cur) sl k home) : home k.cur = none := by
  have hs := P.stands k.cur
  rwa [P.cur_running] at hs

/-- The running thread takes another status. -/
theorem Placed.leave {s : ThreadStatus} {o : Option ListPtr} {sl' : List ThreadPtr}
    (P : Placed A (some k.cur) sl k home) (hk : Leaves k k' s) (hr : s ≠ .running)
    (hs : Stands A (k.idleThread = some k.cur) (k.stack k.cur) o s)
    (hp : s = .blocked → ∃ f fs, k.stack k.cur = f :: fs ∧ f.Parks)
    (hsl : ∀ u, u ≠ k.cur → (u ∈ sl' ↔ u ∈ sl))
    (hslt : k.cur ∈ sl' ↔ s = .blocked ∧ Sleeps (k.stack k.cur)) (hsn : sl'.Nodup)
    (ha : ∀ u, u ≠ k.cur → (u ∈ k'.allList ↔ u ∈ k.allList))
    (hat : k.cur ∈ k'.allList ↔ s ≠ .dying) (han : k'.allList.Nodup)
    (hid : k.idleThread = some k.cur → s ≠ .dying) :
    Placed A none sl' k' (Function.update home k.cur o) := by
  have hst : k'.stack = k.stack := congrArg Sync.stack hk.sync
  refine P.update hk.restatus (fun u _ => by rw [hst]) (congrArg Sync.idleThread hk.sync)
    (congrArg Sync.nextThread hk.sync) P.cur_lt ?_ (iff_of_false hr nofun) (by rwa [hst])
    (by rwa [hst]) hsl (by rwa [hst]) hsn ha hat han hid
  intro u hu
  exact iff_of_false nofun fun h => hu (Option.some.inj h).symm

/-- `thread_yield` up to `schedule`: the thread goes to a ready queue, unless it is the idle
thread. -/
theorem Lists.yieldInsert {k₁ : Kernel} (L : Lists cfg srt k q home)
    (P : Placed (ListPtr.IsReady cfg) (some k.cur) sl k home) (hr : InRange cfg k)
    (h : yieldInsert cfg fuel k = some k₁) :
    Leaves k (k₁.modify k₁.cur fun th => { th with status := .ready }) .ready ∧ ∃ q' home',
      Lists cfg srt (k₁.modify k₁.cur fun th => { th with status := .ready }) q' home' ∧
        Placed (ListPtr.IsReady cfg) none sl
          (k₁.modify k₁.cur fun th => { th with status := .ready }) home' := by
  have hins : (∃ e ev, k₁ = { k.setElems e with log := ev } ∧
      (ev = k.log ∨ ∃ i, ev = .insert k.cur i :: k.log)) ∧
      ∃ q' o, Lists cfg srt k₁ q' (Function.update home k.cur o) ∧
        Stands (ListPtr.IsReady cfg) (k.idleThread = some k.cur) (k.stack k.cur) o .ready := by
    unfold Pintos.yieldInsert at h
    split at h
    case isTrue hi =>
      cases h
      refine ⟨⟨k.elems, k.log, rfl, .inl rfl⟩, q, none, ?_, .inl ⟨hi, rfl⟩⟩
      rwa [← P.home_cur, Function.update_eq_self]
    case isFalse hi =>
      obtain ⟨q', l, hl, L'⟩ := L.enqueued fuel hr P.home_cur h
      refine ⟨?_, q', some l, L', .inr ⟨hi, l, hl, rfl⟩⟩
      split at h
      · obtain ⟨e, rfl⟩ := mlfqsInsert_eq h
        exact ⟨e, _, rfl, .inr ⟨_, rfl⟩⟩
      · obtain ⟨e, rfl⟩ := insertByPriority_eq h
        exact ⟨e, _, rfl, .inl rfl⟩
  obtain ⟨⟨e, ev, rfl, hev⟩, q', o, L₁, hs⟩ := hins
  have hsync : ev.filter Event.isSema = k.log.filter Event.isSema := by
    obtain rfl | ⟨i, rfl⟩ := hev <;> rfl
  have hk : Leaves k ({ k.setElems e with log := ev }.modify k.cur
      fun th => { th with status := .ready }) .ready := by
    refine ⟨rfl, ?_, rfl, hev, rfl⟩
    simp only [Kernel.sync, Kernel.modify, Kernel.setElems, hsync]
  have hd : (k.thr k.cur).status ≠ .dying := by
    rw [P.cur_running]
    rintro ⟨⟩
  have hsl : k.cur ∉ sl := by
    rw [P.sleeping, P.cur_running]
    rintro ⟨⟨⟩, -⟩
  have P₁ := P.leave hk (by rintro ⟨⟩) hs (by rintro ⟨⟩) (fun _ _ => Iff.rfl)
    (iff_of_false hsl (by rintro ⟨⟨⟩, -⟩)) P.sleepers (fun _ _ => Iff.rfl)
    (iff_of_true ((P.all _).mpr ⟨P.cur_lt, hd⟩) (by rintro ⟨⟩)) P.allNodup
    (fun _ => by rintro ⟨⟩)
  exact ⟨hk, q', _, L₁.congr rfl hk.waitingLock rfl fun _ u _ _ => hk.priority u, P₁⟩

/-- **`thread_yield`** up to the switch. -/
theorem Lists.yieldCurrent (L : Lists cfg srt k q home)
    (P : Placed (ListPtr.IsReady cfg) (some k.cur) sl k home) (hr : InRange cfg k)
    (hf : IdleFree k') (h : yieldCurrent cfg fuel k = some k') :
    Switches srt k k' .ready ∧ ∃ q' home', Lists cfg srt k' q' home' ∧
      Placed (ListPtr.IsReady cfg) (some k'.cur) sl k' home' := by
  have hf := hf.of_sync (yieldCurrent_switched h).1
  obtain ⟨k₁, h₁, h₂⟩ := Option.bind_eq_some_iff.mp h
  obtain ⟨hk, q₁, home₁, L₁, P₁⟩ := L.yieldInsert P hr h₁
  obtain ⟨hd, q', home', L', P'⟩ := L₁.schedule P₁ (hf.of_sync hk.sync.symm) h₂
  exact ⟨⟨_, hk, hd⟩, q', home', L', P'⟩

/-- `thread_block`, when the thread is already in the list that its stack says. -/
theorem Lists.blockCurrent {sl' : List ThreadPtr}
    (L : Lists cfg srt k q (Function.update home k.cur (waitsOn (k.stack k.cur))))
    (P : Placed (ListPtr.IsReady cfg) (some k.cur) sl k home)
    (hp : ∃ f fs, k.stack k.cur = f :: fs ∧ f.Parks)
    (hsl : ∀ u, u ≠ k.cur → (u ∈ sl' ↔ u ∈ sl)) (hslt : k.cur ∈ sl' ↔ Sleeps (k.stack k.cur))
    (hsn : sl'.Nodup) (hf : IdleFree k') (h : blockCurrent cfg k = some k') :
    Switches srt k k' .blocked ∧ ∃ q' home', Lists cfg srt k' q' home' ∧
      Placed (ListPtr.IsReady cfg) (some k'.cur) sl' k' home' := by
  have hf := hf.of_sync (blockCurrent_switched h).1
  unfold Pintos.blockCurrent at h
  split at h
  case isFalse => cases h
  case isTrue =>
    have hk : Leaves k (k.modify k.cur fun th => { th with status := .blocked }) .blocked :=
      ⟨rfl, rfl, rfl, .inl rfl, rfl⟩
    have hd : (k.thr k.cur).status ≠ .dying := by
      rw [P.cur_running]
      exact nofun
    have P₁ := P.leave (o := waitsOn (k.stack k.cur)) hk nofun rfl (fun _ => hp) hsl
      (by rw [hslt]; exact ⟨fun h => ⟨rfl, h⟩, fun h => h.2⟩) hsn
      (fun _ _ => Iff.rfl) (iff_of_true ((P.all _).mpr ⟨P.cur_lt, hd⟩) nofun) P.allNodup
      (fun _ => nofun)
    have L₁ : Lists cfg srt (k.modify k.cur fun th => { th with status := .blocked }) q
        (Function.update home k.cur (waitsOn (k.stack k.cur))) :=
      L.congr rfl hk.waitingLock rfl fun _ u _ _ => hk.priority u
    obtain ⟨hd, q', home', L', P'⟩ := L₁.schedule P₁ hf h
    exact ⟨⟨_, hk, hd⟩, q', home', L', P'⟩

/-- `thread_exit`. -/
theorem Lists.exitCurrent (L : Lists cfg srt k q home)
    (P : Placed (ListPtr.IsReady cfg) (some k.cur) sl k home) (hi : k.idleThread ≠ some k.cur)
    (hf : IdleFree k') (h : exitCurrent cfg k = some k') :
    Switches srt k k' .dying ∧ ∃ q' home', Lists cfg srt k' q' home' ∧
      Placed (ListPtr.IsReady cfg) (some k'.cur) sl k' home' := by
  have hf := hf.of_sync (exitCurrent_switched h).1
  unfold Pintos.exitCurrent at h
  set k₁ := { k with intrOn := false, allList := k.allList.erase k.cur }.modify k.cur
    fun th => { th with status := .dying }
  have hk : Leaves k k₁ .dying := ⟨rfl, rfl, rfl, .inl rfl, rfl⟩
  have hsl : k.cur ∉ sl := by
    rw [P.sleeping, P.cur_running]
    exact fun h => nomatch h.1
  have P₁ := P.leave (o := none) hk nofun rfl nofun (fun _ _ => Iff.rfl) (iff_of_false hsl nofun)
    P.sleepers (fun u hu => List.mem_erase_of_ne hu)
    (iff_of_false P.allNodup.not_mem_erase fun h => h rfl) (P.allNodup.erase _)
    (fun h => absurd h hi)
  rw [← P.home_cur, Function.update_eq_self] at P₁
  have L₁ : Lists cfg srt k₁ q home :=
    L.congr rfl hk.waitingLock rfl fun _ u _ _ => hk.priority u
  obtain ⟨hd, q', home', L', P'⟩ := L₁.schedule P₁ hf h
  exact ⟨⟨_, hk, hd⟩, q', home', L', P'⟩

/-! ### Semaphores -/

/-- Thread `t` is blocked in `sema_down` on `p`. -/
def Waiting (k : Kernel) (p : SemaPtr) (t : ThreadPtr) : Prop :=
  (k.thr t).status = .blocked ∧ waitsOn (k.stack t) = some (.semaWaiters p)

instance (k : Kernel) (p : SemaPtr) (t : ThreadPtr) : Decidable (Waiting k p t) :=
  inferInstanceAs (Decidable (_ ∧ _))

theorem Waiting.stack {p : SemaPtr} {t : ThreadPtr} (h : Waiting k p t) :
    ∃ old fs, k.stack t = .semaDownWait p old :: fs := by
  obtain ⟨-, h⟩ := h
  unfold waitsOn at h
  split at h
  case h_1 p' old fs e =>
    cases h
    exact ⟨old, fs, e⟩
  case h_2 => cases h

theorem Waiting.not_sleeps {p : SemaPtr} {t : ThreadPtr} (h : Waiting k p t) :
    ¬ Sleeps (k.stack t) := by
  obtain ⟨old, fs, e⟩ := h.stack
  rintro ⟨old', gs, e'⟩
  rw [e] at e'
  cases e'

theorem Placed.waiting_iff (P : Placed A r sl k home) {p : SemaPtr} (hA : ¬ A (.semaWaiters p))
    (t : ThreadPtr) : home t = some (.semaWaiters p) ↔ Waiting k p t := by
  have hs := P.stands t
  unfold Waiting
  generalize (k.thr t).status = st at hs
  cases st with
  | ready =>
      refine iff_of_false ?_ (fun h => nomatch h.1)
      obtain ⟨-, hs⟩ | ⟨-, l, hl, hs⟩ := hs
      · rw [hs]
        exact nofun
      · rw [hs]
        rintro ⟨⟩
        exact hA hl
  | blocked => simp [show home t = waitsOn (k.stack t) from hs]
  | running | dying =>
      refine iff_of_false ?_ (fun h => nomatch h.1)
      rw [show home t = none from hs]
      exact nofun

theorem not_isReady_semaWaiters (p : SemaPtr) : ¬ (ListPtr.semaWaiters p).IsReady cfg :=
  nofun

/-- A thread blocks on a semaphore. -/
theorem Lists.semaDownTest {p : SemaPtr} {old : Bool} (L : Lists cfg srt k q home)
    (P : Placed (ListPtr.IsReady cfg) (some k.cur) sl k home) (hp : k.Known p)
    (hf : IdleFree k') (hv : k.semaValue p = 0)
    (h : semaDownTest cfg fuel k p old = some k') :
    (∃ e, Switches srt ((k.setElems e).push (.semaDownWait p old)) k' .blocked) ∧
      ∃ q' home', Lists cfg srt k' q' home' ∧
        Placed (ListPtr.IsReady cfg) (some k'.cur) sl k' home' := by
  unfold Pintos.semaDownTest at h
  rw [if_pos hv] at h
  obtain ⟨k₁, h₁, h₂⟩ := Option.bind_eq_some_iff.mp h
  obtain ⟨xs, hq⟩ := L.semas p hp
  obtain ⟨q', L₁⟩ := L.inserted hq nofun nofun P.home_cur h₁
  obtain ⟨e, rfl⟩ := insertByPriority_eq h₁
  have hst : ((k.setElems e).push (.semaDownWait p old)).stack k.cur =
      .semaDownWait p old :: k.stack k.cur := by simp
  have P₂ : Placed (ListPtr.IsReady cfg) (some k.cur) sl
      ((k.setElems e).push (.semaDownWait p old)) home := by
    refine P.congr (fun _ => rfl) (fun u hu => ?_) rfl rfl rfl
    have hu : u ≠ k.cur := fun h => hu (h ▸ rfl)
    simp [hu]
  have L₂ : Lists cfg srt ((k.setElems e).push (.semaDownWait p old)) q'
      (Function.update home k.cur (some (.semaWaiters p))) :=
    L₁.congr rfl (fun _ => rfl) rfl fun _ _ _ _ => rfl
  have hw : waitsOn (((k.setElems e).push (.semaDownWait p old)).stack k.cur) =
      some (.semaWaiters p) := by
    rw [hst]
    rfl
  rw [← hw] at L₂
  have hns : k.cur ∉ sl := by
    rw [P.sleeping, P.cur_running]
    exact fun h => nomatch h.1
  obtain ⟨hs, q'', home', L', P'⟩ := L₂.blockCurrent P₂ ⟨_, _, hst, .semaDownWait⟩
    (fun _ _ => Iff.rfl) (iff_of_false hns fun ⟨_, _, e'⟩ => nomatch hst.symm.trans e')
    P.sleepers hf h₂
  exact ⟨⟨e, hs⟩, q'', home', L', P'⟩

/-- A thread that waits on `p` is woken, if there is one. -/
def WakesWaiter (cfg : Config) (p : SemaPtr) (k k' : Kernel) : Prop :=
  (k' = k ∧ ∀ t, ¬ Waiting k p t) ∨ ∃ t, Waiting k p t ∧ Woken cfg t k k'

/-- `sema_up` wakes a thread that waits, if there is one. -/
theorem Lists.semaWake {p : SemaPtr} (L : Lists cfg srt k q home)
    (P : Placed (ListPtr.IsReady cfg) r sl k home) (hr : InRange cfg k) (hp : k.Known p)
    (hf : IdleFree k) (h : semaWake cfg fuel k p = some k') :
    WakesWaiter cfg p k k' ∧ ∃ q' home', Lists cfg srt k' q' home' ∧
      Placed (ListPtr.IsReady cfg) r sl k' home' := by
  obtain ⟨xs, hq⟩ := L.semas p hp
  unfold Pintos.semaWake at h
  split at h
  case isTrue he =>
    cases h
    refine ⟨.inl ⟨rfl, fun t ht => ?_⟩, q, home, L, P⟩
    exact (L.listEmpty hq).mp he t ((P.waiting_iff (not_isReady_semaWaiters p) t).mpr ht)
  case isFalse =>
    obtain ⟨⟨t, e⟩, hpop, h⟩ := Option.bind_eq_some_iff.mp h
    obtain ⟨ys, -, hh, L₁⟩ := L.popped hq (by rintro _ ⟨⟩) hpop
    have ht := (P.waiting_iff (not_isReady_semaWaiters p) t).mp hh
    have hi : k.idleThread ≠ some t := by
      intro hi
      have hs := (hf t hi).1.symm.trans ht.2
      cases hs
    have P₁ : Placed (ListPtr.IsReady cfg) r sl (k.setElems e) home :=
      P.congr (fun _ => rfl) (fun _ _ => rfl) rfl rfl rfl
    obtain ⟨q', home', L', P'⟩ := L₁.threadUnblock P₁ hr hi h
    have hw := threadUnblock_woken h
    have hsl : t ∉ sl := fun hs => ht.not_sleeps ((P.sleeping t).mp hs).2
    rw [List.erase_of_not_mem hsl] at P'
    exact ⟨.inr ⟨t, ht, hw.1, hw.2, hw.3, hw.4, hw.5, hw.6, hw.7, hw.8, hw.9⟩, q', home', L', P'⟩

/-- The value of a semaphore after a `sema_up`. -/
def Kernel.raised (k : Kernel) (agent : Option ThreadPtr) (p : SemaPtr) : Kernel :=
  { k with semaValue := Function.update k.semaValue p ((k.semaValue p + 1) % 2 ^ 32) }.record
    (.up agent p)

theorem Lists.semaUpBody {p : SemaPtr} {agent : Option ThreadPtr} (L : Lists cfg srt k q home)
    (P : Placed (ListPtr.IsReady cfg) r sl k home) (hr : InRange cfg k) (hp : k.Known p)
    (hf : IdleFree k) (h : semaUpBody cfg fuel k agent p = some k') :
    (∃ k₁, WakesWaiter cfg p k k₁ ∧ k' = k₁.raised agent p) ∧
      ∃ q' home', Lists cfg srt k' q' home' ∧ Placed (ListPtr.IsReady cfg) r sl k' home' := by
  obtain ⟨k₁, h₁, h⟩ := Option.bind_eq_some_iff.mp h
  cases h
  obtain ⟨hw, q', home', L', P'⟩ := L.semaWake P hr hp hf h₁
  exact ⟨⟨k₁, hw, rfl⟩, q', home', L'.congr rfl (fun _ => rfl) rfl fun _ _ _ _ => rfl,
    P'.congr (fun _ => rfl) (fun _ _ => rfl) rfl rfl rfl⟩

/-! ### The lists of a run's first state -/

theorem ListPtr.initialised.not_beyond {l : ListPtr} (h : l.initialised cfg = true) :
    ¬ l.Beyond := by
  cases l with
  | mlfqsList i =>
      simp only [ListPtr.initialised, Bool.and_eq_true, decide_eq_true_eq] at h
      rintro (hi | hi)
      · exact absurd h.1.2 (not_le.mpr hi)
      · exact absurd h.2 (not_le.mpr hi)
  | _ => exact id

theorem bootElems_isList {l : ListPtr} (h : l.initialised cfg = true) :
    IsList (bootElems cfg) l [] := by
  have hb := ListPtr.initialised.not_beyond h
  refine ⟨⟨?_, ?_⟩, ?_, ?_, .nil⟩
  · exact if_pos h
  · exact if_pos h
  · exact if_neg hb
  · exact if_neg hb

theorem ListPtr.IsReady.initialised {l : ListPtr} (h : l.IsReady cfg) :
    l.initialised cfg = true := by
  cases h with
  | readyList => rfl
  | mlfqsList hm h0 h1 => simp [ListPtr.initialised, hm, h0, h1]

end Pintos
