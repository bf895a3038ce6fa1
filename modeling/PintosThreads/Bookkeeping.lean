/-
PintosThreads/Bookkeeping.lean

The books of the scheduler: statuses, ready queues, waiters lists and the list
of all threads tell the same story in every state of a run.

The invariant of the scheduler says where each thread is linked (`Placed`).
What a reader of the code can see of that is which threads are met in which
list (`InList`), and that is what the results here are stated in.

A thread that waits for a lock is where the story breaks: its one list element
is inserted into the list of the lock and then into that of the semaphore.
-/
import PintosThreads.SchedulerInv

namespace Pintos

open Intrusive

variable {cfg : Config} {fuel : ℕ} {srt : Prop} {ok : Kernel → Label → Prop}
variable {k k' : Kernel} {lab : Label} {l : ListPtr} {t : ThreadPtr}
variable {q : ListPtr → Option (List ThreadPtr)} {home : ThreadPtr → Option ListPtr}

/-! ### Who is met in which list -/

theorem Lists.inReady_iff (L : Lists cfg srt k q home) (hl : l.IsReady cfg) :
    k.elems.InList l t ↔ home t = some l := by
  obtain ⟨xs, hx⟩ := L.ready l hl
  exact L.inList hx t

theorem Lists.home_of_inSema {p : SemaPtr} (L : Lists cfg srt k q home)
    (h : k.elems.InList (.semaWaiters p) t) : home t = some (.semaWaiters p) := by
  by_cases hp : k.Known p
  · obtain ⟨xs, hx⟩ := L.semas p hp
    exact (L.inList hx t).mp h
  · -- the memory of the list has never been written
    obtain ⟨n, hn, -⟩ := Relation.TransGen.head'_iff.mp h
    rw [L.fresh p hp] at hn
    cases hn

theorem Lists.not_inLock {m : LockPtr} (L : Lists cfg srt k q home)
    (h : ∀ t, (k.thr t).waitingLock ≠ some m) : ¬ k.elems.InList (.lockWaiters m) t := by
  rw [(L.repr.isList (L.locks m h)).inList]
  exact List.not_mem_nil

/-- A thread whose list is that of a semaphore is blocked. -/
theorem Placed.blocked_of_home {r : Option ThreadPtr} {sl : List ThreadPtr} {p : SemaPtr}
    (P : Placed (ListPtr.IsReady cfg) r sl k home) (h : home t = some (.semaWaiters p)) :
    (k.thr t).status = .blocked ∧ waitsOn (k.stack t) = some (.semaWaiters p) := by
  have hs := P.stands t
  rw [h] at hs
  rcases e : (k.thr t).status <;> rw [e] at hs
  case ready =>
    rcases hs with ⟨-, hs⟩ | ⟨-, l, hl, hs⟩
    · cases hs
    · cases hs
      cases hl
  case blocked => exact ⟨rfl, hs.symm⟩
  all_goals cases hs

/-! ### The books -/

/-- **The books of the scheduler.** -/
structure Bookkeeping (cfg : Config) (k : Kernel) : Prop where
  running : ∀ t, (k.thr t).status = .running ↔ t = k.cur
  queues : ∀ l, l.IsReady cfg ∨ (∃ p, k.Known p ∧ l = .semaWaiters p) →
    ∃ xs, IsList k.elems l xs ∧ xs.Nodup
  ready : ∀ t, (k.thr t).status = .ready ∧ k.idleThread ≠ some t ↔
    ∃ l, l.IsReady cfg ∧ k.elems.InList l t
  once : ∀ t l l', l.IsReady cfg → l'.IsReady cfg → k.elems.InList l t → k.elems.InList l' t →
    l = l'
  blocked : ∀ t, (k.thr t).status = .blocked → ∀ l, l.IsReady cfg → ¬ k.elems.InList l t
  waiting : ∀ t p p', k.elems.InList (.semaWaiters p) t → k.elems.InList (.semaWaiters p') t →
    p = p'
  sleeping : ∀ t p, t ∈ k.sleepList → ¬ k.elems.InList (.semaWaiters p) t
  sleepers : k.sleepList.Nodup
  all : ∀ t, t ∈ k.allList ↔ t < k.nextThread ∧ (k.thr t).status ≠ .dying
  allNodup : k.allList.Nodup

theorem Scheduling.bookkeeping (S : Scheduling cfg srt k) : Bookkeeping cfg k := by
  obtain ⟨⟨q, home, L, P⟩, -⟩ := S
  have hready : ∀ t l, l.IsReady cfg → k.elems.InList l t →
      (k.thr t).status = .ready ∧ k.idleThread ≠ some t := by
    intro t l hl ht
    obtain ⟨hs, hi, -⟩ := P.ready_of_home ((L.inReady_iff hl).mp ht) fun p e => by
      subst e
      cases hl
    exact ⟨hs, hi⟩
  exact
    { running := fun t => (P.running t).trans ⟨fun h => (Option.some.inj h).symm, fun h => h ▸ rfl⟩
      queues := by
        intro l hl
        obtain ⟨xs, hx⟩ : ∃ xs, q l = some xs := by
          rcases hl with hl | ⟨p, hp, rfl⟩
          · exact L.ready l hl
          · exact L.semas p hp
        exact ⟨xs, L.repr.isList hx, (L.repr.isList hx).nodup⟩
      ready := by
        refine fun t => ⟨fun ⟨hs, hi⟩ => ?_, fun ⟨l, hl, ht⟩ => hready t l hl ht⟩
        have hst := P.stands t
        rw [hs] at hst
        obtain ⟨hi', -⟩ | ⟨-, l, hl, ht⟩ := hst
        · exact absurd hi' hi
        · exact ⟨l, hl, (L.inReady_iff hl).mpr ht⟩
      once := by
        intro t l l' hl hl' ht ht'
        have he := ((L.inReady_iff hl).mp ht).symm.trans ((L.inReady_iff hl').mp ht')
        exact Option.some.inj he
      blocked := by
        intro t hb l hl ht
        have hs := (hready t l hl ht).1
        rw [hb] at hs
        cases hs
      waiting := by
        intro t p p' ht ht'
        have he := (L.home_of_inSema ht).symm.trans (L.home_of_inSema ht')
        exact ListPtr.semaWaiters.inj (Option.some.inj he)
      sleeping := by
        intro t p hs ht
        obtain ⟨-, old, gs, e⟩ := (P.sleeping t).mp hs
        have hw := (P.blocked_of_home (L.home_of_inSema ht)).2
        rw [e] at hw
        cases hw
      sleepers := P.sleepers
      all := P.all
      allNodup := P.allNodup }

/-! ### Counting the ready threads -/

/-- The threads in the queues below index `n`. -/
theorem Lists.queued (hm : cfg.mlfqs = true) (L : Lists cfg srt k q home) {r : Option ThreadPtr}
    {sl : List ThreadPtr} (P : Placed (ListPtr.IsReady cfg) r sl k home)
    (hf : k.nextThread < fuel) : ∀ n ≤ 64, mlfqsQueued fuel k.elems n =
      some ((Finset.range k.nextThread).filter
        fun t => ∃ i : ℕ, i < n ∧ home t = some (.mlfqsList i)).card
  | 0, _ => by simp [mlfqsQueued]
  | n + 1, hn => by
      have ih := L.queued hm P hf n (by omega)
      obtain ⟨xs, hx⟩ := L.ready _ (isReady_mlfqsList hm (show n < 64 by omega))
      have hlist := L.repr.isList hx
      have hlt : ∀ t, home t = some (.mlfqsList n) → t < k.nextThread := by
        intro t ht
        obtain ⟨hs, -⟩ := P.ready_of_home ht nofun
        exact P.lt (hs ▸ nofun)
      -- the threads of queue `n` are those whose home it is
      have hxs : xs.toFinset = (Finset.range k.nextThread).filter
          fun t => home t = some (.mlfqsList n) := by
        ext t
        rw [List.mem_toFinset, L.homes _ xs hx, Finset.mem_filter, Finset.mem_range]
        exact ⟨fun h => ⟨hlt t h, h⟩, fun h => h.2⟩
      have hlen : xs.length = ((Finset.range k.nextThread).filter
          fun t => home t = some (.mlfqsList n)).card := by
        rw [← hxs, List.toFinset_card_of_nodup hlist.nodup]
      have hle : xs.length ≤ k.nextThread := by
        rw [hlen]
        exact (Finset.card_filter_le _ _).trans (Finset.card_range _).le
      have hsplit : ((Finset.range k.nextThread).filter
          fun t => ∃ i : ℕ, i < n + 1 ∧ home t = some (.mlfqsList i)) =
          ((Finset.range k.nextThread).filter fun t => ∃ i : ℕ, i < n ∧ home t = some (.mlfqsList i)) ∪
            (Finset.range k.nextThread).filter fun t => home t = some (.mlfqsList n) := by
        ext t
        simp only [Finset.mem_union, Finset.mem_filter, ← and_or_left]
        refine and_congr_right fun _ => ⟨?_, ?_⟩
        · rintro ⟨i, hi, ht⟩
          obtain hi | rfl := Nat.lt_succ_iff_lt_or_eq.mp hi
          · exact .inl ⟨i, hi, ht⟩
          · exact .inr ht
        · rintro (⟨i, hi, ht⟩ | ht)
          · exact ⟨i, hi.trans (Nat.lt_succ_self n), ht⟩
          · exact ⟨n, Nat.lt_succ_self n, ht⟩
      have hdisj : Disjoint
          ((Finset.range k.nextThread).filter fun t => ∃ i : ℕ, i < n ∧ home t = some (.mlfqsList i))
          ((Finset.range k.nextThread).filter fun t => home t = some (.mlfqsList n)) := by
        refine Finset.disjoint_filter.mpr fun t _ ⟨i, hi, ht⟩ ht' => ?_
        have e : (i : ℤ) = n := ListPtr.mlfqsList.inj (Option.some.inj (ht.symm.trans ht'))
        omega
      rw [mlfqsQueued, ih, hsplit, Finset.card_union_of_disjoint hdisj, ← hlen]
      simp [hlist.listSize_eq (hle.trans_lt hf)]

/-- **`mlfqs_ready_threads`** counts the threads that are ready or running, but for the idle
thread. -/
theorem Scheduling.readyThreads (hm : cfg.mlfqs = true) (S : Scheduling cfg srt k)
    (hf : k.nextThread < fuel) : mlfqsReadyThreads fuel k = some (Set.ncard
      {t | k.idleThread ≠ some t ∧ ((k.thr t).status = .ready ∨ (k.thr t).status = .running)}) := by
  obtain ⟨⟨q, home, L, P⟩, -⟩ := S
  set F := (Finset.range k.nextThread).filter fun t => ∃ i : ℕ, i < 64 ∧ home t = some (.mlfqsList i)
  have hq := L.queued hm P hf 64 le_rfl
  have hF : ∀ t, t ∈ F ↔ (k.thr t).status = .ready ∧ k.idleThread ≠ some t := by
    intro t
    rw [Finset.mem_filter, Finset.mem_range]
    constructor
    · rintro ⟨-, i, -, ht⟩
      obtain ⟨hs, hi, -⟩ := P.ready_of_home ht (by rintro _ ⟨⟩)
      exact ⟨hs, hi⟩
    · rintro ⟨hs, hi⟩
      have hst := P.stands t
      rw [hs] at hst
      obtain ⟨hi', -⟩ | ⟨-, l, hl, ht⟩ := hst
      · exact absurd hi' hi
      · refine ⟨P.lt (hs ▸ (by rintro ⟨⟩)), ?_⟩
        cases hl with
        | readyList hm' => exact absurd hm (by simp [hm'])
        | @mlfqsList i _ h0 h63 =>
            simp only [priMin, priMax] at h0 h63
            exact ⟨i.toNat, by omega, by rwa [Int.toNat_of_nonneg h0]⟩
  have hrun : ∀ t, (k.thr t).status = .running ↔ t = k.cur :=
    fun t => (P.running t).trans ⟨fun h => (Option.some.inj h).symm, fun h => h ▸ rfl⟩
  have hcur : k.cur ∉ F := by
    rw [hF, (hrun k.cur).mpr rfl]
    rintro ⟨⟨⟩, -⟩
  rw [mlfqsReadyThreads, hq]
  simp only [Option.bind_eq_bind, Option.bind_some, Option.some.injEq]
  by_cases hi : k.idleThread = some k.cur
  · have hset : {t | k.idleThread ≠ some t ∧
        ((k.thr t).status = .ready ∨ (k.thr t).status = .running)} = (F : Set ThreadPtr) := by
      ext t
      rw [Finset.mem_coe, hF, Set.mem_ofPred_eq, hrun]
      constructor
      · rintro ⟨hn, ht⟩
        refine ⟨ht.resolve_right ?_, hn⟩
        rintro rfl
        exact hn hi
      · rintro ⟨ht, hn⟩
        exact ⟨hn, .inl ht⟩
    rw [hset, Set.ncard_coe_finset]
    simp [hi, F]
  · have hset : {t | k.idleThread ≠ some t ∧
        ((k.thr t).status = .ready ∨ (k.thr t).status = .running)} =
          ((insert k.cur F : Finset ThreadPtr) : Set ThreadPtr) := by
      ext t
      rw [Finset.mem_coe, Finset.mem_insert, hF, Set.mem_ofPred_eq, hrun]
      constructor
      · rintro ⟨hn, ht | rfl⟩
        · exact .inr ⟨ht, hn⟩
        · exact .inl rfl
      · rintro (rfl | ⟨ht, hn⟩)
        · exact ⟨hi, .inr rfl⟩
        · exact ⟨hn, .inl ht⟩
    rw [hset, Set.ncard_coe_finset, Finset.card_insert_of_notMem hcur]
    simp [hi, F]

/-- **The books are right** in every state of a run without lock operations; what
`mlfqs_ready_threads` returns is the number of threads that are ready or running, but for the idle
thread. -/
theorem scheduler_bookkeeping (ha : cfg.atomicTid = true)
    (hc : ∀ k c, ok k (.call c) → c.frame.Lockless)
    (hu : ∀ k t fs, ok k .run → k.stack k.cur = .threadUnblock t :: fs →
      ∃ gs, k.stack t = .threadBlockReturn :: gs)
    (hp : cfg.mlfqs = true → ∀ k p, ok k (.call (.threadSetPriority p)) → PriorityOk p)
    (hr : Reachable cfg ok k) :
    Bookkeeping cfg k ∧ (cfg.mlfqs = true → ∀ fuel, k.nextThread < fuel →
      mlfqsReadyThreads fuel k = some (Set.ncard {t | k.idleThread ≠ some t ∧
        ((k.thr t).status = .ready ∨ (k.thr t).status = .running)})) := by
  have S : Scheduling cfg False k :=
    (hr.good fun _ _ hr hok => hr.tame ha hc hu hp hok).sched
  exact ⟨S.bookkeeping, fun hm fuel hf => S.readyThreads hm hf⟩

/-- The initial thread has created thread 2, which runs at once and yields. -/
theorem scheduler_bookkeeping_two : ∃ k,
    Reachable mlfqsConfig (fun k lab => lab.peaceful k &&
      lab ∈ [Label.run, Label.call (.threadCreate 63), Label.call .threadYield]) k ∧
    k.nextThread = 3 ∧ k.cur = 2 ∧ Bookkeeping mlfqsConfig k ∧
    mlfqsReadyThreads 70 k = some (Set.ncard {t | k.idleThread ≠ some t ∧
      ((k.thr t).status = .ready ∨ (k.thr t).status = .running)}) := by
  obtain ⟨k, hr, hk⟩ := exists_reachable mlfqsConfig 70
    (fun k lab => lab.peaceful k &&
      lab ∈ [Label.run, Label.call (.threadCreate 63), Label.call .threadYield])
    (List.replicate 48 Label.run ++ [Label.call (.threadCreate 63)] ++
      List.replicate 8 Label.run ++ [Label.call .threadYield, .run])
    (fun k => k.nextThread = 3 && k.cur = 2) (by decide +kernel)
  simp only [Bool.and_eq_true, decide_eq_true_eq] at hk
  have hcall : ∀ {k c}, (Label.peaceful k (.call c) &&
      Label.call c ∈ [Label.run, Label.call (.threadCreate 63), Label.call .threadYield]) = true →
      c = .threadCreate 63 ∨ c = .threadYield := by
    intro k c h
    simpa using (Bool.and_eq_true_iff.mp h).2
  obtain ⟨hb, hcount⟩ := scheduler_bookkeeping rfl
    (fun k c h => by rcases hcall h with rfl | rfl <;> trivial)
    (fun k t fs h e => by simp [Label.peaceful, e] at h)
    (fun _ k p h => by rcases hcall h with h | h <;> cases h) hr
  exact ⟨k, hr, hk.1, hk.2, hb, hcount rfl 70 (by rw [hk.1]; decide)⟩

/-- While the initial thread runs and nobody is ready, one thread is counted. -/
theorem ready_threads_counts_running : ∃ k,
    Reachable mlfqsConfig (fun k lab => lab.peaceful k) k ∧ k.stack k.cur = [] ∧
      mlfqsReadyThreads 70 k = some 1 ∧
        Set.ncard {t | k.idleThread ≠ some t ∧ (k.thr t).status = .ready} = 0 := by
  obtain ⟨k, hr, hk⟩ := exists_reachable mlfqsConfig 70 (fun k lab => lab.peaceful k)
    (List.replicate 48 Label.run)
    (fun k => k.stack k.cur = [] && (mlfqsReadyThreads 70 k = some 1 &&
      ((List.range k.nextThread).all fun t => (k.thr t).status ≠ .ready))) (by decide +kernel)
  simp only [Bool.and_eq_true, decide_eq_true_eq, List.all_eq_true, List.mem_range] at hk
  obtain ⟨hs, hn, hall⟩ := hk
  have G : Good mlfqsConfig False k := hr.good fun _ _ _ h => Label.peaceful.tame h
  obtain ⟨⟨q, home, L, P⟩, -⟩ := G.sched
  refine ⟨k, hr, hs, hn, ?_⟩
  have hset : {t | k.idleThread ≠ some t ∧ (k.thr t).status = .ready} = ∅ := by
    ext t
    refine iff_of_false (fun ⟨_, ht⟩ => ?_) (Set.notMem_empty t)
    exact hall t (P.lt (ht ▸ nofun)) ht
  rw [hset, Set.ncard_empty]

/-! ### One link in one list -/

/-- Every lock that `lock_acquire` waits for is free, and a thread is directly unblocked only while
it is in a direct `thread_block`. -/
def Label.findsFree (k : Kernel) : Label → Bool
  | .run =>
      match k.stack k.cur with
      | .lockAcquireBody l :: _ => (k.lockHolder l).isNone
      | .threadUnblock t :: _ =>
          match k.stack t with
          | .threadBlockReturn :: _ => true
          | _ => false
      | _ => true
  | _ => true

theorem Label.findsFree.holder {m : LockPtr} {fs : List Frame} (h : Label.run.findsFree k = true)
    (e : k.stack k.cur = .lockAcquireBody m :: fs) : k.lockHolder m = none := by
  simpa [Label.findsFree, e] using h

theorem Label.findsFree.tame (hm : cfg.mlfqs = false) (h : lab.findsFree k = true) :
    Tame cfg srt k lab := by
  cases lab with
  | run =>
      intro f fs e
      cases f with
      | lockAcquireBody m =>
          intro t ht
          rw [Label.findsFree.holder h e] at ht
          cases ht
      | threadUnblock t =>
          simp only [Label.findsFree, e] at h
          split at h
          case h_1 gs hs => exact ⟨gs, hs⟩
          case h_2 => cases h
      | threadSetPriority p => exact fun hm' => absurd hm' (by simp [hm])
      | _ => trivial
  | _ => trivial

/-- In an uncontended run nobody waits for a lock. -/
theorem Reachable.not_held (hm : cfg.mlfqs = false)
    (hr : Reachable cfg (fun k lab => lab.findsFree k) k) (t : ThreadPtr) (m : LockPtr) :
    .lockAcquireHeld m ∉ k.stack t := by
  induction hr with
  | refl => exact fun h => by cases boot_stack h <;> contradiction
  | tail hr hn ih =>
      obtain ⟨lab, fuel, hok, h⟩ := hn
      have G : Good cfg False _ := Reachable.good (fun _ _ _ h => Label.findsFree.tame hm h) hr
      have hs : SyncStep _ lab _ := (step_syncStep (Reachable.anySync hr).2 h).1
      rw [← Kernel.sync_stack, G.held_step (Reachable.control hr) hs]
      rintro (hmem | ⟨rfl, -, f, fs, e, rfl, hh⟩)
      · exact ih hmem
      · exact hh (Label.findsFree.holder hok e)

/-- The lists of the priority scheduler that are linked through `thread.elem`. -/
inductive ListPtr.OfElem : ListPtr → Prop
  | readyList : OfElem .readyList
  | semaWaiters (p) : OfElem (.semaWaiters p)
  | lockWaiters (m) : OfElem (.lockWaiters m)

/-- **The link of a thread** is in one list, and the list fits the status of the thread. -/
structure LinkedOnce (k : Kernel) : Prop where
  once : ∀ t l l', l.OfElem → l'.OfElem → k.elems.InList l t → k.elems.InList l' t → l = l'
  ready : ∀ t, k.elems.InList .readyList t → (k.thr t).status = .ready
  sema : ∀ t p, k.elems.InList (.semaWaiters p) t → (k.thr t).status = .blocked
  lock : ∀ t m, k.elems.InList (.lockWaiters m) t → (k.thr t).status = .blocked

/-- **Link exclusivity** in the runs in which every lock is acquired free. -/
theorem link_exclusive (hm : cfg.mlfqs = false)
    (hr : Reachable cfg (fun k lab => lab.findsFree k) k) : LinkedOnce k := by
  have G : Good cfg False k := hr.good fun _ _ _ h => Label.findsFree.tame hm h
  obtain ⟨⟨q, home, L, P⟩, -⟩ := G.sched
  have hlock : ∀ t m, ¬ k.elems.InList (.lockWaiters m) t := by
    intro t m
    exact L.not_inLock fun u hu => hr.not_held hm u m ((G.waits u m).mp hu)
  have hready : ∀ t, k.elems.InList .readyList t ↔ home t = some .readyList :=
    fun t => L.inReady_iff (.readyList hm)
  -- the home of a thread is the list that its link is in
  have hhome : ∀ t l, l.OfElem → k.elems.InList l t → home t = some l := by
    intro t l hl ht
    cases hl with
    | readyList => exact (hready t).mp ht
    | semaWaiters p => exact L.home_of_inSema ht
    | lockWaiters m => exact absurd ht (hlock t m)
  exact
    { once := fun t l l' hl hl' ht ht' =>
        Option.some.inj ((hhome t l hl ht).symm.trans (hhome t l' hl' ht'))
      ready := fun t ht => (P.ready_of_home ((hready t).mp ht) nofun).1
      sema := fun t p ht => (P.blocked_of_home (L.home_of_inSema ht)).1
      lock := fun t m ht => absurd ht (hlock t m) }

/-- Thread 2 sleeps on a semaphore. -/
theorem link_exclusive_sleeper : ∃ k,
    Reachable priorityConfig (fun k lab => lab.findsFree k) k ∧
      k.elems.InList (.semaWaiters (.user 0)) 2 ∧ LinkedOnce k := by
  obtain ⟨k, hr, hk⟩ := exists_reachable priorityConfig 70 (fun k lab => lab.findsFree k)
    (List.replicate 19 Label.run ++ [Label.call (.threadCreate 40)] ++ List.replicate 10 Label.run ++
      [Label.call (.semaDown 0), .run])
    (fun k => k.elems.next (.head (.semaWaiters (.user 0))) = some (.item 2)) (by decide +kernel)
  exact ⟨k, hr, .single (of_decide_eq_true hk), link_exclusive rfl hr⟩

/-- Thread 2 waits for a lock that the initial thread holds: its one link is reached from the list
of the lock and from the list of the semaphore. -/
theorem link_shared : ∃ k, Reachable priorityConfig (fun _ _ => True) k ∧
    k.stack k.cur = [] ∧ k.intrOn = true ∧ k.elems.InList (.lockWaiters (.user 0)) 2 ∧
      k.elems.InList (.semaWaiters (.ofLock (.user 0))) 2 := by
  obtain ⟨k, hr, hk⟩ := exists_reachable priorityConfig 70 (fun _ _ => True)
    (List.replicate 19 Label.run ++ [Label.call (.lockAcquire 0)] ++ List.replicate 4 Label.run ++
      [Label.call (.threadCreate 40)] ++ List.replicate 10 Label.run ++
      [Label.call (.lockAcquire 0)] ++ List.replicate 4 Label.run)
    (fun k => k.stack k.cur = [] && (k.intrOn &&
      (k.elems.next (.head (.lockWaiters (.user 0))) = some (.item 2) &&
        k.elems.next (.head (.semaWaiters (.ofLock (.user 0)))) = some (.item 2))))
    (by decide +kernel)
  simp only [Bool.and_eq_true, decide_eq_true_eq] at hk
  obtain ⟨hs, hi, hl, hp⟩ := hk
  exact ⟨k, hr, hs, hi, .single hl, .single hp⟩

end Pintos
