/-
PintosThreads/ReadyOrder.lean

The order of the ready list, in the priority scheduler.

`Lists` says who is in `ready_list` and that it is sorted, and not who is in
front of whom among threads of one priority.  The results here do: in a tame
step some threads are inserted by their priority, and then the first of the
list is taken off exactly if the step switches (`Good.readyMove`).  So
`ready_list` is a fair queue (`FairQueue`) whose services are the switches.
-/
import PintosThreads.WaiterLists
import PintosThreads.FairQueue
import PintosThreads.Turns

namespace Pintos

open Intrusive

variable {cfg : Config} {fuel : ℕ} {srt : Prop} {k k₁ k' : Kernel} {us vs : List ThreadPtr}
variable {q : ListPtr → Option (List ThreadPtr)} {home : ThreadPtr → Option ListPtr}
variable {A : ListPtr → Prop} {r : Option ThreadPtr} {sl : List ThreadPtr} {t : ThreadPtr}

/-- The ready list `xs` with the threads `us` in it, one after the other. -/
def enter (k : Kernel) (us xs : List ThreadPtr) : List ThreadPtr :=
  us.foldl (fun xs u => FairQueue.insert (fun u => (k.thr u).priority) u xs) xs

/-- The threads `us` come into the ready list. -/
structure Enters (us : List ThreadPtr) (k k' : Kernel) : Prop where
  list : ∀ xs, IsList k.elems .readyList xs → IsList k'.elems .readyList (enter k us xs)
  priority : ∀ u, (k'.thr u).priority = (k.thr u).priority
  alive : ∀ u ∈ us, (k.thr u).status ≠ .dying
  dying : ∀ u, (k.thr u).status = .dying → (k'.thr u).status = .dying

theorem enter_congr (hp : ∀ u, (k'.thr u).priority = (k.thr u).priority) (us xs : List ThreadPtr) :
    enter k' us xs = enter k us xs := by
  have h : (fun u => (k'.thr u).priority) = fun u => (k.thr u).priority := funext hp
  rw [enter, h]
  rfl

theorem enter_append (k : Kernel) (us vs xs : List ThreadPtr) :
    enter k (us ++ vs) xs = enter k vs (enter k us xs) :=
  List.foldl_append

theorem Enters.trans (h : Enters us k k₁) (h' : Enters vs k₁ k') : Enters (us ++ vs) k k' where
  list := by
    intro xs hx
    rw [enter_append, ← enter_congr h.priority vs]
    exact h'.list _ (h.list xs hx)
  priority := fun u => (h'.priority u).trans (h.priority u)
  alive := by
    intro u hu
    rcases List.mem_append.mp hu with hu | hu
    · exact h.alive u hu
    · exact fun hd => h'.alive u hu (h.dying u hd)
  dying := fun u hd => h'.dying u (h.dying u hd)

/-- The ready list is not touched. -/
theorem Enters.of_eq (he : k'.elems = k.elems)
    (hp : ∀ u, (k'.thr u).priority = (k.thr u).priority)
    (hs : ∀ u, (k.thr u).status = .dying → (k'.thr u).status = .dying) :
    Enters [] k k' :=
  ⟨fun _ hx => he ▸ hx, hp, by simp, hs⟩

theorem Placed.cur_alive {t : ThreadPtr} (P : Placed A (some t) sl k home) :
    (k.thr t).status ≠ .dying := by
  rw [(P.running t).mpr rfl]
  rintro ⟨⟩

/-! ### Changing one list -/

theorem Lists.isList_ready (hm : cfg.mlfqs = false) (L : Lists cfg srt k q home) :
    ∃ xs, q .readyList = some xs :=
  L.ready .readyList (.readyList hm)

/-- Another list, and threads that are not ready, are written. -/
theorem Lists.notReady (hm : cfg.mlfqs = false) (L : Lists cfg srt k q home) {l : ListPtr}
    {zs : List ThreadPtr} {e : Links ListPtr ThreadPtr} (hl : l ≠ .readyList)
    (hz : ∀ t ∈ zs, home t ≠ some .readyList) (hs : SameOff (Within l zs) k.elems e) :
    Enters [] k (k.setElems e) := by
  refine ⟨fun xs hx => ?_, fun _ => rfl, by simp, fun _ h => h⟩
  obtain ⟨ys, hy⟩ := L.isList_ready hm
  apply hx.congr hs
  intro n hn
  refine hn.disjoint hl.symm fun a ha hax => hz a ha ?_
  exact (L.inList hy a).mp (hx.inList.mpr hax)

/-- The threads of another list are not in the ready list. -/
theorem Lists.not_inReady (L : Lists cfg srt k q home) {l : ListPtr} {ys : List ThreadPtr}
    (hq : q l = some ys) (hl : l ≠ .readyList) : ∀ t ∈ ys, home t ≠ some .readyList := by
  intro t ht hh
  rw [(L.homes l ys hq t).mp ht] at hh
  exact hl (Option.some.inj hh)

/-- An insertion into another list. -/
theorem Lists.inserted_elsewhere (hm : cfg.mlfqs = false) (L : Lists cfg srt k q home)
    {l : ListPtr} {ys : List ThreadPtr} (hq : q l = some ys) (hl : l ≠ .readyList)
    (ht : home t = none) (h : insertByPriority cfg fuel k l t = some k') : Enters [] k k' := by
  obtain ⟨e, he, rfl⟩ := Option.map_eq_some_iff.mp h
  obtain ⟨-, hs⟩ := L.repr.insertOrdered
    (fun a b => (k.thr b).priority < (k.thr a).priority) (fun _ => rfl) hq (L.homes.unlinked ht) he
  refine L.notReady hm hl (List.forall_mem_cons.mpr ⟨?_, L.not_inReady hq hl⟩) hs
  rw [ht]
  rintro ⟨⟩

/-- A thread leaves another list. -/
theorem Lists.popped_elsewhere (hm : cfg.mlfqs = false) (L : Lists cfg srt k q home)
    {l : ListPtr} {ys : List ThreadPtr} {e : Links ListPtr ThreadPtr} (hq : q l = some ys)
    (hl : l ≠ .readyList) (h : popThread k.elems l = some (t, e)) : Enters [] k (k.setElems e) := by
  have h := popThread_eq h
  cases ys with
  | nil =>
      have he : k.elems.listEmpty l = true := (L.repr.isList hq).listEmpty.mpr rfl
      simp [Links.listPopFront, Links.listFront, he] at h
  | cons y ys =>
      obtain ⟨e', he, -, hs⟩ := L.repr.popFront hq
      obtain ⟨-, rfl⟩ : t = y ∧ e = e' := by simpa [h] using he
      exact L.notReady hm hl (List.forall_mem_cons.mp (L.not_inReady hq hl)).2 hs

/-- **An insertion** into the ready list. -/
theorem Lists.inserted_ready (hm : cfg.mlfqs = false) (L : Lists cfg srt k q home)
    (ht : home t = none) (hs : (k.thr t).status ≠ .dying)
    (h : insertByPriority cfg fuel k .readyList t = some k') : Enters [t] k k' := by
  obtain ⟨ys, hq⟩ := L.isList_ready hm
  obtain ⟨e, he, rfl⟩ := Option.map_eq_some_iff.mp h
  refine ⟨fun xs hx => ?_, fun _ => rfl, by simpa using hs, fun _ h => h⟩
  obtain rfl := hx.unique (L.repr.isList hq)
  obtain ⟨R, -⟩ := L.repr.insertOrdered
    (fun a b => (k.thr b).priority < (k.thr a).priority) (fun _ => rfl) hq (L.homes.unlinked ht) he
  exact R.isList (Function.update_self .readyList _ q)

/-! ### Waking and switching -/

/-- `thread_unblock`. -/
theorem Lists.threadUnblock_ready (hm : cfg.mlfqs = false) (L : Lists cfg srt k q home)
    (ht : home t = none) (h : Pintos.threadUnblock cfg fuel k t = some k') : Enters [t] k k' := by
  unfold Pintos.threadUnblock at h
  split at h
  case isFalse => cases h
  case isTrue hb =>
    dsimp only at h
    rw [if_neg (by simp [hm])] at h
    set k₁ := (k.modify t fun th => { th with status := .ready }).record (.unblock t)
    have hpr : ∀ u, (k₁.thr u).priority = (k.thr u).priority := by
      intro u
      obtain rfl | hu := eq_or_ne u t <;> simp [k₁, *]
    have hst : ∀ u, (k.thr u).status = .dying → (k₁.thr u).status = .dying := by
      intro u hu
      obtain rfl | hu := eq_or_ne u t
      · simp [hb] at hu
      · simp [k₁, *]
    have hr : (k₁.thr t).status ≠ .dying := by simp [k₁]
    have hwl : ∀ u, (k₁.thr u).waitingLock = (k.thr u).waitingLock := by
      intro u
      obtain rfl | hu := eq_or_ne u t <;> simp [k₁, *]
    have L₁ : Lists cfg False k₁ q home := L.unsorted.congr rfl hwl rfl False.elim
    have h₀ : Enters [] k k₁ := .of_eq rfl hpr hst
    exact h₀.trans (L₁.inserted_ready hm ht hr h)

/-- The first thread of the ready list is taken off, after `us` have come. -/
structure HandsOver (us : List ThreadPtr) (k k' : Kernel) : Prop where
  list : ∀ xs, IsList k.elems .readyList xs →
    (enter k us xs).Nodup ∧ IsList k'.elems .readyList (enter k us xs).tail
  alive : ∀ u ∈ us, (k.thr u).status ≠ .dying

theorem Enters.serves (h : Enters us k k₁) (h' : HandsOver vs k₁ k') :
    HandsOver (us ++ vs) k k' where
  list := by
    intro xs hx
    rw [enter_append, ← enter_congr h.priority vs]
    exact h'.list _ (h.list xs hx)
  alive := by
    intro u hu
    rcases List.mem_append.mp hu with hu | hu
    · exact h.alive u hu
    · exact fun hd => h'.alive u hu (h.dying u hd)

/-- `next_thread_to_run`. -/
theorem Lists.nextThreadToRun_ready (hm : cfg.mlfqs = false) (L : Lists cfg srt k q home)
    {n : ThreadPtr} {e : Links ListPtr ThreadPtr}
    (h : Pintos.nextThreadToRun cfg k = some (n, e)) : HandsOver [] k (k.setElems e) := by
  obtain ⟨ys, hq⟩ := L.isList_ready hm
  refine ⟨fun xs hx => ⟨hx.nodup, ?_⟩, by simp⟩
  obtain rfl := hx.unique (L.repr.isList hq)
  show IsList e .readyList xs.tail
  rw [Pintos.nextThreadToRun, if_neg (by simp [hm])] at h
  split at h
  case isTrue he =>
    obtain ⟨t, -, hte⟩ := Option.map_eq_some_iff.mp h
    cases hte
    obtain rfl := hx.listEmpty.mp he
    exact hx
  case isFalse =>
    obtain ⟨zs, rfl, -, L₁⟩ := L.popped hq (by rintro _ ⟨⟩) h
    exact L₁.repr.isList (Function.update_self .readyList _ q)

theorem Lists.schedule_ready (hm : cfg.mlfqs = false) (L : Lists cfg srt k q home)
    (h : Pintos.schedule cfg k = some k') : HandsOver [] k k' := by
  obtain ⟨n, e, hn, hg, rfl⟩ := by simpa [Pintos.schedule, Option.bind_eq_some_iff] using h
  exact ⟨(L.nextThreadToRun_ready hm hn).list, by simp⟩

/-- The running thread takes another status and switches. -/
theorem Lists.leave_ready {s : ThreadStatus} (hm : cfg.mlfqs = false) (L : Lists cfg srt k q home)
    (h : Pintos.schedule cfg k₁ = some k') (hk : Leaves k k₁ s) (he : k₁.elems = k.elems)
    (hw : k₁.nextWaiter = k.nextWaiter) : HandsOver [] k k' := by
  have L₁ : Lists cfg srt k₁ q home := L.congr he hk.waitingLock hw fun _ u _ _ => hk.priority u
  exact ⟨fun xs hx => (L₁.schedule_ready hm h).list xs (he ▸ hx), by simp⟩

theorem Lists.blockCurrent_ready (hm : cfg.mlfqs = false) (L : Lists cfg srt k q home)
    (h : Pintos.blockCurrent cfg k = some k') : HandsOver [] k k' := by
  unfold Pintos.blockCurrent at h
  split at h
  case isFalse => cases h
  case isTrue => exact L.leave_ready (s := .blocked) hm h ⟨rfl, rfl, rfl, .inl rfl, rfl⟩ rfl rfl

theorem Lists.exitCurrent_ready (hm : cfg.mlfqs = false) (L : Lists cfg srt k q home)
    (h : Pintos.exitCurrent cfg k = some k') : HandsOver [] k k' :=
  L.leave_ready (s := .dying) hm h ⟨rfl, rfl, rfl, .inl rfl, rfl⟩ rfl rfl

/-- **`thread_yield`**: the running thread comes into the list, unless it is the idle thread, and
the first one is taken off. -/
theorem Lists.yieldCurrent_ready (hm : cfg.mlfqs = false) (L : Lists cfg srt k q home)
    (hc : home k.cur = none) (hs : (k.thr k.cur).status ≠ .dying)
    (h : Pintos.yieldCurrent cfg fuel k = some k') : ∃ us, HandsOver us k k' := by
  obtain ⟨k₁, h₁, h₂⟩ := Option.bind_eq_some_iff.mp h
  have hins : ∃ us, Enters us k k₁ ∧ ∃ q' home', Lists cfg srt k₁ q' home' := by
    unfold Pintos.yieldInsert at h₁
    split at h₁
    case isTrue =>
      cases h₁
      exact ⟨[], .of_eq rfl (fun _ => rfl) fun _ h => h, q, home, L⟩
    case isFalse =>
      rw [if_neg (by simp [hm])] at h₁
      obtain ⟨ys, hq⟩ := L.isList_ready hm
      obtain ⟨q', L'⟩ := L.inserted hq (by rintro _ ⟨⟩) (by rintro _ ⟨⟩) hc h₁
      exact ⟨_, L.inserted_ready hm hc hs h₁, q', _, L'⟩
  obtain ⟨us, hu, q', home', L₁⟩ := hins
  exact ⟨_, hu.serves (L₁.leave_ready (s := .ready) hm h₂ ⟨rfl, rfl, rfl, .inl rfl, rfl⟩ rfl rfl)⟩

/-! ### Semaphores and locks -/

/-- `sema_up` brings the thread that it wakes. -/
theorem Lists.semaUpBody_ready {p : SemaPtr} {agent : Option ThreadPtr} (hm : cfg.mlfqs = false)
    (L : Lists cfg srt k q home) (hp : k.Known p)
    (h : Pintos.semaUpBody cfg fuel k agent p = some k') : ∃ us, Enters us k k' := by
  obtain ⟨k₁, h₁, h₂⟩ := Option.bind_eq_some_iff.mp h
  cases h₂
  have hwake : ∃ us, Enters us k k₁ := by
    obtain ⟨ys, hq⟩ := L.semas p hp
    unfold Pintos.semaWake at h₁
    split at h₁
    case isTrue =>
      cases h₁
      exact ⟨[], .of_eq rfl (fun _ => rfl) fun _ h => h⟩
    case isFalse =>
      obtain ⟨⟨t, e⟩, hpop, h₁⟩ := Option.bind_eq_some_iff.mp h₁
      obtain ⟨zs, rfl, -, L₁⟩ := L.popped hq (by rintro _ ⟨⟩) hpop
      have hpopped := L.popped_elsewhere hm hq (by rintro ⟨⟩) hpop
      exact ⟨_, hpopped.trans (L₁.threadUnblock_ready hm (Function.update_self ..) h₁)⟩
  obtain ⟨us, hu⟩ := hwake
  exact ⟨us, hu.list, hu.priority, hu.alive, hu.dying⟩

/-- What a function does to the ready list, and how often it switches. -/
inductive ReadyMove (k k' : Kernel) : Prop
  | stays (us : List ThreadPtr) : (∀ xs, IsList k.elems .readyList xs →
      IsList k'.elems .readyList (enter k us xs)) → (∀ u ∈ us, (k.thr u).status ≠ .dying) →
      k'.switches = k.switches → ReadyMove k k'
  | serves (us : List ThreadPtr) : HandsOver us k k' → k'.switches = k.switches + 1 →
      ReadyMove k k'

/-- The list is not touched. -/
theorem ReadyMove.of_elems (he : k'.elems = k.elems) (hs : k'.switches = k.switches) :
    ReadyMove k k' :=
  .stays [] (fun _ hx => he ▸ hx) (by simp) hs

/-- What comes into the list before the move. -/
theorem Enters.move (he : Enters us k k₁) (h : ReadyMove k₁ k') (hs : k₁.switches = k.switches) :
    ReadyMove k k' := by
  cases h with
  | stays vs hl ha h' =>
      refine .stays (us ++ vs) (fun xs hx => ?_) (fun u hu => ?_) (h'.trans hs)
      · rw [enter_append, ← enter_congr he.priority vs]
        exact hl _ (he.list xs hx)
      · rcases List.mem_append.mp hu with hu | hu
        · exact he.alive u hu
        · exact fun hd => ha u hu (he.dying u hd)
  | serves vs hl h' => exact .serves _ (he.serves hl) (h'.trans (congrArg (· + 1) hs))

theorem Lists.semaDownTest_ready {p : SemaPtr} {old : Bool} (hm : cfg.mlfqs = false)
    (L : Lists cfg srt k q home) (hp : k.Known p) (hc : home k.cur = none)
    (h : Pintos.semaDownTest cfg fuel k p old = some k') : ReadyMove k k' := by
  unfold Pintos.semaDownTest at h
  split at h
  case isFalse =>
    cases h
    exact .of_elems rfl rfl
  case isTrue =>
    obtain ⟨k₁, h₁, h₂⟩ := Option.bind_eq_some_iff.mp h
    obtain ⟨ys, hq⟩ := L.semas p hp
    obtain ⟨q', L'⟩ := L.inserted hq (by rintro _ ⟨⟩) (by rintro _ ⟨⟩) hc h₁
    have hins := L.inserted_elsewhere hm hq (by rintro ⟨⟩) hc h₁
    have hsw := (insertByPriority_turns h₁).switches
    have L₁ : Lists cfg srt (k₁.push (.semaDownWait p old)) q'
        (Function.update home k.cur (some (.semaWaiters p))) :=
      L'.congr rfl (fun _ => rfl) rfl fun _ _ _ _ => rfl
    have hb := L₁.blockCurrent_ready hm h₂
    have hover : HandsOver [] k₁ k' := ⟨hb.list, by simp⟩
    refine .serves _ (hins.serves hover) ?_
    rw [(blockCurrent_turns h₂).switches]
    exact congrArg (· + 1) hsw

theorem Scheduling.waitForLock_ready {l : LockPtr} {h : ThreadPtr} (hm : cfg.mlfqs = false)
    (S : Scheduling cfg srt k) (hl : ∀ t, (k.thr t).waitingLock ≠ some l)
    (hw : Pintos.waitForLock cfg fuel k l h = some k') : ReadyMove k k' := by
  have hsw := (waitForLock_turns hw).switches
  obtain ⟨⟨q, home, L, P⟩, -⟩ := S
  obtain ⟨k₂, h₁, h₂⟩ := Option.bind_eq_some_iff.mp hw
  obtain ⟨e, he, rfl⟩ := Option.map_eq_some_iff.mp h₁
  obtain ⟨⟨thr, rfl⟩, -⟩ := donatePriority_spec fuel h₂
  set k₁ := k.modify k.cur fun th => { th with waitingLock := some l }
  have hq := L.locks l hl
  obtain ⟨-, hs⟩ := L.repr.insertOrdered
    (fun a b => (k₁.thr b).priority < (k₁.thr a).priority) (fun _ => rfl) hq
    (L.homes.unlinked P.home_cur) he
  have hc : ∀ t ∈ [k.cur], home t ≠ some .readyList := by
    intro t ht
    rw [List.mem_singleton.mp ht, P.home_cur]
    rintro ⟨⟩
  have hne := L.notReady hm (l := .lockWaiters l) (by rintro ⟨⟩) hc hs
  exact .stays [] hne.list (by simp) hsw

/-! ### The timer interrupt -/

/-- `timer_wakeup` brings the threads that it wakes. -/
theorem Lists.timerWakeup_ready {now : ℤ} (hm : cfg.mlfqs = false) :
    ∀ (ts : List ThreadPtr) {k k' : Kernel}
    {q : ListPtr → Option (List ThreadPtr)} {home : ThreadPtr → Option ListPtr},
    Lists cfg srt k q home → Placed (ListPtr.IsReady cfg) r ts k home → InRange cfg k →
    IdleFree k → Pintos.timerWakeup cfg fuel now ts k = some k' → ∃ us, Enters us k k'
  | [], k, k', q, home, _, _, _, _, h => by
      cases h
      exact ⟨[], .of_eq rfl (fun _ => rfl) fun _ h => h⟩
  | t :: ts, k, k', q, home, L, P, hr, hf, h => by
      unfold Pintos.timerWakeup at h
      split at h
      case isTrue =>
        cases h
        exact ⟨[], .of_eq rfl (fun _ => rfl) fun _ h => h⟩
      case isFalse =>
        obtain ⟨k₁, h₁, h₂⟩ := Option.bind_eq_some_iff.mp h
        have hw := threadUnblock_woken h₁
        obtain ⟨hb, hs⟩ := (P.sleeping t).mp (by simp)
        have hi : k.idleThread ≠ some t := fun hi => (hf t hi).2 hs
        -- a sleeper is in no list of the scheduler
        have hh : home t = none := by
          have hst := P.stands t
          rw [hb] at hst
          obtain ⟨old, gs, e⟩ := hs
          rw [show home t = waitsOn (k.stack t) from hst, e]
          rfl
        have hcome := L.threadUnblock_ready hm hh h₁
        rw [← Function.update_eq_self t home, hh] at L
        obtain ⟨q₁, home₁, L₁, P₁⟩ := L.threadUnblock P hr hi h₁
        rw [List.erase_cons_head] at P₁
        obtain ⟨us, hu⟩ := Lists.timerWakeup_ready hm ts L₁ P₁ (hw.inRange hr)
          (hw.wakes.idleFree hf) h₂
        exact ⟨_, hcome.trans hu⟩

theorem Lists.interruptReturn_ready {b : Bool} (hm : cfg.mlfqs = false)
    (L : Lists cfg srt k q home) (hc : home k.cur = none) (hst : (k.thr k.cur).status ≠ .dying)
    (h : Pintos.interruptReturn cfg fuel k b = some k') : ReadyMove k k' := by
  have hs := (interruptReturn_turns h).switches
  unfold Pintos.interruptReturn at h
  split at h
  case isTrue hb =>
    subst hb
    have L₁ : Lists cfg srt (k.push (.intrSetLevel true)) q home :=
      L.congr rfl (fun _ => rfl) rfl fun _ _ _ _ => rfl
    obtain ⟨us, hu⟩ := L₁.yieldCurrent_ready hm hc hst h
    exact .serves us ⟨hu.list, hu.alive⟩ hs
  case isFalse hb =>
    cases h
    exact .of_elems rfl rfl

theorem Lists.timerHandler_ready {b : Bool} (hm : cfg.mlfqs = false) (L : Lists cfg srt k q home)
    (P : Placed (ListPtr.IsReady cfg) (some k.cur) k.sleepList k home) (hr : InRange cfg k)
    (hf : IdleFree k) (h : Pintos.timerHandler cfg fuel k = some (k', b)) :
    ∃ us, Enters us k k' := by
  simp only [Pintos.timerHandler, Option.bind_eq_bind, Option.bind_eq_some_iff] at h
  obtain ⟨k₂, h₂, ⟨k₃, b'⟩, h₃, h⟩ := h
  cases h
  rw [Pintos.timerMlfqs, if_neg (by simp [hm])] at h₃
  cases h₃
  obtain ⟨fs, ek⟩ := endHalt_eq k
  have hsl : (endHalt k).sleepList = k.sleepList := by rw [ek]
  have hq₀ : Steady cfg (endHalt k) (ticked k) := .of_eq rfl ⟨rfl, rfl⟩ rfl rfl rfl
  set k₁ := (threadTick cfg (ticked k)).1
  have hq : Steady cfg (endHalt k) k₁ := hq₀.trans (threadTick_steady (ticked k))
  have L₁ := (endHalt_lists L).steady hq
  have P₁ := (endHalt_placed P).wakes hq.toWakes
  rw [← hsl, ← hq.sleepList] at P₁
  have he : Enters [] k k₁ := by
    refine .of_eq (hq.elems.trans (endHalt_elems k)) (fun u => (hq.same u).trans ?_) fun u hu => ?_
    · rw [endHalt_thr]
    · rcases hq.status u with h | ⟨⟨⟩, -⟩
      rw [h, endHalt_thr]
      exact hu
  obtain ⟨us, hu⟩ := Lists.timerWakeup_ready hm k₁.sleepList L₁ P₁
    (hq.inRange (endHalt_inRange hr)) (hq.idleFree (endHalt_idleFree hf)) h₂
  exact ⟨_, he.trans hu⟩

theorem Lists.timerInterrupt_ready (hm : cfg.mlfqs = false) (L : Lists cfg srt k q home)
    (P : Placed (ListPtr.IsReady cfg) (some k.cur) k.sleepList k home) (hr : InRange cfg k)
    (hf : IdleFree k) (h : Pintos.timerInterrupt cfg fuel k = some k') : ReadyMove k k' := by
  rw [timerInterrupt_eq] at h
  obtain ⟨⟨k₁, b⟩, h₁, h⟩ := Option.bind_eq_some_iff.mp h
  obtain ⟨-, q₁, home₁, L₁, P₁⟩ := L.timerHandler P hr hf h₁
  obtain ⟨us, hu⟩ := L.timerHandler_ready hm P hr hf h₁
  exact hu.move (L₁.interruptReturn_ready hm P₁.home_cur P₁.cur_alive h)
    (timerHandler_oneTick h₁).1.switches

theorem Lists.semaUpInterrupt_ready {p : SemaPtr} (hm : cfg.mlfqs = false)
    (L : Lists cfg srt k q home)
    (P : Placed (ListPtr.IsReady cfg) (some k.cur) k.sleepList k home) (hr : InRange cfg k)
    (hf : IdleFree k) (hp : k.Known p) (h : Pintos.semaUpInterrupt cfg fuel k p = some k') :
    ReadyMove k k' := by
  simp only [Pintos.semaUpInterrupt, Option.bind_eq_bind, Option.bind_eq_some_iff] at h
  obtain ⟨k₂, h₂, b, -, h⟩ := h
  -- the delivery of the interrupt has left the lists alone
  set k₀ := (endHalt k).setLevel false with hk₀
  have L₀ : Lists cfg srt k₀ q home :=
    (endHalt_lists L).congr rfl (fun _ => rfl) rfl fun _ _ _ _ => rfl
  have P₀ : Placed (ListPtr.IsReady cfg) (some k.cur) k.sleepList k₀ home :=
    (endHalt_placed P).congr (fun _ => rfl) (fun _ _ => rfl) rfl rfl rfl
  have hp₀ : k₀.Known p := endHalt_known hp
  have he : Enters [] k k₀ := by
    refine .of_eq (endHalt_elems k) (fun u => ?_) fun u hu => ?_
    · show ((endHalt k).thr u).priority = _
      rw [endHalt_thr]
    · show ((endHalt k).thr u).status = _
      rw [endHalt_thr]
      exact hu
  obtain ⟨us, hu⟩ := L₀.semaUpBody_ready hm hp₀ h₂
  obtain ⟨-, hc₂⟩ := semaUpBody_sync h₂
  obtain ⟨-, q₁, home₁, L₁, P₁⟩ :=
    L₀.semaUpBody P₀ (endHalt_inRange hr) hp₀ (endHalt_idleFree hf) h₂
  rw [show k.cur = k₂.cur from (hc₂.trans (endHalt_cur k)).symm] at P₁
  have hup : Turns 0 k k₂ := (endHalt_turns k).via (semaUpBody_turns h₂) (.same rfl rfl rfl rfl rfl)
  have hs : k₂.switches = k.switches := hup.switches
  exact (he.trans hu).move (L₁.interruptReturn_ready hm P₁.home_cur P₁.cur_alive h) hs

/-! ### Frames and steps -/

/-- **Every frame** makes a move of the ready list. -/
theorem exec_ready {f : Frame} (hm : cfg.mlfqs = false) (S : Scheduling cfg srt k)
    (hl : Legal cfg srt k f) (h : exec cfg fuel k f = some k') : ReadyMove k k' := by
  have S₀ := S
  obtain ⟨⟨q, home, L, P⟩, hr⟩ := S₀
  -- the lists after writes to the stack and to the interrupt level
  have hlists : ∀ {k₁ : Kernel}, k₁.thr = k.thr → k₁.elems = k.elems →
      k₁.nextWaiter = k.nextWaiter → Lists cfg srt k₁ q home := by
    intro k₁ ht he hn
    exact L.congr he (fun _ => by rw [ht]) hn fun _ _ _ _ => by rw [ht]
  -- the two entries of `sema_down`
  have hdown : ∀ {s : SemaPtr} {old : Bool} (b : Bool), f.Downs s →
      semaDownTest cfg fuel (k.setLevel b) s old = some k' → ReadyMove k k' := by
    intro s old b hd hx
    have L₀ : Lists cfg srt (k.setLevel b) q home := hlists rfl rfl rfl
    have hs : (k.setLevel b).Known s := hl.known s (.inl hd)
    have hc : home (k.setLevel b).cur = none := P.home_cur
    have he : Enters [] k (k.setLevel b) := .of_eq rfl (fun _ => rfl) fun _ h => h
    exact he.move (L₀.semaDownTest_ready hm hs hc hx) rfl
  -- the frames that call `thread_unblock`
  have hwake : ∀ {t : ThreadPtr} {k₁ : Kernel}, f.Unblocks t →
      threadUnblock cfg fuel k t = some k₁ → Enters [t] k k₁ := by
    intro t k₁ hu hx
    have hb := (threadUnblock_woken hx).blocked
    obtain ⟨-, hw, -⟩ := hl.unblocks t hu hb
    have hh : home t = none := by
      have hs := P.stands t
      rw [hb] at hs
      exact hs.trans hw
    exact L.threadUnblock_ready hm hh hx
  cases f <;> simp only [exec] at h
  case semaDown s => exact hdown false .semaDown h
  case semaDownWait s old => exact hdown k.intrOn .semaDownWait h
  case semaUp s =>
    obtain ⟨k₁, h₁, rfl⟩ := Option.map_eq_some_iff.mp h
    obtain ⟨us, hu⟩ := L.semaUpBody_ready hm (hl.known s (.inr rfl)) h₁
    exact .stays us hu.list hu.alive (semaUpBody_turns h₁).switches
  case lockAcquireBody l =>
    split at h
    case h_1 =>
      cases h
      exact .of_elems rfl rfl
    case h_2 t ht =>
      obtain ⟨k₁, h₁, rfl⟩ := Option.map_eq_some_iff.mp h
      have hw : ReadyMove k k₁ := S.waitForLock_ready hm (hl.contended l t rfl ht).1 h₁
      cases hw with
      | stays us hl ha hs => exact .stays us hl ha hs
      | serves us hl hs => exact .serves us ⟨hl.list, hl.alive⟩ hs
  case lockAcquireFree l old =>
    obtain ⟨k₁, h₁, rfl⟩ := Option.map_eq_some_iff.mp h
    obtain ⟨e, -, rfl⟩ := Option.map_eq_some_iff.mp h₁
    exact .of_elems rfl rfl
  case lockAcquireHeld l => exact absurd rfl (hl.held l)
  case lockReleaseBody l =>
    obtain ⟨k₁, h₁, rfl⟩ := Option.map_eq_some_iff.mp h
    have he := (S.releaseLock (hl.queued .lockReleaseBody) h₁).2.elems
    obtain ⟨le, -, h₁⟩ := Option.bind_eq_some_iff.mp h₁
    obtain ⟨x, -, h₁⟩ := Option.bind_eq_some_iff.mp h₁
    obtain ⟨e, -, h₁⟩ := Option.bind_eq_some_iff.mp h₁
    cases h₁
    exact .of_elems he rfl
  case lockReleaseRefresh old =>
    obtain ⟨k₁, h₁, rfl⟩ := Option.map_eq_some_iff.mp h
    obtain ⟨p, rfl, -⟩ := refreshPriority_isGreatest h₁
    split <;> exact .of_elems rfl rfl
  case condWait c l =>
    -- only the list of the new semaphore is initialised
    split at h <;> cases h
    obtain ⟨-, hs⟩ := isList_listInit k.elems (.semaWaiters (.ofWaiter k.nextWaiter))
    have hne : ListPtr.semaWaiters (.ofWaiter k.nextWaiter) ≠ .readyList := by rintro ⟨⟩
    have he := L.notReady hm hne (by simp) hs
    exact .stays [] he.list (by simp) rfl
  case threadYield =>
    have L₁ : Lists cfg srt ((k.push (.intrSetLevel k.intrOn)).setLevel false) q home :=
      hlists rfl rfl rfl
    obtain ⟨us, hu⟩ := L₁.yieldCurrent_ready hm P.home_cur P.cur_alive h
    exact .serves us ⟨hu.list, hu.alive⟩ (yieldCurrent_turns h).switches
  case threadBlock =>
    have L₁ : Lists cfg srt (k.push .threadBlockReturn) q home := hlists rfl rfl rfl
    exact .serves [] ⟨(L₁.blockCurrent_ready hm h).list, by simp⟩ (blockCurrent_turns h).switches
  case threadUnblock t =>
    have hu := hwake .threadUnblock h
    exact .stays [t] hu.list hu.alive (threadUnblock_turns h).switches
  case threadExit => exact .serves [] (L.exitCurrent_ready hm h) (exitCurrent_turns h).switches
  case threadCreateUnblock t =>
    obtain ⟨k₁, h₁, rfl⟩ := Option.map_eq_some_iff.mp h
    have hu := hwake .threadCreateUnblock h₁
    exact .stays [t] hu.list hu.alive (threadUnblock_turns h₁).switches
  case idleLoop =>
    have L₁ : Lists cfg srt ((k.push .idleResume).setLevel false) q home := hlists rfl rfl rfl
    exact .serves [] ⟨(L₁.blockCurrent_ready hm h).list, by simp⟩ (blockCurrent_turns h).switches
  case timerSleepBody start n =>
    set k₁ := k.modify k.cur fun th => { th with wakeupTick := toInt64 (start + n) }
    have hc : Calm cfg k k₁ [] :=
      .modify (fun _ => rfl) (fun _ => rfl) (fun _ => rfl) fun _ => rfl
    have L₁ : Lists cfg srt (((insertSleeper k₁ k₁.cur).push (.timerSleepReturn k.intrOn)).setLevel
        false) q home :=
      (hc.lists L).congr rfl (fun _ => rfl) rfl fun _ _ _ _ => rfl
    exact .serves [] ⟨(L₁.blockCurrent_ready hm h).list, by simp⟩ (blockCurrent_turns h).switches
  case idleHalt => cases h
  -- from here on no thread changes its place
  case semaTryDown s =>
    cases h
    have he := (semaTryDown_calm k (some k.cur) s : Calm cfg _ _ _).elems
    exact .of_elems he (semaTryDown_turns k (some k.cur) s).switches
  case lockTryAcquireDown l =>
    cases h
    have he := (semaTryDown_calm k (some k.cur) (.ofLock l) : Calm cfg _ _ _).elems
    have hs := (semaTryDown_turns k (some k.cur) (.ofLock l)).switches
    split <;> exact .of_elems he hs
  case condSignalMax c m es =>
    cases es with
    | nil =>
        cases h
        exact .of_elems rfl rfl
    | cons e es =>
        obtain ⟨less, -, rfl⟩ := Option.map_eq_some_iff.mp h
        exact .of_elems rfl rfl
  case checkPreemptionRead =>
    obtain ⟨n, -, rfl⟩ := Option.map_eq_some_iff.mp h
    exact .of_elems rfl rfl
  case mlfqsCheckPreemption i =>
    cases i with
    | zero =>
        cases h
        exact .of_elems rfl rfl
    | succ i =>
        cases h
        split <;> exact .of_elems rfl rfl
  case checkPreemption | checkPreemptionCompare | mlfqsCheckPreemptionCompare |
      threadSetNiceUpdate | threadCreateLink =>
    cases h
    split <;> exact .of_elems rfl rfl
  case timerSleep =>
    split at h <;> cases h
    split <;> exact .of_elems rfl rfl
  case lockAcquire | lockTryAcquire | lockRelease | condSignal | condSignalFirst | condBroadcast |
      checkPreemptionFront =>
    split at h <;> cases h <;> exact .of_elems rfl rfl
  case threadCreate =>
    split at h
    · cases h
      exact .of_elems rfl rfl
    · split at h <;> cases h
      exact .of_elems rfl rfl
  all_goals
    cases h
    exact .of_elems rfl rfl

/-- **Every tame step** makes a move of the ready list. -/
theorem Good.readyMove {lab : Label} (hm : cfg.mlfqs = false) (G : Good cfg srt k) (C : Control k)
    (hT : Tame cfg srt k lab) (h : Pintos.step cfg fuel k lab = some k') : ReadyMove k k' := by
  have S := G.sched
  obtain ⟨⟨q, home, L, P⟩, hr⟩ := G.sched
  cases lab with
  | call c =>
      rw [Pintos.step] at h
      split at h <;> cases h
      exact .of_elems rfl rfl
  | run =>
      rcases e : k.stack k.cur with - | ⟨f, fs⟩
      · simp [Pintos.step, e] at h
      · rw [Pintos.step, e] at h
        have he : Enters [] k (popFrame k fs) := .of_eq rfl (fun _ => rfl) fun _ h => h
        exact he.move (exec_ready hm (S.popFrame fs) (G.legal C e (hT f fs e)) h) rfl
  | timer =>
      rw [Pintos.step] at h
      split at h
      · exact L.timerInterrupt_ready hm P hr C.inv.idleFree h
      · cases h
  | semaUp n =>
      rw [Pintos.step] at h
      split at h
      · exact L.semaUpInterrupt_ready hm P hr C.inv.idleFree (by rintro w ⟨⟩) h
      · cases h
  | semaTryDown n =>
      rw [Pintos.step] at h
      split at h
      case isFalse => cases h
      case isTrue =>
        obtain ⟨rfl, -⟩ := L.semaTryDownInterrupt P h
        refine .of_elems ?_ (semaTryDownInterrupt_turns h).switches
        exact (semaTryDown_silent ((endHalt k).setLevel false) none (.user n)).elems.trans
          (endHalt_elems k)

end Pintos
