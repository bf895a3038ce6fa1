/-
PintosThreads/WaiterLists.lean

The order in which threads wait on a semaphore.

`Lists` says who waits on a semaphore, and not in what order the waiters stand
in its list.  The results here do: in a tame step the waiters of a semaphore
stay as they are (`SameWaiters`), or the running thread is inserted by its
priority, or the first of them is taken off (`exec_waiters`,
`StepWaiters`).
-/
import PintosThreads.SchedulerInv

namespace Pintos

open Intrusive

variable {cfg : Config} {fuel : ℕ} {srt : Prop} {k k' : Kernel} {p : SemaPtr}
variable {q : ListPtr → Option (List ThreadPtr)} {home : ThreadPtr → Option ListPtr}
variable {A : ListPtr → Prop} {r : Option ThreadPtr} {sl : List ThreadPtr}

/-- The waiters of semaphore `p` stay as they are. -/
def SameWaiters (p : SemaPtr) (k k' : Kernel) : Prop :=
  ∀ xs, IsList k.elems (.semaWaiters p) xs → IsList k'.elems (.semaWaiters p) xs

theorem SameWaiters.refl (k : Kernel) : SameWaiters p k k :=
  fun _ h => h

theorem SameWaiters.trans {k₁ : Kernel} (h₁ : SameWaiters p k k₁) (h₂ : SameWaiters p k₁ k') :
    SameWaiters p k k' :=
  fun xs h => h₂ xs (h₁ xs h)

theorem SameWaiters.of_elems (h : k'.elems = k.elems) : SameWaiters p k k' :=
  fun _ hx => h ▸ hx

/-! ### Changing another list -/

/-- Another list and threads that do not wait on `p` are written. -/
theorem Lists.sameWaiters (L : Lists cfg srt k q home) (hp : k.Known p) {l : ListPtr}
    {zs : List ThreadPtr} {e : Links ListPtr ThreadPtr} (hl : l ≠ .semaWaiters p)
    (hz : ∀ t ∈ zs, home t ≠ some (.semaWaiters p)) (hs : SameOff (Within l zs) k.elems e) :
    SameWaiters p k (k.setElems e) := by
  intro xs hx
  obtain ⟨ys, hy⟩ := L.semas p hp
  apply hx.congr hs
  intro n hn
  refine hn.disjoint hl.symm fun a ha hax => hz a ha ?_
  exact (L.inList hy a).mp (hx.inList.mpr hax)

/-- The threads of another list do not wait on `p`. -/
theorem Lists.not_waiting (L : Lists cfg srt k q home) {l : ListPtr} {ys : List ThreadPtr}
    (hq : q l = some ys) (hl : l ≠ .semaWaiters p) :
    ∀ t ∈ ys, home t ≠ some (.semaWaiters p) := by
  intro t ht hh
  rw [(L.homes l ys hq t).mp ht] at hh
  exact hl (Option.some.inj hh)

theorem Lists.inserted_waiters (L : Lists cfg srt k q home) (hp : k.Known p) {l : ListPtr}
    {t : ThreadPtr} {ys : List ThreadPtr} (hq : q l = some ys) (hl : l ≠ .semaWaiters p)
    (ht : home t = none) (h : insertByPriority cfg fuel k l t = some k') : SameWaiters p k k' := by
  obtain ⟨e, he, rfl⟩ := Option.map_eq_some_iff.mp h
  obtain ⟨-, hs⟩ := L.repr.insertOrdered
    (fun a b => (k.thr b).priority < (k.thr a).priority) (fun _ => rfl) hq (L.homes.unlinked ht) he
  refine L.sameWaiters hp hl (List.forall_mem_cons.mpr ⟨?_, L.not_waiting hq hl⟩) hs
  rw [ht]
  exact nofun

theorem Lists.pushed_waiters (L : Lists cfg srt k q home) (hp : k.Known p) {l : ListPtr}
    {t : ThreadPtr} {ys : List ThreadPtr} {e : Links ListPtr ThreadPtr} (hq : q l = some ys)
    (hl : l ≠ .semaWaiters p) (ht : home t = none)
    (h : k.elems.listPushBack l (.item t) = some e) : SameWaiters p k (k.setElems e) := by
  obtain ⟨e', he', -, hs⟩ := L.repr.pushBack hq (L.homes.unlinked ht)
  obtain rfl : e = e' := Option.some.inj (h.symm.trans he')
  refine L.sameWaiters hp hl (List.forall_mem_cons.mpr ⟨?_, L.not_waiting hq hl⟩) hs
  rw [ht]
  exact nofun

theorem Lists.popped_waiters (L : Lists cfg srt k q home) (hp : k.Known p) {l : ListPtr}
    {n : Node ListPtr ThreadPtr} {ys : List ThreadPtr} {e : Links ListPtr ThreadPtr}
    (hq : q l = some ys) (hl : l ≠ .semaWaiters p) (h : k.elems.listPopFront l = some (n, e)) :
    SameWaiters p k (k.setElems e) := by
  cases ys with
  | nil =>
    have he : k.elems.listEmpty l = true := (L.repr.isList hq).listEmpty.mpr rfl
    simp [Links.listPopFront, Links.listFront, he] at h
  | cons y ys =>
    obtain ⟨e', he, -, hs⟩ := L.repr.popFront hq
    obtain ⟨-, rfl⟩ : n = .item y ∧ e = e' := by simpa [h] using he
    exact L.sameWaiters hp hl (List.forall_mem_cons.mp (L.not_waiting hq hl)).2 hs

theorem popThread_eq {e e' : Links ListPtr ThreadPtr} {l : ListPtr} {t : ThreadPtr}
    (h : popThread e l = some (t, e')) : e.listPopFront l = some (.item t, e') := by
  unfold popThread at h
  split at h
  case h_1 t' e₁ he =>
    cases h
    exact he
  case h_2 => cases h

/-! ### The ready queues -/

theorem ListPtr.IsReady.ne_semaWaiters {l : ListPtr} (h : l.IsReady cfg) : l ≠ .semaWaiters p := by
  rintro rfl
  cases h

theorem Lists.enqueued_waiters (fuel : ℕ) (L : Lists cfg srt k q home) (hp : k.Known p)
    {t : ThreadPtr} (hr : InRange cfg k) (ht : home t = none)
    (h : (if cfg.mlfqs then mlfqsInsert k t
      else insertByPriority cfg fuel k .readyList t) = some k') : SameWaiters p k k' := by
  split at h
  case isTrue hm =>
    have hl : (ListPtr.mlfqsList (k.thr t).priority).IsReady cfg :=
      .mlfqsList hm (hr hm t).priority.1 (hr hm t).priority.2
    obtain ⟨ys, hq⟩ := L.ready _ hl
    obtain ⟨e, he, rfl⟩ := Option.map_eq_some_iff.mp h
    exact (L.pushed_waiters hp hq nofun ht he).trans (.of_elems rfl)
  case isFalse hm =>
    obtain ⟨ys, hq⟩ := L.ready _ (.readyList (by simpa using hm))
    exact L.inserted_waiters hp hq nofun ht h

theorem Lists.nextThreadToRun_waiters (L : Lists cfg srt k q home) (hp : k.Known p)
    {n : ThreadPtr} {e : Links ListPtr ThreadPtr} (h : Pintos.nextThreadToRun cfg k = some (n, e)) :
    SameWaiters p k (k.setElems e) := by
  have hidle : k.idleThread.map (·, k.elems) = some (n, e) → SameWaiters p k (k.setElems e) := by
    intro hi
    obtain ⟨t, -, hte⟩ := Option.map_eq_some_iff.mp hi
    cases hte
    exact .refl k
  have hpop : ∀ {l : ListPtr}, l.IsReady cfg → popThread k.elems l = some (n, e) →
      SameWaiters p k (k.setElems e) := by
    intro l hl he
    obtain ⟨ys, hq⟩ := L.ready l hl
    exact L.popped_waiters hp hq hl.ne_semaWaiters (popThread_eq he)
  unfold Pintos.nextThreadToRun at h
  split at h
  case isTrue hm =>
    unfold mlfqsNextThreadToRun at h
    split at h
    case h_1 i hi =>
      obtain ⟨hlt, -⟩ := (mlfqsHighest_spec 64).1 i hi
      exact hpop (.mlfqsList hm (Int.natCast_nonneg i) (by unfold priMax; omega)) h
    case h_2 => exact hidle h
  case isFalse hm =>
    split at h
    case isTrue => exact hidle h
    case isFalse => exact hpop (.readyList (by simpa using hm)) h

theorem Lists.schedule_waiters (L : Lists cfg srt k q home) (hp : k.Known p)
    (h : Pintos.schedule cfg k = some k') : SameWaiters p k k' := by
  obtain ⟨n, e, hn, hg, rfl⟩ := by simpa [Pintos.schedule, Option.bind_eq_some_iff] using h
  exact (L.nextThreadToRun_waiters hp hn).trans (.of_elems rfl)

theorem Lists.blockCurrent_waiters (L : Lists cfg srt k q home) (hp : k.Known p)
    (h : Pintos.blockCurrent cfg k = some k') : SameWaiters p k k' := by
  unfold Pintos.blockCurrent at h
  split at h
  case isFalse => cases h
  case isTrue =>
    have hk : Leaves k (k.modify k.cur fun th => { th with status := .blocked }) .blocked :=
      ⟨rfl, rfl, rfl, .inl rfl, rfl⟩
    have L₁ : Lists cfg srt (k.modify k.cur fun th => { th with status := .blocked }) q home :=
      L.congr rfl hk.waitingLock rfl fun _ u _ _ => hk.priority u
    exact L₁.schedule_waiters hp h

theorem Lists.exitCurrent_waiters (L : Lists cfg srt k q home) (hp : k.Known p)
    (h : Pintos.exitCurrent cfg k = some k') : SameWaiters p k k' := by
  set k₁ := { k with intrOn := false, allList := k.allList.erase k.cur }.modify k.cur
    fun th => { th with status := .dying } with hk₁
  have hk : Leaves k k₁ .dying := ⟨rfl, rfl, rfl, .inl rfl, rfl⟩
  have L₁ : Lists cfg srt k₁ q home :=
    L.congr rfl hk.waitingLock rfl fun _ u _ _ => hk.priority u
  exact L₁.schedule_waiters hp h

theorem Lists.yieldCurrent_waiters (L : Lists cfg srt k q home) (hp : k.Known p)
    (hr : InRange cfg k) (hc : home k.cur = none) (h : Pintos.yieldCurrent cfg fuel k = some k') :
    SameWaiters p k k' := by
  obtain ⟨k₁, h₁, h₂⟩ := Option.bind_eq_some_iff.mp h
  have hins : SameWaiters p k k₁ ∧ k₁.cur = k.cur ∧ k₁.nextWaiter = k.nextWaiter ∧
      ∃ q' home', Lists cfg srt k₁ q' home' := by
    unfold Pintos.yieldInsert at h₁
    split at h₁
    case isTrue =>
      cases h₁
      exact ⟨.refl k, rfl, rfl, q, home, L⟩
    case isFalse =>
      obtain ⟨q', l, -, L'⟩ := L.enqueued fuel hr hc h₁
      refine ⟨L.enqueued_waiters fuel hp hr hc h₁, ?_, ?_, q', _, L'⟩ <;> split at h₁
      · obtain ⟨e, rfl⟩ := mlfqsInsert_eq h₁
        rfl
      · obtain ⟨e, rfl⟩ := insertByPriority_eq h₁
        rfl
      · obtain ⟨e, rfl⟩ := mlfqsInsert_eq h₁
        rfl
      · obtain ⟨e, rfl⟩ := insertByPriority_eq h₁
        rfl
  obtain ⟨hw, -, hn, q', home', L₁⟩ := hins
  have hk : Leaves k₁ (k₁.modify k₁.cur fun th => { th with status := .ready }) .ready :=
    ⟨rfl, rfl, rfl, .inl rfl, rfl⟩
  have L₂ : Lists cfg srt (k₁.modify k₁.cur fun th => { th with status := .ready }) q' home' :=
    L₁.congr rfl hk.waitingLock rfl fun _ u _ _ => hk.priority u
  have hp₁ : k₁.Known p := fun w hw => hn ▸ hp w hw
  exact hw.trans (L₂.schedule_waiters (k := k₁.modify k₁.cur _) hp₁ h₂)

theorem Lists.threadUnblock_waiters (L : Lists cfg srt k q home) (hp : k.Known p)
    {t : ThreadPtr} (hr : InRange cfg k) (ht : home t = none)
    (h : Pintos.threadUnblock cfg fuel k t = some k') : SameWaiters p k k' := by
  unfold Pintos.threadUnblock at h
  split at h
  case isFalse => cases h
  case isTrue hb =>
    dsimp only at h
    set k₁ := (k.modify t fun th => { th with status := .ready }).record (.unblock t)
    have hpr : ∀ u, (k₁.thr u).priority = (k.thr u).priority := by
      intro u
      obtain rfl | hu := eq_or_ne u t <;> simp [k₁, *]
    have hwl : ∀ u, (k₁.thr u).waitingLock = (k.thr u).waitingLock := by
      intro u
      obtain rfl | hu := eq_or_ne u t <;> simp [k₁, *]
    have L₁ : Lists cfg False k₁ q home := L.unsorted.congr rfl hwl rfl False.elim
    have hr₁ : InRange cfg k₁ := by
      intro hm u
      refine (hr hm u).of_eq (hpr u) ?_
      obtain rfl | hu := eq_or_ne u t <;> simp [k₁, *]
    split at h
    case isTrue hm =>
      have hq := mlfqsUpdatePriority_quiet hm k₁ t
      have hn : (mlfqsUpdatePriority k₁ t).nextWaiter = k.nextWaiter :=
        congrArg Sync.nextWaiter hq.sync.1
      refine (SameWaiters.of_elems (k := k) hq.elems).trans ?_
      refine (L₁.wakes hq.toWakes hq.elems False.elim).enqueued_waiters fuel
        (fun w hw => hn ▸ hp w hw) (hq.inRange hr₁) ht ?_
      rw [if_pos hm]
      exact h
    case isFalse hm =>
      have h₁ : SameWaiters p k k₁ := .of_elems rfl
      refine h₁.trans (L₁.enqueued_waiters fuel hp hr₁ ht ?_)
      rw [if_neg hm]
      exact h

/-! ### Semaphores -/

/-- The running thread is inserted among the waiters of `p` by its priority. -/
def JoinsWaiters (p : SemaPtr) (k k' : Kernel) : Prop :=
  ∀ xs, IsList k.elems (.semaWaiters p) xs → IsList k'.elems (.semaWaiters p)
    (xs.orderedInsert (fun a b => (k.thr b).priority < (k.thr a).priority) k.cur)

/-- The first waiter of `p` is taken off, if there is one. -/
def LeavesWaiters (p : SemaPtr) (k k' : Kernel) : Prop :=
  ∀ xs, IsList k.elems (.semaWaiters p) xs → IsList k'.elems (.semaWaiters p) xs.tail

/-- A `sema_down` that has to wait. -/
theorem Lists.semaDownTest_waiters {s : SemaPtr} {old : Bool} (L : Lists cfg srt k q home)
    (hs : k.Known s) (hp : k.Known p) (hc : home k.cur = none)
    (h : Pintos.semaDownTest cfg fuel k s old = some k') :
    SameWaiters p k k' ∨ p = s ∧ JoinsWaiters p k k' := by
  unfold Pintos.semaDownTest at h
  split at h
  case isFalse =>
    cases h
    exact .inl (.of_elems rfl)
  case isTrue =>
    obtain ⟨k₁, h₁, h₂⟩ := Option.bind_eq_some_iff.mp h
    obtain ⟨ys, hq⟩ := L.semas s hs
    obtain ⟨q', L'⟩ := L.inserted hq nofun nofun hc h₁
    obtain ⟨e, he, rfl⟩ := Option.map_eq_some_iff.mp h₁
    have L₁ : Lists cfg srt ((k.setElems e).push (.semaDownWait s old)) q'
        (Function.update home k.cur (some (.semaWaiters s))) :=
      L'.congr rfl (fun _ => rfl) rfl fun _ _ _ _ => rfl
    have hb : SameWaiters p (k.setElems e) k' := L₁.blockCurrent_waiters (p := p) hp h₂
    by_cases hps : p = s
    · subst hps
      refine .inr ⟨rfl, fun xs hx => hb _ ?_⟩
      obtain rfl := hx.unique (L.repr.isList hq)
      obtain ⟨R, -⟩ := L.repr.insertOrdered
        (fun a b => (k.thr b).priority < (k.thr a).priority) (fun _ => rfl) hq
        (L.homes.unlinked hc) he
      exact R.isList (Function.update_self (.semaWaiters p) _ q)
    · refine .inl ((L.inserted_waiters hp hq ?_ hc h₁).trans hb)
      simpa using Ne.symm hps

/-- The thread that `sema_up` wakes is the first waiter. -/
theorem Lists.semaWake_waiters {s : SemaPtr} (L : Lists cfg srt k q home) (hr : InRange cfg k)
    (hs : k.Known s) (hp : k.Known p) (h : Pintos.semaWake cfg fuel k s = some k') :
    (p ≠ s → SameWaiters p k k') ∧ (p = s → LeavesWaiters p k k') := by
  obtain ⟨ys, hq⟩ := L.semas s hs
  unfold Pintos.semaWake at h
  split at h
  case isTrue he =>
    cases h
    refine ⟨fun _ => .refl k, ?_⟩
    rintro rfl xs hx
    obtain rfl := hx.listEmpty.mp he
    exact hx
  case isFalse =>
    obtain ⟨⟨t, e⟩, hpop, h⟩ := Option.bind_eq_some_iff.mp h
    obtain ⟨zs, rfl, -, L₁⟩ := L.popped hq (by rintro _ ⟨⟩) hpop
    have hu : SameWaiters p (k.setElems e) k' :=
      L₁.threadUnblock_waiters (p := p) hp hr (Function.update_self ..) h
    refine ⟨fun hps => (L.popped_waiters hp hq ?_ (popThread_eq hpop)).trans hu, ?_⟩
    · simpa using Ne.symm hps
    · rintro rfl xs hx
      obtain rfl := hx.unique (L.repr.isList hq)
      exact hu zs (L₁.repr.isList (Function.update_self (.semaWaiters p) _ q))

/-! ### The timer interrupt -/

theorem Wakes.known {S : ThreadPtr → Prop} (h : Wakes cfg S k k') (hp : k.Known p) :
    k'.Known p := by
  have hn : k'.nextWaiter = k.nextWaiter := congrArg Sync.nextWaiter h.sync.1
  exact fun w hw => hn ▸ hp w hw

theorem Lists.timerWakeup_waiters {now : ℤ} : ∀ (ts : List ThreadPtr) {k k' : Kernel}
    {q : ListPtr → Option (List ThreadPtr)} {home : ThreadPtr → Option ListPtr},
    Lists cfg srt k q home → Placed (ListPtr.IsReady cfg) r ts k home → InRange cfg k →
    IdleFree k → k.Known p → Pintos.timerWakeup cfg fuel now ts k = some k' → SameWaiters p k k'
  | [], k, k', q, home, _, _, _, _, _, h => by
      cases h
      exact .of_elems rfl
  | t :: ts, k, k', q, home, L, P, hr, hf, hp, h => by
      unfold Pintos.timerWakeup at h
      split at h
      case isTrue =>
        cases h
        exact .of_elems rfl
      case isFalse =>
        obtain ⟨k₁, h₁, h₂⟩ := Option.bind_eq_some_iff.mp h
        have hw := threadUnblock_woken h₁
        obtain ⟨hb, hs⟩ := (P.sleeping t).mp (by simp)
        have hi : k.idleThread ≠ some t := fun hi => (hf t hi).2 hs
        have hh : home t = none := by
          have hst := P.stands t
          rw [hb] at hst
          obtain ⟨old, gs, e⟩ := hs
          rw [show home t = waitsOn (k.stack t) from hst, e]
          rfl
        have hsame := L.threadUnblock_waiters hp hr hh h₁
        rw [← Function.update_eq_self t home, hh] at L
        obtain ⟨q₁, home₁, L₁, P₁⟩ := L.threadUnblock P hr hi h₁
        rw [List.erase_cons_head] at P₁
        exact hsame.trans (Lists.timerWakeup_waiters ts L₁ P₁ (hw.inRange hr)
          (hw.wakes.idleFree hf) (hw.wakes.known hp) h₂)

theorem Lists.drained_waiters {src dst : ListPtr} (hsp : src ≠ .semaWaiters p)
    (hdp : dst ≠ .semaWaiters p) (hsrc : ∀ m, src ≠ .lockWaiters m)
    (hdst : ∀ m, dst ≠ .lockWaiters m) (hr : dst ≠ .readyList) (hi : ∀ i, dst ≠ .mlfqsList i) :
    ∀ (fuel : ℕ) {k : Kernel} {e : Links ListPtr ThreadPtr}
      {q : ListPtr → Option (List ThreadPtr)} {home : ThreadPtr → Option ListPtr},
    Lists cfg srt k q home → k.Known p → (∃ xs, q src = some xs) → (∃ ys, q dst = some ys) →
    drain src dst fuel k.elems = some e → SameWaiters p k (k.setElems e)
  | 0, _, _, _, _, _, _, _, _, h => by cases h
  | fuel + 1, k, e, q, home, L, hp, ⟨xs, hx⟩, ⟨ys, hy⟩, h => by
      unfold drain at h
      split at h
      case isTrue =>
        cases h
        exact .refl k
      case isFalse he =>
        obtain ⟨⟨n, e₁⟩, h₁, h'⟩ := Option.bind_eq_some_iff.mp h
        obtain ⟨e₂, h₂, h₃⟩ := Option.bind_eq_some_iff.mp h'
        cases xs with
        | nil => exact absurd ((L.repr.isList hx).listEmpty.mpr rfl) he
        | cons t xs =>
            obtain ⟨e', he', -⟩ := L.repr.popFront hx
            obtain ⟨rfl, rfl⟩ : n = .item t ∧ e₁ = e' := by simpa [h₁] using he'
            obtain ⟨zs, -, hh, L₁⟩ := L.popped hx hsrc (t := t) (e := e₁) (by simp [popThread, h₁])
            obtain ⟨ws, hw⟩ := Extends.update q src zs dst ys hy
            obtain ⟨q₂, L₂, hq₂⟩ := L₁.appended hw hdst hr (fun i h => absurd h (hi i)) (by simp) h₂
            have hq := (Extends.update q src zs).trans hq₂
            have hpop : SameWaiters p k (k.setElems e₁) := L.popped_waiters hp hx hsp h₁
            have hpush : SameWaiters p (k.setElems e₁) ((k.setElems e₁).setElems e₂) :=
              L₁.pushed_waiters (p := p) hp hw hdp (by simp) h₂
            exact (hpop.trans hpush).trans (Lists.drained_waiters hsp hdp hsrc hdst hr hi fuel L₂ hp
              (hq src _ hx) (hq dst ys hy) h₃)

theorem Lists.collected_waiters (hm : cfg.mlfqs = true) (L : Lists cfg srt k q home)
    (hp : k.Known p) (hq : ∃ xs, q .tempList = some xs) :
    ∀ (i : ℕ) {e : Links ListPtr ThreadPtr}, i ≤ 64 → collectQueues fuel k.elems i = some e →
      SameWaiters p k (k.setElems e)
  | 0, e, _, h => by
      cases h
      exact .refl k
  | i + 1, e, hi, h => by
      obtain ⟨e₁, h₁, h₂⟩ := Option.bind_eq_some_iff.mp h
      obtain ⟨q₁, home₁, L₁, hq₁, -⟩ := L.collected hm hq i (by omega) h₁
      have hl : (ListPtr.mlfqsList i).IsReady cfg := isReady_mlfqsList hm (by omega)
      obtain ⟨xs, hx⟩ := hq
      have htemp : ListPtr.tempList ≠ .semaWaiters p := nofun
      have hd : SameWaiters p (k.setElems e₁) ((k.setElems e₁).setElems e) :=
        Lists.drained_waiters hl.ne_semaWaiters htemp (by simp) (by simp) (by simp) (by simp) fuel
          L₁ hp (L₁.ready (.mlfqsList i) hl) (hq₁ .tempList xs hx) h₂
      exact (L.collected_waiters hm hp ⟨xs, hx⟩ i (by omega) h₁).trans hd

theorem Lists.reinserted_waiters (hm : cfg.mlfqs = true) : ∀ (fuel : ℕ) {k k' : Kernel}
    {q : ListPtr → Option (List ThreadPtr)} {home : ThreadPtr → Option ListPtr},
    Lists cfg srt k q home → k.Known p → InRange cfg k → (∃ xs, q .tempList = some xs) →
    reinsertQueues fuel k = some k' → SameWaiters p k k'
  | 0, _, _, _, _, _, _, _, _, h => by cases h
  | fuel + 1, k, k', q, home, L, hp, hr, ⟨xs, hx⟩, h => by
      unfold reinsertQueues at h
      split at h
      case isTrue =>
        cases h
        exact .refl k
      case isFalse =>
        obtain ⟨⟨t, e⟩, h₁, h⟩ := Option.bind_eq_some_iff.mp h
        obtain ⟨k₂, h₂, h⟩ := Option.bind_eq_some_iff.mp h
        obtain ⟨ys, -, hh, L₁⟩ := L.popped hx (by rintro _ ⟨⟩) h₁
        obtain ⟨e₂, he₂, rfl⟩ := Option.map_eq_some_iff.mp h₂
        have hl : (ListPtr.mlfqsList (k.thr t).priority).IsReady cfg :=
          .mlfqsList hm (hr hm t).priority.1 (hr hm t).priority.2
        obtain ⟨zs, hz⟩ := L₁.ready _ hl
        obtain ⟨q₂, L₂, hq₂⟩ := L₁.appended hz (by rintro _ ⟨⟩) (by rintro ⟨⟩)
          (fun i h => by cases h; rfl) (by simp) he₂
        have L₃ : Lists cfg srt (((k.setElems e).setElems e₂).record
            (.insert t (k.thr t).priority)) q₂ _ :=
          L₂.congr rfl (fun _ => rfl) rfl fun _ _ _ _ => rfl
        have hpop : SameWaiters p k (k.setElems e) :=
          L.popped_waiters hp hx (by rintro ⟨⟩) (popThread_eq h₁)
        have hpush : SameWaiters p (k.setElems e) ((k.setElems e).setElems e₂) :=
          L₁.pushed_waiters (p := p) hp hz (by rintro ⟨⟩) (by simp) he₂
        have hrest := Lists.reinserted_waiters hm fuel L₃ hp hr
          (((Extends.update q .tempList ys).trans hq₂) _ _ hx) h
        exact fun xs hx => hrest xs (hpush xs (hpop xs hx))

theorem Lists.reorganized_waiters (hm : cfg.mlfqs = true) (L : Lists cfg srt k q home)
    (P : Placed (ListPtr.IsReady cfg) r sl k home) (hp : k.Known p) (hr : InRange cfg k)
    (h : mlfqsReorganizeQueues fuel k = some k') : SameWaiters p k k' := by
  obtain ⟨e, h₁, h₂⟩ := Option.bind_eq_some_iff.mp h
  obtain ⟨-, hs⟩ := isList_listInit k.elems .tempList
  have htemp : ListPtr.tempList ≠ .semaWaiters p := nofun
  have hinit : SameWaiters p k (k.setElems (k.elems.listInit .tempList)) :=
    L.sameWaiters hp htemp (by simp) hs
  have L₀ := L.unsorted.initTemp P
  obtain ⟨q₁, home₁, L₁, hq₁, -⟩ := L₀.collected hm ⟨[], by simp⟩ 64 le_rfl h₁
  have hcol : SameWaiters p (k.setElems (k.elems.listInit .tempList)) (k.setElems e) :=
    L₀.collected_waiters (p := p) hm hp ⟨[], by simp⟩ 64 le_rfl h₁
  obtain ⟨xs, hx⟩ := hq₁ .tempList [] (by simp)
  have hre : SameWaiters p (k.setElems e) k' :=
    Lists.reinserted_waiters hm fuel L₁ hp hr ⟨xs, hx⟩ h₂
  exact (hinit.trans hcol).trans hre

theorem Lists.timerMlfqs_waiters {b : Bool} (L : Lists cfg srt k q home)
    (P : Placed (ListPtr.IsReady cfg) r sl k home) (hp : k.Known p) (hr : InRange cfg k)
    (h : Pintos.timerMlfqs cfg fuel k = some (k', b)) : SameWaiters p k k' := by
  unfold Pintos.timerMlfqs at h
  split at h
  case isFalse =>
    cases h
    exact .refl k
  case isTrue hm =>
    obtain ⟨⟨k₁, b₁⟩, h₁, h⟩ := Option.bind_eq_some_iff.mp h
    obtain ⟨k₂, h₂, h⟩ := Option.bind_eq_some_iff.mp h
    cases h
    have hq : k'.elems = k₁.elems := by
      unfold timerLoad at h₂
      split at h₂
      · exact (mlfqsUpdateRcpuLa_steady h₂ : Steady cfg _ _).elems
      · cases h₂
        rfl
    refine SameWaiters.trans ?_ (.of_elems hq)
    unfold Pintos.timerPriorities at h₁
    split at h₁
    case isFalse =>
      cases h₁
      exact .refl k
    case isTrue =>
      obtain ⟨k₃, h₃, e⟩ := Option.map_eq_some_iff.mp h₁
      obtain rfl : k₃ = k₁ := congrArg Prod.fst e
      obtain ⟨k₂, h₂, h₃⟩ := Option.bind_eq_some_iff.mp h₃
      have hq : Quiet cfg k k₂ :=
        foldlM_rel (R := Quiet cfg) .refl .trans (fun k t _ h => by
          cases h
          exact mlfqsUpdatePriority_quiet hm k t) k.allList h₂
      exact (SameWaiters.of_elems hq.elems).trans
        ((L.unsorted.wakes hq.toWakes hq.elems False.elim).reorganized_waiters hm
          (P.wakes hq.toWakes) (hq.known hp) (hq.inRange hr) h₃)

theorem Lists.interruptReturn_waiters {b : Bool} (L : Lists cfg srt k q home)
    (P : Placed (ListPtr.IsReady cfg) (some k.cur) sl k home) (hp : k.Known p)
    (hr : InRange cfg k) (h : Pintos.interruptReturn cfg fuel k b = some k') :
    SameWaiters p k k' := by
  unfold Pintos.interruptReturn at h
  split at h
  case isTrue =>
    have L₁ : Lists cfg srt (k.push (.intrSetLevel true)) q home :=
      L.congr rfl (fun _ => rfl) rfl fun _ _ _ _ => rfl
    exact L₁.yieldCurrent_waiters (p := p) hp hr P.home_cur h
  case isFalse =>
    cases h
    exact .of_elems rfl

/-! ### Frames -/

/-- What frame `f` does to the waiters of semaphore `p`. -/
inductive FrameWaiters (p : SemaPtr) (k : Kernel) (f : Frame) (k' : Kernel) : Prop
  | same : f ≠ .semaUp p → SameWaiters p k k' → FrameWaiters p k f k'
  | joins : f.Downs p → JoinsWaiters p k k' → FrameWaiters p k f k'
  | leaves : f = .semaUp p → LeavesWaiters p k k' → FrameWaiters p k f k'

theorem Scheduling.waitForLock_waiters {l : LockPtr} {h : ThreadPtr} (S : Scheduling cfg srt k)
    (hp : k.Known p) (hl : ∀ t, (k.thr t).waitingLock ≠ some l)
    (hw : Pintos.waitForLock cfg fuel k l h = some k') : SameWaiters p k k' := by
  obtain ⟨⟨q, home, L, P⟩, -⟩ := S
  obtain ⟨k₂, h₁, h₂⟩ := Option.bind_eq_some_iff.mp hw
  obtain ⟨e, he, rfl⟩ := Option.map_eq_some_iff.mp h₁
  obtain ⟨⟨thr, rfl⟩, -⟩ := donatePriority_spec fuel h₂
  set k₁ := k.modify k.cur fun th => { th with waitingLock := some l }
  have hq := L.locks l hl
  obtain ⟨-, hs⟩ := L.repr.insertOrdered
    (fun a b => (k₁.thr b).priority < (k₁.thr a).priority) (fun _ => rfl) hq
    (L.homes.unlinked P.home_cur) he
  have hc : ∀ t ∈ [k.cur], home t ≠ some (.semaWaiters p) := by
    intro t ht
    rw [List.mem_singleton.mp ht, P.home_cur]
    exact nofun
  have hne : ListPtr.lockWaiters l ≠ .semaWaiters p := nofun
  exact (L.sameWaiters hp hne hc hs).trans (.of_elems rfl)

/-- **Every frame** does one of three things to the waiters of a semaphore. -/
theorem exec_waiters {f : Frame} (S : Scheduling cfg srt k) (hl : Legal cfg srt k f)
    (hp : k.Known p) (h : exec cfg fuel k f = some k') : FrameWaiters p k f k' := by
  have S₀ := S
  obtain ⟨⟨q, home, L, P⟩, hr⟩ := S₀
  have hlists : ∀ {k₁ : Kernel}, k₁.thr = k.thr → k₁.elems = k.elems →
      k₁.nextWaiter = k.nextWaiter → Lists cfg srt k₁ q home := by
    intro k₁ ht he hn
    exact L.congr he (fun _ => by rw [ht]) hn fun _ _ _ _ => by rw [ht]
  have hkeep : f ≠ .semaUp p → k'.elems = k.elems → FrameWaiters p k f k' := fun hf e =>
    .same hf (.of_elems e)
  have hdown : ∀ {s : SemaPtr} {old : Bool} {k₀ : Kernel}, f.Downs s → k₀ = k.setLevel k₀.intrOn →
      semaDownTest cfg fuel k₀ s old = some k' → FrameWaiters p k f k' := by
    intro s old k₀ hd hk₀ hx
    have L₀ : Lists cfg srt k₀ q home := by
      rw [hk₀]
      exact L.congr rfl (fun _ => rfl) rfl fun _ _ _ _ => rfl
    have hs : k₀.Known s := by
      rw [hk₀]
      exact hl.known s (.inl hd)
    have hp₀ : k₀.Known p := by
      rw [hk₀]
      exact hp
    have hc : home k₀.cur = none := by
      rw [hk₀]
      exact P.home_cur
    rcases L₀.semaDownTest_waiters hs hp₀ hc hx with h | ⟨rfl, h⟩
    · rw [hk₀] at h
      exact .same (by rintro rfl; cases hd) h
    · rw [hk₀] at h
      exact .joins hd h
  have hwake : ∀ {t : ThreadPtr} {k₁ : Kernel}, f.Unblocks t →
      threadUnblock cfg fuel k t = some k₁ → SameWaiters p k k₁ := by
    intro t k₁ hu hx
    have hb := (threadUnblock_woken hx).blocked
    obtain ⟨-, hw, -⟩ := hl.unblocks t hu hb
    have hh : home t = none := by
      have hs := P.stands t
      rw [hb] at hs
      exact hs.trans hw
    exact L.threadUnblock_waiters hp hr hh hx
  cases f <;> simp only [exec] at h
  case semaDown s => exact hdown .semaDown rfl h
  case semaDownWait s old => exact hdown .semaDownWait rfl h
  case semaUp s =>
    obtain ⟨k₁, h₁, rfl⟩ := Option.map_eq_some_iff.mp h
    obtain ⟨k₂, h₂, h₃⟩ := Option.bind_eq_some_iff.mp h₁
    cases h₃
    obtain ⟨hs, hw⟩ := L.semaWake_waiters hr (hl.known s (.inr rfl)) hp h₂
    by_cases hps : p = s
    · exact .leaves (hps ▸ rfl) (hw hps)
    · exact .same (fun h => hps (Frame.semaUp.inj h).symm) (hs hps)
  case lockAcquireBody l =>
    split at h
    case h_1 =>
      cases h
      exact hkeep (by rintro ⟨⟩) rfl
    case h_2 t ht =>
      obtain ⟨k₁, h₁, rfl⟩ := Option.map_eq_some_iff.mp h
      have hw : SameWaiters p k k₁ := S.waitForLock_waiters hp (hl.contended l t rfl ht).1 h₁
      exact .same (by rintro ⟨⟩) hw
  case lockAcquireFree l old =>
    obtain ⟨k₁, h₁, rfl⟩ := Option.map_eq_some_iff.mp h
    exact hkeep (by rintro ⟨⟩) (takeLock_calm h₁ : Calm cfg _ _ _).elems
  case lockAcquireHeld l => exact absurd rfl (hl.held l)
  case lockReleaseBody l =>
    obtain ⟨k₁, h₁, rfl⟩ := Option.map_eq_some_iff.mp h
    exact hkeep (by rintro ⟨⟩) (S.releaseLock (hl.queued .lockReleaseBody) h₁).2.elems
  case lockReleaseRefresh old =>
    obtain ⟨k₁, h₁, rfl⟩ := Option.map_eq_some_iff.mp h
    obtain ⟨hk, -⟩ := L.refreshPriority (fun l t ht =>
      P.inQueue L (hl.queued .lockReleaseRefresh l t ht)) h₁
    have he : k₁.elems = k.elems := by rw [hk]; rfl
    refine hkeep (by rintro ⟨⟩) ?_
    split <;> exact he
  case condWait c l =>
    split at h <;> cases h
    have hw : SemaPtr.ofWaiter k.nextWaiter ≠ p := by
      rintro rfl
      exact lt_irrefl _ (hp _ rfl)
    obtain ⟨-, hs⟩ := isList_listInit k.elems (.semaWaiters (.ofWaiter k.nextWaiter))
    have hne : ListPtr.semaWaiters (.ofWaiter k.nextWaiter) ≠ .semaWaiters p := by simpa using hw
    exact .same (by rintro ⟨⟩) (L.sameWaiters hp hne (by simp) hs)
  case threadYield =>
    have L₁ : Lists cfg srt ((k.push (.intrSetLevel k.intrOn)).setLevel false) q home :=
      hlists rfl rfl rfl
    exact .same (by rintro ⟨⟩) (L₁.yieldCurrent_waiters (p := p) hp hr P.home_cur h)
  case threadBlock =>
    have L₁ : Lists cfg srt (k.push .threadBlockReturn) q home := hlists rfl rfl rfl
    exact .same (by rintro ⟨⟩) (L₁.blockCurrent_waiters (p := p) hp h)
  case threadUnblock t => exact .same (by rintro ⟨⟩) (hwake .threadUnblock h)
  case threadExit => exact .same (by rintro ⟨⟩) (L.exitCurrent_waiters hp h)
  case threadCreateUnblock t =>
    obtain ⟨k₁, h₁, rfl⟩ := Option.map_eq_some_iff.mp h
    have hw : SameWaiters p k k₁ := hwake .threadCreateUnblock h₁
    exact .same (by rintro ⟨⟩) hw
  case idleLoop =>
    have L₁ : Lists cfg srt ((k.push .idleResume).setLevel false) q home := hlists rfl rfl rfl
    exact .same (by rintro ⟨⟩) (L₁.blockCurrent_waiters (p := p) hp h)
  case timerSleepBody start n =>
    set k₁ := k.modify k.cur fun th => { th with wakeupTick := toInt64 (start + n) }
    have hm : Calm cfg k k₁ [] :=
      .modify (fun _ => rfl) (fun _ => rfl) (fun _ => rfl) fun _ => rfl
    have L₁ : Lists cfg srt (((insertSleeper k₁ k₁.cur).push (.timerSleepReturn k.intrOn)).setLevel
        false) q home :=
      (hm.lists L).congr rfl (fun _ => rfl) rfl fun _ _ _ _ => rfl
    exact .same (by rintro ⟨⟩) (L₁.blockCurrent_waiters (p := p) hp h)
  case idleHalt => cases h
  case semaTryDown s =>
    cases h
    exact hkeep (by rintro ⟨⟩) (semaTryDown_calm k _ s : Calm cfg _ _ _).elems
  case lockTryAcquireDown l =>
    cases h
    refine hkeep (by rintro ⟨⟩) ?_
    split <;> exact (semaTryDown_calm k _ (.ofLock l) : Calm cfg _ _ _).elems
  case condSignalMax c m es =>
    cases es with
    | nil =>
        cases h
        exact hkeep (by rintro ⟨⟩) rfl
    | cons e es =>
        obtain ⟨less, -, rfl⟩ := Option.map_eq_some_iff.mp h
        exact hkeep (by rintro ⟨⟩) rfl
  case checkPreemptionRead =>
    obtain ⟨n, -, rfl⟩ := Option.map_eq_some_iff.mp h
    exact hkeep (by rintro ⟨⟩) rfl
  case mlfqsCheckPreemption i =>
    cases i with
    | zero =>
        cases h
        exact hkeep (by rintro ⟨⟩) rfl
    | succ i =>
        cases h
        refine hkeep (by rintro ⟨⟩) ?_
        split <;> rfl
  case checkPreemption | checkPreemptionCompare | mlfqsCheckPreemptionCompare |
      threadSetNiceUpdate | threadCreateLink =>
    cases h
    refine hkeep (by rintro ⟨⟩) ?_
    split <;> rfl
  case timerSleep =>
    split at h <;> cases h
    refine hkeep (by rintro ⟨⟩) ?_
    split <;> rfl
  case lockAcquire | lockTryAcquire | lockRelease | condSignal | condSignalFirst | condBroadcast |
      checkPreemptionFront =>
    split at h <;> cases h <;> exact hkeep (by rintro ⟨⟩) rfl
  case threadCreate =>
    split at h
    · cases h
      exact hkeep (by rintro ⟨⟩) rfl
    · split at h <;> cases h
      exact hkeep (by rintro ⟨⟩) rfl
  all_goals
    cases h
    exact hkeep (by rintro ⟨⟩) rfl

/-! ### Steps -/

/-- The step is a `sema_up` on `p`, in a thread or in an interrupt handler. -/
def Label.Ups (k : Kernel) (p : SemaPtr) (lab : Label) : Prop :=
  (lab = .run ∧ ∃ fs, k.stack k.cur = .semaUp p :: fs) ∨ ∃ n, p = .user n ∧ lab = .semaUp n

/-- What a step does to the waiters of semaphore `p`. -/
inductive StepWaiters (p : SemaPtr) (k : Kernel) (lab : Label) (k' : Kernel) : Prop
  | same : ¬ lab.Ups k p → SameWaiters p k k' → StepWaiters p k lab k'
  | joins {f fs} : lab = .run → k.stack k.cur = f :: fs → f.Downs p → JoinsWaiters p k k' →
      StepWaiters p k lab k'
  | leaves : lab.Ups k p → LeavesWaiters p k k' → StepWaiters p k lab k'

theorem endHalt_elems (k : Kernel) : (endHalt k).elems = k.elems := by
  obtain ⟨fs, e⟩ := endHalt_eq k
  rw [e]

theorem endHalt_known (hp : k.Known p) : (endHalt k).Known p := by
  obtain ⟨fs, e⟩ := endHalt_eq k
  rw [e]
  exact hp

theorem endHalt_inRange (hr : InRange cfg k) : InRange cfg (endHalt k) := by
  obtain ⟨fs, e⟩ := endHalt_eq k
  rw [e]
  exact hr

theorem Lists.timerHandler_waiters {b : Bool} (L : Lists cfg srt k q home)
    (P : Placed (ListPtr.IsReady cfg) (some k.cur) k.sleepList k home) (hr : InRange cfg k)
    (hf : IdleFree k) (hp : k.Known p)
    (h : Pintos.timerHandler cfg fuel k = some (k', b)) : SameWaiters p k k' := by
  simp only [Pintos.timerHandler, Option.bind_eq_bind, Option.bind_eq_some_iff] at h
  obtain ⟨k₂, h₂, ⟨k₃, b'⟩, h₃, h⟩ := h
  cases h
  obtain ⟨fs, ek⟩ := endHalt_eq k
  have hsl : (endHalt k).sleepList = k.sleepList := by rw [ek]
  have hq₀ : Steady cfg (endHalt k) (ticked k) := .of_eq rfl ⟨rfl, rfl⟩ rfl rfl rfl
  set k₁ := (threadTick cfg (ticked k)).1
  have hq : Steady cfg (endHalt k) k₁ := hq₀.trans (threadTick_steady (ticked k))
  have L₁ := (endHalt_lists L).steady hq
  have P₁ := (endHalt_placed P).wakes hq.toWakes
  rw [← hsl, ← hq.sleepList] at P₁
  have hin := hq.inRange (endHalt_inRange hr)
  have hp₁ := hq.known (endHalt_known hp)
  have hfree := hq.idleFree (endHalt_idleFree hf)
  obtain ⟨hw₂, q₂, home₂, L₂, P₂⟩ := Lists.timerWakeup k₁.sleepList L₁ P₁ hin hfree h₂
  have he : SameWaiters p k k₁ := .of_elems (hq.elems.trans (endHalt_elems k))
  exact (he.trans (Lists.timerWakeup_waiters k₁.sleepList L₁ P₁ hin hfree hp₁ h₂)).trans
    (L₂.timerMlfqs_waiters P₂ (hw₂.known hp₁) (hw₂.inRange hin) h₃)

theorem Lists.timerInterrupt_waiters (L : Lists cfg srt k q home)
    (P : Placed (ListPtr.IsReady cfg) (some k.cur) k.sleepList k home) (hr : InRange cfg k)
    (hf : IdleFree k) (hp : k.Known p) (h : Pintos.timerInterrupt cfg fuel k = some k') :
    SameWaiters p k k' := by
  rw [timerInterrupt_eq] at h
  obtain ⟨⟨k₁, b⟩, h₁, h⟩ := Option.bind_eq_some_iff.mp h
  obtain ⟨hw, q₁, home₁, L₁, P₁⟩ := L.timerHandler P hr hf h₁
  exact (L.timerHandler_waiters P hr hf hp h₁).trans (L₁.interruptReturn_waiters P₁
    (hw.known (endHalt_known hp)) (hw.inRange (endHalt_inRange hr)) h)

theorem WakesWaiter.inRange {s : SemaPtr} (h : WakesWaiter cfg s k k') (hr : InRange cfg k) :
    InRange cfg k' := by
  obtain ⟨rfl, -⟩ | ⟨t, -, hw⟩ := h
  · exact hr
  · exact hw.inRange hr

theorem WakesWaiter.known {s : SemaPtr} (h : WakesWaiter cfg s k k') (hp : k.Known p) :
    k'.Known p := by
  obtain ⟨rfl, -⟩ | ⟨t, -, hw⟩ := h
  · exact hp
  · exact hw.wakes.known hp

theorem Lists.semaUpInterrupt_waiters {s : SemaPtr} (L : Lists cfg srt k q home)
    (P : Placed (ListPtr.IsReady cfg) (some k.cur) k.sleepList k home) (hr : InRange cfg k)
    (hf : IdleFree k) (hs : k.Known s) (hp : k.Known p)
    (h : Pintos.semaUpInterrupt cfg fuel k s = some k') :
    (p ≠ s → SameWaiters p k k') ∧ (p = s → LeavesWaiters p k k') := by
  simp only [Pintos.semaUpInterrupt, Option.bind_eq_bind, Option.bind_eq_some_iff] at h
  obtain ⟨k₂, h₂, b, -, h⟩ := h
  set k₀ := (endHalt k).setLevel false with hk₀
  have he : k₀.elems = k.elems := endHalt_elems k
  have L₀ : Lists cfg srt k₀ q home :=
    (endHalt_lists L).congr rfl (fun _ => rfl) rfl fun _ _ _ _ => rfl
  have P₀ : Placed (ListPtr.IsReady cfg) (some k.cur) k.sleepList k₀ home :=
    (endHalt_placed P).congr (fun _ => rfl) (fun _ _ => rfl) rfl rfl rfl
  have hin : InRange cfg k₀ := endHalt_inRange hr
  have hp₀ : k₀.Known p := endHalt_known hp
  have hs₀ : k₀.Known s := endHalt_known hs
  obtain ⟨-, hc₂⟩ := semaUpBody_sync h₂
  obtain ⟨⟨k₁, hw, hk₂⟩, q₁, home₁, L₁, P₁⟩ := L₀.semaUpBody P₀ hin hs₀ (endHalt_idleFree hf) h₂
  have hin₂ : InRange cfg k₂ := hk₂ ▸ hw.inRange hin
  have hp₂ : k₂.Known p := hk₂ ▸ hw.known hp₀
  rw [show k.cur = k₂.cur from (hc₂.trans (endHalt_cur k)).symm] at P₁
  have hret := L₁.interruptReturn_waiters P₁ hp₂ hin₂ h
  obtain ⟨k₃, h₃, h₄⟩ := Option.bind_eq_some_iff.mp h₂
  cases h₄
  obtain ⟨hsame, hleave⟩ := L₀.semaWake_waiters hin hs₀ hp₀ h₃
  refine ⟨fun hps xs hx => hret _ (hsame hps xs (he ▸ hx)), fun hps xs hx => ?_⟩
  exact hret _ (hleave hps xs (he ▸ hx))

/-- **Every tame step** does one of three things to the waiters of a semaphore. -/
theorem Good.stepWaiters {lab : Label} (G : Good cfg srt k) (C : Control k)
    (hT : Tame cfg srt k lab) (hp : k.Known p) (h : Pintos.step cfg fuel k lab = some k') :
    StepWaiters p k lab k' := by
  have S := G.sched
  obtain ⟨⟨q, home, L, P⟩, hr⟩ := G.sched
  cases lab with
  | call c =>
      rw [Pintos.step] at h
      split at h <;> cases h
      exact .same (fun hu => by simp [Label.Ups] at hu) (.of_elems rfl)
  | run =>
      rcases e : k.stack k.cur with - | ⟨f, fs⟩
      · simp [Pintos.step, e] at h
      · rw [Pintos.step, e] at h
        rcases exec_waiters (S.popFrame fs) (G.legal C e (hT f fs e)) hp h with
          ⟨hf, hs⟩ | ⟨hd, hj⟩ | ⟨rfl, hl⟩
        · refine .same ?_ hs
          rintro (⟨-, gs, hst⟩ | ⟨n, -, ⟨⟩⟩)
          rw [e] at hst
          exact hf (List.cons.inj hst).1
        · exact .joins rfl e hd hj
        · exact .leaves (.inl ⟨rfl, fs, e⟩) hl
  | timer =>
      rw [Pintos.step] at h
      split at h
      case isFalse => cases h
      case isTrue =>
        exact .same (fun hu => by simp [Label.Ups] at hu)
          (L.timerInterrupt_waiters P hr C.inv.idleFree hp h)
  | semaUp n =>
      rw [Pintos.step] at h
      split at h
      case isFalse => cases h
      case isTrue =>
        have hn : k.Known (.user n) := by
          intro w hw
          cases hw
        obtain ⟨hs, hl⟩ := L.semaUpInterrupt_waiters P hr C.inv.idleFree hn hp h
        by_cases hpn : p = .user n
        · exact .leaves (.inr ⟨n, hpn, rfl⟩) (hl hpn)
        · refine .same ?_ (hs hpn)
          rintro (⟨⟨⟩, -⟩ | ⟨m, hm, ⟨⟩⟩)
          exact hpn hm
  | semaTryDown n =>
      rw [Pintos.step] at h
      split at h
      case isFalse => cases h
      case isTrue =>
        obtain ⟨rfl, -⟩ := L.semaTryDownInterrupt P h
        refine .same (fun hu => by simp [Label.Ups] at hu) (.of_elems ?_)
        exact (semaTryDown_silent ((endHalt k).setLevel false) none (.user n)).elems.trans
          (endHalt_elems k)

end Pintos
