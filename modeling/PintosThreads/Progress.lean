/-
PintosThreads/Progress.lean

Operations of the scheduler that come to an end.

The loops of the model run on fuel, and each step of theirs goes on to the next
thread of a list.  A ready queue holds every thread once at most, so that fuel
for all threads is enough for `thread_unblock`, for a yield and for `sema_up`
(`Good.ups_isSome`).
-/
import PintosThreads.WaiterLists
import PintosThreads.ControlFrames

namespace Pintos

open Intrusive

variable {cfg : Config} {fuel : ℕ} {srt : Prop} {k k' : Kernel} {lab : Label} {p : SemaPtr}
variable {q : ListPtr → Option (List ThreadPtr)} {home : ThreadPtr → Option ListPtr}
variable {A : ListPtr → Prop} {r : Option ThreadPtr} {sl : List ThreadPtr} {t : ThreadPtr}

/-- A thread in a list exists. -/
theorem Placed.home_lt (P : Placed A r sl k home) {l : ListPtr} (h : home t = some l) :
    t < k.nextThread := by
  refine P.lt fun hd => ?_
  have hs := P.stands t
  rw [hd, h] at hs
  cases hs

/-- A list holds a thread once at most. -/
theorem Lists.length_le (L : Lists cfg srt k q home) {n : ℕ}
    (hlt : ∀ t l, home t = some l → t < n) {l : ListPtr} {xs : List ThreadPtr}
    (hq : q l = some xs) : xs.length ≤ n := by
  have hsub : xs ⊆ List.range n := by
    intro t ht
    exact List.mem_range.mpr (hlt t l ((L.homes l xs hq t).mp ht))
  have hle := ((L.repr.isList hq).nodup.subperm hsub).length_le
  rwa [List.length_range] at hle

/-! ### Ready queues -/

/-- A thread that is in no list can be enqueued. -/
theorem Lists.enqueue_isSome (L : Lists cfg srt k q home)
    (hlt : ∀ t l, home t = some l → t < k.nextThread) (hr : InRange cfg k) (ht : home t = none)
    (hf : k.nextThread < fuel) :
    (if cfg.mlfqs then mlfqsInsert k t
      else insertByPriority cfg fuel k .readyList t).isSome := by
  split
  case isTrue hm =>
    obtain ⟨ys, hq⟩ := L.ready _ (.mlfqsList hm (hr hm t).priority.1 (hr hm t).priority.2)
    obtain ⟨e, he, -⟩ := L.repr.pushBack hq (L.homes.unlinked ht)
    rw [mlfqsInsert, Option.isSome_map, he]
    rfl
  case isFalse hm =>
    obtain ⟨ys, hq⟩ := L.ready _ (.readyList (by simpa using hm))
    rw [insertByPriority, Option.isSome_map]
    exact L.repr.insertOrdered_isSome hq (L.homes.unlinked ht) ((L.length_le hlt hq).trans_lt hf)

/-- **`thread_unblock`** of a blocked thread that is in no list. -/
theorem Lists.threadUnblock_isSome (L : Lists cfg srt k q home)
    (hlt : ∀ t l, home t = some l → t < k.nextThread) (hr : InRange cfg k) (ht : home t = none)
    (hk : t < k.nextThread) (hb : (k.thr t).status = .blocked) (hf : k.nextThread < fuel) :
    (Pintos.threadUnblock cfg fuel k t).isSome := by
  rw [Pintos.threadUnblock, if_pos ⟨hk, hb⟩]
  dsimp only
  set k₁ := (k.modify t fun th => { th with status := .ready }).record (.unblock t)
  have hpr : ∀ u, (k₁.thr u).priority = (k.thr u).priority := by
    intro u
    obtain rfl | hu := eq_or_ne u t <;> simp [k₁, *]
  have hwl : ∀ u, (k₁.thr u).waitingLock = (k.thr u).waitingLock := by
    intro u
    obtain rfl | hu := eq_or_ne u t <;> simp [k₁, *]
  have L₁ : Lists cfg False k₁ q home := L.unsorted.congr rfl hwl rfl False.elim
  have hr₁ : InRange cfg k₁ := by
    intro hm u
    refine (hr hm u).of_eq (hpr u) ?_
    obtain rfl | hu := eq_or_ne u t <;> simp [k₁, *]
  split
  case isTrue hm =>
    have hq := mlfqsUpdatePriority_quiet hm k₁ t
    have hn : (mlfqsUpdatePriority k₁ t).nextThread = k.nextThread := hq.sync.nextThread
    have L₂ : Lists cfg False (mlfqsUpdatePriority k₁ t) q home :=
      L₁.wakes hq.toWakes hq.elems False.elim
    have he := L₂.enqueue_isSome (hn ▸ hlt) (hq.inRange hr₁) ht (hn ▸ hf)
    rwa [if_pos hm] at he
  case isFalse hm =>
    have he := L₁.enqueue_isSome hlt hr₁ ht hf
    rwa [if_neg hm] at he

/-! ### The switch -/

/-- There is somebody to run, as soon as a thread is ready or the idle thread exists. -/
theorem Lists.nextThreadToRun_isSome (L : Lists cfg srt k q home)
    (P : Placed (ListPtr.IsReady cfg) r sl k home)
    (h : k.idleThread ≠ none ∨ (k.thr t).status = .ready) :
    (Pintos.nextThreadToRun cfg k).isSome := by
  have hidle : k.idleThread ≠ none → (k.idleThread.map (·, k.elems)).isSome := by
    intro hi
    rw [Option.isSome_map]
    exact Option.isSome_iff_ne_none.mpr hi
  have hpop : ∀ {l : ListPtr}, l.IsReady cfg → k.elems.listEmpty l = false →
      (popThread k.elems l).isSome := by
    intro l hl he
    obtain ⟨xs, hq⟩ := L.ready l hl
    rcases xs with - | ⟨x, xs⟩
    · rw [(L.repr.isList hq).listEmpty.mpr rfl] at he
      cases he
    · obtain ⟨e, he', -⟩ := L.repr.popFront hq
      rw [popThread, he']
      rfl
  -- a ready thread other than the idle thread is in one of the queues
  have hqueue : k.idleThread = none → ∃ l, l.IsReady cfg ∧ k.elems.listEmpty l = false := by
    intro hi
    have hs := h.resolve_left (not_not.mpr hi)
    obtain ⟨l, hl, hh⟩ := P.home_of_ready hs (by rw [hi]; rintro ⟨⟩)
    obtain ⟨xs, hq⟩ := L.ready l hl
    refine ⟨l, hl, ?_⟩
    rw [Bool.eq_false_iff, Ne, L.listEmpty hq]
    exact fun hall => hall t hh
  rw [Pintos.nextThreadToRun]
  split
  case isTrue hm =>
    rw [mlfqsNextThreadToRun]
    rcases hi : mlfqsHighest k.elems 64 with - | i
    · refine hidle fun hn => ?_
      obtain ⟨l, hl, he⟩ := hqueue hn
      cases hl with
      | readyList hf => simp [hm] at hf
      | @mlfqsList i _ h0 h1 =>
          lift i to ℕ using h0
          rw [(mlfqsHighest_spec 64).2 hi i (by unfold priMax at h1; omega)] at he
          cases he
    · obtain ⟨hlt, he, -⟩ := (mlfqsHighest_spec 64).1 i hi
      exact hpop (.mlfqsList hm (Int.natCast_nonneg i) (by unfold priMax; omega)) he
  case isFalse hm =>
    split
    case isTrue he =>
      refine hidle fun hn => ?_
      obtain ⟨l, hl, he'⟩ := hqueue hn
      cases hl with
      | readyList => simp [he] at he'
      | mlfqsList hm' => exact absurd hm' hm
    case isFalse he => exact hpop (.readyList (by simpa using hm)) (by simpa using he)

theorem Lists.schedule_isSome (L : Lists cfg srt k q home)
    (P : Placed (ListPtr.IsReady cfg) none sl k home) (hi : IdleFree k) (hoff : k.intrOn = false)
    (hc : (k.thr k.cur).status = .ready) : (Pintos.schedule cfg k).isSome := by
  obtain ⟨⟨n, e⟩, hn⟩ := Option.isSome_iff_exists.mp
    (L.nextThreadToRun_isSome P (t := k.cur) (.inr hc))
  obtain ⟨-, hch⟩ := L.nextThreadToRun P hi hn
  have hlt : n < k.nextThread := by
    refine P.lt ?_
    obtain ⟨hs, -⟩ | ⟨-, hs, -⟩ := hch
    · rw [hs]
      rintro ⟨⟩
    · exact hs
  rw [Pintos.schedule, hn, Option.bind_eq_bind, Option.bind_some]
  dsimp only
  rw [if_pos]
  · rfl
  · refine ⟨hoff, ?_, hlt⟩
    rw [hc]
    rintro ⟨⟩

/-- **A yield** of the running thread. -/
theorem Lists.yieldCurrent_isSome (L : Lists cfg srt k q home)
    (P : Placed (ListPtr.IsReady cfg) (some k.cur) sl k home) (hr : InRange cfg k)
    (hi : IdleFree k) (hoff : k.intrOn = false) (hf : k.nextThread < fuel) :
    (Pintos.yieldCurrent cfg fuel k).isSome := by
  have hins : (Pintos.yieldInsert cfg fuel k).isSome := by
    rw [Pintos.yieldInsert]
    split
    · rfl
    · exact L.enqueue_isSome (fun _ _ => P.home_lt) hr P.home_cur hf
  obtain ⟨k₁, h₁⟩ := Option.isSome_iff_exists.mp hins
  obtain ⟨hk, q', home', L', P'⟩ := L.yieldInsert P hr h₁
  have hon : k₁.intrOn = false := by
    rw [← hoff]
    rw [Pintos.yieldInsert] at h₁
    split at h₁
    · cases h₁
      rfl
    · split at h₁
      · obtain ⟨e, rfl⟩ := mlfqsInsert_eq h₁
        rfl
      · obtain ⟨e, rfl⟩ := insertByPriority_eq h₁
        rfl
  rw [Pintos.yieldCurrent, h₁]
  exact L'.schedule_isSome P' (hi.of_sync hk.sync.symm) hon (by simp [Kernel.modify])

/-- A yield that saves the interrupt level. -/
theorem Lists.yield_isSome {b : Bool} (L : Lists cfg srt k q home)
    (P : Placed (ListPtr.IsReady cfg) (some k.cur) sl k home) (hr : InRange cfg k)
    (hi : IdleFree k) (hf : k.nextThread < fuel) :
    (Pintos.yieldCurrent cfg fuel ((k.push (.intrSetLevel b)).setLevel false)).isSome := by
  set k₁ := (k.push (.intrSetLevel b)).setLevel false with hk₁
  have hst : ∀ u, u ≠ k.cur → k₁.stack u = k.stack u := fun u hu => Function.update_of_ne hu ..
  have L₁ : Lists cfg srt k₁ q home := L.congr rfl (fun _ => rfl) rfl fun _ _ _ _ => rfl
  have P₁ : Placed (ListPtr.IsReady cfg) (some k.cur) sl k₁ home :=
    P.congr (fun _ => rfl) (fun u hu => hst u fun h => hu (h ▸ rfl)) rfl rfl rfl
  refine L₁.yieldCurrent_isSome P₁ hr (fun t ht => ?_) rfl hf
  obtain rfl | hu := eq_or_ne t k.cur
  · simp [hk₁, waitsOn, Sleeps]
  · rw [hst t hu]
    exact hi t ht

/-- The return from an interrupt. -/
theorem Lists.interruptReturn_isSome {b : Bool} (L : Lists cfg srt k q home)
    (P : Placed (ListPtr.IsReady cfg) (some k.cur) sl k home) (hr : InRange cfg k)
    (hi : IdleFree k) (hoff : k.intrOn = false) (hf : k.nextThread < fuel) :
    (Pintos.interruptReturn cfg fuel k b).isSome := by
  rw [Pintos.interruptReturn]
  split
  · have hk : (k.push (.intrSetLevel true)).setLevel k.intrOn = k.push (.intrSetLevel true) := rfl
    rw [← hk, hoff]
    exact L.yield_isSome P hr hi hf
  · rfl

/-! ### `sema_up` -/

theorem Lists.semaUpBody_isSome {agent : Option ThreadPtr} (L : Lists cfg srt k q home)
    (P : Placed (ListPtr.IsReady cfg) r sl k home) (hr : InRange cfg k) (hp : k.Known p)
    (hf : k.nextThread < fuel) : (Pintos.semaUpBody cfg fuel k agent p).isSome := by
  obtain ⟨xs, hq⟩ := L.semas p hp
  have hwake : (Pintos.semaWake cfg fuel k p).isSome := by
    rw [Pintos.semaWake]
    split
    case isTrue => rfl
    case isFalse he =>
      rcases xs with - | ⟨x, xs⟩
      · exact absurd ((L.repr.isList hq).listEmpty.mpr rfl) he
      · obtain ⟨e, he', -⟩ := L.repr.popFront hq
        have hpop : popThread k.elems (.semaWaiters p) = some (x, e) := by rw [popThread, he']
        obtain ⟨ys, -, hh, L₁⟩ := L.popped hq (by rintro _ ⟨⟩) hpop
        have hw := (P.waiting_iff (not_isReady_semaWaiters p) x).mp hh
        rw [hpop, Option.bind_eq_bind, Option.bind_some]
        refine L₁.threadUnblock_isSome (fun t l hl => ?_) hr (Function.update_self ..) (P.home_lt hh)
          hw.1 hf
        obtain rfl | htx := eq_or_ne t x
        · rw [Function.update_self] at hl
          cases hl
        · rw [Function.update_of_ne htx] at hl
          exact P.home_lt hl
  obtain ⟨k₁, h₁⟩ := Option.isSome_iff_exists.mp hwake
  rw [Pintos.semaUpBody, h₁]
  rfl

theorem preemptionCheckIntr_isSome {ys : List ThreadPtr}
    (h : cfg.mlfqs = false → IsList k.elems .readyList ys) : (preemptionCheckIntr cfg k).isSome := by
  rw [preemptionCheckIntr]
  split
  case isTrue => rfl
  case isFalse hm =>
    have hl := h (by simpa using hm)
    rw [checkPreemptionIntr]
    split
    case isTrue => rfl
    case isFalse he =>
      rcases ys with - | ⟨y, ys⟩
      · exact absurd (hl.listEmpty.mpr rfl) he
      · rw [hl.listFront]
        rfl

/-- **`sema_up` comes to an end**, in a thread and in an interrupt handler. -/
theorem Good.ups_isSome (G : Good cfg srt k) (C : Control k) (hu : lab.Ups k p)
    (hon : lab = .run ∨ k.intrOn = true) (hf : k.nextThread < fuel) :
    (Pintos.step cfg fuel k lab).isSome := by
  rcases hu with ⟨rfl, fs, e⟩ | ⟨n, rfl, rfl⟩
  · obtain ⟨⟨q, home, L, P⟩, hr⟩ := G.sched.popFrame fs
    have hp : k.Known p := C.known (u := k.cur) (by rw [e]; exact .head _) (.inr rfl)
    have hs : (Pintos.semaUpBody cfg fuel (popFrame k fs) (some k.cur) p).isSome :=
      L.semaUpBody_isSome P hr hp hf
    rw [Pintos.step, e]
    simp only [exec]
    rwa [Option.isSome_map]
  · obtain ⟨⟨q, home, L, P⟩, hr⟩ := G.sched
    have hon : k.intrOn = true := hon.resolve_left (by rintro ⟨⟩)
    rw [Pintos.step, if_pos hon]
    set k₀ := (endHalt k).setLevel false
    have L₀ : Lists cfg srt k₀ q home :=
      (endHalt_lists L).congr rfl (fun _ => rfl) rfl fun _ _ _ _ => rfl
    have P₀ : Placed (ListPtr.IsReady cfg) (some k.cur) k.sleepList k₀ home :=
      (endHalt_placed P).congr (fun _ => rfl) (fun _ _ => rfl) rfl rfl rfl
    have hin : InRange cfg k₀ := endHalt_inRange hr
    have hi : IdleFree k₀ := endHalt_idleFree C.inv.idleFree
    have hn : k₀.nextThread = k.nextThread := endHalt_nextThread k
    have hp : k₀.Known (.user n) := by
      intro t
      rintro ⟨⟩
    have hs : (Pintos.semaUpBody cfg fuel k₀ none (.user n)).isSome :=
      L₀.semaUpBody_isSome P₀ hin hp (hn ▸ hf)
    obtain ⟨k₁, h₁⟩ := Option.isSome_iff_exists.mp hs
    obtain ⟨⟨k₂, hw, rfl⟩, q₁, home₁, L₁, P₁⟩ :=
      L₀.semaUpBody P₀ hin hp hi h₁
    have hi₂ : IdleFree k₂ := hi.of_sync hw.sync.1.symm
    have hc : k₂.cur = k.cur := (semaUpBody_sync h₁).2.trans (endHalt_cur k)
    obtain ⟨b, hb⟩ : ∃ b, preemptionCheckIntr cfg (k₂.raised none (.user n)) = some b := by
      refine Option.isSome_iff_exists.mp ?_
      by_cases hm : cfg.mlfqs = true
      · rw [preemptionCheckIntr, if_pos hm]
        rfl
      · obtain ⟨ys, hq⟩ := L₁.ready _ (.readyList (by simpa using hm))
        exact preemptionCheckIntr_isSome fun _ => L₁.repr.isList hq
    rw [← hc] at P₁
    have hf₂ : k₂.nextThread < fuel := by
      rwa [show k₂.nextThread = k.nextThread from hw.sync.nextThread.trans hn]
    have hret : (Pintos.interruptReturn cfg fuel (k₂.raised none (.user n)) b).isSome :=
      L₁.interruptReturn_isSome P₁ (hw.inRange hin) hi₂ (semaUpBody_sameControl h₁).intrOn hf₂
    rw [Pintos.semaUpInterrupt]
    show ((Pintos.semaUpBody cfg fuel k₀ none (.user n)).bind _).isSome
    rw [h₁, Option.bind_some]
    show ((preemptionCheckIntr cfg (k₂.raised none (.user n))).bind _).isSome
    rw [hb]
    exact hret

end Pintos
