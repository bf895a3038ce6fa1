/-
PintosThreads/InterruptQueues.lean

What interrupts do to the lists of the kernel: the threads that
`timer_wakeup` wakes, the rebuilding of the MLFQS queues, and the yield on
return.

While the queues are rebuilt a ready thread may be in the temporary list; that
is the one place where `Placed` is used with a larger set of lists for ready
threads than the ready queues.
-/
import PintosThreads.Queues

namespace Pintos

open Intrusive

variable {cfg : Config} {fuel : ℕ} {srt : Prop} {k k' : Kernel}
variable {q : ListPtr → Option (List ThreadPtr)} {home : ThreadPtr → Option ListPtr}
variable {A : ListPtr → Prop} {r : Option ThreadPtr} {sl : List ThreadPtr}

/-! ### Steps that only wake threads -/

/-- Between `k` and `k'` some threads that satisfy `S` have been woken, and no other
status has changed. -/
structure Wakes (cfg : Config) (S : ThreadPtr → Prop) (k k' : Kernel) : Prop where
  status : ∀ u, (k'.thr u).status = (k.thr u).status ∨
    (S u ∧ (k.thr u).status = .blocked ∧ (k'.thr u).status = .ready)
  waitingLock : ∀ u, (k'.thr u).waitingLock = (k.thr u).waitingLock
  priority : cfg.mlfqs = false → ∀ u, (k'.thr u).priority = (k.thr u).priority
  sync : SameSync k k'
  allList : k'.allList = k.allList
  inRange : InRange cfg k → InRange cfg k'

theorem Wakes.refl (S : ThreadPtr → Prop) (k : Kernel) : Wakes cfg S k k :=
  ⟨fun _ => .inl rfl, fun _ => rfl, fun _ _ => rfl, .refl k, rfl, id⟩

theorem Wakes.trans {S : ThreadPtr → Prop} {k₁ k₂ k₃ : Kernel} (h₁ : Wakes cfg S k₁ k₂)
    (h₂ : Wakes cfg S k₂ k₃) : Wakes cfg S k₁ k₃ where
  status := by
    intro u
    obtain e₂ | ⟨hS, hb, hr⟩ := h₂.status u
    · rw [e₂]
      exact h₁.status u
    · obtain e₁ | ⟨-, -, hr₁⟩ := h₁.status u
      · exact .inr ⟨hS, e₁ ▸ hb, hr⟩
      · rw [hr₁] at hb
        cases hb
  waitingLock := fun u => (h₂.waitingLock u).trans (h₁.waitingLock u)
  priority := fun hm u => (h₂.priority hm u).trans (h₁.priority hm u)
  sync := h₂.sync.after h₁.sync
  allList := h₂.allList.trans h₁.allList
  inRange := fun h => h₂.inRange (h₁.inRange h)

theorem Wakes.mono {S T : ThreadPtr → Prop} (h : Wakes cfg S k k') (hST : ∀ u, S u → T u) :
    Wakes cfg T k k' :=
  { h with status := fun u => (h.status u).imp id fun hu => ⟨hST u hu.1, hu.2⟩ }

theorem Woken.wakes {t : ThreadPtr} (h : Woken cfg t k k') : Wakes cfg (· = t) k k' where
  status := by
    intro u
    obtain rfl | hu := eq_or_ne u t
    · exact .inr ⟨rfl, h.blocked, h.restatus.1⟩
    · exact .inl (h.restatus.2 u hu)
  waitingLock := h.waitingLock
  priority := h.priority
  sync := h.sync
  allList := h.allList
  inRange := h.inRange

theorem Wakes.stack {S : ThreadPtr → Prop} (h : Wakes cfg S k k') : k'.stack = k.stack :=
  congrArg Sync.stack h.sync.1

theorem Wakes.idleThread {S : ThreadPtr → Prop} (h : Wakes cfg S k k') :
    k'.idleThread = k.idleThread :=
  congrArg Sync.idleThread h.sync.1

theorem Wakes.idleFree {S : ThreadPtr → Prop} (h : Wakes cfg S k k') (hf : IdleFree k) :
    IdleFree k' :=
  hf.of_sync h.sync.1.symm

/-- Lists whose links are not written stay as they are. -/
theorem Lists.wakes {S : ThreadPtr → Prop} (L : Lists cfg srt k q home) (h : Wakes cfg S k k')
    (he : k'.elems = k.elems) (hp : srt → ∀ u, (k'.thr u).priority = (k.thr u).priority) :
    Lists cfg srt k' q home :=
  L.congr he h.waitingLock (congrArg Sync.nextWaiter h.sync.1) fun hs u _ _ => hp hs u

theorem Placed.wakes (P : Placed A r sl k home) (h : Wakes cfg (fun _ => False) k k') :
    Placed A r sl k' home := by
  refine P.congr (fun u => ?_) (fun u _ => by rw [h.stack]) h.idleThread h.sync.nextThread h.allList
  obtain e | ⟨hF, -⟩ := h.status u
  · exact e
  · exact hF.elim

/-! ### The alarm clock -/

/-- **`timer_wakeup`**: the threads that it wakes leave the sleep list. -/
theorem Lists.timerWakeup {now : ℤ} : ∀ (ts : List ThreadPtr) {k k' : Kernel}
    {q : ListPtr → Option (List ThreadPtr)} {home : ThreadPtr → Option ListPtr},
    Lists cfg srt k q home → Placed (ListPtr.IsReady cfg) r ts k home → InRange cfg k →
    IdleFree k → timerWakeup cfg fuel now ts k = some k' →
    Wakes cfg (fun u => Sleeps (k.stack u)) k k' ∧ ∃ q' home', Lists cfg srt k' q' home' ∧
      Placed (ListPtr.IsReady cfg) r k'.sleepList k' home'
  | [], k, k', q, home, L, P, _, _, h => by
      cases h
      exact ⟨⟨fun _ => .inl rfl, fun _ => rfl, fun _ _ => rfl, ⟨rfl, rfl⟩, rfl, id⟩, q, home,
        L.congr rfl (fun _ => rfl) rfl fun _ _ _ _ => rfl,
        P.congr (fun _ => rfl) (fun _ _ => rfl) rfl rfl rfl⟩
  | t :: ts, k, k', q, home, L, P, hr, hf, h => by
      unfold Pintos.timerWakeup at h
      split at h
      case isTrue =>
        cases h
        exact ⟨⟨fun _ => .inl rfl, fun _ => rfl, fun _ _ => rfl, ⟨rfl, rfl⟩, rfl, id⟩, q, home,
          L.congr rfl (fun _ => rfl) rfl fun _ _ _ _ => rfl,
          P.congr (fun _ => rfl) (fun _ _ => rfl) rfl rfl rfl⟩
      case isFalse =>
        obtain ⟨k₁, h₁, h₂⟩ := Option.bind_eq_some_iff.mp h
        have hw := threadUnblock_woken h₁
        obtain ⟨hb, hs⟩ := (P.sleeping t).mp (by simp)
        have hi : k.idleThread ≠ some t := fun hi => (hf t hi).2 hs
        have hh : home t = none := by
          have hst := P.stands t
          rw [hb] at hst
          obtain ⟨old, gs, e⟩ := hs
          rw [show home t = waitsOn (k.stack t) from hst, e]
          rfl
        rw [← Function.update_eq_self t home, hh] at L
        obtain ⟨q₁, home₁, L₁, P₁⟩ := L.threadUnblock P hr hi h₁
        rw [List.erase_cons_head] at P₁
        obtain ⟨hw₂, hq⟩ := Lists.timerWakeup ts L₁ P₁ (hw.inRange hr) (hw.wakes.idleFree hf) h₂
        rw [hw.wakes.stack] at hw₂
        exact ⟨(hw.wakes.mono (by rintro u rfl; exact hs)).trans hw₂, hq⟩

/-! ### Rebuilding the MLFQS queues -/

/-- Threads have moved between lists of `A` only. -/
def Rehomed (A : ListPtr → Prop) (home home' : ThreadPtr → Option ListPtr) : Prop :=
  ∀ t, home' t = home t ∨ ∃ l l', A l ∧ A l' ∧ home t = some l ∧ home' t = some l'

theorem Rehomed.refl (A : ListPtr → Prop) (home : ThreadPtr → Option ListPtr) :
    Rehomed A home home :=
  fun _ => .inl rfl

theorem Rehomed.trans {home₁ home₂ home₃ : ThreadPtr → Option ListPtr}
    (h₁ : Rehomed A home₁ home₂) (h₂ : Rehomed A home₂ home₃) : Rehomed A home₁ home₃ := by
  intro t
  obtain e₂ | ⟨l, l', hl, hl', e, e'⟩ := h₂ t
  · rw [e₂]
    exact h₁ t
  · obtain e₁ | ⟨m, m', hm, -, em, -⟩ := h₁ t
    · exact .inr ⟨l, l', hl, hl', e₁ ▸ e, e'⟩
    · exact .inr ⟨m, l', hm, hl', em, e'⟩

theorem Rehomed.move {t : ThreadPtr} {l l' : ListPtr} (hl : A l) (hl' : A l')
    (ht : home t = some l) : Rehomed A home (Function.update home t (some l')) := by
  intro u
  obtain rfl | hu := eq_or_ne u t
  · exact .inr ⟨l, l', hl, hl', ht, by simp⟩
  · exact .inl (by simp [hu])

/-- A thread that is ready stays placed when it moves between the lists of ready threads. -/
theorem Placed.rehomed {home' : ThreadPtr → Option ListPtr} (P : Placed A r sl k home)
    (h : Rehomed A home home') (hA : ∀ p, ¬ A (.semaWaiters p)) : Placed A r sl k home' := by
  refine { P with stands := fun t => ?_ }
  obtain e | ⟨l, l', hl, hl', e, e'⟩ := h t
  · rw [e]
    exact P.stands t
  · obtain ⟨hst, hi, -⟩ := P.ready_of_home e fun p hp => hA p (hp ▸ hl)
    rw [hst, e']
    exact .inr ⟨hi, l', hl', rfl⟩

/-- The lists for ready threads may be exchanged for others that hold them all. -/
theorem Placed.mono {B : ListPtr → Prop} (P : Placed A r sl k home)
    (h : ∀ t l, home t = some l → A l → B l) : Placed B r sl k home := by
  refine { P with stands := fun t => ?_ }
  have hs := P.stands t
  generalize (k.thr t).status = st at hs ⊢
  cases st with
  | ready =>
      obtain hi | ⟨hi, l, hl, e⟩ := hs
      · exact .inl hi
      · exact .inr ⟨hi, l, h t l e hl, e⟩
  | blocked | running | dying => exact hs

/-- Every list of `q` is one of `q'`. -/
def Extends (q q' : ListPtr → Option (List ThreadPtr)) : Prop :=
  ∀ l xs, q l = some xs → ∃ ys, q' l = some ys

theorem Extends.refl (q : ListPtr → Option (List ThreadPtr)) : Extends q q :=
  fun _ xs h => ⟨xs, h⟩

theorem Extends.trans {q₁ q₂ q₃ : ListPtr → Option (List ThreadPtr)} (h₁ : Extends q₁ q₂)
    (h₂ : Extends q₂ q₃) : Extends q₁ q₃ := by
  intro l xs h
  obtain ⟨ys, h⟩ := h₁ l xs h
  exact h₂ l ys h

theorem Extends.update (q : ListPtr → Option (List ThreadPtr)) (l : ListPtr)
    (xs : List ThreadPtr) : Extends q (Function.update q l (some xs)) := by
  intro l' ys h
  by_cases hl : l' = l
  · exact ⟨xs, by simp [hl]⟩
  · exact ⟨ys, by simpa [hl] using h⟩

/-- A thread is appended to a list other than the ready list. -/
theorem Lists.appended (L : Lists cfg srt k q home) {l : ListPtr} {t : ThreadPtr}
    {xs : List ThreadPtr} {e : Links ListPtr ThreadPtr} (hq : q l = some xs)
    (hl : ∀ m, l ≠ .lockWaiters m) (hr : l ≠ .readyList)
    (hi : ∀ i, l = .mlfqsList i → (k.thr t).priority = i) (ht : home t = none)
    (h : k.elems.listPushBack l (.item t) = some e) :
    ∃ q', Lists cfg srt (k.setElems e) q' (Function.update home t (some l)) ∧ Extends q q' := by
  obtain ⟨e', he', R, hs⟩ := L.repr.pushBack hq (L.homes.unlinked ht)
  obtain rfl : e = e' := Option.some.inj (h.symm.trans he')
  refine ⟨_, L.setList (L.known_of_eq hq) hl R hs (L.homes.insert hq ht ?_)
    (fun _ _ h => absurd h hr) fun u i hu => ?_, .update _ _ _⟩
  · simp [or_comm]
  · obtain rfl | hut := eq_or_ne u t
    · exact .inr (hi i (by simpa using hu))
    · exact .inl (by simpa [hut] using hu)

/-- What two lists of ready threads look like when one is emptied into the other. -/
theorem Lists.drained {src dst : ListPtr} (hsd : src ≠ dst) (hsrc : ∀ m, src ≠ .lockWaiters m)
    (hdst : ∀ m, dst ≠ .lockWaiters m) (hr : dst ≠ .readyList) (hi : ∀ i, dst ≠ .mlfqsList i) :
    ∀ (fuel : ℕ) {k : Kernel} {e : Links ListPtr ThreadPtr}
      {q : ListPtr → Option (List ThreadPtr)} {home : ThreadPtr → Option ListPtr},
    Lists cfg srt k q home → (∃ xs, q src = some xs) → (∃ ys, q dst = some ys) →
    drain src dst fuel k.elems = some e →
    ∃ q' home', Lists cfg srt (k.setElems e) q' home' ∧ Extends q q' ∧
      (∀ t, home' t = home t ∨ home t = some src ∧ home' t = some dst) ∧
        ∀ t, home' t ≠ some src
  | 0, _, _, _, _, _, _, _, h => by cases h
  | fuel + 1, k, e, q, home, L, ⟨xs, hx⟩, ⟨ys, hy⟩, h => by
      unfold drain at h
      split at h
      case isTrue he =>
        cases h
        exact ⟨q, home, L, .refl q, fun _ => .inl rfl, (L.listEmpty hx).mp he⟩
      case isFalse he =>
        obtain ⟨⟨n, e₁⟩, h₁, h'⟩ := Option.bind_eq_some_iff.mp h
        obtain ⟨e₂, h₂, h₃⟩ := Option.bind_eq_some_iff.mp h'
        cases xs with
        | nil => exact absurd ((L.repr.isList hx).listEmpty.mpr rfl) he
        | cons t xs =>
            obtain ⟨e', he', -⟩ := L.repr.popFront hx
            obtain ⟨rfl, rfl⟩ : n = .item t ∧ e₁ = e' := by simpa [h₁] using he'
            obtain ⟨zs, -, hh, L₁⟩ := L.popped hx hsrc (t := t) (e := e₁) (by simp [popThread, h₁])
            obtain ⟨ws, hw⟩ := Extends.update q src zs dst ys hy
            obtain ⟨q₂, L₂, hq₂⟩ := L₁.appended hw hdst hr (fun i h => absurd h (hi i)) (by simp) h₂
            rw [Function.update_idem] at L₂
            have hq := (Extends.update q src zs).trans hq₂
            obtain ⟨q', home', L', hq', hh', hs'⟩ := Lists.drained hsd hsrc hdst hr hi fuel L₂
              (hq src _ hx) (hq dst ys hy) h₃
            refine ⟨q', home', L', hq.trans hq', fun u => ?_, hs'⟩
            obtain rfl | hut := eq_or_ne u t
            · refine .inr ⟨hh, ?_⟩
              obtain e | ⟨-, e⟩ := hh' u
              · rw [e, Function.update_self]
              · exact e
            · have hu := hh' u
              rwa [Function.update_of_ne hut] at hu

/-- The lists that ready threads are in while the queues are rebuilt. -/
def ListPtr.InTransit (cfg : Config) (l : ListPtr) : Prop :=
  l.IsReady cfg ∨ l = .tempList

theorem isReady_mlfqsList {i : ℕ} (hm : cfg.mlfqs = true) (hi : i < 64) :
    (ListPtr.mlfqsList i).IsReady cfg :=
  .mlfqsList hm (Int.natCast_nonneg i) (by unfold priMax; omega)

theorem Lists.collected (hm : cfg.mlfqs = true) (L : Lists cfg srt k q home)
    (hq : ∃ xs, q .tempList = some xs) :
    ∀ (i : ℕ) {e : Links ListPtr ThreadPtr}, i ≤ 64 → collectQueues fuel k.elems i = some e →
      ∃ q' home', Lists cfg srt (k.setElems e) q' home' ∧ Extends q q' ∧
        Rehomed (ListPtr.InTransit cfg) home home' ∧
          ∀ t (j : ℕ), j < i → home' t ≠ some (.mlfqsList j)
  | 0, e, _, h => by
      cases h
      exact ⟨q, home, L, .refl q, .refl _ home, fun _ _ h => absurd h (Nat.not_lt_zero _)⟩
  | i + 1, e, hi, h => by
      obtain ⟨e₁, h₁, h₂⟩ := Option.bind_eq_some_iff.mp h
      obtain ⟨q₁, home₁, L₁, hq₁, hh₁, hn₁⟩ := Lists.collected hm L hq i (by omega) h₁
      have hl : (ListPtr.mlfqsList i).IsReady cfg := isReady_mlfqsList hm (by omega)
      obtain ⟨xs, hx⟩ := hq
      obtain ⟨q₂, home₂, L₂, hq₂, hh₂, hn₂⟩ := Lists.drained (by simp) (by simp) (by simp)
        (by simp) (by simp) fuel L₁ (L₁.ready (.mlfqsList i) hl) (hq₁ .tempList xs hx) h₂
      refine ⟨q₂, home₂, L₂, hq₁.trans hq₂, hh₁.trans fun t => ?_, fun t j hj => ?_⟩
      · exact (hh₂ t).imp id fun ⟨hs, hd⟩ => ⟨_, _, .inl hl, .inr rfl, hs, hd⟩
      · obtain hj | rfl := Nat.lt_succ_iff_lt_or_eq.mp hj
        · obtain e | ⟨-, e⟩ := hh₂ t
          · rw [e]
            exact hn₁ t j hj
          · rw [e]
            exact nofun
        · exact hn₂ t

/-- Every thread of the temporary list goes back to a ready queue. -/
theorem Lists.reinserted (hm : cfg.mlfqs = true) : ∀ (fuel : ℕ) {k k' : Kernel}
    {q : ListPtr → Option (List ThreadPtr)} {home : ThreadPtr → Option ListPtr},
    Lists cfg srt k q home → InRange cfg k → (∃ xs, q .tempList = some xs) →
    reinsertQueues fuel k = some k' →
    (∃ e ev, k' = { k.setElems e with log := ev }) ∧
      ∃ q' home', Lists cfg srt k' q' home' ∧
        Rehomed (ListPtr.InTransit cfg) home home' ∧ ∀ t, home' t ≠ some .tempList
  | 0, _, _, _, _, _, _, _, h => by cases h
  | fuel + 1, k, k', q, home, L, hr, ⟨xs, hx⟩, h => by
      unfold reinsertQueues at h
      split at h
      case isTrue he =>
        cases h
        exact ⟨⟨k.elems, k.log, rfl⟩, q, home, L, .refl _ home, (L.listEmpty hx).mp he⟩
      case isFalse =>
        obtain ⟨⟨t, e⟩, h₁, h⟩ := Option.bind_eq_some_iff.mp h
        obtain ⟨k₂, h₂, h⟩ := Option.bind_eq_some_iff.mp h
        obtain ⟨ys, -, hh, L₁⟩ := L.popped hx (by rintro _ ⟨⟩) h₁
        obtain ⟨e₂, he₂, rfl⟩ := Option.map_eq_some_iff.mp h₂
        have hl : (ListPtr.mlfqsList (k.thr t).priority).IsReady cfg :=
          .mlfqsList hm (hr hm t).priority.1 (hr hm t).priority.2
        obtain ⟨zs, hz⟩ := L₁.ready _ hl
        obtain ⟨q₂, L₂, hq₂⟩ := L₁.appended hz (by rintro _ ⟨⟩) (by rintro ⟨⟩)
          (fun i h => by cases h; rfl) (by simp) he₂
        rw [Function.update_idem] at L₂
        have L₃ : Lists cfg srt (((k.setElems e).setElems e₂).record
            (.insert t (k.thr t).priority)) q₂
            (Function.update home t (some (.mlfqsList (k.thr t).priority))) :=
          L₂.congr rfl (fun _ => rfl) rfl fun _ _ _ _ => rfl
        obtain ⟨⟨e', ev, rfl⟩, q', home', L', hh', ht⟩ := Lists.reinserted hm fuel L₃ hr
          (((Extends.update q .tempList ys).trans hq₂) _ _ hx) h
        exact ⟨⟨e', ev, rfl⟩, q', home', L',
          (Rehomed.move (.inr rfl) (.inl hl) hh).trans hh', ht⟩

/-- Where every thread is in the queue of its priority, the queues are as they should be. -/
theorem Lists.rebucket (L : Lists cfg False k q home) (hm : cfg.mlfqs = true)
    (hb : ∀ t i, home t = some (.mlfqsList i) → (k.thr t).priority = i) :
    Lists cfg srt k q home :=
  { L with
    sorted := fun _ hf => by
      rw [hm] at hf
      cases hf
    bucket := fun _ _ => hb }

/-- `list_init (&temp_list)`. -/
theorem Lists.initTemp (L : Lists cfg srt k q home)
    (P : Placed (ListPtr.IsReady cfg) r sl k home) :
    Lists cfg srt (k.setElems (k.elems.listInit .tempList))
      (Function.update q .tempList (some [])) home := by
  have htemp : ∀ t, home t ≠ some .tempList := by
    intro t ht
    obtain ⟨-, -, hl⟩ := P.ready_of_home ht nofun
    cases hl
  obtain ⟨-, hs⟩ := isList_listInit k.elems .tempList
  refine L.setList nofun nofun (L.repr.init _) hs (fun l xs hl t => ?_) nofun fun _ _ => .inl
  by_cases hlt : l = .tempList
  · subst hlt
    obtain rfl : [] = xs := by simpa using hl
    exact iff_of_false (by simp) (htemp t)
  · exact L.homes l xs (by simpa [hlt] using hl) t

/-- **`mlfqs_reorganize_queues`** puts every ready thread into the queue of its priority. -/
theorem Lists.reorganized (hm : cfg.mlfqs = true) (L : Lists cfg False k q home)
    (P : Placed (ListPtr.IsReady cfg) r sl k home) (hr : InRange cfg k)
    (h : mlfqsReorganizeQueues fuel k = some k') :
    (∃ e ev, k' = { k.setElems e with log := ev }) ∧
      ∃ q' home', Lists cfg srt k' q' home' ∧ Placed (ListPtr.IsReady cfg) r sl k' home' := by
  obtain ⟨e, h₁, h₂⟩ := Option.bind_eq_some_iff.mp h
  obtain ⟨q₁, home₁, L₁, hq₁, hh₁, hn₁⟩ := (L.initTemp P).collected hm ⟨[], by simp⟩ 64 le_rfl h₁
  obtain ⟨xs, hx⟩ := hq₁ .tempList [] (by simp)
  have hA : ∀ p, ¬ (ListPtr.semaWaiters p).InTransit cfg := fun p hp => by
    obtain hp | hp := hp <;> cases hp
  have P₁ : Placed (ListPtr.InTransit cfg) r sl k home₁ :=
    (P.mono fun _ _ _ hl => .inl hl).rehomed hh₁ hA
  -- all 64 queues are empty now, so that only their threads' own queues are filled
  have L₁' : Lists cfg srt (k.setElems e) q₁ home₁ := by
    refine L₁.rebucket hm fun t i ht => ?_
    obtain ⟨-, -, hl⟩ := P₁.ready_of_home ht nofun
    obtain hl | hl := hl
    · cases hl with
      | mlfqsList _ h0 h1 =>
          lift i to ℕ using h0
          exact absurd ht (hn₁ t i (by unfold priMax at h1; omega))
    · cases hl
  obtain ⟨⟨e', ev, rfl⟩, q₂, home₂, L₂, hh₂, ht⟩ := Lists.reinserted hm fuel L₁' hr ⟨xs, hx⟩ h₂
  refine ⟨⟨e', ev, rfl⟩, q₂, home₂, L₂, ?_⟩
  have P'' : Placed (ListPtr.IsReady cfg) r sl k home₂ := (P₁.rehomed hh₂ hA).mono fun t l e hl => by
    obtain hl | rfl := hl
    · exact hl
    · exact absurd e (ht t)
  exact P''.congr (fun _ => rfl) (fun _ _ => rfl) rfl rfl rfl

/-! ### The MLFQS part of the timer interrupt -/

/-- Neither a status nor a list changes between `k` and `k'`. -/
structure Quiet (cfg : Config) (k k' : Kernel) : Prop
    extends Wakes cfg (fun _ => False) k k' where
  elems : k'.elems = k.elems
  sleepList : k'.sleepList = k.sleepList

theorem Quiet.refl (k : Kernel) : Quiet cfg k k :=
  ⟨.refl _ k, rfl, rfl⟩

theorem Quiet.trans {k₁ k₂ k₃ : Kernel} (h₁ : Quiet cfg k₁ k₂) (h₂ : Quiet cfg k₂ k₃) :
    Quiet cfg k₁ k₃ :=
  ⟨h₁.toWakes.trans h₂.toWakes, h₂.elems.trans h₁.elems, h₂.sleepList.trans h₁.sleepList⟩

/-- Nor does a priority. -/
structure Steady (cfg : Config) (k k' : Kernel) : Prop extends Quiet cfg k k' where
  same : ∀ u, (k'.thr u).priority = (k.thr u).priority

theorem Steady.refl (k : Kernel) : Steady cfg k k :=
  ⟨.refl k, fun _ => rfl⟩

theorem Steady.trans {k₁ k₂ k₃ : Kernel} (h₁ : Steady cfg k₁ k₂) (h₂ : Steady cfg k₂ k₃) :
    Steady cfg k₁ k₃ :=
  ⟨h₁.toQuiet.trans h₂.toQuiet, fun u => (h₂.same u).trans (h₁.same u)⟩

theorem Lists.steady (L : Lists cfg srt k q home) (h : Steady cfg k k') :
    Lists cfg srt k' q home :=
  L.wakes h.toWakes h.elems fun _ => h.same

/-- A function that writes no status, no priority and no list. -/
theorem Steady.of_thr {thr : ThreadPtr → Thread}
    (hs : ∀ u, (thr u).status = (k.thr u).status)
    (hw : ∀ u, (thr u).waitingLock = (k.thr u).waitingLock)
    (hp : ∀ u, (thr u).priority = (k.thr u).priority)
    (hb : ∀ u, (thr u).basePriority = (k.thr u).basePriority) : Steady cfg k (k.setThr thr) :=
  ⟨⟨⟨fun u => .inl (hs u), hw, fun _ => hp, ⟨rfl, rfl⟩, rfl,
    fun hr hm u => (hr hm u).of_eq (hp u) (hb u)⟩, rfl, rfl⟩, hp⟩

/-- A function that writes only fields that the scheduler does not look at. -/
theorem Steady.of_eq (ht : k'.thr = k.thr) (hs : SameSync k k') (ha : k'.allList = k.allList)
    (he : k'.elems = k.elems) (hsl : k'.sleepList = k.sleepList) : Steady cfg k k' :=
  ⟨⟨⟨fun _ => .inl (by rw [ht]), fun _ => by rw [ht], fun _ _ => by rw [ht], hs, ha,
    fun hr hm u => ht ▸ hr hm u⟩, he, hsl⟩, fun _ => by rw [ht]⟩

theorem mlfqsUpdatePriority_quiet (hm : cfg.mlfqs = true) (k : Kernel) (t : ThreadPtr) :
    Quiet cfg k (mlfqsUpdatePriority k t) := by
  have hthr := mlfqsUpdatePriority_thr k t
  obtain ⟨thr, hr⟩ := mlfqsUpdatePriority_rest k t
  refine ⟨⟨fun u => ?_, fun u => ?_, fun hf => ?_, mlfqsUpdatePriority_sameSync k t, ?_,
    fun h => mlfqsUpdatePriority_inRange h t⟩, ?_, ?_⟩
  · obtain ⟨p, c, e, -⟩ := hthr u
    exact .inl (by rw [e])
  · obtain ⟨p, c, e, -⟩ := hthr u
    rw [e]
  · rw [hm] at hf
    cases hf
  · rw [hr]
    rfl
  · rw [hr]
    rfl
  · rw [hr]
    rfl

theorem mlfqsUpdateRecentCpu_steady {t : ThreadPtr} (h : mlfqsUpdateRecentCpu k t = some k') :
    Steady cfg k k' := by
  unfold mlfqsUpdateRecentCpu at h
  split at h
  · cases h
    exact .refl k
  · obtain ⟨coef, -, h⟩ := Option.bind_eq_some_iff.mp h
    cases h
    refine Steady.of_thr (fun u => ?_) (fun u => ?_) (fun u => ?_) (fun u => ?_) <;>
      obtain rfl | hu := eq_or_ne u t <;> simp [*]

theorem mlfqsUpdateRcpuLa_steady (h : mlfqsUpdateRcpuLa fuel k = some k') : Steady cfg k k' := by
  obtain ⟨k₁, h₁, h⟩ := Option.bind_eq_some_iff.mp h
  have hq : Steady cfg k k₁ :=
    foldlM_rel (R := Steady cfg) .refl .trans (fun _ _ _ h => mlfqsUpdateRecentCpu_steady h)
      k.allList h₁
  obtain ⟨_, -, h⟩ := Option.bind_eq_some_iff.mp h
  obtain ⟨_, -, h⟩ := Option.bind_eq_some_iff.mp h
  obtain ⟨_, -, h⟩ := Option.bind_eq_some_iff.mp h
  cases h
  exact hq.trans (.of_eq rfl ⟨rfl, rfl⟩ rfl rfl rfl)

theorem Lists.timerPriorities {b : Bool} (hm : cfg.mlfqs = true) (L : Lists cfg srt k q home)
    (P : Placed (ListPtr.IsReady cfg) r sl k home) (hr : InRange cfg k)
    (h : timerPriorities fuel k = some (k', b)) :
    Wakes cfg (fun _ => False) k k' ∧ k'.sleepList = k.sleepList ∧
      ∃ q' home', Lists cfg srt k' q' home' ∧ Placed (ListPtr.IsReady cfg) r sl k' home' := by
  unfold Pintos.timerPriorities at h
  split at h
  case isTrue =>
    obtain ⟨k₂, h₂, e⟩ := Option.map_eq_some_iff.mp h
    obtain rfl : k₂ = k' := congrArg Prod.fst e
    have hs := mlfqsUpdatePriorityAll_sameSync h₂
    obtain ⟨k₁, h₁, h₃⟩ := Option.bind_eq_some_iff.mp h₂
    have hq : Quiet cfg k k₁ :=
      foldlM_rel (R := Quiet cfg) .refl .trans (fun k t _ h => by
        cases h
        exact mlfqsUpdatePriority_quiet hm k t) k.allList h₁
    -- the queues are out of order until they are rebuilt
    obtain ⟨⟨e, ev, hk⟩, q', home', L', P'⟩ := (L.unsorted.wakes hq.toWakes hq.elems
      False.elim).reorganized hm (P.wakes hq.toWakes) (hq.inRange hr) h₃
    subst hk
    exact ⟨⟨hq.status, hq.waitingLock, hq.priority, hs, hq.allList, hq.inRange⟩, hq.sleepList,
      q', home', L', P'⟩
  case isFalse =>
    cases h
    exact ⟨.refl _ k, rfl, q, home, L, P⟩

theorem Lists.timerMlfqs {b : Bool} (L : Lists cfg srt k q home)
    (P : Placed (ListPtr.IsReady cfg) r sl k home) (hr : InRange cfg k)
    (h : timerMlfqs cfg fuel k = some (k', b)) :
    Wakes cfg (fun _ => False) k k' ∧ k'.sleepList = k.sleepList ∧
      ∃ q' home', Lists cfg srt k' q' home' ∧ Placed (ListPtr.IsReady cfg) r sl k' home' := by
  unfold Pintos.timerMlfqs at h
  split at h
  case isTrue hm =>
    obtain ⟨⟨k₁, b₁⟩, h₁, h⟩ := Option.bind_eq_some_iff.mp h
    obtain ⟨k₂, h₂, h⟩ := Option.bind_eq_some_iff.mp h
    cases h
    obtain ⟨hw, hs, q₁, home₁, L₁, P₁⟩ := L.timerPriorities hm P hr h₁
    have hq : Steady cfg k₁ k' := by
      unfold timerLoad at h₂
      split at h₂
      · exact mlfqsUpdateRcpuLa_steady h₂
      · cases h₂
        exact .refl _
    exact ⟨hw.trans hq.toWakes, hq.sleepList.trans hs, q₁, home₁, L₁.steady hq,
      P₁.wakes hq.toWakes⟩
  case isFalse =>
    cases h
    exact ⟨.refl _ k, rfl, q, home, L, P⟩

/-! ### Interrupts -/

/-- The interrupted thread goes on with interrupts enabled, or yields first. -/
def Returns (srt : Prop) (k k' : Kernel) : Prop :=
  k' = k.setLevel true ∨ Switches srt (k.push (.intrSetLevel true)) k' .ready

theorem Lists.interruptReturn {b : Bool} (L : Lists cfg srt k q home)
    (P : Placed (ListPtr.IsReady cfg) (some k.cur) sl k home) (hr : InRange cfg k)
    (hf : IdleFree k') (h : interruptReturn cfg fuel k b = some k') :
    Returns srt k k' ∧ ∃ q' home', Lists cfg srt k' q' home' ∧
      Placed (ListPtr.IsReady cfg) (some k'.cur) sl k' home' := by
  unfold Pintos.interruptReturn at h
  split at h
  case isTrue =>
    have L₁ : Lists cfg srt (k.push (.intrSetLevel true)) q home :=
      L.congr rfl (fun _ => rfl) rfl fun _ _ _ _ => rfl
    have P₁ : Placed (ListPtr.IsReady cfg) (some k.cur) sl (k.push (.intrSetLevel true)) home := by
      refine P.congr (fun _ => rfl) (fun u hu => ?_) rfl rfl rfl
      have hu : u ≠ k.cur := fun h => hu (h ▸ rfl)
      simp [hu]
    obtain ⟨hs, hq⟩ := L₁.yieldCurrent P₁ hr hf h
    exact ⟨.inr hs, hq⟩
  case isFalse =>
    cases h
    exact ⟨.inl rfl, q, home, L.congr rfl (fun _ => rfl) rfl fun _ _ _ _ => rfl,
      P.congr (fun _ => rfl) (fun _ _ => rfl) rfl rfl rfl⟩

theorem endHalt_eq (k : Kernel) :
    ∃ fs, endHalt k = { k with stack := Function.update k.stack k.cur fs } := by
  unfold endHalt
  split
  · exact ⟨_, rfl⟩
  · exact ⟨k.stack k.cur, by rw [Function.update_eq_self]⟩

theorem endHalt_stack_of_ne {u : ThreadPtr} (hu : u ≠ k.cur) :
    (endHalt k).stack u = k.stack u := by
  obtain ⟨fs, e⟩ := endHalt_eq k
  simp [e, hu]

theorem endHalt_thr (k : Kernel) : (endHalt k).thr = k.thr := by
  obtain ⟨fs, e⟩ := endHalt_eq k
  rw [e]

theorem endHalt_idleThread (k : Kernel) : (endHalt k).idleThread = k.idleThread := by
  obtain ⟨fs, e⟩ := endHalt_eq k
  rw [e]

theorem endHalt_cur (k : Kernel) : (endHalt k).cur = k.cur := by
  obtain ⟨fs, e⟩ := endHalt_eq k
  rw [e]

theorem endHalt_nextThread (k : Kernel) : (endHalt k).nextThread = k.nextThread := by
  obtain ⟨fs, e⟩ := endHalt_eq k
  rw [e]

theorem endHalt_placed (P : Placed A (some k.cur) sl k home) :
    Placed A (some k.cur) sl (endHalt k) home := by
  obtain ⟨fs, e⟩ := endHalt_eq k
  rw [e]
  refine P.congr (fun _ => rfl) (fun u hu => ?_) rfl rfl rfl
  have hu : u ≠ k.cur := fun h => hu (h ▸ rfl)
  simp [hu]

theorem endHalt_lists (L : Lists cfg srt k q home) : Lists cfg srt (endHalt k) q home := by
  obtain ⟨fs, e⟩ := endHalt_eq k
  rw [e]
  exact L.congr rfl (fun _ => rfl) rfl fun _ _ _ _ => rfl

theorem endHalt_idleFree (h : IdleFree k) : IdleFree (endHalt k) := by
  unfold endHalt
  split
  case h_1 fs e =>
    intro t ht
    obtain rfl | hu := eq_or_ne t k.cur
    · simp [waitsOn, Sleeps]
    · simpa [hu] using h t ht
  case h_2 => exact h

theorem Returns.sleepList (h : Returns srt k k') : k'.sleepList = k.sleepList := by
  obtain rfl | h := h
  · rfl
  · exact h.sleepList

theorem threadTick_steady (k : Kernel) : Steady cfg k (threadTick cfg k).1 := by
  have hticks : ∀ k : Kernel, Steady cfg k { k with threadTicks := k.threadTicks + 1 } := fun k =>
    .of_eq rfl ⟨rfl, rfl⟩ rfl rfl rfl
  unfold threadTick
  dsimp only
  split
  · refine Steady.trans (Steady.of_thr (fun u => ?_) (fun u => ?_) (fun u => ?_) (fun u => ?_))
      (hticks _) <;> obtain rfl | hu := eq_or_ne u k.cur <;> simp [*]
  · exact hticks k

/-- The kernel at a tick: interrupts are off, a halt is over, the tick is counted. -/
def ticked (k : Kernel) : Kernel :=
  { (endHalt k).setLevel false with ticks := (endHalt k).ticks + 1 }

/-- `timer_interrupt`, with whether it has called `intr_yield_on_return`. -/
def timerHandler (cfg : Config) (fuel : ℕ) (k : Kernel) : Option (Kernel × Bool) := do
  let (k, yieldTick) := threadTick cfg (ticked k)
  let k ← timerWakeup cfg fuel k.ticks k.sleepList k
  let (k, yieldMlfqs) ← timerMlfqs cfg fuel k
  some (k, yieldTick || yieldMlfqs)

/-- A timer interrupt is the handler and the return. -/
theorem timerInterrupt_eq (cfg : Config) (fuel : ℕ) (k : Kernel) :
    timerInterrupt cfg fuel k =
      (timerHandler cfg fuel k).bind fun (k, b) => interruptReturn cfg fuel k b := by
  simp only [timerInterrupt, timerHandler, ticked, Option.bind_eq_bind, Option.bind_assoc]
  rfl

/-- The handler of the timer interrupt wakes sleeping threads. -/
theorem Lists.timerHandler {b : Bool} (L : Lists cfg srt k q home)
    (P : Placed (ListPtr.IsReady cfg) (some k.cur) k.sleepList k home) (hr : InRange cfg k)
    (hf : IdleFree k) (h : timerHandler cfg fuel k = some (k', b)) :
    Wakes cfg (fun u => Sleeps ((endHalt k).stack u)) (endHalt k) k' ∧
      ∃ q' home', Lists cfg srt k' q' home' ∧
        Placed (ListPtr.IsReady cfg) (some k'.cur) k'.sleepList k' home' := by
  simp only [Pintos.timerHandler, Option.bind_eq_bind, Option.bind_eq_some_iff] at h
  obtain ⟨k₂, h₂, ⟨k₃, b'⟩, h₃, h⟩ := h
  cases h
  obtain ⟨fs, ek⟩ := endHalt_eq k
  have hsl : (endHalt k).sleepList = k.sleepList := by rw [ek]
  have hcur : (endHalt k).cur = k.cur := by rw [ek]
  have hin : InRange cfg (endHalt k) := by rwa [ek]
  have hq₀ : Steady cfg (endHalt k) (ticked k) := .of_eq rfl ⟨rfl, rfl⟩ rfl rfl rfl
  set k₁ := (threadTick cfg (ticked k)).1
  have hq : Steady cfg (endHalt k) k₁ := hq₀.trans (threadTick_steady (ticked k))
  have L₁ := (endHalt_lists L).steady hq
  have P₁ := (endHalt_placed P).wakes hq.toWakes
  rw [← hsl, ← hq.sleepList] at P₁
  -- the sleepers that are woken, then the MLFQS part
  obtain ⟨hw₂, q₂, home₂, L₂, P₂⟩ := Lists.timerWakeup k₁.sleepList L₁ P₁ (hq.inRange hin)
    (hq.idleFree (endHalt_idleFree hf)) h₂
  obtain ⟨hw₃, hs₃, q₃, home₃, L₃, P₃⟩ :=
    L₂.timerMlfqs P₂ (hw₂.inRange (hq.inRange hin)) h₃
  rw [hq.stack] at hw₂
  have hw : Wakes cfg (fun u => Sleeps ((endHalt k).stack u)) (endHalt k) k₃ :=
    ((hq.toWakes.mono fun _ h => h.elim).trans hw₂).trans (hw₃.mono fun _ h => h.elim)
  rw [← hcur, ← hw.sync.2, ← hs₃] at P₃
  exact ⟨hw, q₃, home₃, L₃, P₃⟩

/-- **A timer interrupt** wakes sleeping threads and returns. -/
theorem Lists.timerInterrupt (L : Lists cfg srt k q home)
    (P : Placed (ListPtr.IsReady cfg) (some k.cur) k.sleepList k home) (hr : InRange cfg k)
    (hf : IdleFree k) (hf' : IdleFree k') (h : timerInterrupt cfg fuel k = some k') :
    (∃ k₁ b, Pintos.timerHandler cfg fuel k = some (k₁, b) ∧
      Wakes cfg (fun u => Sleeps ((endHalt k).stack u)) (endHalt k) k₁ ∧ Returns srt k₁ k') ∧
      ∃ q' home', Lists cfg srt k' q' home' ∧
        Placed (ListPtr.IsReady cfg) (some k'.cur) k'.sleepList k' home' := by
  rw [timerInterrupt_eq] at h
  obtain ⟨⟨k₁, b⟩, h₁, h⟩ := Option.bind_eq_some_iff.mp h
  obtain ⟨hw, q₁, home₁, L₁, P₁⟩ := L.timerHandler P hr hf h₁
  have hin : InRange cfg (endHalt k) := by
    obtain ⟨fs, ek⟩ := endHalt_eq k
    rwa [ek]
  obtain ⟨hret, q', home', L', P'⟩ := L₁.interruptReturn P₁ (hw.inRange hin) hf' h
  rw [← hret.sleepList] at P'
  exact ⟨⟨k₁, b, h₁, hw, hret⟩, q', home', L', P'⟩

/-- **An interrupt whose handler calls `sema_up`.** -/
theorem Lists.semaUpInterrupt {p : SemaPtr} (L : Lists cfg srt k q home)
    (P : Placed (ListPtr.IsReady cfg) (some k.cur) k.sleepList k home) (hr : InRange cfg k)
    (hp : k.Known p) (hf : IdleFree k) (hf' : IdleFree k')
    (h : semaUpInterrupt cfg fuel k p = some k') :
    (∃ k₁, Pintos.semaUpBody cfg fuel ((endHalt k).setLevel false) none p =
        some (k₁.raised none p) ∧
      WakesWaiter cfg p ((endHalt k).setLevel false) k₁ ∧ Returns srt (k₁.raised none p) k') ∧
      ∃ q' home', Lists cfg srt k' q' home' ∧
        Placed (ListPtr.IsReady cfg) (some k'.cur) k'.sleepList k' home' := by
  simp only [Pintos.semaUpInterrupt, Option.bind_eq_bind, Option.bind_eq_some_iff] at h
  obtain ⟨k₂, h₂, b, -, h⟩ := h
  obtain ⟨fs, ek⟩ := endHalt_eq k
  have hcur : (endHalt k).cur = k.cur := by rw [ek]
  have hsl : (endHalt k).sleepList = k.sleepList := by rw [ek]
  set k₀ := (endHalt k).setLevel false
  have hin : InRange cfg k₀ := by
    have : InRange cfg (endHalt k) := by rwa [ek]
    exact this
  have hpk : k₀.Known p := by
    have : (endHalt k).Known p := by rwa [ek]
    exact this
  have L₀ : Lists cfg srt k₀ q home :=
    (endHalt_lists L).congr rfl (fun _ => rfl) rfl fun _ _ _ _ => rfl
  have P₀ : Placed (ListPtr.IsReady cfg) (some k.cur) k.sleepList k₀ home :=
    (endHalt_placed P).congr (fun _ => rfl) (fun _ _ => rfl) rfl rfl rfl
  obtain ⟨hs₂, hc₂⟩ := semaUpBody_sync h₂
  obtain ⟨⟨k₁, hw, rfl⟩, q₁, home₁, L₁, P₁⟩ :=
    L₀.semaUpBody P₀ hin hpk (endHalt_idleFree hf) h₂
  have hc : (k₁.raised none p).cur = k.cur := hc₂.trans hcur
  have hin₁ : InRange cfg (k₁.raised none p) := by
    obtain ⟨rfl, -⟩ | ⟨t, -, hw⟩ := hw
    · exact hin
    · exact hw.inRange hin
  have hs₁ : (k₁.raised none p).sleepList = k.sleepList := by
    obtain ⟨rfl, -⟩ | ⟨t, -, hw⟩ := hw
    · exact hsl
    · exact hw.sleepList.trans hsl
  rw [← hc] at P₁
  obtain ⟨hret, q', home', L', P'⟩ := L₁.interruptReturn P₁ hin₁ hf' h
  rw [← hs₁, ← hret.sleepList] at P'
  exact ⟨⟨k₁, h₂, hw, hret⟩, q', home', L', P'⟩

/-- **An interrupt whose handler calls `sema_try_down`.** -/
theorem Lists.semaTryDownInterrupt {p : SemaPtr} (L : Lists cfg srt k q home)
    (P : Placed (ListPtr.IsReady cfg) (some k.cur) k.sleepList k home)
    (h : semaTryDownInterrupt cfg fuel k p = some k') :
    k' = (semaTryDown ((endHalt k).setLevel false) none p).1.setLevel true ∧
      ∃ q' home', Lists cfg srt k' q' home' ∧
        Placed (ListPtr.IsReady cfg) (some k'.cur) k'.sleepList k' home' := by
  obtain ⟨fs, ek⟩ := endHalt_eq k
  have hcur : (endHalt k).cur = k.cur := by rw [ek]
  have hsl : (endHalt k).sleepList = k.sleepList := by rw [ek]
  have L₀ := endHalt_lists L
  have P₀ := endHalt_placed P
  rw [← hsl, ← hcur] at P₀
  simp only [Pintos.semaTryDownInterrupt, Pintos.interruptReturn, Bool.false_eq_true, if_false] at h
  cases h
  refine ⟨rfl, q, home, ?_⟩
  unfold semaTryDown
  split
  all_goals exact ⟨L₀.congr rfl (fun _ => rfl) rfl fun _ _ _ _ => rfl,
    P₀.congr (fun _ => rfl) (fun _ _ => rfl) rfl rfl rfl⟩

end Pintos
