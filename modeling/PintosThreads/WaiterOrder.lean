/-
PintosThreads/WaiterOrder.lean

Whom `sema_up` wakes.

`sema_down` inserts the running thread into `sema->waiters` by its priority, and
`sema_up` takes the front.  The front has the highest priority as long as the
list stands in the order of the priorities that its threads have now
(`WaitersSorted`).  Two things write the priority of a thread that waits: a
donation, and the recalculation of all priorities every four ticks.  Where both
leave the order as it is, every `sema_up` wakes a waiter of highest priority
(`sema_up_wakes_highest`).

They need not leave it.  `donate_priority` raises a waiter at the rear of the
list and does not move it.
-/
import PintosThreads.Waiters
import PintosThreads.WaiterLists
import PintosThreads.Progress
import PintosThreads.TimerPriorities
import PintosThreads.Runs

namespace Pintos

open Intrusive

variable {cfg : Config} {fuel : ℕ} {srt : Prop} {ok : Kernel → Label → Prop}
variable {k k₁ k' : Kernel} {lab : Label} {p : SemaPtr} {t x : ThreadPtr}

/-! ### The recalculation of all priorities -/

theorem timerWakeup_priority {now : ℤ} : ∀ (ts : List ThreadPtr) {k k' : Kernel},
    timerWakeup cfg fuel now ts k = some k' → x ∉ ts →
      (k'.thr x).priority = (k.thr x).priority
  | [], _, _, h, _ => by
      cases h
      rfl
  | t :: ts, k, k', h, hx => by
      rw [timerWakeup] at h
      split at h
      · cases h
        rfl
      · obtain ⟨k₁, h₁, h₂⟩ := Option.bind_eq_some_iff.mp h
        obtain ⟨hxt, hx⟩ := List.ne_and_not_mem_of_not_mem_cons hx
        rw [timerWakeup_priority ts h₂ hx, (threadUnblock_woken h₁).others x hxt]

/-- The priority that a waiting thread has after a tick. -/
def tickedPriority (cfg : Config) (k : Kernel) (t : ThreadPtr) : ℤ :=
  if cfg.mlfqs ∧ (k.ticks + 1) % 4 = 0 then formulaPriority (k.thr t).recentCpu (k.thr t).nice
  else (k.thr t).priority

theorem timerMlfqs_priority {b : Bool} (h4 : ¬ (cfg.mlfqs ∧ k.ticks % 4 = 0))
    (h : timerMlfqs cfg fuel k = some (k', b)) : (k'.thr x).priority = (k.thr x).priority := by
  unfold timerMlfqs at h
  split at h
  case isFalse =>
    cases h
    rfl
  case isTrue hm =>
    obtain ⟨⟨k₁, b₁⟩, h₁, h⟩ := Option.bind_eq_some_iff.mp h
    obtain ⟨k₂, h₂, h⟩ := Option.bind_eq_some_iff.mp h
    cases h
    have hk : k₁ = k := by
      unfold timerPriorities at h₁
      rw [if_neg fun h => h4 ⟨hm, h⟩] at h₁
      cases h₁
      rfl
    subst hk
    unfold timerLoad at h₂
    split at h₂
    · exact (mlfqsUpdateRcpuLa_steady h₂ : Steady cfg k₁ k').same x
    · cases h₂
      rfl

/-- A thread that the handler neither ticks nor wakes. -/
theorem timerHandler_waiter {b : Bool} (hn : k.allList.Nodup) (ha : x ∈ k.allList)
    (hi : k.idleThread ≠ some x) (hc : x ≠ k.cur) (hs : x ∉ k.sleepList)
    (h : timerHandler cfg fuel k = some (k', b)) :
    (k'.thr x).priority = tickedPriority cfg k x := by
  simp only [timerHandler, Option.bind_eq_bind, Option.bind_eq_some_iff] at h
  obtain ⟨k₂, h₂, ⟨k₃, b'⟩, h₃, h⟩ := h
  cases h
  obtain ⟨ht, -⟩ := threadTick_ticked cfg k
  set k₁ := (threadTick cfg (ticked k)).1
  obtain ⟨hw, -⟩ := timerWakeup_awakened _ h₂
  have hticks : k₂.ticks = k.ticks + 1 := hw.ticks.trans ht.ticks
  have hp : (k₂.thr x).priority = (k.thr x).priority := by
    rw [timerWakeup_priority _ h₂ (ht.sleepList ▸ hs), ht.thr]
  have hcpu : (k₂.thr x).recentCpu = (k.thr x).recentCpu := by
    rw [hw.recentCpu, ht.thr, tickedCpu, if_neg fun h => hc h.2.2]
  have hnice : (k₂.thr x).nice = (k.thr x).nice := by rw [hw.nice, ht.thr]
  by_cases h4 : cfg.mlfqs ∧ (k.ticks + 1) % 4 = 0
  · have hall : k₂.allList = k.allList := hw.allList.trans ht.allList
    obtain ⟨-, -, hall₂⟩ := timerMlfqs_spec h4.1 (hticks ▸ h4.2) (hall ▸ hn) h₃
    obtain ⟨hf, -⟩ := hall₂ x (hall ▸ ha) (hw.idleThread.trans ht.idleThread ▸ hi)
    rw [tickedPriority, if_pos h4, hf, hcpu, hnice]
  · rw [tickedPriority, if_neg h4, timerMlfqs_priority (hticks ▸ h4) h₃, hp]

/-! ### The order of the waiters -/

/-- Thread `a` is somewhere in front of thread `b` among the waiters of a semaphore. -/
def WaitsAhead (k : Kernel) (a b : ThreadPtr) : Prop :=
  ∃ p xs, IsList k.elems (.semaWaiters p) xs ∧ [a, b].Sublist xs

/-- The waiters of every semaphore stand in the order of the priorities that they have now. -/
def WaitersSorted (k : Kernel) : Prop :=
  ∀ a b, WaitsAhead k a b → (k.thr b).priority ≤ (k.thr a).priority

/-- The step leaves the waiters of every semaphore in the order of their priorities, as far as it
writes these: a donation raises, with a waiter, also those in front of it that have less than the
donated priority, and what a recalculation computes for the waiters is in their order. -/
def Label.KeepsWaiters (cfg : Config) (k : Kernel) : Label → Prop
  | .run => ∀ f fs, k.stack k.cur = f :: fs → ∀ a b, WaitsAhead k a b → f.Raises k b →
      (k.thr k.cur).priority ≤ (k.thr a).priority ∨ f.Raises k a
  | .timer => cfg.mlfqs = true → (k.ticks + 1) % 4 = 0 → ∀ a b, WaitsAhead k a b →
      formulaPriority (k.thr b).recentCpu (k.thr b).nice ≤
        formulaPriority (k.thr a).recentCpu (k.thr a).nice
  | _ => True

theorem WaitersSorted.pairwise (h : WaitersSorted k) {xs : List ThreadPtr}
    (hx : IsList k.elems (.semaWaiters p) xs) :
    xs.Pairwise fun a b => (k.thr b).priority ≤ (k.thr a).priority := by
  rw [List.pairwise_iff_forall_sublist]
  exact fun {a b} hab => h a b ⟨p, xs, hx, hab⟩

theorem Frame.raises_popFrame {f : Frame} {fs : List Frame} :
    f.Raises (popFrame k fs) x ↔ f.Raises k x := by
  constructor
  · rintro ⟨l, h, e, hh, hr⟩
    exact ⟨l, h, e, hh, Pintos.raises_popFrame.mp hr⟩
  · rintro ⟨l, h, e, hh, hr⟩
    exact ⟨l, h, e, hh, Pintos.raises_popFrame.mpr hr⟩

theorem Frame.Raises.lt {f : Frame} (h : f.Raises k x) :
    (k.thr x).priority < (k.thr k.cur).priority := by
  obtain ⟨l, g, -, -, hr⟩ := h
  exact Pintos.Raises.lt hr

/-- A donation that keeps the order of two waiters. -/
theorem StaysBlocked.priority_le {f : Frame} {a b : ThreadPtr} (ha : StaysBlocked k f a k')
    (hb : StaysBlocked k f b k') (hab : (k.thr b).priority ≤ (k.thr a).priority)
    (hk : f.Raises k b → (k.thr k.cur).priority ≤ (k.thr a).priority ∨ f.Raises k a) :
    (k'.thr b).priority ≤ (k'.thr a).priority := by
  by_cases hra : f.Raises k a
  · rw [ha.raised hra]
    by_cases hrb : f.Raises k b
    · rw [hb.raised hrb]
    · rw [hb.kept hrb]
      exact hab.trans hra.lt.le
  · rw [ha.kept hra]
    by_cases hrb : f.Raises k b
    · rw [hb.raised hrb]
      exact (hk hrb).resolve_right hra
    · rw [hb.kept hrb]
      exact hab

/-- **Two waiters that go on waiting** stay in the order of their priorities. -/
theorem Good.keeps_order {a b : ThreadPtr} (G : Good cfg srt k) (C : Control k)
    (C' : Control k') (hT : Tame cfg srt k lab) (hk : lab.KeepsWaiters cfg k)
    (hs : WaitersSorted k) (h : Pintos.step cfg fuel k lab = some k') (hab : WaitsAhead k a b)
    (ha : (k'.thr a).status = .blocked) (hb : (k'.thr b).status = .blocked) :
    (k'.thr b).priority ≤ (k'.thr a).priority := by
  have hle := hs a b hab
  obtain ⟨p, xs, hx, hsub⟩ := id hab
  have hwait : ∀ u ∈ [a, b], Waiting k p u := fun u hu =>
    ((G.waiting_iff hx).2 u).mp (hsub.subset hu)
  have hcur : ∀ u ∈ [a, b], u ≠ k.cur := fun u hu => G.waiting_ne_cur (hwait u hu)
  have hnext : ∀ u ∈ [a, b], u ≠ k.nextThread := fun u hu => (G.waiting_lt (hwait u hu)).ne
  have hab' : ∀ u ∈ [a, b], (k'.thr u).status = .blocked := by simp [ha, hb]
  have hsame : (∀ u ∈ [a, b], (k'.thr u).priority = (k.thr u).priority) →
      (k'.thr b).priority ≤ (k'.thr a).priority := by
    intro he
    rw [he a (by simp), he b (by simp)]
    exact hle
  obtain ⟨he, -⟩ := G.stepEffect C hT C'.inv.idleFree h
  cases he with
  | call => exact hle
  | @run f fs _ e he =>
      have hst : ∀ u ∈ [a, b], StaysBlocked (popFrame k fs) f u k' := fun u hu =>
        he.staysBlocked (hab' u hu) (hcur u hu) (hnext u hu)
      refine (hst a (by simp)).priority_le (hst b (by simp)) hle fun hr => ?_
      rw [Frame.raises_popFrame]
      exact hk f fs e a b hab (Frame.raises_popFrame.mp hr)
  | timer =>
      obtain ⟨⟨q, home, L, P⟩, hin⟩ := G.sched
      rw [Pintos.step] at h
      split at h
      case isFalse => cases h
      case isTrue =>
        rw [timerInterrupt_eq] at h
        obtain ⟨⟨k₂, c⟩, h₁, h₂⟩ := Option.bind_eq_some_iff.mp h
        obtain ⟨hw₂, q₁, home₁, L₁, P₁⟩ := L.timerHandler P hin C.inv.idleFree h₁
        obtain ⟨hret, -⟩ := L₁.interruptReturn P₁ (hw₂.inRange (endHalt_inRange hin))
          C'.inv.idleFree h₂
        have hp : ∀ u ∈ [a, b], (k'.thr u).priority = tickedPriority cfg k u := by
          intro u hu
          have hwu := hwait u hu
          have hd : (k.thr u).status ≠ .dying := by
            rw [hwu.1]
            rintro ⟨⟩
          refine (hret.priority u).trans (timerHandler_waiter P.allNodup ?_ ?_ (hcur u hu) ?_ h₁)
          · exact (P.all u).mpr ⟨P.lt hd, hd⟩
          · intro hi
            have hs := (C.inv.idleFree u hi).1.symm.trans hwu.2
            cases hs
          · exact fun hm => hwu.not_sleeps ((P.sleeping u).mp hm).2
        rw [hp a (by simp), hp b (by simp), tickedPriority, tickedPriority]
        split
        case isTrue h4 => exact hk h4.1 h4.2 a b hab
        case isFalse => exact hle
  | @semaUp n k₁ _ hw hr =>
      refine hsame fun u hu => ?_
      have hc : k₁.cur = k.cur := hw.sync.2.trans (endHalt_cur k)
      have hb₁ : (k₁.thr u).status = .blocked := hr.still_blocked (hab' u hu) (by
        show u ≠ k₁.cur
        rw [hc]
        exact hcur u hu)
      rw [hr.priority]
      show (k₁.thr u).priority = (k.thr u).priority
      rw [hw.still_blocked hb₁, ← endHalt_thr k]
      rfl
  | @semaTryDown n =>
      refine hsame fun u _ => ?_
      have hs := semaTryDown_silent ((endHalt k).setLevel false) none (.user n)
      rw [← endHalt_thr k]
      exact hs.priority u

/-- A `sema_down` writes no priority. -/
theorem Effect.downs_priority {f : Frame} (h : Effect cfg srt k f k') (hd : f.Downs p)
    (u : ThreadPtr) : (k'.thr u).priority = (k.thr u).priority := by
  cases h with
  | same _ hs => exact hs.priority u
  | switch _ _ hs hsw => exact (hsw.priority u).trans (hs.priority u)
  | priority hp => cases hd <;> cases hp
  | wake hu => cases hd <;> cases hu
  | _ => cases hd

/-- **One step** keeps the waiters in the order of their priorities. -/
theorem WaitersSorted.step (hs : WaitersSorted k) (G : Good cfg srt k) (G' : Good cfg srt k')
    (C : Control k) (C' : Control k') (hT : Tame cfg srt k lab) (hn : k.cur < k.nextThread)
    (hk : lab.KeepsWaiters cfg k) (h : Pintos.step cfg fuel k lab = some k') :
    WaitersSorted k' := by
  rintro a b ⟨p, ys, hy, hab⟩
  obtain ⟨-, hmem⟩ := G'.waiting_iff hy
  have hblocked : ∀ u ∈ [a, b], (k'.thr u).status = .blocked := fun u hu =>
    ((hmem u).mp (hab.subset hu)).1
  by_cases hp : k.Known p
  · obtain ⟨xs, hx⟩ := G.waiters_isList hp
    have hkeep : [a, b].Sublist xs → (k'.thr b).priority ≤ (k'.thr a).priority := fun hsub =>
      G.keeps_order C C' hT hk hs h ⟨p, xs, hx, hsub⟩ (hblocked a (by simp))
        (hblocked b (by simp))
    rcases G.stepWaiters C hT hp h with ⟨-, hw⟩ | ⟨rfl, e, hd, hj⟩ | ⟨-, hl⟩
    · obtain rfl := (hw xs hx).unique hy
      exact hkeep hab
    · -- the running thread is inserted by the priorities that all keep
      obtain rfl := (hj xs hx).unique hy
      obtain ⟨he, -⟩ := G.stepEffect C hT C'.inv.idleFree h
      have hpri : ∀ u, (k'.thr u).priority = (k.thr u).priority := by
        intro u
        cases he with
        | run e' he =>
            obtain ⟨rfl, rfl⟩ := List.cons.inj (e.symm.trans e')
            exact he.downs_priority hd u
      have hsorted := pairwise_orderedInsert (fun u => (k.thr u).priority) k.cur (hs.pairwise hx)
      rw [hpri, hpri]
      exact List.pairwise_iff_forall_sublist.mp hsorted hab
    · obtain rfl := (hl xs hx).unique hy
      exact hkeep (hab.trans (List.tail_sublist xs))
  · -- a semaphore that has just been made has no waiters
    have hw : Waiting k' p a := (hmem a).mp (hab.subset (by simp))
    refine absurd ?_ hp
    rcases G.waiting_step C C' hT hn h hw with hw | ⟨-, -, f, fs, -, e, hd⟩
    · exact C.waiting hw
    · exact C.known (u := k.cur) (by rw [e]; exact .head _) (.inl hd)

/-- Nobody waits in the first state. -/
theorem boot_waitersSorted (cfg : Config) : WaitersSorted (boot cfg) := by
  rintro a b ⟨p, xs, hx, hab⟩
  obtain ⟨-, hmem⟩ := (boot_good cfg False).waiting_iff hx
  have hw : Waiting (boot cfg) p a := (hmem a).mp (hab.subset (by simp))
  obtain ⟨old, fs, e⟩ := hw.stack
  obtain rfl | ha := eq_or_ne a 0 <;> simp [boot, *] at e

/-! ### Runs -/

/-- Every step of the run is tame, and leaves the waiters in the order of their priorities. -/
def KeepsWaiters (cfg : Config) (ok : Kernel → Label → Prop) : Prop :=
  ∀ k lab, Reachable cfg ok k → ok k lab → Tame cfg False k lab ∧ lab.KeepsWaiters cfg k

theorem KeepsWaiters.good (hT : KeepsWaiters cfg ok) (h : Reachable cfg ok k) :
    Good cfg False k :=
  h.good fun k lab hr hok => (hT k lab hr hok).1

theorem KeepsWaiters.sorted (hT : KeepsWaiters cfg ok) (h : Reachable cfg ok k) :
    WaitersSorted k := by
  induction h with
  | refl => exact boot_waitersSorted cfg
  | tail hr hn ih =>
      obtain ⟨lab, fuel, hok, hstep⟩ := hn
      have hr' : Reachable cfg ok _ := .tail hr ⟨lab, fuel, hok, hstep⟩
      obtain ⟨ht, hk⟩ := hT _ _ hr hok
      exact ih.step (hT.good hr) (hT.good hr') (Reachable.control hr) hr'.control ht
        (Reachable.anySync hr).2 hk hstep

/-- What a `sema_up` does to the threads that wait. -/
theorem Good.ups (G : Good cfg srt k) (G' : Good cfg srt k') (C : Control k)
    (hT : Tame cfg srt k lab) (hn : k.cur < k.nextThread) (hu : lab.Ups k p)
    (h : Pintos.step cfg fuel k lab = some k') {xs : List ThreadPtr}
    (hx : IsList k.elems (.semaWaiters p) (x :: xs)) :
    (k'.thr x).status ≠ .blocked ∧ ∀ u ∈ xs, (k'.thr u).status = .blocked := by
  obtain ⟨hp, hmem⟩ := G.waiting_iff hx
  have hl : IsList k'.elems (.semaWaiters p) xs := by
    rcases G.stepWaiters C hT hp h with ⟨hno, -⟩ | ⟨rfl, e, hd, -⟩ | ⟨-, hl⟩
    · exact absurd hu hno
    · rcases hu with ⟨-, fs, e'⟩ | ⟨n, -, ⟨⟩⟩
      rw [e] at e'
      cases hd <;> cases e'
    · exact hl _ hx
  obtain ⟨-, hmem'⟩ := G'.waiting_iff hl
  refine ⟨fun hb => ?_, fun u hu => ((hmem' u).mp hu).1⟩
  -- what the thread is in the middle of does not change, so that it would still wait
  have hw : Waiting k p x := (hmem x).mp (.head _)
  obtain ⟨hs, -⟩ : Sync.Step (fun _ => True) k.cur k.sync k'.sync ∧ _ :=
    step_sync hn (fun _ _ => trivial) h
  have hst : k'.stack x = k.stack x := by
    rcases hs.stack_of_ne C.inv (G.waiting_ne_cur hw) with e | ⟨e, -⟩
    · exact e
    · exact absurd e (G.waiting_lt hw).ne
  have hin : x ∈ xs := (hmem' x).mpr ⟨hb, hst ▸ hw.2⟩
  exact (List.nodup_cons.mp hx.nodup).1 hin

/-- **`sema_up` wakes a waiter of highest priority**, and none of the others, in every run that
leaves the waiters in the order of their priorities. -/
theorem sema_up_wakes_highest (hT : KeepsWaiters cfg ok) (hr : Reachable cfg ok k)
    (hok : ok k lab) (hu : lab.Ups k p) :
    ∃ xs, IsList k.elems (.semaWaiters p) xs ∧ (∀ u, u ∈ xs ↔ Waiting k p u) ∧
      ((lab = .run ∨ k.intrOn = true) → k.nextThread < fuel → (step cfg fuel k lab).isSome) ∧
      ∀ k', step cfg fuel k lab = some k' → xs ≠ [] →
        ∃ t ∈ xs, (∀ u ∈ xs, (k.thr u).priority ≤ (k.thr t).priority) ∧
          (k'.thr t).status ≠ .blocked ∧ ∀ u ∈ xs, u ≠ t → (k'.thr u).status = .blocked := by
  have G : Good cfg False k := hT.good hr
  have C : Control k := hr.control
  have hp : k.Known p := by
    rcases hu with ⟨-, fs, e⟩ | ⟨n, rfl, -⟩
    · exact C.known (u := k.cur) (by rw [e]; exact .head _) (.inr rfl)
    · intro w
      exact nofun
  obtain ⟨xs, hx⟩ := G.waiters_isList hp
  refine ⟨xs, hx, (G.waiting_iff hx).2, fun hon hf => G.ups_isSome C hu hon hf, ?_⟩
  intro k' h hne
  obtain ⟨t, ys, rfl⟩ := List.exists_cons_of_ne_nil hne
  have hr' : Reachable cfg ok k' := .tail hr ⟨lab, fuel, hok, h⟩
  obtain ⟨hwoken, hrest⟩ :=
    G.ups (hT.good hr') C (hT k lab hr hok).1 (Reachable.anySync hr).2 hu h hx
  have hsorted := List.pairwise_cons.mp ((hT.sorted hr).pairwise hx)
  refine ⟨t, .head _, fun u hu => ?_, hwoken, fun u hu hut => ?_⟩
  · rcases List.mem_cons.mp hu with rfl | hu
    · exact le_rfl
    · exact hsorted.1 u hu
  · exact hrest u ((List.mem_cons.mp hu).resolve_left hut)

/-- In peaceful steps of the priority scheduler nobody donates. -/
theorem Label.peaceful.keepsWaiters (hm : cfg.mlfqs = false) (h : lab.peaceful k = true) :
    lab.KeepsWaiters cfg k := by
  cases lab with
  | run =>
      rintro f fs e a b - ⟨l, g, rfl, hg, hr⟩
      simp only [Label.peaceful, e, hg, Option.all_some, Bool.and_eq_true, decide_eq_true_eq] at h
      cases hr with
      | here hlt | next hlt => exact absurd hlt (not_lt.mpr h.2)
  | timer =>
      intro hm'
      rw [hm] at hm'
      cases hm'
  | _ => trivial

/-- Threads 2 and 3, of priorities 33 and 35, wait when the initial thread is in `sema_up`. -/
theorem sema_up_wakes_highest_three : ∃ k k' xs,
    Reachable priorityConfig (fun k lab => lab.peaceful k) k ∧
      k.stack k.cur = [.semaUp (.user 0)] ∧ step priorityConfig 70 k .run = some k' ∧
      IsList k.elems (.semaWaiters (.user 0)) xs ∧ 2 ∈ xs ∧ 3 ∈ xs ∧
      ∃ t ∈ xs, (∀ u ∈ xs, (k.thr u).priority ≤ (k.thr t).priority) ∧
        (k'.thr t).status ≠ .blocked ∧ ∀ u ∈ xs, u ≠ t → (k'.thr u).status = .blocked := by
  obtain ⟨k, hr, hk⟩ := exists_reachable priorityConfig 70 (fun k lab => lab.peaceful k)
    (List.replicate 19 Label.run ++ [Label.call (.threadCreate 33)] ++ List.replicate 10 Label.run ++
      [Label.call (.semaDown 0), .run, .run, .call (.threadCreate 35)] ++
      List.replicate 10 Label.run ++ [Label.call (.semaDown 0), .run, .run, .call (.semaUp 0)])
    (fun k => k.stack k.cur = [.semaUp (.user 0)] ∧ k.nextThread = 4 ∧
      Waiting k (.user 0) 2 ∧ Waiting k (.user 0) 3) (by decide +kernel)
  obtain ⟨hs, hn, h2, h3⟩ := of_decide_eq_true hk
  have hu : Label.run.Ups k (.user 0) := .inl ⟨rfl, [], hs⟩
  obtain ⟨xs, hx, hw, hsome, hwakes⟩ := sema_up_wakes_highest
    (fun k lab _ h => ⟨Label.peaceful.tame h, Label.peaceful.keepsWaiters rfl h⟩) hr
    (by simp [Label.peaceful, hs]) hu
  have hf : k.nextThread < 70 := by
    rw [hn]
    decide
  obtain ⟨k', h⟩ := Option.isSome_iff_exists.mp (hsome (.inl rfl) hf)
  have hmem : 2 ∈ xs := (hw 2).mpr h2
  exact ⟨k, k', xs, hr, hs, h, hx, hmem, (hw 3).mpr h3, hwakes k' h (List.ne_nil_of_mem hmem)⟩

/-- Thread 2, of priority 33, holds a lock when it comes to wait behind thread 3, of priority 35.
Thread 4 donates 40 to it, and the initial thread wakes thread 3. -/
theorem sema_up_wakes_lower : ∃ k k', Reachable priorityConfig (fun _ _ => True) k ∧
    k.stack k.cur = [.semaUp (.user 0)] ∧ step priorityConfig 70 k .run = some k' ∧
    (∃ t, Waiting k (.user 0) t) ∧
    ¬ ∃ t, Waiting k (.user 0) t ∧
      (∀ u, Waiting k (.user 0) u → (k.thr u).priority ≤ (k.thr t).priority) ∧
      (k'.thr t).status ≠ .blocked := by
  obtain ⟨k, hr, hk⟩ := exists_reachable priorityConfig 70 (fun _ _ => True)
    (List.replicate 19 Label.run ++ [Label.call (.threadCreate 33)] ++ List.replicate 10 Label.run ++
      [Label.call (.lockAcquire 0), .run, .run, .run, .run, .call (.semaDown 0), .run, .run,
        .call (.threadCreate 35)] ++
      List.replicate 10 Label.run ++
      [Label.call (.semaDown 0), .run, .run, .call (.threadCreate 40)] ++
      List.replicate 10 Label.run ++
      [Label.call (.lockAcquire 0), .run, .run, .run, .run, .call (.semaUp 0)])
    (fun k => k.stack k.cur = [.semaUp (.user 0)] ∧ Waiting k (.user 0) 2 ∧
      ((step priorityConfig 70 k .run).any fun k' => ∀ t < k.nextThread,
        Waiting k (.user 0) t → (k.thr 2).priority ≤ (k.thr t).priority →
          (k'.thr t).status = .blocked)) (by decide +kernel)
  obtain ⟨hs, h2, hany⟩ := of_decide_eq_true hk
  obtain ⟨k', h, hall⟩ := (Option.any_eq_true _ _).mp hany
  refine ⟨k, k', hr, hs, h, ⟨2, h2⟩, ?_⟩
  rintro ⟨t, ht, hmax, hne⟩
  obtain ⟨old, fs, e⟩ := ht.stack
  have hlt : t < k.nextThread := by
    by_contra hn
    have hst : k.stack t = [] := hr.control.inv.unborn t (not_lt.mp hn)
    rw [e] at hst
    cases hst
  exact hne (of_decide_eq_true hall t hlt ht (hmax 2 h2))

end Pintos
