/-
PintosThreads/Waiters.lean

Who waits on a semaphore.

A thread waits on a semaphore while it is blocked in `sema_down` (`Waiting`).
In a tame step it comes to do so by its own `sema_down` only, at value zero
(`Good.waiting_step`), and what becomes of its priority meanwhile is a matter of
donation (`Effect.staysBlocked`).
-/
import PintosThreads.SchedulerInv

namespace Pintos

open Intrusive

variable {cfg : Config} {fuel : ℕ} {srt : Prop} {k k' : Kernel} {lab : Label}
variable {p : SemaPtr} {t x : ThreadPtr}

/-! ### Who stays blocked -/

/-- Frame `f` of the running thread is a contended `lock_acquire` that donates to thread `t`. -/
def Frame.Raises (k : Kernel) (t : ThreadPtr) (f : Frame) : Prop :=
  ∃ l h, f = .lockAcquireBody l ∧ k.lockHolder l = some h ∧
    Pintos.Raises k (k.thr k.cur).priority t h

/-- Thread `x` has been blocked before, and only a donation has written its priority. -/
structure StaysBlocked (k : Kernel) (f : Frame) (x : ThreadPtr) (k' : Kernel) : Prop where
  blocked : (k.thr x).status = .blocked
  raised : f.Raises k x → (k'.thr x).priority = (k.thr k.cur).priority
  kept : ¬ f.Raises k x → (k'.thr x).priority = (k.thr x).priority

theorem StaysBlocked.of_eq {f : Frame} (hf : ∀ l, f = .lockAcquireBody l → k.lockHolder l = none)
    (hb : (k.thr x).status = .blocked) (hp : (k'.thr x).priority = (k.thr x).priority) :
    StaysBlocked k f x k' := by
  refine ⟨hb, ?_, fun _ => hp⟩
  rintro ⟨l, h, e, hh, -⟩
  rw [hf l e] at hh
  cases hh

theorem Woken.still_blocked (h : Woken cfg t k k') (hx : (k'.thr x).status = .blocked) :
    k'.thr x = k.thr x := by
  refine h.others x ?_
  rintro rfl
  rw [h.restatus.1] at hx
  cases hx

theorem WakesWaiter.still_blocked (h : WakesWaiter cfg p k k')
    (hx : (k'.thr x).status = .blocked) : k'.thr x = k.thr x := by
  obtain ⟨rfl, -⟩ | ⟨t, -, hw⟩ := h
  · rfl
  · exact hw.still_blocked hx

theorem Switches.still_blocked {s : ThreadStatus} (h : Switches srt k k' s)
    (hx : (k'.thr x).status = .blocked) (hxc : x ≠ k.cur) : (k.thr x).status = .blocked := by
  rw [h.status, if_neg hxc] at hx
  split at hx
  · cases hx
  · exact hx

theorem Returns.still_blocked (h : Returns srt k k') (hx : (k'.thr x).status = .blocked)
    (hxc : x ≠ k.cur) : (k.thr x).status = .blocked := by
  obtain rfl | h := h
  · exact hx
  · exact h.still_blocked hx hxc

theorem Returns.priority (h : Returns srt k k') (u : ThreadPtr) :
    (k'.thr u).priority = (k.thr u).priority := by
  obtain rfl | h := h
  · rfl
  · exact h.priority u

/-- **A thread that is blocked after a frame** of another thread. -/
theorem Effect.staysBlocked {f : Frame} (h : Effect cfg srt k f k')
    (hx : (k'.thr x).status = .blocked) (hxc : x ≠ k.cur) (hxn : x ≠ k.nextThread) :
    StaysBlocked k f x k' := by
  cases h with
  | same ha hs =>
      refine .of_eq ?_ (hs.status x ▸ hx) (hs.priority x)
      rintro l rfl
      exact not_not.mp ha
  | priority hp hs =>
      refine .of_eq (by rintro l rfl; cases hp) ?_ ?_
      · simpa [hxc] using (hs.status x).symm.trans hx
      · simpa [hxc] using hs.priority x
  | switch hp _ hs hsw =>
      refine .of_eq (by rintro l rfl; cases hp with | wait hd => cases hd) ?_ ?_
      · rw [← hs.status x]
        exact hsw.still_blocked hx (by rwa [hs.cur])
      · rw [hsw.priority, hs.priority]
  | wake hu hw hs =>
      have hx' := hs.status x ▸ hx
      refine .of_eq (by rintro l rfl; cases hu) ?_ ?_
      · exact hw.still_blocked hx' ▸ hx'
      · rw [hs.priority, hw.still_blocked hx']
  | up hw hs =>
      have hx' := hs.status x ▸ hx
      refine .of_eq (by rintro _ ⟨⟩) ?_ ?_
      · exact hw.still_blocked hx' ▸ hx'
      · rw [hs.priority, hw.still_blocked hx']
  | @contend l h gs k₁ _ hh H hs =>
      have hx' := hs.status x ▸ hx
      have hr : ∀ {l' h'}, Frame.lockAcquireBody l = .lockAcquireBody l' →
          k.lockHolder l' = some h' → h' = h := by
        rintro l' h' ⟨⟩ hh'
        exact Option.some.inj (hh'.symm.trans hh)
      refine ⟨?_, ?_, ?_⟩
      · obtain ⟨q, e, -⟩ := H.thr x
        rw [e] at hx'
        exact hx'
      · rintro ⟨l', h', e, hh', hrs⟩
        obtain rfl := hr e hh'
        rw [hs.priority]
        rcases H.priority_cases x with ⟨-, e⟩ | ⟨hn, -⟩
        · exact e
        · exact absurd hrs hn
      · intro hn
        rw [hs.priority]
        rcases H.priority_cases x with ⟨hrs, -⟩ | ⟨-, e⟩
        · exact absurd ⟨l, h, rfl, hh, hrs⟩ hn
        · exact e
  | @link q e n r gs _ hs =>
      have ht : (linkThread cfg k q e n r).thr x = k.thr x := by simp [linkThread, hxn]
      refine .of_eq (by rintro _ ⟨⟩) ?_ ?_
      · exact ht ▸ hs.status x ▸ hx
      · rw [hs.priority, ht]
  | idle hs => exact .of_eq (by rintro _ ⟨⟩) (hs.status x ▸ hx) (hs.priority x)

/-- A thread that is blocked after the step of another one was so before. -/
theorem StepEffect.still_blocked (h : StepEffect cfg srt k lab k')
    (hx : (k'.thr x).status = .blocked) (hxc : x ≠ k.cur) (hxn : x ≠ k.nextThread) :
    (k.thr x).status = .blocked := by
  cases h with
  | call => exact hx
  | run e he => exact (he.staysBlocked hx hxc hxn).blocked
  | @timer k₁ _ hw hr =>
      have hc : k₁.cur = k.cur := hw.sync.2.trans (endHalt_cur k)
      have hb := hr.still_blocked hx (hc ▸ hxc)
      rw [← endHalt_thr k]
      rcases hw.status x with e | ⟨-, e, -⟩
      · rw [← e, hb]
      · exact e
  | @semaUp n k₁ _ hw hr =>
      have hc : k₁.cur = k.cur := hw.sync.2.trans (endHalt_cur k)
      have hb : (k₁.thr x).status = .blocked := hr.still_blocked hx (by
        show x ≠ k₁.cur
        rwa [hc])
      rw [hw.still_blocked hb] at hb
      rw [← endHalt_thr k]
      exact hb
  | @semaTryDown n =>
      have hs := (semaTryDown_calm ((endHalt k).setLevel false) none (.user n) : Calm cfg _ _ _)
      rw [← endHalt_thr k, ← hx]
      exact (hs.status x).symm

/-! ### Who blocks -/

/-- A frame after which the running thread is blocked. -/
theorem Effect.parks {f : Frame} (h : Effect cfg srt k f k')
    (hc : (k.thr k.cur).status = .running) (hn : k.cur ≠ k.nextThread)
    (hb : (k'.thr k.cur).status = .blocked) :
    ∃ gs, f.Parking gs .blocked ∧ k'.stack k.cur = gs ++ k.stack k.cur ∧
      ∀ p, f.Downs p → k.semaValue p = 0 := by
  -- all but the switches leave the status of the running thread
  have hne : (k'.thr k.cur).status ≠ .running := by
    rw [hb]
    exact nofun
  have hwoken : ∀ {t : ThreadPtr} {k₁ : Kernel}, Woken cfg t k k₁ →
      (k₁.thr k.cur).status = .running := by
    intro t k₁ hw
    rw [hw.restatus.2 k.cur, hc]
    rintro rfl
    rw [hw.blocked] at hc
    cases hc
  cases h with
  | same _ hs => exact absurd ((hs.status _).trans hc) hne
  | priority _ hs => exact absurd ((hs.status _).trans (by simpa using hc)) hne
  | @switch _ gs s k₁ _ hp hv hs hsw =>
      rw [hsw.status, hs.cur] at hb
      split at hb
      · cases hb
      · rw [if_pos rfl] at hb
        subst hb
        refine ⟨gs, hp, ?_, hv⟩
        rw [hsw.stack, hs.stack, Function.update_self]
  | wake _ hw hs => exact absurd ((hs.status _).trans (hwoken hw)) hne
  | up hw hs =>
      obtain ⟨rfl, -⟩ | ⟨t, -, hw⟩ := hw
      · exact absurd ((hs.status _).trans hc) hne
      · exact absurd ((hs.status _).trans (hwoken hw)) hne
  | contend _ H hs =>
      obtain ⟨q, e, -⟩ := H.thr k.cur
      exact absurd ((hs.status _).trans (by rw [e]; exact hc)) hne
  | link hs => exact absurd ((hs.status _).trans (by simpa [linkThread, hn] using hc)) hne
  | idle hs => exact absurd ((hs.status _).trans hc) hne

theorem Returns.not_blocked (h : Returns srt k k') (hc : (k.thr k.cur).status ≠ .blocked) :
    (k'.thr k.cur).status ≠ .blocked := by
  obtain rfl | h := h
  · exact hc
  · rw [h.status]
    have hp : (k.push (.intrSetLevel true)).cur = k.cur := rfl
    rw [hp, if_pos rfl]
    split <;> exact nofun

/-- Only its own frame blocks the running thread. -/
theorem StepEffect.parks (h : StepEffect cfg srt k lab k')
    (hc : (k.thr k.cur).status = .running) (hn : k.cur ≠ k.nextThread)
    (hb : (k'.thr k.cur).status = .blocked) :
    ∃ f fs gs, lab = .run ∧ k.stack k.cur = f :: fs ∧ f.Parking gs .blocked ∧
      k'.stack k.cur = gs ++ fs ∧ ∀ p, f.Downs p → k.semaValue p = 0 := by
  cases h with
  | call =>
      rw [show (k.thr k.cur).status = .blocked from hb] at hc
      cases hc
  | @run f fs _ e he =>
      obtain ⟨gs, hp, hst, hv⟩ := he.parks hc hn hb
      refine ⟨f, fs, gs, rfl, e, hp, ?_, hv⟩
      simpa [Pintos.popFrame] using hst
  | @timer k₁ _ hw hr =>
      have hcur : k₁.cur = k.cur := hw.sync.2.trans (endHalt_cur k)
      have hs : (k₁.thr k₁.cur).status ≠ .blocked := by
        rw [hcur]
        rcases hw.status k.cur with e | ⟨-, -, e⟩
        · rw [e, endHalt_thr, hc]
          rintro ⟨⟩
        · rw [e]
          rintro ⟨⟩
      exact absurd (hcur ▸ hb) (hr.not_blocked hs)
  | @semaUp n k₁ _ hw hr =>
      have hcur : k₁.cur = k.cur := hw.sync.2.trans (endHalt_cur k)
      have hs : (k₁.thr k₁.cur).status ≠ .blocked := by
        rw [hcur]
        intro hb₁
        rw [hw.still_blocked hb₁] at hb₁
        rw [show (((endHalt k).setLevel false).thr k.cur) = k.thr k.cur by
          rw [← endHalt_thr k]; rfl, hc] at hb₁
        cases hb₁
      exact absurd (hcur ▸ hb) (hr.not_blocked hs)
  | @semaTryDown n =>
      have hs := (semaTryDown_calm ((endHalt k).setLevel false) none (.user n) : Calm cfg _ _ _)
      have hb' := (hs.status k.cur).symm.trans hb
      rw [show (((endHalt k).setLevel false).thr k.cur) = k.thr k.cur by
        rw [← endHalt_thr k]; rfl, hc] at hb'
      cases hb'

/-! ### Who waits -/

/-- The semaphores with a list exist, and who is in the list waits. -/
theorem Good.waiting_iff (G : Good cfg srt k) {xs : List ThreadPtr}
    (hx : IsList k.elems (.semaWaiters p) xs) : k.Known p ∧ ∀ u, u ∈ xs ↔ Waiting k p u := by
  obtain ⟨⟨q, home, L, P⟩, -⟩ := G.sched
  have hp : k.Known p := by
    by_contra hp
    have hn := L.fresh p hp
    rw [hx.seg.next_eq] at hn
    cases hn
  obtain ⟨ys, hy⟩ := L.semas p hp
  refine ⟨hp, fun u => ?_⟩
  rw [← P.waiting_iff (not_isReady_semaWaiters p) u, ← L.inList hy, hx.inList]

theorem Good.waiters_isList (G : Good cfg srt k) (hp : k.Known p) :
    ∃ xs, IsList k.elems (.semaWaiters p) xs := by
  obtain ⟨⟨q, home, L, P⟩, -⟩ := G.sched
  obtain ⟨xs, hq⟩ := L.semas p hp
  exact ⟨xs, L.repr.isList hq⟩

theorem Good.waiting_ne_cur (G : Good cfg srt k) (h : Waiting k p t) : t ≠ k.cur := by
  obtain ⟨⟨q, home, L, P⟩, -⟩ := G.sched
  rintro rfl
  have hb := h.1
  rw [P.cur_running] at hb
  cases hb

theorem Good.waiting_lt (G : Good cfg srt k) (h : Waiting k p t) : t < k.nextThread := by
  obtain ⟨⟨q, home, L, P⟩, -⟩ := G.sched
  refine P.lt ?_
  rw [h.1]
  exact nofun

/-- **A thread comes to wait** on a semaphore by its own `sema_down`, at value zero. -/
theorem Good.waiting_step (G : Good cfg srt k) (C : Control k) (C' : Control k')
    (hT : Tame cfg srt k lab) (hn : k.cur < k.nextThread)
    (h : Pintos.step cfg fuel k lab = some k') (hw : Waiting k' p t) :
    Waiting k p t ∨ t = k.cur ∧ k.semaValue p = 0 ∧
      ∃ f fs, lab = .run ∧ k.stack k.cur = f :: fs ∧ f.Downs p := by
  obtain ⟨he, -⟩ := G.stepEffect C hT C'.inv.idleFree h
  obtain ⟨hst, -⟩ : Sync.Step (fun _ => True) k.cur k.sync k'.sync ∧ _ :=
    step_sync hn (fun _ _ => trivial) h
  obtain ⟨⟨q, home, L, P⟩, -⟩ := G.sched
  by_cases ht : t = k.cur
  · subst ht
    obtain ⟨f, fs, gs, hl, e, hp, hs, hv⟩ := he.parks P.cur_running hn.ne hw.1
    have hwait := hw.2
    rw [hs] at hwait
    cases hp with
    | @wait _ s old hd =>
        obtain rfl : s = p := by simpa [waitsOn] using hwait
        exact .inr ⟨rfl, hv s hd, f, fs, hl, e, hd⟩
    | _ => cases hwait
  · have hwait := hw.2
    rcases hst.stack_of_ne C.inv ht with hs | ⟨-, q, e, n, r, fs, -, hs⟩
    · rw [show k'.stack t = k.stack t from hs] at hwait
      have htn : t ≠ k.nextThread := by
        rintro rfl
        rw [show k.stack k.nextThread = [] from C.inv.unborn k.nextThread le_rfl] at hwait
        cases hwait
      exact .inl ⟨he.still_blocked hw.1 ht htn, hwait⟩
    · rw [show k'.stack t = e.stack from hs, e.stack_head.1] at hwait
      cases hwait

end Pintos
