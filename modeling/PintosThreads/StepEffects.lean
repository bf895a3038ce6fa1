/-
PintosThreads/StepEffects.lean

What the steps of a run do to the threads: the effect of the frame that the
running thread executes, or that of an interrupt (`StepEffect`).

The results are about all effects together: who is woken, and by what cause
(`StepEffect.blocked`), who dies (`StepEffect.dies`) and who comes into being
(`StepEffect.born`).
-/
import PintosThreads.Effects

namespace Pintos

open Intrusive

variable {cfg : Config} {fuel : ℕ} {srt : Prop} {k k' : Kernel} {lab : Label}

/-! ### What a switch does -/

theorem Switches.status {s : ThreadStatus} (h : Switches srt k k' s) (u : ThreadPtr) :
    (k'.thr u).status =
      if u = k'.cur then .running else if u = k.cur then s else (k.thr u).status := by
  obtain ⟨k₁, hl, hd⟩ := h
  by_cases hu : u = k'.cur
  · rw [if_pos hu, hu]
    exact hd.restatus.1
  · rw [if_neg hu, hd.restatus.2 u hu]
    by_cases hc : u = k.cur
    · rw [if_pos hc, hc]
      exact hl.restatus.1
    · rw [if_neg hc]
      exact hl.restatus.2 u hc

theorem Switches.waitingLock {s : ThreadStatus} (h : Switches srt k k' s) (u : ThreadPtr) :
    (k'.thr u).waitingLock = (k.thr u).waitingLock := by
  obtain ⟨k₁, hl, hd⟩ := h
  rw [hd.thr u]
  exact hl.waitingLock u

theorem Switches.priority {s : ThreadStatus} (h : Switches srt k k' s) (u : ThreadPtr) :
    (k'.thr u).priority = (k.thr u).priority := by
  obtain ⟨k₁, hl, hd⟩ := h
  rw [hd.thr u]
  exact hl.priority u

theorem Switches.sync {s : ThreadStatus} (h : Switches srt k k' s) : k'.sync = k.sync := by
  obtain ⟨k₁, hl, hd⟩ := h
  exact hd.sync.trans hl.sync

theorem Switches.idleThread {s : ThreadStatus} (h : Switches srt k k' s) :
    k'.idleThread = k.idleThread :=
  congrArg Sync.idleThread h.sync

theorem Switches.stack {s : ThreadStatus} (h : Switches srt k k' s) : k'.stack = k.stack :=
  congrArg Sync.stack h.sync

/-- The thread that runs next was ready, or it is the idle thread, or it goes on itself. -/
theorem Switches.next {s : ThreadStatus} (h : Switches srt k k' s) :
    k'.cur = k.cur ∨ (k.thr k'.cur).status = .ready ∨ k.idleThread = some k'.cur := by
  obtain ⟨k₁, hl, hd⟩ := h
  by_cases hc : k'.cur = k.cur
  · exact .inl hc
  · have hi : k₁.idleThread = k.idleThread := congrArg Sync.idleThread hl.sync
    obtain ⟨hr, -⟩ | ⟨hi', -⟩ := hd.chosen
    · rw [hl.restatus.2 _ hc] at hr
      exact .inr (.inl hr)
    · exact .inr (.inr (hi ▸ hi'))

/-! ### The effects of steps -/

/-- What a step does to the threads. -/
inductive StepEffect (cfg : Config) (srt : Prop) (k : Kernel) : Label → Kernel → Prop
  | call {c} : k.stack k.cur = [] → StepEffect cfg srt k (.call c) (k.push c.frame)
  | run {f fs k'} : k.stack k.cur = f :: fs → Effect cfg srt (popFrame k fs) f k' →
      StepEffect cfg srt k .run k'
  | timer {k₁ k'} : Wakes cfg (fun u => Sleeps ((endHalt k).stack u)) (endHalt k) k₁ →
      Returns srt k₁ k' → StepEffect cfg srt k .timer k'
  | semaUp {n k₁ k'} : WakesWaiter cfg (.user n) ((endHalt k).setLevel false) k₁ →
      Returns srt (k₁.raised none (.user n)) k' → StepEffect cfg srt k (.semaUp n) k'
  | semaTryDown {n} : StepEffect cfg srt k (.semaTryDown n)
      ((semaTryDown ((endHalt k).setLevel false) none (.user n)).1.setLevel true)

/-- Why a blocked thread `x` may be woken in a step. -/
inductive WakeCause (k : Kernel) (x : ThreadPtr) : Label → Prop
  | unblocks {f fs} : k.stack k.cur = f :: fs → f.Unblocks x → WakeCause k x .run
  | up {p fs} : k.stack k.cur = .semaUp p :: fs → Waiting k p x → WakeCause k x .run
  | idle {lab : Label} : k.idleThread = some x → WakeCause k x lab
  | sleep : Sleeps (k.stack x) → WakeCause k x .timer
  | interrupt {n} : Waiting k (.user n) x → WakeCause k x (.semaUp n)

theorem popFrame_stack_of_ne {fs : List Frame} {u : ThreadPtr} (hu : u ≠ k.cur) :
    (popFrame k fs).stack u = k.stack u := by
  simp [popFrame, hu]

/-- A switch leaves every other blocked thread blocked, but the idle thread. -/
theorem Switches.blocked {s : ThreadStatus} (h : Switches srt k k' s) {x : ThreadPtr}
    (hx : (k.thr x).status = .blocked) (hxc : x ≠ k.cur) :
    (k'.thr x).status = .blocked ∨ k.idleThread = some x := by
  rw [h.status, if_neg hxc]
  split
  case isTrue e =>
    subst e
    obtain hc | hr | hi := h.next
    · exact absurd hc hxc
    · rw [hx] at hr
      cases hr
    · exact .inr hi
  case isFalse => exact .inl hx

theorem Returns.blocked (h : Returns srt k k') {x : ThreadPtr}
    (hx : (k.thr x).status = .blocked) (hxc : x ≠ k.cur) :
    (k'.thr x).status = .blocked ∨ k.idleThread = some x := by
  obtain rfl | h := h
  · exact .inl hx
  · exact h.blocked hx hxc

theorem WakesWaiter.blocked {p : SemaPtr} (h : WakesWaiter cfg p k k') {x : ThreadPtr}
    (hx : (k.thr x).status = .blocked) : (k'.thr x).status = .blocked ∨ Waiting k p x := by
  obtain ⟨rfl, -⟩ | ⟨t, ht, hw⟩ := h
  · exact .inl hx
  · obtain rfl | hxt := eq_or_ne x t
    · exact .inr ht
    · exact .inl ((hw.restatus.2 x hxt).trans hx)

theorem WakesWaiter.sync {p : SemaPtr} (h : WakesWaiter cfg p k k') : SameSync k k' := by
  obtain ⟨rfl, -⟩ | ⟨t, -, hw⟩ := h
  · exact .refl k'
  · exact hw.sync

/-- The effect of a frame on the other blocked threads. -/
theorem Effect.blocked {f : Frame} (h : Effect cfg srt k f k') {x : ThreadPtr}
    (hx : (k.thr x).status = .blocked) (hxc : x ≠ k.cur) (hxn : x < k.nextThread) :
    (k'.thr x).status = .blocked ∨ f.Unblocks x ∨ (∃ p, f = .semaUp p ∧ Waiting k p x) ∨
      k.idleThread = some x := by
  cases h with
  | same _ hs => exact .inl ((hs.status x).trans hx)
  | priority _ hs =>
      refine .inl ((hs.status x).trans ?_)
      simpa [hxc] using hx
  | switch _ _ hs hsw =>
      obtain h | h := hsw.blocked ((hs.status x).trans hx) (by rwa [hs.cur])
      · exact .inl h
      · exact .inr (.inr (.inr (hs.idleThread ▸ h)))
  | @wake _ t _ _ _ hu hw hs =>
      obtain rfl | hxt := eq_or_ne x t
      · exact .inr (.inl hu)
      · exact .inl ((hs.status x).trans ((hw.restatus.2 x hxt).trans hx))
  | @up p _ _ _ hw hs =>
      obtain h | h := hw.blocked hx
      · exact .inl ((hs.status x).trans h)
      · exact .inr (.inr (.inl ⟨p, rfl, h⟩))
  | contend _ hc hs =>
      obtain ⟨p, e, -⟩ := hc.thr x
      refine .inl ((hs.status x).trans ?_)
      rw [e]
      exact hx
  | link hs =>
      refine .inl ((hs.status x).trans ?_)
      simpa [linkThread, hxn.ne] using hx
  | idle hs => exact .inl ((hs.status x).trans hx)

/-- **A blocked thread stays blocked** unless the step has a cause to wake it. -/
theorem StepEffect.blocked (h : StepEffect cfg srt k lab k') {x : ThreadPtr}
    (hx : (k.thr x).status = .blocked) (hxc : x ≠ k.cur) (hxn : x < k.nextThread) :
    (k'.thr x).status = .blocked ∨ WakeCause k x lab := by
  have hx₀ : ((endHalt k).thr x).status = .blocked := by rwa [endHalt_thr]
  have hxc₀ : x ≠ (endHalt k).cur := by rwa [endHalt_cur]
  cases h with
  | call => exact .inl hx
  | @run f fs _ e h =>
      obtain hb | hu | ⟨p, rfl, hw⟩ | hi := h.blocked (x := x) hx hxc hxn
      · exact .inl hb
      · exact .inr (.unblocks e hu)
      · refine .inr (.up e ⟨hx, ?_⟩)
        rw [← popFrame_stack_of_ne hxc]
        exact hw.2
      · exact .inr (.idle hi)
  | timer hw hr =>
      obtain e | ⟨hs, -⟩ := hw.status x
      · obtain h | h := hr.blocked (e.trans hx₀) (by rwa [hw.sync.2])
        · exact .inl h
        · rw [hw.idleThread, endHalt_idleThread] at h
          exact .inr (.idle h)
      · rw [endHalt_stack_of_ne hxc] at hs
        exact .inr (.sleep hs)
  | @semaUp n k₁ _ hw hr =>
      have hc : (k₁.raised none (.user n)).cur = (endHalt k).cur := hw.sync.2
      have hi : (k₁.raised none (.user n)).idleThread = (endHalt k).idleThread :=
        congrArg Sync.idleThread hw.sync.1
      obtain h | h := hw.blocked (x := x) hx₀
      · obtain h | h := hr.blocked (x := x) h (by rwa [hc])
        · exact .inl h
        · rw [hi, endHalt_idleThread] at h
          exact .inr (.idle h)
      · refine .inr (.interrupt ⟨hx, ?_⟩)
        rw [← endHalt_stack_of_ne hxc]
        exact h.2
  | @semaTryDown n =>
      refine .inl ?_
      have hc := (semaTryDown_calm ((endHalt k).setLevel false) none (.user n) : Calm cfg _ _ _).status x
      exact hc.trans hx₀

/-! ### Death and birth -/

theorem Switches.dies {s : ThreadStatus} (h : Switches srt k k' s) {u : ThreadPtr}
    (hu : (k'.thr u).status = .dying) : (k.thr u).status = .dying ∨ u = k.cur ∧ s = .dying := by
  rw [h.status] at hu
  split at hu
  case isTrue => cases hu
  case isFalse =>
    split at hu
    case isTrue hc => exact .inr ⟨hc, hu⟩
    case isFalse => exact .inl hu

theorem Returns.dies (h : Returns srt k k') {u : ThreadPtr} (hu : (k'.thr u).status = .dying) :
    (k.thr u).status = .dying := by
  obtain rfl | h := h
  · exact hu
  · exact (h.dies hu).resolve_right fun ⟨_, hs⟩ => nomatch hs

theorem WakesWaiter.dies {p : SemaPtr} (h : WakesWaiter cfg p k k') {u : ThreadPtr}
    (hu : (k'.thr u).status = .dying) : (k.thr u).status = .dying := by
  obtain ⟨rfl, -⟩ | ⟨t, -, hw⟩ := h
  · exact hu
  · obtain rfl | hut := eq_or_ne u t
    · rw [hw.restatus.1] at hu
      cases hu
    · rwa [hw.restatus.2 u hut] at hu

theorem Effect.dies {f : Frame} (h : Effect cfg srt k f k') {u : ThreadPtr}
    (hu : (k'.thr u).status = .dying) :
    (k.thr u).status = .dying ∨ u = k.cur ∧ f = .threadExit := by
  cases h with
  | same _ hs => exact .inl ((hs.status u).symm.trans hu)
  | priority _ hs =>
      rw [hs.status u] at hu
      obtain rfl | hc := eq_or_ne u k.cur
      · exact .inl (by simpa using hu)
      · exact .inl (by simpa [hc] using hu)
  | switch hp _ hs hsw =>
      obtain hd | ⟨hc, rfl⟩ := hsw.dies hu
      · exact .inl ((hs.status u).symm.trans hd)
      · cases hp
        exact .inr ⟨hc.trans hs.cur, rfl⟩
  | @wake _ t _ _ _ _ hw hs =>
      rw [hs.status u] at hu
      obtain rfl | hut := eq_or_ne u t
      · rw [hw.restatus.1] at hu
        cases hu
      · exact .inl ((hw.restatus.2 u hut).symm.trans hu)
  | up hw hs => exact .inl (hw.dies ((hs.status u).symm.trans hu))
  | contend _ hc hs =>
      obtain ⟨p, e, -⟩ := hc.thr u
      rw [hs.status u, e] at hu
      exact .inl hu
  | link hs =>
      rw [hs.status u] at hu
      obtain rfl | hn := eq_or_ne u k.nextThread
      · simp [linkThread, initThread] at hu
      · exact .inl (by simpa [linkThread, hn] using hu)
  | idle hs => exact .inl ((hs.status u).symm.trans hu)

/-- **Only the running thread dies**, in `thread_exit`. -/
theorem StepEffect.dies (h : StepEffect cfg srt k lab k') {u : ThreadPtr}
    (hu : (k'.thr u).status = .dying) :
    (k.thr u).status = .dying ∨
      lab = .run ∧ u = k.cur ∧ ∃ fs, k.stack k.cur = .threadExit :: fs := by
  cases h with
  | call => exact .inl hu
  | @run f fs _ e h =>
      obtain hd | ⟨hc, rfl⟩ := h.dies hu
      · exact .inl hd
      · exact .inr ⟨rfl, hc, fs, e⟩
  | timer hw hr =>
      have hd := hr.dies hu
      rw [← endHalt_thr]
      obtain e | ⟨-, -, e⟩ := hw.status u
      · exact .inl (e.symm.trans hd)
      · rw [e] at hd
        cases hd
  | semaUp hw hr =>
      rw [← endHalt_thr]
      exact .inl (hw.dies (hr.dies hu))
  | @semaTryDown n =>
      have hc := (semaTryDown_calm ((endHalt k).setLevel false) none (.user n) :
        Calm cfg _ _ _).status u
      rw [← endHalt_thr]
      exact .inl (hc.symm.trans hu)

theorem Effect.nextThread {f : Frame} (h : Effect cfg srt k f k') (hc : k.cur ≠ k.nextThread) :
    k'.nextThread = k.nextThread ∨
      (k'.thr k.nextThread).status = .blocked ∧ ∃ e : Entry, k'.stack k.nextThread = e.stack := by
  cases h with
  | same _ hs => exact .inl hs.nextThread
  | priority _ hs => exact .inl hs.nextThread
  | switch _ _ hs hsw => exact .inl ((congrArg Sync.nextThread hsw.sync).trans hs.nextThread)
  | wake _ hw hs => exact .inl (hs.nextThread.trans hw.sync.nextThread)
  | up hw hs => exact .inl (hs.nextThread.trans hw.sync.nextThread)
  | contend _ hc hs => exact .inl (hs.nextThread.trans hc.sync.nextThread)
  | @link p e n r gs _ hs =>
      refine .inr ⟨(hs.status _).trans (by simp [linkThread, initThread]), e, ?_⟩
      rw [hs.stack_of_ne (by simpa [linkThread] using hc.symm)]
      simp [linkThread]
  | idle hs => exact .inl hs.nextThread

theorem Returns.nextThread (h : Returns srt k k') : k'.nextThread = k.nextThread := by
  obtain rfl | h := h
  · rfl
  · exact congrArg Sync.nextThread h.sync

/-- **A new thread** is blocked, in front of its first frames. -/
theorem StepEffect.born (h : StepEffect cfg srt k lab k') (hc : k.cur ≠ k.nextThread) :
    k'.nextThread = k.nextThread ∨
      (k'.thr k.nextThread).status = .blocked ∧ ∃ e : Entry, k'.stack k.nextThread = e.stack := by
  cases h with
  | call => exact .inl rfl
  | run e h => exact h.nextThread hc
  | timer hw hr =>
      exact .inl (hr.nextThread.trans (hw.sync.nextThread.trans (endHalt_nextThread k)))
  | semaUp hw hr =>
      exact .inl (hr.nextThread.trans (hw.sync.nextThread.trans (endHalt_nextThread k)))
  | @semaTryDown n =>
      have hc := (semaTryDown_calm ((endHalt k).setLevel false) none (.user n) :
        Calm cfg _ _ _).nextThread
      exact .inl (hc.trans (endHalt_nextThread k))

end Pintos
