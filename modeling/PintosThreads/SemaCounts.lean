/-
PintosThreads/SemaCounts.lean

The value of a semaphore and the threads on their way to it.

`sema_down` decrements, `sema_up` increments, and each leaves an event on
record, so that the value is the initial one, plus the ups, less the downs
(`Counts`).  `sema_up` wakes a thread before it increments, and the woken thread
does not own the unit: until it has tested the value again (`InFlight`), another
thread or an interrupt handler may take it.  Nothing in the kernel's data says
which threads these are.  They are counted by their stacks: while somebody waits,
the value is at most the number of threads in flight (`Covered`).  A thread that
comes to wait has found value zero, a thread in flight that takes a unit leaves
with it, and an up adds to both sides.
-/
import PintosThreads.WaiterOrder
import PintosThreads.CondWakeups
import PintosThreads.InterruptLevel

namespace Pintos

open Intrusive

variable {cfg : Config} {fuel : ℕ} {srt : Prop} {ok : Kernel → Label → Prop}
variable {k k' : Kernel} {lab : Label} {p : SemaPtr} {t u : ThreadPtr} {s s' : Sync}

/-! ### Ups and downs -/

/-- What a step does to the value of semaphore `p` and to the record of its ups and downs. -/
inductive Counts (p : SemaPtr) (s s' : Sync) : (up : Prop) → Prop
  | same {up : Prop} : s'.value p = s.value p → ups s'.events p = ups s.events p →
      downs s'.events p = downs s.events p → Counts p s s' up
  | down {up : Prop} : s.value p ≠ 0 → s'.value p = s.value p - 1 →
      ups s'.events p = ups s.events p → downs s'.events p = downs s.events p + 1 →
      Counts p s s' up
  | up {up : Prop} : up → s'.value p = (s.value p + 1) % 2 ^ 32 →
      ups s'.events p = ups s.events p + 1 → downs s'.events p = downs s.events p →
      Counts p s s' up

theorem Counts.mono {up up' : Prop} (h : Counts p s s' up) (hu : up → up') :
    Counts p s s' up' := by
  cases h with
  | same hv hups hdowns => exact .same hv hups hdowns
  | down h0 hv hups hdowns => exact .down h0 hv hups hdowns
  | up hup hv hups hdowns => exact .up (hu hup) hv hups hdowns

theorem Counts.of_eq {up : Prop} (hv : s'.value = s.value) (he : s'.events = s.events) :
    Counts p s s' up :=
  .same (congrFun hv p) (by rw [he]) (by rw [he])

/-- A decrement of any semaphore. -/
theorem Counts.of_down {up : Prop} {a : Option ThreadPtr} {q : SemaPtr} (h0 : s.value q ≠ 0) :
    Counts p s (s.down a q) up := by
  by_cases hq : q = p
  · subst hq
    exact .down h0 (by simp) (by simp) (by simp)
  · exact .same (by simp [Function.update_of_ne (Ne.symm hq)]) (by simp) (by simp [hq])

/-- An increment of any semaphore. -/
theorem Counts.of_up {a : Option ThreadPtr} {q : SemaPtr} : Counts p s (s.up a q) (q = p) := by
  by_cases hq : q = p
  · subst hq
    exact .up rfl (by simp) (by simp) (by simp)
  · exact .same (by simp [Function.update_of_ne (Ne.symm hq)]) (by simp [hq]) (by simp)

/-- A frame changes the value of a semaphore, if it is not that of a new record, only by an up or
a down. -/
theorem Move.counts {f : Frame} {gs : List Frame} (h : Move t s f gs s')
    (hp : ∀ w, p ≠ .ofWaiter w) : Counts p s s' (f = .semaUp p) := by
  cases h with
  | down _ h0 | tryDown h0 | lockTryAcquireDown h0 => exact .of_down h0
  | @up q _ _ =>
      refine Counts.of_up.mono ?_
      rintro rfl
      rfl
  | condWait =>
      exact .same (by simp [Function.update_of_ne (hp _)]) rfl rfl
  | _ => exact .of_eq rfl rfl

/-- Only the values and the record matter. -/
theorem Counts.congr {s₀ s₁ : Sync} {up : Prop} (h : Counts p s s' up)
    (h₀ : s₀.value = s.value ∧ s₀.events = s.events)
    (h₁ : s₁.value = s'.value ∧ s₁.events = s'.events) : Counts p s₀ s₁ up := by
  obtain ⟨⟨hv₀, he₀⟩, hv₁, he₁⟩ := And.intro h₀ h₁
  cases h with
  | same hv hups hdowns => exact .same (by rwa [hv₀, hv₁]) (by rwa [he₀, he₁]) (by rwa [he₀, he₁])
  | down h0 hv hups hdowns =>
      exact .down (by rwa [hv₀]) (by rwa [hv₀, hv₁]) (by rwa [he₀, he₁]) (by rwa [he₀, he₁])
  | up hup hv hups hdowns =>
      exact .up hup (by rwa [hv₀, hv₁]) (by rwa [he₀, he₁]) (by rwa [he₀, he₁])

/-! ### Interrupts -/

theorem endHalt_values (k : Kernel) :
    (endHalt k).sync.value = k.sync.value ∧ (endHalt k).sync.events = k.sync.events := by
  obtain ⟨hs, -⟩ := endHalt_sync k
  rw [hs]
  exact ⟨rfl, rfl⟩

theorem interruptReturn_values {b : Bool} (hc : k.cur < k.nextThread)
    (h : interruptReturn cfg fuel k b = some k') :
    k'.sync.value = k.sync.value ∧ k'.sync.events = k.sync.events := by
  obtain ⟨hs, -⟩ | ⟨hs, -⟩ := interruptReturn_switched hc h
  · rw [hs]
    exact ⟨rfl, rfl⟩
  · rw [hs, Kernel.sync_push]
    exact ⟨rfl, rfl⟩

/-- The handler's doings decide. -/
theorem Counts.interrupt {k₁ : Kernel} {b : Bool} {up : Prop}
    (h₁ : Counts p (endHalt k).sync k₁.sync up) (hc : k₁.cur < k₁.nextThread)
    (h : interruptReturn cfg fuel k₁ b = some k') : Counts p k.sync k'.sync up := by
  obtain ⟨hv, he⟩ := endHalt_values k
  exact h₁.congr ⟨hv.symm, he.symm⟩ (interruptReturn_values hc h)

theorem endHalt_cur_lt (hc : k.cur < k.nextThread) :
    (endHalt k).cur < (endHalt k).nextThread := by
  obtain ⟨hs, hcur, -⟩ := endHalt_sync k
  rw [hcur, show (endHalt k).nextThread = k.nextThread from congrArg Sync.nextThread hs]
  exact hc

/-- The timer touches no semaphore. -/
theorem timerInterrupt_counts (hc : k.cur < k.nextThread)
    (h : timerInterrupt cfg fuel k = some k') : Counts p k.sync k'.sync False := by
  simp only [timerInterrupt, Option.bind_eq_bind, Option.bind_eq_some_iff] at h
  obtain ⟨k₁, h₁, ⟨k₂, b⟩, h₂, h⟩ := h
  have ht : SameSync (endHalt k) (threadTick cfg
      { (endHalt k).setLevel false with ticks := (endHalt k).ticks + 1 }).1 :=
    (threadTick_sameSync _).after ⟨rfl, rfl⟩
  have h₂ : SameSync (endHalt k) k₂ :=
    (timerMlfqs_sameSync h₂).after ((timerWakeup_sameSync _ h₁).after ht)
  refine Counts.interrupt (.of_eq ?_ ?_) (h₂.lt (endHalt_cur_lt hc)).2 h
  · rw [h₂.1]
  · rw [h₂.1]

theorem semaUpInterrupt_counts {q : SemaPtr} (hc : k.cur < k.nextThread)
    (h : semaUpInterrupt cfg fuel k q = some k') : Counts p k.sync k'.sync (q = p) := by
  simp only [semaUpInterrupt, Option.bind_eq_bind, Option.bind_eq_some_iff] at h
  obtain ⟨k₁, h₁, b, -, h⟩ := h
  obtain ⟨hs₁, hc₁⟩ := semaUpBody_sync h₁
  refine Counts.interrupt ?_ ?_ h
  · rw [hs₁]
    exact .of_up
  · rw [hc₁, show k₁.nextThread = (endHalt k).nextThread from congrArg Sync.nextThread hs₁]
    exact endHalt_cur_lt hc

theorem semaTryDownInterrupt_counts {q : SemaPtr} (hc : k.cur < k.nextThread)
    (h : semaTryDownInterrupt cfg fuel k q = some k') : Counts p k.sync k'.sync False := by
  unfold semaTryDownInterrupt at h
  dsimp only at h
  have hc₀ : ((endHalt k).setLevel false).cur < ((endHalt k).setLevel false).nextThread :=
    endHalt_cur_lt hc
  obtain ⟨hv, -, hs, hcur⟩ | e := semaTryDown_cases ((endHalt k).setLevel false) none q
  · refine Counts.interrupt ?_ ?_ h
    · rw [hs]
      exact .of_down hv
    · rw [hcur, show (semaTryDown ((endHalt k).setLevel false) none q).1.nextThread =
        ((endHalt k).setLevel false).nextThread from congrArg Sync.nextThread hs]
      exact hc₀
  · rw [e] at h
    have h₁ : Counts p (endHalt k).sync ((endHalt k).setLevel false).sync False := .of_eq rfl rfl
    exact h₁.interrupt hc₀ h

/-- **Every step** changes the value of a semaphore only by a recorded up or down. -/
theorem step_counts (hc : k.cur < k.nextThread) (hp : ∀ w, p ≠ .ofWaiter w)
    (h : Pintos.step cfg fuel k lab = some k') : Counts p k.sync k'.sync (lab.Ups k p) := by
  cases lab with
  | call c =>
      simp only [Pintos.step] at h
      split at h <;> cases h
      exact .of_eq rfl rfl
  | run =>
      obtain ⟨hs, -⟩ := step_syncStep hc h
      generalize k'.sync = s' at hs ⊢
      cases hs with
      | @run f fs gs s₁ e hm =>
          refine ((hm.counts hp).mono ?_).congr ⟨rfl, rfl⟩ ⟨rfl, rfl⟩
          rintro rfl
          exact .inl ⟨rfl, fs, e⟩
      | interrupt hl => exact absurd rfl hl
  | timer =>
      simp only [Pintos.step] at h
      split at h
      · exact (timerInterrupt_counts hc h).mono False.elim
      · cases h
  | semaUp n =>
      simp only [Pintos.step] at h
      split at h
      · refine (semaUpInterrupt_counts hc h).mono ?_
        rintro rfl
        exact .inr ⟨n, rfl, rfl⟩
      · cases h
  | semaTryDown n =>
      simp only [Pintos.step] at h
      split at h
      · exact (semaTryDownInterrupt_counts hc h).mono False.elim
      · cases h

/-! ### The value -/

/-- One step keeps the account. -/
theorem Counts.conserved {up : Prop} {v : ℕ} (h : Counts p s s' up)
    (ih : ups s.events p < 2 ^ 32 - v → s.value p + downs s.events p = v + ups s.events p)
    (hu : ups s'.events p < 2 ^ 32 - v) :
    s'.value p + downs s'.events p = v + ups s'.events p := by
  cases h with
  | same hv hups hdowns =>
      rw [hups] at hu
      rw [hv, hups, hdowns]
      exact ih hu
  | down h0 hv hups hdowns =>
      rw [hups] at hu
      have hs := ih hu
      rw [hv, hups, hdowns]
      omega
  | up _ hv hups hdowns =>
      rw [hups] at hu
      have hs := ih (by omega)
      -- so few ups have not filled an unsigned
      have hlt : s.value p + 1 < 2 ^ 32 := by omega
      rw [hv, hups, hdowns, Nat.mod_eq_of_lt hlt]
      omega

/-- **Conservation.**  The value of a semaphore that starts with `v` is `v`, plus the ups, less
the downs, until the ups exceed what an unsigned holds. -/
theorem Reachable.semaValue {n : ℕ} (h : Reachable cfg ok k)
    (hu : ups k.log (.user n) < 2 ^ 32 - cfg.semaInit n) :
    k.semaValue (.user n) + downs k.log (.user n) = cfg.semaInit n + ups k.log (.user n) := by
  rw [← ups_sync] at hu
  rw [← ups_sync, ← downs_sync]
  show k.sync.value (.user n) + _ = _
  induction h with
  | refl => rfl
  | tail hr hn ih =>
      obtain ⟨lab, fuel, -, h⟩ := hn
      exact (step_counts (Reachable.anySync hr).2 (by rintro _ ⟨⟩) h).conserved ih hu

/-- A decrement is never made at zero. -/
theorem step_down {n : ℕ} (hc : k.cur < k.nextThread)
    (h : Pintos.step cfg fuel k lab = some k')
    (hd : downs k'.log (.user n) ≠ downs k.log (.user n)) :
    k.semaValue (.user n) ≠ 0 ∧ k'.semaValue (.user n) = k.semaValue (.user n) - 1 := by
  rw [← downs_sync, ← downs_sync] at hd
  cases step_counts (p := .user n) hc (by rintro _ ⟨⟩) h with
  | same _ _ hdowns => exact absurd hdowns hd
  | down h0 hv => exact ⟨h0, hv⟩
  | up _ _ _ hdowns => exact absurd hdowns hd

/-! ### In flight -/

/-- A `sema_up` has unblocked the thread in its `sema_down` on `p`, and it has not yet tested the
value again. -/
def InFlight (k : Kernel) (p : SemaPtr) (t : ThreadPtr) : Prop :=
  (k.thr t).status ≠ .blocked ∧ ∃ old, .semaDownWait p old ∈ k.stack t

instance (k : Kernel) (p : SemaPtr) (t : ThreadPtr) : Decidable (InFlight k p t) :=
  inferInstanceAs (Decidable (_ ∧ _))

/-- The threads in flight. -/
def inFlight (k : Kernel) (p : SemaPtr) : Finset ThreadPtr :=
  {t ∈ Finset.range k.nextThread | InFlight k p t}

/-- The running thread tests the value of `p` again. -/
def Label.Retests (k : Kernel) (p : SemaPtr) (lab : Label) : Prop :=
  lab = .run ∧ ∃ old fs, k.stack k.cur = .semaDownWait p old :: fs

theorem Control.mem_inFlight (C : Control k) : t ∈ inFlight k p ↔ InFlight k p t := by
  rw [inFlight, Finset.mem_filter, Finset.mem_range, and_iff_right_iff_imp]
  rintro ⟨-, old, hf⟩
  exact C.inv.unborn.lt (List.ne_nil_of_mem hf)

/-- Above a `sema_down` that waits there is at most the return of an interrupt. -/
theorem Stacked.above_wait {f : Frame} {fs : List Frame} {old : Bool}
    (h : Stacked (f :: fs)) (hf : .semaDownWait p old ∈ fs) :
    f = .threadYield ∨ ∃ old, f = .intrSetLevel old :=
  h.yields_of_mem hf (by rintro _ ⟨⟩)

/-- The idle thread is in no `sema_down`. -/
theorem Idling.not_downs {f : Frame} {fs : List Frame} (h : Idling fs) (hd : f.Downs p) :
    f ∉ fs := by
  intro hf
  rcases h.mem hf with hi | hi
  · cases hi with
    | preempts hp => cases hd <;> cases hp
    | _ => cases hd
  · cases hi <;> cases hd

theorem Control.idle_not_downs {f : Frame} (C : Control k) (hi : k.idleThread = some t)
    (hd : f.Downs p) : f ∉ k.stack t := by
  obtain ⟨rfl, h1, -⟩ := C.inv.idleThread t hi
  exact (C.inv.idling h1).not_downs hd

theorem Interrupted.waiting_mem {fs fs' : List Frame} {old : Bool} (h : Interrupted fs fs') :
    .semaDownWait p old ∈ fs' ↔ .semaDownWait p old ∈ fs := by
  cases h <;> simp

/-- A test at a value that is not zero takes a unit. -/
theorem retest_down {f : Frame} {fs : List Frame} (e : k.stack k.cur = f :: fs)
    (hd : f.Downs p) (h0 : k.semaValue p ≠ 0) (h : Pintos.step cfg fuel k .run = some k') :
    k'.semaValue p = k.semaValue p - 1 := by
  rw [step_run e] at h
  cases hd with
  | semaDown | semaDownWait =>
      simp only [exec, semaDownTest] at h
      split at h
      case isTrue hz => exact absurd hz h0
      case isFalse =>
        cases h
        simp [popFrame]

/-- A step leaves the stacks of the other threads alone. -/
theorem Control.stack_of_ne (C : Control k) (hn : k.cur < k.nextThread)
    (h : Pintos.step cfg fuel k lab = some k') (hc : t ≠ k.cur) (ht : t < k.nextThread) :
    k'.stack t = k.stack t := by
  obtain ⟨hs, -⟩ : Sync.Step (fun _ => True) k.cur k.sync k'.sync ∧ _ :=
    step_sync hn (fun _ _ => trivial) h
  rcases hs.stack_of_ne C.inv hc with e | ⟨e, -⟩
  · exact e
  · exact absurd e ht.ne

/-- **A thread in flight** stays so until it tests the value again. -/
theorem Good.inFlight_step (G : Good cfg srt k) (C : Control k) (C' : Control k')
    (hT : Tame cfg srt k lab) (hn : k.cur < k.nextThread)
    (h : Pintos.step cfg fuel k lab = some k') (ht : InFlight k p t) :
    InFlight k' p t ∨ t = k.cur ∧ lab.Retests k p := by
  obtain ⟨he, -⟩ := G.stepEffect C hT C'.inv.idleFree h
  obtain ⟨hb, old, hf⟩ := ht
  have htn : t < k.nextThread := C.inv.unborn.lt (List.ne_nil_of_mem hf)
  obtain ⟨⟨q, home, L, P⟩, -⟩ := G.sched
  by_cases hc : t = k.cur
  · subst hc
    -- a frame that blocks cannot stand above the one that waits
    have hblocks : ∀ f fs, lab = .run → k.stack k.cur = f :: fs → .semaDownWait p old ∈ fs →
        (k'.thr k.cur).status ≠ .blocked := by
      rintro f fs - e hfs hb'
      obtain ⟨f', fs', gs, -, e', hp, -⟩ := he.parks P.cur_running hn.ne hb'
      rw [e] at e'
      cases e'
      have hs : Stacked (f :: fs) := e ▸ C.inv.stacked k.cur
      obtain rfl | ⟨_, rfl⟩ := hs.above_wait hfs
      · cases hp with
        | wait hd => cases hd
      · cases hp with
        | wait hd => cases hd
    obtain ⟨hs, -⟩ := step_syncStep hn h
    generalize hk : k'.sync = s' at hs
    have hst : k'.stack k.cur = s'.stack k.cur := hk ▸ rfl
    cases hs with
    | call e =>
        rw [e] at hf
        cases hf
    | @run f fs gs s₁ e hm =>
        rw [e] at hf
        rcases List.mem_cons.mp hf with rfl | hfs
        · exact .inr ⟨rfl, rfl, old, fs, e⟩
        · refine .inl ⟨hblocks f fs rfl e hfs, old, ?_⟩
          rw [hst, Sync.setStack_stack, Function.update_self,
            (hm.stack_run C.inv.unborn e).1]
          exact List.mem_append_right gs hfs
    | @interrupt _ fs' s₁ hl hi hh =>
        refine .inl ⟨fun hb' => ?_, old, ?_⟩
        · obtain ⟨_, _, _, hlab, -⟩ := he.parks P.cur_running hn.ne hb'
          exact hl hlab
        · rw [hst, Sync.setStack_stack, Function.update_self]
          exact hi.waiting_mem.mpr hf
  · have hst : k'.stack t = k.stack t := C.stack_of_ne hn h hc htn
    exact .inl ⟨fun hb' => hb (he.still_blocked hb' hc htn.ne), old, hst ▸ hf⟩

theorem Waiting.eq {q : SemaPtr} {old : Bool} (h : Waiting k q t) (C : Control k)
    (hf : .semaDownWait p old ∈ k.stack t) : q = p := by
  obtain ⟨old', fs, e⟩ := h.stack
  have hs : Stacked (.semaDownWait q old' :: fs) := e ▸ C.inv.stacked t
  rw [e] at hf
  rcases List.mem_cons.mp hf with e' | hfs
  · cases e'
    rfl
  · obtain e' | ⟨_, e'⟩ := hs.above_wait hfs <;> cases e'

/-- A blocked thread with a `sema_down` under way is woken by a `sema_up` only. -/
theorem Good.woken_up (G : Good cfg srt k) (C : Control k) (hT : Tame cfg srt k lab)
    {old : Bool} (hf : .semaDownWait p old ∈ k.stack t) (hw : WakeCause k t lab) :
    Waiting k p t ∧ lab.Ups k p := by
  have hs : Stacked (k.stack t) := C.inv.stacked t
  cases hw with
  | @unblocks f fs e hu =>
      exfalso
      cases hu with
      | threadUnblock =>
          obtain ⟨gs, e'⟩ := hT _ _ e
          rw [e'] at hf hs
          have hfs := List.mem_of_ne_of_mem (by rintro ⟨⟩) hf
          obtain e' | ⟨_, e'⟩ := hs.above_wait hfs <;> cases e'
      | threadCreateUnblock =>
          have hmem : .threadCreateUnblock t ∈ k.stack k.cur := by
            rw [e]
            exact .head _
          obtain ⟨-, en, e'⟩ := G.embryo k.cur _ t hmem rfl
          rw [e'] at hf
          cases en <;> simp [Entry.stack] at hf
  | @up q fs e hq =>
      obtain rfl := hq.eq C hf
      exact ⟨hq, .inl ⟨rfl, fs, e⟩⟩
  | idle hi => exact absurd hf (C.idle_not_downs hi .semaDownWait)
  | sleep hsl =>
      obtain ⟨_, gs, e'⟩ := hsl
      rw [e'] at hf hs
      have hfs := List.mem_of_ne_of_mem (by rintro ⟨⟩) hf
      obtain e' | ⟨_, e'⟩ := hs.above_wait hfs <;> cases e'
  | @interrupt n hq =>
      obtain rfl := hq.eq C hf
      exact ⟨hq, .inr ⟨n, rfl, rfl⟩⟩

/-- A thread that blocks does not go on at once, unless it is the idle thread. -/
theorem Switches.blocked_cur (h : Switches srt k k' .blocked) (hi : k.idleThread ≠ some k.cur) :
    (k'.thr k.cur).status = .blocked := by
  rw [h.status]
  obtain ⟨k₁, hl, hd⟩ := h
  have hne : k.cur ≠ k'.cur := by
    intro hc
    obtain ⟨hr, -⟩ | ⟨hi', -⟩ := hd.chosen
    · rw [← hc, hl.restatus.1] at hr
      cases hr
    · rw [show k₁.idleThread = k.idleThread from congrArg Sync.idleThread hl.sync, ← hc] at hi'
      exact hi hi'
  rw [if_neg hne, if_pos rfl]

/-- The running thread blocks in its `sema_down` at value zero. -/
theorem Effect.down_blocks {f : Frame} (h : Effect cfg srt k f k') (hd : f.Downs p)
    (h0 : k.semaValue p = 0) (hi : k.idleThread ≠ some k.cur) :
    (k'.thr k.cur).status = .blocked := by
  cases h with
  | same ha => cases hd <;> exact absurd h0 ha
  | priority hp => cases hd <;> cases hp
  | @switch _ gs st k₁ _ hp _ hs hsw =>
      obtain rfl : st = .blocked := by
        cases hp with
        | wait | threadBlock | idleLoop | timerSleepBody => rfl
        | threadYield | threadExit => cases hd
      rw [← hs.cur] at hi ⊢
      exact hsw.blocked_cur (hs.idleThread ▸ hi)
  | wake hu => cases hd <;> cases hu
  | _ => cases hd

/-- **A thread comes to be in flight** by a `sema_up` while it waits. -/
theorem Good.inFlight_of_step (G : Good cfg srt k) (C : Control k) (C' : Control k')
    (hT : Tame cfg srt k lab) (hn : k.cur < k.nextThread)
    (h : Pintos.step cfg fuel k lab = some k') (ht : InFlight k' p t) :
    InFlight k p t ∨ Waiting k p t ∧ lab.Ups k p := by
  obtain ⟨he, -⟩ := G.stepEffect C hT C'.inv.idleFree h
  obtain ⟨⟨q, home, L, P⟩, -⟩ := G.sched
  obtain ⟨hb, old, hf⟩ := ht
  by_cases hc : t = k.cur
  · subst hc
    refine .inl ⟨by rw [P.cur_running]; rintro ⟨⟩, old, ?_⟩
    obtain ⟨hs, -⟩ := step_syncStep hn h
    generalize hk : k'.sync = s' at hs
    have hst : k'.stack k.cur = s'.stack k.cur := hk ▸ rfl
    rw [hst] at hf
    cases hs with
    | @call c _ =>
        rw [Sync.setStack_stack, Function.update_self] at hf
        cases c <;> cases List.mem_singleton.mp hf
    | @run f fs gs s₁ e hm =>
        rw [Sync.setStack_stack, Function.update_self, (hm.stack_run C.inv.unborn e).1] at hf
        rcases List.mem_append.mp hf with hg | hfs
        · -- it has come to wait in this step, and so it is blocked
          obtain ⟨-, hd, h0⟩ := hm.wait_mem hg
          have hi : k.idleThread ≠ some k.cur := fun hi =>
            C.idle_not_downs hi hd (e ▸ .head fs)
          cases he with
          | run e' he' =>
              rw [e] at e'
              cases e'
              exact absurd (he'.down_blocks hd h0 hi) hb
        · rw [e]
          exact .tail f hfs
    | interrupt _ hi =>
        rw [Sync.setStack_stack, Function.update_self] at hf
        exact hi.waiting_mem.mp hf
  · obtain ⟨hs, -⟩ : Sync.Step (fun _ => True) k.cur k.sync k'.sync ∧ _ :=
      step_sync hn (fun _ _ => trivial) h
    rcases hs.stack_of_ne C.inv hc with e | ⟨-, q, en, n, r, fs, -, e⟩
    · have hf' : .semaDownWait p old ∈ k.stack t := (show k'.stack t = k.stack t from e) ▸ hf
      have htn : t < k.nextThread := C.inv.unborn.lt (List.ne_nil_of_mem hf')
      by_cases hb' : (k.thr t).status = .blocked
      · rcases he.blocked hb' hc htn with hb'' | hw
        · exact absurd hb'' hb
        · exact .inr (G.woken_up C hT hf' hw)
      · exact .inl ⟨hb', old, hf'⟩
    · rw [show k'.stack t = en.stack from e] at hf
      cases en <;> simp [Entry.stack] at hf

/-! ### No lost wakeup -/

/-- While somebody waits, every unit is matched by a thread in flight. -/
def Covered (k : Kernel) (p : SemaPtr) : Prop :=
  (∃ t, Waiting k p t) → k.semaValue p ≤ (inFlight k p).card

/-- A thread that waits after a step has waited before, or the value is zero. -/
theorem Good.waited (G : Good cfg srt k) (C : Control k) (C' : Control k')
    (hT : Tame cfg srt k lab) (hn : k.cur < k.nextThread)
    (h : Pintos.step cfg fuel k lab = some k') (hw : Waiting k' p t) :
    Waiting k p t ∨ k.semaValue p = 0 ∧ ¬ lab.Ups k p := by
  rcases G.waiting_step C C' hT hn h hw with hw | ⟨-, h0, f, fs, rfl, e, hd⟩
  · exact .inl hw
  · refine .inr ⟨h0, ?_⟩
    rintro (⟨-, fs', e'⟩ | ⟨n, -, ⟨⟩⟩)
    rw [e] at e'
    cases hd <;> cases e'

/-- The first waiter is in flight after an up. -/
theorem Good.front_inFlight (G : Good cfg srt k) (G' : Good cfg srt k') (C : Control k)
    (hT : Tame cfg srt k lab) (hn : k.cur < k.nextThread) (hp : k.Known p)
    (h : Pintos.step cfg fuel k lab = some k') (hu : lab.Ups k p) (hw : Waiting k p t) :
    ∃ x, Waiting k p x ∧ InFlight k' p x := by
  obtain ⟨xs, hx⟩ := G.waiters_isList hp
  obtain ⟨-, hmem⟩ := G.waiting_iff hx
  cases xs with
  | nil => exact absurd ((hmem t).mpr hw) List.not_mem_nil
  | cons x xs =>
      have hwx : Waiting k p x := (hmem x).mp (.head xs)
      obtain ⟨hb, -⟩ := G.ups G' C hT hn hu h hx
      have hst : k'.stack x = k.stack x :=
        C.stack_of_ne hn h (G.waiting_ne_cur hwx) (G.waiting_lt hwx)
      obtain ⟨old, fs, e⟩ := hwx.stack
      refine ⟨x, hwx, hb, old, ?_⟩
      rw [hst, e]
      exact .head fs

/-- **One step.** -/
theorem Covered.step (H : Covered k p) (G : Good cfg srt k) (G' : Good cfg srt k')
    (C : Control k) (C' : Control k') (hT : Tame cfg srt k lab) (hn : k.cur < k.nextThread)
    (hp : ∀ w, p ≠ .ofWaiter w) (h : Pintos.step cfg fuel k lab = some k') : Covered k' p := by
  rintro ⟨t, hw'⟩
  have hw := G.waited C C' hT hn h hw'
  have hstay : ∀ u, InFlight k p u → InFlight k' p u ∨ u = k.cur ∧ lab.Retests k p :=
    fun u => G.inFlight_step C C' hT hn h
  cases step_counts hn hp h with
  | same hv =>
      have hv : k'.semaValue p = k.semaValue p := hv
      rw [hv]
      by_cases h0 : k.semaValue p = 0
      · rw [h0]
        exact Nat.zero_le _
      · -- nobody tests the value, for it would have taken a unit
        have hsub : inFlight k p ⊆ inFlight k' p := by
          intro u hu
          rw [C.mem_inFlight] at hu
          rw [C'.mem_inFlight]
          rcases hstay u hu with hu' | ⟨rfl, rfl, old, fs, e⟩
          · exact hu'
          · have hd := retest_down e .semaDownWait h0 h
            omega
        rcases hw with hw | ⟨hz, -⟩
        · exact (H ⟨t, hw⟩).trans (Finset.card_le_card hsub)
        · exact absurd hz h0
  | down h0 hv =>
      have hv : k'.semaValue p = k.semaValue p - 1 := hv
      have hw : Waiting k p t := by
        rcases hw with hw | ⟨hz, -⟩
        · exact hw
        · exact absurd hz h0
      -- at most the running thread is no longer in flight
      have hsub : (inFlight k p).erase k.cur ⊆ inFlight k' p := by
        intro u hu
        obtain ⟨hne, hu⟩ := Finset.mem_erase.mp hu
        rw [C.mem_inFlight] at hu
        rw [C'.mem_inFlight]
        rcases hstay u hu with hu' | ⟨hc, -⟩
        · exact hu'
        · exact absurd hc hne
      calc k'.semaValue p = k.semaValue p - 1 := hv
        _ ≤ (inFlight k p).card - 1 := Nat.sub_le_sub_right (H ⟨t, hw⟩) 1
        _ ≤ ((inFlight k p).erase k.cur).card := Finset.pred_card_le_card_erase
        _ ≤ (inFlight k' p).card := Finset.card_le_card hsub
  | up hu hv =>
      have hv : k'.semaValue p = (k.semaValue p + 1) % 2 ^ 32 := hv
      have hw : Waiting k p t := by
        rcases hw with hw | ⟨-, hno⟩
        · exact hw
        · exact absurd hu hno
      obtain ⟨x, hwx, hx⟩ :=
        G.front_inFlight G' C hT hn (fun w e => absurd e (hp w)) h hu hw
      have hsub : insert x (inFlight k p) ⊆ inFlight k' p := by
        intro u hmem
        rw [C'.mem_inFlight]
        rcases Finset.mem_insert.mp hmem with rfl | hmem
        · exact hx
        · rcases hstay u (C.mem_inFlight.mp hmem) with hu' | ⟨-, rfl, old, fs, e⟩
          · exact hu'
          · -- this step is an up
            rcases hu with ⟨-, fs', e'⟩ | ⟨n, -, ⟨⟩⟩
            rw [e] at e'
            cases e'
      have hnew : x ∉ inFlight k p := fun hmem => (C.mem_inFlight.mp hmem).1 hwx.1
      calc k'.semaValue p = (k.semaValue p + 1) % 2 ^ 32 := hv
        _ ≤ k.semaValue p + 1 := Nat.mod_le _ _
        _ ≤ (inFlight k p).card + 1 := Nat.succ_le_succ (H ⟨t, hw⟩)
        _ = (insert x (inFlight k p)).card := (Finset.card_insert_of_notMem hnew).symm
        _ ≤ (inFlight k' p).card := Finset.card_le_card hsub

theorem Reachable.covered (hT : ∀ k lab, Reachable cfg ok k → ok k lab → Tame cfg srt k lab)
    (hp : ∀ w, p ≠ .ofWaiter w) (h : Reachable cfg ok k) : Covered k p := by
  induction h with
  | refl =>
      -- nobody waits in the first state
      rintro ⟨t, hw⟩
      obtain ⟨old, fs, e⟩ := hw.stack
      obtain rfl | ht := eq_or_ne t 0 <;> simp [boot, *] at e
  | tail hr hn ih =>
      obtain ⟨lab, fuel, hok, h⟩ := hn
      have hr' : Reachable cfg ok _ := .tail hr ⟨lab, fuel, hok, h⟩
      exact ih.step (Reachable.good hT hr) (Reachable.good hT hr') (Reachable.control hr)
        hr'.control (hT _ _ hr hok) (Reachable.anySync hr).2 hp h

/-! ### Semaphores -/

/-- **The account of a semaphore** of the threads' own code. -/
structure Conserved (cfg : Config) (k : Kernel) (n : ℕ) : Prop where
  /-- The value is the initial one, plus the ups, less the completed downs. -/
  value : ups k.log (.user n) < 2 ^ 32 - cfg.semaInit n →
    k.semaValue (.user n) + downs k.log (.user n) = cfg.semaInit n + ups k.log (.user n)
  /-- A down never finds the value zero when it decrements. -/
  decrement : ∀ lab fuel k', step cfg fuel k lab = some k' →
    downs k'.log (.user n) ≠ downs k.log (.user n) →
      k.semaValue (.user n) ≠ 0 ∧ k'.semaValue (.user n) = k.semaValue (.user n) - 1

/-- **No wakeup is lost.**  A thread in flight is one that a `sema_up` has unblocked and that has
not tested the value again: it comes to be one, and ceases to, in no other way. -/
structure NoLostWakeup (cfg : Config) (ok : Kernel → Label → Prop) (k : Kernel) (n : ℕ) : Prop where
  unblocked : ∀ lab fuel k' t, ok k lab → step cfg fuel k lab = some k' →
    InFlight k' (.user n) t →
      InFlight k (.user n) t ∨ Waiting k (.user n) t ∧ lab.Ups k (.user n)
  tests : ∀ lab fuel k' t, ok k lab → step cfg fuel k lab = some k' → InFlight k (.user n) t →
    InFlight k' (.user n) t ∨ t = k.cur ∧ lab.Retests k (.user n)
  /-- The units that are there while threads wait do not outnumber those in flight. -/
  covered : k.elems.listEmpty (.semaWaiters (.user n)) = false →
    k.semaValue (.user n) ≤ (inFlight k (.user n)).card
  /-- Nobody sleeps beside a unit that no woken thread is going to look at. -/
  onTheWay : k.elems.listEmpty (.semaWaiters (.user n)) = false → 0 < k.semaValue (.user n) →
    ∃ t, InFlight k (.user n) t

/-- The threads in a list of waiters wait. -/
theorem Good.exists_waiting (G : Good cfg srt k) (hp : k.Known p)
    (he : k.elems.listEmpty (.semaWaiters p) = false) : ∃ t, Waiting k p t := by
  obtain ⟨xs, hx⟩ := G.waiters_isList hp
  obtain ⟨-, hmem⟩ := G.waiting_iff hx
  cases xs with
  | nil =>
      rw [hx.listEmpty.mpr rfl] at he
      cases he
  | cons x xs => exact ⟨x, (hmem x).mp (.head xs)⟩

/-- **Semaphore conservation and no lost wakeup**: the account is right in every run, and no wakeup
is lost in those whose steps leave the kernel's lists lists. -/
theorem sema_conservation (hr : Reachable cfg ok k) (n : ℕ) :
    Conserved cfg k n ∧
      ((∀ k lab, Reachable cfg ok k → ok k lab → Tame cfg False k lab) →
        NoLostWakeup cfg ok k n) := by
  have hn : k.cur < k.nextThread := hr.anySync.2
  have C : Control k := hr.control
  refine ⟨⟨hr.semaValue, fun lab fuel k' h hd => step_down hn h hd⟩, fun hT => ?_⟩
  have G : Good cfg False k := hr.good hT
  have hC' : ∀ {lab fuel k'}, ok k lab → step cfg fuel k lab = some k' → Control k' :=
    fun hok h => Reachable.control (.tail hr ⟨_, _, hok, h⟩)
  have hcovered : k.elems.listEmpty (.semaWaiters (.user n)) = false →
      k.semaValue (.user n) ≤ (inFlight k (.user n)).card := by
    intro he
    exact hr.covered hT (by rintro _ ⟨⟩) (G.exists_waiting (by rintro _ ⟨⟩) he)
  exact
    { unblocked := fun lab fuel k' t hok h =>
        G.inFlight_of_step C (hC' hok h) (hT k lab hr hok) hn h
      tests := fun lab fuel k' t hok h => G.inFlight_step C (hC' hok h) (hT k lab hr hok) hn h
      covered := hcovered
      onTheWay := by
        intro he h0
        obtain ⟨t, ht⟩ := Finset.card_pos.mp (h0.trans_le (hcovered he))
        exact ⟨t, C.mem_inFlight.mp ht⟩ }

/-- Threads 2 and 3 have waited, and the initial thread is in a `sema_up` that has woken thread 3:
the value is 1, and thread 2 waits. -/
theorem sema_conservation_woken : ∃ k, Reachable priorityConfig (fun k lab => lab.peaceful k) k ∧
    Waiting k (.user 0) 2 ∧ k.semaValue (.user 0) = 1 ∧ inFlight k (.user 0) = {3} ∧
      Conserved priorityConfig k 0 ∧
        NoLostWakeup priorityConfig (fun k lab => lab.peaceful k) k 0 := by
  obtain ⟨k, hr, hk⟩ := exists_reachable priorityConfig 70 (fun k lab => lab.peaceful k)
    (List.replicate 19 Label.run ++ [Label.call (.threadCreate 33)] ++
      List.replicate 10 Label.run ++
      [Label.call (.semaDown 0), .run, .run, .call (.threadCreate 35)] ++
      List.replicate 10 Label.run ++
      [Label.call (.semaDown 0), .run, .run, .call (.semaUp 0), .run])
    (fun k => Waiting k (.user 0) 2 ∧ k.semaValue (.user 0) = 1 ∧ inFlight k (.user 0) = {3})
    (by decide +kernel)
  obtain ⟨hw, hv, hf⟩ := of_decide_eq_true hk
  obtain ⟨hc, hl⟩ := sema_conservation hr 0
  exact ⟨k, hr, hw, hv, hf, hc, hl fun _ _ _ h => Label.peaceful.tame h⟩

end Pintos
