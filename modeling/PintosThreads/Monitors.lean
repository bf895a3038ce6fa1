/-
PintosThreads/Monitors.lean

Who comes back from `lock_acquire` or `cond_wait` has the lock.

A call of either goes through two phases (`Obtaining`).  As long as it has not
taken the lock, a frame that leads there is on the stack, and those that wait
below it give up no lock.  Then the caller is the holder, and what is left of
the call, the preemption check at the end of `cond_wait`, gives up no lock
either.

The check may switch to other threads, and a waiter of the condition may have
slept in between.  Neither they nor the interrupts take the lock away, since
only its holder gives it up (`Control.holder_step`) and nobody takes a lock that
has a holder (`LockInv.holder_none`).
-/
import PintosThreads.InterruptLevel
import PintosThreads.LocksHeld
import PintosThreads.SemaCounts

namespace Pintos

variable {cfg : Config} {fuel : ℕ} {ok : Kernel → Label → Prop} {k k₁ k' : Kernel} {lab : Label}
variable {s s' : Sync} {t : ThreadPtr} {l : LockPtr} {f : Frame} {gs hs fs fs' : List Frame}

/-! ### The phases of a call -/

/-- The frames that lead to lock `l` being taken. -/
inductive Frame.Obtains (l : LockPtr) : Frame → Prop
  | condWait {c} : Obtains l (.condWait c l)
  | acquires {f : Frame} : f.Acquires l → Obtains l f

/-- The frames that give up no lock and call nothing that does. -/
inductive Frame.Retains : Frame → Prop
  | preempts {f : Frame} : f.Preempts → Retains f
  | intrSetLevel {old} : Retains (.intrSetLevel old)
  | condWaitReturn {c w} : Retains (.condWaitReturn c w)

/-- A call of thread `t` that is to obtain lock `l`, with its frames. -/
inductive Obtaining (l : LockPtr) (t : ThreadPtr) (s : Sync) : List Frame → Prop
  | before {pre post : List Frame} {g : Frame} : g.Obtains l → (∀ f ∈ post, f.Retains) →
      Obtaining l t s (pre ++ g :: post)
  | after {gs : List Frame} : s.holder l = some t → (∀ f ∈ gs, f.Retains) → Obtaining l t s gs

theorem Obtaining.mono (H : Obtaining l t s gs) (h : s.holder l = some t → s'.holder l = some t) :
    Obtaining l t s' gs := by
  cases H with
  | before hobt hpost => exact .before hobt hpost
  | after ht hgs => exact .after (h ht) hgs

/-! ### Frames and interrupts -/

theorem Frame.Retains.move (hf : f.Retains) (h : Move t s f hs s') :
    s'.holder = s.holder ∧ ∀ g ∈ hs, g.Retains := by
  cases hf with
  | preempts hp =>
      cases h with
      | quiet h =>
          refine ⟨rfl, ?_⟩
          cases h with
          | preempt _ hg => exact List.forall_mem_singleton.mpr (.preempts hg)
          | preemptEnd => exact List.forall_mem_nil _
          | threadYield => exact List.forall_mem_singleton.mpr .intrSetLevel
          | _ => cases hp
      | down hd | wait hd => cases hd <;> cases hp
      | take ht => cases ht <;> cases hp
      | _ => cases hp
  | intrSetLevel =>
      cases h with
      | quiet h =>
          cases h with
          | preempt hc | preemptEnd hc => cases hc.1
          | intrSetLevel => exact ⟨rfl, List.forall_mem_nil _⟩
      | down hd | wait hd => cases hd
      | take ht => cases ht
  | condWaitReturn =>
      cases h with
      | quiet h =>
          cases h with
          | preempt hc | preemptEnd hc => cases hc.1
          | condWaitReturn => exact ⟨rfl, List.forall_mem_nil _⟩
      | down hd | wait hd => cases hd
      | take ht => cases ht

/-- A frame that leads to the lock leaves one that does, or takes it. -/
theorem Frame.Obtains.move (hf : f.Obtains l) (h : Move t s f hs s')
    (hg : ∀ g ∈ gs, g.Retains) : Obtaining l t s' (hs ++ gs) := by
  cases hf with
  | @condWait c =>
      cases h with
      | quiet h => cases h with | preempt hc | preemptEnd hc => cases hc.1
      | down hd | wait hd => cases hd
      | take ht => cases ht
      | condWait =>
          -- it leads to its own call of `lock_acquire`
          show Obtaining l t _ ([.lockRelease l, .semaDown (.ofWaiter s.nextWaiter)] ++
            .lockAcquire l :: .checkPreemption :: .condWaitReturn c s.nextWaiter :: gs)
          refine .before (.acquires .lockAcquire) ?_
          exact List.forall_mem_cons.mpr ⟨.preempts .checkPreemption,
            List.forall_mem_cons.mpr ⟨.condWaitReturn, hg⟩⟩
  | acquires ha =>
      cases h with
      | quiet h =>
          cases h with
          | preempt hc | preemptEnd hc => cases ha <;> cases hc.1
          | _ => cases ha
      | down hd | wait hd => cases hd <;> cases ha
      | lockAcquire =>
          cases ha
          show Obtaining l t _ ([] ++ .lockAcquireBody l :: gs)
          exact .before (.acquires .lockAcquireBody) hg
      | @lockAcquireFree _ old =>
          cases ha
          show Obtaining l t _ ([.semaDown (.ofLock l)] ++ .lockAcquireFree l old :: gs)
          exact .before (.acquires .lockAcquireFree) hg
      | lockAcquireHeld =>
          cases ha
          show Obtaining l t _ ([.semaDown (.ofLock l)] ++ .lockAcquireHeld l :: gs)
          exact .before (.acquires .lockAcquireHeld) hg
      | take ht =>
          obtain ⟨⟩ | ⟨⟩ | ⟨⟩ := ht <;> cases ha <;> exact .after (Function.update_self ..) hg
      | _ => cases ha

/-- **One frame** of the call. -/
theorem Obtaining.move {s₀ : Sync} (H : Obtaining l t s₀ (f :: gs)) (h : Move t s f hs s')
    (hh : s.holder = s₀.holder) : Obtaining l t s' (hs ++ gs) := by
  generalize he : f :: gs = fs at H
  cases H with
  | @before pre post g hg hpost =>
      cases pre with
      | nil =>
          obtain ⟨rfl, rfl⟩ := List.cons.inj he
          exact hg.move h hpost
      | cons f' pre =>
          obtain ⟨rfl, rfl⟩ := List.cons.inj he
          show Obtaining l t s' (hs ++ (pre ++ g :: post))
          rw [← List.append_assoc]
          exact .before hg hpost
  | after ht hgs =>
      subst he
      obtain ⟨hf, hgs⟩ := List.forall_mem_cons.mp hgs
      obtain ⟨hh', hs'⟩ := hf.move h
      refine .after ?_ (List.forall_mem_append.mpr ⟨hs', hgs⟩)
      rw [hh', hh, ht]

/-- An interrupt of the caller. -/
theorem Obtaining.interrupted (H : Obtaining l t s gs) (hg : gs ≠ [])
    (h : Interrupted (gs ++ fs) fs') : ∃ gs', fs' = gs' ++ fs ∧ Obtaining l t s gs' := by
  have hlevel : ∀ {gs : List Frame}, Obtaining l t s gs →
      Obtaining l t s (.intrSetLevel true :: gs) := by
    intro gs H
    cases H with
    | @before pre post g hg hpost =>
        show Obtaining l t s ((.intrSetLevel true :: pre) ++ g :: post)
        exact .before hg hpost
    | after ht hgs => exact .after ht (List.forall_mem_cons.mpr ⟨.intrSetLevel, hgs⟩)
  -- the idle thread's halt is not what leads to the lock
  have hhalt : ∀ {gs : List Frame}, Obtaining l t s (.idleHalt :: gs) →
      Obtaining l t s (.idleLoop :: gs) := by
    intro gs H
    generalize he : Frame.idleHalt :: gs = hs at H
    cases H with
    | @before pre post g hg hpost =>
        cases pre with
        | nil =>
            obtain ⟨rfl, -⟩ := List.cons.inj he
            cases hg with | acquires ha => cases ha
        | cons f pre =>
            obtain ⟨-, rfl⟩ := List.cons.inj he
            show Obtaining l t s ((.idleLoop :: pre) ++ g :: post)
            exact .before hg hpost
    | after ht hgs =>
        subst he
        obtain ⟨hf, -⟩ := List.forall_mem_cons.mp hgs
        cases hf with | preempts hp => cases hp
  obtain ⟨g, gs, rfl⟩ := List.exists_cons_of_ne_nil hg
  generalize he : g :: gs ++ fs = ks at h
  cases h with
  | halt =>
      obtain ⟨rfl, rfl⟩ := List.cons.inj he
      exact ⟨.idleLoop :: gs, rfl, hhalt H⟩
  | haltYield =>
      obtain ⟨rfl, rfl⟩ := List.cons.inj he
      exact ⟨.intrSetLevel true :: .idleLoop :: gs, rfl, hlevel (hhalt H)⟩
  | none => exact ⟨g :: gs, he.symm, H⟩
  | yield => exact ⟨.intrSetLevel true :: g :: gs, congrArg _ he.symm, hlevel H⟩

/-! ### Steps and runs -/

/-- **One step**, of the caller, of another thread, or of an interrupt handler. -/
theorem Obtaining.step (H : Obtaining l t k.sync gs) (hst : k.stack t = gs ++ fs) (hg : gs ≠ [])
    (hr : Reachable cfg ok k) (h : Pintos.step cfg fuel k lab = some k') :
    ∃ gs', k'.stack t = gs' ++ fs ∧ Obtaining l t k'.sync gs' := by
  have C := hr.control
  have hc : k.cur < k.nextThread := hr.anySync.2
  obtain rfl | ht := eq_or_ne t k.cur
  · obtain ⟨hs, -⟩ : Sync.Step (fun _ => True) k.cur k.sync k'.sync ∧ _ :=
      step_sync hc (fun _ _ => trivial) h
    show ∃ gs', k'.sync.stack k.cur = gs' ++ fs ∧ _
    have hst : k.sync.stack k.cur = gs ++ fs := hst
    generalize k'.sync = s' at hs
    cases hs with
    | call _ e =>
        rw [hst, List.append_eq_nil_iff] at e
        exact absurd e.1 hg
    | @run f rest hs s₁ e hm =>
        obtain ⟨hrest, -⟩ := hm.stack_run C.inv.unborn e
        obtain ⟨g, gs, rfl⟩ := List.exists_cons_of_ne_nil hg
        obtain ⟨rfl, rfl⟩ := List.cons.inj (hst.symm.trans e)
        refine ⟨hs ++ gs, ?_, ?_⟩
        · rw [hrest, List.append_assoc]
          exact Function.update_self ..
        · exact (H.move hm rfl).mono fun hh => hh
    | @interrupt fs' s₁ hi hh =>
        rw [hst] at hi
        have hholder : s₁.holder = k.sync.holder := by cases hh <;> rfl
        obtain ⟨gs', rfl, H'⟩ := H.interrupted hg hi
        exact ⟨gs', Function.update_self .., H'.mono fun hh => (congrFun hholder l).trans hh⟩
  · have hlt : t < k.nextThread := by
      refine C.inv.unborn.lt fun e => ?_
      rw [Kernel.sync_stack, hst, List.append_eq_nil_iff] at e
      exact hg e.1
    exact ⟨gs, (C.stack_of_ne hc h ht hlt).trans hst, H.mono fun hh => C.holder_step hc h ht hh⟩

/-- **A run up to the return of the call.** -/
theorem Obtaining.run (H : Obtaining l t k.sync gs) (hst : k.stack t = gs ++ fs)
    (hr : Reachable cfg ok k) (h : Relation.ReflTransGen (InCall cfg ok t fs) k k') :
    Reachable cfg ok k' ∧ ∃ gs', k'.stack t = gs' ++ fs ∧ Obtaining l t k'.sync gs' := by
  induction h with
  | refl => exact ⟨hr, gs, hst, H⟩
  | tail _ hstep ih =>
      obtain ⟨hne, hn⟩ := hstep
      obtain ⟨hr, gs, hst, H⟩ := ih
      refine ⟨hr.tail hn, ?_⟩
      obtain ⟨lab, fuel, -, hstep⟩ := hn
      refine H.step hst (fun e => hne ?_) hr hstep
      rw [hst, e, List.nil_append]

/-- **Monitors**: whatever other threads and interrupts do in between, a thread that comes back from
`lock_acquire` or `cond_wait` holds the lock, and nobody else is between its down and its up. -/
theorem returns_with_lock {c : CondPtr} (hr : Reachable cfg ok k)
    (hf : f = .lockAcquire l ∨ f = .condWait c l) (hst : k.stack t = f :: fs)
    (h : Relation.ReflTransGen (InCall cfg ok t fs) k k') (hret : k'.stack t = fs) :
    k'.lockHolder l = some t ∧ Inside k' l t ∧ ∀ u, Inside k' l u → u = t := by
  have hobt : f.Obtains l := by
    rcases hf with rfl | rfl
    · exact .acquires .lockAcquire
    · exact .condWait
  have H : Obtaining l t k.sync ([] ++ [f]) := .before hobt (List.forall_mem_nil _)
  obtain ⟨hr', gs', hst', H'⟩ := H.run hst hr h
  rw [hret, List.self_eq_append_left] at hst'
  subst hst'
  have hold : k'.sync.holder l = some t := by
    generalize he : ([] : List Frame) = gs at H'
    cases H' with
    | before => exact absurd he.symm (List.append_ne_nil_of_right_ne_nil _ (List.cons_ne_nil _ _))
    | after hh => exact hh
  have L := hr'.control.lock l
  have hpos : 0 < k'.sync.share l t := LockInv.holder_pos hr'.control.inv hold
  refine ⟨hold, (inside_iff L).mpr hpos, fun u hu => ?_⟩
  exact L.one.unique ((inside_iff L).mp hu) hpos

/-- The initial thread waits for a condition, which thread 2 signals under the lock. -/
theorem returns_with_lock_signalled : ∃ k k', k.stack 0 = [.condWait 0 (.user 0)] ∧
    Relation.ReflTransGen (InCall priorityConfig (fun _ _ => True) 0 []) k k' ∧
      k'.stack 0 = [] ∧ k'.lockHolder (.user 0) = some 0 ∧ Inside k' (.user 0) 0 := by
  obtain ⟨k, hr, hp⟩ := exists_reachable priorityConfig 40 (fun _ _ => True)
    (List.replicate 19 Label.run ++ [.call (.lockAcquire 0)] ++ List.replicate 4 .run ++
      [.call (.threadCreate 31)] ++ List.replicate 8 .run ++ [.call (.condWait 0 0)])
    (fun k => k.stack 0 = [.condWait 0 (.user 0)] &&
      (execute priorityConfig 40 (fun k _ => k.stack 0 ≠ []) k
        (List.replicate 12 Label.run ++ [.call (.lockAcquire 0)] ++ List.replicate 4 .run ++
          [.call (.condSignal 0 0)] ++ List.replicate 9 .run ++ [.call (.lockRelease 0)] ++
          List.replicate 9 .run ++ [.call .threadYield] ++ List.replicate 11 .run)).any fun k' =>
        k'.stack 0 = []) (by decide +kernel)
  simp only [Bool.and_eq_true, decide_eq_true_eq] at hp
  obtain ⟨hs, hp⟩ := hp
  obtain ⟨k', hk', hp'⟩ := (Option.any_eq_true _ _).mp hp
  have hret : k'.stack 0 = [] := of_decide_eq_true hp'
  have hrun : Relation.ReflTransGen (InCall priorityConfig (fun _ _ => True) 0 []) k k' := by
    refine Relation.ReflTransGen.mono ?_ _ _ (execute_steps hk')
    intro _ _ hn
    obtain ⟨lab, fuel, hne, hn⟩ := hn
    exact ⟨hne, lab, fuel, trivial, hn⟩
  obtain ⟨hold, hin, -⟩ := returns_with_lock hr (.inr rfl) hs hrun hret
  exact ⟨k, k', hs, hrun, hret, hold, hin⟩

end Pintos
