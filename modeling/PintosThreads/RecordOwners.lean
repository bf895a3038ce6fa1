/-
PintosThreads/RecordOwners.lean

Who waits on the record of a condition variable, and who changes a queue.

A record is made by `cond_wait` and is a local variable of it, so that one
thread alone ever calls `sema_down` on its semaphore (`Sync.Owned`).  The queue
of a condition variable is changed by the holder of its lock alone
(`CondInv.queue_cases`).
-/
import PintosThreads.CondWakeups

namespace Pintos

variable {okCall : Call → Prop} {lockOf : CondPtr → LockPtr} {t : ThreadPtr} {s s' : Sync}

/-! ### Owners -/

/-- One thread alone is in a `sema_down` on the semaphore of a record. -/
def Sync.Owned (s : Sync) : Prop :=
  ∀ w, ∃ o, ∀ u, ∀ f ∈ s.stack u, f.Downs (.ofWaiter w) → u = o

theorem Frame.Downs.records {f : Frame} {w : WaiterPtr} (h : f.Downs (.ofWaiter w)) :
    w ∈ f.records := by
  cases h <;> exact .head _

theorem Frame.Preempts.not_downs {f : Frame} {p : SemaPtr} (h : f.Preempts) : ¬ f.Downs p := by
  intro hd
  cases hd <;> cases h

/-- A `sema_down` on a record goes on, or begins in the `cond_wait` that makes the record. -/
theorem Move.downs_mem {f g : Frame} {gs : List Frame} {w : WaiterPtr} (h : Move t s f gs s')
    (hg : g ∈ gs) (hd : g.Downs (.ofWaiter w)) : f.Downs (.ofWaiter w) ∨ w = s.nextWaiter := by
  cases h with
  | quiet h =>
      have hr := h.records hg
      rw [List.eq_nil_iff_forall_not_mem] at hr
      exact absurd hd.records (hr w)
  | wait hf =>
      obtain rfl := List.mem_singleton.mp hg
      cases hd
      exact .inl hf
  | up hp =>
      obtain rfl := List.mem_singleton.mp hg
      exact absurd hd hp.not_downs
  | condWait =>
      have hr := hd.records
      simp only [List.mem_cons, List.not_mem_nil, or_false] at hg
      obtain rfl | rfl | rfl | rfl | rfl := hg
      · cases hd
      · exact .inr (List.mem_singleton.mp hr)
      all_goals cases hd
  | down | tryDown | tryDownFail | take | lockTryAcquireFail | condSignalNone | condBroadcastEnd =>
      cases hg
  | lockAcquireFree | lockAcquireHeld | lockReleaseBody | condBroadcast | create | idle =>
      simp only [List.mem_cons, List.not_mem_nil, or_false] at hg
      obtain rfl | rfl := hg <;> cases hd
  | _ =>
      obtain rfl := List.mem_singleton.mp hg
      cases hd

theorem Sync.Owned.step (H : s.Owned) (I : s.Inv) (h : Sync.Step okCall t s s') : s'.Owned := by
  intro w
  obtain ⟨o, ho⟩ := H w
  have hne : ∀ u, ∀ f ∈ s.stack u, f.Downs (.ofWaiter w) → w ≠ s.nextWaiter := fun u f hf hd =>
    ((I.frameOk u f hf).record_lt w hd.records).ne
  refine ⟨if w = s.nextWaiter then t else o, ?_⟩
  refine h.frames I.unborn ho ?_ ?_ ?_ ?_ ?_ ?_
  · intro u f hf _ hQ hd
    rw [if_neg (hne u f hf hd)]
    exact hQ hd
  · intro c _ _ _ hd
    have hr := hd.records
    rw [c.records] at hr
    cases hr
  · intro f fs gs s₁ hf hm _ hQ g hg hd
    have hmem : f ∈ s.stack t := by
      rw [hf]
      exact .head _
    obtain hd | rfl := hm.downs_mem hg hd
    · rw [if_neg (hne t f hmem hd)]
      exact hQ hd
    · rw [if_pos]
      rfl
  · intro p e n r _ f hf hd
    cases e <;> simp only [Entry.stack, List.mem_cons, List.not_mem_nil, or_false] at hf
    · obtain rfl := hf
      cases hd
    · obtain rfl | rfl := hf <;> cases hd
  · intro hd
    cases hd
  · intro _ hd
    cases hd

theorem boot_owned (cfg : Config) : (boot cfg).sync.Owned := by
  refine fun w => ⟨0, fun u f hf _ => ?_⟩
  by_contra hu
  have hs : (boot cfg).sync.stack u = [] := (boot_inv cfg).unborn u (Nat.one_le_iff_ne_zero.mpr hu)
  rw [hs] at hf
  cases hf

theorem Sync.Reachable.owned {cfg : Config} (h : Sync.Reachable cfg okCall s) : s.Owned := by
  induction h with
  | refl => exact boot_owned cfg
  | tail hr hn ih =>
      obtain ⟨t, hn⟩ := hn
      exact ih.step (Sync.Reachable.inv hr) hn

/-! ### Queues -/

/-- The frames that change the queue of a condition variable. -/
inductive Frame.Queues : Frame → Prop
  | condWait {c l} : Queues (.condWait c l)
  | condSignalRemove {c m} : Queues (.condSignalRemove c m)

/-- **Only the holder of its lock** changes the queue of a condition variable. -/
theorem CondInv.queue_cases (C : CondInv lockOf s) (h : Sync.Step okCall t s s') (c : CondPtr) :
    s'.waiters c = s.waiters c ∨
      s.holder (lockOf c) = some t ∧ ∃ f fs, s.stack t = f :: fs ∧ f.Queues := by
  cases h with
  | call => exact .inl rfl
  | interrupt _ hh => cases hh <;> exact .inl rfl
  | @run f fs gs s₁ e hm =>
      have hf : f ∈ s.stack t := by
        rw [e]
        exact .head _
      cases hm with
      | @condWait c' l hl =>
          obtain rfl | hc := eq_or_ne c c'
          · have hd : l = lockOf c := C.disciplined t _ hf
            exact .inr ⟨hd ▸ hl, _, fs, e, .condWait⟩
          · exact .inl (Function.update_of_ne hc ..)
      | @condSignalRemove c' m =>
          obtain rfl | hc := eq_or_ne c c'
          · exact .inr ⟨(C.found t _ hf c [m] .condSignalRemove).1, _, fs, e, .condSignalRemove⟩
          · exact .inl (Function.update_of_ne hc ..)
      | _ => exact .inl rfl

end Pintos
