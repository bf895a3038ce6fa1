/-
PintosThreads/CondWakeups.lean

Condition variables, for every interleaving in which each condition variable
is used with one lock.

A record of `cond_wait` is queued, then removed by a `cond_signal` that is
about to raise its semaphore, then raised.  The semaphore is 0 until it is
raised, is raised once, and the `sema_down` of the record's owner passes only
after that.  The signaller holds the lock from the moment it looks at the
queue, so nobody else changes the queue under it.
-/
import PintosThreads.LockExclusion

namespace Pintos

variable {okCall : Call → Prop} {lockOf : CondPtr → LockPtr} {t : ThreadPtr} {s s' : Sync}

/-! ### Counting ups and downs -/

namespace Event

def isUp (p : SemaPtr) : Event → Bool
  | up _ q => q = p
  | _ => false

def isDown (p : SemaPtr) : Event → Bool
  | down _ q => q = p
  | _ => false

end Event

/-- The number of completed ups of a semaphore. -/
def ups (log : List Event) (p : SemaPtr) : ℕ :=
  log.countP (Event.isUp p)

/-- The number of completed downs of a semaphore. -/
def downs (log : List Event) (p : SemaPtr) : ℕ :=
  log.countP (Event.isDown p)

@[simp]
theorem ups_up (log : List Event) (a : Option ThreadPtr) (p q : SemaPtr) :
    ups (.up a q :: log) p = ups log p + if q = p then 1 else 0 := by
  simp [ups, List.countP_cons, Event.isUp]

@[simp]
theorem ups_down (log : List Event) (a : Option ThreadPtr) (p q : SemaPtr) :
    ups (.down a q :: log) p = ups log p := by
  simp [ups, Event.isUp]

@[simp]
theorem downs_up (log : List Event) (a : Option ThreadPtr) (p q : SemaPtr) :
    downs (.up a q :: log) p = downs log p := by
  simp [downs, Event.isDown]

@[simp]
theorem downs_down (log : List Event) (a : Option ThreadPtr) (p q : SemaPtr) :
    downs (.down a q :: log) p = downs log p + if q = p then 1 else 0 := by
  simp [downs, List.countP_cons, Event.isDown]

/-! ### The invariant -/

/-- Calls that use each condition variable with its own lock. -/
def Call.Disciplined (lockOf : CondPtr → LockPtr) : Call → Prop
  | .condWait c n | .condSignal c n | .condBroadcast c n => .user n = lockOf c
  | _ => True

namespace Frame

/-- Frames that use each condition variable with its own lock. -/
def Disciplined (lockOf : CondPtr → LockPtr) : Frame → Prop
  | condWait c l | condSignal c l | condBroadcast c l => l = lockOf c
  | _ => True

/-- The frames of `cond_signal` in which the queue has been looked at, or is
about to be, with the records that were found in it. -/
inductive Found (c : CondPtr) : Frame → List WaiterPtr → Prop
  | condSignalFirst : Found c (condSignalFirst c) []
  | condSignalMax {m es} : Found c (condSignalMax c m es) (m :: es)
  | condSignalRemove {m} : Found c (condSignalRemove c m) [m]

theorem Found.not_awaits {c : CondPtr} {f : Frame} {ws : List WaiterPtr} (h : f.Found c ws)
    (π : Callee) : ¬ Awaits (some f) π := by
  cases h <;> exact nofun

end Frame

/-- **The records of condition variables.** -/
structure CondInv (lockOf : CondPtr → LockPtr) (s : Sync) : Prop where
  disciplined : ∀ u, ∀ f ∈ s.stack u, f.Disciplined lockOf
  found : ∀ u, ∀ f ∈ s.stack u, ∀ c ws, f.Found c ws →
    s.holder (lockOf c) = some u ∧ ∀ w ∈ ws, w ∈ s.waiters c
  nodup : ∀ c, (s.waiters c).Nodup
  disjoint : ∀ c c' w, w ∈ s.waiters c → w ∈ s.waiters c' → c = c'
  fresh : ∀ w, s.nextWaiter ≤ w → ups s.events (.ofWaiter w) = 0
  queued : ∀ c, ∀ w ∈ s.waiters c, ups s.events (.ofWaiter w) = 0 ∧
    ∀ u, .semaUp (.ofWaiter w) ∉ s.stack u
  raising : ∀ u w, .semaUp (.ofWaiter w) ∈ s.stack u → ups s.events (.ofWaiter w) = 0 ∧
    ∀ v, .semaUp (.ofWaiter w) ∈ s.stack v → v = u
  account : ∀ w, s.value (.ofWaiter w) + downs s.events (.ofWaiter w) =
    ups s.events (.ofWaiter w) ∧ ups s.events (.ofWaiter w) ≤ 1
  waiting : ∀ u c w, .condWaitReturn c w ∈ s.stack u →
    (∃ f ∈ s.stack u, f.Downs (.ofWaiter w)) ∨ 0 < downs s.events (.ofWaiter w)

/-! ### Frames that wait for nothing -/

/-- While a frame that waits for nothing is on its stack, a thread changes
nothing. -/
theorem Stacked.move_of_mem {f x : Frame} {fs gs : List Frame} (hs : Stacked (f :: fs))
    (hx : x ∈ fs) (hl : ∀ π, ¬ Awaits (some x) π) (h : Move t s f gs s') :
    s' = s ∧ ∀ g ∈ gs, ∃ old, g = .intrSetLevel old := by
  obtain rfl | ⟨old, rfl⟩ := hs.yields_of_mem hx hl
  · cases h with
    | quiet h =>
        cases h with
        | preempt hc | preemptEnd hc => exact absurd rfl hc.2
        | threadYield => exact ⟨rfl, fun g hg => ⟨_, List.mem_singleton.mp hg⟩⟩
    | down hd | wait hd => cases hd
    | take ht => cases ht
  · obtain ⟨rfl, rfl⟩ := h.of_level
    exact ⟨rfl, by simp⟩

/-- The holder of a lock changes only when the holder gives the lock up. -/
theorem LockInv.holder_stable {l : LockPtr} {u : ThreadPtr} (L : LockInv l s) (I : s.Inv)
    (h : Sync.Step okCall t s s') (hu : s.holder l = some u) :
    s'.holder l = some u ∨ (u = t ∧ ∃ fs, s.stack t = .lockReleaseBody l :: fs) := by
  cases h with
  | call => exact .inl hu
  | interrupt _ hh => cases hh <;> exact .inl hu
  | @run f fs gs s₁ e hm =>
      cases hm.lockMove (I.not_tryDown e) with
      | keep _ _ hk | down _ _ _ hk | up _ _ _ hk => exact .inl (hk.trans hu)
      | take hf => simp [L.holder_none I e hf] at hu
      | drop hf =>
          subst hf
          have ht := L.body t (by simp [e])
          exact .inr ⟨Option.some.inj (hu.symm.trans ht), fs, e⟩

/-! ### What a step does to the records -/

/-- What a step of thread `t` does to the queues and the semaphores of the
records. -/
inductive CondStep (t : ThreadPtr) (s s' : Sync) : Prop
  | quiet : s'.waiters = s.waiters → s'.nextWaiter = s.nextWaiter →
      (∀ w, ups s'.events (.ofWaiter w) = ups s.events (.ofWaiter w)) →
      (∀ w, s'.value (.ofWaiter w) + downs s'.events (.ofWaiter w) =
        s.value (.ofWaiter w) + downs s.events (.ofWaiter w)) →
      (∀ u w, .semaUp (.ofWaiter w) ∈ s'.stack u → .semaUp (.ofWaiter w) ∈ s.stack u) →
      CondStep t s s'
  | publish {c} : s'.waiters = Function.update s.waiters c (s.waiters c ++ [s.nextWaiter]) →
      s'.nextWaiter = s.nextWaiter + 1 → s'.events = s.events →
      s'.value = Function.update s.value (.ofWaiter s.nextWaiter) 0 →
      (∀ u w, .semaUp (.ofWaiter w) ∈ s'.stack u → .semaUp (.ofWaiter w) ∈ s.stack u) →
      CondStep t s s'
  | remove {c m fs} : s.stack t = .condSignalRemove c m :: fs →
      s'.waiters = Function.update s.waiters c ((s.waiters c).erase m) →
      s'.nextWaiter = s.nextWaiter → s'.events = s.events → s'.value = s.value →
      (∀ u w, .semaUp (.ofWaiter w) ∈ s'.stack u →
        .semaUp (.ofWaiter w) ∈ s.stack u ∨ (u = t ∧ w = m)) → CondStep t s s'
  | raise {m fs} : s.stack t = .semaUp (.ofWaiter m) :: fs → s'.waiters = s.waiters →
      s'.nextWaiter = s.nextWaiter → s'.events = .up (some t) (.ofWaiter m) :: s.events →
      s'.value = Function.update s.value (.ofWaiter m) ((s.value (.ofWaiter m) + 1) % 2 ^ 32) →
      (∀ u w, .semaUp (.ofWaiter w) ∈ s'.stack u →
        .semaUp (.ofWaiter w) ∈ s.stack u ∧ ¬ (u = t ∧ w = m)) → CondStep t s s'

theorem value_down {p : SemaPtr} (a : Option ThreadPtr) (hv : s.value p ≠ 0) (q : SemaPtr) :
    (s.down a p).value q + downs (s.down a p).events q = s.value q + downs s.events q := by
  by_cases h : p = q
  · subst h
    simp
    omega
  · simp [h, Ne.symm h]

theorem Local.semaUp_not_mem {f : Frame} {gs : List Frame} {w : WaiterPtr} (h : Local f gs) :
    .semaUp (.ofWaiter w) ∉ gs := by
  cases h with
  | preempt _ hp | threadCreateUnblock hp =>
      intro hg
      obtain rfl := List.mem_singleton.mp hg
      cases hp
  | _ => simp

theorem Interrupted.mem {fs fs' : List Frame} {f : Frame} (h : Interrupted fs fs')
    (hf : f ∈ fs') : f ∈ fs ∨ f = .idleLoop ∨ f = .intrSetLevel true := by
  cases h with
  | none => exact .inl hf
  | halt | haltYield | yield =>
      simp only [List.mem_cons] at hf ⊢
      tauto

/-- The frames on the stacks after a frame has been executed. -/
theorem Move.mem_run {f x : Frame} {fs gs : List Frame} {s₁ : Sync} {u : ThreadPtr}
    (hb : s.Unborn) (e : s.stack t = f :: fs) (h : Move t (s.setStack t fs) f gs s₁)
    (hx : x ∈ (s₁.setStack t (gs ++ s₁.stack t)).stack u) :
    (u = t ∧ x ∈ gs) ∨ (u = t ∧ x ∈ fs) ∨ (u ≠ t ∧ x ∈ s.stack u) ∨
      ∃ function : Entry, x ∈ function.stack := by
  obtain ⟨ht, ho⟩ := h.stack_run hb e
  by_cases hu : u = t
  · subst hu
    have hx : x ∈ gs ++ fs := by simpa [ht] using hx
    obtain hx | hx := List.mem_append.mp hx
    · exact .inl ⟨rfl, hx⟩
    · exact .inr (.inl ⟨rfl, hx⟩)
  · simp only [Sync.setStack_stack, Function.update_of_ne hu] at hx
    obtain ho | ⟨p, function, n, r, -, -, ho⟩ := ho u hu
    · exact .inr (.inr (.inl ⟨hu, ho ▸ hx⟩))
    · exact .inr (.inr (.inr ⟨function, ho ▸ hx⟩))

/-- Calls and interrupts put few frames on a stack. -/
theorem SyncStep.frame_mem {k : Kernel} {lab : Label} {u : ThreadPtr} (h : SyncStep k lab s')
    (hl : lab ≠ .run) {f : Frame} (hf : f ∈ s'.stack u) :
    f ∈ k.stack u ∨ (∃ c : Call, f = c.frame) ∨ f = .idleLoop ∨ f = .intrSetLevel true := by
  cases h with
  | run => exact absurd rfl hl
  | @call c _ =>
      obtain rfl | hu := eq_or_ne u k.cur
      · exact .inr (.inl ⟨c, by simpa using hf⟩)
      · exact .inl (by simpa [hu] using hf)
  | @interrupt _ fs' s₂ _ hi hh =>
      have hst : s₂.stack = k.stack := by cases hh <;> rfl
      obtain rfl | hu := eq_or_ne u k.cur
      · exact (hi.mem (by simpa using hf)).imp id .inr
      · exact .inl (by simpa [hu, hst] using hf)

theorem Sync.Step.condStep (I : s.Inv) (h : Sync.Step okCall t s s') : CondStep t s s' := by
  cases h with
  | @call c =>
      refine .quiet rfl rfl (fun _ => rfl) (fun _ => rfl) fun u w hw => ?_
      by_cases hu : u = t
      · subst hu
        cases c <;> simp [Call.frame] at hw
      · simpa [hu] using hw
  | @interrupt fs' s₁ hi hh =>
      have hs : s₁.stack = s.stack := by cases hh <;> rfl
      refine .quiet ?_ ?_ ?_ ?_ fun u w hw => ?_
      · cases hh <;> rfl
      · cases hh <;> rfl
      · cases hh <;> simp
      · cases hh <;> simp
      · by_cases hu : u = t
        · subst hu
          obtain hw | hw | hw := hi.mem (by simpa using hw)
          · exact hw
          · cases hw
          · cases hw
        · simpa [hu, hs] using hw
  | @run f fs gs s₁ e hm =>
      -- the semaphore of a record is raised by a frame that was there before or is new
      have hmem : ∀ u w, .semaUp (.ofWaiter w) ∈ (s₁.setStack t (gs ++ s₁.stack t)).stack u →
          (u = t ∧ .semaUp (.ofWaiter w) ∈ gs) ∨ (u = t ∧ .semaUp (.ofWaiter w) ∈ fs) ∨
            (u ≠ t ∧ .semaUp (.ofWaiter w) ∈ s.stack u) := by
        intro u w hw
        obtain h | h | h | ⟨function, h⟩ := hm.mem_run I.unborn e hw
        · exact .inl h
        · exact .inr (.inl h)
        · exact .inr (.inr h)
        · cases function <;> simp [Entry.stack] at h
      have hold : (∀ w, .semaUp (.ofWaiter w) ∉ gs) → ∀ u w,
          .semaUp (.ofWaiter w) ∈ (s₁.setStack t (gs ++ s₁.stack t)).stack u →
            .semaUp (.ofWaiter w) ∈ s.stack u := by
        intro hg u w hw
        obtain ⟨-, h⟩ | ⟨rfl, h⟩ | ⟨-, h⟩ := hmem u w hw
        · exact absurd h (hg w)
        · simp [e, h]
        · exact h
      cases hm with
      | quiet h =>
          exact .quiet rfl rfl (fun _ => rfl) (fun _ => rfl) (hold fun w => h.semaUp_not_mem)
      | down hd hv | tryDown hv | lockTryAcquireDown hv =>
          refine .quiet rfl rfl (fun w => by simp) (fun w => ?_) (hold (by simp))
          exact value_down (s := s.setStack t fs) (some t) hv (.ofWaiter w)
      | @up p g hg =>
          have hgs : ∀ w, .semaUp (.ofWaiter w) ∉ [g] := by
            intro w hw
            cases List.mem_singleton.mp hw
            cases hg
          cases p with
          | ofWaiter m =>
              refine .raise e rfl rfl rfl rfl fun u w hw => ⟨hold hgs u w hw, ?_⟩
              rintro ⟨rfl, rfl⟩
              have hs : Stacked (.semaUp (.ofWaiter w) :: fs) := e ▸ I.stacked u
              obtain ⟨-, h⟩ | ⟨-, h⟩ | ⟨h, -⟩ := hmem u w hw
              · exact hgs w h
              · obtain h | ⟨old, h⟩ := hs.yields_of_mem h (fun _ => by rintro ⟨⟩)
                · cases h
                · cases h
              · exact h rfl
          | user | idleStarted | ofLock =>
              exact .quiet rfl rfl (fun w => by simp) (fun w => by simp) (hold hgs)
      | condWait => exact .publish rfl rfl rfl rfl (hold (by simp))
      | condSignalRemove =>
          refine .remove e rfl rfl rfl rfl fun u w hw => ?_
          obtain ⟨rfl, h⟩ | ⟨rfl, h⟩ | ⟨-, h⟩ := hmem u w hw
          · exact .inr ⟨rfl, by simpa using h⟩
          · exact .inl (by simp [e, h])
          · exact .inl h
      | take | lockReleaseBody =>
          exact .quiet rfl rfl (fun _ => rfl) (fun _ => rfl) (hold (by simp))
      | createAtomic | create | idle =>
          exact .quiet rfl rfl (fun _ => rfl) (fun _ => rfl) (hold (by simp))
      | _ => exact .quiet rfl rfl (fun _ => rfl) (fun _ => rfl) (hold (by simp))

/-! ### The invariant is kept -/

theorem mem_publish {c : CondPtr}
    (hq : s'.waiters = Function.update s.waiters c (s.waiters c ++ [s.nextWaiter]))
    {c' : CondPtr} {w : WaiterPtr} :
    w ∈ s'.waiters c' ↔ w ∈ s.waiters c' ∨ (c' = c ∧ w = s.nextWaiter) := by
  by_cases hc : c' = c
  · subst hc
    simp [hq]
  · simp [hq, hc]

theorem CondInv.remove_mem (C : CondInv lockOf s) {c : CondPtr} {m : WaiterPtr}
    {fs : List Frame} (hf : s.stack t = .condSignalRemove c m :: fs) : m ∈ s.waiters c :=
  (C.found t _ (by simp [hf]) c [m] .condSignalRemove).2 m (by simp)

theorem CondInv.mem_remove (C : CondInv lockOf s) {c : CondPtr} {m : WaiterPtr}
    (hm : m ∈ s.waiters c)
    (hq : s'.waiters = Function.update s.waiters c ((s.waiters c).erase m))
    {c' : CondPtr} {w : WaiterPtr} : w ∈ s'.waiters c' ↔ w ∈ s.waiters c' ∧ w ≠ m := by
  by_cases hc : c' = c
  · subst hc
    simp [hq, (C.nodup c').mem_erase_iff, and_comm]
  · have hne : w ∈ s.waiters c' → w ≠ m := fun hw e => hc (C.disjoint c' c m (e ▸ hw) hm)
    simpa [hq, hc] using hne

/-- No two queues, and no two places of a queue, hold the same record. -/
theorem CondInv.queues_step (C : CondInv lockOf s) (I : s.Inv) (h : CondStep t s s') :
    (∀ c, (s'.waiters c).Nodup) ∧
      ∀ c c' w, w ∈ s'.waiters c → w ∈ s'.waiters c' → c = c' := by
  have hlt : ∀ c, s.nextWaiter ∉ s.waiters c := fun c hm => (I.waiter_lt c _ hm).false
  cases h with
  | quiet hq | raise _ hq =>
      rw [hq]
      exact ⟨C.nodup, C.disjoint⟩
  | @publish c hq =>
      refine ⟨fun c' => ?_, fun c₁ c₂ w h₁ h₂ => ?_⟩
      · by_cases hc : c' = c
        · subst hc
          simpa [hq, List.nodup_append] using ⟨C.nodup c', fun a ha e => hlt c' (e ▸ ha)⟩
        · simpa [hq, hc] using C.nodup c'
      · obtain h₁ | ⟨rfl, rfl⟩ := (mem_publish hq).mp h₁
        · obtain h₂ | ⟨rfl, rfl⟩ := (mem_publish hq).mp h₂
          · exact C.disjoint c₁ c₂ w h₁ h₂
          · exact absurd h₁ (hlt c₁)
        · obtain h₂ | ⟨rfl, -⟩ := (mem_publish hq).mp h₂
          · exact absurd h₂ (hlt c₂)
          · rfl
  | @remove c m fs hf hq =>
      have hm := C.remove_mem hf
      refine ⟨fun c' => ?_, fun c₁ c₂ w h₁ h₂ => ?_⟩
      · by_cases hc : c' = c
        · subst hc
          simpa [hq] using (C.nodup c').erase m
        · simpa [hq, hc] using C.nodup c'
      · exact C.disjoint c₁ c₂ w ((C.mem_remove hm hq).mp h₁).1 ((C.mem_remove hm hq).mp h₂).1

/-- A queued record has not been raised and is not about to be. -/
theorem CondInv.queued_step (C : CondInv lockOf s) (I : s.Inv) (h : CondStep t s s')
    (c : CondPtr) (w : WaiterPtr) (hw : w ∈ s'.waiters c) :
    ups s'.events (.ofWaiter w) = 0 ∧ ∀ u, .semaUp (.ofWaiter w) ∉ s'.stack u := by
  cases h with
  | quiet hq _ hu _ hs =>
      rw [hq] at hw
      rw [hu]
      exact ⟨(C.queued c w hw).1, fun u h => (C.queued c w hw).2 u (hs u w h)⟩
  | publish hq _ he _ hs =>
      rw [he]
      obtain hw | ⟨rfl, rfl⟩ := (mem_publish hq).mp hw
      · exact ⟨(C.queued c w hw).1, fun u h => (C.queued c w hw).2 u (hs u w h)⟩
      · refine ⟨C.fresh _ le_rfl, fun u h => ?_⟩
        exact ((I.frameOk u _ (hs u _ h)).record_lt s.nextWaiter (by simp [Frame.records])).false
  | remove hf hq _ he _ hs =>
      have hm := C.remove_mem hf
      obtain ⟨hw, hne⟩ := (C.mem_remove hm hq).mp hw
      rw [he]
      refine ⟨(C.queued c w hw).1, fun u h => ?_⟩
      obtain h | ⟨-, h⟩ := hs u w h
      · exact (C.queued c w hw).2 u h
      · exact hne h
  | @raise m fs hf hq _ he _ hs =>
      rw [hq] at hw
      have hne : m ≠ w := by
        rintro rfl
        exact (C.queued c m hw).2 t (by simp [hf])
      refine ⟨?_, fun u h => (C.queued c w hw).2 u (hs u w h).1⟩
      simpa [he, hne] using (C.queued c w hw).1

/-- A record that is about to be raised has not been raised, and one thread is
about to do it. -/
theorem CondInv.raising_step (C : CondInv lockOf s) (h : CondStep t s s') (u : ThreadPtr)
    (w : WaiterPtr) (hw : .semaUp (.ofWaiter w) ∈ s'.stack u) :
    ups s'.events (.ofWaiter w) = 0 ∧ ∀ v, .semaUp (.ofWaiter w) ∈ s'.stack v → v = u := by
  cases h with
  | quiet _ _ hu _ hs =>
      obtain ⟨h0, h1⟩ := C.raising u w (hs u w hw)
      rw [hu]
      exact ⟨h0, fun v hv => h1 v (hs v w hv)⟩
  | publish _ _ he _ hs =>
      obtain ⟨h0, h1⟩ := C.raising u w (hs u w hw)
      rw [he]
      exact ⟨h0, fun v hv => h1 v (hs v w hv)⟩
  | @remove c m fs hf _ _ he _ hs =>
      obtain ⟨hm0, hm1⟩ := C.queued c m (C.remove_mem hf)
      rw [he]
      obtain hw | ⟨rfl, rfl⟩ := hs u w hw
      · obtain ⟨h0, h1⟩ := C.raising u w hw
        refine ⟨h0, fun v hv => ?_⟩
        obtain hv | ⟨-, rfl⟩ := hs v w hv
        · exact h1 v hv
        · exact absurd hw (hm1 u)
      · refine ⟨hm0, fun v hv => ?_⟩
        obtain hv | ⟨hv, -⟩ := hs v w hv
        · exact absurd hv (hm1 v)
        · exact hv
  | @raise m fs hf _ _ he _ hs =>
      obtain ⟨hw, hne⟩ := hs u w hw
      obtain ⟨h0, h1⟩ := C.raising u w hw
      have hmw : m ≠ w := by
        rintro rfl
        exact hne ⟨(h1 t (by simp [hf])).symm, rfl⟩
      refine ⟨by simpa [he, hmw] using h0, fun v hv => h1 v (hs v w hv).1⟩

/-- Every raise of a record is in its semaphore or has been used, and there is
at most one. -/
theorem CondInv.account_step (C : CondInv lockOf s) (h : CondStep t s s') (w : WaiterPtr) :
    s'.value (.ofWaiter w) + downs s'.events (.ofWaiter w) = ups s'.events (.ofWaiter w) ∧
      ups s'.events (.ofWaiter w) ≤ 1 := by
  obtain ⟨ha, h1⟩ := C.account w
  cases h with
  | quiet _ _ hu hv =>
      rw [hu, hv]
      exact ⟨ha, h1⟩
  | publish _ _ he hv =>
      rw [he, hv]
      by_cases hw : w = s.nextWaiter
      · subst hw
        have h0 := C.fresh s.nextWaiter le_rfl
        simp only [Function.update_self]
        omega
      · simpa [hw] using ⟨ha, h1⟩
  | remove _ _ _ he hv =>
      rw [he, hv]
      exact ⟨ha, h1⟩
  | @raise m fs hf _ _ he hv =>
      rw [he, hv]
      by_cases hw : m = w
      · subst hw
        have h0 := (C.raising t m (by simp [hf])).1
        have hv0 : s.value (.ofWaiter m) = 0 := by omega
        simp [hv0]
        omega
      · simpa [hw, Ne.symm hw] using ⟨ha, h1⟩

theorem CondInv.fresh_step (C : CondInv lockOf s) (I : s.Inv) (h : CondStep t s s')
    (w : WaiterPtr) (hw : s'.nextWaiter ≤ w) : ups s'.events (.ofWaiter w) = 0 := by
  cases h with
  | quiet _ hn hu =>
      rw [hu]
      exact C.fresh w (hn ▸ hw)
  | publish _ hn he =>
      rw [hn] at hw
      rw [he]
      exact C.fresh w ((Nat.le_succ _).trans hw)
  | remove _ _ hn he =>
      rw [he]
      exact C.fresh w (hn ▸ hw)
  | @raise m fs hf _ hn he =>
      have hlt : m < s.nextWaiter :=
        (I.frameOk t (.semaUp (.ofWaiter m)) (by simp [hf])).record_lt m (by simp [Frame.records])
      have hne : m ≠ w := fun e => (hlt.trans_le (hn ▸ hw)).ne e
      simpa [he, hne] using C.fresh w (hn ▸ hw)

theorem Frame.Preempts.disciplined {f : Frame} (h : f.Preempts) : f.Disciplined lockOf := by
  cases h <;> trivial

theorem Local.disciplined {f g : Frame} {gs : List Frame} (h : Local f gs) (hg : g ∈ gs) :
    g.Disciplined lockOf := by
  cases h with
  | preempt _ hp | threadCreateUnblock hp =>
      obtain rfl := List.mem_singleton.mp hg
      exact hp.disciplined
  | lockReleaseYield | allocateTidWrite =>
      obtain rfl | rfl := by simpa using hg
      all_goals trivial
  | _ =>
      first
        | exact absurd hg List.not_mem_nil
        | obtain rfl := List.mem_singleton.mp hg
          trivial

theorem Move.disciplined {f g : Frame} {gs : List Frame} (h : Move t s f gs s') (hg : g ∈ gs)
    (hf : f.Disciplined lockOf) : g.Disciplined lockOf := by
  cases h with
  | quiet h => exact h.disciplined hg
  | up hp =>
      obtain rfl := List.mem_singleton.mp hg
      exact hp.disciplined
  | condWait =>
      simp only [List.mem_cons, List.not_mem_nil, or_false] at hg
      obtain rfl | rfl | rfl | rfl | rfl := hg
      all_goals trivial
  | condBroadcast =>
      obtain rfl | rfl := by simpa using hg
      all_goals exact hf
  | lockAcquireFree | lockAcquireHeld | lockReleaseBody | create | idle =>
      obtain rfl | rfl := by simpa using hg
      all_goals trivial
  | _ =>
      first
        | exact absurd hg List.not_mem_nil
        | obtain rfl := List.mem_singleton.mp hg
          trivial

theorem CondInv.disciplined_step (C : CondInv lockOf s) (I : s.Inv)
    (hok : ∀ c, okCall c → c.Disciplined lockOf) (h : Sync.Step okCall t s s') :
    ∀ u, ∀ f ∈ s'.stack u, f.Disciplined lockOf := by
  refine h.frames I.unborn C.disciplined (fun _ _ _ _ hQ => hQ) ?_ ?_ ?_ trivial fun _ => trivial
  · intro c hc _ _
    have hd := hok c hc
    cases c <;> exact hd
  · exact fun f fs gs s₁ _ hm _ hQ g hg => hm.disciplined hg hQ
  · intro p function n r _ f hf
    cases function <;> simp only [Entry.stack, List.mem_cons, List.not_mem_nil, or_false] at hf
    · subst hf
      trivial
    · obtain rfl | rfl := hf <;> trivial

theorem Frame.Preempts.not_found {f : Frame} {c : CondPtr} {ws : List WaiterPtr}
    (h : f.Preempts) : ¬ f.Found c ws := by
  cases h <;> exact nofun

theorem Local.not_found {f g : Frame} {gs : List Frame} {c : CondPtr} {ws : List WaiterPtr}
    (h : Local f gs) (hg : g ∈ gs) : ¬ g.Found c ws := by
  cases h with
  | preempt _ hp | threadCreateUnblock hp =>
      obtain rfl := List.mem_singleton.mp hg
      exact hp.not_found
  | lockReleaseYield | allocateTidWrite =>
      obtain rfl | rfl := by simpa using hg
      all_goals exact nofun
  | _ =>
      first
        | exact absurd hg List.not_mem_nil
        | obtain rfl := List.mem_singleton.mp hg
          exact nofun

/-- What `cond_signal` has found goes on to be in the queue. -/
theorem Move.found {f g : Frame} {gs : List Frame} {c : CondPtr} {ws : List WaiterPtr}
    (h : Move t s f gs s') (hg : g ∈ gs) (hgf : g.Found c ws) (hd : f.Disciplined lockOf)
    (hf : ∀ c ws, f.Found c ws → s.holder (lockOf c) = some t ∧ ∀ w ∈ ws, w ∈ s.waiters c) :
    s'.holder (lockOf c) = some t ∧ ∀ w ∈ ws, w ∈ s'.waiters c := by
  cases h with
  | quiet h => exact absurd hgf (h.not_found hg)
  | up hp =>
      obtain rfl := List.mem_singleton.mp hg
      exact absurd hgf hp.not_found
  | condSignal hh =>
      obtain rfl := List.mem_singleton.mp hg
      cases hgf
      obtain rfl := hd
      exact ⟨hh, by simp⟩
  | condSignalFirst hq =>
      obtain rfl := List.mem_singleton.mp hg
      cases hgf
      refine ⟨(hf c [] .condSignalFirst).1, fun w hw => ?_⟩
      rwa [hq]
  | condSignalMax hm =>
      obtain rfl := List.mem_singleton.mp hg
      cases hgf
      obtain ⟨hh, hws⟩ := hf c _ .condSignalMax
      refine ⟨hh, fun w hw => hws w ?_⟩
      obtain rfl | hw := List.mem_cons.mp hw
      · obtain rfl | rfl := hm <;> simp
      · simp [hw]
  | condSignalFound =>
      obtain rfl := List.mem_singleton.mp hg
      cases hgf
      exact hf c _ .condSignalMax
  | condWait =>
      simp only [List.mem_cons, List.not_mem_nil, or_false] at hg
      obtain rfl | rfl | rfl | rfl | rfl := hg
      all_goals cases hgf
  | lockAcquireFree | lockAcquireHeld | lockReleaseBody | condBroadcast | create | idle =>
      obtain rfl | rfl := by simpa using hg
      all_goals cases hgf
  | _ =>
      first
        | exact absurd hg List.not_mem_nil
        | obtain rfl := List.mem_singleton.mp hg
          cases hgf

theorem CondInv.found_self (C : CondInv lockOf s) (I : s.Inv) (h : Sync.Step okCall t s s')
    {f : Frame} {c : CondPtr} {ws : List WaiterPtr} (hf : f ∈ s.stack t) (hf' : f ∈ s'.stack t)
    (hfound : f.Found c ws) (hQ : s.holder (lockOf c) = some t ∧ ∀ w ∈ ws, w ∈ s.waiters c) :
    s'.holder (lockOf c) = some t ∧ ∀ w ∈ ws, w ∈ s'.waiters c := by
  cases h with
  | call _ he => simp [he] at hf
  | interrupt _ hh => cases hh <;> exact hQ
  | @run f₀ fs gs s₁ e hm =>
      obtain ⟨ht, -⟩ := hm.stack_run I.unborn e
      have hmem : f ∈ gs ++ fs := by simpa [ht] using hf'
      obtain hg | hg := List.mem_append.mp hmem
      · exact hm.found hg hfound (C.disciplined t f₀ (by simp [e])) (C.found t f₀ (by simp [e]))
      · have hs : Stacked (f₀ :: fs) := e ▸ I.stacked t
        obtain ⟨rfl, -⟩ := hs.move_of_mem hg hfound.not_awaits hm
        exact hQ

theorem CondInv.found_other (C : CondInv lockOf s) (I : s.Inv) (L : ∀ l, LockInv l s)
    (h : Sync.Step okCall t s s') {u : ThreadPtr} {c : CondPtr} {ws : List WaiterPtr}
    (hu : u ≠ t) (hQ : s.holder (lockOf c) = some u ∧ ∀ w ∈ ws, w ∈ s.waiters c) :
    s'.holder (lockOf c) = some u ∧ ∀ w ∈ ws, w ∈ s'.waiters c := by
  obtain ⟨hh, hws⟩ := hQ
  refine ⟨?_, ?_⟩
  · obtain hh | ⟨hut, -⟩ := (L (lockOf c)).holder_stable I h hh
    · exact hh
    · exact absurd hut hu
  · cases h.condStep I with
    | quiet hq | raise _ hq => exact fun w hw => hq ▸ hws w hw
    | publish hq => exact fun w hw => (mem_publish hq).mpr (.inl (hws w hw))
    | @remove c₀ m fs hf hq =>
        have hne : c ≠ c₀ := by
          rintro rfl
          have ht := (C.found t _ (by simp [hf]) c [m] .condSignalRemove).1
          exact hu (Option.some.inj (hh.symm.trans ht))
        intro w hw
        simpa [hq, hne] using hws w hw

/-- Nobody but the signaller changes the queue that it has looked at. -/
theorem CondInv.found_step (C : CondInv lockOf s) (I : s.Inv) (L : ∀ l, LockInv l s)
    (h : Sync.Step okCall t s s') :
    ∀ u, ∀ f ∈ s'.stack u, ∀ c ws, f.Found c ws →
      s'.holder (lockOf c) = some u ∧ ∀ w ∈ ws, w ∈ s'.waiters c := by
  refine h.frames I.unborn C.found ?_ ?_ ?_ ?_ ?_ ?_
  · intro u f hf hf' hQ c ws hfound
    by_cases hu : u = t
    · subst hu
      exact C.found_self I h hf hf' hfound (hQ c ws hfound)
    · exact C.found_other I L h hu (hQ c ws hfound)
  · intro c _ _ _ c' ws hc
    cases c <;> cases hc
  · rintro f fs gs s₁ e hm rfl hQ g hg c ws hgf
    exact hm.found hg hgf (C.disciplined t f (by simp [e])) hQ
  · intro p function n r _ f hf c ws hc
    cases function <;> simp only [Entry.stack, List.mem_cons, List.not_mem_nil, or_false] at hf
    · subst hf
      cases hc
    · obtain rfl | rfl := hf <;> cases hc
  · intro c ws hc
    cases hc
  · intro _ c ws hc
    cases hc

/-- A `sema_down` goes on until it has decremented its semaphore. -/
theorem Move.of_downs {f : Frame} {gs : List Frame} {p : SemaPtr} (h : Move t s f gs s')
    (hf : f.Downs p) : (∃ old, gs = [.semaDownWait p old]) ∨ s' = s.down (some t) p := by
  cases h with
  | quiet h => cases hf <;> cases h with | preempt hc | preemptEnd hc => cases hc.1
  | @down _ q hd hv =>
      obtain rfl : p = q := by cases hf <;> cases hd <;> rfl
      exact .inr rfl
  | @wait _ q old hd hv =>
      obtain rfl : p = q := by cases hf <;> cases hd <;> rfl
      exact .inl ⟨old, rfl⟩
  | take ht => cases hf <;> cases ht
  | _ => cases hf

theorem Sync.Step.downs_le (h : Sync.Step okCall t s s') (p : SemaPtr) :
    downs s.events p ≤ downs s'.events p := by
  cases h with
  | call => exact le_rfl
  | interrupt _ hh => cases hh <;> simp
  | run _ hm => cases hm <;> simp

/-- The owner of a record is in its `sema_down` or has completed it. -/
theorem Sync.Step.waiting (I : s.Inv) (h : Sync.Step okCall t s s') {u : ThreadPtr}
    {w : WaiterPtr}
    (hw : (∃ f ∈ s.stack u, f.Downs (.ofWaiter w)) ∨ 0 < downs s.events (.ofWaiter w)) :
    (∃ f ∈ s'.stack u, f.Downs (.ofWaiter w)) ∨ 0 < downs s'.events (.ofWaiter w) := by
  obtain ⟨f, hf, hd⟩ | hw := hw
  · cases h with
    | call _ he =>
        have hu : u ≠ t := by
          rintro rfl
          simp [he] at hf
        exact .inl ⟨f, by simpa [hu] using hf, hd⟩
    | interrupt hi hh =>
        refine .inl ⟨f, ?_, hd⟩
        by_cases hu : u = t
        · subst hu
          generalize s.stack u = fs at hi hf
          cases hi with
          | halt | haltYield =>
              obtain rfl | hf := List.mem_cons.mp hf
              · cases hd
              · simp [hf]
          | none | yield => simp [hf]
        · cases hh <;> simpa [hu] using hf
    | @run f₀ fs gs s₁ e hm =>
        obtain ⟨ht, ho⟩ := hm.stack_run I.unborn e
        by_cases hu : u = t
        · subst hu
          rw [e] at hf
          obtain rfl | hf := List.mem_cons.mp hf
          · obtain ⟨old, rfl⟩ | rfl := hm.of_downs hd
            · exact .inl ⟨.semaDownWait (.ofWaiter w) old, by simp, .semaDownWait⟩
            · exact .inr (by simp)
          · exact .inl ⟨f, by simp [ht, hf], hd⟩
        · obtain ho | ⟨p, function, n, r, -, rfl, -⟩ := ho u hu
          · exact .inl ⟨f, by simpa [hu, ho] using hf, hd⟩
          · simp [I.unborn _ le_rfl] at hf
  · exact .inr (hw.trans_le (h.downs_le _))

theorem Local.condWaitReturn_not_mem {f : Frame} {gs : List Frame} {c : CondPtr} {w : WaiterPtr}
    (h : Local f gs) : .condWaitReturn c w ∉ gs := by
  cases h with
  | preempt _ hp | threadCreateUnblock hp =>
      intro hg
      obtain rfl := List.mem_singleton.mp hg
      cases hp
  | _ => simp

theorem Move.of_condWaitReturn_mem {f : Frame} {gs : List Frame} {c : CondPtr} {w : WaiterPtr}
    (h : Move t s f gs s') (hg : .condWaitReturn c w ∈ gs) :
    .semaDown (.ofWaiter w) ∈ gs := by
  cases h with
  | quiet h => exact absurd hg h.condWaitReturn_not_mem
  | up hp =>
      obtain rfl := List.mem_singleton.mp hg
      cases hp
  | condWait =>
      obtain ⟨-, rfl⟩ := by simpa using hg
      simp
  | _ => simp at hg

theorem CondInv.waiting_step (C : CondInv lockOf s) (I : s.Inv) (h : Sync.Step okCall t s s')
    (u : ThreadPtr) (c : CondPtr) (w : WaiterPtr) (hw : .condWaitReturn c w ∈ s'.stack u) :
    (∃ f ∈ s'.stack u, f.Downs (.ofWaiter w)) ∨ 0 < downs s'.events (.ofWaiter w) := by
  have hstep : ∀ u, ∀ f ∈ s'.stack u, f = .condWaitReturn c w →
      (∃ f ∈ s'.stack u, f.Downs (.ofWaiter w)) ∨ 0 < downs s'.events (.ofWaiter w) := by
    refine h.frames I.unborn (Q := fun u f => f = .condWaitReturn c w →
      (∃ f ∈ s.stack u, f.Downs (.ofWaiter w)) ∨ 0 < downs s.events (.ofWaiter w))
      ?_ ?_ ?_ ?_ ?_ nofun fun _ => nofun
    · rintro u f hf rfl
      exact C.waiting u c w hf
    · exact fun u f _ _ hQ hf => h.waiting I (hQ hf)
    · intro c' _ _ _ hc
      cases c' <;> cases hc
    · rintro f fs gs s₁ e hm rfl _ g hg rfl
      obtain ⟨ht, -⟩ := hm.stack_run I.unborn e
      exact .inl ⟨_, by simp [hm.of_condWaitReturn_mem hg], .semaDown⟩
    · intro p function n r _ f hf hc
      subst hc
      cases function <;> simp [Entry.stack] at hf
  exact hstep u _ hw rfl

/-- **Every step keeps the records of condition variables.** -/
theorem CondInv.step (C : CondInv lockOf s) (I : s.Inv) (L : ∀ l, LockInv l s)
    (hok : ∀ c, okCall c → c.Disciplined lockOf) (h : Sync.Step okCall t s s') :
    CondInv lockOf s' where
  disciplined := C.disciplined_step I hok h
  found := C.found_step I L h
  nodup := (C.queues_step I (h.condStep I)).1
  disjoint := (C.queues_step I (h.condStep I)).2
  fresh := C.fresh_step I (h.condStep I)
  queued := C.queued_step I (h.condStep I)
  raising := C.raising_step (h.condStep I)
  account := C.account_step (h.condStep I)
  waiting := C.waiting_step I h

theorem boot_condInv (cfg : Config) : CondInv lockOf (boot cfg).sync := by
  have hstack : ∀ u f, f ∈ (boot cfg).sync.stack u →
      f = .threadCreate priMin .idle ∨ f = .threadStart := by
    intro u f hf
    by_cases hu : u = 0
    · subst hu
      simpa [boot] using hf
    · simp [boot, hu] at hf
  refine ⟨?_, ?_, fun c => .nil, ?_, fun w _ => rfl, ?_, ?_, fun w => ⟨rfl, Nat.zero_le 1⟩, ?_⟩
  · intro u f hf
    obtain rfl | rfl := hstack u f hf <;> trivial
  · intro u f hf c ws hc
    obtain rfl | rfl := hstack u f hf <;> cases hc
  · intro c c' w hw
    simp [boot] at hw
  · intro c w hw
    simp [boot] at hw
  · intro u w hw
    obtain h | h := hstack u _ hw <;> cases h
  · intro u c w hw
    obtain h | h := hstack u _ hw <;> cases h

theorem Sync.Reachable.condInv {cfg : Config} (hok : ∀ c, okCall c → c.Disciplined lockOf)
    (h : Sync.Reachable cfg okCall s) : CondInv lockOf s := by
  induction h with
  | refl => exact boot_condInv cfg
  | tail hr hstep ih =>
      obtain ⟨u, hstep⟩ := hstep
      exact ih.step (Sync.Reachable.inv hr) (fun l => Sync.Reachable.lockInv hr l) hok hstep

/-! ### The kernel -/

variable {cfg : Config} {fuel : ℕ} {k k' : Kernel}

/-- **Exact wakeups.**  A signal in progress is one of the frames
`condSignalFirst`, `condSignalMax`, `condSignalRemove`, `semaUp`, each of
which becomes the next. -/
structure ExactWakeups (cfg : Config) (k : Kernel) : Prop where
  /-- A record in a queue has semaphore value 0. -/
  queued : ∀ c, ∀ w ∈ k.condWaiters c, k.semaValue (.ofWaiter w) = 0
  /-- A signal that finds records looks for the one to remove, ... -/
  looks : ∀ c m es fs fuel k', k.stack k.cur = .condSignalFirst c :: fs →
    k.condWaiters c = m :: es → step cfg fuel k .run = some k' →
      k'.stack k.cur = .condSignalMax c m es :: fs ∧ k'.condWaiters = k.condWaiters ∧
        k'.semaValue = k.semaValue
  /-- ... one after the other, ... -/
  compares : ∀ c m e es fs fuel k', k.stack k.cur = .condSignalMax c m (e :: es) :: fs →
    step cfg fuel k .run = some k' →
      (∃ m', (m' = m ∨ m' = e) ∧ k'.stack k.cur = .condSignalMax c m' es :: fs) ∧
        k'.condWaiters = k.condWaiters ∧ k'.semaValue = k.semaValue
  chooses : ∀ c m fs fuel k', k.stack k.cur = .condSignalMax c m [] :: fs →
    step cfg fuel k .run = some k' →
      k'.stack k.cur = .condSignalRemove c m :: fs ∧ k'.condWaiters = k.condWaiters ∧
        k'.semaValue = k.semaValue
  /-- ... removes exactly this record, ... -/
  removes : ∀ c m fs fuel k', k.stack k.cur = .condSignalRemove c m :: fs →
    step cfg fuel k .run = some k' →
      m ∈ k.condWaiters c ∧ (∀ c', m ∉ k'.condWaiters c') ∧
        k'.condWaiters = Function.update k.condWaiters c ((k.condWaiters c).erase m) ∧
          k'.stack k.cur = .semaUp (.ofWaiter m) :: fs ∧ k'.semaValue = k.semaValue
  /-- ... and raises its semaphore, and no other, from 0 to 1. -/
  raises : ∀ m fs fuel k', k.stack k.cur = .semaUp (.ofWaiter m) :: fs →
    step cfg fuel k .run = some k' →
      k.semaValue (.ofWaiter m) = 0 ∧
        k'.semaValue = Function.update k.semaValue (.ofWaiter m) 1 ∧
          k'.condWaiters = k.condWaiters
  /-- Nothing else removes a record or raises its semaphore. -/
  only : ∀ lab fuel k' w, step cfg fuel k lab = some k' →
    (∀ c, w ∈ k.condWaiters c → w ∉ k'.condWaiters c →
      ∃ fs, k.stack k.cur = .condSignalRemove c w :: fs) ∧
    (k.semaValue (.ofWaiter w) < k'.semaValue (.ofWaiter w) →
      ∃ fs, k.stack k.cur = .semaUp (.ofWaiter w) :: fs)
  /-- A record is raised at most once. -/
  once : ∀ w, ups k.log (.ofWaiter w) ≤ 1
  /-- A `cond_wait` that is past its `sema_down` has had its record raised. -/
  passed : ∀ t c w, .condWaitReturn c w ∈ k.stack t →
    (∀ f ∈ k.stack t, ¬ f.Downs (.ofWaiter w)) →
      ups k.log (.ofWaiter w) = 1 ∧ downs k.log (.ofWaiter w) = 1
  /-- A raise that comes before the `sema_down` is there when it comes. -/
  early : ∀ w, ups k.log (.ofWaiter w) = 1 → downs k.log (.ofWaiter w) = 0 →
    k.semaValue (.ofWaiter w) = 1
  /-- When `cond_wait` returns, no queue holds its record. -/
  returned : ∀ t c w fs, k.stack t = .condWaitReturn c w :: fs → ∀ c', w ∉ k.condWaiters c'

theorem ups_sync (k : Kernel) (p : SemaPtr) : ups k.sync.events p = ups k.log p := by
  simp only [ups, Kernel.sync_events, List.countP_filter]
  refine List.countP_congr fun e _ => ?_
  cases e <;> simp [Event.isUp, Event.isSema]

theorem downs_sync (k : Kernel) (p : SemaPtr) : downs k.sync.events p = downs k.log p := by
  simp only [downs, Kernel.sync_events, List.countP_filter]
  refine List.countP_congr fun e _ => ?_
  cases e <;> simp [Event.isDown, Event.isSema]

theorem step_run {f : Frame} {fs : List Frame} (e : k.stack k.cur = f :: fs) :
    step cfg fuel k .run = exec cfg fuel (popFrame k fs) f := by
  simp [step, e]

theorem value_le_of_condStep (h : CondStep t s s') (hle : ∀ p, downs s.events p ≤ downs s'.events p)
    {w : WaiterPtr} (hw : ∀ fs, s.stack t ≠ .semaUp (.ofWaiter w) :: fs) :
    s'.value (.ofWaiter w) ≤ s.value (.ofWaiter w) := by
  cases h with
  | quiet _ _ _ hv =>
      have h1 := hv w
      have h2 := hle (.ofWaiter w)
      omega
  | publish _ _ _ hv =>
      by_cases hn : w = s.nextWaiter
      · simp [hv, hn]
      · simp [hv, hn]
  | remove _ _ _ _ hv => rw [hv]
  | @raise m fs hf _ _ _ hv =>
      have hne : w ≠ m := fun e => hw fs (e ▸ hf)
      simp [hv, hne]

theorem mem_of_condStep (h : CondStep t s s') {c : CondPtr} {w : WaiterPtr}
    (hw : w ∈ s.waiters c) (hs : ∀ fs, s.stack t ≠ .condSignalRemove c w :: fs) :
    w ∈ s'.waiters c := by
  cases h with
  | quiet hq | raise _ hq => exact hq ▸ hw
  | publish hq => exact (mem_publish hq).mpr (.inl hw)
  | @remove c' m fs hf hq =>
      by_cases hc : c = c'
      · subst hc
        have hne : w ≠ m := fun e => hs fs (e ▸ hf)
        simpa [hq] using (List.mem_erase_of_ne hne).mpr hw
      · simpa [hq, hc] using hw

/-- `cond_wait` is called by the thread's own code only. -/
theorem Stacked.condWaitReturn_bottom {c : CondPtr} {w : WaiterPtr} {fs : List Frame}
    (h : Stacked (.condWaitReturn c w :: fs)) : fs = [] := by
  obtain ⟨⟨old, he⟩ | ⟨π, ho, hr⟩, -⟩ := h
  · cases he
  · cases π with
    | user =>
        cases fs with
        | nil => rfl
        | cons g fs => cases ho
    | yield | preempt | down | acquire | release | start => cases hr
    | up | signal | create => exact hr.elim nofun nofun

/-- **Condition variable wakeups are exact**, in every run in which each
condition variable is used with one lock. -/
theorem cond_wakeups_exact {ok : Kernel → Label → Prop}
    (hok : ∀ k c, ok k (.call c) → c.Disciplined lockOf) (h : Reachable cfg ok k) :
    ExactWakeups cfg k := by
  obtain ⟨hr, hcur⟩ := h.sync hok
  have I := hr.inv
  have C : CondInv lockOf k.sync := hr.condInv fun _ hc => hc
  have hacc : ∀ w, k.semaValue (.ofWaiter w) + downs k.log (.ofWaiter w) =
      ups k.log (.ofWaiter w) ∧ ups k.log (.ofWaiter w) ≤ 1 := by
    intro w
    rw [← ups_sync, ← downs_sync]
    exact C.account w
  refine ⟨?_, ?_, ?_, ?_, ?_, ?_, ?_, fun w => (hacc w).2, ?_, ?_, ?_⟩
  · intro c w hw
    have h0 := (C.queued c w hw).1
    rw [ups_sync] at h0
    have ha := (hacc w).1
    omega
  · intro c m es fs fuel k' e hq hstep
    rw [step_run e] at hstep
    simp only [exec, popFrame, hq, Option.some.injEq] at hstep
    subst hstep
    simp [Kernel.push]
  · intro c m e' es fs fuel k' e hstep
    rw [step_run e] at hstep
    obtain ⟨less, -, rfl⟩ := Option.map_eq_some_iff.mp hstep
    refine ⟨⟨if less then e' else m, ?_, by simp [popFrame]⟩, rfl, rfl⟩
    cases less <;> simp
  · intro c m fs fuel k' e hstep
    rw [step_run e] at hstep
    cases hstep
    exact ⟨by simp [popFrame], rfl, rfl⟩
  · intro c m fs fuel k' e hstep
    rw [step_run e] at hstep
    cases hstep
    have hm : m ∈ k.sync.waiters c := C.remove_mem (t := k.cur) e
    refine ⟨hm, fun c' hc' => ?_, rfl, by simp [popFrame], rfl⟩
    exact ((C.mem_remove hm (rfl : (k.sync.unlink c m).waiters = _)).mp hc').2 rfl
  · intro m fs fuel k' e hstep
    rw [step_run e] at hstep
    obtain ⟨k₁, h₁, rfl⟩ := Option.map_eq_some_iff.mp hstep
    obtain ⟨hs, -⟩ := semaUpBody_sync h₁
    have h0 := (C.raising k.cur m (by simp [e])).1
    rw [ups_sync] at h0
    have hv : k.semaValue (.ofWaiter m) = 0 := by
      have ha := (hacc m).1
      omega
    refine ⟨hv, ?_, congrArg Sync.waiters hs⟩
    have hval : k₁.semaValue = Function.update k.semaValue (.ofWaiter m)
        ((k.semaValue (.ofWaiter m) + 1) % 2 ^ 32) := congrArg Sync.value hs
    rw [hv] at hval
    exact hval
  · intro lab fuel k' w hstep
    obtain ⟨hs, -⟩ := step_sync hcur (fun _ _ => trivial) hstep
    have hc := hs.condStep I
    refine ⟨fun c hw hw' => ?_, fun hlt => ?_⟩
    · by_contra hn
      exact hw' (mem_of_condStep hc hw fun fs e => hn ⟨fs, e⟩)
    · by_contra hn
      have hle := value_le_of_condStep (w := w) hc hs.downs_le fun fs e => hn ⟨fs, e⟩
      exact absurd hlt (not_lt.mpr hle)
  · intro t c w hw hd
    have hpos : 0 < downs k.log (.ofWaiter w) := by
      rw [← downs_sync]
      obtain ⟨f, hf, hfd⟩ | hpos := C.waiting t c w hw
      · exact absurd hfd (hd f hf)
      · exact hpos
    have hw := hacc w
    omega
  · intro w h1 h2
    have ha := (hacc w).1
    omega
  · intro t c w fs e c' hw
    have hs : Stacked (.condWaitReturn c w :: fs) := e ▸ I.stacked t
    obtain rfl := hs.condWaitReturn_bottom
    have h0 := (C.queued c' w hw).1
    obtain ⟨f, hf, hfd⟩ | hpos := C.waiting t c w (by simp [e])
    · obtain rfl : f = .condWaitReturn c w := by simpa [e] using hf
      cases hfd
    · have ha := (C.account w).1
      omega

/-- Thread 2 has waited on condition variable 0, and the initial thread has signalled it. -/
theorem cond_wakeups_exact_signalled :
    ∃ k, ups k.log (.ofWaiter 0) = 1 ∧ ExactWakeups priorityConfig k := by
  obtain ⟨k, hk, hp⟩ := exists_reachable priorityConfig 10
    (fun _ lab => lab ∈ [Label.run, .call (.threadCreate 40), .call (.lockAcquire 0),
      .call (.condWait 0 0), .call (.condSignal 0 0)])
    (List.replicate 19 Label.run ++ .call (.threadCreate 40) :: List.replicate 10 Label.run ++
      .call (.lockAcquire 0) :: List.replicate 4 Label.run ++
      .call (.condWait 0 0) :: List.replicate 12 Label.run ++
      .call (.lockAcquire 0) :: List.replicate 4 Label.run ++
      .call (.condSignal 0 0) :: List.replicate 5 Label.run)
    (fun k => ups k.log (.ofWaiter 0) = 1) (by decide +kernel)
  refine ⟨k, by simpa using hp, @cond_wakeups_exact (fun _ => .user 0) _ _ _ ?_ hk⟩
  intro _ c hc
  simp only [List.mem_cons, reduceCtorEq, Label.call.injEq, false_or, List.not_mem_nil,
    or_false] at hc
  obtain rfl | rfl | rfl | rfl := hc <;> trivial

end Pintos
