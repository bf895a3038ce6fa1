/-
PintosThreads/SyncInv.lean

The control invariants of the synchronization machine (`Sync.Inv`), which hold
in every run, whatever the threads call: stacks are in order, frames name only
records and threads that exist, a thread that is being created is known to
its creator alone, and thread 1, created by `thread_start`, is the idle thread
and never does anything else.
-/
import PintosThreads.CallStacks

namespace Pintos

namespace Frame

/-- The condition variable records that a frame names. -/
def records : Frame → List WaiterPtr
  | semaDown (.ofWaiter w) | semaDownWait (.ofWaiter w) _ | semaTryDown (.ofWaiter w)
  | semaUp (.ofWaiter w) | condWaitReturn _ w | condSignalRemove _ w => [w]
  | condSignalMax _ m es => m :: es
  | _ => []

/-- The thread that is being created. -/
def created : Frame → Option ThreadPtr
  | allocateTidRead t | allocateTidWrite t _ | threadCreateTid t _ | threadCreateUnblock t => some t
  | _ => none

/-- The frames of `idle`. -/
inductive IsIdle : Frame → Prop
  | idle : IsIdle idle
  | idleLoop : IsIdle idleLoop
  | idleResume : IsIdle idleResume
  | idleHalt : IsIdle idleHalt

/-- The frames that can be above a frame of `idle`. -/
inductive InIdle : Frame → Prop
  | kernelThread : InIdle kernelThread
  | semaUp : InIdle (semaUp .idleStarted)
  | preempts {f} : Preempts f → InIdle f
  | intrSetLevel {old} : InIdle (intrSetLevel old)

/-- The frames that will create the idle thread. -/
inductive CreatesIdle : Frame → Prop
  | threadCreate {p} : CreatesIdle (threadCreate p .idle)
  | threadCreateLink {p n r} : CreatesIdle (threadCreateLink p .idle n r)

/-- The frames of `thread_start` after its `thread_create`. -/
inductive AwaitsIdle : Frame → Prop
  | threadStart : AwaitsIdle threadStart
  | downs {f} : Downs .idleStarted f → AwaitsIdle f

theorem Preempts.records {f : Frame} (h : f.Preempts) : f.records = [] := by
  cases h <;> rfl

theorem Preempts.created {f : Frame} (h : f.Preempts) : f.created = none := by
  cases h <;> rfl

theorem Preempts.not_isIdle {f : Frame} (h : f.Preempts) : ¬ f.IsIdle := by
  cases h <;> exact nofun

theorem Preempts.not_createsIdle {f : Frame} (h : f.Preempts) : ¬ f.CreatesIdle := by
  cases h <;> exact nofun

end Frame

/-- What holds of each frame on the stack of thread `u`. -/
structure FrameOk (s : Sync) (u : ThreadPtr) (f : Frame) : Prop where
  record_lt : ∀ w ∈ f.records, w < s.nextWaiter
  created_lt : ∀ x, f.created = some x → x < s.nextThread
  idle_eq : f.IsIdle → u = 1

/-- While the idle thread has not been created, `thread_start` is about to do
it and nothing else has happened; or there was no page for it, and `thread_start`
waits in vain. -/
def Starting (fs : List Frame) : Prop :=
  ∃ ls zs, fs = ls ++ zs ∧ (∀ f ∈ ls, ∃ old, f = .intrSetLevel old) ∧
    ((∃ x, zs = [x, .threadStart] ∧ x.CreatesIdle) ∨ ∃ x, zs = [x] ∧ x.AwaitsIdle)

/-- The stack of the idle thread. -/
def Idling (fs : List Frame) : Prop :=
  ∃ gs x, fs = gs ++ [x] ∧ (∀ f ∈ gs, f.InIdle) ∧ x.IsIdle

/-- **The control invariants.** -/
structure Sync.Inv (s : Sync) : Prop where
  unborn : s.Unborn
  stacked : ∀ u, Stacked (s.stack u)
  frameOk : ∀ u, ∀ f ∈ s.stack u, FrameOk s u f
  waiter_lt : ∀ c, ∀ w ∈ s.waiters c, w < s.nextWaiter
  owner : ∀ x, ∃ o, ∀ u, ∀ f ∈ s.stack u, f.created = some x → u = o
  pos : 0 < s.nextThread
  starting : s.nextThread = 1 → Starting (s.stack 0) ∧ s.value .idleStarted = 0
  started : 1 < s.nextThread → ∀ u, ∀ f ∈ s.stack u, ¬ f.CreatesIdle
  idling : 1 < s.nextThread → Idling (s.stack 1)
  idleThread : ∀ t, s.idleThread = some t → t = 1 ∧ 1 < s.nextThread ∧ .idle ∉ s.stack 1

variable {okCall : Call → Prop} {t : ThreadPtr} {s s' : Sync}

/-! ### Counters only grow -/

theorem Sync.Step.nextThread_le (h : Sync.Step okCall t s s') :
    s.nextThread ≤ s'.nextThread := by
  cases h with
  | call => exact le_rfl
  | interrupt _ hh => cases hh <;> exact le_rfl
  | run _ hm => cases hm <;> first | exact le_rfl | exact Nat.le_succ _

theorem Sync.Step.nextWaiter_le (h : Sync.Step okCall t s s') :
    s.nextWaiter ≤ s'.nextWaiter := by
  cases h with
  | call => exact le_rfl
  | interrupt _ hh => cases hh <;> exact le_rfl
  | run _ hm => cases hm <;> first | exact le_rfl | exact Nat.le_succ _

/-! ### What goes on in place of a frame -/

theorem Local.records {f g : Frame} {gs : List Frame} (h : Local f gs) (hg : g ∈ gs) :
    g.records = [] := by
  cases h with
  | preempt _ hp | threadCreateUnblock hp =>
      obtain rfl := List.mem_singleton.mp hg
      exact hp.records
  | lockReleaseYield | allocateTidWrite =>
      obtain rfl | rfl := by simpa using hg
      all_goals rfl
  | _ =>
      first
        | exact absurd hg List.not_mem_nil
        | obtain rfl := List.mem_singleton.mp hg
          rfl

theorem Local.created {f g : Frame} {gs : List Frame} (h : Local f gs) (hg : g ∈ gs) :
    g.created = none ∨ g.created = f.created := by
  cases h with
  | preempt _ hp | threadCreateUnblock hp =>
      obtain rfl := List.mem_singleton.mp hg
      exact .inl hp.created
  | lockReleaseYield | allocateTidWrite =>
      obtain rfl | rfl := by simpa using hg
      all_goals first | exact .inl rfl | exact .inr rfl
  | _ =>
      first
        | exact absurd hg List.not_mem_nil
        | obtain rfl := List.mem_singleton.mp hg
          first | exact .inl rfl | exact .inr rfl

theorem Local.isIdle {f g : Frame} {gs : List Frame} (h : Local f gs) (hg : g ∈ gs)
    (hi : g.IsIdle) : f.IsIdle := by
  cases h with
  | preempt _ hp | threadCreateUnblock hp =>
      obtain rfl := List.mem_singleton.mp hg
      exact absurd hi hp.not_isIdle
  | lockReleaseYield | allocateTidWrite =>
      obtain rfl | rfl := by simpa using hg
      all_goals cases hi
  | _ =>
      first
        | exact absurd hg List.not_mem_nil
        | obtain rfl := List.mem_singleton.mp hg
          first | cases hi; done | constructor

theorem Local.createsIdle {f g : Frame} {gs : List Frame} (h : Local f gs) (hg : g ∈ gs)
    (hi : g.CreatesIdle) : f.CreatesIdle := by
  cases h with
  | preempt _ hp | threadCreateUnblock hp =>
      obtain rfl := List.mem_singleton.mp hg
      exact absurd hi hp.not_createsIdle
  | lockReleaseYield | allocateTidWrite =>
      obtain rfl | rfl := by simpa using hg
      all_goals cases hi
  | threadCreate =>
      obtain rfl := List.mem_singleton.mp hg
      cases hi
      exact .threadCreate
  | _ =>
      first
        | exact absurd hg List.not_mem_nil
        | obtain rfl := List.mem_singleton.mp hg
          cases hi

theorem Move.records {f g : Frame} {gs : List Frame} {w : WaiterPtr} (h : Move t s f gs s')
    (hg : g ∈ gs) (hw : w ∈ g.records) :
    w ∈ f.records ∨ (∃ c, w ∈ s.waiters c) ∨
      (w = s.nextWaiter ∧ s'.nextWaiter = s.nextWaiter + 1) := by
  cases h with
  | quiet h => simp [h.records hg] at hw
  | @wait _ p _ hd =>
      obtain rfl := List.mem_singleton.mp hg
      cases hd <;> cases p <;> exact .inl hw
  | up hp =>
      obtain rfl := List.mem_singleton.mp hg
      simp [hp.records] at hw
  | condWait =>
      simp only [List.mem_cons, List.not_mem_nil, or_false] at hg
      obtain rfl | rfl | rfl | rfl | rfl := hg
      all_goals first | exact .inr (.inr ⟨List.mem_singleton.mp hw, rfl⟩) | cases hw
  | @condSignalFirst c m es hc =>
      obtain rfl := List.mem_singleton.mp hg
      exact .inr (.inl ⟨c, hc ▸ hw⟩)
  | @condSignalMax c m m' e es hm =>
      obtain rfl := List.mem_singleton.mp hg
      refine .inl ?_
      obtain rfl | hw := List.mem_cons.mp hw
      · obtain rfl | rfl := hm <;> simp [Frame.records]
      · simp [Frame.records, hw]
  | condSignalFound | condSignalRemove =>
      obtain rfl := List.mem_singleton.mp hg
      exact .inl hw
  | down | tryDown | tryDownFail | take | lockTryAcquireFail | condSignalNone
  | condBroadcastEnd => cases hg
  | lockAcquire | lockTryAcquire | lockTryAcquireDown | lockRelease | condSignal
  | createAtomic =>
      obtain rfl := List.mem_singleton.mp hg
      cases hw
  | lockAcquireFree | lockAcquireHeld | lockReleaseBody | condBroadcast | create | idle =>
      obtain rfl | rfl := by simpa using hg
      all_goals cases hw

theorem Move.created {f g : Frame} {gs : List Frame} {x : ThreadPtr} (h : Move t s f gs s')
    (hg : g ∈ gs) (hx : g.created = some x) :
    f.created = some x ∨ (x = s.nextThread ∧ s'.nextThread = s.nextThread + 1) := by
  cases h with
  | quiet h =>
      obtain h | h := h.created hg
      · simp [h] at hx
      · exact .inl (h ▸ hx)
  | up hp =>
      obtain rfl := List.mem_singleton.mp hg
      simp [hp.created] at hx
  | condWait =>
      simp only [List.mem_cons, List.not_mem_nil, or_false] at hg
      obtain rfl | rfl | rfl | rfl | rfl := hg
      all_goals cases hx
  | createAtomic =>
      obtain rfl := List.mem_singleton.mp hg
      cases hx
      exact .inr ⟨rfl, rfl⟩
  | create =>
      obtain rfl | rfl := by simpa using hg
      · cases hx
      · cases hx
        exact .inr ⟨rfl, rfl⟩
  | down | tryDown | tryDownFail | take | lockTryAcquireFail | condSignalNone
  | condBroadcastEnd => cases hg
  | wait | lockAcquire | lockTryAcquire | lockTryAcquireDown | lockRelease | condSignal
  | condSignalFirst | condSignalMax | condSignalFound | condSignalRemove =>
      obtain rfl := List.mem_singleton.mp hg
      cases hx
  | lockAcquireFree | lockAcquireHeld | lockReleaseBody | condBroadcast | idle =>
      obtain rfl | rfl := by simpa using hg
      all_goals cases hx

theorem Move.isIdle {f g : Frame} {gs : List Frame} (h : Move t s f gs s') (hg : g ∈ gs)
    (hi : g.IsIdle) : f.IsIdle := by
  cases h with
  | quiet h => exact h.isIdle hg hi
  | up hp =>
      obtain rfl := List.mem_singleton.mp hg
      exact absurd hi hp.not_isIdle
  | condWait =>
      simp only [List.mem_cons, List.not_mem_nil, or_false] at hg
      obtain rfl | rfl | rfl | rfl | rfl := hg
      all_goals cases hi
  | idle => exact .idle
  | down | tryDown | tryDownFail | take | lockTryAcquireFail | condSignalNone
  | condBroadcastEnd => cases hg
  | wait | lockAcquire | lockTryAcquire | lockTryAcquireDown | lockRelease | condSignal
  | condSignalFirst | condSignalMax | condSignalFound | condSignalRemove | createAtomic =>
      obtain rfl := List.mem_singleton.mp hg
      cases hi
  | lockAcquireFree | lockAcquireHeld | lockReleaseBody | condBroadcast | create =>
      obtain rfl | rfl := by simpa using hg
      all_goals cases hi

theorem Move.createsIdle {f g : Frame} {gs : List Frame} (h : Move t s f gs s') (hg : g ∈ gs)
    (hi : g.CreatesIdle) : f.CreatesIdle ∧ s' = s := by
  cases h with
  | quiet h => exact ⟨h.createsIdle hg hi, rfl⟩
  | up hp =>
      obtain rfl := List.mem_singleton.mp hg
      exact absurd hi hp.not_createsIdle
  | condWait =>
      simp only [List.mem_cons, List.not_mem_nil, or_false] at hg
      obtain rfl | rfl | rfl | rfl | rfl := hg
      all_goals cases hi
  | down | tryDown | tryDownFail | take | lockTryAcquireFail | condSignalNone
  | condBroadcastEnd => cases hg
  | wait | lockAcquire | lockTryAcquire | lockTryAcquireDown | lockRelease | condSignal
  | condSignalFirst | condSignalMax | condSignalFound | condSignalRemove | createAtomic =>
      obtain rfl := List.mem_singleton.mp hg
      cases hi
  | lockAcquireFree | lockAcquireHeld | lockReleaseBody | condBroadcast | create | idle =>
      obtain rfl | rfl := by simpa using hg
      all_goals cases hi

/-! ### The invariants are kept -/

theorem Call.records (c : Call) : c.frame.records = [] := by
  cases c <;> rfl

theorem Call.created (c : Call) : c.frame.created = none := by
  cases c <;> rfl

theorem Call.not_isIdle (c : Call) : ¬ c.frame.IsIdle := by
  cases c <;> exact nofun

theorem Call.not_createsIdle (c : Call) : ¬ c.frame.CreatesIdle := by
  cases c <;> exact nofun

theorem Sync.Inv.waiter_lt_step (I : s.Inv) (h : Sync.Step okCall t s s') (c : CondPtr) :
    ∀ w ∈ s'.waiters c, w < s'.nextWaiter := by
  intro w hw
  cases h with
  | call => exact I.waiter_lt c w hw
  | interrupt _ hh => cases hh <;> exact I.waiter_lt c w hw
  | run _ hm =>
      cases hm with
      | @condWait c' l =>
          by_cases hc : c = c'
          · subst hc
            obtain hw | rfl := by simpa using hw
            · exact (I.waiter_lt c w hw).trans (Nat.lt_succ_self _)
            · exact Nat.lt_succ_self _
          · refine (I.waiter_lt c w ?_).trans (Nat.lt_succ_self _)
            simpa [hc] using hw
      | @condSignalRemove c' m =>
          refine I.waiter_lt c w ?_
          by_cases hc : c = c'
          · subst hc
            exact List.mem_of_mem_erase (by simpa using hw)
          · simpa [hc] using hw
      | createAtomic | create => exact I.waiter_lt c w hw
      | _ => exact I.waiter_lt c w hw

/-- Only `thread_start` creates the idle thread. -/
theorem Sync.Inv.createsIdle_eq (I : s.Inv) {u : ThreadPtr} {f : Frame} (hf : f ∈ s.stack u)
    (hi : f.CreatesIdle) : s.nextThread = 1 := by
  by_contra hn
  have h1 : 1 < s.nextThread := lt_of_le_of_ne I.pos (Ne.symm hn)
  exact I.started h1 u f hf hi

theorem Sync.Inv.frameOk_step (I : s.Inv) (h : Sync.Step okCall t s s') :
    ∀ u, ∀ f ∈ s'.stack u, FrameOk s' u f := by
  have hn := h.nextThread_le
  have hw := h.nextWaiter_le
  refine h.frames I.unborn I.frameOk ?_ ?_ ?_ ?_ ?_ ?_
  · intro u f hf _ hQ
    exact ⟨fun w h => (hQ.record_lt w h).trans_le hw,
      fun x h => (hQ.created_lt x h).trans_le hn, hQ.idle_eq⟩
  · intro c _ _ _
    exact ⟨by simp [c.records], by simp [c.created], fun hi => absurd hi c.not_isIdle⟩
  · rintro f fs gs s₁ hf hm rfl hQ g hg
    refine ⟨fun w hgw => ?_, fun x hx => ?_, fun hi => hQ.idle_eq (hm.isIdle hg hi)⟩
    · obtain h | ⟨c, h⟩ | ⟨rfl, h⟩ := hm.records hg hgw
      · exact (hQ.record_lt w h).trans_le hw
      · exact (I.waiter_lt c w h).trans_le hw
      · simp [h]
    · obtain h | ⟨rfl, h⟩ := hm.created hg hx
      · exact (hQ.created_lt x h).trans_le hn
      · simp [h]
  · intro p e n r hl f hf
    cases e with
    | user =>
        obtain rfl := List.mem_singleton.mp hf
        exact ⟨by simp [Frame.records], by simp [Frame.created], nofun⟩
    | idle =>
        obtain rfl | rfl := by simpa [Entry.stack] using hf
        · exact ⟨by simp [Frame.records], by simp [Frame.created], nofun⟩
        · exact ⟨by simp [Frame.records], by simp [Frame.created],
            fun _ => I.createsIdle_eq hl .threadCreateLink⟩
  · exact ⟨by simp [Frame.records], by simp [Frame.created], nofun⟩
  · intro hQ
    exact ⟨by simp [Frame.records], by simp [Frame.created], fun _ => hQ.idle_eq .idleHalt⟩

theorem Sync.Inv.owner_step (I : s.Inv) (h : Sync.Step okCall t s s') (x : ThreadPtr) :
    ∃ o, ∀ u, ∀ f ∈ s'.stack u, f.created = some x → u = o := by
  obtain ⟨o, ho⟩ := I.owner x
  have hlt : ∀ u, ∀ f ∈ s.stack u, f.created = some x → x ≠ s.nextThread := fun u f hf hx =>
    ((I.frameOk u f hf).created_lt x hx).ne
  refine ⟨if x = s.nextThread then t else o, ?_⟩
  refine h.frames I.unborn ho ?_ ?_ ?_ ?_ ?_ ?_
  · intro u f hf _ hQ hx
    rw [if_neg (hlt u f hf hx)]
    exact hQ hx
  · intro c _ _ _ hx
    simp [c.created] at hx
  · intro f fs gs s₁ hf hm _ hQ g hg hx
    have hmem : f ∈ s.stack t := by simp [hf]
    obtain hx | ⟨rfl, -⟩ := hm.created hg hx
    · rw [if_neg (hlt t f hmem hx)]
      exact hQ hx
    · simp
  · intro p e n r _ f hf hx
    cases e <;> simp only [Entry.stack, List.mem_cons, List.not_mem_nil, or_false] at hf
    · simp [hf, Frame.created] at hx
    · obtain rfl | rfl := hf <;> cases hx
  · intro hx
    cases hx
  · intro _ hx
    cases hx

/-! ### Starting -/

theorem Starting.ne_nil {fs : List Frame} (h : Starting fs) : fs ≠ [] := by
  obtain ⟨ls, zs, rfl, -, ⟨x, rfl, -⟩ | ⟨x, rfl, -⟩⟩ := h <;> simp

theorem Starting.not_halt {fs : List Frame} : ¬ Starting (.idleHalt :: fs) := by
  rintro ⟨ls, zs, he, hl, hx⟩
  cases ls with
  | nil =>
      obtain ⟨x, rfl, hx⟩ | ⟨x, rfl, hx⟩ := hx
      · obtain ⟨rfl, -⟩ := by simpa using he
        cases hx
      · obtain ⟨rfl, -⟩ := by simpa using he
        cases hx with | downs hd => cases hd
  | cons l ls =>
      obtain ⟨rfl, -⟩ := by simpa using he
      obtain ⟨old, h⟩ := hl .idleHalt (by simp)
      cases h

theorem Starting.level {fs : List Frame} {old : Bool} (h : Starting fs) :
    Starting (.intrSetLevel old :: fs) := by
  obtain ⟨ls, zs, rfl, hl, hx⟩ := h
  refine ⟨.intrSetLevel old :: ls, zs, rfl, ?_, hx⟩
  intro f hf
  obtain rfl | hf := List.mem_cons.mp hf
  · exact ⟨old, rfl⟩
  · exact hl f hf

theorem Starting.interrupted {fs fs' : List Frame} (h : Starting fs) (hi : Interrupted fs fs') :
    Starting fs' := by
  cases hi with
  | halt | haltYield => exact absurd h Starting.not_halt
  | none => exact h
  | yield => exact h.level

theorem Starting.creates {x : Frame} (h : x.CreatesIdle) : Starting [x, .threadStart] :=
  ⟨[], _, rfl, List.forall_mem_nil _, .inl ⟨x, rfl, h⟩⟩

theorem Starting.awaits {x : Frame} (h : x.AwaitsIdle) : Starting [x] :=
  ⟨[], _, rfl, List.forall_mem_nil _, .inr ⟨x, rfl, h⟩⟩

/-- A thread that waits for the idle thread to start keeps doing so. -/
theorem Frame.AwaitsIdle.move {f : Frame} {gs : List Frame} (hf : f.AwaitsIdle)
    (hv : s.value .idleStarted = 0) (hm : Move t s f gs s') : Starting gs ∧ s' = s := by
  cases hf with
  | threadStart =>
      cases hm with
      | quiet h =>
          cases h with
          | preempt hc | preemptEnd hc => cases hc.1
          | threadStart => exact ⟨.awaits (.downs .semaDown), rfl⟩
      | down hd | wait hd => cases hd
      | take ht => cases ht
  | downs hd =>
      cases hm with
      | quiet h =>
          cases h with
          | preempt hc | preemptEnd hc => obtain ⟨hc, -⟩ := hc; cases hd <;> cases hc
          | _ => cases hd
      | @down _ p hd' hne =>
          obtain rfl : p = .idleStarted := by cases hd <;> cases hd' <;> rfl
          exact absurd hv hne
      | @wait _ p _ hd' =>
          obtain rfl : p = .idleStarted := by cases hd <;> cases hd' <;> rfl
          exact ⟨.awaits (.downs .semaDownWait), rfl⟩
      | take ht => cases ht <;> cases hd
      | _ => cases hd

/-- The first step of a thread that is `Starting` pops an interrupt level,
goes through `thread_create`, creates the idle thread, or waits in vain. -/
theorem Starting.move {f : Frame} {fs gs : List Frame} (h : Starting (f :: fs))
    (hv : s.value .idleStarted = 0) (hm : Move t s f gs s') :
    (Starting (gs ++ fs) ∧ s'.nextThread = s.nextThread ∧ s'.value = s.value) ∨
      (fs = [.threadStart] ∧ s' = s.create .idle ∧ f.CreatesIdle) := by
  obtain ⟨ls, zs, he, hl, hx⟩ := h
  cases ls with
  | cons l ls =>
      obtain ⟨rfl, rfl⟩ := by simpa using he
      obtain ⟨old, rfl⟩ := hl f (by simp)
      obtain ⟨rfl, rfl⟩ := hm.of_level
      exact .inl ⟨⟨ls, zs, rfl, fun g hg => hl g (by simp [hg]), hx⟩, rfl, rfl⟩
  | nil =>
      obtain ⟨x, rfl, hx⟩ | ⟨x, rfl, hx⟩ := hx
      · obtain ⟨rfl, rfl⟩ := by simpa using he
        cases hx with
        | threadCreate =>
            cases hm with
            | quiet h =>
                cases h with
                | preempt hc | preemptEnd hc => cases hc.1
                | threadCreate => exact .inl ⟨.creates .threadCreateLink, rfl, rfl⟩
                | threadCreateFail => exact .inl ⟨.awaits .threadStart, rfl, rfl⟩
            | down hd | wait hd => cases hd
            | take ht => cases ht
        | threadCreateLink =>
            cases hm with
            | quiet h => cases h with | preempt hc | preemptEnd hc => cases hc.1
            | down hd | wait hd => cases hd
            | take ht => cases ht
            | createAtomic | create => exact .inr ⟨rfl, rfl, .threadCreateLink⟩
      · obtain ⟨rfl, rfl⟩ := by simpa using he
        obtain ⟨hs, rfl⟩ := hx.move hv hm
        exact .inl ⟨by rwa [List.append_nil], rfl, rfl⟩

/-! ### Idling -/

theorem Frame.InIdle.move {f : Frame} {gs : List Frame} (hf : f.InIdle) (h : Move t s f gs s') :
    ∀ g ∈ gs, g.InIdle := by
  intro g hg
  cases hf with
  | intrSetLevel =>
      obtain ⟨rfl, -⟩ := h.of_level
      cases hg
  | kernelThread =>
      cases h with
      | quiet h =>
          cases h with
          | preempt hc => cases hc.1
          | preemptEnd | kernelThread => cases hg
      | down hd | wait hd => cases hd
      | take ht => cases ht
  | semaUp =>
      cases h with
      | quiet h => cases h with | preempt hc | preemptEnd hc => cases hc.1
      | down hd | wait hd => cases hd
      | take ht => cases ht
      | up hp =>
          obtain rfl := List.mem_singleton.mp hg
          exact .preempts hp
  | preempts hf =>
      cases h with
      | quiet h =>
          cases h with
          | preempt _ hp =>
              obtain rfl := List.mem_singleton.mp hg
              exact .preempts hp
          | preemptEnd => cases hg
          | threadYield =>
              obtain rfl := List.mem_singleton.mp hg
              exact .intrSetLevel
          | _ => cases hf
      | down hd | wait hd => cases hd <;> cases hf
      | take ht => cases ht <;> cases hf
      | _ => cases hf

theorem Frame.IsIdle.move {f : Frame} {gs : List Frame} (hf : f.IsIdle) (h : Move t s f gs s') :
    Idling gs := by
  cases hf with
  | idle =>
      cases h with
      | quiet h => cases h with | preempt hc | preemptEnd hc => cases hc.1
      | down hd | wait hd => cases hd
      | take ht => cases ht
      | idle =>
          refine ⟨[.semaUp .idleStarted], _, rfl, ?_, .idleLoop⟩
          intro g hg
          obtain rfl := List.mem_singleton.mp hg
          exact .semaUp
  | idleLoop =>
      cases h with
      | quiet h =>
          cases h with
          | preempt hc | preemptEnd hc => cases hc.1
          | idleLoop => exact ⟨[], _, rfl, by simp, .idleResume⟩
      | down hd | wait hd => cases hd
      | take ht => cases ht
  | idleResume =>
      cases h with
      | quiet h =>
          cases h with
          | preempt hc | preemptEnd hc => cases hc.1
          | idleResume => exact ⟨[], _, rfl, by simp, .idleHalt⟩
      | down hd | wait hd => cases hd
      | take ht => cases ht
  | idleHalt =>
      cases h with
      | quiet h => cases h with | preempt hc | preemptEnd hc => cases hc.1
      | down hd | wait hd => cases hd
      | take ht => cases ht

theorem Idling.ne_nil {fs : List Frame} (h : Idling fs) : fs ≠ [] := by
  obtain ⟨gs, x, rfl, -⟩ := h
  simp

theorem Idling.mem {f : Frame} {fs : List Frame} (h : Idling fs) (hf : f ∈ fs) :
    f.InIdle ∨ f.IsIdle := by
  obtain ⟨gs, x, rfl, hg, hx⟩ := h
  rcases List.mem_append.mp hf with hf | hf
  · exact .inl (hg f hf)
  · obtain rfl := List.mem_singleton.mp hf
    exact .inr hx

theorem Idling.append {fs gs : List Frame} (h : Idling fs) (hg : ∀ g ∈ gs, g.InIdle) :
    Idling (gs ++ fs) := by
  obtain ⟨gs', x, rfl, hgs, hx⟩ := h
  refine ⟨gs ++ gs', x, by simp, ?_, hx⟩
  intro f hf
  obtain hf | hf := List.mem_append.mp hf
  · exact hg f hf
  · exact hgs f hf

theorem Idling.move {f : Frame} {fs gs : List Frame} (h : Idling (f :: fs))
    (hm : Move t s f gs s') : Idling (gs ++ fs) := by
  obtain ⟨ls, x, he, hl, hx⟩ := h
  cases ls with
  | nil =>
      obtain ⟨rfl, rfl⟩ := by simpa using he
      simpa using hx.move hm
  | cons l ls =>
      obtain ⟨rfl, rfl⟩ := by simpa using he
      have hfs : Idling (ls ++ [x]) := ⟨ls, x, rfl, fun g hg => hl g (by simp [hg]), hx⟩
      exact hfs.append ((hl f (by simp)).move hm)

theorem Idling.halt {fs : List Frame} (h : Idling (.idleHalt :: fs)) : fs = [] := by
  obtain ⟨ls, x, he, hl, hx⟩ := h
  cases ls with
  | nil => simpa using (List.cons.inj he).2
  | cons l ls =>
      obtain ⟨rfl, -⟩ := by simpa using he
      rcases hl .idleHalt (by simp) with - | - | ⟨⟨⟩⟩

theorem Idling.interrupted {fs fs' : List Frame} (h : Idling fs) (hi : Interrupted fs fs') :
    Idling fs' := by
  have hlevel : ∀ g ∈ [Frame.intrSetLevel true], g.InIdle := by
    intro g hg
    obtain rfl := List.mem_singleton.mp hg
    exact .intrSetLevel
  have hloop : Idling [.idleLoop] := ⟨[], _, rfl, by simp, .idleLoop⟩
  cases hi with
  | halt =>
      obtain rfl := h.halt
      exact hloop
  | haltYield =>
      obtain rfl := h.halt
      exact hloop.append hlevel
  | none => exact h
  | yield => exact h.append hlevel

/-! ### The invariant of a run -/

theorem Entry.not_createsIdle {e : Entry} {f : Frame} (hf : f ∈ e.stack) : ¬ f.CreatesIdle := by
  cases e with
  | user =>
      obtain rfl := List.mem_singleton.mp hf
      exact nofun
  | idle =>
      obtain rfl | rfl := by simpa [Entry.stack] using hf
      all_goals exact nofun

/-- A step of the thread that runs `thread_start`, before or at the creation
of the idle thread. -/
theorem Sync.Inv.starting_step (I : s.Inv) (h : Sync.Step okCall t s s')
    (h1 : s.nextThread = 1) :
    (s'.nextThread = 1 ∧ Starting (s'.stack 0) ∧ s'.value .idleStarted = 0) ∨
      (s'.nextThread = 2 ∧ (∀ u, ∀ f ∈ s'.stack u, ¬ f.CreatesIdle) ∧ Idling (s'.stack 1)) := by
  obtain ⟨hst, hv⟩ := I.starting h1
  cases h with
  | call _ he ht =>
      obtain rfl : t = 0 := Nat.lt_one_iff.mp (h1 ▸ ht)
      exact absurd he hst.ne_nil
  | interrupt hi hh ht =>
      obtain rfl : t = 0 := Nat.lt_one_iff.mp (h1 ▸ ht)
      refine .inl ⟨by cases hh <;> exact h1, by simpa using hst.interrupted hi, ?_⟩
      cases hh <;> simpa using hv
  | @run f fs gs s₁ e hm =>
      have ht : t < s.nextThread := I.unborn.lt (by simp [e])
      obtain rfl : t = 0 := Nat.lt_one_iff.mp (h1 ▸ ht)
      obtain ⟨hs, ho⟩ := hm.stack_run I.unborn e
      obtain ⟨hg, hn, hv'⟩ | ⟨rfl, rfl, hf⟩ := Starting.move (s := s.setStack 0 fs) (e ▸ hst) hv hm
      · exact .inl ⟨hn.trans h1, by simpa [hs] using hg, by simpa [hv'] using hv⟩
      · have hgs : ∀ g ∈ gs, ¬ g.CreatesIdle := fun g hg hi =>
          Nat.succ_ne_self s.nextThread (congrArg Sync.nextThread (hm.createsIdle hg hi).2)
        refine .inr ⟨congrArg (· + 1) h1, ?_, ?_⟩
        · intro u g hgm
          by_cases hu : u = 0
          · subst hu
            simp only [Sync.setStack_stack, Function.update_self, hs] at hgm
            obtain hgm | hgm := List.mem_append.mp hgm
            · exact hgs g hgm
            · obtain rfl := List.mem_singleton.mp hgm
              exact nofun
          · by_cases hu1 : u = 1
            · subst hu1
              have hgi : g ∈ Entry.idle.stack := by simpa [h1] using hgm
              exact Entry.not_createsIdle hgi
            · have hnil : s.stack u = [] := by
                refine I.unborn u ?_
                rw [h1]
                exact Nat.one_le_iff_ne_zero.mpr hu
              simp [h1, hu, hu1, hnil] at hgm
        · have hidle : Idling Entry.idle.stack := by
            refine ⟨[.kernelThread], _, rfl, ?_, .idle⟩
            intro g hg
            obtain rfl := List.mem_singleton.mp hg
            exact .kernelThread
          simpa [h1] using hidle

theorem Sync.Inv.started_step (I : s.Inv) (h : Sync.Step okCall t s s')
    (hno : ∀ u, ∀ f ∈ s.stack u, ¬ f.CreatesIdle) : ∀ u, ∀ f ∈ s'.stack u, ¬ f.CreatesIdle := by
  refine h.frames I.unborn hno (fun _ _ _ _ hQ => hQ) ?_ ?_ ?_ nofun (fun _ => nofun)
  · exact fun c _ _ _ => c.not_createsIdle
  · exact fun f fs gs s₁ _ hm _ hQ g hg hi => hQ (hm.createsIdle hg hi).1
  · exact fun p e n r _ f hf => Entry.not_createsIdle hf

/-- There was no page for the idle thread. -/
structure Stranded (s : Sync) : Prop where
  nextThread : s.nextThread = 1
  frames : ∀ u, ∀ f ∈ s.stack u, ¬ f.CreatesIdle

/-- **Without an idle thread** no thread is ever created. -/
theorem Stranded.step (S : Stranded s) (I : s.Inv) (h : Sync.Step okCall t s s') : Stranded s' where
  nextThread := by
    have h1 := S.nextThread
    obtain ⟨hst, hv⟩ := I.starting h1
    cases h with
    | call => exact h1
    | interrupt _ hh => cases hh <;> exact h1
    | @run f fs gs s₁ e hm =>
        have ht : t < s.nextThread := I.unborn.lt (by simp [e])
        obtain rfl : t = 0 := Nat.lt_one_iff.mp (h1 ▸ ht)
        obtain ⟨-, hn, -⟩ | ⟨-, -, hf⟩ :=
          Starting.move (s := s.setStack 0 fs) (e ▸ hst) hv hm
        · exact hn.trans h1
        · exact absurd hf (S.frames 0 f (e ▸ .head fs))
  frames := I.started_step h S.frames

theorem Sync.Inv.idling_step (I : s.Inv) (h : Sync.Step okCall t s s') (h1 : 1 < s.nextThread) :
    Idling (s'.stack 1) := by
  have hid := I.idling h1
  cases h with
  | call _ he =>
      by_cases ht : 1 = t
      · subst ht
        exact absurd he hid.ne_nil
      · simpa [ht] using hid
  | interrupt hi hh =>
      by_cases ht : 1 = t
      · subst ht
        simpa using hid.interrupted hi
      · cases hh <;> simpa [ht] using hid
  | @run f fs gs s₁ e hm =>
      obtain ⟨hs, ho⟩ := hm.stack_run I.unborn e
      by_cases ht : 1 = t
      · subst ht
        simpa [hs] using (e ▸ hid).move hm
      · obtain ho | ⟨-, -, -, -, -, hn, -⟩ := ho 1 ht
        · simpa [ht, ho] using hid
        · exact absurd hn h1.ne

theorem Local.idle_not_mem {f : Frame} {gs : List Frame} (h : Local f gs) : .idle ∉ gs := by
  cases h with
  | preempt _ hp | threadCreateUnblock hp =>
      intro hg
      obtain rfl := List.mem_singleton.mp hg
      cases hp
  | _ => simp

theorem Move.idle_not_mem {f : Frame} {gs : List Frame} (h : Move t s f gs s') : .idle ∉ gs := by
  cases h with
  | quiet h => exact h.idle_not_mem
  | up hp =>
      intro hg
      obtain rfl := List.mem_singleton.mp hg
      cases hp
  | _ => simp

/-- A thread is once in front of `idle`. -/
theorem Sync.Inv.idle_step (I : s.Inv) (h : Sync.Step okCall t s s') (h1 : 1 < s.nextThread)
    (hi : .idle ∉ s.stack 1) : .idle ∉ s'.stack 1 := by
  have hstep : ∀ u, ∀ f ∈ s'.stack u, u = 1 → f ≠ .idle := by
    refine h.frames I.unborn (Q := fun u f => u = 1 → f ≠ .idle) ?_ (fun _ _ _ _ hQ => hQ)
      ?_ ?_ ?_ nofun (fun _ => nofun)
    · rintro u f hf rfl rfl
      exact hi hf
    · intro c _ _ _ _ hc
      cases c <;> cases hc
    · rintro f fs gs s₁ _ hm _ _ g hg _ rfl
      exact hm.idle_not_mem hg
    · intro p e n r _ f _ hu
      exact absurd hu h1.ne'
  exact fun hm => hstep 1 _ hm rfl rfl

theorem Sync.Inv.idleThread_step (I : s.Inv) (h : Sync.Step okCall t s s') :
    ∀ u, s'.idleThread = some u → u = 1 ∧ 1 < s'.nextThread ∧ .idle ∉ s'.stack 1 := by
  intro u hu
  have hold : s.idleThread = some u → u = 1 ∧ 1 < s'.nextThread ∧ .idle ∉ s'.stack 1 := by
    intro hu
    obtain ⟨h1, h2, h3⟩ := I.idleThread u hu
    exact ⟨h1, h2.trans_le h.nextThread_le, I.idle_step h h2 h3⟩
  have hle := h.nextThread_le
  cases h with
  | call => exact hold hu
  | interrupt _ hh => cases hh <;> exact hold hu
  | @run f fs gs s₁ e hm =>
      obtain ⟨hs, -⟩ := hm.stack_run I.unborn e
      cases hm with
      | idle =>
          obtain rfl : t = u := by simpa using hu
          obtain rfl : t = 1 := (I.frameOk t _ (by simp [e])).idle_eq .idle
          have h1 : 1 < s.nextThread := I.unborn.lt (by simp [e])
          refine ⟨rfl, h1.trans_le hle, ?_⟩
          obtain ⟨gs, x, he, hg, -⟩ := I.idling h1
          rw [e] at he
          cases gs with
          | nil =>
              obtain ⟨-, rfl⟩ := by simpa using he
              simp
          | cons g gs =>
              obtain ⟨rfl, -⟩ := by simpa using he
              cases hg .idle (by simp) with
              | preempts hp => cases hp
      | _ => exact hold hu

/-- **The control invariants are kept by every step.** -/
theorem Sync.Inv.step (I : s.Inv) (h : Sync.Step okCall t s s') : s'.Inv where
  unborn := h.unborn I.unborn
  stacked := h.stacked I.unborn I.stacked
  frameOk := I.frameOk_step h
  waiter_lt := I.waiter_lt_step h
  owner := I.owner_step h
  pos := lt_of_lt_of_le I.pos h.nextThread_le
  starting := by
    intro h1
    have hle := h.nextThread_le
    have hs1 : s.nextThread = 1 := le_antisymm (h1 ▸ hle) I.pos
    obtain ⟨-, hs⟩ | ⟨h2, -⟩ := I.starting_step h hs1
    · exact hs
    · rw [h1] at h2
      cases h2
  started := by
    intro h1
    by_cases hs1 : s.nextThread = 1
    · obtain ⟨h2, -⟩ | ⟨-, hs, -⟩ := I.starting_step h hs1
      · rw [h2] at h1
        exact absurd h1 (lt_irrefl _)
      · exact hs
    · exact I.started_step h (I.started (lt_of_le_of_ne I.pos (Ne.symm hs1)))
  idling := by
    intro h1
    by_cases hs1 : s.nextThread = 1
    · obtain ⟨h2, -⟩ | ⟨-, -, hs⟩ := I.starting_step h hs1
      · rw [h2] at h1
        exact absurd h1 (lt_irrefl _)
      · exact hs
    · exact I.idling_step h (lt_of_le_of_ne I.pos (Ne.symm hs1))
  idleThread := I.idleThread_step h

theorem boot_inv (cfg : Config) : (boot cfg).sync.Inv where
  unborn := by
    intro u hu
    have hu0 : u ≠ 0 := Nat.one_le_iff_ne_zero.mp hu
    simp [boot, hu0]
  stacked := by
    intro u
    by_cases hu : u = 0
    · subst hu
      exact ⟨.inr ⟨_, .threadStart, .inl .threadCreate⟩, .inr ⟨_, .user, nofun⟩, trivial⟩
    · simp [boot, hu, Stacked]
  frameOk := by
    intro u f hf
    by_cases hu : u = 0
    · subst hu
      obtain rfl | rfl : f = .threadCreate priMin .idle ∨ f = .threadStart := by
        simpa [boot] using hf
      all_goals exact ⟨by simp [Frame.records], by simp [Frame.created], nofun⟩
    · simp [boot, hu] at hf
  waiter_lt := by simp [boot]
  owner := by
    intro x
    refine ⟨0, fun u f hf hx => ?_⟩
    by_contra hu
    simp [boot, hu] at hf
  pos := Nat.one_pos
  starting := fun _ => ⟨.creates .threadCreate, rfl⟩
  started := fun h => absurd h (lt_irrefl 1)
  idling := fun h => absurd h (lt_irrefl 1)
  idleThread := by simp [boot]

/-- **The control invariants hold in every run.** -/
theorem Sync.Reachable.inv {cfg : Config} (h : Sync.Reachable cfg okCall s) : s.Inv := by
  induction h with
  | refl => exact boot_inv cfg
  | tail _ hstep ih =>
      obtain ⟨u, hstep⟩ := hstep
      exact ih.step hstep

end Pintos
