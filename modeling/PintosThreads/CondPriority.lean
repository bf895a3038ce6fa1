/-
PintosThreads/CondPriority.lean

Condition variables serve their waiters by priority.

The calls of `cond_signal` and `cond_broadcast` are followed through a run in
which other threads and interrupts take steps at any time (`Serving`), with the
records whose owners have been woken, the steps of the calling thread and the
interrupts that it has had.  The caller holds the lock, so that nobody else
changes the queue, and nobody else raises a record in it: what the call does is
a matter of its own phases (`InService.step`).  So `cond_signal` wakes the earliest
of the waiters of highest priority, and `cond_broadcast` wakes all of them in
the order of a stable sort (`cond_wakes_by_priority`), unless its `sema_up` fails
the assertion of `list_front`: `check_preemption` looks at `ready_list` twice with
interrupts on, and the list may be empty the second time
(`cond_broadcast_ends_early`).
-/
import PintosThreads.CondPhases
import PintosThreads.RecordOwners
import PintosThreads.WaiterOrder

namespace Pintos

open Intrusive StableQueue

variable {cfg : Config} {fuel : ℕ} {srt : Prop} {ok : Kernel → Label → Prop}
variable {k k₁ k' : Kernel} {lab : Label} {lockOf : CondPtr → LockPtr} {c : CondPtr}
variable {own : WaiterPtr → ThreadPtr} {key : WaiterPtr → ℤ} {ws us : List WaiterPtr}
variable {t u : ThreadPtr} {w m : WaiterPtr} {fs : List Frame}

/-! ### Who waits on a record -/

/-- What holds in the states of the runs. -/
structure CondState (cfg : Config) (lockOf : CondPtr → LockPtr) (k : Kernel) : Prop where
  good : Good cfg False k
  control : Control k
  cond : CondInv lockOf k.sync
  owned : k.sync.Owned
  cur_lt : k.cur < k.nextThread

/-- The owner of a record is alone in its list. -/
theorem CondState.waiters (S : CondState cfg lockOf k) (h : Waiting k (.ofWaiter w) u) :
    IsList k.elems (.semaWaiters (.ofWaiter w)) [u] := by
  obtain ⟨xs, hx⟩ := S.good.waiters_isList (S.control.waiting h)
  obtain ⟨-, hmem⟩ := S.good.waiting_iff hx
  obtain ⟨o, ho⟩ := S.owned w
  have howner : ∀ v, Waiting k (.ofWaiter w) v → v = o := by
    intro v hv
    obtain ⟨old, gs, e⟩ := hv.stack
    refine ho v (.semaDownWait (.ofWaiter w) old) ?_ .semaDownWait
    rw [Kernel.sync_stack, e]
    exact .head _
  have hall : ∀ v ∈ xs, v = u := fun v hv =>
    (howner v ((hmem v).mp hv)).trans (howner u h).symm
  have hu : u ∈ xs := (hmem u).mpr h
  obtain ⟨y, ys, rfl⟩ := List.exists_cons_of_ne_nil (List.ne_nil_of_mem hu)
  obtain ⟨hy, -⟩ := List.nodup_cons.mp hx.nodup
  obtain rfl := hall y (.head _)
  rcases ys with - | ⟨z, zs⟩
  · exact hx
  · exact absurd (hall z (.tail _ (.head _)) ▸ .head _) hy

/-- The owner of a record that is not raised goes on waiting. -/
theorem CondState.still_waiting (S : CondState cfg lockOf k) (S' : CondState cfg lockOf k')
    (hT : Tame cfg False k lab) (h : step cfg fuel k lab = some k')
    (hw : Waiting k (.ofWaiter w) u) (hno : ¬ lab.Ups k (.ofWaiter w)) :
    Waiting k' (.ofWaiter w) u := by
  have hl := S.waiters hw
  have hwaits : ∀ xs, IsList k'.elems (.semaWaiters (.ofWaiter w)) xs → u ∈ xs →
      Waiting k' (.ofWaiter w) u := fun xs hx hu => ((S'.good.waiting_iff hx).2 u).mp hu
  rcases S.good.stepWaiters S.control hT (S.control.waiting hw) h with
    ⟨-, hs⟩ | ⟨-, e, hd, -⟩ | ⟨hu, -⟩
  · exact hwaits [u] (hs _ hl) (.head _)
  · -- nobody else downs the semaphore of the record
    obtain ⟨o, ho⟩ := S.owned w
    obtain ⟨old, gs, ew⟩ := hw.stack
    have hcur : k.cur = o := ho k.cur _ (by rw [Kernel.sync_stack, e]; exact .head _) hd
    have hd' : (Frame.semaDownWait (.ofWaiter w) old).Downs (.ofWaiter w) := .semaDownWait
    have hown : u = o := ho u _ (by rw [Kernel.sync_stack, ew]; exact .head _) hd'
    exact absurd (hown.trans hcur.symm) (S.good.waiting_ne_cur hw)
  · exact absurd hu hno

/-- The owner of a record that is raised is woken. -/
theorem CondState.stops_waiting (S : CondState cfg lockOf k) (S' : CondState cfg lockOf k')
    (hT : Tame cfg False k lab) (h : step cfg fuel k lab = some k')
    (hw : Waiting k (.ofWaiter w) u) (hu : lab.Ups k (.ofWaiter w)) :
    ¬ Waiting k' (.ofWaiter w) u := by
  intro hw'
  exact (S.good.ups S'.good S.control hT S.cur_lt hu h (S.waiters hw)).1 hw'.1

/-! ### Who is woken -/

/-- The records of `ws` whose owners the step from `k` to `k'` wakes. -/
def woken (own : WaiterPtr → ThreadPtr) (ws : List WaiterPtr) (k k' : Kernel) : List WaiterPtr :=
  ws.filter fun w => Waiting k (.ofWaiter w) (own w) ∧ ¬ Waiting k' (.ofWaiter w) (own w)

theorem CondState.woken_eq_nil (S : CondState cfg lockOf k) (S' : CondState cfg lockOf k')
    (hT : Tame cfg False k lab) (h : step cfg fuel k lab = some k')
    (hno : ∀ w ∈ ws, ¬ lab.Ups k (.ofWaiter w)) : woken own ws k k' = [] := by
  refine List.filter_eq_nil_iff.mpr fun w hw => ?_
  rw [decide_eq_true_eq, not_and_not_right]
  exact fun hwait => S.still_waiting S' hT h hwait (hno w hw)

theorem Label.Ups.run {p : SemaPtr} (h : lab.Ups k p) (hp : ∀ n, p ≠ .user n) :
    lab = .run ∧ ∃ gs, k.stack k.cur = .semaUp p :: gs := by
  rcases h with h | ⟨n, hn, -⟩
  · exact h
  · exact absurd hn (hp n)

theorem CondState.woken_eq_singleton (S : CondState cfg lockOf k) (S' : CondState cfg lockOf k')
    (hT : Tame cfg False k lab) (h : step cfg fuel k lab = some k') (hnd : ws.Nodup)
    (hm : m ∈ ws) (hw : Waiting k (.ofWaiter m) (own m)) (hu : lab.Ups k (.ofWaiter m)) :
    woken own ws k k' = [m] := by
  have hiff : ∀ w ∈ ws, decide (Waiting k (.ofWaiter w) (own w) ∧
      ¬ Waiting k' (.ofWaiter w) (own w)) = decide (w = m) := by
    intro w hws
    refine decide_eq_decide.mpr ⟨fun ⟨hwait, hnot⟩ => ?_, ?_⟩
    · by_contra hne
      refine hnot (S.still_waiting S' hT h hwait fun hu' => hne ?_)
      obtain ⟨-, gs, e⟩ := hu.run (fun _ => nofun)
      obtain ⟨-, gs', e'⟩ := hu'.run (fun _ => nofun)
      rw [e] at e'
      cases e'
      rfl
    · rintro rfl
      exact ⟨hw, S.stops_waiting S' hT h hw hu⟩
  rw [woken, List.filter_congr hiff]
  rw [List.filter_eq, hnd.count, if_pos hm]
  rfl

theorem CondStep.ups_le {s s' : Sync} (h : CondStep t s s') (w : WaiterPtr) :
    ups s.events (.ofWaiter w) ≤ ups s'.events (.ofWaiter w) := by
  cases h with
  | quiet _ _ hu => exact (hu w).ge
  | publish _ _ he | remove _ _ _ he => exact he ▸ le_rfl
  | raise _ _ _ he =>
      rw [he, ups_up]
      exact Nat.le_add_right ..

/-- A record is raised once. -/
theorem CondState.ups_eq_one (S : CondState cfg lockOf k) (S' : CondState cfg lockOf k')
    (h : step cfg fuel k lab = some k') (hw : ups k.log (.ofWaiter w) = 1) :
    ups k'.log (.ofWaiter w) = 1 := by
  have hs : Sync.Step (fun _ => True) k.cur k.sync k'.sync :=
    (step_sync S.cur_lt (fun _ _ => trivial) h).1
  have hle := (hs.condStep S.control.inv).ups_le w
  have hone := (S'.cond.account w).2
  rw [ups_sync] at hone hle
  rw [ups_sync] at hle
  omega

theorem ups_raise {gs : List Frame} (e : k.stack k.cur = .semaUp (.ofWaiter m) :: gs)
    (h : step cfg fuel k .run = some k') :
    ups k'.log (.ofWaiter m) = ups k.log (.ofWaiter m) + 1 := by
  rw [step_run e] at h
  obtain ⟨k₁, h₁, rfl⟩ := Option.map_eq_some_iff.mp h
  obtain ⟨hs, -⟩ := semaUpBody_sync h₁
  show ups k₁.log _ = _
  rw [← ups_sync, hs, Sync.up_events, ups_up, if_pos rfl, ups_sync]
  rfl

/-! ### The calling thread -/

/-- The frames of `cond_signal` and `cond_broadcast`, with those of their preemption checks. -/
def Frame.OfCall (cfg : Config) (f : Frame) : Prop :=
  f.Nested cfg ∨ f.Signals ∨ ∃ c l, f = .condBroadcast c l

/-- The caller keeps the lock. -/
theorem CondState.holder_kept {f : Frame} {l : LockPtr} (S : CondState cfg lockOf k)
    (e : k.stack t = f :: fs) (hf : f.OfCall cfg) (hh : k.lockHolder l = some t)
    (h : step cfg fuel k lab = some k') : k'.lockHolder l = some t := by
  have hs : Sync.Step (fun _ => True) k.cur k.sync k'.sync :=
    (step_sync S.cur_lt (fun _ _ => trivial) h).1
  rcases (S.control.lock l).holder_stable S.control.inv hs hh with hh | ⟨rfl, gs, e'⟩
  · exact hh
  · have e' : k.stack k.cur = .lockReleaseBody l :: gs := e'
    rw [e] at e'
    obtain ⟨rfl, -⟩ := List.cons.inj e'
    obtain hf | hf | ⟨c, m, hf⟩ := hf <;> cases hf

/-- An interrupt of the calling thread leaves it where it is, or with a yield to return from. -/
theorem CondState.interrupted {f : Frame} (S : CondState cfg lockOf k)
    (e : k.stack k.cur = f :: fs) (hf : f.OfCall cfg) (hl : lab ≠ .run)
    (h : step cfg fuel k lab = some k') : k'.condWaiters = k.condWaiters ∧
      (k'.stack k.cur = k.stack k.cur ∨ k'.stack k.cur = .intrSetLevel true :: k.stack k.cur) := by
  obtain ⟨hs, -⟩ := step_syncStep S.cur_lt h
  show k'.sync.waiters = _ ∧ (k'.sync.stack k.cur = _ ∨ k'.sync.stack k.cur = _)
  generalize k'.sync = s' at hs
  cases hs with
  | call hnil =>
      rw [e] at hnil
      cases hnil
  | run => exact absurd rfl hl
  | @interrupt _ fs' s₁ _ hi hh =>
      have hw : s₁.waiters = k.condWaiters := by cases hh <;> rfl
      refine ⟨hw, ?_⟩
      rw [Sync.setStack_stack, Function.update_self]
      generalize k.stack k.cur = st at hi e
      cases hi with
      | halt | haltYield =>
          obtain ⟨rfl, -⟩ := List.cons.inj e
          obtain hf | hf | ⟨c, m, hf⟩ := hf <;> cases hf
      | none => exact .inl rfl
      | yield => exact .inr rfl

/-- Another thread changes neither the stack of the caller nor the queue. -/
theorem CondState.others {f : Frame} (S : CondState cfg lockOf k) (e : k.stack t = f :: fs)
    (hh : k.lockHolder (lockOf c) = some t) (ht : t ≠ k.cur)
    (h : step cfg fuel k lab = some k') :
    k'.condWaiters c = k.condWaiters c ∧ k'.stack t = k.stack t := by
  have hs : Sync.Step (fun _ => True) k.cur k.sync k'.sync :=
    (step_sync S.cur_lt (fun _ _ => trivial) h).1
  refine ⟨?_, ?_⟩
  · rcases S.cond.queue_cases hs c with hq | ⟨hc, -⟩
    · exact hq
    · exact absurd (Option.some.inj (hh.symm.trans hc)) ht
  · rcases hs.stack_of_ne S.control.inv ht with e' | ⟨rfl, -⟩
    · exact e'
    · have hu : k.stack k.nextThread = [] := S.control.inv.unborn k.nextThread le_rfl
      exact absurd (e.symm.trans hu) (List.cons_ne_nil f _)

/-- A preemption check leaves the queue alone. -/
theorem CondState.nested_queue {f : Frame} (S : CondState cfg lockOf k)
    (e : k.stack k.cur = f :: fs) (hf : f.Nested cfg) (h : step cfg fuel k lab = some k') :
    k'.condWaiters c = k.condWaiters c := by
  have hs : Sync.Step (fun _ => True) k.cur k.sync k'.sync :=
    (step_sync S.cur_lt (fun _ _ => trivial) h).1
  rcases S.cond.queue_cases hs c with hq | ⟨-, g, gs, e', hg⟩
  · exact hq
  · have e' : k.stack k.cur = g :: gs := e'
    rw [e] at e'
    obtain ⟨rfl, -⟩ := List.cons.inj e'
    cases hg <;> cases hf

/-! ### Calls in a run -/

/-- A run from state `k` in which thread `t` is in a call that will return to the code whose frames
are `fs`, and in which the priorities of the threads that wait on the records `ws` do not change:
the records whose owners have been woken, in this order, the number of steps of thread `t`, and the
number of interrupts that have come while it was running. -/
inductive Serving (cfg : Config) (ok : Kernel → Label → Prop) (t : ThreadPtr) (fs : List Frame)
    (own : WaiterPtr → ThreadPtr) (ws : List WaiterPtr) (k : Kernel) :
    List WaiterPtr → ℕ → ℕ → Kernel → Prop
  | start : Serving cfg ok t fs own ws k [] 0 0 k
  | step {us : List WaiterPtr} {n i fuel : ℕ} {k₁ k₂ : Kernel} {lab : Label} :
      Serving cfg ok t fs own ws k us n i k₁ → k₁.stack t ≠ fs → ok k₁ lab →
      Pintos.step cfg fuel k₁ lab = some k₂ →
      (∀ w ∈ ws, Waiting k₁ (.ofWaiter w) (own w) → Waiting k₂ (.ofWaiter w) (own w) →
        (k₂.thr (own w)).priority = (k₁.thr (own w)).priority) →
      Serving cfg ok t fs own ws k (us ++ woken own ws k₁ k₂)
        (if k₁.cur = t ∧ lab = .run then n + 1 else n)
        (if k₁.cur = t ∧ lab ≠ .run then i + 1 else i) k₂

/-- A call that goes through the phases `P` has raised the records `us` after `n` steps and `i`
interrupts. -/
structure InService (cfg : Config) (lockOf : CondPtr → LockPtr) (c : CondPtr) (t : ThreadPtr)
    (fs : List Frame) (own : WaiterPtr → ThreadPtr) (key : WaiterPtr → ℤ) (ws : List WaiterPtr)
    (P : List Frame → List WaiterPtr → List WaiterPtr → ℕ → Prop) (total : ℕ)
    (us : List WaiterPtr) (n i : ℕ) (k : Kernel) : Prop where
  stack : ∃ gs body r, k.stack t = gs ++ (body ++ fs) ∧ (∀ g ∈ gs, g.Nested cfg) ∧
    P body (k.condWaiters c) us r ∧ n + (checkSteps gs + r) ≤ total + i
  holder : k.lockHolder (lockOf c) = some t
  waits : ∀ w ∈ ws, w ∉ us →
    Waiting k (.ofWaiter w) (own w) ∧ (k.thr (own w)).priority = key w
  raised : ∀ w ∈ us, ups k.log (.ofWaiter w) = 1

section

variable {P : List Frame → List WaiterPtr → List WaiterPtr → ℕ → Prop} {total n i n' i' : ℕ}

theorem InService.not_raised (H : InService cfg lockOf c t fs own key ws P total us n i k)
    (hw : ups k.log (.ofWaiter w) = 0) : w ∉ us := by
  intro hus
  rw [H.raised w hus] at hw
  cases hw

/-- The records in the queue are waited on, by threads of known priorities. -/
theorem InService.waited (H : InService cfg lockOf c t fs own key ws P total us n i k)
    (hP : Phases c own key ws P) (S : CondState cfg lockOf k) :
    ∀ w ∈ k.condWaiters c, Waited own key k w := by
  obtain ⟨gs, body, r, -, -, hPh, -⟩ := H.stack
  intro w hw
  have h0 := (S.cond.queued c w hw).1
  rw [ups_sync] at h0
  obtain ⟨hwait, hkey⟩ := H.waits w (hP.queued hPh w hw) (H.not_raised h0)
  exact ⟨S.waiters hwait, hkey⟩

/-- Only the call raises records of `ws`. -/
theorem InService.ups_own (H : InService cfg lockOf c t fs own key ws P total us n i k)
    (hP : Phases c own key ws P) (S : CondState cfg lockOf k) (hw : w ∈ ws)
    (hu : lab.Ups k (.ofWaiter w)) :
    lab = .run ∧ k.cur = t ∧ ∃ gs, k.stack t = .semaUp (.ofWaiter w) :: gs := by
  obtain ⟨gs, body, r, e, -, hPh, -⟩ := H.stack
  obtain ⟨rfl, hs, es⟩ := hu.run (fun _ => nofun)
  have hmem : .semaUp (.ofWaiter w) ∈ k.sync.stack k.cur := by
    rw [Kernel.sync_stack, es]
    exact .head _
  obtain ⟨h0, hunique⟩ := S.cond.raising k.cur w hmem
  rw [ups_sync] at h0
  have hcur : k.cur = t := by
    rcases hP.pending hPh w hw (H.not_raised h0) with hq | hb
    · exact absurd hmem ((S.cond.queued c w hq).2 k.cur)
    · refine (hunique t ?_).symm
      rw [Kernel.sync_stack, e]
      exact List.mem_append_right _ (List.mem_append_left _ hb)
  exact ⟨rfl, hcur, hs, hcur ▸ es⟩

/-- The frame that thread `t` is at is one of a preemption check or of the call. -/
theorem InService.head (H : InService cfg lockOf c t fs own key ws P total us n i k)
    (hP : Phases c own key ws P) (hne : k.stack t ≠ fs) :
    ∃ f gs, k.stack t = f :: gs ∧ f.OfCall cfg := by
  obtain ⟨gs, body, r, e, hgs, hPh, -⟩ := H.stack
  rcases gs with - | ⟨g, gs⟩
  · rcases body with - | ⟨f, body⟩
    · exact absurd e hne
    · exact ⟨f, body ++ fs, e, .inr ((hP.frames hPh f (.head _)).imp_right fun h => ⟨c, h⟩)⟩
  · exact ⟨g, gs ++ (body ++ fs), e, .inl (hgs g (.head _))⟩

/-- The caller keeps the lock. -/
theorem InService.holder_kept (H : InService cfg lockOf c t fs own key ws P total us n i k)
    (hP : Phases c own key ws P) (S : CondState cfg lockOf k) (hne : k.stack t ≠ fs)
    (h : step cfg fuel k lab = some k') : k'.lockHolder (lockOf c) = some t := by
  obtain ⟨f, gs, e, hf⟩ := H.head hP hne
  exact S.holder_kept e hf H.holder h

/-- The threads that wait on the records go on to do so, but for the one whose record is raised. -/
theorem InService.still_waits (H : InService cfg lockOf c t fs own key ws P total us n i k)
    (S : CondState cfg lockOf k) (S' : CondState cfg lockOf k') (hT : Tame cfg False k lab)
    (h : step cfg fuel k lab = some k')
    (hp : ∀ w ∈ ws, Waiting k (.ofWaiter w) (own w) → Waiting k' (.ofWaiter w) (own w) →
      (k'.thr (own w)).priority = (k.thr (own w)).priority)
    (hw : w ∈ ws) (hus : w ∉ us) (hno : ¬ lab.Ups k (.ofWaiter w)) :
    Waiting k' (.ofWaiter w) (own w) ∧ (k'.thr (own w)).priority = key w := by
  obtain ⟨hwait, hkey⟩ := H.waits w hw hus
  have hwait' := S.still_waiting S' hT h hwait hno
  exact ⟨hwait', (hp w hw hwait hwait').trans hkey⟩

/-- A step that raises no record and goes on in the same phase. -/
theorem InService.quiet (H : InService cfg lockOf c t fs own key ws P total us n i k)
    (hP : Phases c own key ws P) (S : CondState cfg lockOf k) (S' : CondState cfg lockOf k')
    (hT : Tame cfg False k lab) (hne : k.stack t ≠ fs) (h : step cfg fuel k lab = some k')
    (hp : ∀ w ∈ ws, Waiting k (.ofWaiter w) (own w) → Waiting k' (.ofWaiter w) (own w) →
      (k'.thr (own w)).priority = (k.thr (own w)).priority)
    (hno : ∀ w ∈ ws, ¬ lab.Ups k (.ofWaiter w))
    (hst : ∃ gs body r, k'.stack t = gs ++ (body ++ fs) ∧ (∀ g ∈ gs, g.Nested cfg) ∧
      P body (k'.condWaiters c) us r ∧ n' + (checkSteps gs + r) ≤ total + i') :
    InService cfg lockOf c t fs own key ws P total (us ++ woken own ws k k') n' i' k' := by
  rw [S.woken_eq_nil S' hT h hno, List.append_nil]
  refine ⟨hst, H.holder_kept hP S hne h, fun w hw hus => ?_, fun w hw => ?_⟩
  · exact H.still_waits S S' hT h hp hw hus (hno w hw)
  · exact S.ups_eq_one S' h (H.raised w hw)

/-- **A step of the calling thread in its call.** -/
theorem InService.own_step {body : List Frame} {r : ℕ} {f : Frame}
    (H : InService cfg lockOf c k.cur fs own key ws P total us n i k)
    (hP : Phases c own key ws P) (S : CondState cfg lockOf k) (S' : CondState cfg lockOf k')
    (hT : Tame cfg False k .run) (hnd : ws.Nodup) (hne : k.stack k.cur ≠ fs)
    (h : step cfg fuel k .run = some k')
    (hp : ∀ w ∈ ws, Waiting k (.ofWaiter w) (own w) → Waiting k' (.ofWaiter w) (own w) →
      (k'.thr (own w)).priority = (k.thr (own w)).priority)
    (e : k.stack k.cur = f :: (body ++ fs)) (hPh : P (f :: body) (k.condWaiters c) us r)
    (hr : n + r ≤ total + i) :
    InService cfg lockOf c k.cur fs own key ws P total (us ++ woken own ws k k') (n + 1) i k' := by
  obtain ⟨gs, body', r', hst, hgs, hPh', hlt⟩ := hP.step hPh e (H.waited hP S) h
  have hstack : ∃ gs body r, k'.stack k.cur = gs ++ (body ++ fs) ∧ (∀ g ∈ gs, g.Nested cfg) ∧
      P body (k'.condWaiters c) (us ++ f.raises) r ∧
        n + 1 + (checkSteps gs + r) ≤ total + i :=
    ⟨gs, body', r', hst, hgs, hPh', by omega⟩
  by_cases hf : ∃ m, f = .semaUp (.ofWaiter m)
  · obtain ⟨m, rfl⟩ := hf
    have hm : m ∈ ws := hP.raising hPh m (.head _)
    have hu : Label.run.Ups k (.ofWaiter m) := .inl ⟨rfl, _, e⟩
    have h0 := (S.cond.raising k.cur m (by rw [Kernel.sync_stack, e]; exact .head _)).1
    rw [ups_sync] at h0
    have hus := H.not_raised h0
    rw [S.woken_eq_singleton S' hT h hnd hm (H.waits m hm hus).1 hu]
    refine ⟨hstack, H.holder_kept hP S hne h, fun w hw hus => ?_, fun w hw => ?_⟩
    · rw [List.mem_append, not_or, List.mem_singleton] at hus
      refine H.still_waits S S' hT h hp hw hus.1 fun hu' => hus.2 ?_
      obtain ⟨-, -, gs', e'⟩ := H.ups_own hP S hw hu'
      rw [e] at e'
      cases e'
      rfl
    · rcases List.mem_append.mp hw with hw | hw
      · exact S.ups_eq_one S' h (H.raised w hw)
      · rw [List.mem_singleton.mp hw, ups_raise e h, h0]
  · have hno : ∀ w ∈ ws, ¬ Label.run.Ups k (.ofWaiter w) := by
      intro w hw hu
      obtain ⟨-, -, gs', e'⟩ := H.ups_own hP S hw hu
      rw [e] at e'
      exact hf ⟨w, (List.cons.inj e').1⟩
    have hraises : f.raises = [] := by
      unfold Frame.raises
      split
      · exact absurd ⟨_, rfl⟩ hf
      · rfl
    rw [hraises, List.append_nil] at hstack
    exact H.quiet hP S S' hT hne h hp hno hstack

/-- **One step of a run** in which a call goes through its phases. -/
theorem InService.step (H : InService cfg lockOf c t fs own key ws P total us n i k)
    (hP : Phases c own key ws P) (S : CondState cfg lockOf k) (S' : CondState cfg lockOf k')
    (hT : Tame cfg False k lab) (hnd : ws.Nodup) (hne : k.stack t ≠ fs)
    (h : Pintos.step cfg fuel k lab = some k')
    (hp : ∀ w ∈ ws, Waiting k (.ofWaiter w) (own w) → Waiting k' (.ofWaiter w) (own w) →
      (k'.thr (own w)).priority = (k.thr (own w)).priority) :
    InService cfg lockOf c t fs own key ws P total (us ++ woken own ws k k')
      (if k.cur = t ∧ lab = .run then n + 1 else n)
      (if k.cur = t ∧ lab ≠ .run then i + 1 else i) k' := by
  obtain ⟨gs, body, r, e, hgs, hPh, hr⟩ := id H.stack
  by_cases ht : k.cur = t
  · subst ht
    by_cases hl : lab = .run
    · subst hl
      rw [if_pos ⟨rfl, rfl⟩, if_neg fun h => h.2 rfl]
      rcases gs with - | ⟨g, gs⟩
      · rcases body with - | ⟨f, body⟩
        · exact absurd e hne
        · rw [checkSteps_nil, Nat.zero_add] at hr
          exact H.own_step hP S S' hT hnd hne h hp e hPh hr
      · -- a frame of a preemption check is not one that raises a record
        have hg := hgs g (.head _)
        have hno : ∀ w ∈ ws, ¬ Label.run.Ups k (.ofWaiter w) := by
          intro w hw hu
          obtain ⟨-, -, gs', e'⟩ := H.ups_own hP S hw hu
          rw [e] at e'
          obtain ⟨rfl, -⟩ := List.cons.inj e'
          cases hg
        obtain ⟨gs', hst, hgs', hlt⟩ := hg.step e h
        have hq : k'.condWaiters c = k.condWaiters c := S.nested_queue e hg h
        refine H.quiet hP S S' hT hne h hp hno ⟨gs' ++ gs, body, r, ?_, ?_, hq ▸ hPh, ?_⟩
        · rw [List.append_assoc]
          exact hst
        · exact List.forall_mem_append.mpr ⟨hgs', fun x hx => hgs x (.tail _ hx)⟩
        · rw [checkSteps_append]
          rw [checkSteps_cons] at hr
          omega
    · rw [if_neg fun h => hl h.2, if_pos ⟨rfl, hl⟩]
      have hno : ∀ w ∈ ws, ¬ lab.Ups k (.ofWaiter w) := fun w _ hu =>
        hl (hu.run fun _ => nofun).1
      obtain ⟨f, _, hf, hcall⟩ := H.head hP hne
      obtain ⟨hq, hst⟩ := S.interrupted hf hcall hl h
      have hPh' : P body (k'.condWaiters c) us r := by
        rw [hq]
        exact hPh
      refine H.quiet hP S S' hT hne h hp hno ?_
      rcases hst with hst | hst
      · exact ⟨gs, body, r, hst.trans e, hgs, hPh', by omega⟩
      · refine ⟨.intrSetLevel true :: gs, body, r, by rw [hst, e, List.cons_append], ?_, hPh', ?_⟩
        · exact List.forall_mem_cons.mpr ⟨.intrSetLevel, hgs⟩
        · rw [checkSteps_cons]
          show n + (1 + checkSteps gs + r) ≤ total + (i + 1)
          omega
  · rw [if_neg fun h => ht h.1, if_neg fun h => ht h.1]
    obtain ⟨f, _, hf, -⟩ := H.head hP hne
    obtain ⟨hq, hst⟩ := S.others hf H.holder (Ne.symm ht) h
    refine H.quiet hP S S' hT hne h hp (fun w hw hu => ht (H.ups_own hP S hw hu).2.1) ?_
    exact ⟨gs, body, r, hst.trans e, hgs, hq ▸ hPh, hr⟩

/-- The start of a call. -/
theorem InService.start {f : Frame} (e : k.stack k.cur = f :: fs)
    (hh : k.lockHolder (lockOf c) = some k.cur)
    (hw : ∀ w ∈ k.condWaiters c, Waiting k (.ofWaiter w) (own w))
    (hP : P [f] (k.condWaiters c) [] total) :
    InService cfg lockOf c k.cur fs own (fun w => (k.thr (own w)).priority) (k.condWaiters c) P
      total [] 0 0 k where
  stack := ⟨[], [f], total, e, nofun, hP, by simp⟩
  holder := hh
  waits w hws _ := ⟨hw w hws, rfl⟩
  raised := nofun

theorem InService.steps_le (H : InService cfg lockOf c t fs own key ws P total us n i k) :
    n ≤ total + i := by
  obtain ⟨gs, body, r, -, -, -, hr⟩ := H.stack
  omega

/-- A call that has returned is in its last phase. -/
theorem InService.returned (H : InService cfg lockOf c t fs own key ws P total us n i k)
    (hret : k.stack t = fs) : ∃ r, P [] (k.condWaiters c) us r := by
  obtain ⟨gs, body, r, e, -, hPh, -⟩ := H.stack
  rw [hret, ← List.append_assoc, List.self_eq_append_left, List.append_eq_nil_iff] at e
  obtain ⟨-, rfl⟩ := e
  exact ⟨r, hPh⟩

/-- The calling thread can go on exactly if the assertion of `list_front` in a preemption check
does not fail. -/
theorem InService.isSome (H : InService cfg lockOf c k.cur fs own key ws P total us n i k)
    (hP : Phases c own key ws P) (S : CondState cfg lockOf k) (hne : k.stack k.cur ≠ fs)
    (hf : k.nextThread < fuel) : (Pintos.step cfg fuel k .run).isSome ↔ ¬ FrontFails k := by
  obtain ⟨gs, body, r, e, hgs, hPh, -⟩ := H.stack
  rcases gs with - | ⟨g, gs⟩
  · rcases body with - | ⟨f, body⟩
    · exact absurd e hne
    · have hcall : f ≠ .checkPreemptionFront := by
        rintro rfl
        rcases hP.frames hPh _ (.head _) with hs | ⟨l, hl⟩
        · cases hs
        · cases hl
      refine iff_of_true (hP.isSome hPh e (H.waited hP S) ?_ S.good S.control hf)
        (not_frontFails e hcall)
      rintro l rfl
      have hd : l = lockOf c := S.cond.disciplined k.cur (.condSignal c l) (by
        rw [Kernel.sync_stack, e]
        exact .head _)
      rw [hd]
      exact H.holder
  · exact (hgs g (.head _)).isSome e S.good S.control hf

end

/-- The states of the runs. -/
theorem Reachable.condState (hT : ∀ k lab, Reachable cfg ok k → ok k lab → Tame cfg False k lab)
    (hok : ∀ k c, ok k (.call c) → c.Disciplined lockOf) (hr : Reachable cfg ok k) :
    CondState cfg lockOf k := by
  obtain ⟨hs, hc⟩ := hr.sync hok
  exact ⟨hr.good hT, hr.control, hs.condInv fun _ h => h, hs.owned, hc⟩

/-- **A run of a call** through its phases. -/
theorem Serving.inService {P : List Frame → List WaiterPtr → List WaiterPtr → ℕ → Prop}
    {total n i : ℕ} (hT : ∀ k lab, Reachable cfg ok k → ok k lab → Tame cfg False k lab)
    (hok : ∀ k c, ok k (.call c) → c.Disciplined lockOf) (hr : Reachable cfg ok k)
    (hP : Phases c own key ws P) (hnd : ws.Nodup)
    (H : InService cfg lockOf c t fs own key ws P total [] 0 0 k)
    (h : Serving cfg ok t fs own ws k us n i k') :
    Reachable cfg ok k' ∧ InService cfg lockOf c t fs own key ws P total us n i k' := by
  induction h with
  | start => exact ⟨hr, H⟩
  | step _ hne hlab hstep hp ih =>
      obtain ⟨hr₁, H₁⟩ := ih
      have hr₂ : Reachable cfg ok _ := hr₁.tail ⟨_, _, hlab, hstep⟩
      exact ⟨hr₂, H₁.step hP (hr₁.condState hT hok) (hr₂.condState hT hok) (hT _ _ hr₁ hlab) hnd hne
        hstep hp⟩

/-- **Condition variables serve their waiters by priority.**  If every waiter is blocked on its own
semaphore, and the priorities of the waiters do not change meanwhile, `cond_signal` wakes the
earliest of those of highest priority and keeps the others in their order, and `cond_broadcast`
wakes all of them in the order of a stable sort.  Both come to an end: the caller takes a bounded
number of steps, one more for each interrupt, and each of them can be taken exactly if it is not a
second look of `check_preemption` at an empty `ready_list`. -/
theorem cond_wakes_by_priority {l : LockPtr}
    (hT : ∀ k lab, Reachable cfg ok k → ok k lab → Tame cfg False k lab)
    (hok : ∀ k c, ok k (.call c) → c.Disciplined lockOf) (hr : Reachable cfg ok k)
    (hh : k.lockHolder l = some k.cur)
    (hw : ∀ w ∈ k.condWaiters c, Waiting k (.ofWaiter w) (own w)) :
    (∀ fs us n i k', k.stack k.cur = .condSignal c l :: fs → k.condWaiters c ≠ [] →
      Serving cfg ok k.cur fs own (k.condWaiters c) k us n i k' →
        n ≤ (k.condWaiters c).length + 74 + i ∧
        (k'.cur = k.cur → k'.stack k.cur ≠ fs → ∀ fuel, k'.nextThread < fuel →
          ((step cfg fuel k' .run).isSome ↔ ¬ FrontFails k')) ∧
        (k'.stack k.cur = fs → ∃ m rest,
          First (fun w => (k.thr (own w)).priority) (k.condWaiters c) m rest ∧
            us = [m] ∧ k'.condWaiters c = rest)) ∧
    (∀ fs us n i k', k.stack k.cur = .condBroadcast c l :: fs →
      Serving cfg ok k.cur fs own (k.condWaiters c) k us n i k' →
        n ≤ broadcastSteps (k.condWaiters c).length + i ∧
        (k'.cur = k.cur → k'.stack k.cur ≠ fs → ∀ fuel, k'.nextThread < fuel →
          ((step cfg fuel k' .run).isSome ↔ ¬ FrontFails k')) ∧
        us <+: (k.condWaiters c).mergeSort (byKey fun w => (k.thr (own w)).priority) ∧
        (k'.stack k.cur = fs →
          us = (k.condWaiters c).mergeSort (byKey fun w => (k.thr (own w)).priority) ∧
            k'.condWaiters c = [])) := by
  have S : CondState cfg lockOf k := hr.condState hT hok
  have hnd : (k.condWaiters c).Nodup := S.cond.nodup c
  refine ⟨fun fs us n i k' e hne hs => ?_, fun fs us n i k' e hs => ?_⟩
  · have hl : l = lockOf c :=
      S.cond.disciplined k.cur (.condSignal c l) (by rw [Kernel.sync_stack, e]; exact .head _)
    have hP : Phases c own (fun w => (k.thr (own w)).priority) (k.condWaiters c)
        (Signalling c (fun w => (k.thr (own w)).priority) (k.condWaiters c)) :=
      signalling_phases own hne
    obtain ⟨hr', H⟩ := hs.inService hT hok hr hP hnd (.start e (hl ▸ hh) hw .call)
    have S' : CondState cfg lockOf k' := hr'.condState hT hok
    refine ⟨H.steps_le, fun hc hne' fuel hf => ?_, fun hret => ?_⟩
    · rw [← hc] at H hne'
      exact H.isSome hP S' hne' hf
    · obtain ⟨r, hend⟩ := H.returned hret
      cases hend with
      | @raised m _ hf => exact ⟨m, _, hf, rfl, rfl⟩
  · have hl : l = lockOf c :=
      S.cond.disciplined k.cur (.condBroadcast c l) (by rw [Kernel.sync_stack, e]; exact .head _)
    have hP : Phases c own (fun w => (k.thr (own w)).priority) (k.condWaiters c)
        (Broadcasting c (fun w => (k.thr (own w)).priority) (k.condWaiters c)) :=
      broadcasting_phases own
    obtain ⟨hr', H⟩ := hs.inService hT hok hr hP hnd (.start e (hl ▸ hh) hw (.loop .none))
    have S' : CondState cfg lockOf k' := hr'.condState hT hok
    refine ⟨H.steps_le, fun hc hne' fuel hf => ?_, ?_, fun hret => ?_⟩
    · rw [← hc] at H hne'
      exact H.isSome hP S' hne' hf
    · obtain ⟨gs, body, r, -, -, hPh, -⟩ := H.stack
      obtain ⟨rest, hL⟩ := hPh.leaves
      exact ⟨_, hL.mergeSort_eq.symm⟩
    · obtain ⟨r, hend⟩ := H.returned hret
      obtain ⟨hq, hL⟩ := hend.at_end
      refine ⟨?_, hq⟩
      rw [hL.mergeSort_eq, List.mergeSort_nil, List.append_nil]

/-- Carries out the steps `labs` of a call that raises records, with what `Serving` counts. -/
def serve (cfg : Config) (fuel : ℕ) (ok : Kernel → Label → Prop) [∀ k lab, Decidable (ok k lab)]
    (t : ThreadPtr) (fs : List Frame) (own : WaiterPtr → ThreadPtr) (ws : List WaiterPtr) :
    List Label → List WaiterPtr × ℕ × ℕ × Kernel → Option (List WaiterPtr × ℕ × ℕ × Kernel)
  | [], x => some x
  | lab :: labs, (us, n, i, k₁) =>
      (step cfg fuel k₁ lab).bind fun k₂ =>
        if k₁.stack t ≠ fs ∧ ok k₁ lab ∧
            ∀ w ∈ ws, Waiting k₁ (.ofWaiter w) (own w) → Waiting k₂ (.ofWaiter w) (own w) →
              (k₂.thr (own w)).priority = (k₁.thr (own w)).priority then
          serve cfg fuel ok t fs own ws labs (us ++ woken own ws k₁ k₂,
            (if k₁.cur = t ∧ lab = .run then n + 1 else n),
            (if k₁.cur = t ∧ lab ≠ .run then i + 1 else i), k₂)
        else none

theorem serve_serving [∀ k lab, Decidable (ok k lab)] : ∀ {labs : List Label}
    {us us' : List WaiterPtr} {n n' i i' : ℕ} {k₁ : Kernel}, Serving cfg ok t fs own ws k us n i k₁ →
    serve cfg fuel ok t fs own ws labs (us, n, i, k₁) = some (us', n', i', k') →
      Serving cfg ok t fs own ws k us' n' i' k'
  | [], us, us', n, n', i, i', k₁, H, h => by
      cases h
      exact H
  | lab :: labs, us, us', n, n', i, i', k₁, H, h => by
      obtain ⟨k₂, h₂, h⟩ := Option.bind_eq_some_iff.mp h
      split at h
      case isTrue hc => exact serve_serving (.step H hc.1 hc.2.1 h₂ hc.2.2) h
      case isFalse => cases h

/-- Calls that use condition variables with lock 0 only. -/
def Label.withLock : Label → Bool
  | .call (.condWait _ n) | .call (.condSignal _ n) | .call (.condBroadcast _ n) => n = 0
  | _ => true

/-- Threads 2 and 3, of priorities 33 and 35, wait in this order when thread 4, of priority 40,
broadcasts; it wakes thread 3 first. -/
theorem cond_wakes_by_priority_two : ∃ k us n i k',
    Reachable priorityConfig (fun k lab => lab.peaceful k && lab.withLock) k ∧
      k.condWaiters 0 = [0, 1] ∧ k.stack k.cur = [.condBroadcast 0 (.user 0)] ∧
      Serving priorityConfig (fun k lab => lab.peaceful k && lab.withLock) k.cur [] (· + 2) [0, 1] k
        us n i k' ∧
      k'.stack k.cur = [] ∧ n = 22 ∧ n ≤ broadcastSteps 2 + i ∧
      us = [0, 1].mergeSort (byKey fun w => (k.thr (w + 2)).priority) ∧ us = [1, 0] ∧
      k'.condWaiters 0 = [] := by
  obtain ⟨k, hr, hk⟩ := exists_reachable priorityConfig 70
    (fun k lab => lab.peaceful k && lab.withLock)
    (List.replicate 19 Label.run ++ [Label.call (.threadCreate 33)] ++
      List.replicate 10 Label.run ++
      [Label.call (.lockAcquire 0), .run, .run, .run, .run, .call (.condWait 0 0)] ++
      List.replicate 12 Label.run ++ [Label.call (.threadCreate 35)] ++
      List.replicate 10 Label.run ++
      [Label.call (.lockAcquire 0), .run, .run, .run, .run, .call (.condWait 0 0)] ++
      List.replicate 12 Label.run ++ [Label.call (.threadCreate 40)] ++
      List.replicate 10 Label.run ++
      [Label.call (.lockAcquire 0), .run, .run, .run, .run, .call (.condBroadcast 0 0)])
    (fun k => k.condWaiters 0 = [0, 1] ∧ k.stack k.cur = [.condBroadcast 0 (.user 0)] ∧
      k.lockHolder (.user 0) = some k.cur ∧
      (∀ w ∈ [0, 1], Waiting k (.ofWaiter w) (w + 2)) ∧
      ((serve priorityConfig 70 (fun k lab => lab.peaceful k && lab.withLock) k.cur [] (· + 2)
        [0, 1] (List.replicate 22 Label.run) ([], 0, 0, k)).any fun (us, n, _, k') =>
          k'.stack k.cur = [] ∧ n = 22 ∧ us = [1, 0])) (by decide +kernel)
  obtain ⟨hq, hs, hh, hw, hany⟩ := of_decide_eq_true hk
  obtain ⟨⟨us, n, i, k'⟩, hserve, hend⟩ := (Option.any_eq_true _ _).mp hany
  obtain ⟨hret, hn, hus⟩ := of_decide_eq_true hend
  have hS := serve_serving .start hserve
  have hT : ∀ k lab, (Label.peaceful k lab && lab.withLock) = true →
      Tame priorityConfig False k lab := fun k lab h =>
    Label.peaceful.tame (Bool.and_eq_true_iff.mp h).1
  have hok : ∀ k c, (Label.peaceful k (.call c) && (Label.call c).withLock) = true →
      c.Disciplined fun _ => .user 0 := by
    intro k c h
    have hl := (Bool.and_eq_true_iff.mp h).2
    cases c <;> simp_all [Label.withLock, Call.Disciplined]
  have hw' : ∀ w ∈ k.condWaiters 0, Waiting k (.ofWaiter w) (w + 2) := by
    rw [hq]
    exact hw
  obtain ⟨-, hb⟩ := cond_wakes_by_priority (fun k lab _ h => hT k lab h) hok hr hh hw'
  rw [hq] at hb
  obtain ⟨hle, -, -, hdone⟩ := hb [] us n i k' hs hS
  obtain ⟨hsort, hnil⟩ := hdone hret
  exact ⟨k, us, n, i, k', hr, hq, hs, hS, hret, hn, hle, hsort, hus, hnil⟩

/-- The time slice of the broadcasting thread ends when it has woken thread 2 and found that
`ready_list` is not empty.  Thread 2 runs, blocks in its `lock_acquire`, and so the list is empty
when `list_front` looks at it, with thread 3 still waiting. -/
theorem cond_broadcast_ends_early : ∃ k us n i k',
    Reachable tidConfig (fun k lab => lab.peaceful k && lab.withLock) k ∧
      k.condWaiters 0 = [0, 1] ∧ k.stack k.cur = [.condBroadcast 0 (.user 0)] ∧
      k.lockHolder (.user 0) = some k.cur ∧ (∀ w ∈ [0, 1], Waiting k (.ofWaiter w) (w + 2)) ∧
      Serving tidConfig (fun k lab => lab.peaceful k && lab.withLock) k.cur [] (· + 2) [0, 1] k
        us n i k' ∧
      k'.cur = k.cur ∧ k'.lockHolder (.user 0) = some k.cur ∧
      k'.stack k.cur = [.checkPreemptionFront, .condBroadcast 0 (.user 0)] ∧
      (∀ fuel, step tidConfig fuel k' .run = none) ∧
      us = [0] ∧ k'.condWaiters 0 = [1] ∧ Waiting k' (.ofWaiter 1) 3 := by
  obtain ⟨k, hr, hk⟩ := exists_reachable tidConfig 70 (fun k lab => lab.peaceful k && lab.withLock)
    (List.replicate 31 Label.run ++ [Label.call (.threadCreate 31)] ++
      List.replicate 20 Label.run ++ [Label.call (.threadCreate 31)] ++
      List.replicate 23 Label.run ++ List.replicate 4 Label.timer ++
      [Label.run, .call (.lockAcquire 0), .run, .run, .run, .run, .call (.condWait 0 0)] ++
      List.replicate 12 Label.run ++
      [Label.call (.lockAcquire 0), .run, .run, .run, .run, .call (.condWait 0 0)] ++
      List.replicate 12 Label.run ++
      [Label.call (.lockAcquire 0), .run, .run, .run, .run, .call (.condBroadcast 0 0)])
    (fun k => k.condWaiters 0 = [0, 1] ∧ k.stack k.cur = [.condBroadcast 0 (.user 0)] ∧
      k.lockHolder (.user 0) = some k.cur ∧
      (∀ w ∈ [0, 1], Waiting k (.ofWaiter w) (w + 2)) ∧
      ((serve tidConfig 70 (fun k lab => lab.peaceful k && lab.withLock) k.cur [] (· + 2) [0, 1]
        (List.replicate 8 Label.run ++ List.replicate 4 Label.timer ++ List.replicate 5 Label.run)
        ([], 0, 0, k)).any fun (us, _, _, k') =>
          k'.cur = k.cur ∧ k'.lockHolder (.user 0) = some k.cur ∧
          k'.stack k.cur = [.checkPreemptionFront, .condBroadcast 0 (.user 0)] ∧
          k'.elems.listEmpty .readyList = true ∧ us = [0] ∧ k'.condWaiters 0 = [1] ∧
          Waiting k' (.ofWaiter 1) 3)) (by decide +kernel)
  obtain ⟨hq, hs, hh, hw, hany⟩ := of_decide_eq_true hk
  obtain ⟨⟨us, n, i, k'⟩, hserve, hend⟩ := (Option.any_eq_true _ _).mp hany
  obtain ⟨hc, hh', hs', hready, hus, hq', hw'⟩ := of_decide_eq_true hend
  refine ⟨k, us, n, i, k', hr, hq, hs, hh, hw, serve_serving .start hserve, hc, hh', hs', ?_, hus,
    hq', hw'⟩
  intro fuel
  have hs' : k'.stack k'.cur = [.checkPreemptionFront, .condBroadcast 0 (.user 0)] := by
    rw [hc]
    exact hs'
  have hl : (popFrame k' [.condBroadcast 0 (.user 0)]).elems.listEmpty .readyList = true := hready
  rw [step_run hs']
  simp only [exec]
  exact if_pos hl

end Pintos
