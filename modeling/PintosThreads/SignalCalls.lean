/-
PintosThreads/SignalCalls.lean

A `cond_signal` or `cond_broadcast` from its call to its return.

The frames that are on top of the caller's own belong to the call
(`Frame.OfSignal`), those of the preemption checks and yields of its `sema_up`
included.  The caller holds the lock all the time, so that nobody else changes
the queue, and every step of its own brings the call nearer to its end
(`Frame.OfSignal.step`), whatever happens to the priorities of the waiters
meanwhile; an interrupt adds one step at most.
-/
import PintosThreads.CondPriority

namespace Pintos

open Intrusive

variable {cfg : Config} {fuel : ℕ} {ok : Kernel → Label → Prop}
variable {k k' : Kernel} {lab : Label} {lockOf : CondPtr → LockPtr} {c : CondPtr}
variable {t : ThreadPtr} {f : Frame} {fs gs : List Frame} {n i total : ℕ}

/-! ### The frames of a call -/

/-- The frames of a `cond_signal` or a `cond_broadcast` on `c`. -/
inductive Frame.OfSignal (cfg : Config) (c : CondPtr) : Frame → Prop
  | condSignal {l} : OfSignal cfg c (.condSignal c l)
  | condSignalFirst : OfSignal cfg c (.condSignalFirst c)
  | condSignalMax {m es} : OfSignal cfg c (.condSignalMax c m es)
  | condSignalRemove {m} : OfSignal cfg c (.condSignalRemove c m)
  | semaUp {w} : OfSignal cfg c (.semaUp (.ofWaiter w))
  | condBroadcast {l} : OfSignal cfg c (.condBroadcast c l)
  | nested {f : Frame} : f.Nested cfg → OfSignal cfg c f

theorem Frame.OfSignal.ofCall (hf : f.OfSignal cfg c) : f.OfCall cfg := by
  cases hf with
  | nested h => exact .inl h
  | condBroadcast => exact .inr (.inr ⟨_, _, rfl⟩)
  | _ => exact .inr (.inl (by constructor))

/-- The steps that a frame takes at most up to its return, with `n` records in the queue. -/
def Frame.callSteps (n : ℕ) : Frame → ℕ
  | condSignal _ _ => n + 74
  | condSignalFirst _ => n + 73
  | condSignalMax _ _ es => es.length + 73
  | condSignalRemove _ _ => 72
  | semaUp _ => 71
  | condBroadcast _ _ => broadcastSteps n
  | f => f.checkSteps

/-- The records that a frame leaves in the queue of `n` when it returns. -/
def Frame.leaves (n : ℕ) : Frame → ℕ
  | condSignal _ _ | condSignalFirst _ | condSignalMax _ _ _ | condSignalRemove _ _ => n - 1
  | condBroadcast _ _ => 0
  | _ => n

/-- The steps that a call takes at most up to its return. -/
def stepsLeft : ℕ → List Frame → ℕ
  | _, [] => 0
  | n, f :: fs => f.callSteps n + stepsLeft (f.leaves n) fs

theorem Frame.Nested.stepsLeft_cons (hf : f.Nested cfg) :
    stepsLeft n (f :: fs) = f.checkSteps + stepsLeft n fs := by
  cases hf <;> rfl

theorem stepsLeft_nested (hg : ∀ g ∈ gs, g.Nested cfg) :
    stepsLeft n (gs ++ fs) = checkSteps gs + stepsLeft n fs := by
  induction gs with
  | nil => simp
  | cons g gs ih =>
      obtain ⟨hg₀, hg⟩ := List.forall_mem_cons.mp hg
      rw [List.cons_append, hg₀.stepsLeft_cons, ih hg, checkSteps_cons, Nat.add_assoc]

/-! ### A step of the call -/

/-- What goes on in place of a frame of the call is nearer to its end. -/
def Nears (cfg : Config) (c : CondPtr) (k k' : Kernel) (f : Frame) (fs : List Frame) : Prop :=
  ∃ gs, k'.stack k.cur = gs ++ fs ∧ (∀ g ∈ gs, g.OfSignal cfg c) ∧
    ∀ body, stepsLeft (k'.condWaiters c).length (gs ++ body) <
      stepsLeft (k.condWaiters c).length (f :: body)

/-- One frame goes on. -/
theorem Nears.push {g : Frame} (hs : k'.stack k.cur = g :: fs) (hg : g.OfSignal cfg c)
    (hn : ∀ body, stepsLeft (k'.condWaiters c).length (g :: body) <
      stepsLeft (k.condWaiters c).length (f :: body)) : Nears cfg c k k' f fs := by
  refine ⟨[g], hs, fun g' hg' => ?_, hn⟩
  rw [List.mem_singleton.mp hg']
  exact hg

/-- The frame returns. -/
theorem Nears.pop (hs : k'.stack k.cur = fs)
    (hn : ∀ body, stepsLeft (k'.condWaiters c).length body <
      stepsLeft (k.condWaiters c).length (f :: body)) : Nears cfg c k k' f fs :=
  ⟨[], hs, List.forall_mem_nil _, hn⟩

/-- **A step of the calling thread in its call.** -/
theorem Frame.OfSignal.step (hf : f.OfSignal cfg c) (S : CondState cfg lockOf k)
    (e : k.stack k.cur = f :: fs) (h : Pintos.step cfg fuel k .run = some k') :
    Nears cfg c k k' f fs := by
  have hpush := push_popFrame_stack_cur k fs
  have hmem : f ∈ k.sync.stack k.cur := by
    rw [Kernel.sync_stack, e]
    exact .head _
  cases hf with
  | nested hf =>
      obtain ⟨gs, hst, hgs, hlt⟩ := hf.step e h
      refine ⟨gs, hst, fun g hg => .nested (hgs g hg), fun body => ?_⟩
      rw [S.nested_queue e hf h, stepsLeft_nested hgs, hf.stepsLeft_cons]
      omega
  | condSignal =>
      rw [step_run e] at h
      simp only [exec] at h
      split at h <;> cases h
      refine .push (hpush _) .condSignalFirst fun body => ?_
      show _ + 73 + stepsLeft _ body < _ + 74 + stepsLeft _ body
      exact Nat.add_lt_add_right (Nat.lt_succ_self _) _
  | condSignalFirst =>
      rw [step_run e] at h
      simp only [exec] at h
      rcases hq : (popFrame k fs).condWaiters c with - | ⟨m, es⟩
      · -- nobody waits: the call returns
        rw [hq] at h
        cases h
        refine .pop (popFrame_stack_cur k fs) fun body => ?_
        have hq : k.condWaiters c = [] := hq
        show stepsLeft (k.condWaiters c).length body < _
        rw [hq]
        exact Nat.lt_add_of_pos_left (Nat.succ_pos _)
      · -- the search begins with the first record
        rw [hq] at h
        cases h
        refine .push (hpush _) .condSignalMax fun body => ?_
        have hq : k.condWaiters c = m :: es := hq
        show es.length + 73 + stepsLeft ((k.condWaiters c).length - 1) body <
          (k.condWaiters c).length + 73 + stepsLeft _ body
        rw [hq, List.length_cons]
        exact Nat.add_lt_add_right (by omega) _
  | @condSignalMax m es =>
      rw [step_run e] at h
      rcases es with - | ⟨x, es⟩
      · cases h
        refine .push (hpush _) .condSignalRemove fun body => ?_
        show 72 + stepsLeft ((k.condWaiters c).length - 1) body <
          73 + stepsLeft ((k.condWaiters c).length - 1) body
        exact Nat.add_lt_add_right (Nat.lt_succ_self _) _
      · -- whichever record is kept, there is one less to compare it with
        obtain ⟨less, -, rfl⟩ := Option.map_eq_some_iff.mp h
        refine .push (hpush _) .condSignalMax fun body => ?_
        show es.length + 73 + stepsLeft _ body < (x :: es).length + 73 + stepsLeft _ body
        exact Nat.add_lt_add_right (Nat.add_lt_add_right (Nat.lt_succ_self _) 73) _
  | @condSignalRemove m =>
      rw [step_run e] at h
      cases h
      refine .push (hpush _) .semaUp fun body => ?_
      -- the record is in the queue
      have hm : m ∈ k.condWaiters c := (S.cond.found k.cur _ hmem _ _ .condSignalRemove).2 m (.head _)
      show 71 + stepsLeft (Function.update k.condWaiters c ((k.condWaiters c).erase m) c).length body <
        72 + stepsLeft ((k.condWaiters c).length - 1) body
      rw [Function.update_self, List.length_erase_of_mem hm]
      omega
  | semaUp =>
      rw [step_run e] at h
      obtain ⟨k₁, h₁, rfl⟩ := Option.map_eq_some_iff.mp h
      obtain ⟨hs, hc⟩ := semaUpBody_sync h₁
      obtain ⟨hn, h68⟩ := preemptionCheck_nested cfg
      have hst : k₁.stack k.cur = fs :=
        (congrArg (fun s => s.stack k.cur) hs).trans (popFrame_stack_cur k fs)
      have hq : k₁.condWaiters c = k.condWaiters c := congrArg (fun s => s.waiters c) hs
      -- what is left of `sema_up` is the preemption check
      refine .push (g := preemptionCheck cfg) ?_ (.nested hn) fun body => ?_
      · rw [Kernel.push_stack, show k₁.cur = k.cur from hc, Function.update_self, hst]
      · rw [hn.stepsLeft_cons]
        show _ + stepsLeft (k₁.condWaiters c).length body <
          71 + stepsLeft (k.condWaiters c).length body
        rw [hq]
        omega
  | @condBroadcast l =>
      rw [step_run e] at h
      simp only [exec] at h
      split at h
      case isTrue hnil =>
        cases h
        refine .pop (popFrame_stack_cur k fs) fun body => ?_
        have hq : k.condWaiters c = [] := hnil
        show stepsLeft (k.condWaiters c).length body < _
        rw [hq]
        exact Nat.lt_add_of_pos_left Nat.one_pos
      case isFalse hne =>
        cases h
        refine ⟨[.condSignal c l, .condBroadcast c l], ?_, ?_, fun body => ?_⟩
        · show Function.update (popFrame k fs).stack k.cur
            ([.condSignal c l, .condBroadcast c l] ++ (popFrame k fs).stack k.cur) k.cur = _
          rw [Function.update_self, popFrame_stack_cur]
        · exact List.forall_mem_cons.mpr ⟨.condSignal, List.forall_mem_singleton.mpr .condBroadcast⟩
        · -- the round takes a record, and the loop has the rounds of the others left
          have hne : k.condWaiters c ≠ [] := hne
          obtain ⟨j, hj⟩ := Nat.exists_eq_succ_of_ne_zero (List.length_pos_iff.mpr hne).ne'
          show (k.condWaiters c).length + 74 +
            (broadcastSteps ((k.condWaiters c).length - 1) + stepsLeft 0 body) <
              broadcastSteps (k.condWaiters c).length + stepsLeft 0 body
          rw [hj]
          show j + 1 + 74 + (broadcastSteps j + stepsLeft 0 body) <
            broadcastSteps j + (j + 1) + 75 + stepsLeft 0 body
          omega

/-! ### Runs -/

/-- The steps of thread `t` in a run. -/
def ownSteps (t : ThreadPtr) (tr : List (Kernel × Label)) : ℕ :=
  tr.countP fun s => s.1.cur = t ∧ s.2 = .run

/-- The interrupts of thread `t` in a run. -/
def ownInterrupts (t : ThreadPtr) (tr : List (Kernel × Label)) : ℕ :=
  tr.countP fun s => s.1.cur = t ∧ s.2 ≠ .run

theorem ownSteps_snoc (t : ThreadPtr) (tr : List (Kernel × Label)) (k : Kernel) (lab : Label) :
    ownSteps t (tr ++ [(k, lab)]) =
      if k.cur = t ∧ lab = .run then ownSteps t tr + 1 else ownSteps t tr := by
  rw [ownSteps, List.countP_append, List.countP_singleton]
  by_cases h : k.cur = t ∧ lab = .run <;> simp [h, ownSteps]

theorem ownInterrupts_snoc (t : ThreadPtr) (tr : List (Kernel × Label)) (k : Kernel)
    (lab : Label) : ownInterrupts t (tr ++ [(k, lab)]) =
      if k.cur = t ∧ lab ≠ .run then ownInterrupts t tr + 1 else ownInterrupts t tr := by
  rw [ownInterrupts, List.countP_append, List.countP_singleton]
  by_cases h : k.cur = t ∧ lab ≠ .run <;> simp [h, ownInterrupts]

/-- Thread `t` is in a call on `c` that will return to the code whose frames are `fs`, after `n`
steps and `i` interrupts. -/
structure InSignal (cfg : Config) (lockOf : CondPtr → LockPtr) (c : CondPtr) (t : ThreadPtr)
    (fs : List Frame) (total n i : ℕ) (k : Kernel) : Prop where
  stack : ∃ gs, k.stack t = gs ++ fs ∧ (∀ g ∈ gs, g.OfSignal cfg c) ∧
    n + stepsLeft (k.condWaiters c).length gs ≤ total + i
  holder : k.lockHolder (lockOf c) = some t

variable {n' i' : ℕ}

/-- The frame that thread `t` is at belongs to the call. -/
theorem InSignal.head (H : InSignal cfg lockOf c t fs total n i k) (hne : k.stack t ≠ fs) :
    ∃ f gs, k.stack t = f :: (gs ++ fs) ∧ f.OfSignal cfg c ∧ (∀ g ∈ gs, g.OfSignal cfg c) ∧
      n + stepsLeft (k.condWaiters c).length (f :: gs) ≤ total + i := by
  obtain ⟨gs, e, hgs, hle⟩ := H.stack
  rcases gs with - | ⟨f, gs⟩
  · exact absurd e hne
  · obtain ⟨hf, hgs⟩ := List.forall_mem_cons.mp hgs
    exact ⟨f, gs, e, hf, hgs, hle⟩

/-- **One step of a run** during the call. -/
theorem InSignal.step (H : InSignal cfg lockOf c t fs total n i k) (S : CondState cfg lockOf k)
    (hne : k.stack t ≠ fs) (h : Pintos.step cfg fuel k lab = some k') :
    InSignal cfg lockOf c t fs total (if k.cur = t ∧ lab = .run then n + 1 else n)
      (if k.cur = t ∧ lab ≠ .run then i + 1 else i) k' := by
  obtain ⟨f, gs, e, hf, hgs, hle⟩ := H.head hne
  refine ⟨?_, S.holder_kept e hf.ofCall H.holder h⟩
  have hall : ∀ g ∈ f :: gs, g.OfSignal cfg c := List.forall_mem_cons.mpr ⟨hf, hgs⟩
  by_cases ht : k.cur = t
  · subst ht
    by_cases hl : lab = .run
    · subst hl
      rw [if_pos ⟨rfl, rfl⟩, if_neg fun h => h.2 rfl]
      obtain ⟨gs', hst, hgs', hlt⟩ := hf.step S e h
      refine ⟨gs' ++ gs, by rw [hst, List.append_assoc], ?_, ?_⟩
      · exact List.forall_mem_append.mpr ⟨hgs', hgs⟩
      · have hlt := hlt gs
        omega
    · -- an interrupt leaves the call as it is, or with a yield to return from
      rw [if_neg fun h => hl h.2, if_pos ⟨rfl, hl⟩]
      obtain ⟨hq, hst⟩ := S.interrupted e hf.ofCall hl h
      rcases hst with hst | hst
      · refine ⟨f :: gs, hst.trans e, hall, ?_⟩
        rw [hq]
        omega
      · refine ⟨.intrSetLevel true :: f :: gs, by rw [hst, e]; rfl, ?_, ?_⟩
        · exact List.forall_mem_cons.mpr ⟨.nested .intrSetLevel, hall⟩
        · have hn : (Frame.intrSetLevel true).Nested cfg := .intrSetLevel
          rw [hq, hn.stepsLeft_cons]
          show n + (1 + _) ≤ total + (i + 1)
          omega
  · -- the queue is the caller's while it holds the lock
    rw [if_neg fun h => ht h.1, if_neg fun h => ht h.1]
    obtain ⟨hq, hst⟩ := S.others e H.holder (Ne.symm ht) h
    exact ⟨f :: gs, hst.trans e, hall, hq ▸ hle⟩

/-- **A run of a call**, up to its return. -/
theorem InSignal.run {tr : List (Kernel × Label)}
    (hS : ∀ {k}, Reachable cfg ok k → CondState cfg lockOf k) (hr : Reachable cfg ok k)
    (H : InSignal cfg lockOf c t fs total 0 0 k) (h : Path cfg ok k tr k')
    (hne : ∀ s ∈ tr, s.1.stack t ≠ fs) :
    InSignal cfg lockOf c t fs total (ownSteps t tr) (ownInterrupts t tr) k' := by
  induction h with
  | nil => exact H
  | @snoc k₁ k₂ tr lab fuel hp hok hs ih =>
      have H₁ := ih fun s hs => hne s (List.mem_append_left _ hs)
      rw [ownSteps_snoc, ownInterrupts_snoc]
      exact H₁.step (hS (hp.reachable hr)) (hne (k₁, lab) (by simp)) hs

/-- The start of a call. -/
theorem InSignal.start (e : k.stack k.cur = f :: fs) (hf : f.OfSignal cfg c)
    (hh : k.lockHolder (lockOf c) = some k.cur) :
    InSignal cfg lockOf c k.cur fs (f.callSteps (k.condWaiters c).length) 0 0 k where
  stack := ⟨[f], e, List.forall_mem_singleton.mpr hf, by simp [stepsLeft]⟩
  holder := hh

theorem InSignal.steps_le (H : InSignal cfg lockOf c t fs total n i k) : n ≤ total + i := by
  obtain ⟨gs, -, -, hle⟩ := H.stack
  omega

end Pintos
