/-
PintosThreads/CondPhases.lean

How far a `cond_signal` and a `cond_broadcast` have come.

`Signalling` describes a call of `cond_signal` that has found the records `as`
in the queue: which frame it is at, what is in the queue, which record it has
raised, and how many steps it has left at most.  `list_max` keeps the first of
the greatest records that it has seen, so that it ends with the one that
`StableQueue.First` singles out.  `Broadcasting` repeats this until the queue is
empty, and so its records leave as from a stable priority queue
(`StableQueue.Leaves`).  Each step of the calling thread goes on to the next
phase (`Signalling.step`, `Broadcasting.step`).
-/
import PintosThreads.StableQueue
import PintosThreads.Progress

namespace Pintos

open Intrusive StableQueue

variable {cfg : Config} {fuel : ℕ} {k k' : Kernel} {c : CondPtr} {l : LockPtr}
variable {own : WaiterPtr → ThreadPtr} {key : WaiterPtr → ℤ}
variable {as ws q us : List WaiterPtr} {f : Frame} {fs body : List Frame} {r : ℕ}

/-! ### Preemption checks and yields -/

/-- The frames of the preemption check after an unblocking, and of a yield. -/
inductive Frame.Nested (cfg : Config) : Frame → Prop
  | intrSetLevel {old} : Nested cfg (.intrSetLevel old)
  | threadYield : Nested cfg .threadYield
  | checkPreemption : cfg.mlfqs = false → Nested cfg .checkPreemption
  | checkPreemptionFront : cfg.mlfqs = false → Nested cfg .checkPreemptionFront
  | checkPreemptionRead : cfg.mlfqs = false → Nested cfg .checkPreemptionRead
  | checkPreemptionCompare {n} : Nested cfg (.checkPreemptionCompare n)
  | mlfqsCheckPreemption {i} : Nested cfg (.mlfqsCheckPreemption i)
  | mlfqsCheckPreemptionCompare {p} : Nested cfg (.mlfqsCheckPreemptionCompare p)

/-- The steps that such a frame takes at most. -/
def Frame.checkSteps : Frame → ℕ
  | intrSetLevel _ => 1
  | threadYield => 2
  | checkPreemptionCompare _ | mlfqsCheckPreemptionCompare _ => 3
  | checkPreemptionRead => 4
  | checkPreemptionFront => 5
  | checkPreemption => 6
  | mlfqsCheckPreemption i => i + 4
  | _ => 0

/-- The steps that frames of preemption checks and yields take at most. -/
def checkSteps (gs : List Frame) : ℕ :=
  (gs.map Frame.checkSteps).sum

@[simp]
theorem checkSteps_nil : checkSteps [] = 0 :=
  rfl

@[simp]
theorem checkSteps_cons (f : Frame) (fs : List Frame) :
    checkSteps (f :: fs) = f.checkSteps + checkSteps fs :=
  rfl

theorem checkSteps_append (fs gs : List Frame) :
    checkSteps (fs ++ gs) = checkSteps fs + checkSteps gs := by
  simp [checkSteps]

/-- What goes on in place of a frame of the running thread, in at most `n` steps. -/
def GoesOn (cfg : Config) (k' : Kernel) (t : ThreadPtr) (fs : List Frame) (n : ℕ) : Prop :=
  ∃ gs, k'.stack t = gs ++ fs ∧ (∀ g ∈ gs, g.Nested cfg) ∧ checkSteps gs < n

theorem GoesOn.push {t : ThreadPtr} {g : Frame} {n : ℕ} (h : k'.stack t = g :: fs)
    (hg : g.Nested cfg) (hn : g.checkSteps < n) : GoesOn cfg k' t fs n := by
  refine ⟨[g], h, fun g' hg' => ?_, hn⟩
  rw [List.mem_singleton.mp hg']
  exact hg

theorem GoesOn.pop {t : ThreadPtr} {n : ℕ} (h : k'.stack t = fs) (hn : 0 < n) :
    GoesOn cfg k' t fs n :=
  ⟨[], h, nofun, hn⟩

theorem popFrame_stack_cur (k : Kernel) (fs : List Frame) : (popFrame k fs).stack k.cur = fs :=
  Function.update_self ..

theorem push_popFrame_stack_cur (k : Kernel) (fs : List Frame) (g : Frame) :
    ((popFrame k fs).push g).stack k.cur = g :: fs := by
  show Function.update (popFrame k fs).stack k.cur (g :: (popFrame k fs).stack k.cur) k.cur = _
  rw [Function.update_self, popFrame_stack_cur]

/-- **A step of a preemption check** or of a yield. -/
theorem Frame.Nested.step (hf : f.Nested cfg) (e : k.stack k.cur = f :: fs)
    (h : Pintos.step cfg fuel k .run = some k') : GoesOn cfg k' k.cur fs f.checkSteps := by
  rw [Pintos.step, e] at h
  have hpush := push_popFrame_stack_cur k fs
  cases hf with
  | intrSetLevel =>
      cases h
      exact .pop (popFrame_stack_cur k fs) Nat.zero_lt_one
  | threadYield =>
      have hs := (yieldCurrent_switchedOff h).stack
      refine .push (g := .intrSetLevel k.intrOn) ?_ .intrSetLevel Nat.one_lt_two
      rw [hs]
      exact hpush _
  | checkPreemption hm =>
      simp only [exec, Option.some.injEq] at h
      subst h
      split
      · exact .pop (popFrame_stack_cur k fs) (Nat.succ_pos _)
      · exact .push (hpush _) (.checkPreemptionFront hm) (Nat.lt_succ_self _)
  | checkPreemptionFront hm =>
      simp only [exec] at h
      split at h <;> cases h
      exact .push (hpush _) (.checkPreemptionRead hm) (Nat.lt_succ_self _)
  | checkPreemptionRead hm =>
      obtain ⟨n, -, rfl⟩ := Option.map_eq_some_iff.mp h
      exact .push (hpush _) .checkPreemptionCompare (Nat.lt_succ_self _)
  | checkPreemptionCompare | mlfqsCheckPreemptionCompare =>
      simp only [exec, Option.some.injEq] at h
      subst h
      split
      · exact .push (hpush _) .threadYield (Nat.lt_succ_self _)
      · exact .pop (popFrame_stack_cur k fs) (Nat.succ_pos _)
  | @mlfqsCheckPreemption i =>
      cases i with
      | zero =>
          cases h
          exact .push (hpush _) .mlfqsCheckPreemptionCompare (Nat.lt_succ_self _)
      | succ i =>
          simp only [exec, Option.some.injEq] at h
          subst h
          split
          · exact .push (hpush _) .mlfqsCheckPreemption (Nat.lt_succ_self _)
          · refine .push (hpush _) .mlfqsCheckPreemptionCompare ?_
            show 3 < i + 1 + 4
            omega

/-- The running thread is at the `list_front` of `check_preemption`, and its assertion fails:
`ready_list` has become empty since `check_preemption` has looked at it. -/
def FrontFails (k : Kernel) : Prop :=
  (∃ fs, k.stack k.cur = .checkPreemptionFront :: fs) ∧ k.elems.listEmpty .readyList = true

theorem not_frontFails (e : k.stack k.cur = f :: fs) (hf : f ≠ .checkPreemptionFront) :
    ¬ FrontFails k := by
  rintro ⟨⟨gs, e'⟩, -⟩
  rw [e] at e'
  exact hf (List.cons.inj e').1

/-- Such a step can be taken exactly if the assertion of `list_front` does not fail. -/
theorem Frame.Nested.isSome {srt : Prop} (hf : f.Nested cfg) (e : k.stack k.cur = f :: fs)
    (G : Good cfg srt k) (C : Control k) (hn : k.nextThread < fuel) :
    (Pintos.step cfg fuel k .run).isSome ↔ ¬ FrontFails k := by
  obtain ⟨⟨home, q, L, P⟩, hr⟩ := G.sched.popFrame fs
  have hno : f ≠ .checkPreemptionFront → (exec cfg fuel (popFrame k fs) f).isSome →
      ((Pintos.step cfg fuel k .run).isSome ↔ ¬ FrontFails k) := by
    intro hne hs
    refine iff_of_true ?_ (not_frontFails e hne)
    rwa [Pintos.step, e]
  cases hf with
  | threadYield => exact hno (by rintro ⟨⟩) (L.yield_isSome P hr (C.inv.idleFree_pop e) hn)
  | checkPreemptionFront =>
      rw [Pintos.step, e]
      by_cases hl : k.elems.listEmpty .readyList = true
      · refine iff_of_false ?_ (not_not.mpr ⟨⟨fs, e⟩, hl⟩)
        have hl' : (popFrame k fs).elems.listEmpty .readyList = true := hl
        simp only [exec]
        rw [if_pos hl']
        rintro ⟨⟩
      · refine iff_of_true ?_ fun h => hl h.2
        have hl' : ¬ (popFrame k fs).elems.listEmpty .readyList = true := hl
        simp only [exec]
        rw [if_neg hl']
        rfl
  | checkPreemptionRead hm =>
      obtain ⟨xs, hq⟩ := L.ready _ (.readyList hm)
      have hs := (L.repr.isList hq).seg
      refine hno (by rintro ⟨⟩) ?_
      simp only [exec, Option.isSome_map]
      cases xs with
      | nil => exact Option.isSome_iff_exists.mpr ⟨_, hs.1⟩
      | cons x xs => exact Option.isSome_iff_exists.mpr ⟨_, hs.1⟩
  | @mlfqsCheckPreemption i => cases i <;> exact hno (by rintro ⟨⟩) rfl
  | _ => exact hno (by rintro ⟨⟩) rfl

/-! ### `cond_signal` -/

/-- The record whose semaphore a frame raises. -/
def Frame.raises : Frame → List WaiterPtr
  | semaUp (.ofWaiter m) => [m]
  | _ => []

/-- A `cond_signal` that has found the records `as` in the queue: its frames, what is in the queue
now, the record that it has raised, and the steps it has left at most. -/
inductive Signalling (c : CondPtr) (key : WaiterPtr → ℤ) (as : List WaiterPtr) :
    List Frame → List WaiterPtr → List WaiterPtr → ℕ → Prop
  | call {l : LockPtr} : Signalling c key as [.condSignal c l] as [] (as.length + 74)
  | first : Signalling c key as [.condSignalFirst c] as [] (as.length + 73)
  | max {m : WaiterPtr} {es ds rest : List WaiterPtr} : as = ds ++ es → First key ds m rest →
      Signalling c key as [.condSignalMax c m es] as [] (es.length + 73)
  | remove {m : WaiterPtr} {rest : List WaiterPtr} : First key as m rest →
      Signalling c key as [.condSignalRemove c m] as [] 72
  | raise {m : WaiterPtr} {rest : List WaiterPtr} : First key as m rest →
      Signalling c key as [.semaUp (.ofWaiter m)] rest [] 71
  | raised {m : WaiterPtr} {rest : List WaiterPtr} : First key as m rest →
      Signalling c key as [] rest [m] 0

/-- What a record's first waiter is compared by. -/
def Waited (own : WaiterPtr → ThreadPtr) (key : WaiterPtr → ℤ) (k : Kernel) (w : WaiterPtr) :
    Prop :=
  IsList k.elems (.semaWaiters (.ofWaiter w)) [own w] ∧ (k.thr (own w)).priority = key w

theorem Waited.compare {a b : WaiterPtr} (ha : Waited own key k a) (hb : Waited own key k b) :
    condSemaPriorityCmp cfg k a b = some (decide (key a < key b)) := by
  rw [condSemaPriorityCmp, ha.1.listFront, hb.1.listFront, ← ha.2, ← hb.2]
  rfl

/-- The state after a step of a call: what goes on is frames of preemption checks, on top of the
frames of the next phase. -/
def Continues (cfg : Config) (c : CondPtr) (P : List Frame → List WaiterPtr → ℕ → Prop)
    (k' : Kernel) (t : ThreadPtr) (fs : List Frame) (r : ℕ) : Prop :=
  ∃ gs body r', k'.stack t = gs ++ (body ++ fs) ∧ (∀ g ∈ gs, g.Nested cfg) ∧
    P body (k'.condWaiters c) r' ∧ checkSteps gs + r' < r

theorem Continues.next {P : List Frame → List WaiterPtr → ℕ → Prop} {t : ThreadPtr} {g : Frame}
    (r' : ℕ) (hs : k'.stack t = g :: fs) (hP : P [g] (k'.condWaiters c) r') (hr : r' < r) :
    Continues cfg c P k' t fs r :=
  ⟨[], [g], r', hs, nofun, hP, by simpa using hr⟩

theorem preemptionCheck_nested (cfg : Config) :
    (preemptionCheck cfg).Nested cfg ∧ (preemptionCheck cfg).checkSteps ≤ 68 := by
  rw [preemptionCheck]
  split
  case isTrue => exact ⟨.mlfqsCheckPreemption, le_rfl⟩
  case isFalse hm => exact ⟨.checkPreemption (by simpa using hm), by decide⟩

/-- **A step of `cond_signal`** goes on to the next phase. -/
theorem Signalling.step (H : Signalling c key as [f] (k.condWaiters c) us r)
    (e : k.stack k.cur = f :: fs) (ha : as ≠ [])
    (hw : ∀ w ∈ k.condWaiters c, Waited own key k w)
    (h : Pintos.step cfg fuel k .run = some k') :
    Continues cfg c (fun body q => Signalling c key as body q (us ++ f.raises)) k' k.cur fs r := by
  generalize hq : k.condWaiters c = q at H hw
  rw [Pintos.step, e] at h
  cases H with
  | call =>
      simp only [exec] at h
      split at h <;> cases h
      refine .next (as.length + 73) (push_popFrame_stack_cur k fs _) ?_ (Nat.lt_succ_self _)
      show Signalling c key as _ (k.condWaiters c) _ _
      rw [hq]
      exact .first
  | first =>
      obtain ⟨m, es, rfl⟩ := List.exists_cons_of_ne_nil ha
      simp only [exec, show (popFrame k fs).condWaiters c = m :: es from hq,
        Option.some.injEq] at h
      subst h
      refine .next (es.length + 73) (push_popFrame_stack_cur k fs _) ?_ (by simp)
      show Signalling c key _ _ (k.condWaiters c) _ _
      rw [hq]
      exact .max (show m :: es = [m] ++ es from rfl) (.singleton key m)
  | @max m es ds rest hds hf =>
      rcases es with - | ⟨x, es⟩
      · cases h
        refine .next 72 (push_popFrame_stack_cur k fs _) ?_ (Nat.lt_succ_self _)
        show Signalling c key _ _ (k.condWaiters c) _ _
        rw [hq]
        rw [List.append_nil] at hds
        exact .remove (hds ▸ hf)
      · -- `m` is the first of the greatest of `ds`, and `x` is compared with it
        obtain ⟨less, hless, rfl⟩ := Option.map_eq_some_iff.mp h
        have hm : Waited own key k m := hw m (hds ▸ List.mem_append_left _ hf.mem)
        have hx : Waited own key k x := hw x (hds ▸ by simp)
        have hc : condSemaPriorityCmp cfg (popFrame k fs) m x = some (decide (key m < key x)) :=
          hm.compare hx
        obtain rfl : less = decide (key m < key x) := Option.some.inj (hless.symm.trans hc)
        refine .next (es.length + 73) (push_popFrame_stack_cur k fs _) ?_ (by simp)
        show Signalling c key _ _ (k.condWaiters c) _ _
        rw [hq]
        by_cases hlt : key m < key x
        · rw [if_pos (by simpa using hlt)]
          exact .max (by rw [hds, List.append_assoc]; rfl) (hf.later hlt)
        · rw [if_neg (by simpa using hlt)]
          exact .max (by rw [hds, List.append_assoc]; rfl) (hf.stays (not_lt.mp hlt))
  | @remove m rest hf =>
      cases h
      refine .next 71 (push_popFrame_stack_cur k fs _) ?_ (Nat.lt_succ_self _)
      show Signalling c key _ _ (Function.update k.condWaiters c ((k.condWaiters c).erase m) c) _ _
      rw [Function.update_self, hq, hf.erase]
      exact .raise hf
  | @raise m rest hf =>
      obtain ⟨k₁, h₁, rfl⟩ := Option.map_eq_some_iff.mp h
      obtain ⟨hs, hc⟩ := semaUpBody_sync h₁
      obtain ⟨hn, h68⟩ := preemptionCheck_nested cfg
      have hst : k₁.stack k.cur = fs :=
        (congrArg (fun s => s.stack k.cur) hs).trans (popFrame_stack_cur k fs)
      have hws : k₁.condWaiters c = q := (congrArg (fun s => s.waiters c) hs).trans hq
      refine ⟨[preemptionCheck cfg], [], 0, ?_, ?_, ?_, ?_⟩
      · rw [Kernel.push_stack, show k₁.cur = k.cur from hc, Function.update_self, hst]
        rfl
      · intro g hg
        rw [List.mem_singleton.mp hg]
        exact hn
      · show Signalling c key as [] (k₁.condWaiters c) _ 0
        rw [hws]
        exact .raised hf
      · show (preemptionCheck cfg).checkSteps + 0 + 0 < 71
        omega

/-- The step can be taken. -/
theorem Signalling.isSome {srt : Prop} (H : Signalling c key as [f] (k.condWaiters c) us r)
    (e : k.stack k.cur = f :: fs) (hw : ∀ w ∈ k.condWaiters c, Waited own key k w)
    (hh : ∀ l, f = .condSignal c l → k.lockHolder l = some k.cur)
    (G : Good cfg srt k) (C : Control k) (hn : k.nextThread < fuel) :
    (Pintos.step cfg fuel k .run).isSome := by
  generalize hq : k.condWaiters c = q at H hw
  cases H with
  | @raise m => exact G.ups_isSome C (.inl ⟨rfl, fs, e⟩) (.inl rfl) hn
  | @call l =>
      have hl : (popFrame k fs).lockHolder l = some (popFrame k fs).cur := hh l rfl
      rw [Pintos.step, e]
      simp only [exec]
      rw [if_pos hl]
      rfl
  | first =>
      rw [Pintos.step, e]
      simp only [exec]
      split <;> rfl
  | @max m es ds rest hds hf =>
      rw [Pintos.step, e]
      rcases es with - | ⟨x, es⟩
      · rfl
      · have hm : Waited own key k m := hw m (hds ▸ List.mem_append_left _ hf.mem)
        have hx : Waited own key k x := hw x (hds ▸ by simp)
        have hc : condSemaPriorityCmp cfg (popFrame k fs) m x = some (decide (key m < key x)) :=
          hm.compare hx
        simp only [exec, hc]
        rfl
  | remove =>
      rw [Pintos.step, e]
      rfl

/-! ### `cond_broadcast` -/

/-- The steps that `cond_broadcast` takes at most for a queue of this length. -/
def broadcastSteps : ℕ → ℕ
  | 0 => 1
  | j + 1 => broadcastSteps j + (j + 1) + 75

/-- A `cond_broadcast` that has found the records `ws` in the queue. -/
inductive Broadcasting (c : CondPtr) (key : WaiterPtr → ℤ) (ws : List WaiterPtr) :
    List Frame → List WaiterPtr → List WaiterPtr → ℕ → Prop
  | loop {l : LockPtr} {us q : List WaiterPtr} : StableQueue.Leaves key ws us q →
      Broadcasting c key ws [.condBroadcast c l] q us (broadcastSteps q.length)
  | signal {l : LockPtr} {us as q us' : List WaiterPtr} {body : List Frame}
      {r : ℕ} : StableQueue.Leaves key ws us as → as ≠ [] → Signalling c key as body q us' r →
      Broadcasting c key ws (body ++ [.condBroadcast c l]) q (us ++ us')
        (r + broadcastSteps (as.length - 1))
  | ended {us : List WaiterPtr} : StableQueue.Leaves key ws us [] → Broadcasting c key ws [] [] us 0

/-- A `cond_signal` is at one frame of its own. -/
theorem Signalling.singleton (H : Signalling c key as (f :: body) q us r) : body = [] := by
  cases H <;> rfl

/-- One round of the loop in `cond_broadcast`. -/
theorem loop_step (H : StableQueue.Leaves key ws us (k.condWaiters c))
    (e : k.stack k.cur = .condBroadcast c l :: fs)
    (h : Pintos.step cfg fuel k .run = some k') :
    Continues cfg c (fun body q => Broadcasting c key ws body q us) k' k.cur fs
      (broadcastSteps (k.condWaiters c).length) := by
  generalize hq : k.condWaiters c = q at H
  rw [Pintos.step, e] at h
  simp only [exec, show (popFrame k fs).condWaiters c = q from hq] at h
  split at h
  case isTrue hnil =>
    subst hnil
    cases h
    refine ⟨[], [], 0, popFrame_stack_cur k fs, (by rintro _ ⟨⟩), ?_, Nat.zero_lt_one⟩
    show Broadcasting c key ws [] (k.condWaiters c) us 0
    rw [hq]
    exact .ended H
  case isFalse hne =>
    cases h
    refine ⟨[], [.condSignal c l, .condBroadcast c l], q.length + 74 + broadcastSteps (q.length - 1),
      ?_, (by rintro _ ⟨⟩), ?_, ?_⟩
    · show Function.update (popFrame k fs).stack k.cur
        ([.condSignal c l, .condBroadcast c l] ++ (popFrame k fs).stack k.cur) k.cur = _
      rw [Function.update_self, popFrame_stack_cur]
      rfl
    · show Broadcasting c key ws _ (k.condWaiters c) us _
      rw [hq]
      have hs : Signalling c key q [.condSignal c l] q [] (q.length + 74) := .call
      have hb := Broadcasting.signal (l := l) H hne hs
      rwa [List.append_nil] at hb
    · obtain ⟨j, hj⟩ := Nat.exists_eq_succ_of_ne_zero (List.length_pos_iff.mpr hne).ne'
      rw [checkSteps_nil, hj]
      show 0 + (j + 1 + 74 + broadcastSteps j) < broadcastSteps j + (j + 1) + 75
      omega

/-- **A step of `cond_broadcast`** goes on to the next phase. -/
theorem Broadcasting.step (H : Broadcasting c key ws (f :: body) (k.condWaiters c) us r)
    (e : k.stack k.cur = f :: (body ++ fs)) (hw : ∀ w ∈ k.condWaiters c, Waited own key k w)
    (h : Pintos.step cfg fuel k .run = some k') :
    Continues cfg c (fun body q => Broadcasting c key ws body q (us ++ f.raises)) k' k.cur fs r := by
  generalize hfb : f :: body = fb at H
  generalize hq : k.condWaiters c = q at H
  cases H with
  | loop hL =>
      obtain ⟨rfl, rfl⟩ := List.cons.inj hfb
      subst hq
      rw [show Frame.raises (.condBroadcast c _) = [] from rfl, List.append_nil]
      exact loop_step hL e h
  | @signal l us as q us' sb r hL hne hS =>
      rcases sb with - | ⟨g, sb⟩
      · -- the signal has returned
        obtain ⟨rfl, rfl⟩ := List.cons.inj hfb
        cases hS with
        | raised hf =>
            subst hq
            rw [show Frame.raises (.condBroadcast c _) = [] from rfl, List.append_nil, hf.length,
              Nat.add_sub_cancel, Nat.zero_add]
            exact loop_step (hL.next hf) e h
      · obtain ⟨rfl, rfl⟩ := List.cons.inj hfb
        obtain rfl := hS.singleton
        subst hq
        obtain ⟨gs, body', r', hst, hgs, hS', hr⟩ := hS.step e hne hw h
        refine ⟨gs, body' ++ [.condBroadcast c l], r' + broadcastSteps (as.length - 1), ?_, hgs,
          ?_, ?_⟩
        · rw [hst, List.append_assoc]
          rfl
        · rw [List.append_assoc]
          exact .signal hL hne hS'
        · omega
  | ended => cases hfb

/-- What has been raised has left the queue in order. -/
theorem Broadcasting.leaves (H : Broadcasting c key ws body q us r) :
    ∃ rest, StableQueue.Leaves key ws us rest := by
  cases H with
  | loop hL | ended hL => exact ⟨_, hL⟩
  | signal hL _ hS =>
      cases hS with
      | raised hf => exact ⟨_, hL.next hf⟩
      | _ =>
          rw [List.append_nil]
          exact ⟨_, hL⟩

/-- When it has returned, the queue is empty. -/
theorem Broadcasting.at_end (H : Broadcasting c key ws [] q us r) :
    q = [] ∧ StableQueue.Leaves key ws us [] := by
  generalize hb : ([] : List Frame) = body at H
  cases H with
  | loop => cases hb
  | signal => exact absurd hb (List.append_ne_nil_of_right_ne_nil _ (List.cons_ne_nil _ _)).symm
  | ended hL => exact ⟨rfl, hL⟩

theorem Broadcasting.isSome {srt : Prop}
    (H : Broadcasting c key ws (f :: body) (k.condWaiters c) us r)
    (e : k.stack k.cur = f :: (body ++ fs)) (hw : ∀ w ∈ k.condWaiters c, Waited own key k w)
    (hh : ∀ l, f = .condSignal c l → k.lockHolder l = some k.cur)
    (G : Good cfg srt k) (C : Control k) (hn : k.nextThread < fuel) :
    (Pintos.step cfg fuel k .run).isSome := by
  have hloop : ∀ gs l, k.stack k.cur = .condBroadcast c l :: gs →
      (Pintos.step cfg fuel k .run).isSome := by
    intro gs l e
    rw [Pintos.step, e]
    simp only [exec]
    split <;> rfl
  generalize hfb : f :: body = fb at H
  generalize hq : k.condWaiters c = q at H
  cases H with
  | loop =>
      obtain ⟨rfl, rfl⟩ := List.cons.inj hfb
      exact hloop _ _ e
  | @signal l us as q us' sb r hL hne hS =>
      rcases sb with - | ⟨g, sb⟩
      · obtain ⟨rfl, rfl⟩ := List.cons.inj hfb
        exact hloop _ _ e
      · obtain ⟨rfl, rfl⟩ := List.cons.inj hfb
        obtain rfl := hS.singleton
        subst hq
        exact hS.isSome e hw hh G C hn
  | ended => cases hfb

/-! ### Calls and their phases -/

/-- The phases of a call that raises records of `ws`. -/
structure Phases (c : CondPtr) (own : WaiterPtr → ThreadPtr) (key : WaiterPtr → ℤ)
    (ws : List WaiterPtr) (P : List Frame → List WaiterPtr → List WaiterPtr → ℕ → Prop) :
    Prop where
  frames : ∀ {body q us r}, P body q us r → ∀ f ∈ body, f.Signals ∨ ∃ l, f = .condBroadcast c l
  queued : ∀ {body q us r}, P body q us r → ∀ w ∈ q, w ∈ ws
  /-- A record that has not been raised is in the queue, or is about to be raised. -/
  pending : ∀ {body q us r}, P body q us r → ∀ w ∈ ws, w ∉ us →
    w ∈ q ∨ .semaUp (.ofWaiter w) ∈ body
  raising : ∀ {body q us r}, P body q us r → ∀ w, .semaUp (.ofWaiter w) ∈ body → w ∈ ws
  step : ∀ {cfg fuel k k' f body fs us r}, P (f :: body) (k.condWaiters c) us r →
    k.stack k.cur = f :: (body ++ fs) → (∀ w ∈ k.condWaiters c, Waited own key k w) →
    Pintos.step cfg fuel k .run = some k' →
      Continues cfg c (fun body q => P body q (us ++ f.raises)) k' k.cur fs r
  isSome : ∀ {cfg fuel srt k f body fs us r}, P (f :: body) (k.condWaiters c) us r →
    k.stack k.cur = f :: (body ++ fs) → (∀ w ∈ k.condWaiters c, Waited own key k w) →
    (∀ l, f = .condSignal c l → k.lockHolder l = some k.cur) →
    Good cfg srt k → Control k → k.nextThread < fuel → (Pintos.step cfg fuel k .run).isSome

theorem Signalling.frames (H : Signalling c key as body q us r) : ∀ f ∈ body, f.Signals := by
  cases H <;> simp <;> constructor

theorem Signalling.queued (H : Signalling c key as body q us r) : ∀ w ∈ q, w ∈ as := by
  intro w hw
  cases H with
  | raise hf | raised hf => exact hf.mem_of_rest hw
  | _ => exact hw

theorem Signalling.pending (H : Signalling c key as body q us r) :
    ∀ w ∈ as, w ∉ us → w ∈ q ∨ .semaUp (.ofWaiter w) ∈ body := by
  intro w hw hus
  cases H with
  | raise hf =>
      obtain rfl | hr := hf.mem_rest hw
      · exact .inr (.head _)
      · exact .inl hr
  | raised hf => exact .inl ((hf.mem_rest hw).resolve_left fun h => hus (h ▸ .head _))
  | _ => exact .inl hw

theorem Signalling.raising {w : WaiterPtr} (H : Signalling c key as body q us r)
    (hw : .semaUp (.ofWaiter w) ∈ body) : w ∈ as := by
  cases H with
  | raise hf =>
      obtain ⟨⟨⟩⟩ := List.mem_singleton.mp hw
      exact hf.mem
  | _ => simp at hw

theorem signalling_phases (own : WaiterPtr → ThreadPtr) (ha : as ≠ []) :
    Phases c own key as (Signalling c key as) where
  frames H f hf := .inl (H.frames f hf)
  queued H := H.queued
  pending H := H.pending
  raising H _ hw := H.raising hw
  step H e hw h := by
    obtain rfl := H.singleton
    exact H.step e ha hw h
  isSome H e hw hh G C hn := by
    obtain rfl := H.singleton
    exact H.isSome e hw hh G C hn

theorem broadcasting_phases (own : WaiterPtr → ThreadPtr) :
    Phases c own key ws (Broadcasting c key ws) where
  frames H f hf := by
    cases H with
    | @loop l => exact .inr ⟨l, List.mem_singleton.mp hf⟩
    | @signal l _ _ _ _ _ _ _ _ hS =>
        rcases List.mem_append.mp hf with hf | hf
        · exact .inl (hS.frames f hf)
        · exact .inr ⟨l, List.mem_singleton.mp hf⟩
    | ended => cases hf
  queued H w hw := by
    cases H with
    | loop hL => exact hL.mem_iff.mpr (.inr hw)
    | signal hL _ hS => exact hL.mem_iff.mpr (.inr (hS.queued w hw))
    | ended => cases hw
  pending H w hw hus := by
    cases H with
    | loop hL => exact .inl ((hL.mem_iff.mp hw).resolve_left hus)
    | signal hL _ hS =>
        rw [List.mem_append, not_or] at hus
        have hin := (hL.mem_iff.mp hw).resolve_left hus.1
        exact (hS.pending w hin hus.2).imp_right (List.mem_append_left _)
    | ended hL => exact .inl ((hL.mem_iff.mp hw).resolve_left hus)
  raising H w hw := by
    cases H with
    | loop => simp at hw
    | signal hL _ hS =>
        have hw := (List.mem_append.mp hw).resolve_right (by simp)
        exact hL.mem_iff.mpr (.inr (hS.raising hw))
    | ended => cases hw
  step H e hw h := H.step e hw h
  isSome H e hw hh G C hn := H.isSome e hw hh G C hn

end Pintos
