/-
PintosThreads/SignalAsserts.lean

The assertions of `cond_signal` and `cond_broadcast`.

`cond_wait` publishes its record in `cond->waiters` before it goes to sleep in
`sema_down`, and in between it releases the lock.  A thread that is switched to
in this window can acquire the lock and signal: where the queue holds a second
record, `cond_sema_priority_cmp` asks for the first thread of an empty list, and
`list_front` fails (`signals_assert_fails`).

Where each search of `cond_signal` begins with all the waiters asleep
(`Label.FindsAsleep`), they stay asleep until it is over, since nobody else can
raise their records, and the comparator finds them (`SignalsSafe`).  The lock is
held throughout, also from one round of `cond_broadcast` to the next
(`SignalInv`).  The whole call comes to its end then, unless `ready_list` has
become empty when the `check_preemption` of its `sema_up` looks at it for the
second time (`signals_safe`).
-/
import PintosThreads.SignalCalls

namespace Pintos

open Intrusive

variable {cfg : Config} {fuel : ℕ} {ok : Kernel → Label → Prop} {okCall : Call → Prop}
variable {k k' : Kernel} {lab : Label} {lockOf : CondPtr → LockPtr} {c : CondPtr} {l : LockPtr}
variable {t u : ThreadPtr} {w m : WaiterPtr} {f : Frame} {fs gs : List Frame} {s s' : Sync}

/-! ### The lock is held -/

/-- What can be on the stack of a thread in `cond_broadcast`. -/
inductive Frame.InBroadcast (c : CondPtr) (l : LockPtr) : Frame → Prop
  | broadcast : InBroadcast c l (.condBroadcast c l)
  | signals {f : Frame} : f.Signals → InBroadcast c l f
  | preempts {f : Frame} : f.Preempts → InBroadcast c l f
  | intrSetLevel {old : Bool} : InBroadcast c l (.intrSetLevel old)

/-- Whoever is in `cond_signal` or `cond_broadcast` holds the lock. -/
structure SignalInv (s : Sync) : Prop where
  signal : ∀ u c l, .condSignal c l ∈ s.stack u → s.holder l = some u
  broadcast : ∀ u c l, .condBroadcast c l ∈ s.stack u →
    s.holder l = some u ∧ ∀ f ∈ s.stack u, f.InBroadcast c l

theorem Local.inBroadcast (h : Local f gs) (hf : f.InBroadcast c l) :
    ∀ g ∈ gs, g.InBroadcast c l := by
  intro g hg
  cases h with
  | preempt _ hp =>
      obtain rfl := List.mem_singleton.mp hg
      exact .preempts hp
  | threadYield =>
      obtain rfl := List.mem_singleton.mp hg
      exact .intrSetLevel
  | preemptEnd | intrSetLevel => cases hg
  | _ =>
      cases hf with
      | signals h | preempts h => cases h

/-- What goes on in place of a frame of `cond_broadcast`. -/
theorem Move.inBroadcast (h : Move t s f gs s') (hf : f.InBroadcast c l) :
    (∀ g ∈ gs, g.InBroadcast c l) ∧ s'.holder = s.holder := by
  have hone : ∀ {g' : Frame}, g'.InBroadcast c l → ∀ g ∈ [g'], g.InBroadcast c l := by
    intro g' hg' g hg
    obtain rfl := List.mem_singleton.mp hg
    exact hg'
  cases h with
  | quiet h => exact ⟨h.inBroadcast hf, rfl⟩
  | up hp => exact ⟨hone (.preempts hp), rfl⟩
  | condSignal => exact ⟨hone (.signals .condSignalFirst), rfl⟩
  | condSignalFirst | condSignalMax => exact ⟨hone (.signals .condSignalMax), rfl⟩
  | condSignalFound => exact ⟨hone (.signals .condSignalRemove), rfl⟩
  | condSignalRemove => exact ⟨hone (.signals .semaUp), rfl⟩
  | condSignalNone | condBroadcastEnd => exact ⟨List.forall_mem_nil _, rfl⟩
  | condBroadcast =>
      cases hf with
      | broadcast =>
          exact ⟨List.forall_mem_cons.mpr ⟨.signals .condSignal, hone .broadcast⟩, rfl⟩
      | signals h | preempts h => cases h
  | down hd | wait hd =>
      cases hf with
      | broadcast | intrSetLevel => cases hd
      | signals h => cases hd <;> cases h
      | preempts h => cases hd <;> cases h
  | take ht =>
      cases hf with
      | broadcast | intrSetLevel => cases ht
      | signals h => cases ht <;> cases h
      | preempts h => cases ht <;> cases h
  | _ =>
      cases hf with
      | signals h | preempts h => cases h

theorem Local.signals_not_mem (h : Local f gs) :
    .condSignal c l ∉ gs ∧ .condBroadcast c l ∉ gs := by
  cases h with
  | preempt _ hp | threadCreateUnblock hp =>
      refine ⟨fun hg => ?_, fun hg => ?_⟩ <;>
        · obtain rfl := List.mem_singleton.mp hg
          cases hp
  | _ => simp

/-- A new frame of `cond_signal` or `cond_broadcast` belongs to a round of the loop. -/
theorem Move.signals_mem (h : Move t s f gs s')
    (hg : .condSignal c l ∈ gs ∨ .condBroadcast c l ∈ gs) : f = .condBroadcast c l := by
  cases h with
  | quiet h => exact (hg.elim h.signals_not_mem.1 h.signals_not_mem.2).elim
  | up hp =>
      simp only [List.mem_singleton] at hg
      obtain rfl | rfl := hg <;> cases hp
  | condBroadcast =>
      obtain ⟨rfl, rfl⟩ : _ ∧ _ := by simpa using hg
      rfl
  | _ => simp at hg

/-- The holder of a lock keeps it in a step that is not its release. -/
theorem LockInv.kept (L : LockInv l s) (I : s.Inv) (h : Sync.Step okCall t s s')
    (hu : s.holder l = some u) (hf : ∀ fs, s.stack u ≠ .lockReleaseBody l :: fs) :
    s'.holder l = some u := by
  rcases L.holder_stable I h hu with hu | ⟨rfl, fs, e⟩
  · exact hu
  · exact absurd e (hf fs)

/-- **One step.** -/
theorem SignalInv.step (H : SignalInv s) (I : s.Inv) (L : ∀ l, LockInv l s)
    (h : Sync.Step okCall t s s')
    (hc : ∀ c n, okCall (.condSignal c n) ∨ okCall (.condBroadcast c n) →
      s.holder (.user n) = some t) : SignalInv s' where
  signal := by
    suffices hs : ∀ u, ∀ f ∈ s'.stack u, ∀ c l, f = .condSignal c l → s'.holder l = some u from
      fun u c l hf => hs u _ hf c l rfl
    refine h.frames I.unborn (Q := fun u f => ∀ c l, f = .condSignal c l → s.holder l = some u)
      (by rintro u f hf c l rfl; exact H.signal u c l hf) ?_ ?_ ?_ ?_ (by rintro _ _ ⟨⟩)
      (by rintro _ _ _ ⟨⟩)
    · rintro u f hf - hQ c l rfl
      refine (L l).kept I h (hQ c l rfl) fun fs e => ?_
      -- nothing but a yield can stand on `cond_signal`
      have hst : Stacked (.lockReleaseBody l :: fs) := e ▸ I.stacked u
      rw [e] at hf
      have hfs : .condSignal c l ∈ fs := List.mem_of_ne_of_mem (by rintro ⟨⟩) hf
      obtain e' | ⟨_, e'⟩ := hst.yields_of_mem hfs (by rintro _ ⟨⟩) <;> cases e'
    · rintro cl hok - e c l hcl
      cases cl with
      | condSignal c' n =>
          cases hcl
          refine (L _).kept I h (hc c n (.inl hok)) fun fs e' => ?_
          rw [e] at e'
          cases e'
      | _ => cases hcl
    · rintro f fs gs s₁ e hm rfl - g hg c l rfl
      obtain rfl := hm.signals_mem (.inl hg)
      obtain ⟨hh, -⟩ := H.broadcast t c l (e ▸ .head fs)
      refine (L l).kept I h hh fun fs' e' => ?_
      rw [e] at e'
      cases e'
    · rintro p en n r - f hf c l rfl
      cases en <;> simp [Entry.stack] at hf
  broadcast := by
    intro u c l hf
    by_cases hu : u = t
    · subst hu
      cases h with
      | @call cl hok e hlt =>
          rw [Sync.setStack_stack, Function.update_self] at hf ⊢
          have hcl : .condBroadcast c l = cl.frame := List.mem_singleton.mp hf
          cases cl with
          | condBroadcast c' n =>
              cases hcl
              refine ⟨hc c n (.inr hok), fun f hf => ?_⟩
              obtain rfl := List.mem_singleton.mp hf
              exact .broadcast
          | _ => cases hcl
      | @interrupt fs' s₁ hi hh hlt =>
          have hhold : s₁.holder = s.holder := by cases hh <;> rfl
          rw [Sync.setStack_stack, Function.update_self] at hf ⊢
          rw [Sync.setStack_holder, hhold]
          have hin : ∀ {fs : List Frame}, s.stack u = .idleHalt :: fs →
              .condBroadcast c l ∉ s.stack u := by
            intro fs e hmem
            have hidle := (H.broadcast u c l hmem).2 .idleHalt (e ▸ .head fs)
            cases hidle with
            | signals h | preempts h => cases h
          generalize hst : s.stack u = st at hi
          cases hi with
          | halt =>
              have hmem : .condBroadcast c l ∈ s.stack u := by
                rw [hst]
                exact .tail _ (List.mem_of_ne_of_mem (by rintro ⟨⟩) hf)
              exact absurd hmem (hin hst)
          | haltYield =>
              have hmem : .condBroadcast c l ∈ s.stack u := by
                rw [hst]
                have hf := List.mem_of_ne_of_mem (by rintro ⟨⟩) hf
                exact .tail _ (List.mem_of_ne_of_mem (by rintro ⟨⟩) hf)
              exact absurd hmem (hin hst)
          | none => exact hst ▸ H.broadcast u c l (hst ▸ hf)
          | yield =>
              have hmem := List.mem_of_ne_of_mem (by rintro ⟨⟩) hf
              obtain ⟨hh', hall⟩ := H.broadcast u c l (hst ▸ hmem)
              exact ⟨hh', List.forall_mem_cons.mpr ⟨.intrSetLevel, hst ▸ hall⟩⟩
      | @run f fs gs s₁ e hm =>
          rw [Sync.setStack_stack, Function.update_self, (hm.stack_run I.unborn e).1] at hf ⊢
          have hmem : .condBroadcast c l ∈ s.stack u := by
            rw [e]
            rcases List.mem_append.mp hf with hg | hfs
            · obtain rfl := hm.signals_mem (.inr hg)
              exact .head fs
            · exact .tail f hfs
          obtain ⟨hh, hall⟩ := H.broadcast u c l hmem
          rw [e] at hall
          obtain ⟨hff, hfs⟩ := List.forall_mem_cons.mp hall
          obtain ⟨hgs, hhold⟩ := hm.inBroadcast hff
          refine ⟨?_, fun g hg => (List.mem_append.mp hg).elim (hgs g) (hfs g)⟩
          rw [Sync.setStack_holder, hhold]
          exact hh
    · rcases h.stack_of_ne I hu with e | ⟨-, p, en, n, r, fs, -, e⟩
      · rw [e] at hf ⊢
        obtain ⟨hh, hall⟩ := H.broadcast u c l hf
        rcases (L l).holder_stable I h hh with hh | ⟨hut, -⟩
        · exact ⟨hh, hall⟩
        · exact absurd hut hu
      · rw [e] at hf
        cases en <;> simp [Entry.stack] at hf

theorem boot_signalInv (cfg : Config) : SignalInv (boot cfg).sync where
  signal u c l hf := by
    have hf : .condSignal c l ∈ (boot cfg).stack u := hf
    rcases boot_stack hf with e | e <;> cases e
  broadcast u c l hf := by
    have hf : .condBroadcast c l ∈ (boot cfg).stack u := hf
    rcases boot_stack hf with e | e <;> cases e

/-! ### Searching among sleepers -/

/-- The owner of record `w` is asleep in its `sema_down`. -/
def Asleep (k : Kernel) (w : WaiterPtr) : Prop :=
  ∃ t, Waiting k (.ofWaiter w) t

/-- A search of `cond_signal` that has records left to compare is among sleepers. -/
def SearchesSleepers (k : Kernel) : Prop :=
  ∀ u c m es, .condSignalMax c m es ∈ k.stack u → es ≠ [] → ∀ w ∈ m :: es, Asleep k w

/-- The calls keep to the rules: a condition variable is used with one lock, which the caller
holds. -/
def Call.Follows (lockOf : CondPtr → LockPtr) (k : Kernel) : Call → Prop
  | condWait c n | condSignal c n | condBroadcast c n =>
      .user n = lockOf c ∧ k.lockHolder (.user n) = some k.cur
  | _ => True

/-- Where a `cond_signal` begins its search among several records, all their owners are asleep. -/
def Label.FindsAsleep (k : Kernel) : Label → Prop
  | .run => ∀ c fs, k.stack k.cur = .condSignalFirst c :: fs → 2 ≤ (k.condWaiters c).length →
      ∀ w ∈ k.condWaiters c, Asleep k w
  | _ => True

theorem Call.Follows.disciplined {c : Call} (h : c.Follows lockOf k) : c.Disciplined lockOf := by
  cases c with
  | condWait | condSignal | condBroadcast => exact h.1
  | _ => trivial

/-- The records that a search compares are in the queue, and so nobody raises them. -/
theorem CondState.not_ups (S : CondState cfg lockOf k) (hw : w ∈ k.condWaiters c) :
    ¬ lab.Ups k (.ofWaiter w) := by
  intro hu
  obtain ⟨rfl, gs, e⟩ := hu.run (by rintro _ ⟨⟩)
  refine (S.cond.queued c w hw).2 k.cur ?_
  rw [Kernel.sync_stack, e]
  exact .head gs

/-- A search begins with the first record, and goes on with one of the two it has compared. -/
theorem Move.search_mem {es : List WaiterPtr} (h : Move t s f gs s')
    (hg : .condSignalMax c m es ∈ gs) :
    f = .condSignalFirst c ∧ s.waiters c = m :: es ∨
      ∃ m₀ e, f = .condSignalMax c m₀ (e :: es) ∧ (m = m₀ ∨ m = e) := by
  cases h with
  | quiet h =>
      exfalso
      cases h with
      | preempt _ hp | threadCreateUnblock hp =>
          obtain rfl := List.mem_singleton.mp hg
          cases hp
      | _ => simp at hg
  | up hp =>
      obtain rfl := List.mem_singleton.mp hg
      cases hp
  | condSignalFirst hw =>
      cases List.mem_singleton.mp hg
      exact .inl ⟨rfl, hw⟩
  | condSignalMax hm =>
      cases List.mem_singleton.mp hg
      exact .inr ⟨_, _, rfl, hm⟩
  | _ => simp at hg

/-- **One step** of a run in which searches begin among sleepers. -/
theorem SearchesSleepers.step (H : SearchesSleepers k) (S : CondState cfg lockOf k)
    (S' : CondState cfg lockOf k') (hT : Tame cfg False k lab) (hA : lab.FindsAsleep k)
    (h : Pintos.step cfg fuel k lab = some k') : SearchesSleepers k' := by
  -- the records of the searches after the step, in the state before it
  have key : ∀ u, ∀ f ∈ k'.sync.stack u, ∀ c m es, f = .condSignalMax c m es → es ≠ [] →
      ∀ w ∈ m :: es, w ∈ k.condWaiters c ∧ Asleep k w := by
    rintro u f hf c m es rfl hes w hw
    have hold : ∀ {c m es}, .condSignalMax c m es ∈ k.stack u → es ≠ [] → ∀ w ∈ m :: es,
        w ∈ k.condWaiters c ∧ Asleep k w :=
      fun hmem hes w hw =>
        ⟨(S.cond.found u _ hmem _ _ .condSignalMax).2 w hw, H u _ _ _ hmem hes w hw⟩
    by_cases hu : u = k.cur
    · subst hu
      obtain ⟨hs, -⟩ := step_syncStep S.cur_lt h
      generalize k'.sync = s' at hs hf
      cases hs with
      | @call cl e =>
          rw [Sync.setStack_stack, Function.update_self] at hf
          cases cl <;> cases List.mem_singleton.mp hf
      | interrupt _ hi =>
          rw [Sync.setStack_stack, Function.update_self] at hf
          rcases hi.mem hf with hmem | e | e
          · exact hold hmem hes w hw
          · cases e
          · cases e
      | @run f fs gs s₁ e hm =>
          rw [Sync.setStack_stack, Function.update_self,
            (hm.stack_run S.control.inv.unborn e).1] at hf
          rcases List.mem_append.mp hf with hg | hfs
          · rcases hm.search_mem hg with ⟨rfl, hq⟩ | ⟨m₀, x, rfl, hmx⟩
            · have hq : k.condWaiters c = m :: es := hq
              have h2 : 2 ≤ (k.condWaiters c).length := by
                have hpos := List.length_pos_iff.mpr hes
                rw [hq, List.length_cons]
                omega
              have hwq : w ∈ k.condWaiters c := hq ▸ hw
              exact ⟨hwq, hA c fs e h2 w hwq⟩
            · have hmem : .condSignalMax c m₀ (x :: es) ∈ k.stack k.cur := e ▸ .head fs
              refine hold hmem (List.cons_ne_nil x es) w ?_
              rcases List.mem_cons.mp hw with rfl | hw
              · rcases hmx with rfl | rfl
                · exact .head _
                · exact .tail _ (.head _)
              · exact .tail _ (.tail _ hw)
          · exact hold (e ▸ .tail f hfs) hes w hw
    · obtain ⟨hs, -⟩ : Sync.Step (fun _ => True) k.cur k.sync k'.sync ∧ _ :=
        step_sync S.cur_lt (fun _ _ => trivial) h
      rcases hs.stack_of_ne S.control.inv hu with e | ⟨-, p, en, n, r, fs, -, e⟩
      · rw [e] at hf
        exact hold hf hes w hw
      · rw [e] at hf
        cases en <;> simp [Entry.stack] at hf
  intro u c m es hf hes w hw
  obtain ⟨hq, t, ht⟩ := key u _ hf c m es rfl hes w hw
  exact ⟨t, S.still_waiting S' hT h ht (S.not_ups hq)⟩

/-! ### Runs -/

/-- **The functions of condition variables trip no assertion** in this state: the comparator is
applied to semaphores with waiters, and the steps of `cond_signal`, of `cond_broadcast` and of their
`sema_up` up to its `value++` can be taken. -/
structure SignalsSafe (cfg : Config) (k : Kernel) : Prop where
  compares : ∀ c m e es fs, k.stack k.cur = .condSignalMax c m (e :: es) :: fs →
    k.elems.listEmpty (.semaWaiters (.ofWaiter m)) = false ∧
      k.elems.listEmpty (.semaWaiters (.ofWaiter e)) = false
  goesOn : ∀ f fs fuel, k.stack k.cur = f :: fs → (f.Signals ∨ ∃ c l, f = .condBroadcast c l) →
    k.nextThread < fuel → (step cfg fuel k .run).isSome

/-- A thread that is asleep is the first in its record's list. -/
theorem CondState.first (S : CondState cfg lockOf k) (h : Asleep k w) :
    ∃ t, k.elems.listEmpty (.semaWaiters (.ofWaiter w)) = false ∧
      k.elems.listFront (.semaWaiters (.ofWaiter w)) = some (.item t) := by
  obtain ⟨t, ht⟩ := h
  have hl := S.waiters ht
  have he : k.elems.listEmpty (.semaWaiters (.ofWaiter w)) = false := by
    rw [Bool.eq_false_iff, Ne, hl.listEmpty]
    exact List.cons_ne_nil t []
  refine ⟨t, he, ?_⟩
  rw [Links.listFront, he, hl.seg.next_eq]
  rfl

/-- **The assertions of one state.** -/
theorem CondState.signalsSafe (S : CondState cfg lockOf k) (H : SearchesSleepers k)
    (I : SignalInv k.sync) : SignalsSafe cfg k where
  compares c m e es fs hst := by
    have hall := H k.cur c m (e :: es) (hst ▸ .head fs) (List.cons_ne_nil e es)
    obtain ⟨-, hm, -⟩ := S.first (hall m (.head _))
    obtain ⟨-, he, -⟩ := S.first (hall e (.tail _ (.head _)))
    exact ⟨hm, he⟩
  goesOn f fs fuel e hf hn := by
    have hmem : f ∈ k.stack k.cur := e ▸ .head fs
    rcases hf with hf | ⟨c, l, rfl⟩
    · cases hf with
      | @semaUp w => exact S.good.ups_isSome S.control (.inl ⟨rfl, fs, e⟩) (.inl rfl) hn
      | @condSignal c l =>
          have hl : (popFrame k fs).lockHolder l = some (popFrame k fs).cur :=
            I.signal k.cur c l hmem
          rw [step_run e]
          simp only [exec]
          rw [if_pos hl]
          rfl
      | condSignalFirst =>
          rw [step_run e]
          simp only [exec]
          split <;> rfl
      | @condSignalMax c m es =>
          rw [step_run e]
          rcases es with - | ⟨x, es⟩
          · rfl
          · have hall := H k.cur c m (x :: es) hmem (List.cons_ne_nil x es)
            obtain ⟨a, -, ha⟩ := S.first (hall m (.head _))
            obtain ⟨b, -, hb⟩ := S.first (hall x (.tail _ (.head _)))
            have ha : (popFrame k fs).elems.listFront (.semaWaiters (.ofWaiter m)) = _ := ha
            have hb : (popFrame k fs).elems.listFront (.semaWaiters (.ofWaiter x)) = _ := hb
            simp [exec, condSemaPriorityCmp, ha, hb]
      | condSignalRemove =>
          rw [step_run e]
          rfl
    · rw [step_run e]
      simp only [exec]
      split <;> rfl

/-- **A step of a call** can be taken, unless it is the second look of `check_preemption` at an
empty list. -/
theorem InSignal.isSome {total n i : ℕ} (H : InSignal cfg lockOf c k.cur fs total n i k)
    (S : CondState cfg lockOf k) (hs : SignalsSafe cfg k) (hne : k.stack k.cur ≠ fs)
    (hn : k.nextThread < fuel) : (Pintos.step cfg fuel k .run).isSome ↔ ¬ FrontFails k := by
  obtain ⟨f, gs, e, hf, -⟩ := H.head hne
  rcases hf.ofCall with hnested | hcall
  · exact hnested.isSome e S.good S.control hn
  · have hsome := hs.goesOn f (gs ++ fs) fuel e (hcall.imp_right fun ⟨c, l, h⟩ => ⟨c, l, h⟩) hn
    refine iff_of_true hsome (not_frontFails e ?_)
    rintro rfl
    rcases hcall with h | ⟨c, l, h⟩ <;> cases h

/-- The states of runs in which searches begin among sleepers. -/
theorem Reachable.signalsSafe (hok : ∀ k c, ok k (.call c) → c.Follows lockOf k)
    (hT : ∀ k lab, Reachable cfg ok k → ok k lab → Tame cfg False k lab ∧ lab.FindsAsleep k)
    (hr : Reachable cfg ok k) :
    CondState cfg lockOf k ∧ SignalInv k.sync ∧ SignalsSafe cfg k := by
  have hT₀ : ∀ k lab, Reachable cfg ok k → ok k lab → Tame cfg False k lab :=
    fun k lab hr h => (hT k lab hr h).1
  have hS : ∀ {k}, Reachable cfg ok k → CondState cfg lockOf k :=
    fun hr => hr.condState hT₀ fun k c h => (hok k c h).disciplined
  suffices hinv : SearchesSleepers k ∧ SignalInv k.sync from
    ⟨hS hr, hinv.2, (hS hr).signalsSafe hinv.1 hinv.2⟩
  induction hr with
  | refl =>
      refine ⟨fun u c m es hf => ?_, boot_signalInv cfg⟩
      rcases boot_stack hf with e | e <;> cases e
  | @tail k₁ k₂ hr hn ih =>
      obtain ⟨lab, fuel, hlab, h⟩ := hn
      have hr' : Reachable cfg ok k₂ := .tail hr ⟨lab, fuel, hlab, h⟩
      obtain ⟨ht, ha⟩ := hT k₁ lab hr hlab
      refine ⟨ih.1.step (hS hr) (hS hr') ht ha h, ?_⟩
      have hc : ∀ c, lab = .call c → c.Follows lockOf k₁ := by
        rintro c rfl
        exact hok k₁ c hlab
      obtain ⟨hs, -⟩ := step_sync (hS hr).cur_lt hc h
      refine ih.2.step (Reachable.control hr).inv (Reachable.control hr).lock hs ?_
      rintro c n (hc | hc)
      · exact hc.2
      · exact hc.2

/-- **`cond_signal` and `cond_broadcast` trip no assertion** in any run in which the calls keep to
the rules and every search among several records begins with their owners asleep, up to the second
look at `ready_list` in `check_preemption`.  A call comes to its end: the caller takes a bounded
number of steps, one more for each interrupt, and each of them can be taken exactly if it is not
such a look at an empty list. -/
theorem signals_safe (hok : ∀ k c, ok k (.call c) → c.Follows lockOf k)
    (hT : ∀ k lab, Reachable cfg ok k → ok k lab → Tame cfg False k lab ∧ lab.FindsAsleep k)
    (hr : Reachable cfg ok k) :
    SignalsSafe cfg k ∧
    ∀ f fs c l tr k', k.stack k.cur = f :: fs → f = .condSignal c l ∨ f = .condBroadcast c l →
      Path cfg ok k tr k' → (∀ s ∈ tr, s.1.stack k.cur ≠ fs) →
        ownSteps k.cur tr ≤ f.callSteps (k.condWaiters c).length + ownInterrupts k.cur tr ∧
        (k'.cur = k.cur → k'.stack k.cur ≠ fs → ∀ fuel, k'.nextThread < fuel →
          ((step cfg fuel k' .run).isSome ↔ ¬ FrontFails k')) := by
  obtain ⟨S, I, hsafe⟩ := hr.signalsSafe hok hT
  refine ⟨hsafe, fun f fs c l tr k' e hf hp hne => ?_⟩
  have hmem : f ∈ k.sync.stack k.cur := by
    rw [Kernel.sync_stack, e]
    exact .head _
  have hl : l = lockOf c ∧ k.lockHolder l = some k.cur := by
    rcases hf with rfl | rfl
    · exact ⟨S.cond.disciplined k.cur (.condSignal c l) hmem, I.signal k.cur c l hmem⟩
    · exact ⟨S.cond.disciplined k.cur (.condBroadcast c l) hmem, (I.broadcast k.cur c l hmem).1⟩
  obtain ⟨rfl, hh⟩ := hl
  have hof : f.OfSignal cfg c := by
    rcases hf with rfl | rfl
    · exact .condSignal
    · exact .condBroadcast
  have H := InSignal.run (fun hr => (hr.signalsSafe hok hT).1) hr (.start e hof hh) hp hne
  refine ⟨H.steps_le, fun hc hne' fuel hn => ?_⟩
  obtain ⟨S', -, hsafe'⟩ := (hp.reachable hr).signalsSafe hok hT
  rw [← hc] at H hne'
  exact H.isSome S' hsafe' hne' hn

/-! ### Two runs -/

/-- Calls that use condition variables with lock 0, and hold it. -/
def Label.follows (k : Kernel) : Label → Bool
  | .call (.condWait _ n) | .call (.condSignal _ n) | .call (.condBroadcast _ n) =>
      n = 0 && k.lockHolder (.user 0) = some k.cur
  | _ => true

/-- Searches among several records that begin with their owners asleep. -/
def Label.findsAsleep (k : Kernel) : Label → Bool
  | .run =>
      match k.stack k.cur with
      | .condSignalFirst c :: _ => (k.condWaiters c).all fun w =>
          (List.range k.nextThread).any fun t => Waiting k (.ofWaiter w) t
      | _ => true
  | _ => true

theorem Label.follows.call {c : Call} (h : Label.follows k (.call c) = true) :
    c.Follows (fun _ => .user 0) k := by
  cases c with
  | condWait | condSignal | condBroadcast =>
      simp only [Label.follows, Bool.and_eq_true, decide_eq_true_eq] at h
      obtain ⟨rfl, hh⟩ := h
      exact ⟨rfl, hh⟩
  | _ => trivial

theorem Label.findsAsleep.asleep (h : lab.findsAsleep k = true) : lab.FindsAsleep k := by
  cases lab with
  | run =>
      rintro c fs e - w hw
      simp only [Label.findsAsleep, e, List.all_eq_true, List.any_eq_true] at h
      obtain ⟨t, -, ht⟩ := h w hw
      exact ⟨t, of_decide_eq_true ht⟩
  | _ => trivial

/-- Threads 2 and 3 are asleep in `cond_wait` when thread 4 broadcasts.  It compares them, and looks
at `ready_list` for the second time when it has woken the first of them. -/
theorem signals_safe_broadcast : ∃ k k₁ k₂ tr,
    Reachable priorityConfig
      (fun k lab => lab.peaceful k && (lab.follows k && lab.findsAsleep k)) k ∧
    k.stack k.cur = [.condBroadcast 0 (.user 0)] ∧
    Path priorityConfig (fun k lab => lab.peaceful k && (lab.follows k && lab.findsAsleep k)) k
      tr k₂ ∧
    k₁.stack k₁.cur = [.condSignalMax 0 0 [1], .condBroadcast 0 (.user 0)] ∧
      SignalsSafe priorityConfig k₁ ∧
    k₂.stack k.cur = [.checkPreemptionFront, .condBroadcast 0 (.user 0)] ∧ ownSteps k.cur tr = 8 ∧
      ownSteps k.cur tr ≤ broadcastSteps 2 + ownInterrupts k.cur tr ∧
      (step priorityConfig 70 k₂ .run).isSome := by
  obtain ⟨k, hr, hk⟩ := exists_reachable priorityConfig 70
    (fun k lab => lab.peaceful k && (lab.follows k && lab.findsAsleep k))
    (List.replicate 19 Label.run ++ [Label.call (.threadCreate 33)] ++
      List.replicate 10 Label.run ++
      [Label.call (.lockAcquire 0), .run, .run, .run, .run, .call (.condWait 0 0)] ++
      List.replicate 12 Label.run ++ [Label.call (.threadCreate 35)] ++
      List.replicate 10 Label.run ++
      [Label.call (.lockAcquire 0), .run, .run, .run, .run, .call (.condWait 0 0)] ++
      List.replicate 12 Label.run ++ [Label.call (.threadCreate 40)] ++
      List.replicate 10 Label.run ++
      [Label.call (.lockAcquire 0), .run, .run, .run, .run, .call (.condBroadcast 0 0)])
    (fun k => k.stack k.cur = [.condBroadcast 0 (.user 0)] ∧ (k.condWaiters 0).length = 2 ∧
      (execute priorityConfig 70 (fun k lab => lab.peaceful k && (lab.follows k && lab.findsAsleep k))
        k (List.replicate 3 Label.run)).any (fun k₁ =>
          k₁.stack k₁.cur = [.condSignalMax 0 0 [1], .condBroadcast 0 (.user 0)]) ∧
      (execute priorityConfig 70 (fun k lab => lab.peaceful k && (lab.follows k && lab.findsAsleep k))
        k (List.replicate 8 Label.run)).any (fun k₂ => k₂.cur = k.cur ∧
          k₂.stack k.cur = [.checkPreemptionFront, .condBroadcast 0 (.user 0)] ∧
          k₂.nextThread < 70 ∧ k₂.elems.listEmpty .readyList = false) ∧
      (∀ s ∈ trace priorityConfig 70 k (List.replicate 8 Label.run), s.1.stack k.cur ≠ []) ∧
      ownSteps k.cur (trace priorityConfig 70 k (List.replicate 8 Label.run)) = 8)
    (by decide +kernel)
  obtain ⟨hs, hl, h₁, h₂, hne, hown⟩ := of_decide_eq_true hk
  obtain ⟨k₁, he₁, hk₁⟩ := (Option.any_eq_true _ _).mp h₁
  obtain ⟨k₂, he₂, hk₂⟩ := (Option.any_eq_true _ _).mp h₂
  obtain ⟨hc, hs₂, hn, hready⟩ := of_decide_eq_true hk₂
  have hok : ∀ k c, (Label.peaceful k (.call c) &&
      (Label.follows k (.call c) && Label.findsAsleep k (.call c))) = true →
      c.Follows (fun _ => .user 0) k := by
    intro k c h
    exact Label.follows.call (Bool.and_eq_true_iff.mp (Bool.and_eq_true_iff.mp h).2).1
  have hT : ∀ k lab, (Label.peaceful k lab && (lab.follows k && lab.findsAsleep k)) = true →
      Tame priorityConfig False k lab ∧ lab.FindsAsleep k := by
    intro k lab h
    obtain ⟨hp, h⟩ := Bool.and_eq_true_iff.mp h
    exact ⟨Label.peaceful.tame hp, Label.findsAsleep.asleep (Bool.and_eq_true_iff.mp h).2⟩
  obtain ⟨hsafe, -⟩ := signals_safe hok (fun k lab _ => hT k lab) ((execute_path he₁).reachable hr)
  obtain ⟨-, hcall⟩ := signals_safe hok (fun k lab _ => hT k lab) hr
  obtain ⟨hle, hgo⟩ := hcall _ _ _ _ _ _ hs (.inr rfl) (execute_path he₂) hne
  have hfull : ¬ FrontFails k₂ := fun hf => absurd (hready.symm.trans hf.2) Bool.false_ne_true
  have hret : k₂.stack k.cur ≠ [] := by
    rw [hs₂]
    exact List.cons_ne_nil _ _
  refine ⟨k, k₁, k₂, _, hr, hs, execute_path he₂, of_decide_eq_true hk₁, hsafe, hs₂, hown, ?_,
    (hgo hc hret 70 hn).mpr hfull⟩
  have hle : ownSteps k.cur _ ≤ broadcastSteps (k.condWaiters 0).length + _ := hle
  rwa [hl] at hle

/-- Thread 2 is asleep in `cond_wait`, and thread 3 has published its record and released the lock
when its time slice ends.  Thread 4 acquires the lock and signals. -/
theorem signals_assert_fails : ∃ k,
    Reachable priorityConfig (fun k lab => lab.peaceful k && lab.follows k) k ∧
    k.stack k.cur = [.condSignalMax 0 0 [1]] ∧
      k.elems.listEmpty (.semaWaiters (.ofWaiter 1)) = true ∧
        (∀ fuel, step priorityConfig fuel k .run = none) ∧ ¬ SignalsSafe priorityConfig k := by
  obtain ⟨k, hr, hk⟩ := exists_reachable priorityConfig 70
    (fun k lab => lab.peaceful k && lab.follows k)
    (List.replicate 19 Label.run ++ [Label.call (.threadCreate 33)] ++
      List.replicate 10 Label.run ++
      [Label.call (.lockAcquire 0), .run, .run, .run, .run, .call (.condWait 0 0)] ++
      List.replicate 12 Label.run ++ [Label.call (.threadCreate 33)] ++
      List.replicate 10 Label.run ++ [Label.call (.threadCreate 33)] ++
      List.replicate 8 Label.run ++
      [Label.call (.lockAcquire 0), .run, .run, .run, .run, .call (.condWait 0 0)] ++
      List.replicate 10 Label.run ++
      [Label.timer, .timer, .timer, .timer, .run, .call (.lockAcquire 0), .run, .run, .run, .run,
        .call (.condSignal 0 0), .run, .run])
    (fun k => k.stack k.cur = [.condSignalMax 0 0 [1]] ∧
      k.elems.listEmpty (.semaWaiters (.ofWaiter 1)) = true) (by decide +kernel)
  obtain ⟨hs, he⟩ := of_decide_eq_true hk
  refine ⟨k, hr, hs, he, fun fuel => ?_, fun h => ?_⟩
  · have hcmp : condSemaPriorityCmp priorityConfig (popFrame k []) 0 1 = none := by
      have hf : (popFrame k []).elems.listFront (.semaWaiters (.ofWaiter 1)) = none := by
        rw [Links.listFront, show (popFrame k []).elems = k.elems from rfl, he, if_pos rfl]
      simp [condSemaPriorityCmp, hf]
    rw [step_run hs]
    simp [exec, hcmp]
  · rw [(h.compares 0 0 1 [] [] hs).2] at he
    cases he

end Pintos
