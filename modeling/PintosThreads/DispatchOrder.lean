/-
PintosThreads/DispatchOrder.lean

Whom the scheduler dispatches.

`next_thread_to_run` takes the front of `ready_list`, and its counterpart for
the MLFQS the front of the last queue that is not empty.  Neither looks at a
priority.  That the thread they take is one of highest priority (`Foremost`)
is therefore a matter of the lists: `ready_list` has to be sorted by the
priorities that the threads have now, and every thread of `mlfqs_list[i]` has
to have priority `i`.  A step that dispatches somebody leaves a foremost thread
running as long as they are (`step_dispatch`).

Donation breaks both rules.  `donate_priority` writes the priority of a thread
and leaves it where it is queued.
-/
import PintosThreads.SchedulerInv
import PintosThreads.TimerHandler

namespace Pintos

open Intrusive

variable {cfg : Config} {fuel : ℕ} {srt : Prop} {ok : Kernel → Label → Prop}
variable {k k₁ k' : Kernel} {lab : Label} {s : ThreadStatus}

/-! ### The foremost thread -/

/-- No ready thread has a higher priority than the running one, or nobody but the idle thread is
ready and it is running. -/
def Foremost (srt : Prop) (k : Kernel) : Prop :=
  (k.idleThread ≠ some k.cur ∧ (srt → ∀ u, (k.thr u).status = .ready →
    k.idleThread ≠ some u → (k.thr u).priority ≤ (k.thr k.cur).priority)) ∨
  (k.idleThread = some k.cur ∧ ∀ u, (k.thr u).status = .ready → k.idleThread = some u)

theorem Dispatched.foremost (h : Dispatched srt k k') : Foremost srt k' := by
  have hi : k'.idleThread = k.idleThread := congrArg Sync.idleThread h.sync
  -- who is ready now has been ready before
  have hr : ∀ u, (k'.thr u).status = .ready → (k.thr u).status = .ready := by
    intro u hu
    by_cases hc : u = k'.cur
    · rw [hc, h.restatus.1] at hu
      cases hu
    · rwa [h.restatus.2 u hc] at hu
  rcases h.chosen with ⟨-, hn, hm⟩ | ⟨hn, -, hm⟩
  · refine .inl ⟨hi ▸ hn, fun hs u hu hiu => ?_⟩
    rw [h.thr u, h.thr k'.cur]
    exact hm hs u (hr u hu) (hi ▸ hiu)
  · refine .inr ⟨hi.trans hn, fun u hu => ?_⟩
    exact hi.trans (hm u (hr u hu))

theorem Dispatched.dispatches (h : Dispatched srt k k') :
    k'.dispatches = k'.cur :: k.dispatches := by
  rw [Kernel.dispatches, h.log]
  rfl

/-- The last thread that has been dispatched is running, and it is foremost. -/
def JustDispatched (srt : Prop) (k : Kernel) : Prop :=
  k.dispatches.head? = some k.cur ∧ Foremost srt k

theorem Switches.justDispatched (h : Switches srt k k' s) : JustDispatched srt k' := by
  obtain ⟨k₁, -, hd⟩ := h
  refine ⟨?_, hd.foremost⟩
  rw [hd.dispatches]
  rfl

/-! ### One step -/

theorem semaDownTest_dispatches {p : SemaPtr} {old : Bool} (hp : k.semaValue p ≠ 0)
    (h : semaDownTest cfg fuel k p old = some k') : k'.dispatches = k.dispatches := by
  rw [semaDownTest, if_neg hp] at h
  cases h
  rfl

/-- A frame whose effect is not a switch dispatches nobody. -/
theorem exec_dispatches {f : Frame} (h : exec cfg fuel k f = some k')
    (hf : ¬ f.Schedules ∨ ∃ p, f.Downs p ∧ k.semaValue p ≠ 0) : k'.dispatches = k.dispatches := by
  rcases hf with hf | ⟨p, hd, hp⟩
  · have hs : ∀ start n, f ≠ .timerSleepBody start n := by
      rintro start n rfl
      exact hf .timerSleepBody
    exact ((exec_writes h).clockKept hs).dispatches hf
  · cases hd with
    | semaDown => exact semaDownTest_dispatches (k := k.setLevel false) hp h
    | semaDownWait => exact semaDownTest_dispatches hp h

theorem Effect.dispatch {f : Frame} (h : Effect cfg srt k f k')
    (hx : exec cfg fuel k f = some k') :
    k'.dispatches = k.dispatches ∨ JustDispatched srt k' := by
  cases h with
  | same ha _ =>
      refine .inl (exec_dispatches hx ?_)
      cases f with
      | semaDown | semaDownWait => exact .inr ⟨_, by constructor, ha⟩
      | threadYield | threadBlock | threadExit | idleLoop | timerSleepBody => exact absurd trivial ha
      | _ => exact .inl nofun
  | priority hp _ => cases hp <;> exact .inl (exec_dispatches hx (.inl nofun))
  | switch _ _ _ hsw => exact .inr hsw.justDispatched
  | wake hu _ _ => cases hu <;> exact .inl (exec_dispatches hx (.inl nofun))
  | up => exact .inl (exec_dispatches hx (.inl nofun))
  | contend => exact .inl (exec_dispatches hx (.inl nofun))
  | link => exact .inl (exec_dispatches hx (.inl nofun))
  | idle => exact .inl (exec_dispatches hx (.inl nofun))

theorem Returns.dispatch (h : Returns srt k k') :
    k'.dispatches = k.dispatches ∨ JustDispatched srt k' := by
  obtain rfl | h := h
  · exact .inl rfl
  · exact .inr h.justDispatched

/-- **One step** dispatches nobody, or it ends with the dispatch of a foremost thread. -/
theorem step_dispatch (G : Good cfg srt k) (C : Control k) (C' : Control k')
    (hT : Tame cfg srt k lab) (h : step cfg fuel k lab = some k') :
    k'.dispatches = k.dispatches ∨ JustDispatched srt k' := by
  have S := G.sched
  obtain ⟨⟨q, home, L, P⟩, hin⟩ := G.sched
  cases lab with
  | call c =>
      rw [step] at h
      split at h <;> cases h
      exact .inl rfl
  | run =>
      rcases e : k.stack k.cur with - | ⟨f, fs⟩
      · simp [step, e] at h
      · rw [step, e] at h
        obtain ⟨he, -⟩ := exec_effect (S.popFrame fs) (G.legal C e (hT f fs e))
          (C.inv.idleFree_pop e) C'.inv.idleFree h
        exact he.dispatch h
  | timer =>
      rw [step] at h
      split at h
      case isFalse => cases h
      case isTrue =>
        obtain ⟨⟨k₁, b, hh, -, hr⟩, -⟩ := L.timerInterrupt P hin C.inv.idleFree C'.inv.idleFree h
        rw [← timerHandler_dispatches hh]
        exact hr.dispatch
  | semaUp n =>
      rw [step] at h
      split at h
      case isFalse => cases h
      case isTrue =>
        obtain ⟨⟨k₁, hb, -, hr⟩, -⟩ := L.semaUpInterrupt (p := .user n) P hin
          (fun _ => by rintro ⟨⟩) C.inv.idleFree C'.inv.idleFree h
        have hw : Writes cfg (some (.semaUp (.user n))) ((endHalt k).setLevel false)
            (k₁.raised none (.user n)) :=
          semaUpBody_writes (by rintro _ ⟨⟩; exact .semaUp) hb
        have hd : ((endHalt k).setLevel false).dispatches = k.dispatches :=
          (endHalt_silent k).clock.dispatches
        rw [← hd, ← (hw.clockKept (by rintro _ _ ⟨⟩)).dispatches (by rintro ⟨⟩)]
        exact hr.dispatch
  | semaTryDown n =>
      rw [step] at h
      split at h
      case isFalse => cases h
      case isTrue =>
        obtain ⟨rfl, -⟩ := L.semaTryDownInterrupt P h
        have hs := semaTryDown_silent ((endHalt k).setLevel false) none (.user n)
        exact .inl (((endHalt_silent k).setLevel false).trans hs).clock.dispatches

/-! ### Runs -/

/-- **A dispatch** in a run of tame steps finds a thread of highest priority. -/
theorem Reachable.dispatch {n : ThreadPtr}
    (hT : ∀ k lab, Reachable cfg ok k → ok k lab → Tame cfg True k lab) (hr : Reachable cfg ok k)
    (hl : ok k lab) (h : step cfg fuel k lab = some k') (hd : k'.dispatches = n :: k.dispatches)
    {u : ThreadPtr} (hu : (k'.thr u).status = .ready) (hi : k'.idleThread ≠ some u) :
    (k'.thr u).priority ≤ (k'.thr n).priority := by
  have hr' : Reachable cfg ok k' := hr.tail ⟨lab, fuel, hl, h⟩
  rcases step_dispatch (hr.good hT) (Reachable.control hr) (Reachable.control hr') (hT k lab hr hl) h
    with he | ⟨hh, hf⟩
  · rw [he] at hd
    simp at hd
  · obtain rfl : k'.cur = n := by
      rw [hd] at hh
      exact (Option.some.inj hh).symm
    rcases hf with ⟨-, hm⟩ | ⟨-, hm⟩
    · exact hm trivial u hu hi
    · exact absurd (hm u hu) hi

/-- **Queue placement**: in a run of tame steps every thread of `mlfqs_list[i]` has priority `i`,
and the threads that `mlfqs_next_thread_to_run` returns have the highest priority of all that are
ready. -/
theorem mlfqs_queue_placement (hm : cfg.mlfqs = true)
    (hT : ∀ k lab, Reachable cfg ok k → ok k lab → Tame cfg True k lab)
    (hr : Reachable cfg ok k) :
    (∀ i t, priMin ≤ i → i ≤ priMax → k.elems.InList (.mlfqsList i) t →
      (k.thr t).priority = i) ∧
    ∀ lab fuel k' n, ok k lab → step cfg fuel k lab = some k' →
      k'.dispatches = n :: k.dispatches →
        (∀ i t, priMin ≤ i → i ≤ priMax → k'.elems.InList (.mlfqsList i) t →
          i ≤ (k'.thr n).priority) ∧
        ∀ u, (k'.thr u).status = .ready → k'.idleThread ≠ some u →
          (k'.thr u).priority ≤ (k'.thr n).priority := by
  have hplace : ∀ {k}, Reachable cfg ok k → ∀ i t, priMin ≤ i → i ≤ priMax →
      k.elems.InList (.mlfqsList i) t →
        (k.thr t).priority = i ∧ (k.thr t).status = .ready ∧ k.idleThread ≠ some t := by
    intro k hr i t hi hi' ht
    obtain ⟨⟨q, home, L, P⟩, -⟩ := (hr.good hT).sched
    obtain ⟨xs, hx⟩ := L.ready _ (.mlfqsList hm hi hi')
    have hh := (L.inList hx t).mp ht
    obtain ⟨hs, hn, -⟩ := P.ready_of_home hh nofun
    exact ⟨L.bucket trivial hm t i hh, hs, hn⟩
  refine ⟨fun i t hi hi' ht => (hplace hr i t hi hi' ht).1, fun lab fuel k' n hl h hd => ?_⟩
  have hr' : Reachable cfg ok k' := hr.tail ⟨lab, fuel, hl, h⟩
  refine ⟨fun i t hi hi' ht => ?_, fun u hu hn => hr.dispatch hT hl h hd hu hn⟩
  obtain ⟨rfl, hs, hn⟩ := hplace hr' i t hi hi' ht
  exact hr.dispatch hT hl h hd hs hn

/-- Thread 2 yields to thread 3, which has the same priority, while the initial thread is in
`mlfqs_list[31]`. -/
theorem mlfqs_queue_placement_yield : ∃ k k',
    Reachable mlfqsTidConfig (fun k lab => lab.peaceful k) k ∧
      step mlfqsTidConfig 70 k .run = some k' ∧ k'.dispatches = 3 :: k.dispatches ∧
        (k'.elems.InList (.mlfqsList 63) 2 ∧ (k'.thr 2).priority = 63 ∧
          63 ≤ (k'.thr 3).priority) ∧
        k'.elems.InList (.mlfqsList 31) 0 ∧ (k'.thr 0).priority = 31 := by
  obtain ⟨k, hr, hk⟩ := exists_reachable mlfqsTidConfig 70 (fun k lab => lab.peaceful k)
    (List.replicate 125 Label.run ++ [Label.call (.threadCreate 63)] ++ List.replicate 85 Label.run ++
      [Label.call (.threadCreate 63)] ++ List.replicate 51 Label.run ++ [Label.call .threadYield])
    (fun k => Label.run.peaceful k && (step mlfqsTidConfig 70 k .run).any fun k' =>
      k'.dispatches = 3 :: k.dispatches &&
        (k'.elems.next (.head (.mlfqsList 63)) = some (.item 2) &&
          k'.elems.next (.head (.mlfqsList 31)) = some (.item 0))) (by decide +kernel)
  obtain ⟨hlab, hk⟩ := (Bool.and_eq_true _ _).mp hk
  obtain ⟨k', h, hp⟩ := (Option.any_eq_true _ _).mp hk
  simp only [Bool.and_eq_true, decide_eq_true_eq] at hp
  obtain ⟨hd, hn, hn₀⟩ := hp
  have hT : ∀ k lab, Reachable mlfqsTidConfig (fun k lab => lab.peaceful k) k →
      lab.peaceful k = true → Tame mlfqsTidConfig True k lab := fun _ _ _ h => Label.peaceful.tame h
  have hq := mlfqs_queue_placement rfl hT hr
  have hq' := mlfqs_queue_placement rfl hT (hr.tail ⟨.run, 70, hlab, h⟩)
  have hi : k'.elems.InList (.mlfqsList 63) 2 := .single hn
  have hi₀ : k'.elems.InList (.mlfqsList 31) 0 := .single hn₀
  exact ⟨k, k', hr, h, hd, ⟨hi, hq'.1 63 2 (by decide) (by decide) hi,
    (hq.2 _ _ _ _ hlab h hd).1 63 2 (by decide) (by decide) hi⟩,
    hi₀, hq'.1 31 0 (by decide) (by decide) hi₀⟩

/-- Thread 2 donates to the initial thread, which it has preempted and which is in
`mlfqs_list[31]`: there it stays, with priority 63, while thread 3 runs. -/
theorem mlfqs_queue_misplaced : ∃ k, Reachable mlfqsTidConfig (fun _ _ => True) k ∧
    k.stack k.cur = [] ∧ k.elems.InList (.mlfqsList 31) 0 ∧ (k.thr 0).priority = 63 := by
  obtain ⟨k, hr, hk⟩ := exists_reachable mlfqsTidConfig 70 (fun _ _ => True)
    (List.replicate 125 Label.run ++ [Label.call (.lockAcquire 0)] ++ List.replicate 4 Label.run ++
      [Label.call (.threadCreate 63)] ++ List.replicate 85 Label.run ++
      [Label.call (.threadCreate 63)] ++ List.replicate 51 Label.run ++
      [Label.call (.lockAcquire 0)] ++ List.replicate 4 Label.run)
    (fun k => k.stack k.cur = [] && (k.elems.next (.head (.mlfqsList 31)) = some (.item 0) &&
      (k.thr 0).priority = 63)) (by decide +kernel)
  simp only [Bool.and_eq_true, decide_eq_true_eq] at hk
  obtain ⟨hs, hn, h0⟩ := hk
  exact ⟨k, hr, hs, .single hn, h0⟩

/-- **Dispatch order**: in a run of tame steps the thread that `next_thread_to_run` takes has the
highest priority of all in `ready_list`. -/
theorem dispatch_highest {n : ThreadPtr} (hm : cfg.mlfqs = false)
    (hT : ∀ k lab, Reachable cfg ok k → ok k lab → Tame cfg True k lab)
    (hr : Reachable cfg ok k) (hl : ok k lab) (h : step cfg fuel k lab = some k')
    (hd : k'.dispatches = n :: k.dispatches) :
    ∀ u, k'.elems.InList .readyList u → (k'.thr u).priority ≤ (k'.thr n).priority := by
  intro u hu
  have hr' : Reachable cfg ok k' := hr.tail ⟨lab, fuel, hl, h⟩
  obtain ⟨⟨q, home, L, P⟩, -⟩ := (hr'.good hT).sched
  obtain ⟨xs, hx⟩ := L.ready _ (.readyList hm)
  obtain ⟨hs, hi, -⟩ := P.ready_of_home ((L.inList hx u).mp hu) nofun
  exact hr.dispatch hT hl h hd hs hi

/-- The initial thread yields while thread 2 is in the ready list with a lower priority. -/
theorem dispatch_highest_yield : ∃ k k',
    Reachable priorityConfig (fun k lab => lab.peaceful k) k ∧
      step priorityConfig 70 k .run = some k' ∧ k'.dispatches = 0 :: k.dispatches ∧
        k'.elems.InList .readyList 2 ∧ (k'.thr 2).priority ≤ (k'.thr 0).priority := by
  obtain ⟨k, hr, hk⟩ := exists_reachable priorityConfig 70 (fun k lab => lab.peaceful k)
    (List.replicate 19 Label.run ++ [Label.call (.threadCreate 20)] ++ List.replicate 8 Label.run ++
      [Label.call .threadYield])
    (fun k => Label.run.peaceful k && (step priorityConfig 70 k .run).any fun k' =>
      k'.dispatches = 0 :: k.dispatches && k'.elems.next (.head .readyList) = some (.item 2))
    (by decide +kernel)
  obtain ⟨hlab, hk⟩ := (Bool.and_eq_true _ _).mp hk
  obtain ⟨k', h, hp⟩ := (Option.any_eq_true _ _).mp hk
  simp only [Bool.and_eq_true, decide_eq_true_eq] at hp
  obtain ⟨hd, hn⟩ := hp
  have hi : k'.elems.InList .readyList 2 := .single hn
  exact ⟨k, k', hr, h, hd, hi,
    dispatch_highest rfl (fun _ _ _ h => Label.peaceful.tame h) hr hlab h hd 2 hi⟩

/-- Thread 2 donates to the initial thread, which has been preempted and is in the ready list
behind thread 3: thread 3 is dispatched with a lower priority. -/
theorem dispatch_not_highest : ∃ k k', Reachable priorityConfig (fun _ _ => True) k ∧
    step priorityConfig 70 k .run = some k' ∧ k'.dispatches = 3 :: k.dispatches ∧
      k'.elems.InList .readyList 0 ∧ (k'.thr 3).priority < (k'.thr 0).priority := by
  obtain ⟨k, hr, hk⟩ := exists_reachable priorityConfig 70 (fun _ _ => True)
    (List.replicate 19 Label.run ++ [Label.call (.lockAcquire 0)] ++ List.replicate 4 Label.run ++
      [Label.call (.threadCreate 35)] ++ List.replicate 10 Label.run ++
      [Label.call (.threadCreate 33)] ++ List.replicate 8 Label.run ++
      [Label.call (.lockAcquire 0), .run, .run])
    (fun k => (step priorityConfig 70 k .run).any fun k' => k'.dispatches = 3 :: k.dispatches &&
      (k'.elems.next (.head .readyList) = some (.item 0) &&
        (k'.thr 3).priority < (k'.thr 0).priority)) (by decide +kernel)
  obtain ⟨k', h, hp⟩ := (Option.any_eq_true _ _).mp hk
  simp only [Bool.and_eq_true, decide_eq_true_eq] at hp
  obtain ⟨hd, hn, hlt⟩ := hp
  exact ⟨k, k', hr, h, hd, .single hn, hlt⟩

end Pintos
