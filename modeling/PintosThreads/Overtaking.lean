/-
PintosThreads/Overtaking.lean

How long a thread waits on a semaphore.

`sema->waiters` is a fair queue (`FairQueue`): the `sema_down`s that have to
wait are its arrivals, and the `sema_up`s serve it.  Along a run in which
thread `t` waits all the time, the number of threads in front of it changes by
the `sema_down`s of threads of higher priority and by the `sema_up`s, and by
nothing else (`sema_bounded_overtaking`).  Threads of the same priority are
woken in the order in which they came.
-/
import PintosThreads.WaiterOrder
import PintosThreads.FairQueue

namespace Pintos

open Intrusive

variable {cfg : Config} {fuel : ℕ} {srt : Prop} {ok : Kernel → Label → Prop}
variable {k k₁ k' : Kernel} {lab : Label} {p : SemaPtr} {t x : ThreadPtr}

/-! ### Arrivals and services -/

/-- The step is a `sema_up` on `p`. -/
def Label.ups (k : Kernel) (p : SemaPtr) : Label → Bool
  | .run => (k.stack k.cur).head? = some (.semaUp p)
  | .semaUp n => p = .user n
  | _ => false

theorem Label.ups_iff : lab.ups k p = true ↔ lab.Ups k p := by
  cases lab <;> simp [Label.ups, Label.Ups, List.head?_eq_some_iff]

/-- The step is a `sema_down` on `p` that has to wait. -/
def Label.waits (k : Kernel) (p : SemaPtr) : Label → Bool
  | .run =>
      match k.stack k.cur with
      | .semaDown s :: _ | .semaDownWait s _ :: _ => s = p && k.semaValue p = 0
      | _ => false
  | _ => false

theorem Label.waits_iff : lab.waits k p = true ↔
    lab = .run ∧ k.semaValue p = 0 ∧ ∃ f fs, k.stack k.cur = f :: fs ∧ f.Downs p := by
  constructor
  · intro h
    cases lab with
    | run =>
        rcases e : k.stack k.cur with - | ⟨f, fs⟩
        · simp [Label.waits, e] at h
        · cases f with
          | semaDown s =>
              obtain ⟨rfl, hv⟩ : s = p ∧ k.semaValue p = 0 := by simpa [Label.waits, e] using h
              exact ⟨rfl, hv, _, _, rfl, .semaDown⟩
          | semaDownWait s old =>
              obtain ⟨rfl, hv⟩ : s = p ∧ k.semaValue p = 0 := by simpa [Label.waits, e] using h
              exact ⟨rfl, hv, _, _, rfl, .semaDownWait⟩
          | _ => simp [Label.waits, e] at h
    | _ => cases h
  · rintro ⟨rfl, hv, f, fs, e, hd⟩
    cases hd <;> simp [Label.waits, e, hv]

/-- A thread of higher priority than `t` comes to wait on `p`. -/
def Label.overtakes (k : Kernel) (p : SemaPtr) (t : ThreadPtr) (lab : Label) : Bool :=
  lab.waits k p && (k.thr t).priority < (k.thr k.cur).priority

/-- A thread that gives up the processor and is not ready is not taken again. -/
theorem Switches.cur_ne {s : ThreadStatus} (h : Switches srt k k' s) (hs : s ≠ .ready)
    (hi : k.idleThread ≠ some k.cur) : k'.cur ≠ k.cur := by
  obtain ⟨k₁, hl, hd⟩ := h
  intro hc
  rcases hd.chosen with ⟨hready, -⟩ | ⟨hidle, -⟩
  · rw [hc, hl.restatus.1] at hready
    exact hs hready
  · rw [hc] at hidle
    exact hi ((congrArg Sync.idleThread hl.sync).symm.trans hidle)

/-- A `sema_down` at value zero makes the running thread wait. -/
theorem Good.down_waits (G : Good cfg srt k) (C : Control k) (C' : Control k')
    (hT : Tame cfg srt k lab) (hn : k.cur < k.nextThread)
    (h : Pintos.step cfg fuel k lab = some k') (hw : lab.waits k p = true) :
    Waiting k' p k.cur := by
  obtain ⟨rfl, hv, f, fs, e, hd⟩ := Label.waits_iff.mp hw
  obtain ⟨he, -⟩ := G.step C C' hn hT h
  cases he with
  | @run g gs _ e' he =>
      obtain ⟨rfl, rfl⟩ := List.cons.inj (e.symm.trans e')
      cases he with
      | same ha => exact absurd (by cases hd <;> exact hv) ha
      | priority hp => cases hd <;> cases hp
      | @switch _ gs _ k₂ _ hp _ hs hsw =>
          cases hp with
          | @wait _ s old hd' =>
              have hsp : s = p := by cases hd <;> cases hd' <;> rfl
              subst hsp
              have hstack : k'.stack k.cur = .semaDownWait s old :: fs := by
                rw [hsw.stack, hs.stack]
                show Function.update (popFrame k fs).stack k.cur _ k.cur = _
                rw [Function.update_self]
                exact congrArg _ (Function.update_self ..)
              -- it blocks, and is not picked again, since it is not the idle thread
              refine ⟨?_, by rw [hstack]; rfl⟩
              have hcur : k₂.cur = k.cur := hs.cur
              rw [hsw.status, hcur, if_pos rfl]
              refine if_neg fun hc => ?_
              refine hsw.cur_ne (by rintro ⟨⟩) ?_ (hcur.trans hc).symm
              rw [hs.idleThread, hcur]
              intro hi
              have hf : f.OfIdle := C.inv.idle_mem hi (by rw [Kernel.sync_stack, e]; exact .head _)
              cases hd <;> exact hf
          | _ => cases hd
      | wake hu => cases hd <;> cases hu
      | _ => cases hd

/-! ### The queue of a semaphore -/

theorem Label.not_waits_of_ups (h : lab.ups k p = true) : lab.waits k p = false := by
  refine Bool.eq_false_iff.mpr fun hw => ?_
  obtain ⟨rfl, -, f, fs, e, hd⟩ := Label.waits_iff.mp hw
  rcases Label.ups_iff.mp h with ⟨-, gs, e'⟩ | ⟨n, -, ⟨⟩⟩
  rw [e] at e'
  cases hd <;> cases e'

/-- **One step** of the queue, while thread `t` is in it. -/
theorem Good.plays (G : Good cfg srt k) (G' : Good cfg srt k') (C : Control k) (C' : Control k')
    (hT : Tame cfg srt k lab) (hn : k.cur < k.nextThread) (hs : WaitersSorted k)
    (h : Pintos.step cfg fuel k lab = some k') (ht : Waiting k p t) (ht' : Waiting k' p t)
    {xs : List ThreadPtr} (hx : IsList k.elems (.semaWaiters p) xs) :
    ∃ xs' evs, IsList k'.elems (.semaWaiters p) xs' ∧
      FairQueue.Plays (β := ℤ) t xs evs xs' ∧
      evs.countP FairQueue.Event.isServe = (if lab.ups k p then 1 else 0) ∧
      evs.countP (FairQueue.Event.overtakes t) = if lab.overtakes k p t then 1 else 0 := by
  obtain ⟨hp, hmem⟩ := G.waiting_iff hx
  have htx : t ∈ xs := (hmem t).mpr ht
  have hcx : k.cur ∉ xs := fun hc => G.waiting_ne_cur ((hmem _).mp hc) rfl
  rcases G.stepWaiters C hT hp h with ⟨hno, hl⟩ | ⟨rfl, e, hd, hl⟩ | ⟨hu, hl⟩
  · -- nobody comes or goes
    have hx' := hl xs hx
    have hups : lab.ups k p = false := Bool.eq_false_iff.mpr fun hu => hno (Label.ups_iff.mp hu)
    have hover : lab.overtakes k p t = false := by
      refine Bool.eq_false_iff.mpr fun ho => hcx ?_
      have hw := G.down_waits C C' hT hn h (Bool.and_eq_true_iff.mp ho).1
      exact ((G'.waiting_iff hx').2 _).mpr hw
    exact ⟨xs, [], hx', .nil htx, by simp [hups], by simp [hover]⟩
  · -- the running thread comes
    have hx' := hl xs hx
    have hv : k.semaValue p = 0 := by
      have hw : Waiting k' p k.cur :=
        ((G'.waiting_iff hx').2 _).mp ((List.mem_orderedInsert _).mpr (.inl rfl))
      rcases G.waiting_step C C' hT hn h hw with hw | ⟨-, hv, -⟩
      · exact absurd rfl (G.waiting_ne_cur hw)
      · exact hv
    have hwaits : Label.waits k p .run = true := Label.waits_iff.mpr ⟨rfl, hv, _, _, e, hd⟩
    have hups : Label.ups k p .run = false := Bool.eq_false_iff.mpr fun hu => by
      rw [Label.not_waits_of_ups hu] at hwaits
      cases hwaits
    refine ⟨_, [.arrive (fun u => (k.thr u).priority) k.cur], hx',
      .arrive htx hcx (hs.pairwise hx) (.nil ?_), by simp [hups, FairQueue.Event.isServe], ?_⟩
    · exact (List.mem_orderedInsert _).mpr (.inr htx)
    · simp [Label.overtakes, hwaits, FairQueue.Event.overtakes]
  · -- the first one goes
    have hx' := hl xs hx
    have hups : lab.ups k p = true := Label.ups_iff.mpr hu
    have hover : lab.overtakes k p t = false := by
      rw [Label.overtakes, Label.not_waits_of_ups hups, Bool.false_and]
    exact ⟨_, [.serve], hx', .serve htx (.nil (((G'.waiting_iff hx').2 t).mpr ht')),
      by simp [hups, FairQueue.Event.isServe], by simp [hover, FairQueue.Event.overtakes]⟩

/-! ### Runs -/

/-- **Bounded overtaking**: while thread `t` waits on semaphore `p`, the threads that wait in front
of it are those that did so at first and those of higher priority that have come to wait since, less
one for each `sema_up`.  In particular `sema_up` is not called oftener than that before it wakes
`t`. -/
theorem sema_bounded_overtaking {tr : List (Kernel × Label)} (hT : KeepsWaiters cfg ok)
    (hr : Reachable cfg ok k) (hrun : Path cfg ok k tr k') (ht : ∀ s ∈ tr, Waiting s.1 p t)
    (ht' : Waiting k' p t) :
    ∃ xs xs', IsList k.elems (.semaWaiters p) xs ∧ IsList k'.elems (.semaWaiters p) xs' ∧
      xs'.idxOf t + tr.countP (fun s => s.2.ups s.1 p) =
        xs.idxOf t + tr.countP (fun s => s.2.overtakes s.1 p t) := by
  have key : ∃ xs xs' evs, IsList k.elems (.semaWaiters p) xs ∧
      IsList k'.elems (.semaWaiters p) xs' ∧ FairQueue.Plays (β := ℤ) t xs evs xs' ∧
      evs.countP FairQueue.Event.isServe = tr.countP (fun s => s.2.ups s.1 p) ∧
      evs.countP (FairQueue.Event.overtakes t) =
        tr.countP (fun s => s.2.overtakes s.1 p t) := by
    induction hrun with
    | nil =>
        obtain ⟨xs, hx⟩ := (hT.good hr).waiters_isList (hr.control.waiting ht')
        exact ⟨xs, xs, [], hx, hx, .nil (((hT.good hr).waiting_iff hx).2 t |>.mpr ht'), rfl, rfl⟩
    | @snoc k₁ k₂ tr lab fuel hrun hok hs ih =>
        have hr₁ : Reachable cfg ok k₁ := hrun.reachable hr
        have hr₂ : Reachable cfg ok k₂ := hr₁.tail ⟨lab, fuel, hok, hs⟩
        have ht₁ : Waiting k₁ p t := ht (k₁, lab) (by simp)
        obtain ⟨xs, xs₁, evs, hx, hx₁, hp, hu, ho⟩ := ih (fun s hs => ht s (by simp [hs])) ht₁
        obtain ⟨xs₂, evs', hx₂, hp', hu', ho'⟩ := (hT.good hr₁).plays (hT.good hr₂) hr₁.control
          hr₂.control (hT _ _ hr₁ hok).1 hr₁.anySync.2 (hT.sorted hr₁) hs ht₁ ht' hx₁
        exact ⟨xs, xs₂, evs ++ evs', hx, hx₂, hp.append hp', by simp [hu, hu'],
          by simp [ho, ho']⟩
  obtain ⟨xs, xs', evs, hx, hx', hp, hu, ho⟩ := key
  exact ⟨xs, xs', hx, hx', by rw [← hu, ← ho]; exact hp.balance hx.nodup⟩

/-- Thread 3, of priority 35, overtakes thread 2, of priority 33, and is woken. -/
theorem sema_bounded_overtaking_once : ∃ k tr k' xs xs',
    Reachable priorityConfig (fun k lab => lab.peaceful k) k ∧
      Path priorityConfig (fun k lab => lab.peaceful k) k tr k' ∧
      tr.countP (fun s => s.2.ups s.1 (.user 0)) = 1 ∧
      tr.countP (fun s => s.2.overtakes s.1 (.user 0) 2) = 1 ∧
      IsList k.elems (.semaWaiters (.user 0)) xs ∧ IsList k'.elems (.semaWaiters (.user 0)) xs' ∧
      xs'.idxOf 2 + 1 = xs.idxOf 2 + 1 := by
  let labs : List Label := .run :: .call (.threadCreate 35) :: List.replicate 10 Label.run ++
    [Label.call (.semaDown 0), .run, .run, .call (.semaUp 0), .run]
  obtain ⟨k, hr, hk⟩ := exists_reachable priorityConfig 70 (fun k lab => lab.peaceful k)
    (List.replicate 19 Label.run ++ [Label.call (.threadCreate 33)] ++
      List.replicate 10 Label.run ++ [Label.call (.semaDown 0), .run])
    (fun k => (execute priorityConfig 70 (fun k lab => lab.peaceful k) k labs).any fun k' =>
      Waiting k' (.user 0) 2 && ((trace priorityConfig 70 k labs).all (fun s =>
        Waiting s.1 (.user 0) 2) && ((trace priorityConfig 70 k labs).countP (fun s =>
          s.2.ups s.1 (.user 0)) = 1 && (trace priorityConfig 70 k labs).countP (fun s =>
            s.2.overtakes s.1 (.user 0) 2) = 1)))
    (by decide +kernel)
  obtain ⟨k', hx, hp⟩ := (Option.any_eq_true _ _).mp hk
  simp only [Bool.and_eq_true, decide_eq_true_eq, List.all_eq_true] at hp
  obtain ⟨hw', hw, hu, ho⟩ := hp
  have hrun := execute_path hx
  have hT : KeepsWaiters priorityConfig fun k lab => lab.peaceful k :=
    fun _ _ _ h => ⟨Label.peaceful.tame h, Label.peaceful.keepsWaiters rfl h⟩
  obtain ⟨xs, xs', hl, hl', he⟩ := sema_bounded_overtaking hT hr hrun hw hw'
  rw [hu, ho] at he
  exact ⟨k, _, k', xs, xs', hr, hrun, hu, ho, hl, hl', he⟩

end Pintos
