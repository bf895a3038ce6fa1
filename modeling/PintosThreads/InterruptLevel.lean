/-
PintosThreads/InterruptLevel.lean

The interrupt level across calls.

The level at which the caller of a function goes on is the same before and
after every step, of the thread itself or of any other (`Calling.step`), and so
it is the old level when the function has returned (`interrupt_level_restored`).
A thread that has been woken in `sema_down` goes on there with interrupts off
(`WaitsOff`), which is what `thread_block` relies on when the loop blocks again.
-/
import PintosThreads.ControlFrames

namespace Pintos

open Intrusive

variable {cfg : Config} {fuel : ℕ} {ok : Kernel → Label → Prop} {k k₁ k' : Kernel}
variable {t : ThreadPtr}

/-! ### Calls -/

/-- Thread `t` is in a call whose frames are `gs`, and after which the code below goes on at
level `b`. -/
structure Calling (k : Kernel) (t : ThreadPtr) (gs fs : List Frame) (b : Bool) : Prop where
  stack : k.stack t = gs ++ fs
  level : returnLevel (k.level t) gs = b
  inside : ∀ g ∈ gs, ¬ g.Outside
  returned : gs = [] → k.cur = t

/-- An interrupt of the calling thread. -/
theorem Calling.interrupt {lab : Label} {gs fs : List Frame} {b : Bool}
    (H : Calling k k.cur gs fs b) (hg : gs ≠ []) (hl : lab.isInterrupt = true)
    (h : step cfg fuel k lab = some k') : ∃ gs', Calling k' k.cur gs' fs b := by
  rw [step_interrupt hl] at h
  split at h
  case isFalse => cases h
  case isTrue hi =>
    obtain ⟨⟨k₁, y⟩, h₁, h⟩ := Option.bind_eq_some_iff.mp h
    obtain ⟨hs₁, hc₁, -⟩ := handler_control h₁
    obtain ⟨gs₁, hgs₁, e₁, hb₁, ho₁⟩ := endHalt_level k H.stack hg
    rw [← hs₁, ← hc₁] at e₁
    have hb := H.level
    rw [k.level_cur, hi, ← hb₁] at hb
    have hin := ho₁ H.inside
    dsimp only [interruptReturn] at h
    split at h
    · -- the thread goes on with the return from the interrupt
      have hs := yieldCurrent_switchedOff h
      refine ⟨.intrSetLevel true :: gs₁, ?_, ?_, ?_, nofun⟩
      · rw [hs.stack, ← hc₁, Kernel.push_stack, Function.update_self, e₁, List.cons_append]
      · rw [returnLevel_cons]
        exact hb
      · exact List.forall_mem_cons.mpr ⟨id, hin⟩
    · cases h
      refine ⟨gs₁, hc₁ ▸ e₁, ?_, hin, fun e => absurd e hgs₁⟩
      have hlev : (k₁.setLevel true).level k₁.cur = true := Kernel.level_cur _
      rw [← hc₁, hlev]
      exact hb

/-- **One step** leaves the level at which the code below goes on. -/
theorem Calling.step {lab : Label} {gs fs : List Frame} {b : Bool} (H : Calling k t gs fs b)
    (hr : Reachable cfg ok k) (hg : gs ≠ []) (h : step cfg fuel k lab = some k') :
    ∃ gs', Calling k' t gs' fs b := by
  have hc : k.cur < k.nextThread := (Reachable.anySync hr).2
  have I := hr.control.inv
  obtain rfl | ht := eq_or_ne t k.cur
  · cases lab with
    | call c =>
        rw [Pintos.step, H.stack, if_neg (by simp [hg])] at h
        cases h
    | run =>
        obtain ⟨f, gs, rfl⟩ := List.exists_cons_of_ne_nil hg
        have e : k.stack k.cur = f :: (gs ++ fs) := H.stack
        rw [Pintos.step, e] at h
        have hR : Resumes (popFrame k (gs ++ fs)) f k' := exec_resumes hc h
        obtain ⟨⟨hs, hst, hlev, hex⟩, -, -⟩ := hR
        have hpop : (popFrame k (gs ++ fs)).stack k.cur = gs ++ fs := Function.update_self ..
        have hst : k'.stack k.cur = hs ++ (gs ++ fs) := hst.trans (congrArg (hs ++ ·) hpop)
        obtain ⟨hf, hin⟩ := List.forall_mem_cons.mp H.inside
        have hM : Moves (popFrame k (gs ++ fs)) f k' := exec_moves hc h
        obtain ⟨⟨hs', s', hm, e'⟩, -⟩ := hM
        -- the frames that go on are those of the move
        have hhs : hs = hs' := by
          have e₁ : k'.stack k.cur = hs' ++ s'.stack k.cur :=
            (congrArg (fun s => s.stack k.cur) e').trans (Function.update_self ..)
          have e₂ : s'.stack k.cur = gs ++ fs := (hm.stack_run I.unborn e).1
          rw [hst, e₂] at e₁
          exact List.append_cancel_right e₁
        subst hhs
        refine ⟨hs ++ gs, by rw [hst, List.append_assoc], ?_, ?_, ?_⟩
        · have hb := H.level
          rw [returnLevel_append]
          rw [k.level_cur, returnLevel_cons] at hb
          exact (congrArg (returnLevel · gs) hlev).trans hb
        · exact List.forall_mem_append.mpr ⟨hm.outside hf, hin⟩
        · intro hnil
          obtain ⟨hs₀, -⟩ := List.append_eq_nil_iff.mp hnil
          by_contra hne
          obtain rfl := hex hne hs₀
          exact hf trivial
    | _ => exact H.interrupt hg rfl h
  · have hne : k.cur ≠ t := ht.symm
    have hs : Sync.Step (fun _ => True) k.cur k.sync k'.sync :=
      (step_sync hc (fun _ _ => trivial) h).1
    have hst : k'.stack t = k.stack t := by
      rcases hs.stack_of_ne I ht with e | ⟨e, -⟩
      · exact e
      · have hu : k.stack t = [] := I.unborn t (e ▸ le_rfl)
        rw [H.stack, List.append_eq_nil_iff] at hu
        exact absurd hu.1 hg
    refine ⟨gs, hst.trans H.stack, ?_, H.inside, fun e => absurd e hg⟩
    rw [step_level_of_ne hc ht h, ← Kernel.level_of_ne hne, H.level]

/-- A step before a call of thread `t` has returned to the code whose frames are `fs`. -/
def InCall (cfg : Config) (ok : Kernel → Label → Prop) (t : ThreadPtr) (fs : List Frame)
    (k k' : Kernel) : Prop :=
  k.stack t ≠ fs ∧ Next cfg ok k k'

/-- **A run up to the return of a call.** -/
theorem Calling.run {gs fs : List Frame} {b : Bool} (H : Calling k t gs fs b)
    (hr : Reachable cfg ok k) (h : Relation.ReflTransGen (InCall cfg ok t fs) k k') :
    Reachable cfg ok k' ∧ ∃ gs', Calling k' t gs' fs b := by
  induction h with
  | refl => exact ⟨hr, gs, H⟩
  | tail _ hstep ih =>
      obtain ⟨hne, hn⟩ := hstep
      obtain ⟨hr, gs, H⟩ := ih
      refine ⟨hr.tail hn, ?_⟩
      obtain ⟨lab, fuel, -, hstep⟩ := hn
      refine H.step hr (fun e => hne ?_) hstep
      rw [H.stack, e, List.nil_append]

/-! ### Where `thread_block` and `schedule` are entered -/

/-- The state in which frame `f` enters `thread_block`, if it does. -/
def Frame.blockEntry (cfg : Config) (fuel : ℕ) (k : Kernel) : Frame → Option Kernel
  | semaDown p =>
      if k.semaValue p = 0 then
        (insertByPriority cfg fuel (k.setLevel false) (.semaWaiters p) k.cur).map
          (·.push (.semaDownWait p k.intrOn))
      else none
  | semaDownWait p old =>
      if k.semaValue p = 0 then
        (insertByPriority cfg fuel k (.semaWaiters p) k.cur).map (·.push (.semaDownWait p old))
      else none
  | threadBlock => some (k.push .threadBlockReturn)
  | idleLoop => some ((k.push .idleResume).setLevel false)
  | timerSleepBody start ticks =>
      let k' := k.modify k.cur fun th => { th with wakeupTick := toInt64 (start + ticks) }
      some (((insertSleeper k' k.cur).push (.timerSleepReturn k.intrOn)).setLevel false)
  | _ => none

/-- The state in which `thread_yield` enters `schedule`. -/
def yieldEntry (cfg : Config) (fuel : ℕ) (k : Kernel) : Option Kernel :=
  (yieldInsert cfg fuel k).map fun k => k.modify k.cur fun th => { th with status := .ready }

/-- The state in which frame `f` enters `schedule`, if it does. -/
def Frame.scheduleEntry (cfg : Config) (fuel : ℕ) (k : Kernel) : Frame → Option Kernel
  | threadYield => yieldEntry cfg fuel ((k.push (.intrSetLevel k.intrOn)).setLevel false)
  | threadExit =>
      some ({ k with intrOn := false, allList := k.allList.erase k.cur }.modify k.cur
        fun th => { th with status := .dying })
  | f => (f.blockEntry cfg fuel k).map fun k =>
      k.modify k.cur fun th => { th with status := .blocked }

/-- The state in which a step enters `thread_block`, if it does. -/
def Label.blockEntry (cfg : Config) (fuel : ℕ) (k : Kernel) : Label → Option Kernel
  | .run =>
      match k.stack k.cur with
      | [] => none
      | f :: fs => f.blockEntry cfg fuel (popFrame k fs)
  | _ => none

/-- The state in which a step enters `schedule`, if it does; an interrupt does so when its handler
has requested a yield. -/
def Label.scheduleEntry (cfg : Config) (fuel : ℕ) (k : Kernel) : Label → Option Kernel
  | .run =>
      match k.stack k.cur with
      | [] => none
      | f :: fs => f.scheduleEntry cfg fuel (popFrame k fs)
  | lab =>
      if k.intrOn then
        (lab.handler cfg fuel k).bind fun (k, b) =>
          if b then yieldEntry cfg fuel (k.push (.intrSetLevel true)) else none
      else none

theorem exec_of_blockEntry {f : Frame} (h : f.blockEntry cfg fuel k = some k₁) :
    exec cfg fuel k f = blockCurrent cfg k₁ := by
  cases f <;> simp only [Frame.blockEntry] at h
  case semaDown p =>
    split at h
    case isFalse => cases h
    case isTrue hv =>
      obtain ⟨k₂, h₂, rfl⟩ := Option.map_eq_some_iff.mp h
      have hv' : (k.setLevel false).semaValue p = 0 := hv
      rw [exec, semaDownTest, if_pos hv', Kernel.setLevel_cur, h₂]
      rfl
  case semaDownWait p old =>
    split at h
    case isFalse => cases h
    case isTrue hv =>
      obtain ⟨k₂, h₂, rfl⟩ := Option.map_eq_some_iff.mp h
      rw [exec, semaDownTest, if_pos hv, h₂]
      rfl
  all_goals
    cases h
  all_goals rfl

theorem yieldCurrent_of_entry (h : yieldEntry cfg fuel k = some k₁) :
    yieldCurrent cfg fuel k = schedule cfg k₁ := by
  obtain ⟨k₂, h₂, rfl⟩ := Option.map_eq_some_iff.mp h
  rw [yieldCurrent, h₂]
  rfl

theorem yieldEntry_off (h : yieldEntry cfg fuel k = some k₁) :
    k₁.intrOn = k.intrOn ∧ (k₁.thr k₁.cur).status = .ready := by
  obtain ⟨k₂, h₂, rfl⟩ := Option.map_eq_some_iff.mp h
  exact ⟨(yieldInsert_sameControl h₂).intrOn, by simp⟩

/-! ### The loop of `sema_down` -/

/-- A thread that waits in `sema_down` is about to go on there, with interrupts off. -/
def WaitsOff (k : Kernel) : Prop :=
  ∀ t p old, .semaDownWait p old ∉ (k.stack t).tail ∧
    ((k.stack t).head? = some (.semaDownWait p old) → k.level t = false)

theorem WaitsOff.of_not_mem (h : ∀ p old, .semaDownWait p old ∉ k.stack t) (p : SemaPtr)
    (old : Bool) : .semaDownWait p old ∉ (k.stack t).tail ∧
      ((k.stack t).head? = some (.semaDownWait p old) → k.level t = false) :=
  ⟨fun hm => h p old (List.mem_of_mem_tail hm),
    fun hh => absurd (List.mem_of_mem_head? hh) (h p old)⟩

theorem Local.wait_not_mem {f : Frame} {gs : List Frame} (h : Local f gs) (p : SemaPtr)
    (old : Bool) : .semaDownWait p old ∉ gs := by
  cases h with
  | preempt _ hp | threadCreateUnblock hp =>
      intro hg
      obtain rfl := List.mem_singleton.mp hg
      cases hp
  | _ => simp

/-- Only a `sema_down` that finds the value 0 gets to wait. -/
theorem Move.wait_mem {s s' : Sync} {f : Frame} {gs : List Frame} {p : SemaPtr} {old : Bool}
    (h : Move t s f gs s') (hg : .semaDownWait p old ∈ gs) :
    gs = [.semaDownWait p old] ∧ f.Downs p ∧ s.value p = 0 := by
  cases h with
  | quiet h => exact absurd hg (h.wait_not_mem p old)
  | wait hd hv =>
      obtain ⟨rfl, rfl⟩ : _ ∧ _ := by simpa using hg
      exact ⟨rfl, hd, hv⟩
  | up hp =>
      obtain rfl := List.mem_singleton.mp hg
      cases hp
  | _ => simp at hg

theorem exec_wait_off {f : Frame} {p : SemaPtr} (hf : f.Downs p) (hv : k.semaValue p = 0)
    (h : exec cfg fuel k f = some k') : k'.intrOn = false := by
  cases hf with
  | semaDown =>
      have hv' : (k.setLevel false).semaValue p = 0 := hv
      rw [exec, semaDownTest, if_pos hv'] at h
      obtain ⟨k₁, -, h⟩ := Option.bind_eq_some_iff.mp h
      exact (blockCurrent_switchedOff h).1.intrOn
  | semaDownWait =>
      rw [exec, semaDownTest, if_pos hv] at h
      obtain ⟨k₁, -, h⟩ := Option.bind_eq_some_iff.mp h
      exact (blockCurrent_switchedOff h).1.intrOn

theorem WaitsOff.step {lab : Label} (W : WaitsOff k) (hr : Reachable cfg ok k)
    (h : step cfg fuel k lab = some k') : WaitsOff k' := by
  have hc : k.cur < k.nextThread := (Reachable.anySync hr).2
  have I := hr.control.inv
  intro t p old
  obtain rfl | ht := eq_or_ne t k.cur
  · have hintr : lab.isInterrupt = true → ∀ p old, .semaDownWait p old ∉ k'.stack k.cur := by
      intro hl p old
      have hi : k.intrOn = true := by
        rw [step_interrupt hl] at h
        split at h
        case isTrue hi => exact hi
        case isFalse => cases h
      have hs := (step_syncStep hc h).1
      have hfs : ∃ fs, Interrupted (k.stack k.cur) fs ∧ k'.stack k.cur = fs := by
        generalize hk : k'.sync = s' at hs
        cases hs with
        | call => cases hl
        | run => cases hl
        | @interrupt _ fs s₁ _ hin hh =>
            exact ⟨fs, hin, (congrArg (fun s => s.stack k.cur) hk).trans (Function.update_self ..)⟩
      obtain ⟨fs, hin, e⟩ := hfs
      have hn : .semaDownWait p old ∉ k.stack k.cur := by
        obtain ⟨ht, hh⟩ := W k.cur p old
        rw [k.level_cur, hi] at hh
        intro hm
        cases e : k.stack k.cur with
        | nil => simp [e] at hm
        | cons g gs =>
            rw [e] at hm ht hh
            rcases List.mem_cons.mp hm with rfl | hm
            · exact Bool.noConfusion (hh rfl)
            · exact ht hm
      rw [e]
      generalize k.stack k.cur = gs at hin hn
      cases hin <;> simpa using hn
    cases lab with
    | call c =>
        rw [Pintos.step] at h
        split at h
        case isFalse => cases h
        case isTrue he =>
          cases h
          refine WaitsOff.of_not_mem (fun p old => ?_) p old
          rw [Kernel.push_stack, Function.update_self, he]
          cases c <;> simp [Call.frame]
    | run =>
        rcases e : k.stack k.cur with - | ⟨f, fs⟩
        · simp [Pintos.step, e] at h
        · rw [Pintos.step, e] at h
          have hM : Moves (popFrame k fs) f k' := exec_moves hc h
          obtain ⟨⟨gs, s', hm, e'⟩, -⟩ := hM
          have hst : k'.stack k.cur = gs ++ fs := by
            have e₁ : k'.stack k.cur = gs ++ s'.stack k.cur :=
              (congrArg (fun s => s.stack k.cur) e').trans (Function.update_self ..)
            rwa [show s'.stack k.cur = fs from (hm.stack_run I.unborn e).1] at e₁
          have hfs : ∀ p old, .semaDownWait p old ∉ fs := fun p old hm =>
            (W k.cur p old).1 (by rwa [e])
          by_cases hg : .semaDownWait p old ∈ gs
          · obtain ⟨rfl, hd, hv⟩ := hm.wait_mem hg
            have hi : k'.intrOn = false := exec_wait_off (k := popFrame k fs) hd hv h
            rw [hst]
            exact ⟨hfs p old, fun _ => by simp [Kernel.level, hi]⟩
          · have hn : .semaDownWait p old ∉ k'.stack k.cur := by
              rw [hst, List.mem_append]
              exact not_or.mpr ⟨hg, hfs p old⟩
            exact ⟨fun hm => hn (List.mem_of_mem_tail hm),
              fun hh => absurd (List.mem_of_mem_head? hh) hn⟩
    | _ => exact WaitsOff.of_not_mem (hintr rfl) p old
  · have hs : Sync.Step (fun _ => True) k.cur k.sync k'.sync :=
      (step_sync hc (fun _ _ => trivial) h).1
    rcases hs.stack_of_ne I ht with e | ⟨-, _, function, -, -, -, -, e⟩
    · have e : k'.stack t = k.stack t := e
      rw [e]
      exact ⟨(W t p old).1, fun _ => step_level_of_ne hc ht h⟩
    · have e : k'.stack t = function.stack := e
      refine WaitsOff.of_not_mem (fun p old => ?_) p old
      rw [e]
      cases function <;> simp [Entry.stack]

theorem bootWaitsOff (cfg : Config) : WaitsOff (boot cfg) := by
  intro t p old
  refine WaitsOff.of_not_mem (fun p old => ?_) p old
  obtain rfl | ht := eq_or_ne t 0
  · simp [boot]
  · simp [boot, ht]

theorem Reachable.waitsOff (h : Reachable cfg ok k) : WaitsOff k := by
  induction h with
  | refl => exact bootWaitsOff cfg
  | tail hr hstep ih =>
      obtain ⟨lab, fuel, -, hstep⟩ := hstep
      exact ih.step hr hstep

/-! ### The nine functions -/

/-- Where the nine functions start. -/
inductive Frame.Restores : Frame → Prop
  | threadUnblock {t : ThreadPtr} : Restores (threadUnblock t)
  | threadYield : Restores threadYield
  | semaDown {p} : Restores (semaDown p)
  | semaTryDown {p} : Restores (semaTryDown p)
  | semaUp {p} : Restores (semaUp p)
  | lockAcquire {l} : Restores (lockAcquire l)
  | lockRelease {l} : Restores (lockRelease l)
  | condWait {c l} : Restores (condWait c l)
  | condSignal {c l} : Restores (condSignal c l)

/-- The steps that can be taken in state `k` enter `thread_block` and `schedule` with interrupts
off, and `schedule` not as a running thread; no other step switches threads. -/
structure EntersOff (cfg : Config) (fuel : ℕ) (k : Kernel) (lab : Label) : Prop where
  block : ∀ k₁, lab.blockEntry cfg fuel k = some k₁ →
    step cfg fuel k lab = blockCurrent cfg k₁ ∧ k₁.intrOn = false
  schedule : ∀ k₁, lab.scheduleEntry cfg fuel k = some k₁ →
    step cfg fuel k lab = schedule cfg k₁ ∧ k₁.intrOn = false ∧
      (k₁.thr k₁.cur).status ≠ .running
  others : lab.scheduleEntry cfg fuel k = none →
    ∀ k', step cfg fuel k lab = some k' → k'.dispatches = k.dispatches

/-- In the call `thread_block` is entered with interrupts off. -/
theorem Frame.blockEntry_off {f : Frame} (hf : ¬ f.Outside)
    (hw : ∀ p old, f = .semaDownWait p old → k.intrOn = false)
    (h : f.blockEntry cfg fuel k = some k₁) : k₁.intrOn = false := by
  cases f <;> simp only [Frame.blockEntry] at h
  case semaDown p =>
    split at h
    case isFalse => cases h
    case isTrue =>
      obtain ⟨k₂, h₂, rfl⟩ := Option.map_eq_some_iff.mp h
      exact (insertByPriority_sameControl h₂).intrOn
  case semaDownWait p old =>
    split at h
    case isFalse => cases h
    case isTrue =>
      obtain ⟨k₂, h₂, rfl⟩ := Option.map_eq_some_iff.mp h
      exact (insertByPriority_sameControl h₂).intrOn.trans (hw p old rfl)
  case threadBlock | idleLoop | timerSleepBody => exact absurd trivial hf
  all_goals cases h

/-- In the call `schedule` is entered with interrupts off, and not as a running thread. -/
theorem Frame.scheduleEntry_off {f : Frame} (hf : ¬ f.Outside)
    (hw : ∀ p old, f = .semaDownWait p old → k.intrOn = false)
    (h : f.scheduleEntry cfg fuel k = some k₁) : exec cfg fuel k f = schedule cfg k₁ ∧
      k₁.intrOn = false ∧ (k₁.thr k₁.cur).status ≠ .running := by
  have hb : (f.blockEntry cfg fuel k).map (fun k =>
      k.modify k.cur fun th => { th with status := .blocked }) = some k₁ →
      exec cfg fuel k f = Pintos.schedule cfg k₁ ∧ k₁.intrOn = false ∧
        (k₁.thr k₁.cur).status ≠ .running := by
    intro h
    obtain ⟨k₂, h₂, rfl⟩ := Option.map_eq_some_iff.mp h
    have hi := Frame.blockEntry_off hf hw h₂
    refine ⟨?_, hi, by simp⟩
    rw [exec_of_blockEntry h₂, blockCurrent, if_pos hi]
  cases f
  case threadYield =>
    obtain ⟨hi, hs⟩ := yieldEntry_off h
    refine ⟨yieldCurrent_of_entry h, hi, ?_⟩
    rw [hs]
    rintro ⟨⟩
  case threadExit => exact absurd trivial hf
  all_goals exact hb h

/-- A frame that does not enter `schedule` dispatches nobody. -/
theorem exec_of_scheduleEntry_none {f : Frame} (h : f.scheduleEntry cfg fuel k = none)
    (hx : exec cfg fuel k f = some k') : k'.dispatches = k.dispatches := by
  refine exec_dispatches hx ?_
  cases f
  case semaDown p =>
    refine .inr ⟨p, .semaDown, fun hv => ?_⟩
    have hv' : (k.setLevel false).semaValue p = 0 := hv
    rw [exec, semaDownTest, if_pos hv'] at hx
    obtain ⟨k₁, h₁, -⟩ := Option.bind_eq_some_iff.mp hx
    rw [Kernel.setLevel_cur] at h₁
    simp only [Frame.scheduleEntry, Frame.blockEntry, if_pos hv, h₁] at h
    cases h
  case semaDownWait p old =>
    refine .inr ⟨p, .semaDownWait, fun hv => ?_⟩
    rw [exec, semaDownTest, if_pos hv] at hx
    obtain ⟨k₁, h₁, -⟩ := Option.bind_eq_some_iff.mp hx
    simp only [Frame.scheduleEntry, Frame.blockEntry, if_pos hv, h₁] at h
    cases h
  case threadYield =>
    obtain ⟨k₁, h₁, -⟩ := Option.bind_eq_some_iff.mp hx
    simp only [Frame.scheduleEntry, yieldEntry, h₁] at h
    cases h
  case threadExit | threadBlock | idleLoop | timerSleepBody => cases h
  all_goals exact .inl (by rintro ⟨⟩)

/-- A handler dispatches nobody. -/
theorem handler_dispatches {lab : Label} {b : Bool}
    (h : lab.handler cfg fuel k = some (k', b)) : k'.dispatches = k.dispatches := by
  have he : (endHalt k).dispatches = k.dispatches := (endHalt_silent k).clock.dispatches
  cases lab with
  | timer => exact timerHandler_dispatches h
  | semaUp n =>
      obtain ⟨k₁, h₁, h⟩ := Option.bind_eq_some_iff.mp h
      obtain ⟨b₁, -, h⟩ := Option.bind_eq_some_iff.mp h
      cases h
      have hw : Writes cfg (some (.semaUp (.user n))) ((endHalt k).setLevel false) k' :=
        semaUpBody_writes (by rintro f ⟨⟩; exact .semaUp) h₁
      exact ((hw.clockKept nofun).dispatches nofun).trans he
  | semaTryDown n =>
      cases h
      exact (semaTryDown_silent ((endHalt k).setLevel false) none _).clock.dispatches.trans he
  | _ => cases h

/-- An interrupt enters `schedule` with interrupts off, and not as a running thread. -/
theorem interrupt_entersOff {lab : Label} (hl : lab.isInterrupt = true) :
    EntersOff cfg fuel k lab := by
  have hs : lab.scheduleEntry cfg fuel k = if k.intrOn then
      (lab.handler cfg fuel k).bind fun (k, b) =>
        if b then yieldEntry cfg fuel (k.push (.intrSetLevel true)) else none
      else none := by
    cases lab <;> first | rfl | cases hl
  refine ⟨fun k₁ h => ?_, fun k₁ h => ?_, fun h k' h' => ?_⟩
  · cases lab <;> first | cases h | cases hl
  · rw [hs] at h
    rw [step_interrupt hl]
    split at h
    case isFalse => cases h
    case isTrue hi =>
      obtain ⟨⟨k₂, b⟩, h₂, h⟩ := Option.bind_eq_some_iff.mp h
      dsimp only at h
      split at h
      case isFalse => cases h
      case isTrue hb =>
        obtain ⟨-, -, hi₂⟩ := handler_control h₂
        obtain ⟨hi₁, hst⟩ := yieldEntry_off h
        refine ⟨?_, hi₁.trans hi₂, ?_⟩
        · rw [if_pos hi, h₂, Option.bind_some]
          dsimp only
          rw [interruptReturn, if_pos hb, yieldCurrent_of_entry h]
        · rw [hst]
          rintro ⟨⟩
  · rw [hs] at h
    rw [step_interrupt hl] at h'
    split at h'
    case isFalse => cases h'
    case isTrue hi =>
      obtain ⟨⟨k₂, b⟩, h₂, h'⟩ := Option.bind_eq_some_iff.mp h'
      rw [if_pos hi, h₂, Option.bind_some] at h
      dsimp only [interruptReturn] at h h'
      split at h'
      case isTrue hb =>
        rw [if_pos hb] at h
        obtain ⟨k₃, h₃, -⟩ := Option.bind_eq_some_iff.mp h'
        rw [yieldEntry, h₃] at h
        cases h
      case isFalse =>
        cases h'
        have hd : k₂.dispatches = k.dispatches := handler_dispatches h₂
        exact hd

/-- The steps of a thread in a call. -/
theorem Calling.entersOff {lab : Label} {gs fs : List Frame} {b : Bool}
    (H : Calling k k.cur gs fs b) (hr : Reachable cfg ok k) (hg : gs ≠ []) :
    EntersOff cfg fuel k lab := by
  obtain ⟨f, gs, rfl⟩ := List.exists_cons_of_ne_nil hg
  have e : k.stack k.cur = f :: (gs ++ fs) := H.stack
  have hf : ¬ f.Outside := H.inside f List.mem_cons_self
  have hw : ∀ p old, f = .semaDownWait p old → (popFrame k (gs ++ fs)).intrOn = false := by
    rintro p old rfl
    have hoff := (hr.waitsOff k.cur p old).2
    rw [e, k.level_cur] at hoff
    exact hoff rfl
  cases lab with
  | call c =>
      refine ⟨nofun, fun k₁ h => ?_, fun _ k' h => ?_⟩
      · rw [Label.scheduleEntry] at h
        split at h <;> cases h
        all_goals exact nofun
      · simp [Pintos.step, e] at h
  | run =>
      have hb : Label.run.blockEntry cfg fuel k =
          f.blockEntry cfg fuel (popFrame k (gs ++ fs)) := by
        simp only [Label.blockEntry, e]
      have hs : Label.run.scheduleEntry cfg fuel k =
          f.scheduleEntry cfg fuel (popFrame k (gs ++ fs)) := by
        simp only [Label.scheduleEntry, e]
      have hx : Pintos.step cfg fuel k .run = exec cfg fuel (popFrame k (gs ++ fs)) f := by
        simp only [Pintos.step, e]
      refine ⟨fun k₁ h => ?_, fun k₁ h => ?_, fun h k' h' => ?_⟩
      · rw [hb] at h
        exact ⟨hx.trans (exec_of_blockEntry h), Frame.blockEntry_off hf hw h⟩
      · rw [hs] at h
        rw [hx]
        exact Frame.scheduleEntry_off hf hw h
      · rw [hs] at h
        rw [hx] at h'
        have hd : k'.dispatches = (popFrame k (gs ++ fs)).dispatches :=
          exec_of_scheduleEntry_none h h'
        exact hd
  | _ => exact interrupt_entersOff rfl

/-- **The interrupt level is restored on every path.** -/
theorem interrupt_level_restored {f : Frame} {fs : List Frame} (hr : Reachable cfg ok k)
    (hf : f.Restores) (e : k.stack k.cur = f :: fs)
    (h : Relation.ReflTransGen (InCall cfg ok k.cur fs) k k') :
    (k'.stack k.cur = fs → k'.cur = k.cur ∧ k'.intrOn = k.intrOn) ∧
      (k'.cur = k.cur → k'.stack k.cur ≠ fs → ∀ fuel lab, EntersOff cfg fuel k' lab) := by
  have H : Calling k k.cur [f] fs k.intrOn := by
    refine ⟨e, ?_, ?_, nofun⟩
    · rw [returnLevel_cons, returnLevel_nil, k.level_cur]
      cases hf <;> rfl
    · rw [List.forall_mem_singleton]
      cases hf <;> exact id
  obtain ⟨hr', gs, H'⟩ := H.run hr h
  refine ⟨fun hs => ?_, fun hc hs fuel lab => ?_⟩
  · have hg : gs = [] := by
      have hst := H'.stack
      rw [hs] at hst
      exact List.self_eq_append_left.mp hst
    have hc := H'.returned hg
    have hl := H'.level
    rw [hg, returnLevel_nil, ← hc, Kernel.level_cur] at hl
    exact ⟨hc, hl⟩
  · rw [← hc] at H' hs
    refine H'.entersOff hr' fun hg => hs ?_
    rw [H'.stack, hg, List.nil_append]

/-- The initial thread blocks in `sema_down`, the idle thread runs, and an interrupt ups the
semaphore. -/
theorem interrupt_level_restored_blocked : ∃ k k',
    Reachable priorityConfig (fun _ _ => True) k ∧ k.stack k.cur = [.semaDown (.user 0)] ∧
      Relation.ReflTransGen (InCall priorityConfig (fun _ _ => True) k.cur []) k k' ∧
        k'.dispatches.head? = some k.cur ∧ k'.cur = k.cur ∧ k'.intrOn = k.intrOn := by
  obtain ⟨k, hr, hp⟩ := exists_reachable priorityConfig 20 (fun _ _ => True)
    (List.replicate 19 Label.run ++ [Label.call (.semaDown 0)])
    (fun k => k.cur = 0 && (k.stack 0 = [.semaDown (.user 0)] &&
      (execute priorityConfig 20 (fun k _ => k.stack 0 ≠ []) k
        [Label.run, .run, .semaUp 0, .run]).any fun k' =>
          k'.stack 0 = [] && k'.dispatches.head? = some 0)) (by decide +kernel)
  simp only [Bool.and_eq_true, decide_eq_true_eq] at hp
  obtain ⟨hc, hs, hp⟩ := hp
  obtain ⟨k', hk', hp'⟩ := (Option.any_eq_true _ _).mp hp
  simp only [Bool.and_eq_true, decide_eq_true_eq] at hp'
  have hs : k.stack k.cur = [.semaDown (.user 0)] := by rw [hc, hs]
  have hrun : Relation.ReflTransGen (InCall priorityConfig (fun _ _ => True) k.cur []) k k' := by
    refine Relation.ReflTransGen.mono ?_ _ _ (execute_steps hk')
    intro _ _ hn
    obtain ⟨lab, fuel, hne, hn⟩ := hn
    exact ⟨hc ▸ hne, lab, fuel, trivial, hn⟩
  have hret : k'.stack k.cur = [] := by rw [hc, hp'.1]
  refine ⟨k, k', hr, hs, hrun, ?_, (interrupt_level_restored hr .semaDown hs hrun).1 hret⟩
  rw [hc, hp'.2]

end Pintos
