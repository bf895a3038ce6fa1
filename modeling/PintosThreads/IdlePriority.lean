/-
PintosThreads/IdlePriority.lean

The priority of the idle thread in the MLFQS.

It is created with `PRI_MIN`, but `init_thread` computes another priority over
it, and `thread_unblock` computes it once more before `idle_thread` is
assigned.  From then on `mlfqs_update_priority` leaves it alone.  The idle
thread holds no lock, so that no donation reaches it either: its priority is
what it was when `idle_thread` was assigned, and that is `PRI_MAX` if no tick
has come before (`IdleTop`).
-/
import PintosThreads.RefreshedPriority
import PintosThreads.SchedulerInv

namespace Pintos

open Intrusive

variable {cfg : Config} {fuel : ℕ} {ok : Kernel → Label → Prop} {k k₁ k' : Kernel}
variable {okCall : Call → Prop} {s s' : Sync} {t : ThreadPtr} {lab : Label}

/-! ### The idle thread holds no lock -/

theorem Frame.Takes.not_idling {f : Frame} {fs : List Frame} {l : LockPtr} (h : f.Takes l)
    (hi : Idling (f :: fs)) : False := by
  rcases hi.mem (List.mem_cons_self ..) with hi | hi <;> cases h <;> cases hi <;>
    rename_i hp <;> cases hp

theorem Sync.Step.holder_ne_idle (I : s.Inv) (h : Sync.Step okCall t s s')
    (hh : ∀ l, s.holder l ≠ some 1) : ∀ l, s'.holder l ≠ some 1 := by
  intro l
  rcases h.holder_cases with he | ⟨f, fs, m, e, hf, he⟩ | ⟨m, fs, -, he⟩
  · rw [he]
    exact hh l
  · rw [he]
    obtain rfl | hl := eq_or_ne l m
    · rw [Function.update_self]
      rintro ⟨⟩
      -- thread 1 has a stack, and so it exists
      have hn : 1 < s.nextThread := by
        by_contra hn
        rw [I.unborn 1 (not_lt.mp hn)] at e
        cases e
      exact hf.not_idling (e ▸ I.idling hn)
    · rw [Function.update_of_ne hl]
      exact hh l
  · rw [he]
    obtain rfl | hl := eq_or_ne l m
    · rw [Function.update_self]
      exact nofun
    · rw [Function.update_of_ne hl]
      exact hh l

theorem Sync.Reachable.holder_ne_idle (h : Sync.Reachable cfg okCall s) (l : LockPtr) :
    s.holder l ≠ some 1 := by
  induction h generalizing l with
  | refl => exact nofun
  | tail hr hs ih =>
      obtain ⟨t, hs⟩ := hs
      exact hs.holder_ne_idle (Sync.Reachable.inv hr) ih l

/-! ### Steps that write no priority of their own -/

/-- The frames that write neither a priority nor a nice value of their own, create no thread
and do not assign `idle_thread`. -/
def Frame.Plain : Frame → Prop
  | lockAcquireBody _ | lockReleaseRefresh _ | threadSetPriority _ => False
  | threadSetNice _ | threadSetNiceWrite _ | threadCreateLink _ _ _ _ | idle => False
  | _ => True

/-- A priority is only changed to that of the formula, and the values of the formula are
not. -/
structure Recomputes (k k' : Kernel) : Prop where
  recentCpu : ∀ u, (k'.thr u).recentCpu = (k.thr u).recentCpu
  nice : ∀ u, (k'.thr u).nice = (k.thr u).nice
  priority : ∀ u, (k'.thr u).priority = (k.thr u).priority ∨
    k.idleThread ≠ some u ∧ (k'.thr u).priority = mlfqsPriority (k.thr u).recentCpu (k.thr u).nice
  nextThread : k'.nextThread = k.nextThread
  idleThread : k'.idleThread = k.idleThread

theorem Recomputes.refl (k : Kernel) : Recomputes k k :=
  ⟨fun _ => rfl, fun _ => rfl, fun _ => .inl rfl, rfl, rfl⟩

theorem Recomputes.trans (h : Recomputes k k₁) (h' : Recomputes k₁ k') : Recomputes k k' where
  recentCpu := fun u => (h'.recentCpu u).trans (h.recentCpu u)
  nice := fun u => (h'.nice u).trans (h.nice u)
  priority := by
    intro u
    rcases h'.priority u with he | ⟨hi, he⟩
    · rw [he]
      exact h.priority u
    · rw [h.idleThread] at hi
      rw [he, h.recentCpu, h.nice]
      exact .inr ⟨hi, rfl⟩
  nextThread := h'.nextThread.trans h.nextThread
  idleThread := h'.idleThread.trans h.idleThread

theorem Write.recomputes {f : Frame} (hf : f.Plain) (h : Write cfg (some f) k k') :
    Recomputes k k' := by
  cases h with
  | silent hs =>
      exact ⟨hs.recentCpu, hs.nice, fun u => .inl (hs.priority u), hs.nextThread, hs.idleThread⟩
  | links | insert | unlist | clock | dispatch =>
      exact ⟨fun _ => rfl, fun _ => rfl, fun _ => .inl rfl, rfl, rfl⟩
  | @wake t =>
      refine ⟨fun u => ?_, fun u => ?_, fun u => .inl ?_, rfl, rfl⟩ <;>
        obtain rfl | hu := eq_or_ne u t <;> simp [*]
  | sleep | waiting =>
      refine ⟨fun u => ?_, fun u => ?_, fun u => .inl ?_, rfl, rfl⟩ <;>
        obtain rfl | hu := eq_or_ne u k.cur <;> simp [insertSleeper, *]
  | priority hw => cases hw <;> exact hf.elim
  | @compute t hm hi =>
      refine ⟨fun u => ?_, fun u => ?_, fun u => ?_, rfl, rfl⟩
      · obtain rfl | hu := eq_or_ne u t <;> simp [*]
      · obtain rfl | hu := eq_or_ne u t <;> simp [*]
      · obtain rfl | hu := eq_or_ne u t <;> simp [*]
  | nice h | setNice h | link h | idle h =>
      cases h
      exact hf.elim
  | recentCpu h => cases h

theorem Writes.recomputes {f : Frame} (hf : f.Plain) (h : Writes cfg (some f) k k') :
    Recomputes k k' :=
  h.induct (P := Recomputes k) (fun _ _ hr hw => hr.trans (hw.recomputes hf)) (.refl k)

/-! ### The invariant -/

/-- The idle thread (number 1) has the highest priority, and before `idle_thread` is assigned
it would be computed again; or there is no idle thread and never will be. -/
inductive IdleTop (k : Kernel) : Prop
  | stranded : Stranded k.sync → IdleTop k
  | early : k.nextThread = 1 → k.cur = 0 → k.intrOn = false →
      (k.thr 0).recentCpu = 0 → (k.thr 0).nice = 0 →
      (k.stack 0 = [.threadCreate priMin .idle, .threadStart] ∨
        k.stack 0 = [.threadCreateLink priMin .idle 0 0, .threadStart]) → IdleTop k
  | started : 1 < k.nextThread → (k.thr 1).priority = priMax →
      (k.idleThread = none → (k.thr 1).recentCpu = 0 ∧ (k.thr 1).nice = 0) → IdleTop k

/-- The formula gives a thread without `recent_cpu` the highest priority. -/
theorem mlfqsPriority_zero : mlfqsPriority 0 0 = priMax := by decide

/-- What a step may do once the idle thread has been created. -/
theorem IdleTop.recomputes (hn : 1 < k.nextThread) (hp : (k.thr 1).priority = priMax)
    (h0 : k.idleThread = none → (k.thr 1).recentCpu = 0 ∧ (k.thr 1).nice = 0)
    (hi : ∀ t, k.idleThread = some t → t = 1) (h : Recomputes k k') : IdleTop k' := by
  refine .started (h.nextThread ▸ hn) ?_ fun hnone => ?_
  · rcases h.priority 1 with he | ⟨hne, he⟩
    · exact he.trans hp
    · rcases e : k.idleThread with - | t
      · obtain ⟨hr, hni⟩ := h0 e
        rw [he, hr, hni, mlfqsPriority_zero]
      · obtain rfl := hi t e
        exact absurd e hne
  · rw [h.recentCpu, h.nice]
    exact h0 (h.idleThread ▸ hnone)

/-- A tick leaves the idle thread alone. -/
theorem Write.idle_priority (h : Write cfg none k k')
    (hk : 1 < k.nextThread ∧ k.idleThread = some 1 ∧ (k.thr 1).priority = priMax) :
    1 < k'.nextThread ∧ k'.idleThread = some 1 ∧ (k'.thr 1).priority = priMax := by
  obtain ⟨hn, hi, hp⟩ := hk
  cases h with
  | silent hs => exact ⟨hs.nextThread ▸ hn, hs.idleThread ▸ hi, (hs.priority 1).trans hp⟩
  | links | insert | unlist | clock | dispatch => exact ⟨hn, hi, hp⟩
  | priority hw => cases hw
  | @wake t =>
      refine ⟨hn, hi, ?_⟩
      obtain rfl | ht := eq_or_ne 1 t
      · simpa using hp
      · simpa [ht] using hp
  | @compute t hm hne =>
      have ht : (1 : ThreadPtr) ≠ t := fun e => hne (e ▸ hi)
      exact ⟨hn, hi, by simpa [ht] using hp⟩
  | nice h | setNice h | link h | idle h | sleep h | waiting h => cases h
  | @recentCpu t c =>
      refine ⟨hn, hi, ?_⟩
      obtain rfl | ht := eq_or_ne 1 t
      · simpa using hp
      · simpa [ht] using hp

/-- A frame of another thread that writes on its own does not write to thread 1. -/
theorem exec_thr_idle {f : Frame} (hf : ¬ f.Plain) (hi : f ≠ .idle) (hc : k.cur ≠ 1)
    (hn : 1 < k.nextThread) (hh : ∀ l, k.lockHolder l ≠ some 1)
    (h : exec cfg fuel k f = some k') :
    (k'.thr 1).priority = (k.thr 1).priority ∧ (k'.thr 1).recentCpu = (k.thr 1).recentCpu ∧
      (k'.thr 1).nice = (k.thr 1).nice ∧ k.nextThread ≤ k'.nextThread ∧
        k'.idleThread = k.idleThread := by
  have hc1 : (1 : ThreadPtr) ≠ k.cur := hc.symm
  cases f <;> try exact absurd trivial hf
  case idle => exact absurd rfl hi
  case lockAcquireBody l =>
    rcases e : k.lockHolder l with - | h₀
    · rw [exec, e] at h
      cases h
      exact ⟨rfl, rfl, rfl, le_rfl, rfl⟩
    · rw [exec, e] at h
      obtain ⟨k₁, h₁, rfl⟩ := Option.map_eq_some_iff.mp h
      have H := waitForLock_contends h₁
      obtain ⟨p, ht, -, hp⟩ := H.thr 1
      -- donation raises holders only
      have hr : ¬ Raises k (k.thr k.cur).priority 1 h₀ := by
        intro hr
        have hold : ∀ {u h₀}, Raises k (k.thr k.cur).priority u h₀ →
            (∃ l, k.lockHolder l = some h₀) → ∃ l, k.lockHolder l = some u := by
          intro u h₀ hr
          induction hr with
          | here => exact id
          | next _ hg _ ih =>
              obtain ⟨m, -, hm⟩ := Option.bind_eq_some_iff.mp hg
              exact fun _ => ih ⟨m, hm⟩
        obtain ⟨m, hm⟩ := hold hr ⟨l, e⟩
        exact hh m hm
      have hk : (k₁.pushes [.semaDown (.ofLock l), .lockAcquireHeld l]).thr 1 = k₁.thr 1 := rfl
      rw [hk, ht, hp hr]
      exact ⟨rfl, rfl, rfl, (congrArg Sync.nextThread H.sync.1).ge,
        congrArg Sync.idleThread H.sync.1⟩
  case lockReleaseRefresh old =>
    obtain ⟨k₁, h₁, rfl⟩ := Option.map_eq_some_iff.mp h
    obtain ⟨p, rfl, -⟩ := refreshPriority_isGreatest h₁
    split <;> simp [Kernel.setPriority, hc1]
  case threadCreateLink p e n r =>
    cases h
    have hn1 : (1 : ThreadPtr) ≠ k.nextThread := hn.ne
    split <;> simp [linkThread, hn1]
  case threadSetPriority p =>
    cases h
    simp [hc1]
  case threadSetNice n =>
    cases h
    simp [hc1]
  case threadSetNiceWrite p =>
    cases h
    simp [hc1]

theorem IdleTop.step (hm : cfg.mlfqs = true) (I : k.sync.Inv) (hc : k.cur < k.nextThread)
    (hh : ∀ l, k.lockHolder l ≠ some 1) (hlab : lab = .timer → k.idleThread ≠ none)
    (J : IdleTop k) (h : step cfg fuel k lab = some k') : IdleTop k' := by
  cases J with
  | stranded S => exact .stranded (S.step I (step_sync hc (fun _ _ => trivial) h).1)
  | early hn hcur hoff hr hni hst =>
      -- interrupts are off, and the initial thread creates the idle thread
      cases lab with
      | call c =>
          rw [step, hcur] at h
          rcases hst with e | e <;> simp [e] at h
      | timer | semaUp n | semaTryDown n => simp [step, hoff] at h
      | run =>
          rw [step, hcur] at h
          rcases hst with e | e
          · rw [e] at h
            have hp : priMin ≤ priMin ∧ priMin ≤ priMax := by decide
            simp only [exec, if_pos hp] at h
            split at h
            case isTrue =>
              -- there is no page
              cases h
              refine .stranded ⟨hn, fun u f hf => ?_⟩
              obtain rfl | hu := eq_or_ne u 0
              · have hf : f = .threadStart := by simpa [popFrame, hcur] using hf
                rw [hf]
                rintro ⟨⟩
              · have hnil : k.stack u = [] :=
                  I.unborn u (by rw [Kernel.sync_nextThread, hn]; exact Nat.one_le_iff_ne_zero.mpr hu)
                simp [popFrame, hcur, hu, hnil] at hf
            case isFalse =>
              cases h
              refine .early hn hcur hoff hr hni (.inr ?_)
              simp [popFrame, hcur, hr, hni]
          · rw [e] at h
            cases h
            have hnew : (linkThread cfg (popFrame k [.threadStart]) priMin .idle 0 0).thr 1 =
                initThread cfg priMin 0 0 := by
              simp [linkThread, popFrame, hn]
            refine .started ?_ ?_ fun _ => ?_
            · split <;> simp [popFrame, linkThread, hn]
            · split <;> simp [hnew, initThread, hm, mlfqsPriority_zero]
            · split <;> simp [hnew, initThread]
  | started hn hp h0 =>
      have hidle : ∀ t, k.idleThread = some t → t = 1 := fun t ht => (I.idleThread t ht).1
      cases lab with
      | call c =>
          rw [step] at h
          split at h <;> cases h
          exact .started hn hp h0
      | timer =>
          have hi : k.idleThread = some 1 := by
            obtain ⟨t, ht⟩ := Option.ne_none_iff_exists'.mp (hlab rfl)
            rw [ht, hidle t ht]
          obtain ⟨hn', hi', hp'⟩ := (step_writes h).induct
            (fun _ _ hk hw => Write.idle_priority hw hk) ⟨hn, hi, hp⟩
          exact .started hn' hp' fun hnone => absurd (hi'.symm.trans hnone) (by rintro ⟨⟩)
      | semaUp n =>
          rw [step] at h
          split at h
          case isTrue =>
            obtain ⟨k₁, h₁, h⟩ := Option.bind_eq_some_iff.mp h
            obtain ⟨b, -, h⟩ := Option.bind_eq_some_iff.mp h
            have hw : Writes cfg (some .threadYield) k ((endHalt k).setLevel false) :=
              ((endHalt_silent k).setLevel false).writes
            have hh := hw.recomputes (f := .threadYield) trivial
            have hu := (semaUpBody_writes (by rintro _ ⟨⟩; exact .semaUp) h₁).recomputes
              (f := .semaUp (.user n)) trivial
            have hr := (interruptReturn_writes (by rintro _ ⟨⟩; exact .threadYield) h).recomputes
              (f := .threadYield) trivial
            exact .recomputes hn hp h0 hidle (hh.trans (hu.trans hr))
          case isFalse => cases h
      | semaTryDown n =>
          rw [step] at h
          split at h
          · exact .recomputes hn hp h0 hidle ((semaTryDownInterrupt_writes
              (by rintro _ ⟨⟩; exact .threadYield) h).recomputes (f := .threadYield) trivial)
          · cases h
      | run =>
          rcases e : k.stack k.cur with - | ⟨f, fs⟩
          · simp [step, e] at h
          · rw [step, e] at h
            by_cases hf : f.Plain
            · exact .recomputes (k := popFrame k fs) hn hp h0 hidle ((exec_writes h).recomputes hf)
            · by_cases hfi : f = .idle
              · -- `idle_thread` is assigned
                subst hfi
                cases h
                have hc : k.cur = 1 :=
                  (I.frameOk k.cur .idle (by rw [Kernel.sync_stack, e]; exact .head _)).idle_eq .idle
                exact .started hn hp (by rintro ⟨⟩)
              · have hc : k.cur ≠ 1 := by
                  intro hc
                  have hid := (I.idling hn).mem (f := f) (by
                    rw [Kernel.sync_stack, ← hc, e]
                    exact .head _)
                  rcases hid with hid | hid
                  · cases hid with
                    | preempts hpre => cases hpre <;> exact hf trivial
                    | _ => exact hf trivial
                  · cases hid with
                    | idle => exact hfi rfl
                    | _ => exact hf trivial
                obtain ⟨hp', hr', hn', hle, hi'⟩ :=
                  exec_thr_idle (k := popFrame k fs) hf hfi hc hn hh h
                refine .started (hn.trans_le hle) (hp'.trans hp) fun hnone => ?_
                rw [hr', hn']
                exact h0 (hi'.symm.trans hnone)

/-- The idle thread has the highest priority, if no tick comes before `idle_thread` is
assigned. -/
theorem Reachable.idleTop (hm : cfg.mlfqs = true) (hok : ∀ k, ok k .timer → k.idleThread ≠ none)
    (h : Reachable cfg ok k) : IdleTop k := by
  induction h with
  | refl =>
      refine .early rfl rfl rfl ?_ ?_ (.inl ?_) <;> simp [boot, initThread, hm, recentCpuDefault,
        niceDefault]
  | @tail k k' hr hs ih =>
      obtain ⟨lab, fuel, hlab, hs⟩ := hs
      have hsync := (Reachable.anySync hr).1
      exact ih.step hm (Sync.Reachable.inv hsync) (Reachable.anySync hr).2
        (Sync.Reachable.holder_ne_idle hsync)
        (fun e => hok k (e ▸ hlab)) hs

/-! ### Giving way -/

/-- Uninterrupted execution. -/
def RunsTo (cfg : Config) : Kernel → Kernel → Prop :=
  Relation.ReflTransGen fun k k' => ∃ fuel, step cfg fuel k .run = some k'

/-- A thread is queued at an index above the running thread's priority. -/
def Outranked (k : Kernel) : Prop :=
  ∃ i : ℕ, i < 64 ∧ k.elems.listEmpty (.mlfqsList i) = false ∧ (k.thr k.cur).priority < i

/-- `mlfqs_check_preemption` looks at the highest queue that is not empty. -/
theorem mlfqsCheckPreemptionIntr_iff (hq : ∃ i : ℕ, i < 64 ∧ k.elems.listEmpty (.mlfqsList i) = false) :
    mlfqsCheckPreemptionIntr k = true ↔ Outranked k := by
  obtain ⟨hs, hn⟩ := mlfqsHighest_spec (e := k.elems) 64
  rw [mlfqsCheckPreemptionIntr]
  rcases e : mlfqsHighest k.elems 64 with - | i
  · obtain ⟨j, hj, hne⟩ := hq
    rw [hn e j hj] at hne
    cases hne
  · obtain ⟨hi, hne, habove⟩ := hs i e
    simp only [gt_iff_lt, decide_eq_true_eq]
    refine ⟨fun hlt => ⟨i, hi, hne, hlt⟩, ?_⟩
    rintro ⟨j, hj, hjne, hlt⟩
    have hji : j ≤ i := by
      by_contra hij
      rw [habove j (not_le.mp hij) hj] at hjne
      cases hjne
    exact hlt.trans_le (by exact_mod_cast hji)

theorem popFrame_push (k : Kernel) (fs : List Frame) (f : Frame) :
    (popFrame k fs).push f = popFrame k (f :: fs) := by
  simp [popFrame, Kernel.push]

/-- In thread context the loop goes down the queues to the highest one that is not empty.  `R` is
any relation that the steps taken meanwhile are in. -/
theorem mlfqsCheckPreemption_steps {R : Kernel → Kernel → Prop} (fs : List Frame)
    (hR : ∀ gs k', step cfg 0 (popFrame k gs) .run = some k' → R (popFrame k gs) k') : ∀ n : ℕ,
    Relation.ReflTransGen R (popFrame k (.mlfqsCheckPreemption n :: fs))
      (popFrame k (.mlfqsCheckPreemptionCompare
        (match mlfqsHighest k.elems n with
          | some i => (i : ℤ)
          | none => -1) :: fs))
  | 0 => by
      refine .single (hR _ _ ?_)
      rw [← popFrame_push]
      simp [step, popFrame, exec, mlfqsHighest, Kernel.push]
  | n + 1 => by
      rw [mlfqsHighest]
      by_cases he : k.elems.listEmpty (.mlfqsList n) = true
      · rw [if_pos he]
        refine .head (hR _ _ ?_) (mlfqsCheckPreemption_steps fs hR n)
        simp [step, popFrame, exec, he, Kernel.push]
      · rw [if_neg he]
        refine .single (hR _ _ ?_)
        simp [step, popFrame, exec, he, Kernel.push]

/-- In thread context `mlfqs_check_preemption` decides as it does in an interrupt. -/
theorem mlfqsCheckPreemption_yields {R : Kernel → Kernel → Prop} {fs : List Frame}
    (hR : ∀ gs k', step cfg 0 (popFrame k gs) .run = some k' → R (popFrame k gs) k')
    (h : k.stack k.cur = .mlfqsCheckPreemption 64 :: fs) : Relation.ReflTransGen R k
      (popFrame k (if mlfqsCheckPreemptionIntr k then .threadYield :: fs else fs)) := by
  have hk : popFrame k (.mlfqsCheckPreemption 64 :: fs) = k := by
    rw [popFrame, ← h, Function.update_eq_self]
  have hr := mlfqsCheckPreemption_steps fs hR 64
  rw [hk] at hr
  have hcmp : ∀ p : ℤ, step cfg 0 (popFrame k (.mlfqsCheckPreemptionCompare p :: fs)) .run =
      some (popFrame k (if p > (k.thr k.cur).priority then .threadYield :: fs else fs)) := by
    intro p
    by_cases hlt : p > (k.thr k.cur).priority <;> simp [step, popFrame, exec, hlt, Kernel.push]
  refine hr.tail (hR _ _ ?_)
  rw [hcmp, mlfqsCheckPreemptionIntr]
  rcases mlfqsHighest k.elems 64 with - | i <;> simp

/-- **Giving way**: while the idle thread runs and a thread is queued, `mlfqs_check_preemption`
asks for a yield, in an interrupt as in thread context, exactly if some queued thread's index is
above the idle thread's priority.  Unless a tick comes before `idle_thread` is assigned, this
never happens. -/
theorem idle_gives_way (hm : cfg.mlfqs = true) (h : Reachable cfg ok k)
    (hi : k.idleThread = some k.cur)
    (hq : ∃ i : ℕ, i < 64 ∧ k.elems.listEmpty (.mlfqsList i) = false) :
    (mlfqsCheckPreemptionIntr k = true ↔ Outranked k) ∧
      (∀ fs, k.stack k.cur = .mlfqsCheckPreemption 64 :: fs →
        RunsTo cfg k (popFrame k (if mlfqsCheckPreemptionIntr k then .threadYield :: fs else fs))) ∧
          ((∀ k, ok k .timer → k.idleThread ≠ none) → ¬ Outranked k) := by
  refine ⟨mlfqsCheckPreemptionIntr_iff hq, fun fs e =>
    mlfqsCheckPreemption_yields (fun _ _ h => ⟨0, h⟩) e, ?_⟩
  rintro hok ⟨i, hi64, -, hlt⟩
  have hsync := h.anySync.1
  have hc : k.cur = 1 := ((Sync.Reachable.inv hsync).idleThread k.cur hi).1
  rw [hc] at hlt
  cases h.idleTop hm hok with
  | stranded S =>
      have hlt : k.cur < 1 := S.nextThread ▸ h.anySync.2
      exact absurd hlt (by rw [hc]; decide)
  | early _ hcur => exact absurd (hc.symm.trans hcur) (by decide)
  | started _ hp =>
      rw [hp, priMax] at hlt
      omega

/-- The idle thread runs, and an interrupt has woken the initial thread: no yield is
requested. -/
theorem idle_keeps_running : ∃ k, Reachable mlfqsTidConfig (fun _ lab => lab ≠ .timer) k ∧
    k.idleThread = some k.cur ∧
      (∃ i : ℕ, i < 64 ∧ k.elems.listEmpty (.mlfqsList i) = false) ∧
        ¬ mlfqsCheckPreemptionIntr k = true := by
  obtain ⟨k, hr, hk⟩ := exists_reachable mlfqsTidConfig 70 (fun _ lab => lab ≠ .timer)
    (List.replicate 125 Label.run ++ [Label.call (.semaDown 0), .run, .run, .semaUp 0])
    (fun k => k.idleThread = some k.cur ∧ k.elems.listEmpty (.mlfqsList 63) = false ∧
      mlfqsCheckPreemptionIntr k = false) (by decide +kernel)
  obtain ⟨hi, hne, hf⟩ := of_decide_eq_true hk
  exact ⟨k, hr, hi, ⟨63, by decide, hne⟩, by simp [hf]⟩

/-- The same state: the idle thread is not outranked, and so it does not give way.  After four
ticks that come before `idle_thread` is assigned the idle thread is left with 62, and it gives
way to the initial thread, which its `sema_up` queues at 63. -/
theorem idle_gives_way_runs :
    (∃ k, Reachable mlfqsTidConfig (fun _ lab => lab ≠ .timer) k ∧
      k.idleThread = some k.cur ∧ ¬ Outranked k) ∧
    ∃ k fs, Reachable mlfqsTidConfig (fun _ _ => True) k ∧ k.idleThread = some k.cur ∧
      Outranked k ∧ mlfqsCheckPreemptionIntr k = true ∧
        RunsTo mlfqsTidConfig k (popFrame k (.threadYield :: fs)) := by
  refine ⟨?_, ?_⟩
  · obtain ⟨k, hr, hk⟩ := exists_reachable mlfqsTidConfig 70 (fun _ lab => lab ≠ .timer)
      (List.replicate 125 Label.run ++ [Label.call (.semaDown 0), .run, .run, .semaUp 0])
      (fun k => k.idleThread = some k.cur ∧ k.elems.listEmpty (.mlfqsList 63) = false)
      (by decide +kernel)
    obtain ⟨hi, hne⟩ := of_decide_eq_true hk
    exact ⟨k, hr, hi, (idle_gives_way rfl hr hi ⟨63, by decide, hne⟩).2.2 fun _ h =>
      absurd rfl h⟩
  · obtain ⟨k, hr, hk⟩ := exists_reachable mlfqsTidConfig 70 (fun _ _ => True)
      (List.replicate 85 Label.run ++ List.replicate 4 Label.timer ++ List.replicate 6 Label.run)
      (fun k => k.idleThread = some k.cur ∧ k.elems.listEmpty (.mlfqsList 63) = false ∧
        (k.thr k.cur).priority = 62 ∧ k.stack k.cur = [.mlfqsCheckPreemption 64, .idleLoop])
      (by decide +kernel)
    obtain ⟨hi, hne, hp, hst⟩ := of_decide_eq_true hk
    have ho : Outranked k := ⟨63, by decide, hne, by rw [hp]; decide⟩
    obtain ⟨hiff, hruns, -⟩ := idle_gives_way rfl hr hi ⟨63, by decide, hne⟩
    have hy := hiff.mpr ho
    have hto := hruns [.idleLoop] hst
    rw [if_pos hy] at hto
    exact ⟨k, [.idleLoop], hr, hi, ho, hy, hto⟩

end Pintos
