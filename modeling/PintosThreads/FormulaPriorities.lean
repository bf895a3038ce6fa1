/-
PintosThreads/FormulaPriorities.lean

Where the priorities of the MLFQS come from.

They should all come from the formula.  But `lock_acquire` donates its priority
to the holder and `lock_release` resets that of its caller in both schedulers,
and so does `thread_set_priority` write what it is given.  `Inert` says when
these writes change nothing; for the two of the locks it is exact
(`lockOp_inert`), the second one because `refresh_priority` computes a greatest
element (`refreshPriority_isGreatest`).
-/
import PintosThreads.TimerPriorities
import PintosThreads.Turns

namespace Pintos

open Intrusive

variable {cfg : Config} {fuel : ℕ} {k k₁ k' : Kernel} {t : ThreadPtr} {l : LockPtr}

/-! ### Writes that change nothing -/

/-- The frames of `lock_acquire`, `lock_try_acquire` and `lock_release`. -/
def Frame.LockOp : Frame → Prop
  | lockAcquire _ | lockAcquireBody _ | lockAcquireFree _ _ | lockAcquireHeld _ => True
  | lockTryAcquire _ | lockTryAcquireDown _ | lockTryAcquireHolder _ => True
  | lockRelease _ | lockReleaseBody _ | lockReleaseRefresh _ => True
  | _ => False

/-- What frame `f` writes to a priority apart from the formula is there already: the holder of
the lock has the priority of the thread that waits, a released thread the one it is reset to. -/
def Inert (cfg : Config) (k : Kernel) : Frame → Prop
  | .lockAcquireBody l =>
      ∀ h, k.lockHolder l = some h → (k.thr k.cur).priority ≤ (k.thr h).priority
  | .lockReleaseRefresh _ =>
      IsGreatest (insert (k.thr k.cur).basePriority (donations cfg k k.cur))
        (k.thr k.cur).priority
  | .threadSetPriority p => p = (k.thr k.cur).priority
  | _ => True

/-- A contended `lock_acquire` donates nothing to a holder of at least the same priority. -/
theorem Contends.priority_eq_iff {h : ThreadPtr} (H : Contends k k' l h) :
    (∀ u, (k'.thr u).priority = (k.thr u).priority) ↔
      (k.thr k.cur).priority ≤ (k.thr h).priority := by
  constructor
  · intro hp
    by_contra hlt
    rcases H.priority_cases h with ⟨-, he⟩ | ⟨hn, -⟩
    · exact hlt (he.symm.trans (hp h)).le
    · exact hn (.here (not_le.mp hlt))
  · intro hle u
    rcases H.priority_cases u with ⟨hr, -⟩ | ⟨-, he⟩
    · -- donation looks at the holder first
      rcases hr with hlt | ⟨hlt, -, -⟩ <;> exact absurd hle (not_le.mpr hlt)
    · exact he

theorem setPriority_eq_iff {p : ℤ} :
    (∀ u, ((k.setPriority t p).thr u).priority = (k.thr u).priority) ↔ p = (k.thr t).priority := by
  constructor
  · intro h
    simpa using h t
  · rintro rfl u
    simp

/-- **The lock operations** leave every priority as it is exactly where they are inert. -/
theorem lockOp_inert {f : Frame} (hf : f.LockOp) (h : exec cfg fuel k f = some k') :
    (∀ t, (k'.thr t).priority = (k.thr t).priority) ↔ Inert cfg k f := by
  cases f <;> try exact hf.elim
  case lockAcquireBody l =>
    rcases e : k.lockHolder l with - | h₀
    · rw [exec, e] at h
      cases h
      simp [Inert, e]
    · rw [exec, e] at h
      obtain ⟨k₁, h₁, rfl⟩ := Option.map_eq_some_iff.mp h
      refine (waitForLock_contends h₁).priority_eq_iff.trans ?_
      simp [Inert, e]
  case lockReleaseRefresh old =>
    obtain ⟨k₁, h₁, rfl⟩ := Option.map_eq_some_iff.mp h
    obtain ⟨p, rfl, hp⟩ := refreshPriority_isGreatest h₁
    have hthr : ∀ u, ((if yieldNecessary cfg (k.setPriority k.cur p) then
        (k.setPriority k.cur p).pushes [.threadYield, .intrSetLevel old]
        else (k.setPriority k.cur p).push (.intrSetLevel old)).thr u) =
          (k.setPriority k.cur p).thr u := by
      intro u
      split <;> rfl
    simp only [hthr, setPriority_eq_iff, Inert]
    exact ⟨fun e => e ▸ hp, fun hq => hp.unique hq⟩
  all_goals refine iff_of_true (fun t => ?_) trivial
  case lockAcquire l | lockRelease l | lockTryAcquire l =>
    rw [exec] at h
    split at h
    · cases h <;> rfl
    · cases h <;> rfl
  case lockAcquireFree l old =>
    obtain ⟨k₁, h₁, rfl⟩ := Option.map_eq_some_iff.mp h
    exact (takeLock_silent h₁).priority t
  case lockAcquireHeld l =>
    obtain ⟨k₁, h₁, rfl⟩ := Option.map_eq_some_iff.mp h
    rw [← (takeLock_silent h₁).priority t]
    obtain rfl | ht := eq_or_ne t k.cur <;> simp [*]
  case lockTryAcquireDown l =>
    cases h
    split <;> exact (semaTryDown_silent k (some k.cur) (.ofLock l)).priority t
  case lockTryAcquireHolder l =>
    cases h
    rfl
  case lockReleaseBody l =>
    obtain ⟨k₁, h₁, rfl⟩ := Option.map_eq_some_iff.mp h
    obtain ⟨le, -, h₁⟩ := Option.bind_eq_some_iff.mp h₁
    obtain ⟨n, -, h₁⟩ := Option.bind_eq_some_iff.mp h₁
    obtain ⟨e, -, h₁⟩ := Option.bind_eq_some_iff.mp h₁
    cases h₁
    rfl

/-! ### Steps -/

/-- The thread has the priority that was computed for it last. -/
def FromFormula (k : Kernel) (t : ThreadPtr) : Prop :=
  (k.thr t).priority = (k.thr t).computed

/-- The initial thread has the priority that `thread_init` has left, and nothing has been computed
for it since. -/
def Left (k : Kernel) : Prop :=
  (k.thr 0).priority = priDefault ∧ (k.thr 0).computed = priMax

/-- What was computed last and the priority are both kept, or the thread has them from the formula
now. -/
def Follows (t : ThreadPtr) (k k' : Kernel) : Prop :=
  (k'.thr t).priority = (k'.thr t).computed ∨
    (k'.thr t).priority = (k.thr t).priority ∧ (k'.thr t).computed = (k.thr t).computed

theorem Follows.refl (t : ThreadPtr) (k : Kernel) : Follows t k k :=
  .inr ⟨rfl, rfl⟩

theorem Follows.trans (h : Follows t k k₁) (h' : Follows t k₁ k') : Follows t k k' := by
  rcases h' with h' | ⟨hp, hc⟩
  · exact .inl h'
  · rcases h with h | ⟨hp₁, hc₁⟩
    · exact .inl ((hp.trans h).trans hc.symm)
    · exact .inr ⟨hp.trans hp₁, hc.trans hc₁⟩

theorem Follows.fromFormula (h : Follows t k k') (I : FromFormula k t) : FromFormula k' t := by
  rcases h with h | ⟨hp, hc⟩
  · exact h
  · rw [FromFormula, hp, hc]
    exact I

theorem Follows.left (h : Follows 0 k k') (I : Left k) : FromFormula k' 0 ∨ Left k' :=
  h.imp_right fun ⟨hp, hc⟩ => ⟨hp.trans I.1, hc.trans I.2⟩

theorem Follows.modify {u : ThreadPtr} {f : Thread → Thread}
    (hf : (f (k.thr u)).priority = (f (k.thr u)).computed ∨
      (f (k.thr u)).priority = (k.thr u).priority ∧
        (f (k.thr u)).computed = (k.thr u).computed) : Follows t k (k.modify u f) := by
  obtain rfl | hu := eq_or_ne t u
  · simpa [Follows] using hf
  · exact .inr (by simp [hu])

/-- A write that is none of a priority alone. -/
theorem Write.follows {o : Option Frame} (hm : cfg.mlfqs = true)
    (ho : ∀ k t p, ¬ WritesPriority cfg k o t p) (h : Write cfg o k k') : Follows t k k' := by
  cases h with
  | silent hs => exact .inr ⟨hs.priority t, hs.computed t⟩
  | links | insert | unlist | idle | clock | dispatch => exact .refl t k
  | priority hp => exact absurd hp (ho _ _ _)
  | compute | setNice => exact .modify (.inl rfl)
  | nice | recentCpu | waiting => exact .modify (.inr ⟨rfl, rfl⟩)
  | @wake u =>
      exact Follows.modify (u := u) (f := fun th => { th with status := .ready }) (.inr ⟨rfl, rfl⟩)
  | @sleep start n =>
      exact Follows.modify (u := k.cur)
        (f := fun th => { th with wakeupTick := toInt64 (start + n) }) (.inr ⟨rfl, rfl⟩)
  | link =>
      obtain rfl | ht := eq_or_ne t k.nextThread
      · exact .inl (by simp [linkThread, initThread, hm])
      · exact .inr (by simp [linkThread, ht])

theorem Writes.follows {o : Option Frame} (hm : cfg.mlfqs = true)
    (ho : ∀ k t p, ¬ WritesPriority cfg k o t p) (h : Writes cfg o k k') : Follows t k k' :=
  h.induct (P := Follows t k) (fun _ _ I hw => I.trans (hw.follows hm ho)) (.refl t k)

/-- A frame that is inert writes no priority but from the formula. -/
theorem exec_follows {f : Frame} (hm : cfg.mlfqs = true) (hi : Inert cfg k f)
    (h : exec cfg fuel k f = some k') : Follows t k k' := by
  by_cases ho : ∀ k t p, ¬ WritesPriority cfg k (some f) t p
  · exact (exec_writes h).follows hm ho
  · push Not at ho
    obtain ⟨_, _, p, hw⟩ := ho
    cases hw with
    | set =>
        cases h
        exact Follows.modify (f := fun th => { th with priority := p }) (.inr ⟨hi, rfl⟩)
    | @donated l =>
        refine .inr ⟨(lockOp_inert (f := .lockAcquireBody l) trivial h).mpr hi t, ?_⟩
        rcases e : k.lockHolder l with - | h₀
        · rw [exec, e] at h
          cases h
          rfl
        · rw [exec, e] at h
          obtain ⟨k₁, h₁, rfl⟩ := Option.map_eq_some_iff.mp h
          obtain ⟨p, e, -⟩ := (waitForLock_contends h₁).thr t
          show (k₁.thr t).computed = _
          rw [e]
    | @base old | @waiter old =>
        refine .inr ⟨(lockOp_inert (f := .lockReleaseRefresh old) trivial h).mpr hi t, ?_⟩
        obtain ⟨k₁, h₁, rfl⟩ := Option.map_eq_some_iff.mp h
        obtain ⟨p, rfl, -⟩ := refreshPriority_isGreatest h₁
        obtain rfl | ht := eq_or_ne t k.cur
        · split <;> simp [Kernel.setPriority]
        · split <;> simp [Kernel.setPriority, ht]

/-- A step of the running thread is inert if its frame is. -/
def Label.Inert (cfg : Config) (k : Kernel) : Label → Prop
  | .run => ∀ f ∈ (k.stack k.cur).head?, Pintos.Inert cfg k f
  | _ => True

theorem step_follows {lab : Label} (hm : cfg.mlfqs = true) (hi : lab.Inert cfg k)
    (h : step cfg fuel k lab = some k') : Follows t k k' := by
  have hint : lab.frame k = none → Follows t k k' := by
    intro ho
    have hw := step_writes h
    rw [ho] at hw
    exact hw.follows hm fun _ _ _ h => by cases h
  cases lab with
  | run =>
      rcases e : k.stack k.cur with - | ⟨f, fs⟩
      · simp [step, e] at h
      · rw [step, e] at h
        have hf : Pintos.Inert cfg k f := hi f (by simp [e])
        refine exec_follows (k := popFrame k fs) hm ?_ h
        cases f <;> exact hf
  | _ => exact hint rfl

/-! ### The recalculation of a fourth tick -/

/-- `mlfqs_update_priority_all` computes every priority. -/
theorem mlfqsUpdatePriorityAll_fromFormula (hn : k.allList.Nodup)
    (h : mlfqsUpdatePriorityAll fuel k = some k') (ht : t ∈ k.allList)
    (hi : k.idleThread ≠ some t) : FromFormula k' t := by
  obtain ⟨k₁, h₁, h⟩ := Option.bind_eq_some_iff.mp h
  obtain ⟨e, -, h⟩ := Option.bind_eq_some_iff.mp h
  obtain ⟨e, ev, rfl⟩ := reinsertQueues_eq fuel h
  obtain ⟨thr, rfl, -, hp⟩ := foldlM_each (I := fun k₁ => k₁.idleThread = k.idleThread)
    (P := fun t _ th' => k.idleThread ≠ some t → th'.priority = th'.computed)
    (fun _ _ h => h) (fun k₂ t k₃ hi h => by
      cases h
      obtain ⟨thr, hr⟩ := mlfqsUpdatePriority_rest k₂ t
      refine ⟨thr, hr, fun u hu => ?_, fun hne => ?_⟩
      · rw [show thr u = (mlfqsUpdatePriority k₂ t).thr u by rw [hr]; rfl,
          mlfqsUpdatePriority_of_ne k₂ hu]
      · rw [show thr t = (mlfqsUpdatePriority k₂ t).thr t by rw [hr]; rfl, mlfqsUpdatePriority,
          if_neg (by rw [hi]; exact hne)]
        simp) k.allList rfl hn h₁
  exact hp t ht hi

/-- **The interrupt of a fourth tick** leaves every priority computed. -/
theorem timer_fromFormula (hm : cfg.mlfqs = true) (hn : k.allList.Nodup)
    (h4 : (k.ticks + 1) % 4 = 0) (h : step cfg fuel k .timer = some k') (ht : t ∈ k.allList)
    (hi : k.idleThread ≠ some t) : FromFormula k' t := by
  have ho : ∀ k t p, ¬ WritesPriority cfg k none t p := fun _ _ _ h => by cases h
  rw [step] at h
  split at h
  case isFalse => cases h
  case isTrue =>
    rw [timerInterrupt_eq] at h
    obtain ⟨⟨k₁, b⟩, h₁, h⟩ := Option.bind_eq_some_iff.mp h
    refine Follows.fromFormula
      ((interruptReturn_writes (o := none) (by rintro f ⟨⟩) h).follows hm ho) ?_
    obtain ⟨k₂, k₃, b', htick, hw, -, hl, -⟩ := timerHandler_cases h₁
    have hticks : k₃.ticks = k.ticks + 1 := hw.ticks.trans htick.ticks
    have hall : k₃.allList = k.allList := hw.allList.trans htick.allList
    have hidle : k₃.idleThread = k.idleThread := hw.idleThread.trans htick.idleThread
    rw [timerMlfqs, if_pos hm] at hl
    obtain ⟨⟨k₄, b₄⟩, h₄, hl⟩ := Option.bind_eq_some_iff.mp hl
    obtain ⟨k₅, h₅, hl⟩ := Option.bind_eq_some_iff.mp hl
    obtain ⟨rfl, -⟩ : k₅ = k₁ ∧ b₄ = b' := by simpa using hl
    rw [timerPriorities, if_pos (by rw [hticks, h4])] at h₄
    obtain ⟨k₆, h₆, e⟩ := Option.map_eq_some_iff.mp h₄
    obtain rfl : k₆ = k₄ := congrArg Prod.fst e
    have hf := mlfqsUpdatePriorityAll_fromFormula (hall ▸ hn) h₆ (hall ▸ ht) (hidle ▸ hi)
    -- the decay of `recent_cpu` comes after it
    rw [timerLoad] at h₅
    split at h₅
    · exact ((mlfqsUpdateRcpuLa_writes h₅).follows hm ho).fromFormula hf
    · cases h₅
      exact hf

/-! ### Runs -/

/-- No thread is listed again. -/
theorem step_mem_allList {lab : Label} (h : step cfg fuel k lab = some k') (ht : t < k.nextThread)
    (hm : t ∈ k'.allList) : t ∈ k.allList := by
  suffices hk : t < k'.nextThread ∧ (t ∈ k'.allList → t ∈ k.allList) from hk.2 hm
  refine (step_writes h).induct (P := fun k₁ => t < k₁.nextThread ∧
    (t ∈ k₁.allList → t ∈ k.allList)) (fun k₁ k₂ I hw => ?_) ⟨ht, id⟩
  cases hw with
  | silent hs => rwa [hs.nextThread, hs.allList]
  | link =>
      refine ⟨I.1.trans (Nat.lt_succ_self _), fun hm => ?_⟩
      rcases List.mem_append.mp hm with hm | hm
      · exact I.2 hm
      · exact absurd (List.mem_singleton.mp hm) I.1.ne
  | unlist => exact ⟨I.1, fun hm => I.2 (List.mem_of_mem_erase hm)⟩
  | _ => exact I

/-- Every thread has the priority that was computed for it last, but for the initial thread as
long as nothing has been computed for it since `thread_init`. -/
structure FromFormulas (k : Kernel) : Prop where
  created : ∀ t, t ≠ 0 → FromFormula k t
  initial : FromFormula k 0 ∨ Left k
  fourth : 4 ≤ k.ticks → 0 ∈ k.allList → FromFormula k 0

theorem boot_fromFormulas (hm : cfg.mlfqs = true) : FromFormulas (boot cfg) where
  created t ht := by simp [FromFormula, boot, ht, Thread.blank]
  initial := .inr ⟨rfl, by simp [boot, initThread, hm]; decide⟩
  fourth h := absurd h (show ¬ (4 : ℤ) ≤ 0 by decide)

/-- **One step** of a run in which all steps are inert. -/
theorem FromFormulas.step {ok : Kernel → Label → Prop} {lab : Label} (I : FromFormulas k)
    (hm : cfg.mlfqs = true) (hr : Reachable cfg ok k) (hi : lab.Inert cfg k)
    (h : Pintos.step cfg fuel k lab = some k') : FromFormulas k' where
  created t ht := (step_follows hm hi h).fromFormula (I.created t ht)
  initial := by
    rcases I.initial with hf | hl
    · exact .inl ((step_follows hm hi h).fromFormula hf)
    · exact (step_follows hm hi h).left hl
  fourth h4 h0 := by
    have hticks := (step_slice h hr.threadTicks).2.1
    have hall : 0 ∈ k.allList := step_mem_allList h ((Nat.zero_le _).trans_lt hr.anySync.2) h0
    by_cases h4' : 4 ≤ k.ticks
    · exact (step_follows hm hi h).fromFormula (I.fourth h4' hall)
    · have hl : lab = .timer := by
        by_contra hl
        rw [if_neg hl] at hticks
        omega
      subst hl
      rw [if_pos rfl] at hticks
      refine timer_fromFormula hm hr.allListOk.nodup (by omega) h hall fun hidle => ?_
      have h1 : (0 : ThreadPtr) = 1 := (hr.control.inv.idleThread 0 hidle).1
      cases h1

theorem Reachable.fromFormulas {ok : Kernel → Label → Prop} (hm : cfg.mlfqs = true)
    (hok : ∀ k lab, ok k lab → lab.Inert cfg k) (h : Reachable cfg ok k) : FromFormulas k := by
  induction h with
  | refl => exact boot_fromFormulas hm
  | tail hr hs ih =>
      obtain ⟨lab, fuel, hlab, hs⟩ := hs
      exact ih.step hm hr (hok _ _ hlab) hs

/-- **Priorities from the formula**: in a run all of whose steps are inert every thread has the
priority that was computed for it last; the initial thread has, until it is computed again, the one
that `thread_init` has left, and at the latest the fourth tick computes it.  In every state of such
a run a lock operation leaves all priorities as they are if and only if it is inert there. -/
theorem priorities_from_formula {ok : Kernel → Label → Prop} (hm : cfg.mlfqs = true)
    (hok : ∀ k lab, ok k lab → lab.Inert cfg k) (h : Reachable cfg ok k) :
    (∀ t, k.idleThread ≠ some t → t ≠ 0 ∨ 4 ≤ k.ticks ∧ t ∈ k.allList →
      (k.thr t).priority = (k.thr t).computed) ∧
    ((k.thr 0).priority = (k.thr 0).computed ∨
      (k.thr 0).priority = priDefault ∧ (k.thr 0).computed = priMax) ∧
    ∀ f fs fuel k', f.LockOp → k.stack k.cur = f :: fs → step cfg fuel k .run = some k' →
      ((∀ t, (k'.thr t).priority = (k.thr t).priority) ↔ Label.run.Inert cfg k) := by
  have I := h.fromFormulas hm hok
  refine ⟨fun t _ ht => ?_, I.initial, fun f fs fuel k' hf e hs => ?_⟩
  · obtain rfl | h0 := eq_or_ne t 0
    · obtain ⟨h4, hall⟩ := ht.resolve_left fun h0 => h0 rfl
      exact I.fourth h4 hall
    · exact I.created t h0
  · rw [step, e] at hs
    refine (lockOp_inert (k := popFrame k fs) hf hs).trans ?_
    simp only [Label.Inert, e, List.head?_cons, Option.mem_some_iff, forall_eq']
    cases f <;> exact Iff.rfl

/-- No lock is contended, locks are released by threads without donations, and no priority
is set. -/
def Label.uncontended (k : Kernel) : Label → Bool
  | .run =>
      match k.stack k.cur with
      | .lockAcquireBody l :: _ => k.lockHolder l = none
      | .lockReleaseRefresh _ :: _ =>
          (k.thr k.cur).basePriority = (k.thr k.cur).priority ∧
            k.lockElems.next (.head k.cur) = some (.tail k.cur)
      | .threadSetPriority _ :: _ => false
      | _ => true
  | _ => true

theorem Label.uncontended.inert {lab : Label} (h : lab.uncontended k = true) :
    lab.Inert cfg k := by
  cases lab with
  | run =>
      intro f hf
      rcases e : k.stack k.cur with - | ⟨g, fs⟩
      · simp [e] at hf
      · obtain rfl : g = f := by simpa [e] using hf
        cases g with
        | lockAcquireBody l =>
            have hl : k.lockHolder l = none := by simpa [Label.uncontended, e] using h
            intro h₀ he
            exact absurd (hl.symm.trans he) nofun
        | lockReleaseRefresh old =>
            obtain ⟨hb, hn⟩ : (k.thr k.cur).basePriority = (k.thr k.cur).priority ∧
                k.lockElems.next (.head k.cur) = some (.tail k.cur) := by
              simpa [Label.uncontended, e] using h
            have hd : donations cfg k k.cur = ∅ := by
              simp [donations, Links.visits_iff hn, Links.not_visitsFrom_tail]
            simp [Pintos.Inert, hd, hb]
        | threadSetPriority p => simp [Label.uncontended, e] at h
        | _ => trivial
  | _ => trivial

/-- A thread created with priority 63 acquires and releases a lock, and the fourth tick comes. -/
theorem priorities_from_formula_release : ∃ k,
    Reachable mlfqsTidConfig (fun k lab => lab.uncontended k) k ∧ k.ticks = 4 ∧
      Event.up (some 2) (.ofLock (.user 0)) ∈ k.log ∧
        ∀ t ∈ k.allList, k.idleThread ≠ some t → (k.thr t).priority = (k.thr t).computed := by
  obtain ⟨k, hr, hk⟩ := exists_reachable mlfqsTidConfig 70 (fun k lab => lab.uncontended k)
    (List.replicate 125 Label.run ++ [Label.call (.threadCreate 63)] ++ List.replicate 85 Label.run ++
      [Label.call (.lockAcquire 0), .run, .run, .run, .run, .call (.lockRelease 0)] ++
      List.replicate 39 Label.run ++ List.replicate 4 Label.timer)
    (fun k => k.ticks = 4 ∧ Event.up (some 2) (.ofLock (.user 0)) ∈ k.log) (by decide +kernel)
  obtain ⟨h4, hu⟩ := of_decide_eq_true hk
  refine ⟨k, hr, h4, hu, fun t ht hi => ?_⟩
  exact (priorities_from_formula rfl (fun _ _ h => Label.uncontended.inert h) hr).1 t hi
    (.inr ⟨h4.ge, ht⟩)

/-- After four ticks the initial thread acquires and releases a lock that nobody else wants:
`refresh_priority` resets its priority to the base priority 31, where the formula has given it
62. -/
theorem priorities_not_from_formula : ∃ k k', Reachable mlfqsTidConfig (fun _ lab =>
      lab ∈ [Label.run, .timer, .call (.lockAcquire 0), .call (.lockRelease 0)]) k ∧
    k.stack k.cur = [.lockReleaseRefresh true] ∧ step mlfqsTidConfig 70 k .run = some k' ∧
    ¬ (∀ t, (k'.thr t).priority = (k.thr t).priority) ∧
      ¬ ∀ t ∈ k'.allList, k'.idleThread ≠ some t → (k'.thr t).priority = (k'.thr t).computed := by
  obtain ⟨k, hr, hk⟩ := exists_reachable mlfqsTidConfig 70
    (fun _ lab => lab ∈ [Label.run, .timer, .call (.lockAcquire 0), .call (.lockRelease 0)])
    (List.replicate 125 Label.run ++ List.replicate 4 Label.timer ++
      [.run, .call (.lockAcquire 0), .run, .run, .run, .run, .call (.lockRelease 0)] ++
      List.replicate 69 Label.run)
    (fun k => k.stack k.cur = [.lockReleaseRefresh true] ∧ (k.thr 0).priority = 62 ∧
      (step mlfqsTidConfig 70 k .run).any fun k' => 0 ∈ k'.allList ∧ k'.idleThread ≠ some 0 ∧
        (k'.thr 0).priority = 31 ∧ (k'.thr 0).computed = 62) (by decide +kernel)
  obtain ⟨hst, hp, hk'⟩ := of_decide_eq_true hk
  obtain ⟨k', hs, hk'⟩ := (Option.any_eq_true _ _).mp hk'
  obtain ⟨ha, hi, hp', hc⟩ := of_decide_eq_true hk'
  refine ⟨k, k', hr, hst, hs, fun h => ?_, fun h => ?_⟩
  · have h0 := h 0
    rw [hp, hp'] at h0
    exact absurd h0 (by decide)
  · have h0 := h 0 ha hi
    rw [hp', hc] at h0
    exact absurd h0 (by decide)

end Pintos
