/-
PintosThreads/Uncontended.lean

Priorities and locks that nobody waits for.

`lock_release` computes the priority anew from `base_priority`, and
`thread_set_priority` writes `priority` only; so a release takes a thread back
to the priority it was created with.  `Requests` records for every thread what
it was created with, what it has last asked for, and whether it has released a
lock since.  In the runs in which every lock is acquired free, what a release
leaves is what was asked for exactly if that is the priority of its creation
(`uncontended_release`).

In such a run nothing is ever linked into the waiters of a lock, so that all
these lists stay as they were initialised, whatever else the run does to the
link memory (`NoWaiters`).
-/
import PintosThreads.PriorityMode

namespace Pintos

open Intrusive

variable {cfg : Config} {fuel : ℕ} {ok : Kernel → Label → Prop} {k k₁ k' : Kernel} {lab : Label}
variable {t : ThreadPtr}

/-! ### Empty lists of waiters -/

/-- The lists that nothing is linked into: the waiters of locks, and the queues of the MLFQS. -/
def ListPtr.unused : ListPtr → Bool
  | .lockWaiters _ | .mlfqsList _ => true
  | _ => false

theorem spares_unused : Spares ListPtr.unused :=
  ⟨rfl, fun _ => rfl⟩

theorem not_beyond_of_unused {l : ListPtr} (hl : l.unused = false) : ¬ l.Beyond := by
  cases l with
  | mlfqsList i => cases hl
  | _ => exact nofun

/-- The lock that `lock_acquire` is about to take or to wait for is free, and `thread_set_nice` is
not called. -/
structure Label.UncontendedStep (k : Kernel) (lab : Label) : Prop where
  free : lab = .run → ∀ l fs, k.stack k.cur = .lockAcquireBody l :: fs → k.lockHolder l = none
  keepsNice : lab.KeepsNice

/-- Nobody is linked into the waiters of a lock, and no pointer leads there. -/
structure NoWaiters (k : Kernel) : Prop where
  apart : Apart ListPtr.unused k
  empty : ∀ l, k.elems.next (.head (.lockWaiters l)) = some (.tail (.lockWaiters l))

theorem NoWaiters.listEmpty (N : NoWaiters k) (l : LockPtr) :
    k.elems.listEmpty (.lockWaiters l) = true := by
  rw [Links.listEmpty, N.empty l]
  exact decide_eq_true rfl

/-- With nobody waiting `refresh_priority` takes the base priority. -/
theorem NoWaiters.refreshLocks {t : ThreadPtr} : ∀ (fuel' : ℕ) {k k' : Kernel}
    {n : Node ThreadPtr LockPtr}, NoWaiters k →
    refreshLocks cfg fuel t fuel' k n = some k' → k' = k
  | 0, _, _, _, _, h => by cases h
  | fuel' + 1, k, k', n, N, h => by
      cases n with
      | item l =>
          rw [Pintos.refreshLocks, refreshLock, if_pos (N.listEmpty l), Option.bind_eq_bind,
            Option.bind_some] at h
          obtain ⟨n', -, h⟩ := Option.bind_eq_some_iff.mp h
          exact N.refreshLocks fuel' h
      | head t' =>
          rw [Pintos.refreshLocks] at h
          · split at h <;> cases h
            rfl
          · rintro _ ⟨⟩
      | tail t' =>
          rw [Pintos.refreshLocks] at h
          · split at h <;> cases h
            rfl
          · rintro _ ⟨⟩

theorem NoWaiters.refreshPriority (N : NoWaiters k)
    (h : refreshPriority cfg fuel k t = some k') :
    k' = k.modify t fun th => { th with priority := th.basePriority } := by
  obtain ⟨n, -, h⟩ := Option.bind_eq_some_iff.mp h
  have N₁ : NoWaiters (k.modify t fun th => { th with priority := th.basePriority }) :=
    ⟨N.apart.modify _ _, N.empty⟩
  exact N₁.refreshLocks fuel h

/-- With nobody waiting `lock_release` finds nobody to remove. -/
theorem NoWaiters.releaseLock {l : LockPtr} (N : NoWaiters k)
    (h : releaseLock fuel k l = some k') :
    k'.elems = k.elems ∧ k'.stack = k.stack ∧ k'.thr = k.thr := by
  obtain ⟨le, -, h⟩ := Option.bind_eq_some_iff.mp h
  obtain ⟨n, hn, h⟩ := Option.bind_eq_some_iff.mp h
  obtain ⟨e, he, h⟩ := Option.bind_eq_some_iff.mp h
  cases h
  rw [N.empty l] at hn
  cases hn
  rcases fuel with - | fuel
  · cases he
  · rw [removeWaiter, if_pos rfl] at he
    cases he
    exact ⟨rfl, rfl, rfl⟩

/-- The frames that go through the waiters of a lock leave them empty. -/
theorem NoWaiters.visit {f : Frame} (N : NoWaiters k)
    (hv : f.VisitsWaiters) (hfree : ∀ l, f = .lockAcquireBody l → k.lockHolder l = none)
    (h : exec cfg fuel k f = some k') : NoWaiters k' := by
  have A := N.apart
  cases f with
  | lockAcquireBody l =>
      simp only [exec, hfree l rfl] at h
      cases h
      exact ⟨(A.pushes (by simp [Frame.OfNice])).setLevel false, N.empty⟩
  | lockReleaseBody l =>
      obtain ⟨k₁, h₁, rfl⟩ := Option.map_eq_some_iff.mp h
      obtain ⟨he, hs, -⟩ := N.releaseLock h₁
      have A₁ : Apart ListPtr.unused k₁ := A.congr he hs
      exact ⟨(A₁.pushes (by simp [Frame.OfNice])).setLevel false, fun m => he ▸ N.empty m⟩
  | lockReleaseRefresh old =>
      obtain ⟨k₁, h₁, rfl⟩ := Option.map_eq_some_iff.mp h
      obtain rfl := N.refreshPriority h₁
      split
      · exact ⟨(A.modify _ _).pushes (by simp [Frame.OfNice]), N.empty⟩
      · exact ⟨(A.modify _ _).push (by rintro ⟨⟩), N.empty⟩
  | _ => exact hv.elim

theorem NoWaiters.step (hm : cfg.mlfqs = false) (N : NoWaiters k) (hl : lab.UncontendedStep k)
    (h : step cfg fuel k lab = some k') : NoWaiters k' := by
  by_cases hs : lab.SkipsWaiters k
  · have O : Mirrored ListPtr.unused k.elems (Pintos.step cfg fuel k lab) _ :=
      step_over hm N.apart spares_unused hl.keepsNice (.inr hs)
    refine ⟨O.2 k' h, fun l => ?_⟩
    rw [(step_keeps O h rfl).1, N.empty l]
  · obtain ⟨rfl, f, fs, e, hv⟩ : lab = .run ∧ ∃ f fs, k.stack k.cur = f :: fs ∧ f.VisitsWaiters := by
      simpa [Label.SkipsWaiters] using hs
    rw [Pintos.step, e] at h
    have N₁ : NoWaiters (popFrame k fs) := ⟨N.apart.popFrame e, N.empty⟩
    exact N₁.visit hv (fun l hf => hl.free rfl l fs (hf ▸ e)) h

theorem bootNoWaiters (cfg : Config) : NoWaiters (boot cfg) :=
  ⟨bootApart cfg fun _ => not_beyond_of_unused, fun _ => rfl⟩

/-! ### What a thread has asked for -/

/-- The priority that each thread was created with, the one it has last asked for, and whether it
has released a lock since. -/
structure Requests where
  created : ThreadPtr → ℤ
  last : ThreadPtr → ℤ
  released : ThreadPtr → Bool

/-- The initial thread has the default priority. -/
def Requests.boot : Requests :=
  ⟨fun _ => priDefault, fun _ => priDefault, fun _ => false⟩

def Requests.after (k : Kernel) (g : Requests) : Label → Requests
  | .run =>
      match k.stack k.cur with
      | .threadSetPriority p :: _ =>
          { g with last := Function.update g.last k.cur p
                   released := Function.update g.released k.cur false }
      | .threadCreateLink p _ _ _ :: _ =>
          { created := Function.update g.created k.nextThread p
            last := Function.update g.last k.nextThread p
            released := Function.update g.released k.nextThread false }
      | .lockReleaseRefresh _ :: _ =>
          { g with released := Function.update g.released k.cur true }
      | _ => g
  | _ => g

/-- In a run to state `k` the requests are `g`. -/
inductive Requested (cfg : Config) (ok : Kernel → Label → Prop) : Kernel → Requests → Prop
  | boot : Requested cfg ok (boot cfg) .boot
  | step {k k' lab fuel g} : Requested cfg ok k g → ok k lab → step cfg fuel k lab = some k' →
      Requested cfg ok k' (g.after k lab)

/-- The base priority is that of the creation, and so is the priority once a lock has been
released; before that it is what was asked for. -/
def Requests.Shown (k : Kernel) (g : Requests) : Prop :=
  ∀ t < k.nextThread, (k.thr t).basePriority = g.created t ∧
    (k.thr t).priority = if g.released t then g.created t else g.last t

/-- No write changes a base priority, and only `thread_create` takes a new page. -/
theorem Write.keepsBase {o : Option Frame} (h : Write cfg o k k') : k.nextThread ≤ k'.nextThread ∧
    (∀ t < k.nextThread, (k'.thr t).basePriority = (k.thr t).basePriority) ∧
      ((∀ p e n r, o ≠ some (.threadCreateLink p e n r)) → k'.nextThread = k.nextThread) := by
  cases h with
  | silent h => exact ⟨h.nextThread.ge, fun t _ => h.basePriority t, fun _ => h.nextThread⟩
  | links | insert | idle | unlist | dispatch | clock => exact ⟨le_rfl, fun _ _ => rfl, fun _ => rfl⟩
  | @priority u | @compute u | @recentCpu u | @wake u =>
      refine ⟨le_rfl, fun t _ => ?_, fun _ => rfl⟩
      obtain rfl | ht := eq_or_ne t u <;> simp [*]
  | setNice | nice | waiting | sleep =>
      refine ⟨le_rfl, fun t _ => ?_, fun _ => rfl⟩
      obtain rfl | ht := eq_or_ne t k.cur <;> simp [insertSleeper, *]
  | link h =>
      refine ⟨Nat.le_succ _, fun t ht => ?_, fun hn => absurd h (hn _ _ _ _)⟩
      simp only [linkThread, Function.update_of_ne ht.ne]

theorem Writes.keepsBase {o : Option Frame} (h : Writes cfg o k k') : k.nextThread ≤ k'.nextThread ∧
    (∀ t < k.nextThread, (k'.thr t).basePriority = (k.thr t).basePriority) ∧
      ((∀ p e n r, o ≠ some (.threadCreateLink p e n r)) → k'.nextThread = k.nextThread) :=
  h.induct (P := fun k₁ => k.nextThread ≤ k₁.nextThread ∧
    (∀ t < k.nextThread, (k₁.thr t).basePriority = (k.thr t).basePriority) ∧
      ((∀ p e n r, o ≠ some (.threadCreateLink p e n r)) → k₁.nextThread = k.nextThread))
    (fun k₁ k₂ ⟨hn, hb, he⟩ hw => by
      obtain ⟨hn', hb', he'⟩ := hw.keepsBase
      exact ⟨hn.trans hn', fun t ht => (hb' t (ht.trans_le hn)).trans (hb t ht),
        fun ho => (he' ho).trans (he ho)⟩)
    ⟨le_rfl, fun _ _ => rfl, fun _ => rfl⟩

/-- A step that neither writes a priority nor creates a thread. -/
theorem Requests.Shown.quiet {g : Requests} (hm : cfg.mlfqs = false) (S : g.Shown k)
    (hf : ∀ f, lab.frame k = some f → ¬ f.TouchesPriority ∧ ¬ f.OfNice)
    (hc : ∀ p e n r, lab.frame k ≠ some (.threadCreateLink p e n r))
    (h : step cfg fuel k lab = some k') : g.Shown k' := by
  have W := step_writes h
  obtain ⟨-, hb, hn⟩ := W.keepsBase
  intro t ht
  rw [hn hc] at ht
  rw [hb t ht, W.keepsPriority hm hf t ht]
  exact S t ht

theorem Requests.after_quiet {g : Requests} {f : Frame} {fs : List Frame}
    (e : k.stack k.cur = f :: fs) (hf : ¬ f.TouchesPriority)
    (hc : ∀ p e n r, f ≠ .threadCreateLink p e n r) : g.after k .run = g := by
  rw [Requests.after, e]
  split
  case h_1 he =>
    cases he
    exact absurd .threadSetPriority hf
  case h_2 he =>
    cases he
    exact absurd rfl (hc _ _ _ _)
  case h_3 he =>
    cases he
    exact absurd .lockReleaseRefresh hf
  case h_4 => rfl

/-- **One step** of an uncontended run. -/
theorem Requests.Shown.step {g : Requests} (hm : cfg.mlfqs = false) (N : NoWaiters k)
    (hl : lab.UncontendedStep k) (S : g.Shown k)
    (h : step cfg fuel k lab = some k') : (g.after k lab).Shown k' := by
  cases lab with
  | run =>
      rcases e : k.stack k.cur with - | ⟨f, fs⟩
      · simp [Pintos.step, e] at h
      have hnice : ¬ f.OfNice := N.apart.frames k.cur f (e ▸ .head _)
      have N₁ : NoWaiters (popFrame k fs) := ⟨N.apart.popFrame e, N.empty⟩
      by_cases hp : f.TouchesPriority
      · rw [Pintos.step, e] at h
        cases hp with
        | @threadSetPriority p =>
            cases h
            intro t ht
            obtain ⟨hb, hpr⟩ := S t ht
            rw [Requests.after, e]
            obtain rfl | hc := eq_or_ne t k.cur
            · simpa [popFrame] using hb
            · simpa [popFrame, hc] using ⟨hb, hpr⟩
        | @lockAcquireBody l =>
            have hg : g.after k .run = g := by
              rw [Requests.after, e]
            have hfree : (popFrame k fs).lockHolder l = none := hl.free rfl l fs e
            simp only [exec, hfree] at h
            cases h
            rw [hg]
            exact S
        | @lockReleaseRefresh old =>
            obtain ⟨k₁, h₁, rfl⟩ := Option.map_eq_some_iff.mp h
            obtain rfl := N₁.refreshPriority h₁
            have key : (g.after k .run).Shown ((popFrame k fs).modify k.cur fun th =>
                { th with priority := th.basePriority }) := by
              intro t ht
              obtain ⟨hb, hpr⟩ := S t ht
              rw [Requests.after, e]
              obtain rfl | hc := eq_or_ne t k.cur
              · simpa [popFrame] using hb
              · simpa [popFrame, hc] using ⟨hb, hpr⟩
            split <;> exact key
      · by_cases hc : ∃ p e n r, f = .threadCreateLink p e n r
        · obtain ⟨p, en, n, r, rfl⟩ := hc
          rw [Pintos.step, e] at h
          have key : (g.after k .run).Shown (linkThread cfg (popFrame k fs) p en n r) := by
            intro t ht
            rw [Requests.after, e]
            obtain rfl | hne := eq_or_ne t k.nextThread
            · simp [linkThread, popFrame, initThread, hm]
            · have hlt : t < k.nextThread := lt_of_le_of_ne (Nat.lt_succ_iff.mp ht) hne
              simpa [linkThread, popFrame, hne] using S t hlt
          simp only [exec] at h
          split at h <;> cases h <;> exact key
        · have hc : ∀ p e n r, f ≠ .threadCreateLink p e n r :=
            fun p e n r he => hc ⟨p, e, n, r, he⟩
          have hframe : Label.run.frame k = some f := by
            rw [Label.frame, e]
            rfl
          rw [Requests.after_quiet e hp hc]
          refine S.quiet hm (fun f' hf' => ?_) (fun p e n r hf' => ?_) h
          · rw [hframe] at hf'
            cases hf'
            exact ⟨hp, hnice⟩
          · rw [hframe] at hf'
            exact hc _ _ _ _ (Option.some.inj hf')
  | _ => exact S.quiet hm (fun _ hf => by cases hf) (fun _ _ _ _ hf => by cases hf) h

/-! ### Whole runs -/

theorem Requested.shown {g : Requests} (hm : cfg.mlfqs = false)
    (hok : ∀ k lab, ok k lab → lab.UncontendedStep k) (h : Requested cfg ok k g) :
    NoWaiters k ∧ g.Shown k := by
  induction h with
  | boot =>
      refine ⟨bootNoWaiters cfg, fun t ht => ?_⟩
      obtain rfl : t = 0 := Nat.lt_one_iff.mp ht
      simp [Pintos.boot, initThread, hm, Requests.boot]
  | step _ hlab h ih =>
      exact ⟨ih.1.step hm (hok _ _ hlab) h, ih.2.step hm ih.1 (hok _ _ hlab) h⟩

/-- **Uncontended locks and priorities**: once a thread has released a lock, and until it asks for
a priority again, its priority is the one that it has last asked for if and only if that is the
priority it was created with. -/
theorem uncontended_release {g : Requests} (hm : cfg.mlfqs = false)
    (hok : ∀ k lab, ok k lab → lab.UncontendedStep k) (h : Requested cfg ok k g)
    (ht : t < k.nextThread) (hrel : g.released t = true) :
    (k.thr t).priority = g.last t ↔ g.last t = g.created t := by
  obtain ⟨-, hp⟩ := (h.shown hm hok).2 t ht
  rw [hp, if_pos hrel]
  exact eq_comm

/-! ### Two runs of the initial thread -/

/-- `Label.UncontendedStep`, as a test. -/
def Label.uncontendedStep (k : Kernel) : Label → Bool
  | .run =>
      match k.stack k.cur with
      | .lockAcquireBody l :: _ => (k.lockHolder l).isNone
      | _ => true
  | .call (.threadSetNice _) => false
  | _ => true

theorem Label.uncontendedStep_spec (h : lab.uncontendedStep k = true) : lab.UncontendedStep k where
  free hr l fs e := by
    subst hr
    simpa [Label.uncontendedStep, e] using h
  keepsNice n hn := by
    subst hn
    cases h

/-- Carries out the steps `labs` of an uncontended run, with the requests. -/
def executeRequests (cfg : Config) (fuel : ℕ) (x : Kernel × Requests) (labs : List Label) :
    Option (Kernel × Requests) :=
  labs.foldlM (fun x lab => if lab.uncontendedStep x.1 then
    (step cfg fuel x.1 lab).map (·, x.2.after x.1 lab) else none) x

theorem executeRequests_requested : ∀ {labs : List Label} {x y : Kernel × Requests},
    Requested cfg (fun k lab => lab.UncontendedStep k) x.1 x.2 →
    executeRequests cfg fuel x labs = some y →
      Requested cfg (fun k lab => lab.UncontendedStep k) y.1 y.2
  | [], _, _, hx, h => by
      cases h
      exact hx
  | lab :: labs, x, y, hx, h => by
      obtain ⟨z, hz, h⟩ := Option.bind_eq_some_iff.mp h
      dsimp only at hz
      split at hz
      case isFalse => cases hz
      case isTrue hl =>
        obtain ⟨k', hk', rfl⟩ := Option.map_eq_some_iff.mp hz
        exact executeRequests_requested (hx.step (Label.uncontendedStep_spec hl) hk') h

/-- An uncontended run that ends with property `p`. -/
theorem exists_requested (labs : List Label) (p : Kernel × Requests → Bool)
    (h : (executeRequests priorityConfig 70 (boot priorityConfig, .boot) labs).any p = true) :
    ∃ k g, Requested priorityConfig (fun k lab => lab.UncontendedStep k) k g ∧ p (k, g) = true := by
  obtain ⟨⟨k, g⟩, hk, hp⟩ := (Option.any_eq_true p _).mp h
  exact ⟨k, g, executeRequests_requested .boot hk, hp⟩

/-- A lock that is free is acquired and released. -/
def lockLabels : List Label :=
  .call (.lockAcquire 0) :: List.replicate 4 .run ++
    .call (.lockRelease 0) :: List.replicate 6 .run

/-- The initial thread has not asked for anything, and has the default priority. -/
theorem uncontended_release_default : ∃ k g,
    Requested priorityConfig (fun k lab => lab.UncontendedStep k) k g ∧ g.released 0 = true ∧
      ((k.thr 0).priority = g.last 0 ↔ g.last 0 = g.created 0) := by
  obtain ⟨k, g, h, hp⟩ := exists_requested (List.replicate 19 .run ++ lockLabels)
    (fun x => x.2.released 0 && decide (0 < x.1.nextThread)) (by decide +kernel)
  obtain ⟨hrel, hlt⟩ := Bool.and_eq_true_iff.mp hp
  exact ⟨k, g, h, hrel, uncontended_release rfl (fun _ _ h => h) h (of_decide_eq_true hlt) hrel⟩

/-- The initial thread asks for priority 50, and has priority 31 after it has released a lock that
nobody else wants. -/
theorem uncontended_release_resets : ¬ ∀ k g,
    Requested priorityConfig (fun k lab => lab.UncontendedStep k) k g →
      ∀ t < k.nextThread, g.released t = true → (k.thr t).priority = g.last t := by
  intro hall
  obtain ⟨k, g, h, hp⟩ := exists_requested
    (List.replicate 19 .run ++ .call (.threadSetPriority 50) :: List.replicate 2 .run ++ lockLabels)
    (fun x => x.2.released 0 && decide (0 < x.1.nextThread) &&
      decide ((x.1.thr 0).priority ≠ x.2.last 0)) (by decide +kernel)
  simp only [Bool.and_eq_true, decide_eq_true_eq] at hp
  obtain ⟨⟨hrel, hlt⟩, hne⟩ := hp
  exact hne (hall k g h 0 hlt hrel)

end Pintos
