/-
PintosThreads/RefreshedPriority.lean

What `refresh_priority` computes.

Its two loops go over the waiters of every lock that the thread holds.  The
inner one raises the priority to the greatest that it meets
(`refreshWaiters_isGreatest`), the outer one goes on from lock to lock, and what
is left is the greatest of the base priority and all of these
(`refreshPriority_isGreatest`).
-/
import PintosThreads.Scheduler
import Mathlib.Order.Bounds.Basic
import Mathlib.Order.MinMax

namespace Pintos

open Intrusive

variable {cfg : Config} {fuel : ℕ} {k k₁ k' : Kernel} {t : ThreadPtr} {l : LockPtr}

/-! ### The priorities that are read -/

/-- The priorities that are read in the waiters of lock `l`, but for the thread's own. -/
def waiterPriorities (cfg : Config) (k : Kernel) (t : ThreadPtr) (l : LockPtr) : Set ℤ :=
  {p | ∃ n, k.elems.Visits (.lockWaiters l) n ∧ n ≠ .item t ∧ p = k.priorityAt cfg n}

/-- The priorities that are read in the waiters of the locks that the thread holds. -/
def donations (cfg : Config) (k : Kernel) (t : ThreadPtr) : Set ℤ :=
  {p | ∃ l, k.lockElems.Visits t (.item l) ∧ p ∈ waiterPriorities cfg k t l}

theorem isGreatest_insert_max {a b p : ℤ} {s : Set ℤ} :
    IsGreatest (insert (max a b) s) p ↔ IsGreatest (insert a (insert b s)) p := by
  simp only [IsGreatest, upperBounds_insert, Set.mem_inter_iff, Set.mem_Ici, Set.mem_insert_iff,
    max_le_iff]
  grind

/-- Thread `t` is given priority `p`. -/
def Kernel.setPriority (k : Kernel) (t : ThreadPtr) (p : ℤ) : Kernel :=
  k.modify t fun th => { th with priority := p }

@[simp] theorem setPriority_self (k : Kernel) (t : ThreadPtr) :
    k.setPriority t (k.thr t).priority = k := by
  simp [Kernel.setPriority, Kernel.modify]

@[simp] theorem setPriority_setPriority (k : Kernel) (t : ThreadPtr) (p p' : ℤ) :
    (k.setPriority t p).setPriority t p' = k.setPriority t p' := by
  simp [Kernel.setPriority, Kernel.modify]

@[simp] theorem setPriority_thr_self (k : Kernel) (t : ThreadPtr) (p : ℤ) :
    (k.setPriority t p).thr t = { k.thr t with priority := p } :=
  Function.update_self ..

@[simp] theorem setPriority_elems (k : Kernel) (t : ThreadPtr) (p : ℤ) :
    (k.setPriority t p).elems = k.elems := rfl

@[simp] theorem setPriority_lockElems (k : Kernel) (t : ThreadPtr) (p : ℤ) :
    (k.setPriority t p).lockElems = k.lockElems := rfl

theorem priorityAt_setPriority {n : Node ListPtr ThreadPtr} (hn : n ≠ .item t) (p : ℤ) :
    (k.setPriority t p).priorityAt cfg n = k.priorityAt cfg n := by
  rcases n with l | l | u
  · rfl
  · rfl
  · have hu : u ≠ t := fun e => hn (e ▸ rfl)
    simp [Kernel.priorityAt, Kernel.setPriority, hu]

@[simp] theorem waiterPriorities_setPriority (p : ℤ) :
    waiterPriorities cfg (k.setPriority t p) t l = waiterPriorities cfg k t l := by
  ext q
  refine exists_congr fun m => and_congr_right fun _ => and_congr_right fun hm => ?_
  rw [priorityAt_setPriority hm]

/-! ### The two loops -/

theorem refreshWaiters_succ {n : Node ListPtr ThreadPtr} (hn : n ≠ .tail (.lockWaiters l)) :
    refreshWaiters cfg t l (fuel + 1) k n = (k.elems.next n).bind
      (refreshWaiters cfg t l fuel
        (k.setPriority t (max (k.thr t).priority (k.priorityAt cfg n)))) := by
  rw [refreshWaiters, if_neg hn]
  dsimp only
  split
  case isTrue hp =>
    rw [max_eq_right hp.le]
    rfl
  case isFalse hp => rw [max_eq_left (le_of_not_gt hp), setPriority_self]

/-- The inner loop raises the priority to the greatest one that it meets. -/
theorem refreshWaiters_isGreatest : ∀ (fuel : ℕ) {k k' : Kernel} {n : Node ListPtr ThreadPtr},
    refreshWaiters cfg t l fuel k n = some k' → ∃ p, k' = k.setPriority t p ∧
      IsGreatest (insert (k.thr t).priority
        {p | ∃ m, k.elems.VisitsFrom (.lockWaiters l) n m ∧ m ≠ .item t ∧
          p = k.priorityAt cfg m}) p
  | 0, _, _, _, h => nomatch h
  | fuel + 1, k, k', n, h => by
      by_cases hn : n = .tail (.lockWaiters l)
      · -- the tail: nothing is added to the priority itself
        subst hn
        obtain rfl : k = k' := by simpa [refreshWaiters] using h
        refine ⟨(k.thr t).priority, by simp, ?_⟩
        simp [Links.not_visitsFrom_tail]
      · rw [refreshWaiters_succ hn] at h
        obtain ⟨n', hn', h⟩ := Option.bind_eq_some_iff.mp h
        obtain ⟨p, rfl, hp⟩ := refreshWaiters_isGreatest fuel h
        refine ⟨p, by simp, ?_⟩
        have hset : {p | ∃ m, k.elems.VisitsFrom (.lockWaiters l) n m ∧ m ≠ .item t ∧
              p = k.priorityAt cfg m} =
            {p | n ≠ .item t ∧ p = k.priorityAt cfg n} ∪
              {p | ∃ m, k.elems.VisitsFrom (.lockWaiters l) n' m ∧ m ≠ .item t ∧
                p = k.priorityAt cfg m} := by
          ext p
          simp only [Links.visitsFrom_iff hn hn', Set.mem_ofPred_eq, Set.mem_union, or_and_right,
            exists_or, exists_eq_left]
        have hrest : {p | ∃ m, k.elems.VisitsFrom (.lockWaiters l) n' m ∧ m ≠ .item t ∧
            p = (k.setPriority t (max (k.thr t).priority (k.priorityAt cfg n))).priorityAt cfg m} =
            {p | ∃ m, k.elems.VisitsFrom (.lockWaiters l) n' m ∧ m ≠ .item t ∧
              p = k.priorityAt cfg m} := by
          ext p
          refine exists_congr fun m => and_congr_right fun _ => and_congr_right fun hm => ?_
          rw [priorityAt_setPriority hm]
        rw [setPriority_elems, hrest, setPriority_thr_self, isGreatest_insert_max] at hp
        rw [hset]
        by_cases hnt : n = .item t
        · -- the thread's own priority is no news
          subst hnt
          simpa [Kernel.priorityAt] using hp
        · simpa [hnt] using hp

theorem refreshLock_isGreatest (h : refreshLock cfg fuel t k l = some k') :
    ∃ p, k' = k.setPriority t p ∧
      IsGreatest (insert (k.thr t).priority (waiterPriorities cfg k t l)) p := by
  rw [refreshLock] at h
  split at h
  case isTrue he =>
    cases h
    have he : k.elems.next (.head (.lockWaiters l)) = some (.tail (.lockWaiters l)) := by
      simpa [Links.listEmpty] using he
    refine ⟨(k.thr t).priority, by simp, ?_⟩
    simp [waiterPriorities, Links.visits_iff he, Links.not_visitsFrom_tail]
  case isFalse =>
    obtain ⟨n, hn, h⟩ := Option.bind_eq_some_iff.mp h
    obtain ⟨p, rfl, hp⟩ := refreshWaiters_isGreatest fuel h
    refine ⟨p, rfl, ?_⟩
    simpa only [waiterPriorities, Links.visits_iff hn] using hp

/-- The outer loop goes on with the waiters of each lock. -/
theorem refreshLocks_isGreatest : ∀ (fuel' : ℕ) {k k' : Kernel} {n : Node ThreadPtr LockPtr},
    refreshLocks cfg fuel t fuel' k n = some k' →
    ∃ p, k' = k.setPriority t p ∧
      IsGreatest (insert (k.thr t).priority
        {p | ∃ l, k.lockElems.VisitsFrom t n (.item l) ∧ p ∈ waiterPriorities cfg k t l}) p
  | 0, _, _, _, h => nomatch h
  | fuel' + 1, k, k', .item l, h => by
      obtain ⟨k₁, h₁, h⟩ := Option.bind_eq_some_iff.mp h
      obtain ⟨n, hn, h⟩ := Option.bind_eq_some_iff.mp h
      obtain ⟨p₁, rfl, hp₁⟩ := refreshLock_isGreatest h₁
      obtain ⟨p, rfl, hp⟩ := refreshLocks_isGreatest fuel' h
      refine ⟨p, by simp, ?_⟩
      simp only [waiterPriorities_setPriority, setPriority_lockElems, setPriority_thr_self] at hp hn
      have hset : {p | ∃ l', k.lockElems.VisitsFrom t (.item l) (.item l') ∧
            p ∈ waiterPriorities cfg k t l'} =
          waiterPriorities cfg k t l ∪ {p | ∃ l', k.lockElems.VisitsFrom t n (.item l') ∧
            p ∈ waiterPriorities cfg k t l'} := by
        ext p
        simp only [Links.visitsFrom_iff (l := t) (n := .item l) nofun hn, Node.item.injEq,
          Set.mem_ofPred_eq, Set.mem_union, or_and_right, exists_or, exists_eq_left]
      rw [hset, ← Set.insert_union]
      -- a greatest element of the part and of the rest with it
      refine ⟨?_, ?_⟩
      · rcases hp.1 with rfl | hm
        · exact .inl hp₁.1
        · exact .inr hm
      · rintro x (hx | hx)
        · exact (hp₁.2 hx).trans (hp.2 (.inl rfl))
        · exact hp.2 (.inr hx)
  | fuel' + 1, k, k', .head u, h => by
      simp [refreshLocks] at h
  | fuel' + 1, k, k', .tail u, h => by
      obtain ⟨rfl, rfl⟩ : u = t ∧ k = k' := by simpa [refreshLocks] using h
      refine ⟨(k.thr u).priority, by simp, ?_⟩
      simp [Links.not_visitsFrom_tail]

/-- **`refresh_priority`** sets the priority to the greatest of the base priority and the
priorities of the threads that wait for the locks held. -/
theorem refreshPriority_isGreatest (h : refreshPriority cfg fuel k t = some k') :
    ∃ p, k' = k.setPriority t p ∧
      IsGreatest (insert (k.thr t).basePriority (donations cfg k t)) p := by
  have h : ((k.setPriority t (k.thr t).basePriority).lockElems.next (.head t)).bind
      (refreshLocks cfg fuel t fuel (k.setPriority t (k.thr t).basePriority)) = some k' := h
  obtain ⟨n, hn, h⟩ := Option.bind_eq_some_iff.mp h
  obtain ⟨p, rfl, hp⟩ := refreshLocks_isGreatest fuel h
  refine ⟨p, by simp, ?_⟩
  simp only [waiterPriorities_setPriority, setPriority_lockElems, setPriority_thr_self] at hp hn
  simpa only [donations, Links.visits_iff hn] using hp

end Pintos
