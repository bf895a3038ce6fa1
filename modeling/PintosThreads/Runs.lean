/-
PintosThreads/Runs.lean

Runs that are carried out step by step, from the state in which `thread_start`
is called.
-/
import PintosThreads.Machine

namespace Pintos

variable {cfg : Config} {fuel : ℕ} {ok : Kernel → Label → Prop} {k k₁ k' : Kernel} {lab : Label}

/-- Carries out the steps `labs`, as long as they meet `ok`. -/
def execute (cfg : Config) (fuel : ℕ) (ok : Kernel → Label → Prop) [∀ k lab, Decidable (ok k lab)]
    (k : Kernel) (labs : List Label) : Option Kernel :=
  labs.foldlM (fun k lab => if ok k lab then step cfg fuel k lab else none) k

/-- What has been carried out is a run. -/
theorem execute_steps [∀ k lab, Decidable (ok k lab)] : ∀ {labs : List Label} {k : Kernel},
    execute cfg fuel ok k labs = some k' → Relation.ReflTransGen (Next cfg ok) k k'
  | [], k, h => by
      cases h
      exact .refl
  | lab :: labs, k, h => by
      obtain ⟨k₁, h₁, h₂⟩ := Option.bind_eq_some_iff.mp h
      dsimp only at h₁
      split at h₁
      case isTrue hok => exact .head ⟨lab, fuel, hok, h₁⟩ (execute_steps h₂)
      case isFalse => cases h₁

theorem execute_reachable [∀ k lab, Decidable (ok k lab)] {labs : List Label}
    (hr : Reachable cfg ok k) (h : execute cfg fuel ok k labs = some k') : Reachable cfg ok k' :=
  Relation.ReflTransGen.trans hr (execute_steps h)

/-- What the steps of a run meet may follow from the states they are taken in being reachable. -/
theorem Reachable.mono {ok' : Kernel → Label → Prop}
    (hok : ∀ k lab, Reachable cfg ok k → ok k lab → ok' k lab) (h : Reachable cfg ok k) :
    Reachable cfg ok' k := by
  induction h with
  | refl => exact .refl
  | tail hr hs ih =>
      obtain ⟨lab, fuel, hl, hs⟩ := hs
      exact ih.tail ⟨lab, fuel, hok _ lab hr hl, hs⟩

/-- A run that ends in a state with property `p`. -/
theorem exists_reachable (cfg : Config) (fuel : ℕ) (ok : Kernel → Label → Prop)
    [∀ k lab, Decidable (ok k lab)] (labs : List Label) (p : Kernel → Bool)
    (h : (execute cfg fuel ok (boot cfg) labs).any p = true) :
    ∃ k, Reachable cfg ok k ∧ p k = true := by
  obtain ⟨k, hk, hp⟩ := (Option.any_eq_true p _).mp h
  exact ⟨k, execute_reachable .refl hk, hp⟩

/-- A run from one state to another, with the steps that it takes and the states they are taken
in. -/
inductive Path (cfg : Config) (ok : Kernel → Label → Prop) (k : Kernel) :
    List (Kernel × Label) → Kernel → Prop
  | nil : Path cfg ok k [] k
  | snoc {k₁ k₂ : Kernel} {tr : List (Kernel × Label)} {lab : Label} {fuel : ℕ} :
      Path cfg ok k tr k₁ → ok k₁ lab → step cfg fuel k₁ lab = some k₂ →
      Path cfg ok k (tr ++ [(k₁, lab)]) k₂

theorem Path.reachable {tr : List (Kernel × Label)} (h : Path cfg ok k tr k')
    (hr : Reachable cfg ok k) : Reachable cfg ok k' := by
  induction h with
  | nil => exact hr
  | snoc _ hok hs ih => exact .tail ih ⟨_, _, hok, hs⟩

theorem Path.cons {tr : List (Kernel × Label)} (hok : ok k lab)
    (hs : step cfg fuel k lab = some k₁) (h : Path cfg ok k₁ tr k') :
    Path cfg ok k ((k, lab) :: tr) k' := by
  induction h with
  | nil =>
      have hnil : Path cfg ok k [] k := .nil
      exact hnil.snoc hok hs
  | snoc _ hok' hs' ih => exact .snoc ih hok' hs'

/-- The states in which the steps `labs` are taken. -/
def trace (cfg : Config) (fuel : ℕ) : Kernel → List Label → List (Kernel × Label)
  | _, [] => []
  | k, lab :: labs =>
      (k, lab) :: ((step cfg fuel k lab).map fun k' => trace cfg fuel k' labs).getD []

/-- What has been carried out is a path. -/
theorem execute_path [∀ k lab, Decidable (ok k lab)] : ∀ {labs : List Label} {k : Kernel},
    execute cfg fuel ok k labs = some k' → Path cfg ok k (trace cfg fuel k labs) k'
  | [], k, h => by
      cases h
      exact .nil
  | lab :: labs, k, h => by
      obtain ⟨k₁, h₁, h₂⟩ := Option.bind_eq_some_iff.mp h
      dsimp only at h₁
      split at h₁
      case isTrue hok =>
        rw [trace, h₁]
        exact .cons hok h₁ (execute_path h₂)
      case isFalse => cases h₁

/-- The priority scheduler, with pages enough, on memory that is zero where nothing has been
written. -/
def priorityConfig : Config where
  mlfqs := false
  palloc := fun _ => true
  atomicTid := true
  junkPriority := fun _ => 0
  beyond := fun _ => (none, none)
  semaInit := fun _ => 0
  lockElemInit := fun _ => (none, none)

/-- The MLFQS. -/
def mlfqsConfig : Config :=
  { priorityConfig with mlfqs := true }

/-- The priority scheduler with `allocate_tid` as it is, which takes `tid_lock`. -/
def tidConfig : Config :=
  { priorityConfig with atomicTid := false }

/-- The MLFQS with `allocate_tid` as it is. -/
def mlfqsTidConfig : Config :=
  { mlfqsConfig with atomicTid := false }

end Pintos
