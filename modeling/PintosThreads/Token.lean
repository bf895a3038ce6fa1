/-
PintosThreads/Token.lean

Accounting for one indivisible token: `v` of it is free, and owner `a` has
`d a` of it.  Library module: nothing here is about the kernel.
-/
import Mathlib.Data.Set.Card
import Mathlib.Logic.Function.Basic

namespace Token

variable {α : Type*} {v : ℕ} {d : α → ℤ} {a b : α}

/-- There is one token: either it is free or exactly one owner has it. -/
def One (v : ℕ) (d : α → ℤ) : Prop :=
  (v = 1 ∧ ∀ a, d a = 0) ∨ (v = 0 ∧ ∃ a, d a = 1 ∧ ∀ b, b ≠ a → d b = 0)

theorem One.le_one (h : One v d) (a : α) : d a ≤ 1 := by
  obtain ⟨-, h⟩ | ⟨-, o, ho, h⟩ := h
  · simp [h]
  · by_cases ha : a = o
    · subst ha
      omega
    · simp [h a ha]

theorem One.unique (h : One v d) (ha : 0 < d a) (hb : 0 < d b) : a = b := by
  obtain ⟨-, h⟩ | ⟨-, o, -, h⟩ := h
  · simp [h] at ha
  · have eq : ∀ c, 0 < d c → c = o := by
      intro c hc
      by_contra hco
      simp [h c hco] at hc
    rw [eq a ha, eq b hb]

/-- Somebody who has it keeps it from being free. -/
theorem One.free (h : One v d) (ha : 0 < d a) : v = 0 := by
  obtain ⟨-, h⟩ | ⟨hv, -⟩ := h
  · simp [h] at ha
  · exact hv

/-- Free or owned, it is one token. -/
theorem One.ncard (h : One v d) : v + Set.ncard {a | 0 < d a} = 1 := by
  obtain ⟨rfl, h⟩ | ⟨rfl, o, ho, h⟩ := h
  · simp [h]
  · have hset : {a | 0 < d a} = {o} := by
      ext a
      by_cases ha : a = o
      · simp [ha, ho]
      · simp [ha, h a ha]
    simp [hset]

variable [DecidableEq α]

/-- A free token is taken by `a`. -/
theorem One.take (h : One v d) (hv : v ≠ 0) :
    One (v - 1) (fun b => d b + if b = a then 1 else 0) := by
  obtain ⟨rfl, h⟩ | ⟨rfl, -⟩ := h
  · refine .inr ⟨rfl, a, by simp [h], fun b hb => by simp [h, hb]⟩
  · exact absurd rfl hv

/-- Its owner gives it back. -/
theorem One.give (h : One v d) (ha : 0 < d a) :
    One (v + 1) (fun b => d b - if b = a then 1 else 0) := by
  obtain ⟨rfl, h⟩ | ⟨rfl, o, ho, h⟩ := h
  · simp [h] at ha
  · obtain rfl : a = o := by
      by_contra hao
      simp [h a hao] at ha
    refine .inl ⟨rfl, fun b => ?_⟩
    by_cases hb : b = a
    · simp [hb, ho]
    · simp [hb, h b hb]

end Token
