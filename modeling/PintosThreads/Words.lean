/-
PintosThreads/Words.lean

The words of a list that are ended by a separator, or by the end of the list.

Every position has at most one word that starts there, so the words are given
by the positions where they start: the first one, if there is one, and those
that follow a separator (`starts`).  Nothing says that a word has elements.
`startsFrom_eq` is how the starts are found from left to right.
-/
import Mathlib.Data.List.Basic

namespace Words

variable {α : Type*} [DecidableEq α] (sep : α) (a : List α)

/-- A word starts at position `p`. -/
def IsStart (p : ℕ) : Prop :=
  p = 0 ∨ a[p - 1]? = some sep

instance (p : ℕ) : Decidable (IsStart sep a p) :=
  inferInstanceAs (Decidable (_ ∨ _))

/-- The positions where the words start. -/
def starts : List ℕ :=
  (List.range a.length).filter (IsStart sep a ·)

/-- Those from position `p` on. -/
def startsFrom (p : ℕ) : List ℕ :=
  (List.range' p (a.length - p)).filter (IsStart sep a ·)

/-- The length of the word that starts at position `p`. -/
def wordLength (p : ℕ) : ℕ :=
  (a.drop p).idxOf sep

variable {sep a} {p q : ℕ}

theorem starts_eq : starts sep a = startsFrom sep a 0 := by
  rw [starts, startsFrom, List.range_eq_range', Nat.sub_zero]

theorem startsFrom_of_le (h : a.length ≤ p) : startsFrom sep a p = [] := by
  rw [startsFrom, Nat.sub_eq_zero_of_le h]
  rfl

omit [DecidableEq α] in
theorem isStart_zero : IsStart sep a 0 := .inl rfl

theorem wordLength_le (sep : α) (a : List α) (p : ℕ) : wordLength sep a p ≤ a.length - p := by
  rw [← List.length_drop]
  exact List.idxOf_le_length

/-- A word that does not go to the end of the list is ended by a separator. -/
theorem isStart_next (h : wordLength sep a p < a.length - p) :
    IsStart sep a (p + wordLength sep a p + 1) := by
  right
  have h : (a.drop p).idxOf sep < (a.drop p).length := by rwa [List.length_drop]
  have hget : (a.drop p)[wordLength sep a p]? = some sep := by
    rw [wordLength, List.getElem?_eq_getElem h, List.getElem_idxOf]
  rwa [List.getElem?_drop] at hget

/-- No word starts inside a word. -/
theorem not_isStart (hpq : p < q) (hq : q ≤ p + wordLength sep a p) : ¬ IsStart sep a q := by
  rintro (rfl | h)
  · exact absurd hpq (Nat.not_lt_zero p)
  · have hlt : q - 1 - p < (a.drop p).idxOf sep := by
      rw [← wordLength]
      omega
    have hget : (a.drop p)[q - 1 - p]? = some sep := by
      rwa [List.getElem?_drop, show p + (q - 1 - p) = q - 1 by omega]
    obtain ⟨hl, hget⟩ := List.getElem?_eq_some_iff.mp hget
    have hne := List.not_of_lt_findIdx hlt
    simp [hget] at hne

/-- **The next word starts behind the separator that ends this one.** -/
theorem startsFrom_eq (hp : p < a.length) (h : IsStart sep a p) :
    startsFrom sep a p = p :: startsFrom sep a (p + wordLength sep a p + 1) := by
  have hle := wordLength_le sep a p
  obtain ⟨n, hn⟩ : ∃ n, a.length - p = n + 1 := ⟨a.length - p - 1, by omega⟩
  -- the rest of the word, and what comes behind it
  obtain ⟨m, r, hm, hr, hs⟩ : ∃ m r, m ≤ wordLength sep a p ∧ n = m + r ∧
      List.range' (p + 1 + m) r = List.range' (p + wordLength sep a p + 1)
        (a.length - (p + wordLength sep a p + 1)) := by
    by_cases hend : wordLength sep a p = n + 1
    · refine ⟨n, 0, by omega, rfl, ?_⟩
      rw [Nat.sub_eq_zero_of_le (by omega)]
      rfl
    · refine ⟨wordLength sep a p, n - wordLength sep a p, Nat.le_refl _, by omega, ?_⟩
      congr 1 <;> omega
  have hinside : (List.range' (p + 1) m).filter (IsStart sep a ·) = [] := by
    rw [List.filter_eq_nil_iff]
    intro q hq
    rw [List.mem_range'_1] at hq
    simpa using not_isStart (by omega) (by omega : q ≤ p + wordLength sep a p)
  rw [startsFrom, hn, List.range'_succ, List.filter_cons_of_pos (by simpa using h), hr,
    ← List.range'_append_1, List.filter_append, hinside, List.nil_append, hs]
  rfl

end Words
