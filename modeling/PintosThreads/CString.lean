/-
PintosThreads/CString.lean

Strings that are ended by a null, in an area that holds several of them.

A pointer is a position in the area.  `At nul area p w` says that the string at
`p` is `w`: the elements of `w` stand there, none of them is the null, and the
null comes behind them.  A function that looks for the end of a string goes out
of the area where there is none, and then its result is `none`.

`strtok_r` writes a null over the delimiter that ends a token, which makes two
strings of one (`At.cut`) and leaves alone what stands elsewhere (`At.set`).
-/
import Mathlib.Data.List.Basic

namespace CString

variable {α : Type*} [DecidableEq α] (nul : α)

/-- The string at position `p`, when it is ended inside the area. -/
def read (area : List α) (p : ℕ) : Option (List α) :=
  if nul ∈ area.drop p then some ((area.drop p).takeWhile (· ≠ nul)) else none

/-- The string at position `p` is `w`. -/
def At (area : List α) (p : ℕ) (w : List α) : Prop :=
  nul ∉ w ∧ w ++ [nul] <+: area.drop p

/-- `strtok_r`, from position `s` on: the area afterwards, the token and what is saved. -/
def strtokR (delimiters : List α) (area : List α) (s : ℕ) : Option (List α × Option ℕ × ℕ) :=
  let token := s + ((area.drop s).takeWhile (· ∈ delimiters)).length
  match area[token]? with
  | none => none
  | some c =>
      if c = nul then some (area, none, token)
      else
        let stop := token +
          ((area.drop token).takeWhile fun c => c ≠ nul ∧ c ∉ delimiters).length
        match area[stop]? with
        | none => none
        | some c =>
            if c = nul then some (area, some token, stop)
            else some (area.set stop nul, some token, stop + 1)

variable {nul} {area : List α} {p : ℕ} {u v w delimiters : List α} {d : α}

/-! ### Strings in the area -/

omit [DecidableEq α] in
theorem At.nul_notMem (h : At nul area p w) : nul ∉ w := h.1

omit [DecidableEq α] in
/-- What stands from the string on. -/
theorem At.drop (h : At nul area p w) : ∃ r, area.drop p = w ++ nul :: r := by
  obtain ⟨r, hr⟩ := h.2
  exact ⟨r, by rw [← hr, List.append_assoc, List.singleton_append]⟩

omit [DecidableEq α] in
theorem At.of_drop {r : List α} (hw : nul ∉ w) (h : area.drop p = w ++ nul :: r) :
    At nul area p w :=
  ⟨hw, r, by rw [h, List.append_assoc, List.singleton_append]⟩

omit [DecidableEq α] in
theorem At.lt_length (h : At nul area p w) : p + w.length < area.length := by
  obtain ⟨r, hr⟩ := h.drop
  have hlen := congrArg List.length hr
  rw [List.length_drop, List.length_append, List.length_cons] at hlen
  omega

omit [DecidableEq α] in
/-- Behind the first part of a string stands the rest of it. -/
theorem At.drop_add (h : At nul area p (u ++ v)) : At nul area (p + u.length) v := by
  obtain ⟨r, hr⟩ := h.drop
  refine .of_drop (fun hv => h.1 (List.mem_append_right u hv)) (r := r) ?_
  rw [← List.drop_drop, hr, List.append_assoc, List.drop_left]

omit [DecidableEq α] in
theorem At.getElem?_add (h : At nul area p (u ++ v)) :
    area[p + u.length]? = (v ++ [nul]).head? := by
  obtain ⟨r, hr⟩ := h.drop_add.drop
  rw [← List.head?_drop, hr]
  cases v <;> rfl

theorem takeWhile_ne_nul {r : List α} (hw : nul ∉ w) :
    (w ++ nul :: r).takeWhile (· ≠ nul) = w := by
  rw [List.takeWhile_append_of_pos]
  · rw [List.takeWhile_cons_of_neg (by simp), List.append_nil]
  · intro a ha
    simpa using fun he : a = nul => hw (he ▸ ha)

theorem At.read (h : At nul area p w) : read nul area p = some w := by
  obtain ⟨r, hr⟩ := h.drop
  rw [CString.read, hr, if_pos (by simp), takeWhile_ne_nul h.1]

/-! ### Writing to the area -/

omit [DecidableEq α] in
/-- A string stays where nothing is written to it. -/
theorem At.set {i : ℕ} {a : α} (h : At nul area p w) (hi : i < p ∨ p + w.length < i) :
    At nul (area.set i a) p w := by
  obtain ⟨r, hr⟩ := h.drop
  rcases hi with hi | hi
  · exact .of_drop h.1 (by rw [List.drop_set, if_pos hi, hr])
  · obtain ⟨j, rfl⟩ : ∃ j, i = p + w.length + (j + 1) := ⟨i - (p + w.length) - 1, by omega⟩
    refine .of_drop h.1 (r := r.set j a) ?_
    rw [List.drop_set, if_neg (by omega), hr, List.set_append_right _ _ (by omega),
      show p + w.length + (j + 1) - p - w.length = j + 1 by omega, List.set_cons_succ]

omit [DecidableEq α] in
/-- A null inside of a string ends it, and the rest is a string of its own. -/
theorem At.cut (h : At nul area p (u ++ d :: v)) :
    At nul (area.set (p + u.length) nul) p u ∧
      At nul (area.set (p + u.length) nul) (p + u.length + 1) v := by
  obtain ⟨r, hr⟩ := h.drop
  have hcut : (area.set (p + u.length) nul).drop p = u ++ nul :: (v ++ nul :: r) := by
    rw [List.drop_set, if_neg (by omega), hr, List.append_assoc,
      List.set_append_right _ _ (by omega), show p + u.length - p - u.length = 0 by omega,
      List.cons_append, List.set_cons_zero]
  have hnul := h.1
  simp only [List.mem_append, List.mem_cons, not_or] at hnul
  refine ⟨.of_drop hnul.1 hcut, .of_drop hnul.2.2 (r := r) ?_⟩
  rw [Nat.add_assoc, ← List.drop_drop, hcut, ← List.drop_drop, List.drop_left]
  rfl

/-! ### The tokens of a string -/

theorem takeWhile_ne_and_notMem {r : List α} (hu : nul ∉ u) (hd : ∀ c ∈ u, c ∉ delimiters)
    (hr : ∀ c ∈ r.head?, c = nul ∨ c ∈ delimiters) :
    (u ++ r).takeWhile (fun c => c ≠ nul ∧ c ∉ delimiters) = u := by
  rw [List.takeWhile_append_of_pos]
  · cases r with
    | nil => simp
    | cons c r =>
        rw [List.takeWhile_cons_of_neg, List.append_nil]
        rcases hr c rfl with h | h <;> simp [h]
  · intro c hc
    simpa using ⟨fun he : c = nul => hu (he ▸ hc), hd c hc⟩

/-- The end of a string. -/
theorem strtokR_end (h : At nul area p []) (hz : nul ∉ delimiters) :
    strtokR nul delimiters area p = some (area, none, p) := by
  obtain ⟨r, hr⟩ := h.drop
  have hskip : (area.drop p).takeWhile (· ∈ delimiters) = [] := by
    rw [hr, List.nil_append, List.takeWhile_cons_of_neg (by simpa using hz)]
  have hend : area[p]? = some nul := h.getElem?_add (u := []) (v := [])
  simp only [strtokR, hskip, List.length_nil, Nat.add_zero, hend, if_true]

/-- A string that starts with a token, which ends at the end of it or at a delimiter. -/
theorem strtokR_token (h : At nul area p (u ++ v)) (hu : u ≠ []) (hn : ∀ c ∈ u, c ∉ delimiters)
    (hv : ∀ c ∈ v.head?, c ∈ delimiters) :
    strtokR nul delimiters area p =
      if v = [] then some (area, some p, p + u.length)
      else some (area.set (p + u.length) nul, some p, p + u.length + 1) := by
  obtain ⟨r, hr⟩ := h.drop
  obtain ⟨c, u', rfl⟩ := List.exists_cons_of_ne_nil hu
  have hskip : (area.drop p).takeWhile (· ∈ delimiters) = [] := by
    rw [hr, List.cons_append, List.cons_append,
      List.takeWhile_cons_of_neg (by simpa using hn c List.mem_cons_self)]
  have hhead : area[p]? = some c := h.getElem?_add (u := []) (v := c :: u' ++ v)
  have hstop : ((area.drop p).takeWhile fun c => c ≠ nul ∧ c ∉ delimiters) = c :: u' := by
    rw [hr, List.append_assoc]
    refine takeWhile_ne_and_notMem (fun hm => h.1 (List.mem_append_left v hm)) hn ?_
    cases v with
    | nil => simp
    | cons d v => simpa using .inr (hv d rfl)
  have hc : c ≠ nul := fun he => h.1 (by simp [he])
  have hnext : area[p + (c :: u').length]? = (v ++ [nul]).head? := h.getElem?_add
  simp only [strtokR, hskip, List.length_nil, Nat.add_zero, hhead, if_neg hc, hstop, hnext]
  cases v with
  | nil => simp
  | cons d v =>
      have hd : d ≠ nul := fun he => h.1 (by simp [he])
      simp [hd]

end CString
