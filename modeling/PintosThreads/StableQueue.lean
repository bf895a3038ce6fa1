/-
PintosThreads/StableQueue.lean

Stable priority queues.

What such a queue is for is said in terms of its arrivals: `First key as a rest`
singles out, among the elements `as` in the order of their arrival, the
earliest one of greatest key, and leaves `rest`.  A queue may be kept as one
sequence sorted by key (`Sorts`), or as one sequence for each key, namely the
arrivals with that key.  Both ways give the first element its place at the
front of a sequence, and both go on as they should when elements arrive and
leave.
-/
import PintosThreads.Intrusive

namespace StableQueue

variable {α β : Type*} [LinearOrder β] (key : α → β)

/-! ### The queue as it should be -/

/-- `a` is the earliest of the arrivals `as` with greatest key, and `rest` the others. -/
def First (as : List α) (a : α) (rest : List α) : Prop :=
  ∃ l r, as = l ++ a :: r ∧ rest = l ++ r ∧ (∀ b ∈ l, key b < key a) ∧ ∀ b ∈ r, key b ≤ key a

/-- The element to leave next, with those that stay. -/
def next : List α → Option (α × List α)
  | [] => none
  | a :: as =>
      match next as with
      | none => some (a, as)
      | some (b, rest) => if key a < key b then some (b, a :: rest) else some (a, as)

variable {key} {as rest xs : List α} {a x : α}

theorem First.mem (h : First key as a rest) : a ∈ as := by
  obtain ⟨l, r, rfl, -⟩ := h
  simp

theorem First.le (h : First key as a rest) {b : α} (hb : b ∈ as) : key b ≤ key a := by
  obtain ⟨l, r, rfl, -, hl, hr⟩ := h
  rcases List.mem_append.mp hb with hb | hb
  · exact (hl b hb).le
  · rcases List.mem_cons.mp hb with rfl | hb
    · exact le_rfl
    · exact hr b hb

theorem First.mem_of_rest (h : First key as a rest) {b : α} (hb : b ∈ rest) : b ∈ as := by
  obtain ⟨l, r, rfl, rfl, -⟩ := h
  simp only [List.mem_append, List.mem_cons] at hb ⊢
  exact hb.imp id .inr

theorem First.mem_rest (h : First key as a rest) {b : α} (hb : b ∈ as) : b = a ∨ b ∈ rest := by
  obtain ⟨l, r, rfl, rfl, -⟩ := h
  simp only [List.mem_append, List.mem_cons] at hb ⊢
  rcases hb with hb | rfl | hb
  · exact .inr (.inl hb)
  · exact .inl rfl
  · exact .inr (.inr hb)

theorem First.sublist (h : First key as a rest) : rest.Sublist as := by
  obtain ⟨l, r, rfl, rfl, -⟩ := h
  exact (List.sublist_cons_self a r).append_left l

/-- Only an empty queue has no element to leave next. -/
theorem next_eq_none : ∀ {as : List α}, next key as = none ↔ as = []
  | [] => by simp [next]
  | a :: as => by
      rcases e : next key as with - | ⟨b, rest⟩
      · simp [next, e]
      · by_cases hab : key a < key b <;> simp [next, e, hab]

theorem next_first : ∀ {as : List α} {a : α} {rest : List α}, next key as = some (a, rest) →
    First key as a rest
  | [], _, _, h => nomatch h
  | c :: cs, a, rest, h => by
      rw [next] at h
      rcases e : next key cs with - | ⟨b, rest'⟩
      · rw [e] at h
        cases h
        rw [next_eq_none.mp e]
        exact ⟨[], [], rfl, rfl, nofun, nofun⟩
      · have hb := next_first e
        rw [e] at h
        dsimp only at h
        split at h
        case isTrue hlt =>
          cases h
          obtain ⟨l, r, hcs, rfl, hl, hr⟩ := hb
          refine ⟨c :: l, r, by rw [hcs]; rfl, rfl, ?_, hr⟩
          exact List.forall_mem_cons.mpr ⟨hlt, hl⟩
        case isFalse hge =>
          cases h
          refine ⟨[], _, rfl, rfl, nofun, fun d hd => ?_⟩
          exact (hb.le hd).trans (not_lt.mp hge)

/-- The computed element is the one that should leave. -/
theorem First.next_eq (h : First key as a rest) : next key as = some (a, rest) := by
  obtain ⟨l, r, rfl, rfl, hl, hr⟩ := h
  induction l with
  | nil =>
      rw [List.nil_append, next]
      rcases e : next key r with - | ⟨b, rest⟩
      · rfl
      · exact if_neg (not_lt.mpr (hr b (next_first e).mem))
  | cons c l ih =>
      obtain ⟨hc, hl⟩ := List.forall_mem_cons.mp hl
      rw [List.cons_append, next, ih hl]
      exact if_pos hc

/-! ### One sorted sequence -/

variable (key) in
/-- `xs` holds the arrivals `as` by descending key, those of one key in the order of their
arrival. -/
structure Sorts (as xs : List α) : Prop where
  sorted : xs.Pairwise fun a b => key b ≤ key a
  stable : ∀ p, xs.filter (key · = p) = as.filter (key · = p)

theorem Sorts.perm (h : Sorts key as xs) : xs.Perm as := by
  classical
  refine List.perm_iff_count.mpr fun x => ?_
  have hx : ∀ ys : List α, (ys.filter (key · = key x)).count x = ys.count x :=
    fun ys => List.count_filter (by simp)
  rw [← hx xs, h.stable, hx as]

theorem Sorts.mem_iff (h : Sorts key as xs) : x ∈ xs ↔ x ∈ as :=
  h.perm.mem_iff

theorem Sorts.eq_nil (h : Sorts key as []) : as = [] :=
  List.eq_nil_iff_forall_not_mem.mpr fun _ ha => List.not_mem_nil (h.mem_iff.mpr ha)

/-- The elements of one key, after an ordered insertion into a sorted sequence. -/
theorem filter_orderedInsert (hx : xs.Pairwise fun a b => key b ≤ key a) (p : β) :
    (xs.orderedInsert (fun a b => key b < key a) a).filter (key · = p) =
      (xs ++ [a]).filter (key · = p) := by
  induction xs with
  | nil => rfl
  | cons x xs ih =>
      obtain ⟨hxs, hx⟩ := List.pairwise_cons.mp hx
      rw [List.orderedInsert]
      split
      case isTrue hlt =>
        -- everything from here on has a smaller key
        have hne : key a = p → (x :: xs).filter (key · = p) = [] := by
          rintro rfl
          refine List.filter_eq_nil_iff.mpr fun b hb => ?_
          rcases List.mem_cons.mp hb with rfl | hb
          · simpa using hlt.ne
          · simpa using ((hxs b hb).trans_lt hlt).ne
        rw [List.filter_append]
        by_cases hp : key a = p
        · rw [hne hp, List.filter_cons_of_pos (by simpa using hp), hne hp]
          simp [hp]
        · simp [hp]
      case isFalse =>
        rw [List.cons_append, List.filter_cons, List.filter_cons, ih hx]

theorem Sorts.insert (h : Sorts key as xs) (a : α) :
    Sorts key (as ++ [a]) (xs.orderedInsert (fun a b => key b < key a) a) where
  sorted := Intrusive.pairwise_orderedInsert key a h.sorted
  stable := by
    intro p
    rw [filter_orderedInsert h.sorted, List.filter_append, List.filter_append, h.stable]

/-- Where the elements of the greatest key begin with `x`, it is the first one. -/
theorem first_of_filter (hle : ∀ b ∈ as, key b ≤ key x) {ys : List α}
    (hx : as.filter (key · = key x) = x :: ys) :
    ∃ rest, First key as x rest ∧ rest.filter (key · = key x) = ys ∧
      ∀ p, p ≠ key x → rest.filter (key · = p) = as.filter (key · = p) := by
  obtain ⟨l, r, rfl, hl, -, hr⟩ := List.filter_eq_cons_iff.mp hx
  have hl' : ∀ b ∈ l, key b ≠ key x := fun b hb => by simpa using hl b hb
  refine ⟨l ++ r, ⟨l, r, rfl, rfl, fun b hb => ?_, fun b hb => hle b (by simp [hb])⟩, ?_, ?_⟩
  · exact lt_of_le_of_ne (hle b (by simp [hb])) (hl' b hb)
  · rw [List.filter_append, List.filter_eq_nil_iff.mpr hl, hr]
    rfl
  · intro p hp
    rw [List.filter_append, List.filter_append, List.filter_cons_of_neg (by simpa using hp.symm)]

/-- The front of the sorted sequence is the first element. -/
theorem Sorts.first (h : Sorts key as (x :: xs)) :
    ∃ rest, First key as x rest ∧ Sorts key rest xs := by
  obtain ⟨hxs, hs⟩ := List.pairwise_cons.mp h.sorted
  have hle : ∀ b ∈ as, key b ≤ key x := by
    intro b hb
    rcases List.mem_cons.mp (h.mem_iff.mpr hb) with rfl | hb
    · exact le_rfl
    · exact hxs b hb
  have hx := (h.stable (key x)).symm
  rw [List.filter_cons_of_pos (by simp)] at hx
  obtain ⟨rest, hf, he, hn⟩ := first_of_filter hle hx
  refine ⟨rest, hf, hs, fun p => ?_⟩
  by_cases hp : p = key x
  · rw [hp, he]
  · rw [hn p hp, ← h.stable p, List.filter_cons_of_neg (by simpa using Ne.symm hp)]

/-! ### Leaving by key -/

/-- In a sequence where the elements with property `p` come first, they are what is taken. -/
theorem takeWhile_eq_filter {p : α → Bool} : ∀ {xs : List α},
    xs.Pairwise (fun a b => p b → p a) → xs.takeWhile p = xs.filter p
  | [], _ => rfl
  | x :: xs, h => by
      obtain ⟨hx, h⟩ := List.pairwise_cons.mp h
      by_cases hp : p x
      · rw [List.takeWhile_cons_of_pos hp, List.filter_cons_of_pos hp, takeWhile_eq_filter h]
      · rw [List.takeWhile_cons_of_neg hp, List.filter_cons_of_neg hp]
        exact (List.filter_eq_nil_iff.mpr fun a ha hpa => hp (hx a ha hpa)).symm

/-- And the others are what is left. -/
theorem dropWhile_eq_filter {p : α → Bool} : ∀ {xs : List α},
    xs.Pairwise (fun a b => p b → p a) → xs.dropWhile p = xs.filter fun a => !p a
  | [], _ => rfl
  | x :: xs, h => by
      obtain ⟨hx, h⟩ := List.pairwise_cons.mp h
      by_cases hp : p x
      · rw [List.dropWhile_cons_of_pos hp, List.filter_cons_of_neg (by simpa using hp),
          dropWhile_eq_filter h]
      · rw [List.dropWhile_cons_of_neg hp, List.filter_cons_of_pos (by simpa using hp)]
        congr 1
        exact (List.filter_eq_self.mpr fun a ha => by simpa using fun hpa => hp (hx a ha hpa)).symm

/-- The arrivals with a property are sorted by the same sequence. -/
theorem Sorts.filter (h : Sorts key as xs) (p : α → Bool) :
    Sorts key (as.filter p) (xs.filter p) where
  sorted := h.sorted.filter p
  stable := by
    intro c
    simp only [List.filter_filter, Bool.and_comm]
    rw [← List.filter_filter, ← List.filter_filter, h.stable]

/-! ### Leaving one after the other -/

theorem First.singleton (key : α → β) (a : α) : First key [a] a [] :=
  ⟨[], [], rfl, rfl, nofun, nofun⟩

/-- A later element of greater key takes the place of the first one. -/
theorem First.later (h : First key as a rest) (hx : key a < key x) :
    First key (as ++ [x]) x as := by
  refine ⟨as, [], rfl, (List.append_nil as).symm, fun b hb => ?_, nofun⟩
  exact (h.le hb).trans_lt hx

/-- A later element that is not greater does not. -/
theorem First.stays (h : First key as a rest) (hx : key x ≤ key a) :
    First key (as ++ [x]) a (rest ++ [x]) := by
  obtain ⟨l, r, rfl, rfl, hl, hr⟩ := h
  refine ⟨l, r ++ [x], by simp, by simp, hl, fun b hb => ?_⟩
  rcases List.mem_append.mp hb with hb | hb
  · exact hr b hb
  · rw [List.mem_singleton.mp hb]
    exact hx

theorem First.length (h : First key as a rest) : as.length = rest.length + 1 := by
  obtain ⟨l, r, rfl, rfl, -⟩ := h
  simp only [List.length_append, List.length_cons]
  omega

theorem First.erase [DecidableEq α] (h : First key as a rest) : as.erase a = rest := by
  obtain ⟨l, r, rfl, rfl, hl, -⟩ := h
  have ha : a ∉ l := fun ha => lt_irrefl _ (hl a ha)
  rw [List.erase_append_right _ ha, List.erase_cons_head]

/-- The first element is the head of the sorted sequence. -/
theorem Sorts.cons (h : Sorts key rest xs) (hf : First key as a rest) : Sorts key as (a :: xs) where
  sorted := by
    refine List.pairwise_cons.mpr ⟨fun b hb => ?_, h.sorted⟩
    exact hf.le (hf.mem_of_rest (h.mem_iff.mp hb))
  stable := by
    intro p
    have hs := h.stable p
    obtain ⟨l, r, rfl, rfl, hl, -⟩ := hf
    rw [List.filter_append] at hs
    by_cases hp : key a = p
    · have hnil : l.filter (key · = p) = [] :=
        List.filter_eq_nil_iff.mpr fun b hb => by simpa [← hp] using (hl b hb).ne
      rw [hnil, List.nil_append] at hs
      rw [List.filter_append, hnil, List.filter_cons_of_pos (by simpa using hp),
        List.filter_cons_of_pos (by simpa using hp), hs]
      rfl
    · rw [List.filter_append, List.filter_cons_of_neg (by simpa using hp),
        List.filter_cons_of_neg (by simpa using hp), hs]

theorem First.unique {b : α} {rest' : List α} (h : First key as a rest)
    (h' : First key as b rest') : a = b ∧ rest = rest' := by
  have he := h.next_eq.symm.trans h'.next_eq
  simpa using he

/-- There is one sorted sequence. -/
theorem Sorts.unique : ∀ {xs ys as : List α}, Sorts key as xs → Sorts key as ys → xs = ys
  | [], ys, as, h, h' => by
      obtain rfl := h.eq_nil
      exact (List.perm_nil.mp h'.perm).symm
  | x :: xs, [], as, h, h' => by
      obtain rfl := h'.eq_nil
      exact absurd h.perm (List.cons_ne_nil x xs ∘ List.perm_nil.mp)
  | x :: xs, y :: ys, as, h, h' => by
      obtain ⟨rest, hf, hs⟩ := h.first
      obtain ⟨rest', hf', hs'⟩ := h'.first
      obtain ⟨rfl, rfl⟩ := hf.unique hf'
      rw [hs.unique hs']

/-- The order by descending key. -/
def byKey (key : α → β) (a b : α) : Bool :=
  key b ≤ key a

theorem byKey_trans (key : α → β) (a b c : α) (hab : byKey key a b) (hbc : byKey key b c) :
    byKey key a c := by
  simp only [byKey, decide_eq_true_eq] at *
  exact hbc.trans hab

theorem byKey_total (key : α → β) (a b : α) : byKey key a b || byKey key b a := by
  simpa [byKey] using le_total (key b) (key a)

/-- The sorted sequence is what a stable sort computes. -/
theorem sorts_mergeSort (key : α → β) (as : List α) : Sorts key as (as.mergeSort (byKey key)) where
  sorted := by
    have hs := List.pairwise_mergeSort (byKey_trans key) (byKey_total key) as
    exact hs.imp of_decide_eq_true
  stable := by
    intro p
    -- the elements of one key are a sorted part of `as`
    have hp : (as.filter (key · = p)).Pairwise (byKey key · ·) := by
      refine List.pairwise_filter.mpr (List.pairwise_of_forall fun a b ha hb => ?_)
      simp only [decide_eq_true_eq] at ha hb
      simp [byKey, ha, hb]
    have hsub := (List.sublist_mergeSort (byKey_trans key) (byKey_total key) hp
      List.filter_sublist).filter (key · = p)
    simp only [List.filter_filter, Bool.and_self] at hsub
    refine (hsub.eq_of_length ?_).symm
    exact ((List.mergeSort_perm as (byKey key)).filter _).length_eq.symm

variable (key) in
/-- The elements `xs` have left the queue `as` one after the other, and `rest` is left. -/
inductive Leaves : List α → List α → List α → Prop
  | none {as : List α} : Leaves as [] as
  | next {as xs bs rest : List α} {a : α} :
      Leaves as xs bs → First key bs a rest → Leaves as (xs ++ [a]) rest

theorem Leaves.sorts {ys : List α} (h : Leaves key as xs rest) (hs : Sorts key rest ys) :
    Sorts key as (xs ++ ys) := by
  induction h generalizing ys with
  | none => exact hs
  | next _ hf ih =>
      rw [List.append_assoc]
      exact ih (hs.cons hf)

/-- What has left is the beginning of the sorted sequence. -/
theorem Leaves.mergeSort_eq (h : Leaves key as xs rest) :
    as.mergeSort (byKey key) = xs ++ rest.mergeSort (byKey key) :=
  (sorts_mergeSort key as).unique (h.sorts (sorts_mergeSort key rest))

theorem Leaves.mem_iff (h : Leaves key as xs rest) : x ∈ as ↔ x ∈ xs ∨ x ∈ rest := by
  rw [← (h.sorts (sorts_mergeSort key rest)).mem_iff, List.mem_append,
    (sorts_mergeSort key rest).mem_iff]

end StableQueue
