/-
PintosThreads/Intrusive.lean

Intrusive doubly linked lists, as a kernel's list module provides them: every
list owns two sentinel nodes, every element carries one link node, and an
insertion overwrites that node whatever it was linked to before.

The link memory is a pair of functions (`Links`).  Nothing here forbids an
element to be inserted twice; what a list *contains* is a statement about the
memory:

    IsList h l xs   --  `l` is well formed and holds exactly `xs`, in order
    Repr h q        --  every list `l` with `q l = some xs` holds `xs`, and no
                        element is in two of them

The operations are partial (`none` is a failed assertion of the list module or
a traversal that runs out of its iteration bound).  Each operation has one
specification under `Repr`, which says where the sequence changes and that the
links of every other list are untouched.
-/
import Mathlib.Data.List.Sort
import Mathlib.Data.List.Nodup
import Mathlib.Logic.Function.Basic
import Mathlib.Logic.Relation

namespace Intrusive

/-- A node of the link memory: one of the two sentinels of a list, or the
link embedded in an element. -/
inductive Node (ι α : Type*)
  | head (l : ι)
  | tail (l : ι)
  | item (a : α)
deriving DecidableEq

/-- The link memory: `none` is the null pointer. -/
structure Links (ι α : Type*) where
  next : Node ι α → Option (Node ι α)
  prev : Node ι α → Option (Node ι α)

variable {ι α : Type*}

namespace Links

variable [DecidableEq ι] [DecidableEq α]

/-! ### Operations -/

/-- Makes `l` an empty list. -/
def listInit (h : Links ι α) (l : ι) : Links ι α where
  next := Function.update (Function.update h.next (.head l) (some (.tail l))) (.tail l) none
  prev := Function.update (Function.update h.prev (.head l) none) (.tail l) (some (.head l))

def listEmpty (h : Links ι α) (l : ι) : Bool :=
  h.next (.head l) = some (.tail l)

/-- The first element's node; asserts that the list is not empty. -/
def listFront (h : Links ι α) (l : ι) : Option (Node ι α) :=
  if h.listEmpty l then none else h.next (.head l)

/-- The memory after `e` is written between `p` and `b`. -/
def link (h : Links ι α) (p e b : Node ι α) : Links ι α where
  next := Function.update (Function.update h.next e (some b)) p (some e)
  prev := Function.update (Function.update h.prev e (some p)) b (some e)

/-- The memory after `p` and `n` are made neighbours. -/
def join (h : Links ι α) (p n : Node ι α) : Links ι α where
  next := Function.update h.next p (some n)
  prev := Function.update h.prev n (some p)

/-- Inserts `e` just before `b`; asserts that `b` has a predecessor. -/
def listInsert (h : Links ι α) (b e : Node ι α) : Option (Links ι α) :=
  (h.prev b).map fun p => h.link p e b

def listPushBack (h : Links ι α) (l : ι) (e : Node ι α) : Option (Links ι α) :=
  h.listInsert (.tail l) e

/-- Unlinks `e`; asserts that both its pointers are non-null.  They keep their
values. -/
def listRemove (h : Links ι α) (e : Node ι α) : Option (Links ι α) :=
  match h.prev e, h.next e with
  | some p, some n => some (h.join p n)
  | _, _ => none

def listPopFront (h : Links ι α) (l : ι) : Option (Node ι α × Links ι α) := do
  let f ← h.listFront l
  let h' ← h.listRemove f
  return (f, h')

/-- The node before which an ordered insertion into `l` places its element:
the first node from `n` on that satisfies `less`, or the tail of `l`. -/
def findPlace (h : Links ι α) (l : ι) (less : Node ι α → Bool) :
    ℕ → Node ι α → Option (Node ι α)
  | 0, _ => none
  | fuel + 1, n =>
      if n = .tail l then some n
      else if less n then some n
      else (h.next n).bind (findPlace h l less fuel)

/-- Inserts `e` before the first element that `e` is `less` than. -/
def listInsertOrdered (h : Links ι α) (fuel : ℕ) (l : ι) (e : Node ι α)
    (less : Node ι α → Bool) : Option (Links ι α) := do
  let n ← h.next (.head l)
  let b ← h.findPlace l less fuel n
  h.listInsert b e

/-- The number of nodes from `n` to the tail of `l`. -/
def sizeFrom (h : Links ι α) (l : ι) : ℕ → Node ι α → Option ℕ
  | 0, _ => none
  | fuel + 1, n =>
      if n = .tail l then some 0
      else (h.next n).bind fun m => (sizeFrom h l fuel m).map (· + 1)

def listSize (h : Links ι α) (fuel : ℕ) (l : ι) : Option ℕ :=
  (h.next (.head l)).bind (h.sizeFrom l fuel)

/-- `a` is met when `l` is traversed from its head. -/
def InList (h : Links ι α) (l : ι) (a : α) : Prop :=
  Relation.TransGen (fun m n => h.next m = some n) (.head l) (.item a)

end Links

/-! ### Segments -/

/-- From `a` the pointers run through the elements `xs` to `b`, and back. -/
def Seg (h : Links ι α) : Node ι α → List α → Node ι α → Prop
  | a, [], b => h.next a = some b ∧ h.prev b = some a
  | a, x :: xs, b => h.next a = some (.item x) ∧ h.prev (.item x) = some a ∧ Seg h (.item x) xs b

/-- The last node of the segment that starts at `a`. -/
def endOf (a : Node ι α) : List α → Node ι α
  | [] => a
  | x :: xs => endOf (.item x) xs

/-- The first node of the segment that ends at `b`. -/
def startOf (b : Node ι α) : List α → Node ι α
  | [] => b
  | y :: _ => .item y

variable {h h' : Links ι α}

theorem Seg.prev_eq {a b : Node ι α} {xs : List α} (hs : Seg h a xs b) :
    h.prev b = some (endOf a xs) := by
  induction xs generalizing a with
  | nil => exact hs.2
  | cons x xs ih => exact ih hs.2.2

theorem Seg.next_eq {a b : Node ι α} {xs : List α} (hs : Seg h a xs b) :
    h.next a = some (startOf b xs) := by
  cases xs with
  | nil => exact hs.1
  | cons x xs => exact hs.1

theorem endOf_cases (a : Node ι α) (xs : List α) :
    endOf a xs = a ∨ ∃ x ∈ xs, endOf a xs = .item x := by
  induction xs generalizing a with
  | nil => exact Or.inl rfl
  | cons x xs ih =>
    rcases ih (.item x) with hx | ⟨y, hy, he⟩
    · exact Or.inr ⟨x, by simp, hx⟩
    · exact Or.inr ⟨y, by simp [hy], he⟩

theorem startOf_cases (b : Node ι α) (xs : List α) :
    startOf b xs = b ∨ ∃ x ∈ xs, startOf b xs = .item x := by
  cases xs with
  | nil => exact Or.inl rfl
  | cons x xs => exact Or.inr ⟨x, by simp, rfl⟩

theorem seg_append_cons {a b : Node ι α} {xs ys : List α} {y : α} :
    Seg h a (xs ++ y :: ys) b ↔ Seg h a xs (.item y) ∧ Seg h (.item y) ys b := by
  induction xs generalizing a with
  | nil => simp [Seg, and_assoc]
  | cons x xs ih => simp [Seg, ih, and_assoc]

/-- A segment only depends on the forward pointers of its nodes but the last
and on the backward pointers of its nodes but the first. -/
theorem Seg.congr {a b : Node ι α} {xs : List α} (hs : Seg h a xs b)
    (hn : h'.next a = h.next a) (hnx : ∀ x ∈ xs, h'.next (.item x) = h.next (.item x))
    (hp : h'.prev b = h.prev b) (hpx : ∀ x ∈ xs, h'.prev (.item x) = h.prev (.item x)) :
    Seg h' a xs b := by
  induction xs generalizing a with
  | nil => exact ⟨hn.trans hs.1, hp.trans hs.2⟩
  | cons x xs ih =>
    obtain ⟨h1, h2, h3⟩ := hs
    refine ⟨hn.trans h1, (hpx x (by simp)).trans h2, ih h3 (hnx x (by simp)) ?_ ?_⟩
    · exact fun y hy => hnx y (by simp [hy])
    · exact fun y hy => hpx y (by simp [hy])

variable [DecidableEq ι] [DecidableEq α]

/-- Writing `e` in front of the end of a segment appends it. -/
theorem Seg.link {a b : Node ι α} {xs : List α} {e : α} (hs : Seg h a xs b)
    (hae : a ≠ .item e) (hbe : b ≠ .item e) (he : e ∉ xs) (hab : a ≠ b)
    (hb : ∀ x ∈ xs, b ≠ .item x) (ha : ∀ x ∈ xs, a ≠ .item x) (hx : xs.Nodup) :
    Seg (h.link (endOf a xs) (.item e) b) a (xs ++ [e]) b := by
  induction xs generalizing a with
  | nil => simp [Seg, endOf, Links.link, hae.symm, hbe.symm]
  | cons x xs ih =>
    obtain ⟨h1, h2, h3⟩ := hs
    have hxe : x ≠ e := fun hxe => he (by simp [hxe])
    have hx' := List.nodup_cons.mp hx
    have hend : a ≠ endOf (.item x) xs := by
      rcases endOf_cases (.item x : Node ι α) xs with hc | ⟨y, hy, hc⟩
      · rw [hc]; exact ha x (by simp)
      · rw [hc]; exact ha y (by simp [hy])
    refine ⟨?_, ?_, ih h3 (by simpa using hxe) (by simp_all) ?_ ?_ ?_ hx'.2⟩
    · simp [endOf, Links.link, hend, hae, h1]
    · have hxb : (.item x : Node ι α) ≠ b := (hb x (by simp)).symm
      simp [endOf, Links.link, hxb, hxe, h2]
    · exact (hb x (by simp)).symm
    · exact fun y hy => hb y (by simp [hy])
    · intro y hy hxy
      exact hx'.1 (by simpa [Node.item.inj hxy] using hy)

/-- Joining the last node before `e` and the first one after it drops `e`. -/
theorem Seg.join {a b : Node ι α} {xs ys : List α} {e : α} (hs : Seg h a (xs ++ e :: ys) b)
    (ha : ∀ x ∈ xs ++ e :: ys, a ≠ .item x) (hb : ∀ x ∈ xs ++ e :: ys, b ≠ .item x)
    (hab : a ≠ b) (hx : (xs ++ e :: ys).Nodup) :
    Seg (h.join (endOf a xs) (startOf b ys)) a (xs ++ ys) b := by
  induction xs generalizing a with
  | nil =>
    obtain ⟨-, -, h3⟩ := hs
    cases ys with
    | nil => simp [Seg, endOf, startOf, Links.join]
    | cons y ys =>
      obtain ⟨h4, h5, h6⟩ := h3
      have hay : a ≠ .item y := ha y (by simp)
      have hy : y ∉ ys ∧ ys.Nodup := by simpa using (List.nodup_cons.mp hx).2
      refine ⟨by simp [endOf, startOf, Links.join], by simp [endOf, startOf, Links.join], ?_⟩
      refine h6.congr ?_ ?_ ?_ ?_
      · simp [endOf, Links.join, hay.symm]
      · intro z hz
        have haz : a ≠ .item z := ha z (by simp [hz])
        simp [endOf, Links.join, haz.symm]
      · simp [startOf, Links.join, hb y (by simp)]
      · intro z hz
        have hzy : z ≠ y := fun hzy => hy.1 (by simpa [hzy] using hz)
        simp [startOf, Links.join, hzy]
  | cons x xs ih =>
    obtain ⟨h1, h2, h3⟩ := hs
    have hx' := List.nodup_cons.mp hx
    have hend : a ≠ endOf (.item x) xs := by
      rcases endOf_cases (.item x : Node ι α) xs with hc | ⟨y, hy, hc⟩
      · rw [hc]; exact ha x (by simp)
      · rw [hc]; exact ha y (by simp [hy])
    have hst : (.item x : Node ι α) ≠ startOf b ys := by
      rcases startOf_cases b ys with hc | ⟨y, hy, hc⟩
      · rw [hc]; exact (hb x (by simp)).symm
      · rw [hc]
        intro hxy
        exact hx'.1 (by simp [Node.item.inj hxy, hy])
    refine ⟨?_, ?_, ih h3 ?_ ?_ (hb x (by simp)).symm hx'.2⟩
    · simp [endOf, Links.join, hend, h1]
    · simp [Links.join, hst, h2]
    · intro y hy hxy
      exact hx'.1 (by simpa [Node.item.inj hxy] using hy)
    · exact fun y hy => hb y (by simp only [List.cons_append, List.mem_cons]; exact Or.inr hy)

/-! ### Well-formed lists -/

/-- `l` is well formed and holds exactly `xs`, in order. -/
structure IsList (h : Links ι α) (l : ι) (xs : List α) : Prop where
  seg : Seg h (.head l) xs (.tail l)
  head_prev : h.prev (.head l) = none
  tail_next : h.next (.tail l) = none
  nodup : xs.Nodup

/-- `n` is one of the nodes of a list `l` that holds `xs`. -/
def Within (l : ι) (xs : List α) (n : Node ι α) : Prop :=
  n = .head l ∨ n = .tail l ∨ ∃ x ∈ xs, n = .item x

/-- The two memories have the same pointers in every node outside `P`. -/
def SameOff (P : Node ι α → Prop) (h h' : Links ι α) : Prop :=
  ∀ n, ¬ P n → h'.next n = h.next n ∧ h'.prev n = h.prev n

omit [DecidableEq ι] [DecidableEq α] in
theorem IsList.congr {l : ι} {xs : List α} {P : Node ι α → Prop} (hl : IsList h l xs)
    (hs : SameOff P h h') (hP : ∀ n, Within l xs n → ¬ P n) : IsList h' l xs := by
  have hw : ∀ n, Within l xs n → h'.next n = h.next n ∧ h'.prev n = h.prev n :=
    fun n hn => hs n (hP n hn)
  have hh := hw (.head l) (Or.inl rfl)
  have ht := hw (.tail l) (Or.inr (Or.inl rfl))
  have hi : ∀ x ∈ xs, h'.next (.item x) = h.next (.item x) ∧ h'.prev (.item x) = h.prev (.item x) :=
    fun x hx => hw _ (Or.inr (Or.inr ⟨x, hx, rfl⟩))
  exact ⟨hl.seg.congr hh.1 (fun x hx => (hi x hx).1) ht.2 (fun x hx => (hi x hx).2),
    hh.2.trans hl.head_prev, ht.1.trans hl.tail_next, hl.nodup⟩

theorem IsList.listEmpty {l : ι} {xs : List α} (hl : IsList h l xs) :
    h.listEmpty l = true ↔ xs = [] := by
  rw [Links.listEmpty, decide_eq_true_iff, hl.seg.next_eq]
  cases xs <;> simp [startOf]

theorem IsList.listFront {l : ι} {x : α} {xs : List α} (hl : IsList h l (x :: xs)) :
    h.listFront l = some (.item x) := by
  have he : h.listEmpty l = false := by
    rw [Bool.eq_false_iff, Ne, hl.listEmpty]; simp
  simpa [Links.listFront, he] using hl.seg.1

omit [DecidableEq ι] [DecidableEq α] in
/-- The pointers determine the elements. -/
theorem Seg.unique {l : ι} : ∀ {a : Node ι α} {xs ys : List α}, Seg h a xs (.tail l) →
    Seg h a ys (.tail l) → xs = ys
  | _, [], [], _, _ => rfl
  | _, [], y :: ys, h₁, h₂ => nomatch h₁.1.symm.trans h₂.1
  | _, x :: xs, [], h₁, h₂ => nomatch h₁.1.symm.trans h₂.1
  | a, x :: xs, y :: ys, h₁, h₂ => by
      obtain rfl : x = y := by simpa [h₁.1] using h₂.1
      rw [h₁.2.2.unique h₂.2.2]

omit [DecidableEq ι] [DecidableEq α] in
theorem IsList.unique {l : ι} {xs ys : List α} (h₁ : IsList h l xs) (h₂ : IsList h l ys) :
    xs = ys :=
  h₁.seg.unique h₂.seg

/-- Initialising a list makes it empty and touches no other node. -/
theorem isList_listInit (h : Links ι α) (l : ι) :
    IsList (h.listInit l) l [] ∧ SameOff (Within l []) h (h.listInit l) := by
  refine ⟨⟨⟨by simp [Links.listInit], by simp [Links.listInit]⟩, by simp [Links.listInit],
    by simp [Links.listInit], List.nodup_nil⟩, ?_⟩
  intro n hn
  simp only [Within, List.not_mem_nil, false_and, exists_false, or_false, not_or] at hn
  simp [Links.listInit, hn.1, hn.2]

/-- Inserting a fresh element before the node where `ys` starts. -/
theorem IsList.listInsert {l : ι} {xs ys : List α} {e : α} (hl : IsList h l (xs ++ ys))
    (he : e ∉ xs ++ ys) :
    ∃ h', h.listInsert (startOf (.tail l) ys) (.item e) = some h' ∧
      IsList h' l (xs ++ e :: ys) ∧ SameOff (Within l (e :: (xs ++ ys))) h h' := by
  have hex : e ∉ xs := fun hc => he (by simp [hc])
  have hey : e ∉ ys := fun hc => he (by simp [hc])
  have hnd := List.nodup_append.mp hl.nodup
  -- the segment in front of the insertion point, and the node it ends in
  have hpre : Seg h (.head l) xs (startOf (.tail l) ys) := by
    cases ys with
    | nil => simpa [startOf] using hl.seg
    | cons y ys => exact (seg_append_cons.mp hl.seg).1
  have hbe : startOf (.tail l : Node ι α) ys ≠ .item e := by
    rcases startOf_cases (.tail l : Node ι α) ys with hc | ⟨y, hy, hc⟩ <;> rw [hc]
    · simp
    · intro hye
      exact hey (by simpa [Node.item.inj hye] using hy)
  have hhb : (.head l : Node ι α) ≠ startOf (.tail l) ys := by
    rcases startOf_cases (.tail l : Node ι α) ys with hc | ⟨y, hy, hc⟩ <;> rw [hc] <;> simp
  have hbx : ∀ x ∈ xs, startOf (.tail l : Node ι α) ys ≠ .item x := by
    intro x hx
    rcases startOf_cases (.tail l : Node ι α) ys with hc | ⟨y, hy, hc⟩ <;> rw [hc]
    · simp
    · intro hyx
      exact hnd.2.2 x hx y hy (Node.item.inj hyx).symm
  have hins := hpre.link (by simp) hbe hex hhb hbx (by simp) hnd.1
  refine ⟨_, by rw [Links.listInsert, hpre.prev_eq]; rfl, ⟨?_, ?_, ?_, ?_⟩, ?_⟩
  · cases ys with
    | nil => simpa [startOf] using hins
    | cons y ys =>
      have hpost := (seg_append_cons.mp hl.seg).2
      have hend : ∀ z ∈ y :: ys, (.item z : Node ι α) ≠ endOf (.head l) xs := by
        intro z hz
        rcases endOf_cases (.head l : Node ι α) xs with hc | ⟨x, hx, hc⟩ <;> rw [hc]
        · simp
        · intro hzx
          exact hnd.2.2 x hx z hz (Node.item.inj hzx).symm
      have hze : ∀ z ∈ y :: ys, z ≠ e := fun z hz hze => hey (by simpa [hze] using hz)
      have hyn := List.nodup_cons.mp hnd.2.1
      have hpost' : Seg (h.link (endOf (.head l) xs) (.item e) (.item y)) (.item y) ys (.tail l) := by
        refine hpost.congr ?_ ?_ ?_ ?_
        · simp [Links.link, hend y (by simp), hze y (by simp)]
        · intro z hz
          simp [Links.link, hend z (by simp [hz]), hze z (by simp [hz])]
        · simp [Links.link]
        · intro z hz
          have hzy : z ≠ y := fun hzy => hyn.1 (by simpa [hzy] using hz)
          simp [Links.link, hzy, hze z (by simp [hz])]
      have := seg_append_cons.mpr ⟨hins, hpost'⟩
      simpa using this
  · simp [Links.link, hhb, hl.head_prev]
  · have hend : (.tail l : Node ι α) ≠ endOf (.head l) xs := by
      rcases endOf_cases (.head l : Node ι α) xs with hc | ⟨x, hx, hc⟩ <;> rw [hc] <;> simp
    simp [Links.link, hend, hl.tail_next]
  · have := hl.nodup
    rw [List.nodup_middle]
    exact List.nodup_cons.mpr ⟨he, this⟩
  · intro n hn
    simp only [Within, List.mem_cons, List.mem_append, not_or, not_exists, not_and] at hn
    have hne : n ≠ .item e := hn.2.2 e (Or.inl rfl)
    have h1 : n ≠ endOf (.head l) xs := by
      rcases endOf_cases (.head l : Node ι α) xs with hc | ⟨x, hx, hc⟩ <;> rw [hc]
      · exact hn.1
      · exact hn.2.2 x (Or.inr (Or.inl hx))
    have h2 : n ≠ startOf (.tail l) ys := by
      rcases startOf_cases (.tail l : Node ι α) ys with hc | ⟨y, hy, hc⟩ <;> rw [hc]
      · exact hn.2.1
      · exact hn.2.2 y (Or.inr (Or.inr hy))
    simp [Links.link, hne, h1, h2]

/-- Removing an element unlinks it; its own pointers stay as they were. -/
theorem IsList.listRemove {l : ι} {xs ys : List α} {e : α} (hl : IsList h l (xs ++ e :: ys)) :
    ∃ h', h.listRemove (.item e) = some h' ∧ IsList h' l (xs ++ ys) ∧
      SameOff (Within l (xs ++ ys)) h h' := by
  obtain ⟨hpre, hpost⟩ := seg_append_cons.mp hl.seg
  have hnd : e ∉ xs ++ ys ∧ (xs ++ ys).Nodup := List.nodup_middle.mp hl.nodup |> List.nodup_cons.mp
  have hend := endOf_cases (.head l : Node ι α) xs
  have hst := startOf_cases (.tail l : Node ι α) ys
  refine ⟨_, by rw [Links.listRemove, hpre.prev_eq, hpost.next_eq], ⟨?_, ?_, ?_, hnd.2⟩, ?_⟩
  · exact hl.seg.join (by simp) (by simp) (by simp) hl.nodup
  · have : (.head l : Node ι α) ≠ startOf (.tail l) ys := by
      rcases hst with hc | ⟨y, hy, hc⟩ <;> rw [hc] <;> simp
    simp [Links.join, this, hl.head_prev]
  · have : (.tail l : Node ι α) ≠ endOf (.head l) xs := by
      rcases hend with hc | ⟨x, hx, hc⟩ <;> rw [hc] <;> simp
    simp [Links.join, this, hl.tail_next]
  · intro n hn
    simp only [Within, List.mem_append, not_or, not_exists, not_and] at hn
    have h1 : n ≠ endOf (.head l) xs := by
      rcases hend with hc | ⟨x, hx, hc⟩ <;> rw [hc]
      · exact hn.1
      · exact hn.2.2 x (Or.inl hx)
    have h2 : n ≠ startOf (.tail l) ys := by
      rcases hst with hc | ⟨y, hy, hc⟩ <;> rw [hc]
      · exact hn.2.1
      · exact hn.2.2 y (Or.inr hy)
    simp [Links.join, h1, h2]

/-! ### A memory full of lists -/

/-- Every list `l` with `q l = some xs` is well formed and holds `xs`, and no
element is in two of them.  Lists with `q l = none` are unconstrained. -/
structure Repr (h : Links ι α) (q : ι → Option (List α)) : Prop where
  isList : ∀ {l xs}, q l = some xs → IsList h l xs
  disj : ∀ {l l' xs ys a}, q l = some xs → q l' = some ys → a ∈ xs → a ∈ ys → l = l'

/-- `e` is in none of the lists of `q`. -/
def Unlinked (q : ι → Option (List α)) (e : α) : Prop :=
  ∀ l xs, q l = some xs → e ∉ xs

variable {q : ι → Option (List α)}

omit [DecidableEq α] in
/-- A list may always be left out of account. -/
theorem Repr.forget (R : Repr h q) (l : ι) : Repr h (Function.update q l none) where
  isList := by
    intro l' xs hq
    by_cases hll : l' = l
    · subst hll; simp at hq
    · exact R.isList (by simpa [hll] using hq)
  disj := by
    intro l₁ l₂ xs ys a h1 h2 ha hb
    by_cases hl1 : l₁ = l
    · subst hl1; simp at h1
    · by_cases hl2 : l₂ = l
      · subst hl2; simp at h2
      · exact R.disj (by simpa [hl1] using h1) (by simpa [hl2] using h2) ha hb

omit [DecidableEq α] in
/-- The common part of the operations: one list changes from `xs` to `zs`,
whose elements are old ones or in no other list, and no node outside it and
the new elements is written. -/
theorem Repr.update {l : ι} {zs : List α} {P : Node ι α → Prop} (R : Repr h q)
    (hl : IsList h' l zs) (hs : SameOff P h h')
    (hP : ∀ l' ys n, l' ≠ l → q l' = some ys → Within l' ys n → ¬ P n)
    (hz : ∀ l' ys a, l' ≠ l → q l' = some ys → a ∈ zs → a ∉ ys) :
    Repr h' (Function.update q l (some zs)) where
  isList := by
    intro l' xs hq
    by_cases hll : l' = l
    · subst hll
      obtain rfl : zs = xs := by simpa using hq
      exact hl
    · have hq' : q l' = some xs := by simpa [hll] using hq
      exact (R.isList hq').congr hs fun n hn => hP l' xs n hll hq' hn
  disj := by
    intro l₁ l₂ xs ys a h1 h2 ha hb
    by_cases hl1 : l₁ = l <;> by_cases hl2 : l₂ = l
    · rw [hl1, hl2]
    · subst hl1
      obtain rfl : zs = xs := by simpa using h1
      exact absurd hb (hz l₂ ys a hl2 (by simpa [hl2] using h2) ha)
    · subst hl2
      obtain rfl : zs = ys := by simpa using h2
      exact absurd ha (hz l₁ xs a hl1 (by simpa [hl1] using h1) hb)
    · exact R.disj (by simpa [hl1] using h1) (by simpa [hl2] using h2) ha hb

omit [DecidableEq ι] [DecidableEq α] in
/-- The nodes of two different lists are different when their elements are. -/
theorem Within.disjoint {l l' : ι} {xs ys : List α} {n : Node ι α} (hll : l' ≠ l)
    (hd : ∀ a ∈ xs, a ∉ ys) (hn : Within l' ys n) : ¬ Within l xs n := by
  rcases hn with rfl | rfl | ⟨y, hy, rfl⟩
  · simp [Within, hll]
  · simp [Within, hll]
  · simp only [Within, reduceCtorEq, Node.item.injEq, exists_eq_right', false_or]
    exact fun hx => hd y hx hy

theorem Repr.init (R : Repr h q) (l : ι) :
    Repr (h.listInit l) (Function.update q l (some [])) := by
  obtain ⟨hl, hs⟩ := isList_listInit h l
  refine R.update hl hs ?_ (by simp)
  exact fun l' ys n hll _ hn => hn.disjoint hll (by simp)

theorem Repr.insert {l : ι} {xs ys : List α} {e : α} (R : Repr h q)
    (hl : q l = some (xs ++ ys)) (he : Unlinked q e) :
    ∃ h', h.listInsert (startOf (.tail l) ys) (.item e) = some h' ∧
      Repr h' (Function.update q l (some (xs ++ e :: ys))) ∧
      SameOff (Within l (e :: (xs ++ ys))) h h' := by
  obtain ⟨h', hi, hl', hs⟩ := (R.isList hl).listInsert (he l _ hl)
  have hd : ∀ l' zs a, l' ≠ l → q l' = some zs → a ∈ e :: (xs ++ ys) → a ∉ zs := by
    intro l' zs a hll hz ha hc
    rcases List.mem_cons.mp ha with rfl | ha
    · exact he l' zs hz hc
    · exact hll (R.disj hz hl hc ha)
  refine ⟨h', hi, R.update hl' hs ?_ ?_, hs⟩
  · exact fun l' zs n hll hz hn => hn.disjoint hll fun a ha => hd l' zs a hll hz ha
  · intro l' zs a hll hz ha
    exact hd l' zs a hll hz (by simpa [or_left_comm] using ha)

theorem Repr.remove {l : ι} {xs ys : List α} {e : α} (R : Repr h q)
    (hl : q l = some (xs ++ e :: ys)) :
    ∃ h', h.listRemove (.item e) = some h' ∧
      Repr h' (Function.update q l (some (xs ++ ys))) ∧ SameOff (Within l (xs ++ ys)) h h' := by
  obtain ⟨h', hr, hl', hs⟩ := (R.isList hl).listRemove
  have hd : ∀ l' zs a, l' ≠ l → q l' = some zs → a ∈ xs ++ ys → a ∉ zs := by
    intro l' zs a hll hz ha hc
    refine hll (R.disj hz hl hc ?_)
    rcases List.mem_append.mp ha with ha | ha <;> simp [ha]
  refine ⟨h', hr, R.update hl' hs ?_ hd, hs⟩
  exact fun l' zs n hll hz hn => hn.disjoint hll fun a ha => hd l' zs a hll hz ha

theorem Repr.pushBack {l : ι} {xs : List α} {e : α} (R : Repr h q) (hl : q l = some xs)
    (he : Unlinked q e) :
    ∃ h', h.listPushBack l (.item e) = some h' ∧
      Repr h' (Function.update q l (some (xs ++ [e]))) ∧ SameOff (Within l (e :: xs)) h h' := by
  have hl' : q l = some (xs ++ []) := by simpa using hl
  simpa [startOf, Links.listPushBack] using R.insert hl' he

theorem Repr.popFront {l : ι} {x : α} {xs : List α} (R : Repr h q) (hl : q l = some (x :: xs)) :
    ∃ h', h.listPopFront l = some (.item x, h') ∧
      Repr h' (Function.update q l (some xs)) ∧ SameOff (Within l xs) h h' := by
  have hl' : q l = some ([] ++ x :: xs) := hl
  obtain ⟨h', hr, R', hs⟩ := R.remove hl'
  refine ⟨h', ?_, R', hs⟩
  simp [Links.listPopFront, (R.isList hl).listFront, hr]

/-! ### The list an element belongs to -/

/-- The lists of `q` hold exactly the elements whose `home` they are. -/
def Homes (q : ι → Option (List α)) (home : α → Option ι) : Prop :=
  ∀ l xs, q l = some xs → ∀ a, a ∈ xs ↔ home a = some l

variable {home : α → Option ι}

omit [DecidableEq ι] [DecidableEq α] in
theorem Homes.unlinked {e : α} (H : Homes q home) (he : home e = none) : Unlinked q e := by
  intro l xs hl hm
  simp [(H l xs hl e).mp hm] at he

omit [DecidableEq α] in
theorem Homes.forget (H : Homes q home) (l : ι) : Homes (Function.update q l none) home := by
  intro l' xs hl a
  by_cases hll : l' = l
  · subst hll
    simp at hl
  · exact H l' xs (by simpa [hll] using hl) a

/-- An element moves into a list. -/
theorem Homes.insert {l : ι} {e : α} {xs zs : List α} (H : Homes q home) (hl : q l = some xs)
    (he : home e = none) (hz : ∀ a, a ∈ zs ↔ a = e ∨ a ∈ xs) :
    Homes (Function.update q l (some zs)) (Function.update home e (some l)) := by
  intro l' ys hl' a
  by_cases hll : l' = l
  · subst hll
    obtain rfl : zs = ys := by simpa using hl'
    by_cases ha : a = e
    · simp [hz, ha]
    · simp [hz, ha, H l' xs hl a]
  · have hq : q l' = some ys := by simpa [hll] using hl'
    by_cases ha : a = e
    · subst ha
      simp [H l' ys hq a, he, Ne.symm hll]
    · simp [ha, H l' ys hq a]

/-- An element moves out of its list. -/
theorem Homes.remove {l : ι} {e : α} {xs zs : List α} (H : Homes q home) (hl : q l = some xs)
    (he : e ∈ xs) (hz : ∀ a, a ∈ zs ↔ a ∈ xs ∧ a ≠ e) :
    Homes (Function.update q l (some zs)) (Function.update home e none) := by
  have hel : home e = some l := (H l xs hl e).mp he
  intro l' ys hl' a
  by_cases hll : l' = l
  · subst hll
    obtain rfl : zs = ys := by simpa using hl'
    by_cases ha : a = e
    · simp [hz, ha]
    · simp [hz, ha, H l' xs hl a]
  · have hq : q l' = some ys := by simpa [hll] using hl'
    by_cases ha : a = e
    · subst ha
      simp [H l' ys hq a, hel, Ne.symm hll]
    · simp [ha, H l' ys hq a]

/-! ### Ordered insertion -/

/-- Where an ordered insertion stops when it runs through a segment. -/
theorem Seg.findPlace {l : ι} {less : Node ι α → Bool} {fuel : ℕ} {a b : Node ι α} {xs : List α}
    (hs : Seg h a xs (.tail l)) (hx : xs.Nodup)
    (hf : h.findPlace l less fuel (startOf (.tail l) xs) = some b) :
    b = startOf (.tail l) (xs.dropWhile fun x => !less (.item x)) := by
  induction xs generalizing a fuel with
  | nil =>
    cases fuel with
    | zero => simp [Links.findPlace] at hf
    | succ fuel => simpa [Links.findPlace, startOf, eq_comm] using hf
  | cons x xs ih =>
    cases fuel with
    | zero => simp [Links.findPlace] at hf
    | succ fuel =>
      simp only [Links.findPlace, startOf, reduceCtorEq, if_false] at hf
      by_cases hless : less (.item x)
      · simp only [hless, if_true, Option.some.injEq] at hf
        subst hf
        simp [hless, startOf]
      · simp only [hless, if_false, hs.2.2.next_eq, Option.bind_some, Bool.false_eq_true] at hf
        simpa [hless] using ih hs.2.2 (List.nodup_cons.mp hx).2 hf

/-- Enough fuel takes an ordered insertion through the segment. -/
theorem Seg.findPlace_isSome {l : ι} {less : Node ι α → Bool} {fuel : ℕ} {a : Node ι α}
    {xs : List α} (hs : Seg h a xs (.tail l)) (hf : xs.length < fuel) :
    (h.findPlace l less fuel (startOf (.tail l) xs)).isSome := by
  induction xs generalizing a fuel with
  | nil =>
    obtain ⟨fuel, rfl⟩ := Nat.exists_eq_succ_of_ne_zero (by omega : fuel ≠ 0)
    simp [Links.findPlace, startOf]
  | cons x xs ih =>
    obtain ⟨fuel, rfl⟩ := Nat.exists_eq_succ_of_ne_zero (by omega : fuel ≠ 0)
    simp only [Links.findPlace, startOf, reduceCtorEq, if_false]
    by_cases hless : less (.item x)
    · simp [hless]
    · simp only [hless, hs.2.2.next_eq, Option.bind_some]
      exact ih hs.2.2 (by simpa using hf)

omit [DecidableEq α] in
theorem orderedInsert_eq (r : α → α → Prop) [DecidableRel r] (e : α) (xs : List α) :
    xs.orderedInsert r e =
      (xs.takeWhile fun x => !decide (r e x)) ++ e :: xs.dropWhile fun x => !decide (r e x) := by
  induction xs with
  | nil => simp
  | cons x xs ih =>
    by_cases hr : r e x <;> simp [List.orderedInsert, hr, ih]

omit [DecidableEq α] in
/-- Insertion in front of the first smaller element keeps a sequence sorted. -/
theorem pairwise_orderedInsert {β : Type*} [LinearOrder β] (key : α → β) (e : α) {xs : List α}
    (hx : xs.Pairwise fun a b => key b ≤ key a) :
    (xs.orderedInsert (fun a b => key b < key a) e).Pairwise fun a b => key b ≤ key a := by
  induction xs with
  | nil => simp
  | cons x xs ih =>
    obtain ⟨hxs, hx⟩ := List.pairwise_cons.mp hx
    by_cases hr : key x < key e
    · simp only [List.orderedInsert, hr, if_true, List.pairwise_cons, List.mem_cons]
      refine ⟨?_, hxs, hx⟩
      rintro y (rfl | hy)
      · exact hr.le
      · exact (hxs y hy).trans hr.le
    · simp only [List.orderedInsert, hr, if_false, List.pairwise_cons, List.mem_orderedInsert]
      refine ⟨?_, ih hx⟩
      rintro y (rfl | hy)
      · exact not_lt.mp hr
      · exact hxs y hy

/-- Ordered insertion of a fresh element, on the sequence it is. -/
theorem Repr.insertOrdered {l : ι} {xs : List α} {e : α} {less : Node ι α → Bool} {fuel : ℕ}
    (r : α → α → Prop) [DecidableRel r] (hless : ∀ x, less (.item x) = decide (r e x))
    (R : Repr h q) (hl : q l = some xs) (he : Unlinked q e)
    (hi : h.listInsertOrdered fuel l (.item e) less = some h') :
    Repr h' (Function.update q l (some (xs.orderedInsert r e))) ∧
      SameOff (Within l (e :: xs)) h h' := by
  have hs := (R.isList hl).seg
  simp only [Links.listInsertOrdered, hs.next_eq, Option.bind_eq_bind, Option.bind_some,
    Option.bind_eq_some_iff] at hi
  obtain ⟨b, hb, hi⟩ := hi
  rw [hs.findPlace (R.isList hl).nodup hb] at hi
  simp only [hless] at hi
  have hsplit : q l = some ((xs.takeWhile fun x => !decide (r e x)) ++
      xs.dropWhile fun x => !decide (r e x)) := by
    rw [List.takeWhile_append_dropWhile]; exact hl
  obtain ⟨h₂, hi₂, R₂, hs₂⟩ := R.insert hsplit he
  obtain rfl : h' = h₂ := Option.some.inj (hi.symm.trans hi₂)
  rw [List.takeWhile_append_dropWhile] at hs₂
  exact ⟨by rw [orderedInsert_eq]; exact R₂, hs₂⟩

/-- With fuel for the whole list an ordered insertion goes through. -/
theorem Repr.insertOrdered_isSome {l : ι} {xs : List α} {e : α} {less : Node ι α → Bool} {fuel : ℕ}
    (R : Repr h q) (hl : q l = some xs) (he : Unlinked q e) (hf : xs.length < fuel) :
    (h.listInsertOrdered fuel l (.item e) less).isSome := by
  have hs := (R.isList hl).seg
  obtain ⟨b, hb⟩ := Option.isSome_iff_exists.mp (hs.findPlace_isSome hf : (h.findPlace l less fuel _).isSome)
  have hbs := hs.findPlace (R.isList hl).nodup hb
  have hsplit : q l = some ((xs.takeWhile fun x => !less (.item x)) ++
      xs.dropWhile fun x => !less (.item x)) := by
    rw [List.takeWhile_append_dropWhile]; exact hl
  obtain ⟨h₂, hi₂, -⟩ := R.insert hsplit he
  simp [Links.listInsertOrdered, hs.next_eq, hb, hbs, hi₂]

/-! ### Traversals -/

theorem Seg.sizeFrom_eq {l : ι} {fuel : ℕ} {a : Node ι α} {xs : List α}
    (hs : Seg h a xs (.tail l)) (hf : xs.length < fuel) :
    h.sizeFrom l fuel (startOf (.tail l) xs) = some xs.length := by
  induction xs generalizing a fuel with
  | nil =>
    obtain ⟨fuel, rfl⟩ := Nat.exists_eq_add_of_lt hf
    simp [Links.sizeFrom, startOf]
  | cons x xs ih =>
    cases fuel with
    | zero => simp at hf
    | succ fuel =>
      have hx := ih hs.2.2 (by simpa using hf)
      show (if (Node.item x : Node ι α) = .tail l then some 0
        else (h.next (.item x)).bind fun m => (h.sizeFrom l fuel m).map (· + 1)) = _
      rw [if_neg nofun, hs.2.2.next_eq, Option.bind_some, hx]
      rfl

theorem IsList.listSize_eq {l : ι} {fuel : ℕ} {xs : List α} (hl : IsList h l xs)
    (hf : xs.length < fuel) : h.listSize fuel l = some xs.length := by
  rw [Links.listSize, hl.seg.next_eq, Option.bind_some]
  exact hl.seg.sizeFrom_eq hf

theorem sizeFrom_mono {l : ι} {fuel m : ℕ} {n : Node ι α} (hs : h.sizeFrom l fuel n = some m)
    (d : ℕ) : h.sizeFrom l (fuel + d) n = some m := by
  induction fuel generalizing n m with
  | zero => cases hs
  | succ fuel ih =>
    rw [Nat.succ_add, Links.sizeFrom]
    rw [Links.sizeFrom] at hs
    split
    case isTrue hn => rwa [if_pos hn] at hs
    case isFalse hn =>
      rw [if_neg hn] at hs
      obtain ⟨n', hn', hs⟩ := Option.bind_eq_some_iff.mp hs
      obtain ⟨m', hm', rfl⟩ := Option.map_eq_some_iff.mp hs
      rw [hn', Option.bind_some, ih hm']
      rfl

theorem listSize_mono {l : ι} {fuel m : ℕ} (hs : h.listSize fuel l = some m) (d : ℕ) :
    h.listSize (fuel + d) l = some m := by
  obtain ⟨n, hn, hs⟩ := Option.bind_eq_some_iff.mp hs
  rw [Links.listSize, hn, Option.bind_some]
  exact sizeFrom_mono hs d

omit [DecidableEq ι] [DecidableEq α] in
theorem Seg.transGen {a b : Node ι α} {xs : List α} {x : α} (hs : Seg h a xs b) (hx : x ∈ xs) :
    Relation.TransGen (fun m n => h.next m = some n) a (.item x) := by
  induction xs generalizing a with
  | nil => simp at hx
  | cons y ys ih =>
    obtain ⟨h1, -, h3⟩ := hs
    rcases List.mem_cons.mp hx with rfl | hx
    · exact .single h1
    · exact .head h1 (ih h3 hx)

omit [DecidableEq ι] [DecidableEq α] in
theorem Seg.next_mem {a b : Node ι α} {xs : List α} {x : α} (hs : Seg h a xs b) (hx : x ∈ xs) :
    ∃ n, h.next (.item x) = some n ∧ (n = b ∨ ∃ y ∈ xs, n = .item y) := by
  induction xs generalizing a with
  | nil => simp at hx
  | cons y ys ih =>
    obtain ⟨-, -, h3⟩ := hs
    rcases List.mem_cons.mp hx with rfl | hx
    · refine ⟨_, h3.next_eq, (startOf_cases b ys).imp id ?_⟩
      rintro ⟨z, hz, he⟩
      exact ⟨z, by simp [hz], he⟩
    · obtain ⟨n, hn, hb⟩ := ih h3 hx
      refine ⟨n, hn, hb.imp id ?_⟩
      rintro ⟨z, hz, he⟩
      exact ⟨z, by simp [hz], he⟩

omit [DecidableEq ι] [DecidableEq α] in
/-- What a traversal of a well-formed list meets is what it holds. -/
theorem IsList.inList {l : ι} {xs : List α} {a : α} (hl : IsList h l xs) :
    h.InList l a ↔ a ∈ xs := by
  constructor
  · intro ht
    have key : ∀ n, Relation.TransGen (fun m n => h.next m = some n) (.head l) n →
        n = .tail l ∨ ∃ x ∈ xs, n = .item x := by
      intro n hn
      induction hn with
      | single h1 =>
        rw [hl.seg.next_eq, Option.some.injEq] at h1
        exact h1 ▸ startOf_cases (.tail l) xs
      | tail _ h1 ih =>
        rcases ih with rfl | ⟨x, hx, rfl⟩
        · simp [hl.tail_next] at h1
        · obtain ⟨m, hm, hb⟩ := hl.seg.next_mem hx
          rw [hm, Option.some.injEq] at h1
          exact h1 ▸ hb
    rcases key _ ht with hc | ⟨x, hx, hc⟩
    · simp at hc
    · simpa [Node.item.inj hc] using hx
  · exact fun ha => hl.seg.transGen ha

omit [DecidableEq ι] [DecidableEq α] in
/-- From an element of a well-formed list the pointers lead to its elements only. -/
theorem IsList.mem_of_reaches {l : ι} {xs : List α} {a b : α} (hl : IsList h l xs) (ha : a ∈ xs)
    (hb : Relation.ReflTransGen (fun m n => h.next m = some n) (.item a) (.item b)) : b ∈ xs := by
  have key : ∀ n, Relation.ReflTransGen (fun m n => h.next m = some n) (.item a) n →
      n = .tail l ∨ ∃ x ∈ xs, n = .item x := by
    intro n hn
    induction hn with
    | refl => exact .inr ⟨a, ha, rfl⟩
    | tail _ h1 ih =>
      rcases ih with rfl | ⟨x, hx, rfl⟩
      · simp [hl.tail_next] at h1
      · obtain ⟨m, hm, hc⟩ := hl.seg.next_mem hx
        rw [hm, Option.some.injEq] at h1
        exact h1 ▸ hc
  rcases key _ hb with hc | ⟨x, hx, hc⟩
  · cases hc
  · exact Node.item.inj hc ▸ hx

/-! ### Traversals of any memory -/

/-- An ordered insertion runs along the pointers. -/
theorem Links.findPlace_reaches {l : ι} {less : Node ι α → Bool} :
    ∀ (fuel : ℕ) {n b : Node ι α}, h.findPlace l less fuel n = some b →
      Relation.ReflTransGen (fun m n => h.next m = some n) n b
  | 0, _, _, hf => nomatch hf
  | fuel + 1, n, b, hf => by
      rw [Links.findPlace] at hf
      split at hf
      · cases hf
        exact .refl
      · split at hf
        · cases hf
          exact .refl
        · obtain ⟨m, hm, hf⟩ := Option.bind_eq_some_iff.mp hf
          exact .head hm (Links.findPlace_reaches fuel hf)

/-- An ordered insertion adds its element to the list, and no other. -/
theorem Links.inList_of_insertOrdered {l : ι} {less : Node ι α → Bool} {fuel : ℕ} {e a : α}
    (hi : h.listInsertOrdered fuel l (.item e) less = some h') (ha : h'.InList l a) :
    h.InList l a ∨ a = e := by
  obtain ⟨n, hn, hi⟩ := Option.bind_eq_some_iff.mp hi
  obtain ⟨b, hb, hi⟩ := Option.bind_eq_some_iff.mp hi
  obtain ⟨p, -, rfl⟩ := Option.map_eq_some_iff.mp hi
  have hb : Relation.TransGen (fun m n => h.next m = some n) (.head l) b :=
    .head' hn (h.findPlace_reaches fuel hb)
  have hstep : ∀ m c, (h.link p (.item e) b).next m = some c → m ≠ .item e →
      c = .item e ∨ h.next m = some c := by
    intro m c hc hm
    simp only [Links.link, Function.update_apply, if_neg hm] at hc
    split at hc
    · exact .inl (Option.some.inj hc).symm
    · exact .inr hc
  have hall : ∀ m, Relation.TransGen (fun m n => (h.link p (.item e) b).next m = some n) (.head l) m →
      Relation.TransGen (fun m n => h.next m = some n) (.head l) m ∨ m = .item e := by
    intro m hm
    induction hm with
    | single hc => exact (hstep _ _ hc nofun).symm.imp .single id
    | @tail m c _ hc ih =>
        by_cases hme : m = .item e
        · subst hme
          simp only [Links.link, Function.update_apply] at hc
          split at hc
          · exact .inr (Option.some.inj hc).symm
          · rw [if_true] at hc
            cases hc
            exact .inl hb
        · rcases ih with ih | ih
          · exact (hstep m c hc hme).symm.imp ih.tail id
          · exact absurd ih hme
  exact (hall _ ha).imp id Node.item.inj

/-- A traversal that goes on at node `n` and ends at the tail of `l` comes by node `m`. -/
inductive Links.VisitsFrom (h : Links ι α) (l : ι) : Node ι α → Node ι α → Prop
  | here {n} : n ≠ .tail l → VisitsFrom h l n n
  | next {n n' m} : n ≠ .tail l → h.next n = some n' → VisitsFrom h l n' m → VisitsFrom h l n m

/-- A traversal of list `l` comes by node `m`. -/
def Links.Visits (h : Links ι α) (l : ι) (m : Node ι α) : Prop :=
  ∃ n, h.next (.head l) = some n ∧ h.VisitsFrom l n m

omit [DecidableEq ι] [DecidableEq α] in
theorem Links.not_visitsFrom_tail {l : ι} {m : Node ι α} : ¬ h.VisitsFrom l (.tail l) m := by
  rintro (hn | ⟨hn, -, -⟩) <;> exact hn rfl

omit [DecidableEq ι] [DecidableEq α] in
theorem Links.visitsFrom_iff {l : ι} {n n' m : Node ι α} (hn : n ≠ .tail l)
    (hs : h.next n = some n') : h.VisitsFrom l n m ↔ m = n ∨ h.VisitsFrom l n' m := by
  constructor
  · rintro (_ | ⟨-, hs', hm⟩)
    · exact .inl rfl
    · obtain rfl := Option.some.inj (hs.symm.trans hs')
      exact .inr hm
  · rintro (rfl | hm)
    · exact .here hn
    · exact .next hn hs hm

omit [DecidableEq ι] [DecidableEq α] in
theorem Links.visits_iff {l : ι} {n m : Node ι α} (hs : h.next (.head l) = some n) :
    h.Visits l m ↔ h.VisitsFrom l n m := by
  simp [Links.Visits, hs]

omit [DecidableEq ι] [DecidableEq α] in
theorem Seg.visitsFrom {l : ι} {m : Node ι α} : ∀ {a : Node ι α} {xs : List α},
    Seg h a xs (.tail l) → (h.VisitsFrom l (startOf (.tail l) xs) m ↔ ∃ x ∈ xs, m = .item x)
  | a, [], _ => by simp [startOf, Links.not_visitsFrom_tail]
  | a, x :: xs, hs => by
      have hx := hs.2.2.visitsFrom (m := m)
      have hn : (.item x : Node ι α) ≠ .tail l := nofun
      rw [startOf, Links.visitsFrom_iff hn hs.2.2.next_eq, hx]
      simp

omit [DecidableEq ι] [DecidableEq α] in
/-- A traversal comes by the elements of a list and by nothing else. -/
theorem IsList.visits {l : ι} {xs : List α} {m : Node ι α} (hl : IsList h l xs) :
    h.Visits l m ↔ ∃ x ∈ xs, m = .item x := by
  rw [Links.visits_iff hl.seg.next_eq]
  exact hl.seg.visitsFrom

omit [DecidableEq ι] [DecidableEq α] in
/-- The pointers lead to the tail of one list only. -/
theorem Seg.tail_unique {l l' : ι} : ∀ {a : Node ι α} {xs ys : List α}, Seg h a xs (.tail l) →
    Seg h a ys (.tail l') → l = l'
  | _, [], [], h₁, h₂ => by simpa [h₁.1] using h₂.1
  | _, [], y :: ys, h₁, h₂ => nomatch h₁.1.symm.trans h₂.1
  | _, x :: xs, [], h₁, h₂ => nomatch h₁.1.symm.trans h₂.1
  | a, x :: xs, y :: ys, h₁, h₂ => by
      obtain rfl : x = y := by simpa [h₁.1] using h₂.1
      exact h₁.2.2.tail_unique h₂.2.2

omit [DecidableEq ι] [DecidableEq α] in
/-- An element is in one list only. -/
theorem IsList.disjoint {l l' : ι} {xs ys : List α} {x : α} (h₁ : IsList h l xs)
    (h₂ : IsList h l' ys) (hx : x ∈ xs) (hy : x ∈ ys) : l = l' := by
  obtain ⟨xs₁, xs₂, rfl⟩ := List.append_of_mem hx
  obtain ⟨ys₁, ys₂, rfl⟩ := List.append_of_mem hy
  exact (seg_append_cons.mp h₁.seg).2.tail_unique (seg_append_cons.mp h₂.seg).2

end Intrusive
