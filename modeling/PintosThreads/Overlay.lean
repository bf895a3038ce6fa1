/-
PintosThreads/Overlay.lean

Lists that the operations on the others neither read nor write.

`D` names some of the lists.  `overlay D h m` is the link memory `h` with the
sentinels of these lists taken from another memory `m`.  As long as no pointer
leads to one of these sentinels from outside them (`Sealed`), an operation on
the other lists does the same on `h` and on any overlay of it: it commutes
with `overlay`.  So its result depends on no pointer of the lists in `D`, and
(with `m` the memory itself) it leaves these pointers as they are.

`Overlaid` packages the two facts for the partial operations, one lemma for
each operation of the list module.
-/
import PintosThreads.Intrusive

namespace Intrusive

variable {ι α : Type*} {D : ι → Bool}

/-- `n` is a sentinel of one of the lists `D`. -/
def Node.isOf (D : ι → Bool) : Node ι α → Bool
  | .head l | .tail l => D l
  | .item _ => false

namespace Links

/-- The memory `h` with the sentinels of `D` taken from `m`. -/
def overlay (D : ι → Bool) (h m : Links ι α) : Links ι α where
  next n := if n.isOf D then m.next n else h.next n
  prev n := if n.isOf D then m.prev n else h.prev n

end Links

variable {m h h' : Links ι α}

@[ext] theorem Links.ext {h h' : Links ι α} (hn : h.next = h'.next) (hp : h.prev = h'.prev) :
    h = h' := by
  cases h
  cases h'
  cases hn
  cases hp
  rfl

theorem overlay_next {n : Node ι α} (hn : n.isOf D = false) :
    (h.overlay D m).next n = h.next n := by
  rw [Links.overlay]
  simp only [hn, Bool.false_eq_true, if_false]

theorem overlay_prev {n : Node ι α} (hn : n.isOf D = false) :
    (h.overlay D m).prev n = h.prev n := by
  rw [Links.overlay]
  simp only [hn, Bool.false_eq_true, if_false]

theorem overlay_self (h : Links ι α) : h.overlay D h = h := by
  apply Links.ext <;> funext n <;> exact ite_self _

/-- The pointers outside the sentinels of `D` do not lead to them. -/
structure Sealed (D : ι → Bool) (h : Links ι α) : Prop where
  next : ∀ {n n'}, n.isOf D = false → h.next n = some n' → n'.isOf D = false
  prev : ∀ {n n'}, n.isOf D = false → h.prev n = some n' → n'.isOf D = false

variable [DecidableEq ι] [DecidableEq α]

/-! ### Writing a node -/

/-- A node outside `D` is written alike in a memory and in its overlay. -/
theorem overlay_update {f g : Node ι α → Option (Node ι α)} {n : Node ι α} {v : Option (Node ι α)}
    (hn : n.isOf D = false) :
    Function.update (fun x => if x.isOf D then g x else f x) n v =
      fun x => if x.isOf D then g x else Function.update f n v x := by
  funext x
  obtain rfl | hx := eq_or_ne x n
  · simp [hn]
  · simp [hx]

theorem link_overlay {p e b : Node ι α} (hp : p.isOf D = false) (he : e.isOf D = false)
    (hb : b.isOf D = false) : (h.overlay D m).link p e b = (h.link p e b).overlay D m := by
  apply Links.ext
  · show Function.update (Function.update _ e _) p _ = _
    rw [Links.overlay, overlay_update he, overlay_update hp]
    rfl
  · show Function.update (Function.update _ e _) b _ = _
    rw [Links.overlay, overlay_update he, overlay_update hb]
    rfl

theorem join_overlay {p n : Node ι α} (hp : p.isOf D = false) (hn : n.isOf D = false) :
    (h.overlay D m).join p n = (h.join p n).overlay D m := by
  apply Links.ext
  · show Function.update _ p _ = _
    rw [Links.overlay, overlay_update hp]
    rfl
  · show Function.update _ n _ = _
    rw [Links.overlay, overlay_update hn]
    rfl

theorem listInit_overlay {l : ι} (hl : D l = false) :
    (h.overlay D m).listInit l = (h.listInit l).overlay D m := by
  have hh : (Node.head l : Node ι α).isOf D = false := hl
  have ht : (Node.tail l : Node ι α).isOf D = false := hl
  apply Links.ext
  · show Function.update (Function.update _ (Node.head l) _) (Node.tail l) _ = _
    rw [Links.overlay, overlay_update hh, overlay_update ht]
    rfl
  · show Function.update (Function.update _ (Node.head l) _) (Node.tail l) _ = _
    rw [Links.overlay, overlay_update hh, overlay_update ht]
    rfl

/-- A pointer to a node outside `D` is written. -/
theorem sealed_update {f : Node ι α → Option (Node ι α)} {n : Node ι α} {v : Option (Node ι α)}
    (hf : ∀ {x y}, x.isOf D = false → f x = some y → y.isOf D = false)
    (hv : ∀ y, v = some y → y.isOf D = false) {x y : Node ι α} (hx : x.isOf D = false)
    (h : Function.update f n v x = some y) : y.isOf D = false := by
  obtain rfl | hn := eq_or_ne x n
  · rw [Function.update_self] at h
    exact hv y h
  · rw [Function.update_of_ne hn] at h
    exact hf hx h

theorem Sealed.link (S : Sealed D h) {p e b : Node ι α} (hp : p.isOf D = false)
    (he : e.isOf D = false) (hb : b.isOf D = false) : Sealed D (h.link p e b) := by
  have hse : ∀ y, some e = some y → y.isOf D = false := fun y hy => Option.some.inj hy ▸ he
  constructor <;> intro x y hx hxy
  · exact sealed_update (sealed_update S.next fun y hy => Option.some.inj hy ▸ hb) hse hx hxy
  · exact sealed_update (sealed_update S.prev fun y hy => Option.some.inj hy ▸ hp) hse hx hxy

theorem Sealed.join (S : Sealed D h) {p n : Node ι α} (hp : p.isOf D = false)
    (hn : n.isOf D = false) : Sealed D (h.join p n) := by
  constructor <;> intro x y hx hxy
  · exact sealed_update S.next (fun y hy => Option.some.inj hy ▸ hn) hx hxy
  · exact sealed_update S.prev (fun y hy => Option.some.inj hy ▸ hp) hx hxy

theorem Sealed.listInit (S : Sealed D h) {l : ι} (hl : D l = false) : Sealed D (h.listInit l) := by
  have hh : (Node.head l : Node ι α).isOf D = false := hl
  have ht : (Node.tail l : Node ι α).isOf D = false := hl
  have hsh : ∀ y, some (Node.head l : Node ι α) = some y → y.isOf D = false :=
    fun y hy => Option.some.inj hy ▸ hh
  have hst : ∀ y, some (Node.tail l : Node ι α) = some y → y.isOf D = false :=
    fun y hy => Option.some.inj hy ▸ ht
  have hno : ∀ y, (none : Option (Node ι α)) = some y → y.isOf D = false := fun _ hy => nomatch hy
  constructor <;> intro x y hx hxy
  · exact sealed_update (sealed_update S.next hst) hno hx hxy
  · exact sealed_update (sealed_update S.prev hno) hsh hx hxy

/-! ### The operations of the list module -/

/-- What an operation makes of a memory and of its overlay: the second result is the overlay of
the first, which is sealed. -/
def Overlaid (D : ι → Bool) (m : Links ι α) (x y : Option (Links ι α)) : Prop :=
  y = x.map (·.overlay D m) ∧ ∀ h, x = some h → Sealed D h

theorem listEmpty_overlay {l : ι} (hl : D l = false) :
    (h.overlay D m).listEmpty l = h.listEmpty l := by
  have hh : (Node.head l : Node ι α).isOf D = false := hl
  rw [Links.listEmpty, Links.listEmpty, overlay_next hh]

theorem listFront_overlay {l : ι} (hl : D l = false) :
    (h.overlay D m).listFront l = h.listFront l := by
  have hh : (Node.head l : Node ι α).isOf D = false := hl
  rw [Links.listFront, Links.listFront, listEmpty_overlay hl, overlay_next hh]

theorem Sealed.listFront (S : Sealed D h) {l : ι} {n : Node ι α} (hl : D l = false)
    (hn : h.listFront l = some n) : n.isOf D = false := by
  have hh : (Node.head l : Node ι α).isOf D = false := hl
  rw [Links.listFront] at hn
  split at hn
  · cases hn
  · exact S.next hh hn

theorem Sealed.listInsert (S : Sealed D h) {b e : Node ι α} (hb : b.isOf D = false)
    (he : e.isOf D = false) :
    Overlaid D m (h.listInsert b e) ((h.overlay D m).listInsert b e) := by
  rw [Links.listInsert, Links.listInsert, overlay_prev hb]
  rcases hp : h.prev b with - | p
  · exact ⟨rfl, (by rintro _ ⟨⟩)⟩
  · have hpd := S.prev hb hp
    exact ⟨congrArg some (link_overlay hpd he hb),
      fun h' e' => Option.some.inj e' ▸ S.link hpd he hb⟩

theorem Sealed.listRemove (S : Sealed D h) {e : Node ι α} (he : e.isOf D = false) :
    Overlaid D m (h.listRemove e) ((h.overlay D m).listRemove e) := by
  rw [Links.listRemove, Links.listRemove, overlay_prev he, overlay_next he]
  rcases hp : h.prev e with - | p
  · exact ⟨rfl, (by rintro _ ⟨⟩)⟩
  rcases hn : h.next e with - | n
  · exact ⟨rfl, (by rintro _ ⟨⟩)⟩
  have hpd := S.prev he hp
  have hnd := S.next he hn
  exact ⟨congrArg some (join_overlay hpd hnd), fun h' e' => Option.some.inj e' ▸ S.join hpd hnd⟩

theorem Sealed.findPlace (S : Sealed D h) {l : ι} (less : Node ι α → Bool) : ∀ (fuel : ℕ)
    {n : Node ι α}, n.isOf D = false →
    (h.overlay D m).findPlace l less fuel n = h.findPlace l less fuel n ∧
      ∀ b, h.findPlace l less fuel n = some b → b.isOf D = false
  | 0, _, _ => ⟨rfl, (by rintro _ ⟨⟩)⟩
  | fuel + 1, n, hn => by
      rw [Links.findPlace, Links.findPlace, overlay_next hn]
      split
      · exact ⟨rfl, fun b hb => Option.some.inj hb ▸ hn⟩
      · split
        · exact ⟨rfl, fun b hb => Option.some.inj hb ▸ hn⟩
        · rcases hm : h.next n with - | n'
          · exact ⟨rfl, (by rintro _ ⟨⟩)⟩
          · exact S.findPlace less fuel (S.next hn hm)

theorem Sealed.listInsertOrdered (S : Sealed D h) {fuel : ℕ} {l : ι} {e : Node ι α}
    {less : Node ι α → Bool} (hl : D l = false) (he : e.isOf D = false) :
    Overlaid D m (h.listInsertOrdered fuel l e less)
      ((h.overlay D m).listInsertOrdered fuel l e less) := by
  have hh : (Node.head l : Node ι α).isOf D = false := hl
  rw [Links.listInsertOrdered, Links.listInsertOrdered, overlay_next hh]
  rcases hn : h.next (.head l) with - | n
  · exact ⟨rfl, (by rintro _ ⟨⟩)⟩
  · obtain ⟨heq, hout⟩ := S.findPlace (m := m) (l := l) less fuel (S.next hh hn)
    simp only [Option.bind_eq_bind, Option.bind_some, heq]
    rcases hb : h.findPlace l less fuel n with - | b
    · exact ⟨rfl, (by rintro _ ⟨⟩)⟩
    · exact S.listInsert (hout b hb) he

/-- The front of a list is taken off, the same in a memory and in its overlay. -/
theorem Sealed.listPopFront (S : Sealed D h) {l : ι} (hl : D l = false) :
    (h.overlay D m).listPopFront l = (h.listPopFront l).map (fun x => (x.1, x.2.overlay D m)) ∧
      ∀ n h', h.listPopFront l = some (n, h') → Sealed D h' := by
  rw [Links.listPopFront, Links.listPopFront, listFront_overlay hl]
  rcases hf : h.listFront l with - | n
  · exact ⟨rfl, (by rintro _ _ ⟨⟩)⟩
  · obtain ⟨heq, hs⟩ := S.listRemove (m := m) (S.listFront hl hf)
    simp only [Option.bind_eq_bind, Option.bind_some, heq]
    rcases hr : h.listRemove n with - | h₁
    · exact ⟨rfl, (by rintro _ _ ⟨⟩)⟩
    · refine ⟨rfl, fun n' h' e => ?_⟩
      cases e
      exact hs h₁ hr

end Intrusive
