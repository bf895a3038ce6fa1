/-
PintosThreads/WaitGraph.lean

Values that are handed on along a graph in which everybody points to at most
one other: `succ a` is whom `a` waits for.

In a balanced graph the value of everybody is the greatest of its own base and
the values of those who point to it.  When somebody with value `p` is made to
point to `t`, the balance is lost at `t` alone (`Pending`), and `lift` moves the
loss along the graph until it is gone: whoever it passes has the value `p`.
Library module: nothing here is about the kernel.
-/
import Mathlib.Data.Finset.Card
import Mathlib.Logic.Function.Basic
import Mathlib.Order.Bounds.Basic

namespace WaitGraph

variable {α β : Type*} [DecidableEq α] [LinearOrder β]
variable {succ : α → Option α} {base v v' : α → β} {p : β} {t f x : α} {fuel : ℕ}

/-- Lifts `t`, and whom it points to, up to `p`, as far as they are below it. -/
def lift (succ : α → Option α) (p : β) : ℕ → (α → β) → α → Option (α → β)
  | 0, _, _ => none
  | fuel + 1, v, t =>
      if v t < p then
        match succ t with
        | some h => lift succ p fuel (Function.update v t p) h
        | none => some (Function.update v t p)
      else some v

/-- The values when those of the list have been lifted. -/
def lifted (R : List α) (p : β) (v : α → β) : α → β :=
  fun x => if x ∈ R then p else v x

omit [LinearOrder β] in
theorem lifted_cons (R : List α) : lifted R p (Function.update v t p) = lifted (t :: R) p v := by
  funext x
  by_cases hx : x = t
  · simp [lifted, hx]
  · simp [lifted, hx]

/-! ### Termination -/

/-- **`lift` ends**, on a finite graph of any shape: it lifts each vertex at most once. -/
theorem lift_spec {S : Finset α} (hS : ∀ x ∈ S, ∀ y, succ x = some y → y ∈ S) :
    ∀ (n : ℕ) {v : α → β} {t : α}, t ∈ S → (S.filter (v · < p)).card ≤ n →
      ∃ R : List α, R.Nodup ∧ R.length ≤ n ∧ (∀ x ∈ R, x ∈ S ∧ v x < p) ∧
        ∀ fuel, R.length < fuel → lift succ p fuel v t = some (lifted R p v) := by
  intro n
  induction n with
  | zero =>
      intro v t ht hn
      have hge : ¬ v t < p := by
        intro hlt
        have hmem : t ∈ S.filter (v · < p) := Finset.mem_filter.mpr ⟨ht, hlt⟩
        rw [Finset.card_eq_zero.mp (Nat.le_zero.mp hn)] at hmem
        exact absurd hmem (Finset.notMem_empty t)
      refine ⟨[], .nil, le_rfl, nofun, fun fuel hf => ?_⟩
      obtain ⟨m, rfl⟩ := Nat.exists_eq_succ_of_ne_zero (Nat.ne_of_gt hf)
      rw [lift, if_neg hge]
      rfl
  | succ n ih =>
      intro v t ht hn
      by_cases hlt : v t < p
      · -- one vertex less is below `p` when `t` has been lifted
        have hsub : S.filter (Function.update v t p · < p) = (S.filter (v · < p)).erase t := by
          ext x
          by_cases hx : x = t
          · simp [hx]
          · simp [hx]
        have hcard : (S.filter (Function.update v t p · < p)).card ≤ n := by
          have hmem : t ∈ S.filter (v · < p) := Finset.mem_filter.mpr ⟨ht, hlt⟩
          rw [hsub, Finset.card_erase_of_mem hmem]
          omega
        rcases hs : succ t with - | h
        · refine ⟨[t], List.nodup_singleton t, by simp, by simp [ht, hlt], fun fuel hf => ?_⟩
          obtain ⟨m, rfl⟩ := Nat.exists_eq_succ_of_ne_zero (Nat.ne_of_gt (Nat.zero_lt_of_lt hf))
          rw [lift, if_pos hlt, hs]
          exact congrArg some (by rw [← lifted_cons]; rfl)
        · obtain ⟨R, hnd, hlen, hR, hfuel⟩ := ih (hS t ht h hs) hcard
          have htR : t ∉ R := fun hmem => by simpa using (hR t hmem).2
          refine ⟨t :: R, List.nodup_cons.mpr ⟨htR, hnd⟩, by simpa using hlen, ?_, ?_⟩
          · intro x hx
            rcases List.mem_cons.mp hx with rfl | hx
            · exact ⟨ht, hlt⟩
            · obtain ⟨hxS, hxp⟩ := hR x hx
              have hxt : x ≠ t := fun e => htR (e ▸ hx)
              exact ⟨hxS, by simpa [hxt] using hxp⟩
          · intro fuel hf
            obtain ⟨m, rfl⟩ := Nat.exists_eq_succ_of_ne_zero (Nat.ne_of_gt (Nat.zero_lt_of_lt hf))
            rw [lift, if_pos hlt, hs]
            show lift succ p m (Function.update v t p) h = _
            rw [hfuel m (by simpa using hf), lifted_cons]
      · refine ⟨[], .nil, Nat.zero_le _, nofun, fun fuel hf => ?_⟩
        obtain ⟨m, rfl⟩ := Nat.exists_eq_succ_of_ne_zero (Nat.ne_of_gt hf)
        rw [lift, if_neg hlt]
        rfl

/-! ### Balance -/

/-- The value of `x` is the greatest of its base and the values of those who point to it. -/
def Balanced (base : α → β) (succ : α → Option α) (v : α → β) (x : α) : Prop :=
  IsGreatest (insert (base x) (v '' {y | succ y = some x})) (v x)

omit [DecidableEq α] in
theorem balanced_iff : Balanced base succ v x ↔
    (base x ≤ v x ∧ ∀ y, succ y = some x → v y ≤ v x) ∧
      (v x = base x ∨ ∃ y, succ y = some x ∧ v y = v x) := by
  have hmem : v x ∈ insert (base x) (v '' {y | succ y = some x}) ↔
      v x = base x ∨ ∃ y, succ y = some x ∧ v y = v x := Iff.rfl
  have hle : v x ∈ upperBounds (insert (base x) (v '' {y | succ y = some x})) ↔
      base x ≤ v x ∧ ∀ y, succ y = some x → v y ≤ v x := by
    rw [upperBounds_insert, Set.mem_inter_iff, Set.mem_Ici]
    exact and_congr_right fun _ => Set.forall_mem_image
  rw [Balanced, IsGreatest, hmem, hle, and_comm]

/-- `f` with value `p` points to `t`, whose value takes account of everybody else; it has its
reason, unless it is below `p`. -/
structure Pending (base : α → β) (succ : α → Option α) (v : α → β) (p : β) (f t : α) : Prop where
  edge : succ f = some t
  value : v f = p
  base_le : base t ≤ v t
  le : ∀ y, y ≠ f → succ y = some t → v y ≤ v t
  attained : p ≤ v t → v t = base t ∨ ∃ y, succ y = some t ∧ v y = v t

omit [DecidableEq α] in
/-- The balance is not lost where the value is high enough. -/
theorem Pending.balanced (h : Pending base succ v p f t) (hp : p ≤ v t) :
    Balanced base succ v t := by
  refine balanced_iff.mpr ⟨⟨h.base_le, fun y hy => ?_⟩, h.attained hp⟩
  obtain rfl | hf := eq_or_ne y f
  · exact h.value.trans_le hp
  · exact h.le y hf hy

/-- Lifting `t` restores its balance. -/
theorem Pending.lift (h : Pending base succ v p f t) (hp : v t < p)
    (hself : ∀ x, succ x ≠ some x) : Balanced base succ (Function.update v t p) t := by
  have hne : ∀ y, succ y = some t → y ≠ t := by
    rintro y hy rfl
    exact hself y hy
  refine balanced_iff.mpr ⟨⟨?_, fun y hy => ?_⟩, .inr ⟨f, h.edge, ?_⟩⟩
  · simpa using h.base_le.trans hp.le
  · rw [Function.update_of_ne (hne y hy), Function.update_self]
    obtain rfl | hf := eq_or_ne y f
    · exact h.value.le
    · exact (h.le y hf hy).trans hp.le
  · rw [Function.update_of_ne (hne f h.edge), Function.update_self, h.value]

/-- The balance of a vertex depends on its own value and on those who point to it. -/
theorem Balanced.update (h : Balanced base succ v x) (hx : x ≠ t) (ht : succ t ≠ some x) (p : β) :
    Balanced base succ (Function.update v t p) x := by
  have hy : ∀ y, succ y = some x → y ≠ t := by
    rintro y hy rfl
    exact ht hy
  obtain ⟨⟨hb, hle⟩, ha⟩ := balanced_iff.mp h
  refine balanced_iff.mpr ⟨⟨?_, fun y hs => ?_⟩, ?_⟩
  · rwa [Function.update_of_ne hx]
  · rw [Function.update_of_ne hx, Function.update_of_ne (hy y hs)]
    exact hle y hs
  · rw [Function.update_of_ne hx]
    refine ha.imp id ?_
    rintro ⟨y, hs, e⟩
    exact ⟨y, hs, by rwa [Function.update_of_ne (hy y hs)]⟩

/-- Whom a lifted vertex points to takes account of everybody else. -/
theorem Balanced.pending (h : Balanced base succ v x) (hs : succ t = some x) (hx : x ≠ t)
    (hp : v t < p) : Pending base succ (Function.update v t p) p t x := by
  obtain ⟨⟨hb, hle⟩, ha⟩ := balanced_iff.mp h
  refine ⟨hs, Function.update_self .., ?_, fun y hy hys => ?_, ?_⟩
  · rwa [Function.update_of_ne hx]
  · rw [Function.update_of_ne hx, Function.update_of_ne hy]
    exact hle y hys
  · rw [Function.update_of_ne hx]
    intro hpx
    refine ha.imp id ?_
    rintro ⟨y, hys, e⟩
    have hyt : y ≠ t := by
      rintro rfl
      exact absurd (hpx.trans_eq e.symm) (not_le.mpr hp)
    exact ⟨y, hys, by rwa [Function.update_of_ne hyt]⟩

/-- **`lift` restores the balance** of the whole graph, if nobody points to himself. -/
theorem lift_balanced (hself : ∀ x, succ x ≠ some x) :
    ∀ (fuel : ℕ) {v : α → β} {t f : α}, Pending base succ v p f t →
      (∀ x, x ≠ t → Balanced base succ v x) → lift succ p fuel v t = some v' →
      ∀ x, Balanced base succ v' x := by
  intro fuel
  induction fuel with
  | zero => exact fun _ _ h => nomatch h
  | succ fuel ih =>
      intro v t f hpend hall h
      rw [WaitGraph.lift] at h
      split at h
      case isFalse hp =>
        cases h
        intro x
        obtain rfl | hx := eq_or_ne x t
        · exact hpend.balanced (not_lt.mp hp)
        · exact hall x hx
      case isTrue hp =>
        -- the balance of `t` is restored, and lost at most where `t` points to
        have hrest : ∀ x, succ t ≠ some x → Balanced base succ (Function.update v t p) x := by
          intro x hs
          obtain rfl | hx := eq_or_ne x t
          · exact hpend.lift hp hself
          · exact (hall x hx).update hx hs p
        split at h
        case h_1 s hs =>
          have hst : s ≠ t := by
            rintro rfl
            exact hself s hs
          refine ih ((hall s hst).pending hs hst hp) (fun x hx => hrest x ?_) h
          rw [hs]
          exact fun e => hx (Option.some.inj e).symm
        case h_2 hs =>
          cases h
          exact fun x => hrest x (by rw [hs]; exact nofun)

end WaitGraph
