import Datacenter.Proofs.Rational

/-!
# Laws that floating point keeps

`Scalar` promises no law. The few laws that hold of exact numbers and of binary floating point alike
are gathered in `LawfulScalar`, those of how the orders go together in `OrderedScalar`, and those of
taking fractions of an amount in `FractionScalar`; what is proved from them holds of both kinds of
numbers.
-/

namespace Datacenter

/-- Numbers of which the following is known, be they rounded or not. -/
class LawfulScalar (α : Type) [Scalar α] : Prop extends Std.Irrefl (α := α) (· < ·) where
  /-- Values are ordered. -/
  le_trans : ∀ {x y z : α}, x ≤ y → y ≤ z → x ≤ z
  /-- Zero is a value. -/
  zero_beq : ((0 : α) == 0) = true
  /-- A fraction of something is not more than all of it. -/
  fraction_le : ∀ {x u : α}, 0 ≤ x → 0 < x * Scalar.clamp u 0 1 → x * Scalar.clamp u 0 1 ≤ x

/-- Numbers whose orders go together: a number that is compared is a value. -/
class OrderedScalar (α : Type) [Scalar α] : Prop extends LawfulScalar α where
  /-- What is below is at most. -/
  le_of_lt : ∀ {x y : α}, x < y → x ≤ y
  /-- What is at least something equals itself. -/
  beq_of_le : ∀ {x y : α}, x ≤ y → (y == y) = true
  /-- Zero is at most itself. -/
  zero_le_zero : (0 : α) ≤ 0

/-- Numbers of which fractions can be taken: values are compared with one another, and a fraction of
an amount is an amount. -/
class FractionScalar (α : Type) [Scalar α] : Prop extends OrderedScalar α where
  /-- What is at most something is not above it. -/
  not_lt_of_le : ∀ {x y : α}, x ≤ y → ¬ y < x
  /-- Of two values, one is at most the other one. -/
  le_of_not_lt : ∀ {x y : α}, (x == x) = true → (y == y) = true → ¬ x < y → y ≤ x
  /-- Zero is at most one. -/
  zero_le_one : (0 : α) ≤ 1
  /-- Taking nothing from an amount leaves all of it. -/
  sub_zero : ∀ {x : α}, 0 ≤ x → x - 0 = x
  /-- What is left when a fraction has been taken from one is a fraction. -/
  complement_bounds : ∀ {u : α}, 0 ≤ u → u ≤ 1 → 0 ≤ 1 - u ∧ 1 - u ≤ 1
  /-- An amount that does not exceed a finite one is finite. -/
  isFinite_of_le : ∀ {x y : α}, Scalar.isFinite x = true → 0 ≤ y → y ≤ x →
    Scalar.isFinite y = true
  /-- A fraction of a finite amount is an amount that does not exceed it. -/
  mul_bounds : ∀ {x u : α}, Scalar.isFinite x = true → 0 ≤ x → 0 ≤ u → u ≤ 1 →
    0 ≤ x * u ∧ x * u ≤ x

namespace Rational

/-- A fraction is at most one. -/
theorem clamp_le_one (x : ℚ) : Scalar.clamp x 0 1 ≤ 1 := by
  rw [clamp_eq]
  exact min_le_left 1 _

theorem mul_clamp_le {x : ℚ} (hx : 0 ≤ x) (u : ℚ) : x * Scalar.clamp u 0 1 ≤ x :=
  mul_le_of_le_one_right hx (clamp_le_one u)

end Rational

instance : LawfulScalar ℚ where
  irrefl := lt_irrefl
  le_trans := le_trans
  zero_beq := beq_self_eq_true _
  fraction_le {_ u} hx _ := Rational.mul_clamp_le hx u

instance : OrderedScalar ℚ where
  le_of_lt h := h.le
  beq_of_le _ := beq_self_eq_true _
  zero_le_zero := le_refl (0 : ℚ)

instance : FractionScalar ℚ where
  not_lt_of_le := not_lt_of_ge
  le_of_not_lt _ _ := not_lt.mp
  zero_le_one := zero_le_one' ℚ
  sub_zero _ := sub_zero _
  complement_bounds hu hone := ⟨sub_nonneg.mpr hone, sub_le_self 1 hu⟩
  isFinite_of_le _ _ _ := rfl
  mul_bounds _ hx hu hone := ⟨mul_nonneg hx hu, mul_le_of_le_one_right hx hone⟩

namespace FractionScalar

variable {α : Type} [Scalar α] [FractionScalar α] {x y z : α}

/-- What a value is below it is also below if that grows. -/
theorem lt_of_lt_of_le (hx : (x == x) = true) (hxy : x < y) (hyz : y ≤ z) : x < z :=
  Decidable.byContradiction fun hnot =>
    have hzx : z ≤ x := le_of_not_lt hx (OrderedScalar.beq_of_le hyz) hnot
    not_lt_of_le (LawfulScalar.le_trans hyz hzx) hxy

/-- What is below a value is also below it if it shrinks to a value. -/
theorem lt_of_le_of_lt (hx : (x == x) = true) (hz : (z == z) = true) (hxy : x ≤ y) (hyz : y < z) :
    x < z :=
  Decidable.byContradiction fun hnot =>
    have hzx : z ≤ x := le_of_not_lt hx hz hnot
    not_lt_of_le (LawfulScalar.le_trans hzx hxy) hyz

end FractionScalar

namespace Scalar

variable {α : Type} [Scalar α] [LawfulScalar α]

/-- The largest of equal numbers is this number, or zero if that is larger. -/
theorem largest_replicate_succ (n : Nat) (x : α) :
    largest (List.replicate (n + 1) x) = if 0 < x then x else 0 := by
  have hlarger : ∀ y : α, larger y y = y := by
    intro y
    unfold larger
    split <;> rfl
  have hfold : ∀ (m : Nat) (y : α), larger y x = y → (List.replicate m x).foldl larger y = y := by
    intro m
    induction m with
    | zero => exact fun _ _ => rfl
    | succ m ih =>
      intro y hy
      rw [List.replicate_succ, List.foldl_cons, hy, ih y hy]
  have hzero : larger 0 x = if (0 : α) < x then x else 0 := by
    unfold larger
    simp [LawfulScalar.zero_beq]
  rw [largest, List.replicate_succ, List.foldl_cons, hzero]
  split
  · exact hfold n x (hlarger x)
  · rename_i hx
    exact hfold n 0 (by rw [hzero, if_neg hx])

theorem largest_replicate (n : Nat) (x : α) :
    largest (List.replicate n x) = 0 ∨ 0 < x ∧ largest (List.replicate n x) = x := by
  cases n with
  | zero => exact .inl rfl
  | succ n =>
    rw [largest_replicate_succ]
    split
    · exact .inr ⟨‹_›, rfl⟩
    · exact .inl rfl

/-- What is fast enough for a machine at full speed is fast enough for every fraction of it. -/
theorem largest_replicate_le {n : Nat} {x u c : α} (hx : 0 ≤ x) (hc : x ≤ c) :
    largest (List.replicate n (x * clamp u 0 1)) ≤ c := by
  rcases largest_replicate n (x * clamp u 0 1) with hzero | ⟨hpos, hlargest⟩
  · rw [hzero]
    exact LawfulScalar.le_trans hx hc
  · rw [hlargest]
    exact LawfulScalar.le_trans (LawfulScalar.fraction_le hx hpos) hc

omit [LawfulScalar α] in
/-- The largest of some numbers is not negative, be they values or not. -/
theorem zero_le_largest [OrderedScalar α] (xs : List α) : 0 ≤ largest xs := by
  have hfold : ∀ x : α, 0 ≤ x → 0 ≤ xs.foldl larger x := by
    induction xs with
    | nil => exact fun _ hx => hx
    | cons y ys ih =>
      intro x hx
      refine ih _ ?_
      unfold larger
      rw [OrderedScalar.beq_of_le hx, Bool.not_true, Bool.or_false]
      split
      · exact LawfulScalar.le_trans hx (OrderedScalar.le_of_lt (of_decide_eq_true ‹_›))
      · exact hx
  exact hfold 0 OrderedScalar.zero_le_zero

omit [LawfulScalar α] in
/-- The largest of equal amounts is not below them. -/
theorem le_largest_replicate [FractionScalar α] {n : Nat} {x : α} (hn : n ≠ 0) (hx : 0 ≤ x) :
    x ≤ largest (List.replicate n x) := by
  have hvalue := OrderedScalar.beq_of_le hx
  obtain ⟨m, rfl⟩ := Nat.exists_eq_succ_of_ne_zero hn
  rw [Nat.succ_eq_add_one, largest_replicate_succ]
  split
  · exact FractionScalar.le_of_not_lt hvalue hvalue (Std.Irrefl.irrefl x)
  · exact FractionScalar.le_of_not_lt LawfulScalar.zero_beq hvalue ‹_›

end Scalar

end Datacenter
