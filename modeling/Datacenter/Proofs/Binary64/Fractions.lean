import Datacenter.Proofs.Binary64.Rounding

/-!
# What a fraction leaves

Binary floating point is a `FractionScalar`: a fraction of an amount is an amount, and so is what is
left when it is taken from one. Products have been dealt with in
`Datacenter/Proofs/Binary64/Rounding.lean`. A difference is computed with both mantissas at the
lower one of the two exponents, so what is left of one has a mantissa `d ≤ 2 ^ 52 * 2 ^ j` at the
exponent `-52 - j`, and is rounded like a product with a fraction.
-/

namespace Datacenter.Binary64

open Float.Model Float.Model.UnpackedFloat

/-! ## Differences -/

theorem sub_eq {x y : Binary64} (hx : x.isNaN = false) (hy : y.isNaN = false) :
    x - y = ofResult (x.toFloat - y.toFloat) := by
  show (if x.isNaN then x else if y.isNaN then y else ofResult (x.toFloat - y.toFloat)) = _
  rw [hx, hy, if_neg Bool.false_ne_true, if_neg Bool.false_ne_true]

/-- Taking nothing from an amount leaves all of it, its sign included. -/
theorem sub_zero_eq {x : Binary64} (h : 0 ≤ x) : x - 0 = x := by
  rcases nonneg_cases h with hzero | rfl | ⟨m, e, hx⟩
  · rcases eq_of_magnitude hzero with rfl | rfl <;> decide
  · decide
  have hmodel : (x.toFloat - (0 : Binary64).toFloat).toModel
      = Float.Model.pack (.finite .positive m e hx.pos) := by
    have hsub : (x.toFloat - (0 : Binary64).toFloat).toModel
        = Float.Model.pack (sub Format.binary64 x.unpacked (.zero .positive)) := rfl
    rw [hsub, hx.unpacked]
    rfl
  have hbits : (ofResult (x.toFloat - (0 : Binary64).toFloat)).bits = x.bits :=
    UInt64.toBitVec_inj.mp ((bits_ofResult hmodel hx.isNaN_unpack).trans hx.pack)
  rw [sub_eq h.2.1 (by decide)]
  exact congrArg Binary64.mk hbits

/-! ## What is left of one -/

/-- One, as it is read. -/
theorem reads_one : (1 : Binary64).Reads (2 ^ 52) (-52) where
  pos := by decide
  mantissa := by decide
  low := by decide
  high := by decide
  unpacked := by rfl
  normal := .inr (le_refl _)
  bits := by decide

/-- A number up to one is rounded to one that does not come after one. -/
theorem upTo_round {d j : Nat} (h : d ≤ 2 ^ 52 * 2 ^ j) :
    UpTo (2 ^ 52) (-52) (round Format.binary64 .positive d (-52 - j)) := by
  generalize hs : (-52 - j
    - Format.binary64.targetExponent (totalExponent d (-52 - j)) : Int).toNat = s
  have hround : round Format.binary64 .positive d (-52 - j)
      = roundWithAccuracy Format.binary64 .positive (d <<< s) (-52 - (j + s : Nat)) .exact := by
    have hexponent : (-52 - (j + s : Nat) : Int) = -52 - j - s := by omega
    rw [hexponent, ← hs]
    rfl
  have hshifted : d <<< s ≤ 2 ^ 52 * 2 ^ (j + s) := by
    rw [Nat.shiftLeft_eq, Nat.pow_add, ← Nat.mul_assoc]
    exact Nat.mul_le_mul_right _ h
  rw [hround]
  exact (roundWithAccuracy_le reads_one.toInFormat reads_one.normal hshifted .positive).imp_left
    fun h => ⟨_, h⟩

theorem upTo_sub {n k : Nat} (hn : 0 < n) (hle : n ≤ 2 ^ k) :
    UpTo (2 ^ 52) (-52) (sub Format.binary64 (.finite .positive (2 ^ 52) (-52) reads_one.pos)
      (.finite .positive n (-k) hn)) := by
  obtain ⟨j, i, hmin, hone, hother, hsum⟩ : ∃ j i : Nat, min (-52 : Int) (-k) = -52 - j
      ∧ ((-52 : Int) - (-52 - j)).toNat = j ∧ ((-k : Int) - (-52 - j)).toNat = i
      ∧ k + i = 52 + j :=
    ⟨k - 52, 52 - k, by omega, by omega, by omega, by omega⟩
  have hsub : sub Format.binary64 (.finite .positive (2 ^ 52) (-52) reads_one.pos)
      (.finite .positive n (-k) hn)
        = normalize Format.binary64 ((decreaseExponent (2 ^ 52) (-52) (min (-52) (-k))).1
          - (decreaseExponent n (-k) (min (-52) (-k))).1 : Int) (min (-52) (-k)) .positive := rfl
  rw [hmin, decreaseExponent, decreaseExponent, hone, hother] at hsub
  have hsmall : n <<< i ≤ 2 ^ 52 <<< j := by
    rw [Nat.shiftLeft_eq, Nat.shiftLeft_eq, ← Nat.pow_add, ← hsum, Nat.pow_add]
    exact Nat.mul_le_mul_right _ hle
  obtain ⟨d, hd, hdle⟩ : ∃ d : Nat, ((2 ^ 52 <<< j : Nat) - (n <<< i : Nat) : Int) = d
      ∧ d ≤ 2 ^ 52 * 2 ^ j :=
    ⟨2 ^ 52 <<< j - n <<< i, by omega, by rw [← Nat.shiftLeft_eq]; exact Nat.sub_le _ _⟩
  rw [hsub, hd]
  by_cases hzero : d = 0
  · exact .inl ⟨.positive, by rw [hzero]; rfl⟩
  · have hnormalize : normalize Format.binary64 d (-52 - j) .positive
        = round Format.binary64 .positive d (-52 - j) := by
      have hgt : compare (d : Int) 0 = .gt := by
        rw [compare_gt_iff_gt]
        omega
      rw [UnpackedFloat.normalize, hgt]
      rfl
    rw [hnormalize]
    exact upTo_round hdle

/-- What is left of one when a fraction is taken from it is a fraction. -/
theorem complement_bounds {u : Binary64} (hu : 0 ≤ u) (hone : u ≤ 1) :
    0 ≤ 1 - u ∧ 1 - u ≤ 1 := by
  rcases nonneg_cases hu with hzero | rfl | ⟨n, e, hread⟩
  · rcases eq_of_magnitude hzero with rfl | rfl <;> decide
  · exact absurd hone (by decide)
  obtain ⟨k, rfl, hnk⟩ := hread.of_le_one hone
  have hmodel : ((1 : Binary64).toFloat - u.toFloat).toModel
      = Float.Model.pack (sub Format.binary64 (.finite .positive (2 ^ 52) (-52) reads_one.pos)
        (.finite .positive n (-k) hread.pos)) := by
    rw [← hread.unpacked]
    rfl
  rw [sub_eq (by decide) hu.2.1]
  exact (upTo_sub hread.pos hnk).bounds reads_one hmodel

/-! ## The laws -/

theorem ne_infinity_of_isFinite {x : Binary64} (h : x.isFinite = true) : x ≠ infinity := by
  rintro rfl
  exact absurd h (by decide)

theorem isFinite_of_le {x y : Binary64} (hfinite : x.isFinite = true) (hy : 0 ≤ y) (hle : y ≤ x) :
    y.isFinite = true := by
  rcases nonneg_cases hy with hzero | rfl | ⟨m, e, hread⟩
  · rw [isFinite, hzero]
    decide
  · -- infinity is above everything that is finite
    rcases nonneg_cases (LawfulScalar.le_trans hy hle) with hzero | rfl | ⟨m, e, hread⟩
    · rcases eq_of_magnitude hzero with rfl | rfl <;> exact absurd hle (by decide)
    · exact absurd hfinite (by decide)
    · have hbits := (le_iff_of_bits (by decide) hread.bits_le).mp hle
      exact absurd hbits (Nat.not_le.mpr hread.bits_lt)
  · rw [isFinite, (magnitude_of_bits hread.bits_le).2, decide_eq_true_eq]
    exact UInt64.lt_iff_toNat_lt.mpr hread.bits_lt

theorem isNaN_of_beq {x : Binary64} (h : (x == x) = true) : x.isNaN = false := by
  have h : (!x.isNaN && !x.isNaN && x.rank == x.rank) = true := h
  simpa using h

instance : FractionScalar Binary64 where
  not_lt_of_le h h' := UInt64.not_lt.mpr h.2.2 h'.2.2
  le_of_not_lt hx hy := le_of_not_lt (isNaN_of_beq hx) (isNaN_of_beq hy)
  zero_le_one := by decide
  sub_zero := sub_zero_eq
  complement_bounds := complement_bounds
  isFinite_of_le := isFinite_of_le
  mul_bounds hfinite := mul_bounds (ne_infinity_of_isFinite hfinite)

end Datacenter.Binary64
