import Datacenter.Proofs.Binary64.Order
import Datacenter.Proofs.Scalar

/-!
# Products with fractions

Binary floating point is a `LawfulScalar`. Its order is that of words, so the laws of the order are
read off. What has to be proved is that a product with a fraction does not exceed the other factor,
although it is rounded (`Binary64.mul_le_of_le_one`).

## Shape of the proof

A positive finite number is a mantissa `m` and an exponent `e` (`Binary64.Reads`), and its pattern
is `(e + 1074) * 2 ^ 52 + m`: patterns are ordered as the numbers are, across exponents too. A
fraction is some `n / 2 ^ k` with `n ≤ 2 ^ k`, so the exact product has the mantissa
`m * n ≤ m * 2 ^ k` at the exponent `e - k`. Shifted to `e` it does not exceed `m`, and if it
reaches `m` then nothing has been shifted out that could round it up (`shiftRight_le`). Shifted to a
lower exponent, which leaves more digits, it comes before every pattern with the exponent `e`.
-/

namespace Datacenter.Binary64

open Float.Model Float.Model.UnpackedFloat

/-! ## Rounding -/

/-- A mantissa and an exponent for which there is a place in the format. -/
structure InFormat (m : Nat) (e : Int) : Prop where
  pos : 0 < m
  mantissa : m < 2 ^ 53
  low : -1074 ≤ e
  high : e < 972

/-- A mantissa that does not exceed a bound is shifted to one that does not, and if it reaches the
bound then nothing is lost. -/
theorem shiftRight_le {K s : Nat} {em : ExtendedMantissa} (hle : em.mantissa ≤ K * 2 ^ s)
    (hround : em.roundBit = false) (hsticky : em.stickyBit = false) :
    (em >>> s).mantissa ≤ K ∧ ((em >>> s).mantissa = K →
      (em >>> s).roundBit = false ∧ (em >>> s).stickyBit = false) := by
  induction s generalizing K with
  | zero =>
    have hsame : em >>> 0 = em := rfl
    rw [hsame]
    exact ⟨by simpa using hle, fun _ => ⟨hround, hsticky⟩⟩
  | succ s ih =>
    have htwice : em.mantissa ≤ 2 * K * 2 ^ s := by
      rwa [Nat.mul_comm 2 K, Nat.mul_assoc, ← Nat.pow_succ']
    obtain ⟨hmantissa, hclean⟩ := ih htwice
    have hstep : em >>> (s + 1) = (em >>> s).shiftRightOne := rfl
    rw [hstep]
    simp only [ExtendedMantissa.shiftRightOne]
    refine ⟨by omega, fun hK => ?_⟩
    have heven : (em >>> s).mantissa = 2 * K := by omega
    obtain ⟨hr, hs⟩ := hclean heven
    simp [hr, hs, heven]

theorem roundedMantissa_le {K : Nat} {em : ExtendedMantissa} (hle : em.mantissa ≤ K)
    (hclean : em.mantissa = K → em.roundBit = false ∧ em.stickyBit = false) :
    em.roundedMantissa ≤ K := by
  obtain ⟨m, r, s⟩ := em
  dsimp only at hle hclean
  unfold ExtendedMantissa.roundedMantissa ExtendedMantissa.accuracy Accuracy.roundToNearestEven
  cases r <;> cases s <;> simp at hclean ⊢ <;> omega

theorem log2_lt_of_lt {m n : Nat} (hn : 0 < n) (h : m < 2 ^ n) : m.log2 < n := by
  by_cases hm : m = 0
  · simp [hm, hn]
  · exact (Nat.log2_lt hm).mpr h

/-- The exponent to which a number is shifted. -/
theorem targetExponent_eq (m : Nat) (e : Int) :
    Format.binary64.targetExponent (totalExponent m e) = max (m.log2 + e - 52) (-1074) := by
  have hbits : Format.binary64.mantissaBits = 53 := rfl
  simp only [Format.targetExponent, totalExponent, hbits, Format.minExponent]
  omega

/-- A rounded mantissa is shifted once more if rounding has made it too long, and the place of the
number stays the same. -/
theorem shiftToTargetExponent_exact {m : Nat} {e : Int} (hm : m ≤ 2 ^ 53) (he : -1074 ≤ e) :
    ∃ m' e', shiftToTargetExponent Format.binary64 m e .exact = (⟨m', false, false⟩, e')
      ∧ m' < 2 ^ 53 ∧ -1074 ≤ e' ∧ (e' = e ∨ 2 ^ 52 ≤ m')
      ∧ e' * 2 ^ 52 + m' = e * 2 ^ 52 + m := by
  unfold shiftToTargetExponent shiftToExponent
  rw [targetExponent_eq]
  by_cases hlong : m = 2 ^ 53
  · refine ⟨2 ^ 52, e + 1, ?_, by decide, by omega, .inr (le_refl _), by omega⟩
    have hshift : (max ((2 ^ 53 : Nat).log2 + e - 52) (-1074) - e).toNat = 1 := by
      rw [Nat.log2_two_pow]
      omega
    subst hlong
    simp only [hshift]
    rfl
  · refine ⟨m, e, ?_, by omega, he, .inl rfl, rfl⟩
    have hlog := log2_lt_of_lt (by decide) (show m < 2 ^ 53 by omega)
    have hshift : (max ((m.log2 : Int) + e - 52) (-1074) - e).toNat = 0 := by omega
    simp only [hshift, Nat.cast_zero, add_zero]
    rfl

/-- A number times a fraction `n / 2 ^ k` is rounded to a number that does not come after it. -/
theorem roundWithAccuracy_le {m n k : Nat} {e : Int} (h : InFormat m e)
    (hnormal : e = -1074 ∨ 2 ^ 52 ≤ m) (hn : n ≤ m * 2 ^ k) (s : Sign) :
    roundWithAccuracy Format.binary64 s n (e - k) .exact = .zero s
      ∨ ∃ m' e', ∃ h' : InFormat m' e',
        roundWithAccuracy Format.binary64 s n (e - k) .exact = .finite s m' e' h'.pos
          ∧ e' * 2 ^ 52 + m' ≤ e * 2 ^ 52 + m := by
  obtain ⟨-, hm, he, hfinite⟩ := h
  generalize hs : (max ((n.log2 : Int) + (e - k) - 52) (-1074) - (e - k)).toNat = shift
  -- the shift ends at `e` at the latest, and leaves at most 53 digits
  have hlog : n.log2 < 53 + k := by
    apply log2_lt_of_lt (by omega)
    calc n ≤ m * 2 ^ k := hn
      _ < 2 ^ 53 * 2 ^ k := Nat.mul_lt_mul_of_pos_right hm (Nat.two_pow_pos k)
      _ = 2 ^ (53 + k) := (Nat.pow_add ..).symm
  have hbound : n ≤ 2 ^ 53 * 2 ^ shift := by
    rw [← Nat.pow_add]
    have hlt : n < 2 ^ (n.log2 + 1) := Nat.lt_log2_self
    exact hlt.le.trans (Nat.pow_le_pow_right (by decide) (by omega))
  have hfirst : shiftToTargetExponent Format.binary64 n (e - k) .exact
      = ((⟨n, false, false⟩ : ExtendedMantissa) >>> shift, e - k + shift) := by
    unfold shiftToTargetExponent shiftToExponent
    rw [targetExponent_eq, ← hs]
    rfl
  generalize hem : (⟨n, false, false⟩ : ExtendedMantissa) >>> shift = em at hfirst
  have hrounded : ∀ K, n ≤ K * 2 ^ shift → em.roundedMantissa ≤ K := by
    intro K hK
    have hstart : (⟨n, false, false⟩ : ExtendedMantissa).mantissa ≤ K * 2 ^ shift := hK
    obtain ⟨hle, hclean⟩ := shiftRight_le hstart rfl rfl
    rw [hem] at hle hclean
    exact roundedMantissa_le hle hclean
  have hlong := hrounded (2 ^ 53) hbound
  have hplace : (e - k + shift) * 2 ^ 52 + em.roundedMantissa ≤ e * 2 ^ 52 + m := by
    by_cases hsame : shift = k
    · have hle := hrounded m (hsame ▸ hn)
      omega
    · omega
  obtain ⟨m', e', hsecond, hm', he', hcarry, hplace'⟩ :=
    shiftToTargetExponent_exact hlong (show -1074 ≤ e - k + shift by omega)
  unfold roundWithAccuracy
  rw [hfirst]
  dsimp only
  rw [hsecond]
  dsimp only
  by_cases hzero : m' = 0
  · exact .inl (dif_pos hzero)
  · exact .inr ⟨m', e', ⟨Nat.pos_of_ne_zero hzero, hm', he', by omega⟩, dif_neg hzero, by omega⟩

/-! ## Reading and writing -/

theorem toNat_packComponents (e : BitVec 11) (m : BitVec 52) :
    (packComponents Format.binary64 .positive e m).toNat = e.toNat * 2 ^ 52 + m.toNat := by
  have happend : (packComponents Format.binary64 .positive e m).toNat
      = ((0#1 ++ e) ++ m).toNat := rfl
  rw [happend, BitVec.toNat_append, ← Nat.shiftLeft_add_eq_or_of_lt m.isLt, Nat.shiftLeft_eq,
    BitVec.toNat_append]
  simp

/-- The place of a finite number among the patterns. -/
theorem toNat_pack {m : Nat} {e : Int} (h : InFormat m e) :
    ((UnpackedFloat.pack Format.binary64 (.finite .positive m e h.pos)).toNat : Int)
      = if 2 ^ 52 ≤ m then (e + 1074) * 2 ^ 52 + m else (m : Int) := by
  have hpack : UnpackedFloat.pack Format.binary64 (.finite .positive m e h.pos)
      = if 2048 ≤ (e + 1023 + 52).toNat + 1 then packedInfinity Format.binary64 .positive
        else if m.log2 + 1 = 53 then packComponents Format.binary64 .positive
          (BitVec.ofNat 11 (e + 1023 + 52).toNat) (BitVec.ofNat 52 m)
        else packComponents Format.binary64 .positive 0#11 (BitVec.ofNat 52 m) := rfl
  obtain ⟨hpos, hm, he, hfinite⟩ := h
  rw [hpack, if_neg (by omega)]
  by_cases hnormal : 2 ^ 52 ≤ m
  · have hlog : m.log2 = 52 := (Nat.log2_eq_iff (by omega)).mpr ⟨hnormal, hm⟩
    rw [if_pos (by rw [hlog]), if_pos hnormal, toNat_packComponents, BitVec.toNat_ofNat,
      BitVec.toNat_ofNat]
    omega
  · have hlog : m.log2 < 52 := log2_lt_of_lt (by decide) (by omega)
    rw [if_neg (by omega), if_neg hnormal, toNat_packComponents, BitVec.toNat_ofNat,
      BitVec.toNat_ofNat]
    omega

/-- A pattern that stands for a positive finite number, as it is read. -/
theorem unpack_finite {b : BitVec 64} (hpos : 0 < b.toNat) (hlt : b.toNat < 2047 * 2 ^ 52) :
    ∃ m e, ∃ h : InFormat m e, UnpackedFloat.unpack Format.binary64 b = .finite .positive m e h.pos
      ∧ (e = -1074 ∨ 2 ^ 52 ≤ m) ∧ (e + 1074) * 2 ^ 52 + m = b.toNat := by
  have hmantissa : (@unpackMantissa Format.binary64 b).toNat = b.toNat % 2 ^ 52 := by
    simp [unpackMantissa]
  have hexponent : (@unpackExponent Format.binary64 b).toNat = b.toNat / 2 ^ 52 := by
    simp [unpackExponent, Nat.shiftRight_eq_div_pow]
    omega
  have hsign : @unpackSign Format.binary64 b = 0#1 := by
    have hbit : @unpackSign Format.binary64 b = b.extractLsb' 63 1 := rfl
    apply BitVec.eq_of_toNat_eq
    rw [hbit, BitVec.extractLsb'_toNat, Nat.shiftRight_eq_div_pow, BitVec.toNat_ofNat]
    omega
  have hfinite : @unpackExponent Format.binary64 b ≠ -1#11 := by
    intro h
    have h := congrArg BitVec.toNat h
    rw [hexponent, show (-1#11).toNat = 2047 from rfl] at h
    omega
  unfold UnpackedFloat.unpack
  rw [hsign, if_neg hfinite]
  by_cases hzero : @unpackExponent Format.binary64 b = 0#11
  · have hsmall : b.toNat / 2 ^ 52 = 0 := by
      rw [← hexponent, hzero]
      rfl
    have hne : @unpackMantissa Format.binary64 b ≠ 0#52 := by
      intro h
      have h := congrArg BitVec.toNat h
      rw [hmantissa, show (0#52).toNat = 0 from rfl] at h
      omega
    rw [if_pos hzero, dif_neg hne]
    refine ⟨_, _, ?_, rfl, ?_⟩
    all_goals
      rw [hmantissa, hexponent]
      simp only [Format.exponentBias]
    · constructor <;> omega
    · omega
  · have hlarge : b.toNat / 2 ^ 52 ≠ 0 := by
      intro h
      exact hzero (BitVec.eq_of_toNat_eq (by rw [hexponent, h]; rfl))
    have himplicit : (1#1 ++ @unpackMantissa Format.binary64 b).toNat
        = 2 ^ 52 + b.toNat % 2 ^ 52 := by
      rw [BitVec.toNat_append, ← Nat.shiftLeft_add_eq_or_of_lt (BitVec.isLt _), hmantissa]
      rfl
    rw [if_neg hzero]
    refine ⟨_, _, ?_, rfl, ?_⟩
    all_goals
      rw [himplicit, hexponent]
      simp only [Format.exponentBias]
    · constructor <;> omega
    · omega

/-! ## Nonnegative numbers -/

theorem magnitude_of_bits {x : Binary64} (h : x.bits ≤ infiniteMagnitude) :
    x.isNegative = false ∧ x.magnitude = x.bits := by
  have hbits : x.bits.toNat ≤ 2047 * 2 ^ 52 := UInt64.le_iff_toNat_le.mp h
  have hpositive : x.isNegative = false := by
    rw [isNegative, decide_eq_false_iff_not, UInt64.le_iff_toNat_le]
    show ¬ 2 ^ 63 ≤ x.bits.toNat
    omega
  exact ⟨hpositive, by rw [magnitude, hpositive]; rfl⟩

theorem toNat_rank {x : Binary64} (h : x.bits ≤ infiniteMagnitude) :
    x.isNaN = false ∧ x.rank.toNat = x.bits.toNat + 2 ^ 63 := by
  have hbits : x.bits.toNat ≤ 2047 * 2 ^ 52 := UInt64.le_iff_toNat_le.mp h
  obtain ⟨hpositive, hmagnitude⟩ := magnitude_of_bits h
  constructor
  · rw [isNaN, hmagnitude, decide_eq_false_iff_not, UInt64.lt_iff_toNat_lt]
    show ¬ 2047 * 2 ^ 52 < x.bits.toNat
    omega
  · rw [rank, hmagnitude]
    split
    · rename_i hzero
      rw [hzero]
      rfl
    · rw [place, hpositive, if_neg Bool.false_ne_true, UInt64.toNat_add,
        show signBit.toNat = 2 ^ 63 from rfl]
      omega

theorem le_iff_of_bits {x y : Binary64} (hx : x.bits ≤ infiniteMagnitude)
    (hy : y.bits ≤ infiniteMagnitude) : x ≤ y ↔ x.bits.toNat ≤ y.bits.toNat := by
  obtain ⟨hnan, hrank⟩ := toNat_rank hx
  obtain ⟨hnan', hrank'⟩ := toNat_rank hy
  show x.isNaN = false ∧ y.isNaN = false ∧ x.rank ≤ y.rank ↔ _
  rw [UInt64.le_iff_toNat_le, hrank, hrank']
  simp [hnan, hnan']

/-- A number that is not negative is a zero, or its pattern is that of its magnitude. -/
theorem bits_of_nonneg {x : Binary64} (h : 0 ≤ x) :
    x.magnitude = 0 ∨ x.bits ≤ infiniteMagnitude := by
  obtain ⟨-, hnan, hrank⟩ := h
  cases hsign : x.isNegative with
  | false =>
    rw [isNaN, magnitude, hsign, decide_eq_false_iff_not] at hnan
    exact .inr (UInt64.not_lt.mp hnan)
  | true =>
    left
    -- everything else that has a sign comes before zero
    by_contra hzero
    have hplace : x.rank = ~~~x.bits := by rw [rank, if_neg hzero, place, if_pos hsign]
    rw [isNegative, decide_eq_true_eq, UInt64.le_iff_toNat_le] at hsign
    rw [hplace, UInt64.le_iff_toNat_le, UInt64.toNat_not] at hrank
    have hsign : 2 ^ 63 ≤ x.bits.toNat := hsign
    have hrank : 2 ^ 63 ≤ 2 ^ 64 - 1 - x.bits.toNat := hrank
    omega

/-- The number as it is read for its arithmetic. -/
def unpacked (x : Binary64) : UnpackedFloat :=
  x.toFloat.toModel.unpack

theorem unpacked_of_magnitude {x : Binary64} (h : x.magnitude = 0) :
    ∃ s, x.unpacked = .zero s := by
  rcases eq_of_magnitude h with rfl | rfl
  · exact ⟨.positive, rfl⟩
  · exact ⟨.negative, rfl⟩

/-- What a positive finite number is read as. -/
structure Reads (x : Binary64) (m : Nat) (e : Int) : Prop extends InFormat m e where
  unpacked : x.unpacked = .finite .positive m e pos
  normal : e = -1074 ∨ 2 ^ 52 ≤ m
  bits : (e + 1074) * 2 ^ 52 + m = x.bits.toNat

/-- A pattern that is read and written again is the same. -/
theorem pack_of_place {b : BitVec 64} {m : Nat} {e : Int} (h : InFormat m e)
    (hnormal : e = -1074 ∨ 2 ^ 52 ≤ m) (hb : (e + 1074) * 2 ^ 52 + m = b.toNat) :
    UnpackedFloat.pack Format.binary64 (.finite .positive m e h.pos) = b := by
  apply BitVec.eq_of_toNat_eq
  rw [← Int.natCast_inj, toNat_pack h]
  split <;> omega

theorem exists_reads {x : Binary64} (hpos : 0 < x.bits.toNat)
    (hlt : x.bits.toNat < 2047 * 2 ^ 52) : ∃ m e, x.Reads m e := by
  obtain ⟨m, e, h, hunpack, hnormal, hbits⟩ := unpack_finite (b := x.bits.toBitVec) hpos hlt
  have hsame := pack_of_place h hnormal hbits
  have hunpacked : x.unpacked = .finite .positive m e h.pos := by
    show UnpackedFloat.unpack Format.binary64 (UnpackedFloat.pack Format.binary64
      (UnpackedFloat.unpack Format.binary64 x.bits.toBitVec)) = _
    rw [hunpack, hsame, hunpack]
  exact ⟨m, e, h, hunpacked, hnormal, hbits⟩

theorem nonneg_cases {x : Binary64} (h : 0 ≤ x) :
    x.magnitude = 0 ∨ x = infinity ∨ ∃ m e, x.Reads m e := by
  rcases bits_of_nonneg h with hzero | hbits
  · exact .inl hzero
  have hle : x.bits.toNat ≤ 2047 * 2 ^ 52 := UInt64.le_iff_toNat_le.mp hbits
  by_cases hinfinite : x.bits.toNat = 2047 * 2 ^ 52
  · have hbits : x.bits = infinity.bits := UInt64.toNat_inj.mp hinfinite
    exact .inr (.inl (congrArg Binary64.mk hbits))
  by_cases hzero : x.bits.toNat = 0
  · have hbits : x.bits = 0 := UInt64.toNat_inj.mp hzero
    exact .inl (by rw [show x = ⟨0⟩ from congrArg Binary64.mk hbits]; rfl)
  · exact .inr (.inr (exists_reads (by omega) (by omega)))

namespace Reads

variable {x w : Binary64} {m : Nat} {e : Int}

theorem bits_lt (hx : x.Reads m e) : x.bits.toNat < 2047 * 2 ^ 52 := by
  have hbits := hx.bits
  have hmantissa := hx.mantissa
  have hhigh := hx.high
  omega

theorem bits_le (hx : x.Reads m e) : x.bits ≤ infiniteMagnitude :=
  UInt64.le_iff_toNat_le.mpr hx.bits_lt.le

theorem pack (hx : x.Reads m e) :
    UnpackedFloat.pack Format.binary64 (.finite .positive m e hx.pos) = x.bits.toBitVec :=
  pack_of_place hx.toInFormat hx.normal hx.bits

theorem nonneg (hx : x.Reads m e) : 0 ≤ x :=
  (le_iff_of_bits (by decide) hx.bits_le).mpr (Nat.zero_le _)

/-- A number up to one is a fraction of a power of two. -/
theorem of_le_one (hw : w.Reads m e) (hone : w ≤ 1) : ∃ k : Nat, e = -k ∧ m ≤ 2 ^ k := by
  have hle : w.bits.toNat ≤ 1023 * 2 ^ 52 := (le_iff_of_bits hw.bits_le (by decide)).mp hone
  obtain ⟨⟨hpos, hmantissa, hlow, hhigh⟩, -, hnormal, hbits⟩ := hw
  refine ⟨(-e).toNat, by omega, ?_⟩
  by_cases he : e = -52
  · subst he
    show m ≤ 2 ^ 52
    omega
  · have hpow : 2 ^ 53 ≤ 2 ^ (-e).toNat := Nat.pow_le_pow_right (by decide) (by omega)
    omega

end Reads

/-! ## Results -/

/-- A result that is a value is written as it is. -/
theorem bits_ofResult {f : Float} {r : UnpackedFloat} (hf : f.toModel = Float.Model.pack r)
    (hvalue : (Float.Model.pack r).unpack.isNaN = false) :
    (ofResult f).bits.toBitVec = UnpackedFloat.pack Format.binary64 r := by
  have hnan : f.isNaN = false := by
    show f.toModel.unpack.isNaN = false
    rw [hf, hvalue]
  rw [ofResult, hnan, if_neg Bool.false_ne_true]
  show f.toModel.toBits.toBitVec = _
  rw [hf]
  rfl

theorem InFormat.isNaN_unpack {m : Nat} {e : Int} (h : InFormat m e) :
    (Float.Model.pack (.finite .positive m e h.pos)).unpack.isNaN = false := by
  have hplace := toNat_pack h
  have hbounds : 0 < (UnpackedFloat.pack Format.binary64 (.finite .positive m e h.pos)).toNat
      ∧ (UnpackedFloat.pack Format.binary64 (.finite .positive m e h.pos)).toNat
        < 2047 * 2 ^ 52 := by
    obtain ⟨hpos, hm, he, hfinite⟩ := h
    by_cases hnormal : 2 ^ 52 ≤ m
    · rw [if_pos hnormal] at hplace
      omega
    · rw [if_neg hnormal] at hplace
      omega
  obtain ⟨m', e', h', hread, -, -⟩ := unpack_finite hbounds.1 hbounds.2
  have hunpack : (Float.Model.pack (.finite .positive m e h.pos)).unpack
      = .finite .positive m' e' h'.pos := hread
  rw [hunpack]
  rfl

/-- A result is a zero, or it is a positive finite number that does not come after the one with
mantissa `m` and exponent `e`. -/
def UpTo (m : Nat) (e : Int) (r : UnpackedFloat) : Prop :=
  (∃ s, r = .zero s) ∨ ∃ m' e', ∃ h' : InFormat m' e',
    r = .finite .positive m' e' h'.pos ∧ e' * 2 ^ 52 + m' ≤ e * 2 ^ 52 + m

/-- A zero does not exceed any amount, whatever its sign. -/
theorem zero_bounds {x : Binary64} (hx : 0 ≤ x) {f : Float} {s : Sign}
    (hf : f.toModel = Float.Model.pack (.zero s)) : 0 ≤ ofResult f ∧ ofResult f ≤ x := by
  have hzero : ofResult f = ⟨0⟩ ∨ ofResult f = ⟨signBit⟩ := by
    cases s
    · exact .inr (congrArg Binary64.mk (UInt64.toBitVec_inj.mp (bits_ofResult hf (by decide))))
    · exact .inl (congrArg Binary64.mk (UInt64.toBitVec_inj.mp (bits_ofResult hf (by decide))))
  have hbounds : 0 ≤ ofResult f ∧ ofResult f ≤ 0 := by
    rcases hzero with h | h <;> rw [h] <;> decide
  exact ⟨hbounds.1, hbounds.1.2.1, hx.2.1, UInt64.le_trans hbounds.2.2.2 hx.2.2⟩

/-- A result up to a number does not exceed it once it is written. -/
theorem UpTo.bounds {x : Binary64} {m : Nat} {e : Int} (hx : x.Reads m e) {f : Float}
    {r : UnpackedFloat} (hf : f.toModel = Float.Model.pack r) (hr : UpTo m e r) :
    0 ≤ ofResult f ∧ ofResult f ≤ x := by
  rcases hr with ⟨s, rfl⟩ | ⟨m', e', h', rfl, hplace⟩
  · exact zero_bounds hx.nonneg hf
  · have hbits : ((ofResult f).bits.toNat : Int)
        = if 2 ^ 52 ≤ m' then (e' + 1074) * 2 ^ 52 + m' else (m' : Int) := by
      rw [← toNat_pack h', ← bits_ofResult hf h'.isNaN_unpack]
      rfl
    have hle : (ofResult f).bits.toNat ≤ x.bits.toNat := by
      have hx := hx.bits
      have hlow := h'.low
      split at hbits <;> omega
    have hfinite : (ofResult f).bits ≤ infiniteMagnitude :=
      UInt64.le_trans (UInt64.le_iff_toNat_le.mpr hle) hx.bits_le
    exact ⟨(le_iff_of_bits (by decide) hfinite).mpr (Nat.zero_le _),
      (le_iff_of_bits hfinite hx.bits_le).mpr hle⟩

/-! ## Products -/

/-- The factors of a positive product are values. -/
theorem isNaN_of_mul_pos {x y : Binary64} (h : 0 < x * y) :
    x.isNaN = false ∧ y.isNaN = false := by
  have hmul : x * y = if x.isNaN then x else if y.isNaN then y
      else ofResult (x.toFloat * y.toFloat) := rfl
  have hnan := h.2.1
  rw [hmul] at hnan
  split at hnan
  · rename_i hx
    rw [hx] at hnan
    contradiction
  split at hnan
  · rename_i hy
    rw [hy] at hnan
    contradiction
  rename_i hx hy
  exact ⟨by simpa using hx, by simpa using hy⟩

theorem mul_eq {x y : Binary64} (hx : x.isNaN = false) (hy : y.isNaN = false) :
    x * y = ofResult (x.toFloat * y.toFloat) := by
  show (if x.isNaN then x else if y.isNaN then y else ofResult (x.toFloat * y.toFloat)) = _
  rw [hx, hy, if_neg Bool.false_ne_true, if_neg Bool.false_ne_true]

/-- A fraction of an amount is an amount that does not exceed it, although it is rounded. -/
theorem mul_bounds {x w : Binary64} (hfinite : x ≠ infinity) (hx : 0 ≤ x) (hw : 0 ≤ w)
    (hone : w ≤ 1) : 0 ≤ x * w ∧ x * w ≤ x := by
  have hmodel : (x.toFloat * w.toFloat).toModel
      = Float.Model.pack (mul Format.binary64 x.unpacked w.unpacked) := rfl
  rw [mul_eq hx.2.1 hw.2.1]
  rcases nonneg_cases hw with hwz | rfl | ⟨n, f, hwr⟩
  · obtain ⟨s, hws⟩ := unpacked_of_magnitude hwz
    rw [hws] at hmodel
    rcases nonneg_cases hx with hxz | rfl | ⟨m, e, hxr⟩
    · obtain ⟨s', hxs⟩ := unpacked_of_magnitude hxz
      exact zero_bounds hx (hxs ▸ hmodel)
    · contradiction
    · exact zero_bounds hx (hxr.unpacked ▸ hmodel)
  · exact absurd hone (by decide)
  rcases nonneg_cases hx with hxz | rfl | ⟨m, e, hxr⟩
  · obtain ⟨s', hxs⟩ := unpacked_of_magnitude hxz
    rw [hxs, hwr.unpacked] at hmodel
    exact zero_bounds hx hmodel
  · contradiction
  obtain ⟨k, rfl, hnk⟩ := hwr.of_le_one hone
  rw [hxr.unpacked, hwr.unpacked] at hmodel
  exact UpTo.bounds hxr hmodel
    ((roundWithAccuracy_le hxr.toInFormat hxr.normal (Nat.mul_le_mul_left m hnk) .positive).imp_left
      fun h => ⟨_, h⟩)

/-- A fraction of a number that is positive does not exceed the number, be it finite or not. -/
theorem mul_le_of_le_one {x w : Binary64} (hx : 0 ≤ x) (hw : 0 ≤ w) (hone : w ≤ 1)
    (hpos : 0 < x * w) : x * w ≤ x := by
  by_cases hfinite : x = infinity
  · subst hfinite
    have hmodel : (infinity.toFloat * w.toFloat).toModel
        = Float.Model.pack (mul Format.binary64 (.infinity .positive) w.unpacked) := rfl
    rw [mul_eq hx.2.1 hw.2.1] at hpos ⊢
    rcases nonneg_cases hw with hwz | rfl | ⟨n, f, hwr⟩
    · obtain ⟨s, hws⟩ := unpacked_of_magnitude hwz
      have hmodel : (infinity.toFloat * w.toFloat).toModel = Float.Model.pack .notANumber := by
        rw [hmodel, hws]
        rfl
      have hinvalid : ofResult (infinity.toFloat * w.toFloat) = invalid := by
        refine if_pos ?_
        show (infinity.toFloat * w.toFloat).toModel.unpack.isNaN = true
        rw [hmodel]
        decide
      rw [hinvalid] at hpos
      exact absurd hpos (by decide)
    · exact absurd hone (by decide)
    · have hmodel : (infinity.toFloat * w.toFloat).toModel
          = Float.Model.pack (.infinity .positive) := by
        rw [hmodel, hwr.unpacked]
        rfl
      have hsame : (ofResult (infinity.toFloat * w.toFloat)).bits = infinity.bits :=
        UInt64.toBitVec_inj.mp (bits_ofResult hmodel (by decide))
      rw [show ofResult (infinity.toFloat * w.toFloat) = infinity from congrArg Binary64.mk hsame]
      decide
  · exact (mul_bounds hfinite hx hw hone).2

/-! ## The laws -/

theorem le_of_not_lt {x y : Binary64} (hx : x.isNaN = false) (hy : y.isNaN = false)
    (h : ¬ x < y) : y ≤ x :=
  ⟨hy, hx, UInt64.not_lt.mp fun hlt => h ⟨hx, hy, hlt⟩⟩

/-- A fraction that is a value lies between zero and one. -/
theorem clamp_bounds {u : Binary64} (h : (Scalar.clamp u 0 1).isNaN = false) :
    0 ≤ Scalar.clamp u 0 1 ∧ Scalar.clamp u 0 1 ≤ 1 := by
  have hclamp : Scalar.clamp u 0 1
      = if 1 < (if u < 0 then 0 else u) then 1 else if u < 0 then 0 else u := rfl
  rw [hclamp] at h ⊢
  generalize hy : (if u < 0 then 0 else u) = y at h ⊢
  split
  · decide
  · rename_i hone
    rw [if_neg hone] at h
    refine ⟨?_, le_of_not_lt (by decide) h hone⟩
    rw [← hy] at h ⊢
    split
    · decide
    · rename_i hlow
      rw [if_neg hlow] at h
      exact le_of_not_lt h (by decide) hlow

instance : LawfulScalar Binary64 where
  irrefl _ h := UInt64.lt_irrefl _ h.2.2
  le_trans := le_trans
  zero_beq := by decide
  fraction_le {_ _} hx hpos :=
    have hbounds := clamp_bounds (isNaN_of_mul_pos hpos).2
    mul_le_of_le_one hx hbounds.1 hbounds.2 hpos

instance : OrderedScalar Binary64 where
  le_of_lt h := ⟨h.1, h.2.1, UInt64.le_of_lt h.2.2⟩
  beq_of_le {_ y} h := by
    show (!y.isNaN && !y.isNaN && y.rank == y.rank) = true
    rw [h.2.1, beq_self_eq_true]
    rfl
  zero_le_zero := by decide

end Datacenter.Binary64
