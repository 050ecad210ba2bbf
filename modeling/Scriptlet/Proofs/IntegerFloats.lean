import Mathlib
import Scriptlet.Proofs.FloatOrder

/-! # Integers as floats

A float has 53 significant bits, so an integer below `2 ^ 53` becomes a float without a loss, and
the float of a greater one has an exponent that no smaller integer gets. An integer below `2 ^ 53`
therefore shares its float with no other integer.

How the parts of a float are packed is laid down in lemmas that only the whole library brings.
-/

namespace Scriptlet.IntegerFloats

open Float.Model (Format UnpackedFloat totalExponent)
open Float.Model.UnpackedFloat

/-! ## Floats of full precision -/

/-- The components of a finite float that uses all of its significant bits. -/
structure Normal (m : Nat) (e : Int) : Prop where
  le_mantissa : 2 ^ 52 ≤ m
  mantissa_lt : m < 2 ^ 53
  le_exponent : -1074 ≤ e
  exponent_lt : e < 972

namespace Normal

variable {m : Nat} {e : Int} (hnormal : Normal m e)

include hnormal

theorem pos : 0 < m :=
  Nat.lt_of_lt_of_le (by decide) hnormal.le_mantissa

theorem log2_mantissa : m.log2 = 52 :=
  (Nat.log2_eq_iff hnormal.pos.ne').mpr ⟨hnormal.le_mantissa, hnormal.mantissa_lt⟩

/-- The leading bit of the mantissa is not stored, since it is known. -/
theorem toNat_mantissa : (1#1 ++ BitVec.ofNat 52 m).toNat = m := by
  obtain ⟨hle, hlt, _, _⟩ := hnormal
  have hfraction : m % 2 ^ 52 < 2 ^ 52 := Nat.mod_lt _ (by decide)
  rw [BitVec.toNat_append, BitVec.toNat_ofNat, BitVec.toNat_ofNat, ← Nat.shiftLeft_add_eq_or_of_lt
    hfraction, Nat.shiftLeft_eq]
  omega

theorem unpack_pack (s : Sign) :
    unpack Format.binary64 (pack Format.binary64 (.finite s m e hnormal.pos)) =
      .finite s m e hnormal.pos := by
  obtain ⟨_, _, hle, hlt⟩ := id hnormal
  have hbiased : ∃ biased : Nat, (biased : Int) = e + 1075 ∧ 0 < biased ∧ biased + 1 < 2 ^ 11 :=
    ⟨(e + 1075).toNat, by omega⟩
  obtain ⟨biased, heq, hpos, htop⟩ := hbiased
  have hstored : (e + Format.binary64.exponentBias +
      Format.binary64.mantissaBitsWithoutImplicit).toNat = biased := by
    change (e + (1023 : Nat) + (52 : Nat)).toNat = biased
    omega
  have hexponent : (BitVec.ofNat 11 biased).toNat = biased := by
    rw [BitVec.toNat_ofNat, Nat.mod_eq_of_lt (by omega)]
  have hones : BitVec.ofNat 11 biased ≠ -1#11 := FloatOrder.ofNat_ne_neg_one htop
  have hzero : BitVec.ofNat 11 biased ≠ 0#11 := by
    intro heq
    have hnat := congrArg BitVec.toNat heq
    rw [hexponent] at hnat
    exact hpos.ne' hnat
  have hpack : pack Format.binary64 (.finite s m e hnormal.pos) =
      packComponents Format.binary64 s (BitVec.ofNat 11 biased) (BitVec.ofNat 52 m) := by
    have hbits : m.log2 + 1 = Format.binary64.mantissaBits := congrArg (· + 1) hnormal.log2_mantissa
    simp only [pack, hstored]
    rw [if_neg (Nat.not_le.mpr htop), if_pos hbits]
  rw [hpack, unpack]
  simp only [unpackExponent_packComponents, unpackMantissa_packComponents,
    unpackSign_packComponents, Sign.ofBitVec_toBitVec]
  rw [if_neg hones, if_neg hzero]
  simp only [hnormal.toNat_mantissa, hexponent, heq]
  congr 1
  change e + 1075 - ((1023 : Nat) + (52 : Nat)) = e
  omega

end Normal

/-! ## Rounding -/

theorem log2_mul_two_pow {m : Nat} (hm : m ≠ 0) (k : Nat) : (m * 2 ^ k).log2 = m.log2 + k := by
  have hlow := Nat.log2_self_le hm
  have hhigh := Nat.lt_log2_self (n := m)
  rw [Nat.log2_eq_iff (Nat.mul_ne_zero hm (Nat.two_pow_pos k).ne')]
  constructor
  · rw [Nat.pow_add]
    exact Nat.mul_le_mul_right _ hlow
  · rw [Nat.add_right_comm, Nat.pow_add]
    exact Nat.mul_lt_mul_of_pos_right hhigh (Nat.two_pow_pos k)

/-- A mantissa that is known exactly. -/
abbrev exactly (m : Nat) : ExtendedMantissa := ⟨m, false, false⟩

theorem mantissa_shiftRight (mantissa : ExtendedMantissa) (k : Nat) :
    (mantissa >>> k).mantissa = mantissa.mantissa / 2 ^ k := by
  induction k with
  | zero => exact (Nat.div_one _).symm
  | succ k ih =>
      change (mantissa >>> k).mantissa / 2 = _
      rw [ih, Nat.div_div_eq_div_mul, Nat.pow_succ]

/-- No bit is lost if those that are shifted out are zero. -/
theorem exactly_shiftRight (m k : Nat) : exactly (m * 2 ^ k) >>> k = exactly m := by
  induction k generalizing m with
  | zero => exact congrArg exactly (Nat.mul_one m)
  | succ k ih =>
      change (exactly (m * 2 ^ (k + 1)) >>> k).shiftRightOne = _
      rw [Nat.pow_succ', ← Nat.mul_assoc, ih (m * 2)]
      simp [ExtendedMantissa.shiftRightOne]

theorem le_roundedMantissa (mantissa : ExtendedMantissa) :
    mantissa.mantissa ≤ mantissa.roundedMantissa ∧
      mantissa.roundedMantissa ≤ mantissa.mantissa + 1 := by
  obtain ⟨m, round, sticky⟩ := mantissa
  cases round <;> cases sticky <;>
    simp [ExtendedMantissa.roundedMantissa, ExtendedMantissa.accuracy, Accuracy.roundToNearestEven]
  omega

/-- Rounding shifts a mantissa to its length, and once more if it has grown by a bit. -/
theorem roundWithAccuracy_eq {spec : Format} (s : Sign) {m : Nat} {e d f : Int}
    {accuracy : Accuracy} {first second : ExtendedMantissa}
    (hfirst : shiftToTargetExponent spec m e accuracy = (first, d))
    (hsecond : shiftToTargetExponent spec first.roundedMantissa d .exact = (second, f))
    (hpos : 0 < second.mantissa) :
    roundWithAccuracy spec s m e accuracy = .finite s second.mantissa f hpos := by
  simp only [roundWithAccuracy, hfirst, hsecond]
  rw [dif_neg hpos.ne']

section Shifting

variable {m : Nat} {e : Int} (hm : 52 ≤ m.log2)

include hm

/-- The bits of a mantissa that are kept. -/
theorem div_two_pow_bounds : 2 ^ 52 ≤ m / 2 ^ (m.log2 - 52) ∧ m / 2 ^ (m.log2 - 52) < 2 ^ 53 := by
  have hne : m ≠ 0 := by
    rintro rfl
    contradiction
  rw [Nat.le_div_iff_mul_le (Nat.two_pow_pos _), Nat.div_lt_iff_lt_mul (Nat.two_pow_pos _),
    ← Nat.pow_add, ← Nat.pow_add]
  constructor
  · rw [Nat.add_sub_cancel' hm]
    exact Nat.log2_self_le hne
  · rw [show 53 + (m.log2 - 52) = m.log2 + 1 by omega]
    exact Nat.lt_log2_self

theorem shiftToTargetExponent_eq (he : -1022 ≤ m.log2 + e) :
    shiftToTargetExponent Format.binary64 m e .exact =
      (exactly m >>> (m.log2 - 52), e + (m.log2 - 52 : Nat)) := by
  have htarget : Format.binary64.targetExponent (totalExponent m e) = e + (m.log2 - 52 : Nat) := by
    change max ((m.log2 : Int) + 1 + e - (53 : Nat)) (-1074) = _
    omega
  have hshift : (e + ((m.log2 - 52 : Nat) : Int) - e).toNat = m.log2 - 52 := by omega
  simp only [shiftToTargetExponent, shiftToExponent, htarget, hshift]
  rfl

/-- A mantissa that is too long is rounded to the length of a mantissa. -/
theorem exists_roundWithAccuracy (s : Sign) (hlow : -1022 ≤ m.log2 + e)
    (hhigh : m.log2 + e < 1023) :
    ∃ n d, ∃ hnormal : Normal n d,
      roundWithAccuracy Format.binary64 s m e .exact = .finite s n d hnormal.pos ∧
        m.log2 + e ≤ d + 52 := by
  have hkept := div_two_pow_bounds hm
  have hrounded := le_roundedMantissa (exactly m >>> (m.log2 - 52))
  rw [mantissa_shiftRight] at hrounded
  have hfirst := shiftToTargetExponent_eq hm hlow
  generalize (exactly m >>> (m.log2 - 52)) = first at hfirst hrounded
  generalize hr : first.roundedMantissa = r at hrounded
  -- rounding up may give `2 ^ 53`, which has a bit too many
  have hne : r ≠ 0 := by grind
  have hlog : 52 ≤ r.log2 := (Nat.le_log2 hne).mpr (by grind)
  have hlog' : r.log2 < 54 := (Nat.log2_lt hne).mpr (by grind)
  have hsecond : shiftToTargetExponent Format.binary64 first.roundedMantissa
      (e + (m.log2 - 52 : Nat)) .exact =
      (exactly r >>> (r.log2 - 52), e + (m.log2 - 52 : Nat) + (r.log2 - 52 : Nat)) := by
    rw [hr]
    exact shiftToTargetExponent_eq hlog (by omega)
  have hshort := div_two_pow_bounds hlog
  have hnormal : Normal (r / 2 ^ (r.log2 - 52))
      (e + (m.log2 - 52 : Nat) + (r.log2 - 52 : Nat)) :=
    ⟨hshort.1, hshort.2, by omega, by omega⟩
  have hmantissa := mantissa_shiftRight (exactly r) (r.log2 - 52)
  refine ⟨_, _, hnormal, ?_, by omega⟩
  rw [roundWithAccuracy_eq s hfirst hsecond (hmantissa ▸ hnormal.pos)]
  simp only [hmantissa]

end Shifting

/-- A mantissa that has the right length, but for zeros at its end, is kept. -/
theorem Normal.roundWithAccuracy_scaled {m : Nat} {e : Int} (hnormal : Normal m e) (s : Sign)
    (k : Nat) : roundWithAccuracy Format.binary64 s (m * 2 ^ k) (e - k) .exact =
      .finite s m e hnormal.pos := by
  have hlow := hnormal.le_exponent
  have hshift : ∀ k : Nat, shiftToTargetExponent Format.binary64 (m * 2 ^ k) (e - k) .exact =
      (exactly m, e) := by
    intro k
    have hlog : (m * 2 ^ k).log2 = 52 + k := by
      rw [log2_mul_two_pow hnormal.pos.ne', hnormal.log2_mantissa]
    rw [shiftToTargetExponent_eq (by omega) (by omega), hlog, Nat.add_sub_cancel_left,
      exactly_shiftRight, Int.sub_add_cancel]
  have hsecond : shiftToTargetExponent Format.binary64 m e .exact = (exactly m, e) := by
    simpa using hshift 0
  exact roundWithAccuracy_eq s (hshift k) hsecond hnormal.pos

/-! ## Integers -/

/-- How the components of its float depend on the absolute value `n` of an integer. -/
structure Scales (n m : Nat) (e : Int) : Prop where
  small : n < 2 ^ 53 → e ≤ 0 ∧ m = n * 2 ^ (-e).toNat
  large : 2 ^ 53 ≤ n → 0 < e

theorem Scales.unique {n k m : Nat} {e : Int} (hn : Scales n m e) (hk : Scales k m e)
    (hlt : n < 2 ^ 53) : n = k := by
  obtain ⟨hle, hm⟩ := hn.small hlt
  have hklt : k < 2 ^ 53 := by
    by_contra hge
    have := hk.large (Nat.le_of_not_lt hge)
    omega
  have hkm := (hk.small hklt).2
  exact Nat.eq_of_mul_eq_mul_right (Nat.two_pow_pos _) (hm.symm.trans hkm)

section Positive

variable {n : Nat} (hpos : 0 < n)

include hpos

/-- A number with at most 53 bits is shifted to the left until it has 53. -/
theorem normal_shift (hlt : n < 2 ^ 53) :
    Normal (n * 2 ^ (52 - n.log2)) (-(52 - n.log2 : Nat)) := by
  have hlog : n.log2 < 53 := (Nat.log2_lt hpos.ne').mpr hlt
  have hshift : 52 - n.log2 + n.log2 = 52 := by omega
  have hlow := Nat.log2_self_le hpos.ne'
  have hhigh := Nat.lt_log2_self (n := n)
  refine ⟨?_, ?_, by omega, by omega⟩
  · calc 2 ^ 52 = 2 ^ n.log2 * 2 ^ (52 - n.log2) := by rw [← Nat.pow_add, Nat.add_comm, hshift]
      _ ≤ n * 2 ^ (52 - n.log2) := Nat.mul_le_mul_right _ hlow
  · calc n * 2 ^ (52 - n.log2) < 2 ^ (n.log2 + 1) * 2 ^ (52 - n.log2) :=
          Nat.mul_lt_mul_of_pos_right hhigh (Nat.two_pow_pos _)
      _ = 2 ^ 53 := by rw [← Nat.pow_add, show n.log2 + 1 + (52 - n.log2) = 53 by omega]

theorem unpack_toFloat (hlt : n < 2 ^ 53) :
    n.toUInt64.toFloat.toModel.unpack =
      .finite .positive _ (-(52 - n.log2 : Nat)) (normal_shift hpos hlt).pos := by
  have hnormal := normal_shift hpos hlt
  have hlog : n.log2 < 53 := (Nat.log2_lt hpos.ne').mpr hlt
  have hword : n.toUInt64.toNat = n := Nat.mod_eq_of_lt (Nat.lt_trans hlt (by decide))
  have hpositive : compare (n : Int) 0 = .gt := by
    rw [compare_gt_iff_gt]
    omega
  have htarget : Format.binary64.targetExponent (totalExponent n 0) = -(52 - n.log2 : Nat) := by
    change max ((n.log2 : Int) + 1 + 0 - (53 : Nat)) (-1074) = _
    omega
  have hround : UnpackedFloat.round Format.binary64 .positive n 0 =
      .finite .positive _ (-(52 - n.log2 : Nat)) hnormal.pos := by
    simp only [UnpackedFloat.round, htarget, decreaseExponent, Nat.shiftLeft_eq, Int.zero_sub]
    simpa using hnormal.roundWithAccuracy_scaled .positive 0
  change unpack Format.binary64 (pack Format.binary64
    (UnpackedFloat.normalize Format.binary64 n.toUInt64.toNat 0 .positive)) = _
  rw [hword, UnpackedFloat.normalize, hpositive]
  simp only [Int.toNat_natCast]
  rw [hround, hnormal.unpack_pack]

theorem unpack_ofNat_of_lt (hlt : n < 2 ^ 53) :
    (Float.ofNat n).toModel.unpack =
      .finite .positive _ (-(52 - n.log2 : Nat)) (normal_shift hpos hlt).pos := by
  have hnormal := normal_shift hpos hlt
  have hone : (Float.ofBits 0x3FF0000000000000).toModel.unpack =
      .finite .positive (2 ^ 52) (-52) (by decide) := rfl
  -- a short number is converted as a machine word and scaled by a power of ten, here one
  have hproduct : Float.ofNat n = n.toUInt64.toFloat * Float.ofBits 0x3FF0000000000000 := by
    change Float.ofScientific n false 0 = _
    rw [Float.ofScientific, dif_pos ⟨hlt, by decide⟩]
    rfl
  rw [hproduct]
  change unpack Format.binary64 (pack Format.binary64 (mul Format.binary64
    n.toUInt64.toFloat.toModel.unpack (Float.ofBits 0x3FF0000000000000).toModel.unpack)) = _
  rw [unpack_toFloat hpos hlt, hone]
  exact (congrArg (fun f => unpack Format.binary64 (pack Format.binary64 f))
    (hnormal.roundWithAccuracy_scaled .positive 52)).trans (hnormal.unpack_pack .positive)

theorem unpack_ofNat_of_le (hle : 2 ^ 53 ≤ n) (hmax : n ≤ 2 ^ 63) :
    ∃ m e, ∃ hnormal : Normal m e,
      (Float.ofNat n).toModel.unpack = .finite .positive m e hnormal.pos ∧ 0 < e := by
  -- a long number gets 53 zeros at its end before it is scaled, and the rounding undoes that
  have hlong : (n * 2 ^ 53).log2 = n.log2 + 53 := log2_mul_two_pow hpos.ne' 53
  have hlow : 53 ≤ n.log2 := (Nat.le_log2 hpos.ne').mpr hle
  have hhigh : n.log2 < 64 := (Nat.log2_lt hpos.ne').mpr (Nat.lt_of_le_of_lt hmax (by decide))
  obtain ⟨m, e, hnormal, hround, he⟩ := exists_roundWithAccuracy (m := n * 2 ^ 53) (e := -53)
    (by omega) .positive (by omega) (by omega)
  refine ⟨m, e, hnormal, ?_, by omega⟩
  rw [← hnormal.unpack_pack, ← hround]
  change (Float.ofScientific n false 0).toModel.unpack = _
  rw [Float.ofScientific, dif_neg (by omega)]
  change unpack Format.binary64 (pack Format.binary64 (ofScientific Format.binary64 n 0)) = _
  rw [ofScientific, dif_neg hpos.ne', if_neg (by decide), if_neg (by simp),
    if_pos (Int.le_refl 0), mul, Nat.shiftLeft_eq, Int.toNat_zero, Nat.pow_zero, Nat.mul_one]
  rfl

theorem exists_unpack_ofNat (hmax : n ≤ 2 ^ 63) :
    ∃ m e, ∃ hnormal : Normal m e,
      (Float.ofNat n).toModel.unpack = .finite .positive m e hnormal.pos ∧ Scales n m e := by
  by_cases hlt : n < 2 ^ 53
  · refine ⟨_, _, normal_shift hpos hlt, unpack_ofNat_of_lt hpos hlt, fun _ => ?_, fun _ => ?_⟩
    · rw [Int.neg_neg, Int.toNat_natCast]
      exact ⟨by omega, rfl⟩
    · omega
  · obtain ⟨m, e, hnormal, hunpack, he⟩ := unpack_ofNat_of_le hpos (Nat.le_of_not_lt hlt) hmax
    exact ⟨m, e, hnormal, hunpack, fun h => absurd h hlt, fun _ => he⟩

end Positive

/-- What the float of an integer may be. -/
inductive Stands : Int → UnpackedFloat → Prop
  | zero : Stands 0 (.zero .positive)
  | finite {n : Int} {s : Sign} {m : Nat} {e : Int} {hpos : 0 < m} (hsign : s = .negative ↔ n < 0)
      (hscales : Scales n.natAbs m e) : Stands n (.finite s m e hpos)

theorem unpack_neg (x : Float) :
    x.neg.toModel.unpack = unpack Format.binary64 (pack Format.binary64 x.toModel.unpack.neg) :=
  rfl

theorem stands_ofInt {n : Int} (hmax : n.natAbs ≤ 2 ^ 63) :
    Stands n (Float.ofInt n).toModel.unpack := by
  by_cases hzero : n = 0
  · subst hzero
    exact .zero
  obtain ⟨m, e, hnormal, hunpack, hscales⟩ := exists_unpack_ofNat (Int.natAbs_pos.mpr hzero) hmax
  cases n with
  | ofNat k =>
      have hunpack : (Float.ofInt (.ofNat k)).toModel.unpack = _ := hunpack
      rw [hunpack]
      exact .finite (by simp) hscales
  | negSucc k =>
      have hunpack : (Float.ofNat (k + 1)).toModel.unpack = _ := hunpack
      have hneg : (Float.ofInt (.negSucc k)).toModel.unpack =
          .finite .negative m e hnormal.pos := by
        rw [Float.ofInt, unpack_neg, hunpack]
        exact hnormal.unpack_pack .negative
      rw [hneg]
      exact .finite (by simp) hscales

theorem stands_floatOfInt (n : Int64) : Stands n.toInt (Value.floatOfInt n).toModel.unpack := by
  have hlow := n.le_toInt
  have hhigh := n.toInt_lt
  exact stands_ofInt (by omega)

/-- Two integers whose floats are equal are the same if one of them is small. -/
theorem Stands.unique {n k : Int} {f g : UnpackedFloat} (hn : Stands n f) (hk : Stands k g)
    (hbeq : f.beq g = true) (hlt : n.natAbs < 2 ^ 53) : n = k := by
  obtain ⟨_, _, hsame⟩ := (beq_iff_ne_notANumber_and_eq _ _).mp hbeq
  cases hn with
  | zero =>
      cases hk with
      | zero => rfl
      | finite _ _ => simp at hsame
  | finite hsign hscales =>
      cases hk with
      | zero => simp at hsame
      | finite hsign' hscales' =>
          simp only [reduceCtorEq, false_and, or_false, finite.injEq] at hsame
          obtain ⟨rfl, rfl, rfl⟩ := hsame
          have habs := hscales.unique hscales' hlt
          have hneg := hsign.symm.trans hsign'
          omega

/-- An integer below `2 ^ 53` shares its float with no other integer. -/
theorem eq_of_floatOfInt_beq {n k : Int64}
    (hbeq : (Value.floatOfInt n == Value.floatOfInt k) = true) (hlt : n.toInt.natAbs < 2 ^ 53) :
    n = k :=
  Int64.toInt_inj.mp ((stands_floatOfInt n).unique (stands_floatOfInt k) hbeq hlt)

end Scriptlet.IntegerFloats
