import Mathlib.Algebra.Group.Nat.Defs
import Scriptlet.Value.Compare

/-! # The order of floats

One float is less than another, equal to it or greater, and of these exactly one holds, unless one
of the two is a NaN and none does. An integer never becomes a NaN.
-/

namespace Scriptlet.FloatOrder

open Float.Model (Format UnpackedFloat)
open Float.Model.UnpackedFloat

/-! ## Comparing -/

theorem compare_sign_swap (s t : Sign) : compare t s = (compare s t).swap := by
  cases s <;> cases t <;> rfl

/-- Exponents are compared first, and mantissas if they are the same. -/
theorem compare_magnitude_swap (m n : Nat) (d e : Int) :
    (compare e d).then (compare n m) = ((compare d e).then (compare m n)).swap := by
  rw [Ordering.swap_then, Int.compare_swap, Nat.compare_swap]

/-- To compare two floats the other way round gives the opposite answer. -/
theorem compare_swap (a b : UnpackedFloat) : b.compare a = (a.compare b).map Ordering.swap := by
  cases a with
  | notANumber => cases b <;> rfl
  | infinity s =>
      cases b with
      | infinity t => exact congrArg some (compare_sign_swap s t)
      | notANumber | zero t | finite t n e _ => cases s <;> rfl
  | zero s =>
      cases b with
      | infinity t | finite t n e _ => cases t <;> rfl
      | notANumber | zero t => rfl
  | finite s m d _ =>
      cases b with
      | notANumber => rfl
      | infinity t => cases t <;> rfl
      | zero t => cases s <;> rfl
      | finite t n e _ =>
          cases s with
          | positive =>
              cases t with
              | positive => exact congrArg some (compare_magnitude_swap m n d e)
              | negative => rfl
          | negative =>
              cases t with
              | positive => rfl
              | negative =>
                  exact congrArg (fun order => some order.swap) (compare_magnitude_swap m n d e)

/-- Only a NaN cannot be compared. -/
theorem compare_eq_none_iff (a b : UnpackedFloat) :
    a.compare b = none ↔ a.isNaN = true ∨ b.isNaN = true := by
  cases a with
  | notANumber => exact iff_of_true (by cases b <;> rfl) (.inl rfl)
  | infinity s | zero s | finite s m d _ =>
      cases b with
      | notANumber => exact iff_of_true rfl (.inr rfl)
      | infinity t | zero t | finite t n e _ =>
          refine iff_of_false ?_ (not_or_intro Bool.false_ne_true Bool.false_ne_true)
          cases s <;> cases t <;> exact Option.some_ne_none _

variable (x y : Float)

theorem lt_iff : x < y ↔ x.toModel.unpack.compare y.toModel.unpack = some .lt := by
  change decide (x.toModel < y.toModel) = true ↔ _
  rw [decide_eq_true_iff]
  exact beq_iff_eq

theorem gt_iff : y < x ↔ x.toModel.unpack.compare y.toModel.unpack = some .gt := by
  rw [lt_iff, compare_swap x.toModel.unpack]
  cases x.toModel.unpack.compare y.toModel.unpack with
  | none => simp
  | some order => cases order <;> simp

theorem beq_iff : (x == y) = true ↔ x.toModel.unpack.compare y.toModel.unpack = some .eq := by
  change (x.toModel.unpack.compare y.toModel.unpack == some .eq) = true ↔ _
  exact beq_iff_eq

theorem isNaN_iff : x.isNaN = true ∨ y.isNaN = true ↔
    x.toModel.unpack.compare y.toModel.unpack = none :=
  (compare_eq_none_iff _ _).symm

/-! ## Integers -/

section Packed

variable {spec : Format}

theorem isNaN_dite {P : Prop} [Decidable P] {f : P → UnpackedFloat} {g : ¬P → UnpackedFloat}
    (hf : ∀ h, (f h).isNaN = false) (hg : ∀ h, (g h).isNaN = false) :
    (dite P f g).isNaN = false := by
  by_cases h : P
  · rw [dif_pos h, hf]
  · rw [dif_neg h, hg]

theorem isNaN_ite {P : Prop} [Decidable P] {f g : UnpackedFloat} (hf : P → f.isNaN = false)
    (hg : ¬P → g.isNaN = false) : (ite P f g).isNaN = false := by
  rw [← dite_eq_ite]
  exact isNaN_dite hf hg

theorem isNaN_unpack (b : BitVec spec.numBits) (hexponent : unpackExponent b ≠ -1#_ ∨
    unpackMantissa b = 0#_) : (unpack spec b).isNaN = false := by
  unfold unpack
  refine isNaN_ite (fun hones => ?_) fun _ => isNaN_ite (fun _ => ?_) fun _ => rfl
  · rw [if_pos (hexponent.resolve_left (not_not_intro hones))]
    rfl
  · exact isNaN_dite (fun _ => rfl) fun _ => rfl

/-- The exponent of a NaN is the greatest, and no other float has it. -/
theorem ofNat_ne_neg_one {width n : Nat} (hn : n + 1 < 2 ^ width) :
    BitVec.ofNat width n ≠ -1#_ := by
  intro hones
  have hnat := congrArg BitVec.toNat hones
  rw [BitVec.neg_one_eq_allOnes, BitVec.toNat_allOnes, BitVec.toNat_ofNat,
    Nat.mod_eq_of_lt (by omega)] at hnat
  omega

/-- What is packed as a number is one when it is unpacked. -/
theorem isNaN_unpack_pack {f : UnpackedFloat} (hf : f.isNaN = false) :
    (unpack spec (pack spec f)).isNaN = false := by
  apply isNaN_unpack
  have hzero : BitVec.ofNat spec.exponentBits 0 ≠ -1#_ :=
    ofNat_ne_neg_one (Nat.one_lt_two_pow (Nat.pos_iff_ne_zero.mp spec.he))
  fun_cases pack with
  | case1 => contradiction
  | case2 s => exact .inr unpackMantissa_packComponents
  | case3 s => exact .inr unpackMantissa_packComponents
  | case4 s m e hm biased hlarge => exact .inr unpackMantissa_packComponents
  | case5 s m e hm bits biased hlarge hnormal =>
      rw [unpackExponent_packComponents]
      exact .inl (ofNat_ne_neg_one (Nat.lt_of_not_le hlarge))
  | case6 s m e hm bits biased hlarge hsubnormal =>
      rw [unpackExponent_packComponents]
      exact .inl hzero

theorem isNaN_roundWithAccuracy (s : Sign) (m : Nat) (e : Int) (accuracy : Accuracy) :
    (roundWithAccuracy spec s m e accuracy).isNaN = false := by
  unfold roundWithAccuracy
  exact isNaN_dite (fun _ => rfl) fun _ => rfl

theorem isNaN_normalize (m e : Int) (s : Sign) :
    (UnpackedFloat.normalize spec m e s).isNaN = false := by
  unfold UnpackedFloat.normalize
  split
  · exact isNaN_roundWithAccuracy ..
  · rfl
  · exact isNaN_roundWithAccuracy ..

theorem isNaN_mul_finite {f : UnpackedFloat} (hf : f.isNaN = false) (s : Sign) (m : Nat) (e : Int)
    (hm : 0 < m) : (mul spec f (.finite s m e hm)).isNaN = false := by
  cases f with
  | notANumber => contradiction
  | infinity t | zero t => rfl
  | finite t n d hn => exact isNaN_roundWithAccuracy ..

theorem isNaN_neg (f : UnpackedFloat) : f.neg.isNaN = f.isNaN := by
  cases f <;> rfl

theorem isNaN_ofScientific (m e : Nat) : (ofScientific spec m e).isNaN = false := by
  unfold ofScientific
  refine isNaN_dite (fun _ => rfl) fun _ => isNaN_ite (fun _ => rfl) fun _ =>
    isNaN_ite (fun _ => rfl) fun _ => ?_
  rw [if_pos (Int.natCast_nonneg e)]
  exact isNaN_mul_finite rfl ..

end Packed

theorem isNaN_mul_of_finite {x y : Float} (hx : x.isNaN = false)
    (hy : ∃ s m e hm, y.toModel.unpack = .finite s m e hm) : (x * y).isNaN = false := by
  obtain ⟨s, m, e, hm, hy⟩ := hy
  change (unpack Format.binary64 (pack Format.binary64
    (mul Format.binary64 x.toModel.unpack y.toModel.unpack))).isNaN = false
  rw [hy]
  exact isNaN_unpack_pack (isNaN_mul_finite hx ..)

theorem isNaN_ofNat (n : Nat) : (Float.ofNat n).isNaN = false := by
  change (Float.ofScientific n false 0).isNaN = false
  unfold Float.ofScientific
  split
  · -- A number below `2 ^ 53` is a float, which is multiplied by one.
    have hone : ∃ s m e hm, (Float.ofBits 0x3FF0000000000000).toModel.unpack = .finite s m e hm :=
      ⟨_, _, _, _, rfl⟩
    exact isNaN_mul_of_finite (x := n.toUInt64.toFloat)
      (isNaN_unpack_pack (isNaN_normalize ..)) hone
  · exact isNaN_unpack_pack (isNaN_ofScientific n 0)

/-- An integer never becomes a NaN. -/
theorem isNaN_floatOfInt (n : Int64) : (Value.floatOfInt n).isNaN = false := by
  unfold Value.floatOfInt
  cases n.toInt with
  | ofNat k => exact isNaN_ofNat k
  | negSucc k =>
      apply isNaN_unpack_pack
      rw [isNaN_neg]
      exact isNaN_ofNat (k + 1)

end Scriptlet.FloatOrder
