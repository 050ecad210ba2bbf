import Scriptlet.Proofs.Comparisons
import Scriptlet.Proofs.IntegerFloats

/-! # Equality of values

Equality as a script sees it is reflexive but for NaN, and symmetric. It is not transitive: two
integers are compared exactly, but an integer and a float are compared as floats, and several
integers may become the same float. This is the only exception, and it concerns integers of at
least `2 ^ 53` alone.
-/

namespace Scriptlet

/-! ## Floats -/

namespace FloatOrder

open Float.Model (UnpackedFloat)

/-- Forgets the sign of a zero. -/
def mergeZeros : UnpackedFloat → UnpackedFloat
  | .zero _ => .zero .positive
  | f => f

/-- Floats are equal if they differ at most in the sign of a zero. -/
theorem beq_iff_mergeZeros (x y : Float) :
    (x == y) = true ↔
      x.isNaN = false ∧ mergeZeros x.toModel.unpack = mergeZeros y.toModel.unpack := by
  change x.toModel.unpack.beq y.toModel.unpack = true ↔ x.toModel.unpack.isNaN = false ∧ _
  rw [Float.Model.UnpackedFloat.beq_iff_ne_notANumber_and_eq]
  cases x.toModel.unpack with
  | zero s =>
      cases y.toModel.unpack with
      | zero t => cases s <;> cases t <;> simp [mergeZeros, UnpackedFloat.isNaN]
      | infinity | notANumber | finite => simp [mergeZeros]
  | infinity | notANumber | finite =>
      cases y.toModel.unpack <;> simp [mergeZeros, UnpackedFloat.isNaN]

theorem beq_self_iff (x : Float) : (x == x) = true ↔ x.isNaN = false := by
  rw [beq_iff_mergeZeros, and_iff_left rfl]

theorem beq_symm {x y : Float} (hxy : (x == y) = true) : (y == x) = true := by
  rw [beq_iff, compare_swap]
  rw [beq_iff] at hxy
  rw [hxy]
  rfl

theorem beq_trans {x y z : Float} (hxy : (x == y) = true) (hyz : (y == z) = true) :
    (x == z) = true := by
  rw [beq_iff_mergeZeros] at hxy hyz ⊢
  exact ⟨hxy.1, hxy.2.trans hyz.2⟩

end FloatOrder

namespace Value

/-! ## Values -/

theorem int_or_float_of_asFloat? {a : Value} {x : Float} (hx : a.asFloat? = some x) :
    (∃ n, a = .int n ∧ floatOfInt n = x) ∨ a = .float x := by
  cases a with
  | int n => exact .inl ⟨n, rfl, Option.some.inj hx⟩
  | float y => exact .inr (congrArg float (Option.some.inj hx))
  | nil | bool | str => contradiction

/-- Two numbers are compared as floats if one of them is a float. -/
theorem operands?_eq_floats_iff {a b : Value} {x y : Float} :
    operands? a b = some (.floats x y) ↔
      a.asFloat? = some x ∧ b.asFloat? = some y ∧ (a.type = .float ∨ b.type = .float) := by
  cases a <;> cases b <;> simp [operands?]

/-- Values that are equal are the same, or they are equal as floats. -/
theorem equals_iff {a b : Value} :
    a.equals b = true ↔
      (a = b ∧ a.isNaN = false) ∨
        ∃ x y, operands? a b = some (.floats x y) ∧ (x == y) = true := by
  cases a with
  | float x =>
      cases b with
      | float y =>
          have hsame : x = y ∧ x.isNaN = false → (x == y) = true := by
            rintro ⟨rfl, hnan⟩
            exact (FloatOrder.beq_self_iff x).mpr hnan
          simpa [equals, operands?, isNaN] using hsame
      | nil | bool | int | str => simp [equals, operands?]
  | nil | bool | int | str => cases b <;> simp [equals, operands?, isNaN]

theorem equals_self_iff (a : Value) : a.equals a = true ↔ a.isNaN = false := by
  cases a with
  | float x => exact FloatOrder.beq_self_iff x
  | nil | bool | int | str => simp [equals, operands?, isNaN]

theorem equals_symm {a b : Value} (hab : a.equals b = true) : b.equals a = true := by
  rcases equals_iff.mp hab with ⟨rfl, _⟩ | ⟨x, y, hfloats, hxy⟩
  · exact hab
  · obtain ⟨hx, hy, hfloat⟩ := operands?_eq_floats_iff.mp hfloats
    exact equals_iff.mpr (.inr ⟨y, x, operands?_eq_floats_iff.mpr ⟨hy, hx, hfloat.symm⟩,
      FloatOrder.beq_symm hxy⟩)

/-- A chain of two equalities breaks only at a float between two integers. -/
theorem equals_trans {a b c : Value} (hab : a.equals b = true) (hbc : b.equals c = true) :
    a.equals c = true ∨
      ∃ m n x, a = .int m ∧ b = .float x ∧ c = .int n ∧
        (floatOfInt m == floatOfInt n) = true := by
  rcases equals_iff.mp hab with ⟨rfl, _⟩ | ⟨x, y, hfloats, hxy⟩
  · exact .inl hbc
  rcases equals_iff.mp hbc with ⟨rfl, _⟩ | ⟨y', z, hfloats', hyz⟩
  · exact .inl hab
  obtain ⟨hx, hy, hfloat⟩ := operands?_eq_floats_iff.mp hfloats
  obtain ⟨hy', hz, _⟩ := operands?_eq_floats_iff.mp hfloats'
  obtain rfl : y = y' := Option.some.inj (hy.symm.trans hy')
  have hxz := FloatOrder.beq_trans hxy hyz
  by_cases houter : a.type = .float ∨ c.type = .float
  · exact .inl (equals_iff.mpr (.inr ⟨x, z, operands?_eq_floats_iff.mpr ⟨hx, hz, houter⟩, hxz⟩))
  · rcases int_or_float_of_asFloat? hx with ⟨m, rfl, rfl⟩ | rfl
    · rcases int_or_float_of_asFloat? hz with ⟨n, rfl, rfl⟩ | rfl
      · rcases int_or_float_of_asFloat? hy with ⟨k, rfl, _⟩ | rfl
        · simp [type] at hfloat
        · exact .inr ⟨m, n, y, rfl, rfl, rfl, hxz⟩
      · exact absurd (.inr rfl) houter
    · exact absurd (.inl rfl) houter

end Value

/-- Equality is reflexive and symmetric, and transitive unless two different integers equal the
float between them. Both of them are then so large that floats do not tell all integers apart. -/
theorem equality_up_to_rounding (a b c : Value) :
    (a.equals a = true ↔ a.isNaN = false) ∧
      (a.equals b = true → b.equals a = true) ∧
      (a.equals b = true → b.equals c = true →
        a.equals c = true ∨
          ∃ m n x, a = .int m ∧ b = .float x ∧ c = .int n ∧ m ≠ n ∧
            2 ^ 53 ≤ m.toInt.natAbs ∧ 2 ^ 53 ≤ n.toInt.natAbs) := by
  refine ⟨a.equals_self_iff, Value.equals_symm, fun hab hbc => ?_⟩
  rcases Value.equals_trans hab hbc with hac | ⟨m, n, x, rfl, rfl, rfl, hmn⟩
  · exact .inl hac
  by_cases heq : m = n
  · exact .inl (Value.equals_iff.mpr (.inl ⟨congrArg Value.int heq, rfl⟩))
  · refine .inr ⟨m, n, x, rfl, rfl, rfl, heq, ?_, ?_⟩
    · by_contra hlt
      exact heq (IntegerFloats.eq_of_floatOfInt_beq hmn (Nat.lt_of_not_le hlt))
    · by_contra hlt
      exact heq (IntegerFloats.eq_of_floatOfInt_beq (FloatOrder.beq_symm hmn)
        (Nat.lt_of_not_le hlt)).symm

/-- Both zeros equal the integer zero, and so each other. -/
theorem equality_up_to_rounding_zeros :
    let a := Value.float 0.0
    let b := Value.int 0
    let c := Value.float (-0.0)
    (a.equals b = true ∧ b.equals c = true) ∧ b.equals a = true ∧ a.equals c = true := by
  intro a b c
  have hab : a.equals b = true := by decide
  have hbc : b.equals c = true := by decide
  obtain ⟨_, hsymm, htrans⟩ := equality_up_to_rounding a b c
  refine ⟨⟨hab, hbc⟩, hsymm hab, (htrans hab hbc).resolve_right ?_⟩
  rintro ⟨m, n, x, hint, _⟩
  contradiction

/-- `2 ^ 53` and the integer after it equal the same float, but not each other. -/
theorem equality_not_transitive :
    let a := Value.int 9007199254740992
    let b := Value.float 9007199254740992.0
    let c := Value.int 9007199254740993
    (a.isNaN = false ∧ b.isNaN = false ∧ c.isNaN = false) ∧
      a.equals b = true ∧ b.equals c = true ∧ a.equals c = false := by
  decide

end Scriptlet
