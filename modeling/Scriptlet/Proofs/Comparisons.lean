import Scriptlet.Bytecode.Lowering
import Scriptlet.Proofs.Arithmetic
import Scriptlet.Proofs.FloatOrder
import Scriptlet.Proofs.Running

/-! # Comparisons without an instruction

`>=`, `<=` and `!=` are computed as the negations of `<`, `>` and `==`. This is what they say as
long as both operands have a place in the order of numbers. Next to a NaN, which has none, both `>=`
and `<=` hold, although neither `>`, `<` nor `==` does.
-/

namespace Scriptlet

namespace Value

def isNaN : Value → Bool
  | .float x => x.isNaN
  | _ => false

/-- How two numbers compare, or `none` if they do not. -/
structure Compares (a b : Value) (order : Option Ordering) : Prop where
  unordered : order = none ↔ a.isNaN = true ∨ b.isNaN = true
  greater : a.greater b = .ok (order == some .gt)
  less : a.less b = .ok (order == some .lt)
  equals : a.equals b = (order == some .eq)

theorem compares_ints (x y : Int64) :
    Compares (int x) (int y) (some (compare x.toInt y.toInt)) := by
  refine ⟨by simp [isNaN], congrArg Except.ok ?_, congrArg Except.ok ?_, ?_⟩
  · rw [Bool.eq_iff_iff, decide_eq_true_iff, beq_iff_eq, Option.some_inj, Int.compare_eq_gt]
    exact Int64.lt_iff_toInt_lt
  · rw [Bool.eq_iff_iff, decide_eq_true_iff, beq_iff_eq, Option.some_inj, Int.compare_eq_lt]
    exact Int64.lt_iff_toInt_lt
  · change (x == y) = _
    rw [Bool.eq_iff_iff, beq_iff_eq, beq_iff_eq, Option.some_inj, Int.compare_eq_eq]
    exact Int64.toInt_inj.symm

/-- Two numbers are integers or are compared as floats. -/
theorem ints_or_floats {a b : Value} (ha : a.IsNumber) (hb : b.IsNumber) :
    (∃ x y, a = .int x ∧ b = .int y) ∨
      ∃ x y, operands? a b = some (.floats x y) ∧ x.isNaN = a.isNaN ∧ y.isNaN = b.isNaN := by
  obtain ⟨n, rfl⟩ | ⟨x, rfl⟩ := ha.int_or_float
  · obtain ⟨k, rfl⟩ | ⟨y, rfl⟩ := hb.int_or_float
    · exact .inl ⟨n, k, rfl, rfl⟩
    · exact .inr ⟨_, y, rfl, FloatOrder.isNaN_floatOfInt n, rfl⟩
  · obtain ⟨k, rfl⟩ | ⟨y, rfl⟩ := hb.int_or_float
    · exact .inr ⟨x, _, rfl, rfl, FloatOrder.isNaN_floatOfInt k⟩
    · exact .inr ⟨x, y, rfl, rfl, rfl⟩

theorem equals_of_floats {a b : Value} {x y : Float}
    (hfloats : operands? a b = some (.floats x y)) : a.equals b = (x == y) := by
  unfold equals
  split
  · contradiction
  · contradiction
  · contradiction
  · rw [hfloats]

theorem compares_floats {a b : Value} {x y : Float} (hfloats : operands? a b = some (.floats x y))
    (hx : x.isNaN = a.isNaN) (hy : y.isNaN = b.isNaN) :
    Compares a b (x.toModel.unpack.compare y.toModel.unpack) := by
  refine ⟨?_, ?_, ?_, ?_⟩
  · rw [← hx, ← hy, FloatOrder.isNaN_iff]
  · rw [greater, hfloats]
    refine congrArg Except.ok ?_
    rw [Bool.eq_iff_iff, decide_eq_true_iff, beq_iff_eq, FloatOrder.gt_iff]
  · rw [less, hfloats]
    refine congrArg Except.ok ?_
    rw [Bool.eq_iff_iff, decide_eq_true_iff, beq_iff_eq, FloatOrder.lt_iff]
  · rw [equals_of_floats hfloats, Bool.eq_iff_iff, FloatOrder.beq_iff, beq_iff_eq]

theorem exists_compares {a b : Value} (ha : a.IsNumber) (hb : b.IsNumber) :
    ∃ order, Compares a b order := by
  obtain ⟨x, y, rfl, rfl⟩ | ⟨x, y, hfloats, hx, hy⟩ := ints_or_floats ha hb
  · exact ⟨_, compares_ints x y⟩
  · exact ⟨_, compares_floats hfloats hx hy⟩

end Value

namespace Machine

variable {m : Machine}

/-- A comparison followed by a negation. -/
theorem perform_negated (hroom : m.stack.depth < m.stack.limit) {pool : Pool} {instr : Instr}
    {compares : Value → Value → Except ValueError Bool}
    (hinstr : step pool instr = binary fun a b => (compares a b).map .bool) {a b : Value}
    {holds : Bool} (hholds : compares a b = .ok holds) :
    perform pool [instr, .not] ((m.topped a).topped b) = .ok () (m.topped (.bool !holds)) := by
  have hfirst : step pool instr ((m.topped a).topped b) = .ok () (m.topped (.bool holds)) := by
    rw [hinstr, binary_topped hroom, hholds]
    rfl
  have hsecond : step pool .not (m.topped (.bool holds)) = .ok () (m.topped (.bool !holds)) := by
    simp only [step, unary, bind, EStateM.bind, pop_topped]
    exact push_of_room hroom (.bool !holds)
  simp only [perform_cons, perform_nil, bind, EStateM.bind, hfirst, hsecond]
  rfl

end Machine

/-- What the code of `>=`, `<=` and `!=` makes of two numbers. It gives a boolean, and `!=` holds
exactly if `==` does not. But `>=` holds not only if `>` or `==` does, and `<=` not only if `<` or
`==` does: next to a NaN both hold, and `>`, `<` and `==` do not. -/
theorem negated_comparisons (pool : Pool) {m : Machine} (hroom : m.stack.depth < m.stack.limit)
    {a b : Value} (ha : a.IsNumber) (hb : b.IsNumber) :
    ∃ ge le ne : Bool,
      Machine.perform pool BinaryOp.greaterEqual.instrs ((m.topped a).topped b) =
        .ok () (m.topped (.bool ge)) ∧
      Machine.perform pool BinaryOp.lessEqual.instrs ((m.topped a).topped b) =
        .ok () (m.topped (.bool le)) ∧
      Machine.perform pool BinaryOp.notEqual.instrs ((m.topped a).topped b) =
        .ok () (m.topped (.bool ne)) ∧
      (ge = true ↔ a.greater b = .ok true ∨ a.equals b = true ∨ a.isNaN = true ∨ b.isNaN = true) ∧
      (le = true ↔ a.less b = .ok true ∨ a.equals b = true ∨ a.isNaN = true ∨ b.isNaN = true) ∧
      (ne = true ↔ a.equals b = false) ∧
      (a.isNaN = true ∨ b.isNaN = true →
        a.greater b = .ok false ∧ a.less b = .ok false ∧ a.equals b = false) := by
  obtain ⟨order, hunordered, hgreater, hless, hequals⟩ := Value.exists_compares ha hb
  have hequal : Machine.step pool .equal =
      Machine.binary fun a b => (Except.ok (a.equals b)).map .bool := rfl
  refine ⟨_, _, _, Machine.perform_negated hroom rfl hless,
    Machine.perform_negated hroom rfl hgreater, Machine.perform_negated hroom hequal rfl, ?_⟩
  rw [← hunordered, hgreater, hless, hequals]
  cases order with
  | none => simp
  | some order => cases order <;> simp

/-- The quotient of two zeros is at least and at most one. -/
theorem negated_comparisons_nan :
    let m := Machine.init 2 none
    let a := Value.float (0.0 / 0.0)
    let b := Value.int 1
    (m.stack.depth < m.stack.limit ∧ a.IsNumber ∧ b.IsNumber ∧ a.isNaN = true) ∧
    Machine.perform .empty [.less, .not] ((m.topped a).topped b) = .ok () (m.topped (.bool true)) ∧
    Machine.perform .empty [.greater, .not] ((m.topped a).topped b) =
      .ok () (m.topped (.bool true)) ∧
    a.greater b = .ok false ∧ a.less b = .ok false ∧ a.equals b = false := by
  intro m a b
  have hroom : m.stack.depth < m.stack.limit := by decide
  have ha : a.IsNumber := .inr rfl
  have hb : b.IsNumber := .inl rfl
  have hnan : a.isNaN = true := by decide
  obtain ⟨ge, le, ne, hge, hle, _, hgeIff, hleIff, _, hnone⟩ :=
    negated_comparisons .empty hroom ha hb
  rw [hgeIff.mpr (.inr (.inr (.inl hnan)))] at hge
  rw [hleIff.mpr (.inr (.inr (.inl hnan)))] at hle
  exact ⟨⟨hroom, ha, hb, hnan⟩, hge, hle, hnone (.inl hnan)⟩

end Scriptlet
