import Mathlib.Algebra.Group.Int.Defs
import Mathlib.Tactic.ByContra
import Scriptlet.Machine.Step

/-! # Arithmetic

On integers, an operation gives its exact result or says that no 64-bit integer is that result. With
a float among two numbers it gives a float, and operands that it does not take are named in its
error. Instructions take the operand that was pushed first as the left one.
-/

namespace Scriptlet

/-! ## Integers -/

/-- What an operation on integers gives whose exact result is `n`: this integer, or an overflow if
it is not a 64-bit one. -/
structure Exact (symbol : String) (n : Int) (outcome : Except ValueError Value) : Prop where
  result : -2 ^ 63 ≤ n → n ≤ 2 ^ 63 - 1 → ∃ r : Int64, r.toInt = n ∧ outcome = .ok (.int r)
  overflow : n < -2 ^ 63 ∨ 2 ^ 63 - 1 < n → outcome = .error (.overflow symbol)

theorem exact_ofExact (symbol : String) (n : Int) : Exact symbol n (Value.ofExact symbol n) := by
  unfold Value.ofExact
  rw [Int64.toInt_minValue, Int64.toInt_maxValue]
  constructor
  · intro hmin hmax
    rw [if_pos ⟨hmin, hmax⟩]
    exact ⟨Int64.ofInt n, Int64.toInt_ofInt_of_le hmin (by omega), rfl⟩
  · intro hout
    rw [if_neg (by omega)]

namespace Exact

variable {symbol : String} {n : Int} {outcome : Except ValueError Value}
  (hexact : Exact symbol n outcome)

include hexact

theorem eq_overflow_iff :
    outcome = .error (.overflow symbol) ↔ n < -2 ^ 63 ∨ 2 ^ 63 - 1 < n := by
  refine ⟨fun heq => ?_, hexact.overflow⟩
  by_contra hin
  obtain ⟨r, _, hok⟩ := hexact.result (by omega) (by omega)
  rw [heq] at hok
  contradiction

theorem ne_divisionByZero : outcome ≠ .error .divisionByZero := by
  by_cases hout : n < -2 ^ 63 ∨ 2 ^ 63 - 1 < n
  · simp [hexact.overflow hout]
  · obtain ⟨r, _, hok⟩ := hexact.result (by omega) (by omega)
    simp [hok]

end Exact

/-- The quotient of 64-bit integers is a 64-bit integer, with one exception. -/
theorem tdiv_out_of_range_iff (x y : Int64) :
    (x.toInt.tdiv y.toInt < -2 ^ 63 ∨ 2 ^ 63 - 1 < x.toInt.tdiv y.toInt) ↔
      x.toInt = -2 ^ 63 ∧ y.toInt = -1 := by
  have hmin := x.le_toInt
  have hmax := x.toInt_lt
  constructor
  · intro hout
    have hunit : y.toInt = 1 ∨ y.toInt = -1 := by
      -- Any other divisor makes the dividend at most half as large.
      by_contra hother
      have habs : (x.toInt.tdiv y.toInt).natAbs = x.toInt.natAbs / y.toInt.natAbs :=
        Int.natAbs_tdiv _ _
      have hhalf : x.toInt.natAbs / y.toInt.natAbs ≤ x.toInt.natAbs / 2 := by
        by_cases hzero : y.toInt = 0
        · simp [hzero]
        · exact Nat.div_le_div_left (by omega) (by decide)
      omega
    rcases hunit with hone | hone
    · rw [hone, Int.tdiv_one] at hout
      omega
    · rw [hone, Int.tdiv_neg, Int.tdiv_one] at hout
      omega
  · rintro ⟨hx, hy⟩
    rw [hx, hy]
    decide

/-! ## Operations -/

namespace Value

def IsNumber (v : Value) : Prop :=
  v.type = .int ∨ v.type = .float

theorem IsNumber.int_or_float {v : Value} (hv : v.IsNumber) :
    (∃ n, v = .int n) ∨ ∃ x, v = .float x := by
  cases v with
  | int n => exact .inl ⟨n, rfl⟩
  | float x => exact .inr ⟨x, rfl⟩
  | nil | bool | str => simp [IsNumber, type] at hv

theorem operands?_eq_none_iff {a b : Value} :
    operands? a b = none ↔ ¬(a.IsNumber ∧ b.IsNumber) := by
  cases a <;> cases b <;> simp [operands?, IsNumber]

end Value

/-- The operations of arithmetic on two values. -/
inductive Arith where
  | add
  | subtract
  | multiply
  | divide

namespace Arith

def symbol : Arith → String
  | .add => "+"
  | .subtract => "-"
  | .multiply => "*"
  | .divide => "/"

/-- The operation on integers. -/
def exact : Arith → Int → Int → Int
  | .add => (· + ·)
  | .subtract => (· - ·)
  | .multiply => (· * ·)
  | .divide => Int.tdiv

/-- The operation on floats. -/
def approximate : Arith → Float → Float → Float
  | .add => (· + ·)
  | .subtract => (· - ·)
  | .multiply => (· * ·)
  | .divide => (· / ·)

def apply : Arith → Value → Value → Except ValueError Value
  | .add => Value.add
  | .subtract => Value.subtract
  | .multiply => Value.multiply
  | .divide => Value.divide

def instr : Arith → Instr
  | .add => .add
  | .subtract => .subtract
  | .multiply => .multiply
  | .divide => .divide

variable (op : Arith) {a b : Value}

/-- Strings that are joined and a division of integers by zero are the special cases. -/
theorem apply_eq_arithmetic (hstrings : ¬(op = .add ∧ a.type = .str ∧ b.type = .str))
    (hzero : ¬(op = .divide ∧ ∃ x, Value.operands? a b = some (.ints x 0))) :
    op.apply a b = Value.arithmetic op.symbol op.exact op.approximate a b := by
  cases op with
  | add =>
      rw [apply, Value.add]
      · rfl
      · rintro s t rfl rfl
        exact hstrings ⟨rfl, rfl, rfl⟩
  | subtract | multiply => rfl
  | divide =>
      rw [apply, Value.divide]
      split
      · next x hoperands => exact absurd ⟨rfl, x, hoperands⟩ hzero
      · rfl

theorem exact_apply {x y : Int64} (hzero : ¬(op = .divide ∧ y = 0)) :
    Exact op.symbol (op.exact x.toInt y.toInt) (op.apply (.int x) (.int y)) := by
  rw [apply_eq_arithmetic]
  · exact exact_ofExact _ _
  · rintro ⟨_, hstr, _⟩
    contradiction
  · rintro ⟨hop, _, hoperands⟩
    cases hoperands
    exact hzero ⟨hop, rfl⟩

theorem apply_of_floats {x y : Float} (hfloats : Value.operands? a b = some (.floats x y)) :
    op.apply a b = .ok (.float (op.approximate x y)) := by
  rw [apply_eq_arithmetic, Value.arithmetic, hfloats]
  · rintro ⟨_, ha, hb⟩
    cases a <;> cases b <;> cases ha <;> cases hb
    contradiction
  · simp [hfloats]

/-- The error names the types of operands that are neither numbers nor strings to be joined. -/
theorem apply_of_mismatch (hnumbers : ¬(a.IsNumber ∧ b.IsNumber))
    (hstrings : ¬(op = .add ∧ a.type = .str ∧ b.type = .str)) :
    op.apply a b = .error (Value.mismatch op.symbol a b) := by
  have hoperands := Value.operands?_eq_none_iff.mpr hnumbers
  rw [apply_eq_arithmetic op hstrings, Value.arithmetic, hoperands]
  simp [hoperands]

end Arith

/-! ## Divisions and negations that fail -/

namespace Value

variable (x y : Int64)

theorem exact_negate : Exact "-" (-x.toInt) (int x).negate :=
  exact_ofExact _ _

theorem exact_divide {x y : Int64} (hy : y ≠ 0) :
    Exact "/" (x.toInt.tdiv y.toInt) ((int x).divide (int y)) :=
  Arith.exact_apply .divide (by simp [hy])

theorem divide_zero : (int x).divide (int 0) = .error .divisionByZero := rfl

theorem divide_eq_divisionByZero_iff :
    (int x).divide (int y) = .error .divisionByZero ↔ y = 0 := by
  constructor
  · intro hzero
    by_contra hy
    exact (exact_divide hy).ne_divisionByZero hzero
  · rintro rfl
    exact divide_zero x

theorem divide_eq_overflow_iff :
    (int x).divide (int y) = .error (.overflow "/") ↔ x.toInt = -2 ^ 63 ∧ y.toInt = -1 := by
  by_cases hy : y = 0
  · subst hy
    simp [divide_zero]
  · rw [(exact_divide hy).eq_overflow_iff]
    exact tdiv_out_of_range_iff x y

theorem negate_eq_overflow_iff : (int x).negate = .error (.overflow "-") ↔ x.toInt = -2 ^ 63 := by
  have hmin := x.le_toInt
  have hmax := x.toInt_lt
  rw [(exact_negate x).eq_overflow_iff]
  omega

end Value

/-! ## Instructions -/

namespace Machine

variable {m : Machine}

/-- The machine with one more value on its stack. -/
def topped (m : Machine) (value : Value) : Machine :=
  { m with stack := { m.stack with values := m.stack.values.push value } }

theorem push_of_room (hroom : m.stack.depth < m.stack.limit) (value : Value) :
    push value m = .ok () (m.topped value) := by
  simp only [push, Stack.push, if_pos (show m.stack.values.size < m.stack.limit from hroom)]
  rfl

theorem pop_topped (m : Machine) (value : Value) : pop (m.topped value) = .ok value m := by
  simp [pop, topped, Stack.pop]

/-- The value on top is the right operand. -/
theorem binary_topped (hroom : m.stack.depth < m.stack.limit)
    (operation : Value → Value → Except ValueError Value) (left right : Value) :
    binary operation ((m.topped left).topped right) =
      match operation left right with
      | .ok value => .ok () (m.topped value)
      | .error e => .error (.ofValueError e) m := by
  simp only [binary, bind, EStateM.bind, pop_topped]
  cases operation left right with
  | ok value => exact push_of_room hroom value
  | error e => rfl

theorem step_arith (pool : Pool) (op : Arith) : step pool op.instr = binary op.apply := by
  cases op <;> rfl

theorem push_push_arith (hroom : m.stack.depth + 2 ≤ m.stack.limit) (pool : Pool) (op : Arith)
    (a b : Value) :
    (do push a; push b; step pool op.instr : Step Unit) m =
      match op.apply a b with
      | .ok value => .ok () (m.topped value)
      | .error e => .error (.ofValueError e) m := by
  have hfirst : push a m = .ok () (m.topped a) := push_of_room (by omega) a
  have hdepth : (m.topped a).stack.depth = m.stack.depth + 1 := Array.size_push a
  have hsecond : push b (m.topped a) = .ok () ((m.topped a).topped b) :=
    push_of_room (by rw [hdepth]; exact hroom) b
  simp only [bind, EStateM.bind, hfirst, hsecond, step_arith]
  exact binary_topped (by omega) op.apply a b

end Machine

/-- Arithmetic is exact or names what is wrong. Sums, differences and products of integers are exact
or overflow; a quotient is truncated toward zero, unless the divisor is zero or the quotient is no
64-bit integer, which happens once. A float among two numbers makes both of them floats, and the
result too. Strings can only be joined, and no other two operands are taken. As instructions, the
operations take what was pushed first as the left operand. -/
theorem arithmetic_exact_or_error :
    (∀ x y : Int64,
      Exact "+" (x.toInt + y.toInt) ((Value.int x).add (.int y)) ∧
      Exact "-" (x.toInt - y.toInt) ((Value.int x).subtract (.int y)) ∧
      Exact "*" (x.toInt * y.toInt) ((Value.int x).multiply (.int y)) ∧
      ((Value.int x).divide (.int y) = .error .divisionByZero ↔ y = 0) ∧
      ((Value.int x).divide (.int y) = .error (.overflow "/") ↔
        x.toInt = -2 ^ 63 ∧ y.toInt = -1) ∧
      (y ≠ 0 → ¬(x.toInt = -2 ^ 63 ∧ y.toInt = -1) →
        ∃ q : Int64, q.toInt = x.toInt.tdiv y.toInt ∧
          (Value.int x).divide (.int y) = .ok (.int q))) ∧
    (∀ n : Int64,
      Exact "-" (-n.toInt) (Value.int n).negate ∧
      ((Value.int n).negate = .error (.overflow "-") ↔ n.toInt = -2 ^ 63)) ∧
    (∀ s t : String, (Value.str s).add (.str t) = .ok (.str (s ++ t))) ∧
    ∀ op : Arith,
      (∀ (x y : Float) (n : Int64),
        op.apply (.float x) (.float y) = .ok (.float (op.approximate x y)) ∧
        op.apply (.float x) (.int n) = .ok (.float (op.approximate x (.ofInt n.toInt))) ∧
        op.apply (.int n) (.float y) = .ok (.float (op.approximate (.ofInt n.toInt) y))) ∧
      (∀ a b : Value, ¬(a.IsNumber ∧ b.IsNumber) →
        ¬(op = .add ∧ a.type = .str ∧ b.type = .str) →
        op.apply a b =
          .error (.typeMismatch "number" s!"{a.typeName} {op.symbol} {b.typeName}")) ∧
      ∀ (pool : Pool) (m : Machine) (a b : Value), m.stack.depth + 2 ≤ m.stack.limit →
        (do Machine.push a; Machine.push b; Machine.step pool op.instr : Machine.Step Unit) m =
          match op.apply a b with
          | .ok value => .ok () (m.topped value)
          | .error e => .error (.ofValueError e) m := by
  refine ⟨fun x y => ⟨?_, ?_, ?_, ?_, ?_, fun hy hpair => ?_⟩, fun n => ⟨?_, ?_⟩, fun s t => rfl,
    fun op => ⟨fun x y n => ⟨?_, ?_, ?_⟩, fun a b hnumbers hstrings => ?_, ?_⟩⟩
  · exact Arith.exact_apply .add (by simp)
  · exact Arith.exact_apply .subtract (by simp)
  · exact Arith.exact_apply .multiply (by simp)
  · exact Value.divide_eq_divisionByZero_iff x y
  · exact Value.divide_eq_overflow_iff x y
  · have hrange := mt (tdiv_out_of_range_iff x y).mp hpair
    exact (Value.exact_divide hy).result (by omega) (by omega)
  · exact Value.exact_negate n
  · exact Value.negate_eq_overflow_iff n
  · exact op.apply_of_floats rfl
  · exact op.apply_of_floats rfl
  · exact op.apply_of_floats rfl
  · exact op.apply_of_mismatch hnumbers hstrings
  · intro pool m a b hroom
    exact Machine.push_push_arith hroom pool op a b

end Scriptlet
