import Mathlib
import Scriptlet.Bytecode.Lowering

/-! # Pools of constants

A pool holds each constant once. Adding constants in turn succeeds as long as the distinct ones
among them fit, whatever their order and however often each of them is added.

That a float is what its bits stand for is a fact of the library that only the whole of it brings.
-/

namespace Scriptlet

/-- A value is kept without a loss. -/
@[simp] theorem Constant.value_ofValue (value : Value) : (ofValue value).value = value := by
  cases value with
  | float x => exact congrArg Value.float (Float.ofBits_toBits x)
  | nil | bool | int | str => rfl

theorem Constant.ofValue_injective : Function.Injective ofValue :=
  Function.LeftInverse.injective value_ofValue

namespace Pool

/-- The constants of a pool. -/
def held (pool : Pool) : Finset Constant := pool.constants.toList.toFinset

/-- Each constant stands once, and an index can tell them apart. -/
structure Compact (pool : Pool) : Prop where
  nodup : pool.constants.toList.Nodup
  size_le : pool.size ≤ capacity

theorem compact_empty : empty.Compact := by
  constructor
  · exact List.nodup_nil
  · exact Nat.zero_le _

@[simp] theorem held_empty : empty.held = ∅ := rfl

theorem Compact.card_held {pool : Pool} (hpool : pool.Compact) : pool.held.card = pool.size := by
  rw [held, List.toFinset_card_of_nodup hpool.nodup]
  rfl

/-! ## Finding constants -/

theorem find?_eq_none_iff {pool : Pool} {constant : Constant} :
    pool.find? constant = none ↔ constant ∉ pool.held := by
  simp [find?, held]

theorem getElem?_of_find?_eq_some {pool : Pool} {constant : Constant} {place : Nat}
    (hplace : pool.find? constant = some place) : pool.constants[place]? = some constant := by
  obtain ⟨⟨constants⟩⟩ := pool
  simp only [find?, List.idxOf?_toArray] at hplace
  obtain ⟨hlt, hconstant, _⟩ := List.idxOf?_eq_some_iff.mp hplace
  simp [List.getElem?_eq_getElem hlt, hconstant]

theorem lt_size_of_get? {pool : Pool} {index : Nat} {value : Value}
    (hget : pool.get? index = some value) : index < pool.size := by
  obtain ⟨constant, hconstant, _⟩ := Option.map_eq_some_iff.mp hget
  exact (Array.getElem?_eq_some_iff.mp hconstant).1

/-- A constant that the pool holds stands at its index. -/
theorem getElem?_index {pool : Pool} {value : Value} (hvalue : .ofValue value ∈ pool.held) :
    pool.constants[pool.index value]? = some (.ofValue value) := by
  cases hplace : pool.find? (.ofValue value) with
  | none => exact absurd hvalue (find?_eq_none_iff.mp hplace)
  | some place =>
      rw [index, hplace]
      exact getElem?_of_find?_eq_some hplace

theorem get?_index {pool : Pool} {value : Value} (hvalue : .ofValue value ∈ pool.held) :
    pool.get? (pool.index value) = some value := by
  rw [get?, getElem?_index hvalue, Option.map_some, Constant.value_ofValue]

theorem index_lt_size {pool : Pool} {value : Value} (hvalue : .ofValue value ∈ pool.held) :
    pool.index value < pool.size :=
  lt_size_of_get? (get?_index hvalue)

/-! ## Adding constants -/

/-- All that adding a constant can do. -/
theorem add_cases (pool : Pool) (constant : Constant) :
    (constant ∈ pool.held ∧ ∃ place, pool.add constant = (some place, pool)) ∨
      (constant ∉ pool.held ∧ pool.size < capacity ∧
        pool.add constant = (some pool.size, ⟨pool.constants.push constant⟩)) ∨
      (constant ∉ pool.held ∧ capacity ≤ pool.size ∧ pool.add constant = (none, pool)) := by
  unfold add
  cases hplace : pool.find? constant with
  | some place =>
      refine .inl ⟨?_, _, rfl⟩
      by_contra hconstant
      simp [find?_eq_none_iff.mpr hconstant] at hplace
  | none =>
      have hconstant := find?_eq_none_iff.mp hplace
      by_cases hroom : pool.size < capacity
      · exact .inr (.inl ⟨hconstant, hroom, by simp [hroom]⟩)
      · exact .inr (.inr ⟨hconstant, Nat.le_of_not_lt hroom, by simp [hroom]⟩)

theorem held_push (pool : Pool) (constant : Constant) :
    held ⟨pool.constants.push constant⟩ = insert constant pool.held := by
  ext other
  simp [held]

theorem Compact.push {pool : Pool} (hpool : pool.Compact) {constant : Constant}
    (hconstant : constant ∉ pool.held) (hroom : pool.size < capacity) :
    Compact ⟨pool.constants.push constant⟩ := by
  constructor
  · rw [Array.toList_push]
    refine List.Nodup.append hpool.nodup (List.nodup_singleton constant) ?_
    simpa [held] using hconstant
  · rw [size, Array.size_push]
    exact hroom

/-- Adds values in turn; none if there is no room for one of them. -/
def addAll (pool : Pool) : List Value → Option Pool
  | [] => some pool
  | value :: rest =>
    match pool.add (.ofValue value) with
    | (some _, pool) => pool.addAll rest
    | (none, _) => none

theorem addAll_append (pool : Pool) (first second : List Value) :
    pool.addAll (first ++ second) = (pool.addAll first).bind (·.addAll second) := by
  induction first generalizing pool with
  | nil => rfl
  | cons value rest ih =>
      rw [List.cons_append, addAll, addAll]
      split
      · exact ih _
      · rfl

theorem addAll_append_of_eq_some {pool middle next : Pool} {first second : List Value}
    (hfirst : pool.addAll first = some middle) (hsecond : middle.addAll second = some next) :
    pool.addAll (first ++ second) = some next := by
  rw [addAll_append, hfirst]
  exact hsecond

theorem addAll_singleton {pool next : Pool} {value : Value} {index : Nat}
    (hadd : pool.add (.ofValue value) = (some index, next)) :
    pool.addAll [value] = some next := by
  simp [addAll, hadd]

/-- The constants that stand for values. -/
def standing (values : List Value) : Finset Constant := values.toFinset.image .ofValue

theorem mem_standing_iff {values : List Value} {value : Value} :
    .ofValue value ∈ standing values ↔ value ∈ values := by
  rw [standing, Constant.ofValue_injective.mem_finset_image, List.mem_toFinset]

theorem standing_cons (value : Value) (values : List Value) :
    standing (value :: values) = insert (.ofValue value) (standing values) := by
  rw [standing, List.toFinset_cons, Finset.image_insert, standing]

theorem card_standing (values : List Value) : (standing values).card = values.toFinset.card :=
  Finset.card_image_of_injective _ Constant.ofValue_injective

/-- After values have been added, the pool holds them and what it held before. -/
theorem held_of_addAll {pool next : Pool} {values : List Value}
    (hadd : pool.addAll values = some next) (hpool : pool.Compact) :
    next.Compact ∧ next.held = pool.held ∪ standing values := by
  induction values generalizing pool with
  | nil =>
      obtain rfl : pool = next := Option.some.inj hadd
      exact ⟨hpool, (Finset.union_empty _).symm⟩
  | cons value rest ih =>
      rcases pool.add_cases (.ofValue value) with
        ⟨hvalue, place, hcase⟩ | ⟨hvalue, hroom, hcase⟩ | ⟨_, _, hcase⟩
      · rw [addAll, hcase] at hadd
        obtain ⟨hcompact, hheld⟩ := ih hadd hpool
        refine ⟨hcompact, ?_⟩
        rw [hheld, standing_cons, Finset.union_insert, Finset.insert_eq_self.mpr]
        exact Finset.mem_union_left _ hvalue
      · rw [addAll, hcase] at hadd
        obtain ⟨hcompact, hheld⟩ := ih hadd (hpool.push hvalue hroom)
        refine ⟨hcompact, ?_⟩
        rw [hheld, held_push, standing_cons, Finset.union_insert, Finset.insert_union]
      · rw [addAll, hcase] at hadd
        contradiction

/-- Values can be added exactly if the distinct ones fit. -/
theorem exists_addAll_iff {pool : Pool} (hpool : pool.Compact) (values : List Value) :
    (∃ next, pool.addAll values = some next) ↔
      (pool.held ∪ standing values).card ≤ capacity := by
  constructor
  · rintro ⟨next, hadd⟩
    obtain ⟨hcompact, hheld⟩ := held_of_addAll hadd hpool
    rw [← hheld, hcompact.card_held]
    exact hcompact.size_le
  · intro hcard
    induction values generalizing pool with
    | nil => exact ⟨pool, rfl⟩
    | cons value rest ih =>
        rw [standing_cons, Finset.union_insert, ← Finset.insert_union] at hcard
        rw [addAll]
        rcases pool.add_cases (.ofValue value) with
          ⟨hvalue, place, hcase⟩ | ⟨hvalue, hroom, hcase⟩ | ⟨hvalue, hfull, hcase⟩
        · rw [hcase]
          rw [Finset.insert_eq_self.mpr hvalue] at hcard
          exact ih hpool hcard
        · rw [hcase]
          rw [← held_push] at hcard
          exact ih (hpool.push hvalue hroom) hcard
        · -- The pool is full of other constants.
          have hsub : insert (.ofValue value) pool.held ⊆
              insert (.ofValue value) pool.held ∪ standing rest := Finset.subset_union_left
          have hle := Finset.card_le_card hsub
          rw [Finset.card_insert_of_notMem hvalue, hpool.card_held] at hle
          omega

/-- An empty pool has room for as many distinct values as a pool can hold. -/
theorem exists_addAll_empty_iff {values : List Value} :
    (∃ pool, empty.addAll values = some pool) ↔ values.toFinset.card ≤ 65536 := by
  rw [exists_addAll_iff compact_empty, held_empty, Finset.empty_union, card_standing]
  rfl

end Pool

end Scriptlet
