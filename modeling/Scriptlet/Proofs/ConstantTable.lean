import Scriptlet.Proofs.Constants

/-! # The constants of a chunk as a table

However a chunk is built, its constants form a table in which each of them stands once and keeps its
index. A constant is refused only if the table is full and does not hold it.
-/

namespace Scriptlet

namespace Constant

/-- Constants of one type that are the same to the bit. -/
def Identical : Constant → Constant → Prop
  | .nil, .nil => True
  | .bool a, .bool b => a = b
  | .int a, .int b => a = b
  | .float a, .float b => a = b
  | .str a, .str b => a = b
  | _, _ => False

theorem identical_iff_eq {a b : Constant} : a.Identical b ↔ a = b := by
  cases a <;> cases b <;> simp [Identical]

end Constant

/-! ## Indices -/

namespace Pool

variable {pool : Pool} {constant : Constant} {index : Nat}

theorem mem_held_iff :
    constant ∈ pool.held ↔ ∃ index : Nat, pool.constants[index]? = some constant := by
  rw [held, List.mem_toFinset, Array.mem_toList_iff, Array.mem_iff_getElem?]

theorem notMem_held_iff : constant ∉ pool.held ↔
    ∀ (index : Nat) (held : Constant), pool.constants[index]? = some held → held ≠ constant := by
  rw [mem_held_iff]
  constructor
  · rintro habsent index _ hget rfl
    exact habsent ⟨index, hget⟩
  · rintro hother ⟨index, hget⟩
    exact hother index constant hget rfl

/-- The constants that a pool holds stay in their places. -/
theorem prefix_add (pool : Pool) (constant : Constant) :
    pool.constants.toList <+: (pool.add constant).2.constants.toList := by
  rcases pool.add_cases constant with ⟨_, place, hadd⟩ | ⟨_, _, hadd⟩ | ⟨_, _, hadd⟩
  · rw [hadd]
  · rw [hadd, Array.toList_push]
    exact List.prefix_append _ _
  · rw [hadd]

namespace Compact

variable (hpool : pool.Compact)

include hpool

theorem add (constant : Constant) : (pool.add constant).2.Compact := by
  rcases pool.add_cases constant with ⟨_, place, hadd⟩ | ⟨habsent, hroom, hadd⟩ | ⟨_, _, hadd⟩
  · rwa [hadd]
  · rw [hadd]
    exact hpool.push habsent hroom
  · rwa [hadd]

theorem index_unique {other : Nat} (hget : pool.constants[index]? = some constant)
    (hother : pool.constants[other]? = some constant) : index = other := by
  obtain ⟨_, hconstant⟩ := Array.getElem?_eq_some_iff.mp hget
  obtain ⟨_, hsame⟩ := Array.getElem?_eq_some_iff.mp hother
  exact hpool.nodup.getElem_inj_iff.mp (hconstant.trans hsame.symm)

theorem lt_capacity (hget : pool.constants[index]? = some constant) : index < capacity :=
  Nat.lt_of_lt_of_le (Array.getElem?_eq_some_iff.mp hget).1 hpool.size_le

/-- The place where a constant is found is an index as it is. -/
theorem add_of_getElem? (hget : pool.constants[index]? = some constant) :
    pool.add constant = (some index, pool) := by
  have hheld : constant ∈ pool.held := mem_held_iff.mpr ⟨index, hget⟩
  cases hfind : pool.find? constant with
  | none => exact absurd hheld (find?_eq_none_iff.mp hfind)
  | some place =>
      obtain rfl := hpool.index_unique (getElem?_of_find?_eq_some hfind) hget
      simp only [Pool.add, hfind, Nat.mod_eq_of_lt (hpool.lt_capacity hget)]

theorem getElem?_of_add (hadd : (pool.add constant).1 = some index) :
    (pool.add constant).2.constants[index]? = some constant := by
  rcases pool.add_cases constant with ⟨hheld, _⟩ | ⟨_, _, hcase⟩ | ⟨_, _, hcase⟩
  · obtain ⟨place, hget⟩ := mem_held_iff.mp hheld
    rw [hpool.add_of_getElem? hget] at hadd ⊢
    rw [← Option.some.inj hadd]
    exact hget
  · rw [hcase] at hadd ⊢
    rw [← Option.some.inj hadd]
    exact Array.getElem?_push_size
  · rw [hcase] at hadd
    contradiction

theorem add_eq_none_iff :
    (pool.add constant).1 = none ↔ constant ∉ pool.held ∧ pool.size = capacity := by
  rcases pool.add_cases constant with ⟨hheld, _, hadd⟩ | ⟨_, hroom, hadd⟩ | ⟨habsent, hfull, hadd⟩
  · simp [hadd, hheld]
  · simp [hadd, Nat.ne_of_lt hroom]
  · simp [hadd, habsent, Nat.le_antisymm hpool.size_le hfull]

end Compact

end Pool

/-! ## Building chunks -/

namespace Chunk

/-- What is done to a chunk to build it. -/
inductive Call where
  | emit (instr : Instr) (pos : Pos)
  | addConstant (constant : Constant)

/-- The chunk after a call. -/
def after (chunk : Chunk) : Call → Chunk
  | .emit instr pos => chunk.emit instr pos
  | .addConstant constant => (chunk.addConstant constant).2

/-- The chunk after calls in turn. -/
def afterAll (chunk : Chunk) (calls : List Call) : Chunk :=
  calls.foldl after chunk

theorem compact_after {chunk : Chunk} (hpool : chunk.pool.Compact) (call : Call) :
    (chunk.after call).pool.Compact := by
  cases call with
  | emit => exact hpool
  | addConstant constant => exact hpool.add constant

theorem compact_afterAll {chunk : Chunk} (hpool : chunk.pool.Compact) (calls : List Call) :
    (chunk.afterAll calls).pool.Compact := by
  induction calls generalizing chunk with
  | nil => exact hpool
  | cons call calls ih => exact ih (compact_after hpool call)

theorem prefix_after (chunk : Chunk) (call : Call) :
    chunk.pool.constants.toList <+: (chunk.after call).pool.constants.toList := by
  cases call with
  | emit => exact List.prefix_rfl
  | addConstant constant => exact chunk.pool.prefix_add constant

/-- No constant changes its place. -/
theorem prefix_afterAll (chunk : Chunk) (calls : List Call) :
    chunk.pool.constants.toList <+: (chunk.afterAll calls).pool.constants.toList := by
  induction calls generalizing chunk with
  | nil => exact List.prefix_rfl
  | cons call calls ih => exact (chunk.prefix_after call).trans (ih (chunk.after call))

variable {chunk : Chunk} {constant : Constant} {index : Nat}

theorem getElem?_afterAll (hget : chunk.pool.constants[index]? = some constant)
    (calls : List Call) : (chunk.afterAll calls).pool.constants[index]? = some constant := by
  obtain ⟨hlt, hconstant⟩ := Array.getElem?_eq_some_iff.mp hget
  have hsame := List.prefix_iff_getElem?.mp (chunk.prefix_afterAll calls) index hlt
  rw [Array.getElem?_toList, Array.getElem_toList, hconstant] at hsame
  exact hsame

theorem addConstant_of_getElem? (hpool : chunk.pool.Compact)
    (hget : chunk.pool.constants[index]? = some constant) :
    chunk.addConstant constant = (some index, chunk) := by
  rw [addConstant, hpool.add_of_getElem? hget]

/-- A chunk that refuses a constant stays as it is. -/
theorem addConstant_of_none (hnone : (chunk.addConstant constant).1 = none) :
    (chunk.addConstant constant).2 = chunk := by
  rcases chunk.pool.add_cases constant with ⟨_, _, hadd⟩ | ⟨_, _, hadd⟩ | ⟨_, _, hadd⟩
  · rw [addConstant, hadd]
  · rw [addConstant, hadd] at hnone
    contradiction
  · rw [addConstant, hadd]

end Chunk

/-- However a chunk is built, its constants form a table of at most 65536 entries, no two of them
identical: an integer and a float, two zeros and two NaNs are told apart. A constant that is added
gets the index of an entry identical to it, and keeps it whatever is done to the chunk afterwards:
adding it again gives the same index and changes nothing. It is refused exactly if it is absent and
the table is full, which changes nothing either. -/
theorem constants_table (calls : List Chunk.Call) :
    let chunk := Chunk.empty.afterAll calls
    chunk.pool.size ≤ 65536 ∧
      (∀ (i j : Nat) (a b : Constant), chunk.pool.constants[i]? = some a →
        chunk.pool.constants[j]? = some b → a.Identical b → i = j) ∧
      (¬(Constant.ofValue (.int 1)).Identical (.ofValue (.float 1.0)) ∧
        ¬(Constant.ofValue (.float 0.0)).Identical (.ofValue (.float (-0.0))) ∧
        ¬(Constant.float 0x7FF8000000000000).Identical (.float 0x7FF8000000000001)) ∧
      ∀ constant,
        ((chunk.addConstant constant).1 = none ↔
          (∀ (i : Nat) (held : Constant), chunk.pool.constants[i]? = some held →
            ¬held.Identical constant) ∧ chunk.pool.size = 65536) ∧
        ((chunk.addConstant constant).1 = none → (chunk.addConstant constant).2 = chunk) ∧
        ∀ index, (chunk.addConstant constant).1 = some index →
          index < 65536 ∧
            ∀ more,
              let later := (chunk.addConstant constant).2.afterAll more
              (∃ held, later.pool.constants[index]? = some held ∧ held.Identical constant ∧
                later.pool.get? index = some held.value) ∧
                ∀ again : Constant, again.Identical constant →
                  later.addConstant again = (some index, later) := by
  intro chunk
  have hpool : chunk.pool.Compact := Chunk.compact_afterAll Pool.compact_empty calls
  simp only [Constant.identical_iff_eq]
  refine ⟨hpool.size_le, ?_, by decide, fun constant => ⟨?_, Chunk.addConstant_of_none, ?_⟩⟩
  · rintro i j a _ ha hb rfl
    exact hpool.index_unique ha hb
  · exact hpool.add_eq_none_iff.trans (and_congr_left' Pool.notMem_held_iff)
  · intro index hindex
    have hnext : (chunk.addConstant constant).2.pool.Compact := hpool.add constant
    have hget : (chunk.addConstant constant).2.pool.constants[index]? = some constant :=
      hpool.getElem?_of_add hindex
    refine ⟨hnext.lt_capacity hget, fun more => ?_⟩
    have hlater := Chunk.getElem?_afterAll hget more
    refine ⟨⟨constant, hlater, rfl, by rw [Pool.get?, hlater, Option.map_some]⟩, ?_⟩
    rintro _ rfl
    exact Chunk.addConstant_of_getElem? (Chunk.compact_afterAll hnext more) hlater

end Scriptlet
