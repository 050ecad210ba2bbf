import Scriptlet.Program.Scope
import Scriptlet.Proofs.Grammar

/-! # Scopes as stacks of blocks

Between statements a scope is determined by the names that each open block has declared. Opening
and closing a block, declaring a variable and looking one up are operations on that stack of names.
-/

namespace Scriptlet.Scope

/-- The variables of a block at `depth`, on top of those around it. -/
def stack (depth : Nat) (outer : List Local) : List String → List Local
  | [] => outer
  | name :: earlier =>
    let below := stack depth outer earlier
    ⟨name, below.length, some depth⟩ :: below

def localsOf : Blocks → List Local
  | [] => []
  | block :: outer => stack (outer.length + 1) (localsOf outer) block

/-- The scope inside open blocks, all of whose variables are usable. -/
def ofBlocks (blocks : Blocks) : Scope :=
  ⟨localsOf blocks, blocks.length⟩

/-- The names in scope, innermost first. -/
def names (scope : Scope) : List String := scope.locals.map Local.name

theorem map_name_stack (depth : Nat) (outer : List Local) (block : List String) :
    (stack depth outer block).map Local.name = block ++ outer.map Local.name := by
  induction block with
  | nil => rfl
  | cons name earlier ih => simp [stack, ih]

@[simp] theorem names_ofBlocks (blocks : Blocks) : (ofBlocks blocks).names = blocks.names := by
  simp only [names, ofBlocks]
  induction blocks with
  | nil => rfl
  | cons block outer ih =>
      rw [localsOf, map_name_stack, ih]
      rfl

@[simp] theorem depth_ofBlocks (blocks : Blocks) : (ofBlocks blocks).depth = blocks.length := rfl

theorem enter_ofBlocks (blocks : Blocks) : (ofBlocks blocks).enter = ofBlocks ([] :: blocks) := rfl

/-! ## Slots -/

/-- The innermost variable has the last slot. -/
def Packed : List Local → Prop
  | [] => True
  | l :: outer => l.slot = outer.length

theorem packed_stack (depth : Nat) {outer : List Local} (houter : Packed outer)
    (block : List String) : Packed (stack depth outer block) := by
  cases block with
  | nil => exact houter
  | cons name earlier => rfl

theorem packed_localsOf (blocks : Blocks) : Packed (localsOf blocks) := by
  induction blocks with
  | nil => trivial
  | cons block outer ih => exact packed_stack _ ih block

theorem size_ofBlocks (blocks : Blocks) : (ofBlocks blocks).size = blocks.names.length := by
  have hpacked := packed_localsOf blocks
  rw [← names_ofBlocks, names, List.length_map]
  simp only [size, ofBlocks]
  cases hlocals : localsOf blocks with
  | nil => rfl
  | cons l outer =>
      rw [hlocals] at hpacked
      simp only [Packed] at hpacked
      simp [hpacked]

/-! ## Closing and searching blocks -/

/-- Every variable is usable and belongs to one of the open blocks. -/
theorem depth_of_mem_localsOf {blocks : Blocks} {l : Local} (hl : l ∈ localsOf blocks) :
    ∃ depth, l.depth = some depth ∧ depth ≤ blocks.length := by
  induction blocks with
  | nil => simp [localsOf] at hl
  | cons block outer ih =>
      rw [localsOf] at hl
      induction block with
      | nil =>
          obtain ⟨depth, hdepth, hle⟩ := ih hl
          exact ⟨depth, hdepth, Nat.le_succ_of_le hle⟩
      | cons name earlier ihblock =>
          rcases List.mem_cons.mp hl with rfl | hl
          · exact ⟨outer.length + 1, rfl, Nat.le_refl _⟩
          · exact ihblock hl

theorem dropWhile_localsOf (blocks : Blocks) {depth : Nat} (hdepth : blocks.length ≤ depth) :
    (localsOf blocks).dropWhile (fun l => !l.depth.any (· ≤ depth)) = localsOf blocks := by
  cases hlocals : localsOf blocks with
  | nil => rfl
  | cons l outer =>
      have hl : l ∈ localsOf blocks := by simp [hlocals]
      obtain ⟨d, hd, hle⟩ := depth_of_mem_localsOf hl
      have hle : d ≤ depth := Nat.le_trans hle hdepth
      simp [hd, hle]

theorem leave_ofBlocks (block : List String) (outer : Blocks) :
    (ofBlocks (block :: outer)).leave = ofBlocks outer := by
  have hdrop : (localsOf (block :: outer)).dropWhile (fun l => !l.depth.any (· ≤ outer.length)) =
      localsOf outer := by
    rw [localsOf]
    induction block with
    | nil => exact dropWhile_localsOf outer (Nat.le_refl _)
    | cons name earlier ih => simpa [stack, List.dropWhile_cons] using ih
  simp only [leave, ofBlocks, List.length_cons, Nat.add_sub_cancel, hdrop]

theorem declaresAt_localsOf (blocks : Blocks) {depth : Nat} (hdepth : blocks.length < depth)
    (name : String) : declaresAt depth name (localsOf blocks) = false := by
  cases hlocals : localsOf blocks with
  | nil => rfl
  | cons l outer =>
      have hl : l ∈ localsOf blocks := by simp [hlocals]
      obtain ⟨d, hd, hle⟩ := depth_of_mem_localsOf hl
      have hlt : ¬ depth ≤ d := by omega
      simp [declaresAt, hd, hlt]

theorem declares_ofBlocks (block : List String) (outer : Blocks) (name : String) :
    (ofBlocks (block :: outer)).declares name = decide (name ∈ block) := by
  simp only [declares, ofBlocks, localsOf, List.length_cons]
  induction block with
  | nil => simpa [stack] using declaresAt_localsOf outer (Nat.lt_succ_self _) name
  | cons first earlier ih =>
      simp only [stack, declaresAt, Option.all_some, Nat.le_refl, decide_true, Bool.true_and, ih]
      grind

/-! ## Declaring and looking up -/

/-- A variable that has been entered and made usable is one of the innermost block. -/
theorem settle_push (block : List String) (outer : Blocks) (name : String) :
    ((ofBlocks (block :: outer)).push name).settle = ofBlocks ((name :: block) :: outer) := by
  have hsize := size_ofBlocks (block :: outer)
  rw [← names_ofBlocks, names, List.length_map] at hsize
  simp only [push, settle, hsize]
  rfl

theorem resolve_eq_global_iff (scope : Scope) (name : String) :
    scope.resolve name = .global ↔ name ∉ scope.names := by
  unfold resolve names
  split
  next hfind =>
    simp only [List.find?_eq_none, beq_iff_eq] at hfind
    simp only [List.mem_map, not_exists, not_and, true_iff]
    exact hfind
  next found hfind =>
    have hmem := List.mem_of_find?_eq_some hfind
    have hname := List.find?_some hfind
    have hin : name ∈ scope.locals.map Local.name := by
      rw [← eq_of_beq hname]
      exact List.mem_map_of_mem hmem
    simp only [hin, not_true_eq_false, iff_false]
    split <;> simp

/-- Between statements every name in scope can be used. -/
theorem resolve_ofBlocks_ne (blocks : Blocks) (name : String) :
    (ofBlocks blocks).resolve name ≠ .uninitialized := by
  unfold resolve
  split
  next => simp
  next found hfind =>
    obtain ⟨depth, hdepth, _⟩ := depth_of_mem_localsOf (List.mem_of_find?_eq_some hfind)
    simp [hdepth]

@[simp] theorem names_push (scope : Scope) (name : String) :
    (scope.push name).names = name :: scope.names := rfl

/-- While the initial value of a variable is read, only its own name cannot be used. -/
theorem resolve_push_eq_iff (blocks : Blocks) (name other : String) :
    ((ofBlocks blocks).push name).resolve other = .uninitialized ↔ other = name := by
  by_cases heq : name = other
  · subst heq
    simp [push, resolve]
  · have hother := resolve_ofBlocks_ne blocks other
    unfold resolve at hother ⊢
    rw [push, List.find?_cons_of_neg (by simpa using heq)]
    simp only [hother, false_iff]
    exact fun h => heq h.symm

end Scriptlet.Scope
