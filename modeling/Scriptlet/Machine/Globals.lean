import Scriptlet.Value.Basic

/-! # Global variables -/

namespace Scriptlet

/-- Names bound to values. -/
structure Globals where
  bindings : List (String × Value)
deriving DecidableEq, Repr

namespace Globals

def empty : Globals := ⟨[]⟩

def get? (globals : Globals) (name : String) : Option Value :=
  globals.bindings.lookup name

/-- Binds a name that is not yet bound. -/
def declare (globals : Globals) (name : String) (value : Value) : Globals :=
  ⟨(name, value) :: globals.bindings⟩

/-- Gives a name that is bound a new value. -/
def assign (globals : Globals) (name : String) (value : Value) : Globals :=
  ⟨globals.bindings.map fun (n, v) => if n = name then (n, value) else (n, v)⟩

theorem get?_declare (globals : Globals) (name other : String) (value : Value) :
    (globals.declare name value).get? other =
      if other = name then some value else globals.get? other := by
  simp only [get?, declare, List.lookup_cons]
  split <;> simp_all

theorem get?_assign (globals : Globals) (name other : String) (value : Value) :
    (globals.assign name value).get? other =
      if other = name then (globals.get? other).map fun _ => value else globals.get? other := by
  obtain ⟨bindings⟩ := globals
  simp only [get?, assign]
  induction bindings with
  | nil => simp
  | cons binding rest ih =>
    obtain ⟨n, v⟩ := binding
    by_cases hn : n = name <;> by_cases ho : other = n <;> grind

end Globals

end Scriptlet
