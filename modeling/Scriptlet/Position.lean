/-! # Positions in a script

Lines and columns count from one, and a column counts characters. Both are 32-bit words, so that a
count which gets too large for one starts again at zero. The position `0, 0` stands where nothing is
known.
-/

namespace Scriptlet

structure Pos where
  line : UInt32
  column : UInt32
deriving DecidableEq, Repr, Inhabited

namespace Pos

/-- Where a script begins. -/
def start : Pos := ⟨1, 1⟩

def unknown : Pos := ⟨0, 0⟩

/-- The position after the character `c` that stands at `pos`. -/
def after (pos : Pos) (c : Char) : Pos :=
  if c = '\n' then ⟨pos.line + 1, 1⟩ else ⟨pos.line, pos.column + 1⟩

/-- The position after a run of characters that starts at `pos`. -/
def afterAll (pos : Pos) (text : List Char) : Pos :=
  text.foldl after pos

def text (pos : Pos) : String :=
  s!"[line:{pos.line}, col:{pos.column}]"

end Pos

end Scriptlet
