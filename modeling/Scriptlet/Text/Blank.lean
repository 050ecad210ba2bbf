/-! # Blank text

The Unicode property `White_Space`, and text that consists of nothing else. A session skips input
lines of this kind; it plays no part in reading a script, where only a few of these characters
separate tokens.
-/

namespace Scriptlet.Text

/-- The code points with the property. -/
def blankCodePoints : List Nat :=
  [0x09, 0x0A, 0x0B, 0x0C, 0x0D, 0x20, 0x85, 0xA0, 0x1680, 0x2000, 0x2001, 0x2002, 0x2003, 0x2004,
   0x2005, 0x2006, 0x2007, 0x2008, 0x2009, 0x200A, 0x2028, 0x2029, 0x202F, 0x205F, 0x3000]

def isBlank (c : Char) : Bool :=
  blankCodePoints.contains c.toNat

/-- Whether a line holds nothing but blanks; the empty line does. -/
def isBlankLine (line : String) : Bool :=
  line.toList.all isBlank

end Scriptlet.Text
