/-! # Columns of a table

Fields of a listing are filled up to a width counted in characters; a field that is longer than
its width is kept whole.
-/

namespace Scriptlet.Text

/-- Fills up with `fill` on the left, so that the text ends at the column's right edge. -/
def alignRight (fill : Char) (width : Nat) (text : String) : String :=
  String.ofList (List.replicate (width - text.length) fill) ++ text

/-- Fills up with blanks on the right, so that the text starts at the column's left edge. -/
def alignLeft (width : Nat) (text : String) : String :=
  text ++ String.ofList (List.replicate (width - text.length) ' ')

end Scriptlet.Text
