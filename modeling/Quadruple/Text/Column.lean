/-
  Columns of text: padding to a width.  The width counts characters, and a text that is already as
  wide stays as it is.
-/

namespace Quadruple.Text

/-- Pad on the right with spaces: the text stands at the left of its column. -/
def alignLeft (width : Nat) (s : String) : String :=
  s ++ String.ofList (List.replicate (width - s.length) ' ')

/-- Pad on the left with `c`: the text stands at the right of its column. -/
def alignRight (width : Nat) (c : Char) (s : String) : String :=
  String.ofList (List.replicate (width - s.length) c) ++ s

/-- A number with leading zeros. -/
def zeroPadded (width n : Nat) : String := alignRight width '0' n.repr

end Quadruple.Text
