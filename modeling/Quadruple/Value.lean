/-
  Values: what a slot holds at run time and what a literal denotes.

  A slot itself is an `Option Value`, `none` being an empty slot or a null pointer.  Conversion is
  sparse: an integer widens to a float, and nothing else changes its type (`coerce?`).

  Text and value meet in two places.  `text` is what a program prints, `read?` what it makes of a
  line of input; for integers, truth values and one-line strings the second undoes the first.
-/
import Quadruple.Scalar
import Quadruple.Text.Blank
import Quadruple.Decimal.Notation

namespace Quadruple

/-- A value of one of the five scalar types. -/
inductive Value where
  | int (n : Int64)
  | float (x : Binary64)
  | bool (b : Bool)
  | string (s : String)
  /-- The address of another slot: a heap cell from the start of the heap on, a segment slot below.
  -/
  | pointer (address : Nat)
deriving DecidableEq, Inhabited

namespace Value

/-- The type of a value. -/
def scalar : Value → Scalar
  | int _ => .int
  | float _ => .float
  | bool _ => .bool
  | string _ => .string
  | pointer _ => .pointer

/-- The numeric view of integers and floats, for arithmetic and comparison that mix the two. -/
def number? : Value → Option Binary64
  | int n => some (Binary64.ofInt n.toInt)
  | float x => some x
  | _ => none

/-- Convert for storage in a slot of type `ty`: an integer widens to a float, any other value must
already have that type. -/
def coerce? (v : Value) (ty : Scalar) : Option Value :=
  match v, ty with
  | int n, .float => some (float (Binary64.ofInt n.toInt))
  | v, ty => if v.scalar = ty then some v else none

/-- One representative for all NaNs: the values that count as the same literal have the same
canonical form. -/
def canonical : Value → Value
  | float x => float x.canonical
  | v => v

/-- Equality as a program sees it: a NaN differs from itself, and the two zeros agree. -/
def agrees : Value → Value → Bool
  | float x, float y => x.compare? y == some .eq
  | v, w => v == w

/-! ## Text -/

/-- What a program prints for a value. -/
def text : Value → String
  | int n => Decimal.intText n.toInt
  | float x => Decimal.plainText x
  | bool true => "true"
  | bool false => "false"
  | string s => s
  | pointer a => "&" ++ a.repr

/-- Read one line of input as a value of type `ty`.  The end of the line never counts; blanks around
anything but a string do not either; no text denotes a pointer. -/
def read? (ty : Scalar) (line : String) : Option Value :=
  let cs := Text.dropLineEnd line.toList
  match ty with
  | .int => (Decimal.readInt64? (Text.trim cs)).map int
  | .float => (Decimal.readFloat? (Text.trim cs)).map float
  | .bool =>
    let word := String.ofList (Text.trim cs)
    if word == "true" then some (bool true) else if word == "false" then some (bool false) else none
  | .string => some (string (String.ofList cs))
  | .pointer => none

end Value

end Quadruple
