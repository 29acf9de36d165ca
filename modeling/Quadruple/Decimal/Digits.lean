/-
  Decimal digits: reading them, and the integers written with them.

  An integer is an optional sign followed by one or more ASCII digits, and nothing else: no blanks,
  no separators.  Digit runs are taken from the front of the input by `span`, so a reader always
  knows what is left.
-/

namespace Quadruple.Decimal

/-- Whether a character is one of `0` to `9`. -/
def isDigit (c : Char) : Bool := '0' ≤ c && c ≤ '9'

/-- The value of a digit. -/
def digitValue (c : Char) : Nat := c.toNat - '0'.toNat

/-- The number that a run of digits writes. -/
def ofDigits (cs : List Char) : Nat := cs.foldl (fun n c => 10 * n + digitValue c) 0

/-- How many decimal digits a number has; zero has one. -/
def digitCount (n : Nat) : Nat := (Nat.toDigits 10 n).length

/-- The text of an integer. -/
def intText (n : Int) : String := if n < 0 then "-" ++ n.natAbs.repr else n.natAbs.repr

/-- Take a leading sign: whether it is a minus, and the rest. -/
def takeSign : List Char → Bool × List Char
  | '+' :: cs => (false, cs)
  | '-' :: cs => (true, cs)
  | cs => (false, cs)

/-- Read an optional sign and digits as an integer. -/
def readInt? (cs : List Char) : Option Int :=
  let (negative, ds) := takeSign cs
  if ds.isEmpty || !ds.all isDigit then none
  else if negative then some (-(ofDigits ds : Int)) else some (ofDigits ds : Int)

/-- Whether an integer fits in sixty-four bits with its sign. -/
def fitsInt64 (n : Int) : Bool := Int64.minValue.toInt ≤ n && n ≤ Int64.maxValue.toInt

/-- Read an integer that fits in sixty-four bits. -/
def readInt64? (cs : List Char) : Option Int64 :=
  match readInt? cs with
  | some n => if fitsInt64 n then some (Int64.ofInt n) else none
  | none => none

end Quadruple.Decimal
