/-
  Doubles as text.

  Reading takes the usual decimal notation (digits with an optional point and an optional exponent)
  and the words for infinity and NaN in any case, each with an optional sign; the result is the
  nearest double.  Writing starts from the shortest digits that read back and differs only in how
  they are laid out:

  * `plainText` never uses an exponent; an integer is written with all its digits and one zero after
    the point;
  * `compactText` is the notation of structured data: between `10⁻⁵` and `10¹⁶` plain with at least
    one digit after the point, outside that range one digit before the point and a signed exponent.
-/
import Quadruple.Decimal.Shortest

namespace Quadruple.Decimal

/-! ## Reading -/

/-- The double nearest to `± n · 10 ^ e`.  Far outside the range of doubles the answer is known
without computing the power. -/
def ofScientific (negative : Bool) (n : Nat) (e : Int) : Binary64 :=
  let size := (digitCount n : Int) + e
  if n = 0 then Binary64.zero negative
  else if 310 < size then Binary64.infinity negative
  else if size < -330 then Binary64.zero negative
  else Binary64.ofRatio negative (n * Nat.pow 10 e.toNat) (Nat.pow 10 (-e).toNat)

/-- Read an exponent part: nothing, or a letter `e`, an optional sign and digits. -/
def readExponent? : List Char → Option Int
  | [] => some 0
  | c :: cs => if c == 'e' || c == 'E' then readInt? cs else none

/-- Read a number without its sign. -/
def readUnsigned? (negative : Bool) (cs : List Char) : Option Binary64 :=
  let (whole, rest) := cs.span isDigit
  let (fraction, rest) := match rest with
    | '.' :: rest => rest.span isDigit
    | rest => ([], rest)
  if whole.isEmpty && fraction.isEmpty then none
  else match readExponent? rest with
    | some e => some (ofScientific negative (ofDigits (whole ++ fraction)) (e - fraction.length))
    | none => none

/-- Read a double: a decimal, or a word for infinity or NaN, with an optional sign. -/
def readFloat? (cs : List Char) : Option Binary64 :=
  let (negative, rest) := takeSign cs
  let word := String.ofList (rest.map Char.toLower)
  if word == "inf" || word == "infinity" then some (Binary64.infinity negative)
  else if word == "nan" then some Binary64.nan
  else readUnsigned? negative rest

/-! ## Writing -/

/-- Digits with the point at its place and no exponent; at least one digit on each side of it. -/
def positional (x : Expansion) : List Char :=
  let n := x.point.toNat
  let whole := x.digits.take n ++ List.replicate (n - x.digits.length) '0'
  let fraction := List.replicate (-x.point).toNat '0' ++ x.digits.drop n
  (if whole.isEmpty then ['0'] else whole) ++ '.' :: (if fraction.isEmpty then ['0'] else fraction)

/-- One digit before the point, and the power of ten with its sign. -/
def scientific (x : Expansion) : List Char :=
  let fraction := x.digits.drop 1
  let power := x.point - 1
  x.digits.take 1 ++ (if fraction.isEmpty then [] else '.' :: fraction) ++
    'e' :: (if power < 0 then '-' else '+') :: Nat.toDigits 10 power.natAbs

/-- A sign in front of a negative number. -/
def signed (x : Binary64) (text : List Char) : String :=
  String.ofList (if x.isNegative then '-' :: text else text)

/-- The text of a number for a reader: no exponent, at least one digit after the point. -/
def plainText (x : Binary64) : String :=
  if x.isNaN then "NaN"
  else if !x.isFinite then signed x "inf".toList
  else if x.isIntegral then signed x (Nat.toDigits 10 x.integerPart ++ ['.', '0'])
  else signed x (positional (shortest .up x))

/-- The text of a finite number in structured data; `none` for the others, which have no such text.
-/
def compactText? (x : Binary64) : Option String :=
  if !x.isFinite then none
  else
    let e := shortest .even x
    if x.significand = 0 ∨ (-4 ≤ e.point ∧ e.point ≤ 16) then some (signed x (positional e))
    else some (signed x (scientific e))

end Quadruple.Decimal
