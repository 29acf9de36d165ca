/-
  What the leaves of a raw tree mean.

  Two things can be wrong with data: a leaf that means nothing (`malformed`), and data of another
  shape than the one wanted (`misfit`).  They are kept apart because the first fault met in reading
  order is the one that counts.  A number that is too large for a double is malformed, and so is a
  surrogate escape without its partner.
-/
import Quadruple.Json
import Quadruple.Json.Scan

namespace Quadruple

/-- Why data could not be taken from a text. -/
inductive JsonError where
  /-- The text is not structured data. -/
  | malformed
  /-- The data has another shape than the one wanted. -/
  | misfit
deriving DecidableEq, Inhabited

namespace Json

/-! ## Strings -/

/-- Put a character before what was read. -/
def push (c : Char) : Option (List Char) → Option (List Char)
  | some s => some (c :: s)
  | none => none

/-- The characters that the text between two quotes stands for.  A high surrogate must be followed
by the escape of a low one, and a low one cannot stand alone. -/
def unescaped? : List Char → Option (List Char)
  | [] => some []
  | '\\' :: 'u' :: a :: b :: c :: d :: rest =>
    match hexValue4? a b c d with
    | none => none
    | some n =>
      if 0xdc00 ≤ n ∧ n ≤ 0xdfff then none
      else if 0xd800 ≤ n ∧ n ≤ 0xdbff then
        match rest with
        | '\\' :: 'u' :: e :: f :: g :: h :: rest' =>
          match hexValue4? e f g h with
          | none => none
          | some m =>
            if 0xdc00 ≤ m ∧ m ≤ 0xdfff then
              push (Char.ofNat (0x10000 + (n - 0xd800) * 0x400 + (m - 0xdc00))) (unescaped? rest')
            else none
        | _ => none
      else push (Char.ofNat n) (unescaped? rest)
  | '\\' :: e :: rest =>
    match unescape? e with
    | some c => push c (unescaped? rest)
    | none => none
  | c :: rest => push c (unescaped? rest)

/-- The string that the text between two quotes stands for. -/
def stringOf (text : List Char) : Except JsonError String :=
  match unescaped? text with
  | some s => .ok (String.ofList s)
  | none => .error .malformed

/-! ## Numbers -/

/-- An integer as data: exact if it fits in sixty-four bits, signed or not.  A negative zero is a
double, since no integer has its sign. -/
def ofInteger (negative : Bool) (n : Nat) : Option Json :=
  if !negative && n < UInt64.size then some (int n)
  else if negative && 0 < n && Decimal.fitsInt64 (-(n : Int)) then some (int (-(n : Int)))
  else
    let x := Decimal.ofScientific negative n 0
    if x.isFinite then some (float x) else none

/-- What a number stands for, if it is not too large. -/
def Numeral.value? (n : Numeral) : Option Json :=
  if n.isInteger then ofInteger n.negative (Decimal.ofDigits n.whole)
  else
    let x := Decimal.ofScientific n.negative (Decimal.ofDigits (n.whole ++ n.fraction))
      (n.exponent - n.fraction.length)
    if x.isFinite then some (float x) else none

/-- Read a number from the front of a text. -/
def readNumber (cs : List Char) : Except JsonError (Json × List Char) :=
  match Numeral.scan cs with
  | .error _ => .error .malformed
  | .ok (n, rest) =>
    match n.value? with
    | some j => .ok (j, rest)
    | none => .error .malformed

/-- The data that the text of a number stands for. -/
def numberOf (text : List Char) : Except JsonError Json := do
  let (j, rest) ← readNumber text
  if rest.isEmpty then return j else throw .malformed

/-! ## Trees -/

/-- How deep brackets may nest in a tree that is read as a whole. -/
def maxDepth : Nat := 127

mutual

/-- Read the leaves of a tree whose brackets nest at most `depth` deep. -/
def ofRaw (depth : Nat) : Raw → Except JsonError Json
  | .null => .ok null
  | .bool b => .ok (bool b)
  | .number text => numberOf text
  | .string text => str <$> stringOf text
  | .arr items =>
    match depth with
    | 0 => .error .malformed
    | depth + 1 => arr <$> ofRawItems depth items
  | .obj members =>
    match depth with
    | 0 => .error .malformed
    | depth + 1 => obj <$> ofRawMembers depth members

def ofRawItems (depth : Nat) : List Raw → Except JsonError (List Json)
  | [] => .ok []
  | r :: rest => do
    let j ← ofRaw depth r
    return j :: (← ofRawItems depth rest)

def ofRawMembers (depth : Nat) : List (List Char × Raw) → Except JsonError (List (String × Json))
  | [] => .ok []
  | (k, r) :: rest => do
    let k ← stringOf k
    let j ← ofRaw depth r
    return (k, j) :: (← ofRawMembers depth rest)

end

/-- The error when data of another kind is wanted.  A bracket is enough to see that; a leaf has to
mean something to be a leaf of the wrong kind. -/
def Raw.refusal : Raw → JsonError
  | number text => match numberOf text with
    | .ok _ => .misfit
    | .error e => e
  | string text => match stringOf text with
    | .ok _ => .misfit
    | .error e => e
  | _ => .misfit

end Json

end Quadruple
