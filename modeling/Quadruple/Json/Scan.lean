/-
  Dividing a text into a raw tree.

  Every scanner takes what is left of the text and returns what it found with what is left after it,
  or a fault with the place where it was met.  A scanner looks at the form only: a number may be too
  large for any type, and an escape may name half of a surrogate pair; both matter when the leaf is
  read.  Brackets may nest to any depth.  Recursion is on a budget taken from the length of the
  text: every second call consumes a character.

  A fault is reported by its line and its column, both from one; columns count the bytes of the
  text.
-/
import Quadruple.Decimal.Digits
import Quadruple.Json.Raw

namespace Quadruple.Json

/-- What is wrong where a text stops to be structured data. -/
inductive ScanCause where
  | ended
  | noValue
  | badNumber
  | badWord
  | badString
  | noKey
  | noColon
  | noComma
  | moreText
deriving DecidableEq, Inhabited

def ScanCause.message : ScanCause → String
  | ended => "unexpected end"
  | noValue => "expected value"
  | badNumber => "invalid number"
  | badWord => "expected ident"
  | badString => "invalid string"
  | noKey => "key must be a string"
  | noColon => "expected a colon"
  | noComma => "expected a comma or a closing bracket"
  | moreText => "trailing characters"

/-- A cause with the text from its place on. -/
structure ScanFault where
  cause : ScanCause
  rest : List Char
deriving DecidableEq, Inhabited

/-- A fault at the head of the text. -/
def faultAt {α : Type} (cause : ScanCause) (cs : List Char) : Except ScanFault α :=
  .error ⟨if cs.isEmpty then .ended else cause, cs⟩

/-- Whether a character separates tokens. -/
def isSpace (c : Char) : Bool := c == ' ' || c == '\n' || c == '\t' || c == '\r'

/-- Skip white space. -/
def skipSpace (cs : List Char) : List Char := cs.dropWhile isSpace

/-! ## Strings -/

/-- The value of a hexadecimal digit in either case. -/
def hexValue? (c : Char) : Option Nat :=
  if '0' ≤ c && c ≤ '9' then some (c.toNat - '0'.toNat)
  else if 'a' ≤ c && c ≤ 'f' then some (c.toNat - 'a'.toNat + 10)
  else if 'A' ≤ c && c ≤ 'F' then some (c.toNat - 'A'.toNat + 10)
  else none

/-- The value of four hexadecimal digits. -/
def hexValue4? (a b c d : Char) : Option Nat :=
  match hexValue? a, hexValue? b, hexValue? c, hexValue? d with
  | some a, some b, some c, some d => some (((a * 16 + b) * 16 + c) * 16 + d)
  | _, _, _, _ => none

/-- What a single letter after a backslash stands for. -/
def unescape? : Char → Option Char
  | '"' => some '"'
  | '\\' => some '\\'
  | '/' => some '/'
  | 'b' => some '\x08'
  | 'f' => some '\x0c'
  | 'n' => some '\n'
  | 'r' => some '\r'
  | 't' => some '\t'
  | _ => none

/-- Put characters before what a scanner found. -/
def prepend (front : List Char) :
    Except ScanFault (List Char × List Char) → Except ScanFault (List Char × List Char)
  | .ok (s, rest) => .ok (front ++ s, rest)
  | .error f => .error f

/-- The characters of a string up to its closing quote, as written. -/
def scanString : List Char → Except ScanFault (List Char × List Char)
  | [] => faultAt .badString []
  | '"' :: rest => .ok ([], rest)
  | '\\' :: 'u' :: a :: b :: c :: d :: rest =>
    if (hexValue4? a b c d).isSome then prepend ['\\', 'u', a, b, c, d] (scanString rest)
    else faultAt .badString (a :: b :: c :: d :: rest)
  | '\\' :: e :: rest =>
    if (unescape? e).isSome then prepend ['\\', e] (scanString rest)
    else faultAt .badString (e :: rest)
  | c :: rest =>
    if c == '\\' || c.toNat < 0x20 then faultAt .badString (c :: rest)
    else prepend [c] (scanString rest)

/-! ## Numbers -/

/-- A number as it is written. -/
structure Numeral where
  negative : Bool
  /-- The digits before the point. -/
  whole : List Char
  /-- The digits after the point; none if there is no point. -/
  fraction : List Char
  /-- The exponent with its letter and sign; empty if there is none. -/
  power : List Char
deriving DecidableEq, Inhabited

namespace Numeral

/-- The characters of a number. -/
def text (n : Numeral) : List Char :=
  (if n.negative then ['-'] else []) ++ n.whole ++
    (if n.fraction.isEmpty then [] else '.' :: n.fraction) ++ n.power

/-- Whether a number is written as an integer. -/
def isInteger (n : Numeral) : Bool := n.fraction.isEmpty && n.power.isEmpty

/-- The exponent that is written. -/
def exponent (n : Numeral) : Int :=
  let (negative, ds) := Decimal.takeSign (n.power.drop 1)
  let m : Int := Decimal.ofDigits ds
  if negative then -m else m

/-- One or more digits. -/
def scanDigits (cs : List Char) : Except ScanFault (List Char × List Char) :=
  let (ds, rest) := cs.span Decimal.isDigit
  if ds.isEmpty then faultAt .badNumber rest else .ok (ds, rest)

/-- The digits before the point: no zero before other digits. -/
def scanWhole (cs : List Char) : Except ScanFault (List Char × List Char) :=
  match cs with
  | '0' :: c :: rest =>
    if Decimal.isDigit c then faultAt .badNumber (c :: rest) else .ok (['0'], c :: rest)
  | _ => scanDigits cs

/-- The digits after the point, if there is one. -/
def scanFraction : List Char → Except ScanFault (List Char × List Char)
  | '.' :: rest => scanDigits rest
  | cs => .ok ([], cs)

/-- A sign, if there is one. -/
def spanSign : List Char → List Char × List Char
  | '+' :: rest => (['+'], rest)
  | '-' :: rest => (['-'], rest)
  | cs => ([], cs)

/-- The exponent, if there is one: a letter, an optional sign and digits. -/
def scanPower (cs : List Char) : Except ScanFault (List Char × List Char) :=
  match cs with
  | c :: rest =>
    if c == 'e' || c == 'E' then do
      let (sign, rest) := spanSign rest
      let (ds, rest) ← scanDigits rest
      return (c :: sign ++ ds, rest)
    else .ok ([], cs)
  | [] => .ok ([], [])

/-- A number without its sign. -/
def scanUnsigned (negative : Bool) (cs : List Char) : Except ScanFault (Numeral × List Char) := do
  let (whole, rest) ← scanWhole cs
  let (fraction, rest) ← scanFraction rest
  let (power, rest) ← scanPower rest
  return (⟨negative, whole, fraction, power⟩, rest)

/-- A number. -/
def scan : List Char → Except ScanFault (Numeral × List Char)
  | '-' :: rest => scanUnsigned true rest
  | cs => scanUnsigned false cs

end Numeral

/-! ## Trees -/

namespace Raw

/-- A fixed word. -/
def scanWord (word : String) (r : Raw) (cs : List Char) : Except ScanFault (Raw × List Char) :=
  if word.toList.isPrefixOf cs then .ok (r, cs.drop word.length) else faultAt .badWord cs

/-- A tree without parts; white space is already skipped. -/
def scanLeaf (cs : List Char) : Except ScanFault (Raw × List Char) :=
  match cs with
  | 'n' :: _ => scanWord "null" null cs
  | 't' :: _ => scanWord "true" (bool true) cs
  | 'f' :: _ => scanWord "false" (bool false) cs
  | '"' :: rest => do
    let (s, rest) ← scanString rest
    return (string s, rest)
  | c :: _ =>
    if c == '-' || Decimal.isDigit c then do
      let (n, rest) ← Numeral.scan cs
      return (number n.text, rest)
    else faultAt .noValue cs
  | [] => faultAt .noValue []

/-- A key and the colon after it. -/
def scanKey (cs : List Char) : Except ScanFault (List Char × List Char) :=
  match skipSpace cs with
  | '"' :: rest => do
    let (k, rest) ← scanString rest
    match skipSpace rest with
    | ':' :: rest => return (k, rest)
    | rest => faultAt .noColon rest
  | rest => faultAt .noKey rest

mutual

/-- A tree. -/
def scan : Nat → List Char → Except ScanFault (Raw × List Char)
  | 0, cs => faultAt .noValue cs
  | budget + 1, cs =>
    match skipSpace cs with
    | '[' :: rest =>
      match skipSpace rest with
      | ']' :: rest => .ok (arr [], rest)
      | rest => do
        let (items, rest) ← scanItems budget rest
        return (arr items, rest)
    | '\x7b' :: rest =>
      match skipSpace rest with
      | '\x7d' :: rest => .ok (obj [], rest)
      | rest => do
        let (members, rest) ← scanMembers budget rest
        return (obj members, rest)
    | rest => scanLeaf rest

/-- One or more items and the closing bracket. -/
def scanItems : Nat → List Char → Except ScanFault (List Raw × List Char)
  | 0, cs => faultAt .noValue cs
  | budget + 1, cs => do
    let (r, rest) ← scan budget cs
    match skipSpace rest with
    | ',' :: rest => do
      let (items, rest) ← scanItems budget rest
      return (r :: items, rest)
    | ']' :: rest => return ([r], rest)
    | rest => faultAt .noComma rest

/-- One or more members and the closing brace. -/
def scanMembers : Nat → List Char → Except ScanFault (List (List Char × Raw) × List Char)
  | 0, cs => faultAt .noKey cs
  | budget + 1, cs => do
    let (k, rest) ← scanKey cs
    let (r, rest) ← scan budget rest
    match skipSpace rest with
    | ',' :: rest => do
      let (members, rest) ← scanMembers budget rest
      return ((k, r) :: members, rest)
    | '\x7d' :: rest => return ([(k, r)], rest)
    | rest => faultAt .noComma rest

end

end Raw

/-- A budget that no text of this length uses up. -/
def budgetFor (cs : List Char) : Nat := 2 * cs.length + 2

/-! ## Whole texts -/

/-- Why a text is not structured data, and where. -/
structure ScanError where
  cause : ScanCause
  line : Nat
  column : Nat
deriving DecidableEq, Inhabited

namespace ScanError

def message (e : ScanError) : String :=
  e.cause.message ++ " at line " ++ e.line.repr ++ " column " ++ e.column.repr

/-- The error that reports a fault in a text. -/
def ofFault (text : List Char) (f : ScanFault) : ScanError :=
  let front := text.take (text.length - f.rest.length)
  let line := (front.reverse.takeWhile (· ≠ '\n')).reverse
  ⟨f.cause, front.count '\n' + 1, (String.ofList line).utf8ByteSize + 1⟩

end ScanError

/-- Divide a whole text into one tree. -/
def Raw.parse (text : String) : Except ScanError Raw :=
  let cs := text.toList
  match Raw.scan (budgetFor cs) cs with
  | .error f => .error (.ofFault cs f)
  | .ok (r, rest) =>
    match skipSpace rest with
    | [] => .ok r
    | rest => .error (.ofFault cs ⟨.moreText, rest⟩)

end Quadruple.Json
