/-
  Structured data: the tree and its text.

  Numbers are kept apart by how they were written: integers that fit in sixty-four bits, signed or
  not, are exact, and everything else is a double.  Objects keep their members in order, repeated
  keys included, so that a reader of the tree can refuse them.

  A tree is written by writing its leaves, which gives a raw tree, and then the brackets around
  them.  An infinite number or a NaN has no text and is written `null`.
-/
import Quadruple.Decimal.Notation
import Quadruple.Json.Raw

namespace Quadruple

/-- A tree of structured data. -/
inductive Json where
  | null
  | bool (b : Bool)
  | int (n : Int)
  | float (x : Binary64)
  | str (s : String)
  | arr (items : List Json)
  | obj (members : List (String × Json))
deriving Inhabited

namespace Json

/-- The integer `n` as data. -/
def nat (n : Nat) : Json := int n

/-- Data that may be absent. -/
def orNull {α : Type} (f : α → Json) : Option α → Json
  | some a => f a
  | none => null

/-! ## Leaves -/

/-- A hexadecimal digit. -/
def hexDigit (n : Nat) : Char := Nat.digitChar n

/-- One character inside a string.  Only the quote, the backslash and the control characters are
escaped. -/
def escaped (c : Char) : List Char :=
  match c with
  | '"' => ['\\', '"']
  | '\\' => ['\\', '\\']
  | '\x08' => ['\\', 'b']
  | '\x0c' => ['\\', 'f']
  | '\n' => ['\\', 'n']
  | '\r' => ['\\', 'r']
  | '\t' => ['\\', 't']
  | c =>
    if c.toNat < 0x20 then ['\\', 'u', '0', '0', hexDigit (c.toNat / 16), hexDigit (c.toNat % 16)]
    else [c]

/-- The characters of a string between its quotes. -/
def escapedText (s : String) : List Char := s.toList.flatMap escaped

/-! ## Trees -/

mutual

/-- The tree with its leaves written. -/
def toRaw : Json → Raw
  | null => .null
  | bool b => .bool b
  | int n => .number (Decimal.intText n).toList
  | float x => match Decimal.compactText? x with
    | some s => .number s.toList
    | none => .null
  | str s => .string (escapedText s)
  | arr items => .arr (rawItems items)
  | obj members => .obj (rawMembers members)

def rawItems : List Json → List Raw
  | [] => []
  | j :: rest => toRaw j :: rawItems rest

def rawMembers : List (String × Json) → List (List Char × Raw)
  | [] => []
  | (k, j) :: rest => (escapedText k, toRaw j) :: rawMembers rest

end

/-- The text of a tree on one line. -/
def compact (j : Json) : String := j.toRaw.compact

/-- The text of a tree over several lines. -/
def pretty (j : Json) : String := j.toRaw.pretty

end Json

end Quadruple
