/-
  Reading structured data from the front of a text.

  Every reader takes what is left of the text and returns a result with what is left after it.  A
  tree is divided first and its leaves are read after that: whatever is wrong with it, the text is
  malformed.
-/
import Quadruple.Json.Leaf

namespace Quadruple.Json

/-- What a scanner found; any fault of the text makes it malformed. -/
def ofScanned {α : Type} : Except ScanFault α → Except JsonError α
  | .ok r => .ok r
  | .error _ => .error .malformed

/-- Read a string after its opening quote. -/
def readString (cs : List Char) : Except JsonError (String × List Char) := do
  let (text, rest) ← ofScanned (scanString cs)
  return (← stringOf text, rest)

/-- Read a colon. -/
def readColon (cs : List Char) : Except JsonError (List Char) :=
  match skipSpace cs with
  | ':' :: rest => .ok rest
  | _ => .error .malformed

/-- Read a tree whose brackets nest at most `depth` deep. -/
def readTree (budget depth : Nat) (cs : List Char) : Except JsonError (Json × List Char) := do
  let (r, rest) ← ofScanned (Raw.scan budget cs)
  return (← ofRaw depth r, rest)

/-- Read one or more items and the closing bracket. -/
def readItems (budget depth : Nat) (cs : List Char) : Except JsonError (List Json × List Char) := do
  let (items, rest) ← ofScanned (Raw.scanItems budget cs)
  return (← ofRawItems depth items, rest)

/-- Check that only white space is left. -/
def finish {α : Type} (a : α) (rest : List Char) : Except JsonError α :=
  if (skipSpace rest).isEmpty then .ok a else .error .malformed

/-- The error when data of another kind is wanted where this text starts. -/
def refusalAt (cs : List Char) : JsonError :=
  match skipSpace cs with
  | '[' :: _ => .misfit
  | '\x7b' :: _ => .misfit
  | rest => match Raw.scanLeaf rest with
    | .ok (r, _) => r.refusal
    | .error _ => .malformed

end Quadruple.Json
