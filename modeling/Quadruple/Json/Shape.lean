/-
  Taking typed data from a tree that was read as a whole.

  Every leaf of such a tree means something, so the only fault left is a misfit.  A choice is the
  name of an alternative, or an object whose single member is that name with what belongs to it.
-/
import Quadruple.Json.Leaf

namespace Quadruple.Json

/-- A natural number below a limit. -/
def getNat (limit : Nat) : Json → Except JsonError Nat
  | int n => if 0 ≤ n ∧ n < (limit : Int) then .ok n.toNat else .error .misfit
  | _ => .error .misfit

/-- An address, a size or a count: a natural number of sixty-four bits. -/
def getWord (j : Json) : Except JsonError Nat := getNat UInt64.size j

/-- A signed integer of sixty-four bits. -/
def getInt64 : Json → Except JsonError Int64
  | int n => if Decimal.fitsInt64 n then .ok (Int64.ofInt n) else .error .misfit
  | _ => .error .misfit

/-- A double; an integer stands for the nearest one. -/
def getFloat : Json → Except JsonError Binary64
  | float x => .ok x
  | int n => .ok (Binary64.ofInt n)
  | _ => .error .misfit

def getBool : Json → Except JsonError Bool
  | bool b => .ok b
  | _ => .error .misfit

def getString : Json → Except JsonError String
  | str s => .ok s
  | _ => .error .misfit

/-- A value, or `none` for `null`. -/
def getOption {α : Type} (f : Json → Except JsonError α) : Json → Except JsonError (Option α)
  | null => .ok none
  | j => some <$> f j

/-- The values of the members with a key. -/
def membersNamed (key : String) (members : List (String × Json)) : List Json :=
  members.filterMap fun (k, j) => if k == key then some j else none

/-- The only member with a key, if there is one. -/
def member? (key : String) (members : List (String × Json)) : Except JsonError (Option Json) :=
  match membersNamed key members with
  | [] => .ok none
  | [j] => .ok (some j)
  | _ => .error .misfit

/-- A field that must be there. -/
def required {α : Type} (f : Json → Except JsonError α) : Option Json → Except JsonError α
  | some j => f j
  | none => .error .misfit

/-- A field that may be absent or `null`. -/
def optional {α : Type} (f : Json → Except JsonError α) : Option Json → Except JsonError (Option α)
  | some j => getOption f j
  | none => .ok none

/-- A choice: the name of the alternative and what belongs to it. -/
def getChoice : Json → Except JsonError (String × Option Json)
  | str name => .ok (name, none)
  | obj [(name, j)] => .ok (name, some j)
  | _ => .error .misfit

/-- Nothing belongs to the alternative; `null` and an empty object stand for nothing. -/
def noContent : Option Json → Except JsonError Unit
  | none => .ok ()
  | some null => .ok ()
  | some (obj []) => .ok ()
  | some _ => .error .misfit

end Quadruple.Json
