/-
  Taking typed data from a raw tree.

  The tree is gone through in the order of its text, and the first fault counts.  Leaves are read
  only where something is wanted of them: members that nobody asks for may hold anything.

  A record is an object with the expected members in any order, others being ignored and repeated
  ones refused, or an array of all of them in declared order.  A choice is the name of an
  alternative, or an object whose single member is that name with what belongs to it.  Where a form
  is fixed by what was read so far (the closing bracket after the last item of a row, the start of a
  choice, the closing brace after its content), anything else is malformed; elsewhere data of
  another kind is a misfit.
-/
import Quadruple.Json.Shape

namespace Quadruple.Json.Raw

/-! ## Leaves -/

/-- A number, exact or not. -/
def getNumber : Raw → Except JsonError Json
  | number text => numberOf text
  | r => .error r.refusal

/-- An address, a size or a count: a natural number of sixty-four bits. -/
def getWord (r : Raw) : Except JsonError Nat := getNumber r >>= Json.getWord

/-- A signed integer of sixty-four bits. -/
def getInt64 (r : Raw) : Except JsonError Int64 := getNumber r >>= Json.getInt64

/-- A double; an integer stands for the nearest one. -/
def getFloat (r : Raw) : Except JsonError Binary64 := getNumber r >>= Json.getFloat

def getBool : Raw → Except JsonError Bool
  | bool b => .ok b
  | r => .error r.refusal

def getString : Raw → Except JsonError String
  | string text => stringOf text
  | r => .error r.refusal

/-- A value, or `none` for `null`. -/
def getOption {α : Type} (f : Raw → Except JsonError α) : Raw → Except JsonError (Option α)
  | null => .ok none
  | r => some <$> f r

/-! ## Sequences and tables -/

/-- A list of values. -/
def getList {α : Type} (f : Raw → Except JsonError α) : Raw → Except JsonError (List α)
  | arr items => items.mapM f
  | r => .error r.refusal

/-- The first `n` of some items, which must be all of them. -/
def takeItems {α : Type} (f : Raw → Except JsonError α) : Nat → List Raw → Except JsonError (List α)
  | 0, [] => .ok []
  | 0, _ :: _ => .error .malformed
  | _ + 1, [] => .error .misfit
  | n + 1, r :: items => do
    let a ← f r
    return a :: (← takeItems f n items)

/-- A list of `n` values. -/
def getRow {α : Type} (n : Nat) (f : Raw → Except JsonError α) : Raw → Except JsonError (List α)
  | arr items => takeItems f n items
  | r => .error r.refusal

/-- The entries of an object, in its order; a key is read from its text. -/
def getEntries {κ ν : Type} (key : List Char → Except JsonError κ)
    (value : Raw → Except JsonError ν) :
    Raw → Except JsonError (List (κ × ν))
  | obj members => members.mapM fun (k, r) => do
    let k ← key k
    return (k, ← value r)
  | r => .error r.refusal

/-! ## Records -/

/-- The keys of a record in declared order, each with whether its member may be left out. -/
abbrev Keys := List (String × Bool)

/-- Put the items of an array into a record, one for each key. -/
def putItems {α : Type} (put : α → String → Raw → Except JsonError α) :
    Keys → List Raw → α → Except JsonError α
  | [], [], a => .ok a
  | [], _ :: _, _ => .error .malformed
  | _ :: _, [], _ => .error .misfit
  | (k, _) :: keys, r :: items, a => do putItems put keys items (← put a k r)

/-- Put the members of an object into a record; `seen` are the keys met so far. -/
def putMembers {α : Type} (keys : Keys) (put : α → String → Raw → Except JsonError α) :
    List (List Char × Raw) → List String → α → Except JsonError α
  | [], seen, a =>
    if keys.all fun (k, mayMiss) => mayMiss || seen.contains k then .ok a else .error .misfit
  | (k, r) :: rest, seen, a => do
    let k ← stringOf k
    if !keys.any (·.1 == k) then putMembers keys put rest seen a
    else if seen.contains k then throw .misfit
    else putMembers keys put rest (k :: seen) (← put a k r)

/-- A record, from a first value into which its members are put. -/
def getRecord {α : Type} (keys : Keys) (put : α → String → Raw → Except JsonError α) (a : α) :
    Raw → Except JsonError α
  | obj members => putMembers keys put members [] a
  | arr items => putItems put keys items a
  | r => .error r.refusal

/-! ## Choices -/

/-- A choice: `alternative` takes the name and what belongs to it. -/
def getChoice {α : Type} (alternative : String → Option Raw → Except JsonError α) :
    Raw → Except JsonError α
  | string name => do alternative (← stringOf name) none
  | obj ((name, content) :: rest) => do
    let a ← alternative (← stringOf name) (some content)
    if rest.isEmpty then return a else throw .malformed
  | _ => .error .malformed

/-- Nothing belongs to the alternative; `null` stands for nothing. -/
def noContent : Option Raw → Except JsonError Unit
  | none => .ok ()
  | some null => .ok ()
  | some r => .error r.refusal

end Quadruple.Json.Raw
