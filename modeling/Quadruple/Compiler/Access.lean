/-
  Elements of arrays and fields of objects.

  Both become a pointer to the element or field, kept in a temporary; the entry pushed for it stands
  for the value the pointer leads to, so it can be read and assigned alike.

  An array access takes one index per dimension.  Each is checked against the size of its dimension,
  scaled by the number of elements one step skips, and added to the offset so far.
-/
import Quadruple.Compiler.Reduction

namespace Quadruple.Compile

/-! ## Arrays -/

/-- Open an access to an array. -/
def pushArray (id : String) : Compile Unit := do
  let g ← get
  match g.lookup id with
  | none => refuse (.undeclared id)
  | some v =>
    if !v.isArray then refuse (.arrayUse id .notAnArray)
    else
      set { g with accesses := ⟨id, v.address, v.ty, v.dimensions, 0, none⟩ :: g.accesses }
      openParenthesis

/-- Change the innermost open access. -/
def modifyAccess (f : Access → Access) : Compile Unit :=
  modify fun g => { g with accesses := match g.accesses with
    | a :: rest => f a :: rest
    | [] => [] }

/-- An index scaled by the number of elements that one step in its dimension skips. -/
def scaled (index : Entry) : Option Nat → Compile Entry
  | none => return index
  | some stride => do
    let result ← temporary .int
    let _ ← emit .multiply (some index.value) (some (.addr stride)) (some (.addr result))
    release index
    return ⟨result, .int, none, false, index.name⟩

/-- The offset so far with one more term. -/
def advanced (term : Entry) : Option Entry → Compile Entry
  | none => return term
  | some sum => do
    let result ← temporary .int
    let _ ← emit .add (some sum.value) (some term.value) (some (.addr result))
    release sum
    release term
    return ⟨result, .int, none, false, "offset"⟩

/-- Take the topmost operand as the next index. -/
def pushArrayIndex : Compile Unit := do
  reduceAll
  let index ← pop
  match (← get).accesses with
  | [] => reject .indexOutside
  | access :: _ =>
    if index.ty ≠ .int then refuse (.typeMismatch index.name "[]" "Int")
    else match access.dimensions[access.seen]? with
      | none => refuse (.arrayUse access.id (.tooManyIndices access.dimensions.length))
      | some dimension =>
        let _ ← emit .verify (some index.value) none (some (.addr dimension.sizeConstant))
        let term ← scaled index dimension.strideConstant
        modifyAccess fun a => { a with offset := none }
        let offset ← advanced term access.offset
        modifyAccess fun a => { a with offset := some offset, seen := a.seen + 1 }

/-- Close an access: push the element. -/
def closeArrayAccess : Compile Unit := do
  let g ← get
  match g.accesses with
  | [] => reject .endOfAccessWithoutArray
  | access :: rest =>
    set { g with accesses := rest }
    if access.seen ≠ access.dimensions.length then
      refuse (.arrayUse access.id (.wrongIndexCount access.dimensions.length access.seen))
    else match access.offset with
      | none => reject .accessWithoutOffset
      | some offset =>
        closeParenthesis
        let element ← temporary .pointer
        let _ ← emit .pointerAdd (some (.immediate access.base)) (some offset.value)
          (some (.ref element))
        release offset
        push ⟨element, access.ty.storage, access.ty.class?, true, access.id ++ "[]"⟩

/-! ## Objects -/

/-- Push a variable that holds an object. -/
def pushObject (id : String) : Compile Unit := do
  match (← get).lookup id with
  | none => refuse (.undeclared id)
  | some v => if v.ty.class?.isSome then pushVariable id else refuse (.classMismatch "an object" id)

/-- Pop an object with its class. -/
def popObject : Compile (Entry × String) := do
  let e ← pop
  match e.className with
  | some c =>
    if e.ty = .pointer then return (e, c) else refuse (.classMismatch "an object" e.typeName)
  | none => refuse (.classMismatch "an object" e.typeName)

/-- Replace the topmost object by one of its fields. -/
def pushProperty (name : String) : Compile Unit := do
  let (object, c) ← popObject
  match ((← get).classes.find? c).bind (·.find? name) with
  | none => refuse (.noSuchField c name)
  | some (offset, ty) =>
    let field ← temporary .pointer
    let _ ← emit .pointerAdd (some object.pointer) (some (.immediate offset)) (some (.ref field))
    release object
    push ⟨field, ty.storage, ty.class?, true, object.name ++ "." ++ name⟩

/-- Let the topmost object variable hold a new object. -/
def newObject (className : String) : Compile Unit := do
  match (← get).classes.find? className with
  | none => refuse (.undeclared className)
  | some fields =>
    let (target, c) ← popObject
    if c ≠ className then refuse (.classMismatch c className)
    else
      let _ ← emit .pointerAssign (some .allocHeap) (some (.immediate fields.length))
        (some target.pointer)
      release target

/-- Release the topmost object and all it leads to. -/
def deleteObject : Compile Unit := do
  let (target, _) ← popObject
  let _ ← emit .deleteRef none none (some target.pointer)
  release target

end Quadruple.Compile
