/-
  Declarations: functions with their parameters, variables, arrays and classes.

  Variables declared inside a function are locals, others globals.  An array is declared as a
  variable first; its dimensions follow, and `layOut` moves it to a block of consecutive addresses.
  Stepping in one dimension skips as many elements as the later dimensions hold together, so each
  dimension but the last has a constant with that product besides the constant with its size.

  For dimensions d₁, …, dₖ these are the products
      T = d₁ ⋯ dₖ   and   dⱼ₊₁ ⋯ dₖ   for   1 ≤ j < k.
  No dimension is 0, so T is the largest of them and of all products on the way to it: they are
  words when T is, and when it is not, `allocateArray` stops with an overflow before it gives the
  variable's slot back.
-/
import Quadruple.Compiler.Generator

namespace Quadruple.Compile

/-! ## Functions -/

/-- Open a function; its first quad is the next one emitted. -/
def declareFunction (id : String) : Compile Unit := do
  let g ← get
  match g.currentFunction with
  | some enclosing => reject (.functionInside id enclosing)
  | none =>
    if g.program.functions.contains id then refuse (.redeclared id)
    else
      set { g with
        program := { g.program with
          functions := g.program.functions.insert id (Routine.startingAt g.nextQuad) }
        currentFunction := some id
        locals := Table.empty
        returned := false }
      note (.functionOpened id g.nextQuad)

/-- Change what is known of a function. -/
def updateRoutine (id : String) (f : Routine → Routine) : Compile Unit := do
  let g ← get
  match g.program.functions.find? id with
  | some r =>
    set { g with program := { g.program with functions := g.program.functions.insert id (f r) } }
  | none => reject (.missingRoutine id)

/-- Refuse a type that names no class. -/
def requireType (ty : TypeName) : Compile Unit := do
  if (← get).knowsType ty then pure () else refuse (.undeclared ty.word)

/-- Set the return type of the open function. -/
def setFunctionType (ty : TypeName) : Compile Unit := do
  requireType ty
  match (← get).currentFunction with
  | none => reject .returnTypeOutside
  | some f => updateRoutine f fun r => { r with returnType := some ty }

/-- Declare a parameter of the open function. -/
def declareParam (id : String) (ty : TypeName) : Compile Unit := do
  requireType ty
  let g ← get
  match g.currentFunction with
  | none => reject (.parameterOutside id)
  | some f =>
    if g.locals.contains id then refuse (.redeclared id)
    else
      let address ← allocate ty.storage .locals
      nameAddress address id
      modify fun g => { g with locals := g.locals.insert id ⟨address, ty, [], []⟩ }
      updateRoutine f fun r =>
        { r with
          paramTypes := r.paramTypes ++ [ty], paramAddresses := r.paramAddresses ++ [address] }

/-! ## Variables -/

/-- Declare a variable in the open scope. -/
def declareVariable (id : String) (ty : TypeName) : Compile Unit := do
  requireType ty
  let g ← get
  if g.currentFunction.isSome then
    if g.locals.contains id then refuse (.redeclared id)
    else
      let address ← allocate ty.storage .locals
      nameAddress address id
      modify fun g =>
        { g with locals := g.locals.insert id ⟨address, ty, [], []⟩, lastDeclared := some id }
  else
    if g.globals.contains id then refuse (.redeclared id)
    else
      let address ← allocate ty.storage .globals
      nameAddress address id
      modify fun g =>
        { g with globals := g.globals.insert id ⟨address, ty, [], []⟩, lastDeclared := some id }

/-- The variable declared last. -/
def lastDeclared : Compile String := do
  match (← get).lastDeclared with
  | some id => return id
  | none => reject .dimensionWithoutVariable

/-- Add a dimension to the variable declared last. -/
def declareArrayDimension (size : Nat) : Compile Unit := do
  let id ← lastDeclared
  if size = 0 then refuse (.arrayUse id .sizeNotPositive)
  else match (← get).lookup id with
    | some v => modify fun g => g.setVariable id { v with pendingSizes := v.pendingSizes ++ [size] }
    | none => refuse (.undeclared id)

/-- How many elements dimensions of these sizes hold together. -/
def elementCount (sizes : List Nat) : Nat := sizes.foldr (· * ·) 1

/-- The slot of a size or a product of sizes. -/
def sizeConstant (n : Nat) : Compile Nat := constant (.int (Int64.ofInt n))

/-- The constants of the dimensions of an array. -/
def dimensionConstants : List Nat → Compile (List Dimension)
  | [] => return []
  | [size] => do return [⟨size, ← sizeConstant size, none⟩]
  | size :: later => do
    let sizeSlot ← sizeConstant size
    let strideSlot ← sizeConstant (elementCount later)
    return ⟨size, sizeSlot, some strideSlot⟩ :: (← dimensionConstants later)

/-- Lay out the array declared last, once all its dimensions are known. -/
def allocateArray : Compile Unit := do
  let id ← lastDeclared
  let g ← get
  match g.lookup id with
  | none => refuse (.undeclared id)
  | some v =>
    if v.pendingSizes.isEmpty || v.isArray then refuse (.arrayUse id .noDimensions)
    else
      let total := elementCount v.pendingSizes
      if ¬ IsWord total then refuse (.overflow .product)
      else
        let segment := (g.pool.layout.segmentOf v.address).getD .globals
        giveBack v.address
        let base ← allocateBlock v.ty.storage segment total
        let dimensions ← dimensionConstants v.pendingSizes
        nameAddress base id
        modify fun g => g.setVariable id
          { v with address := base, pendingSizes := [], dimensions := dimensions }
        note (.arrayPlaced id base total)

/-! ## Classes -/

/-- Open a class. -/
def declareClass (id : String) : Compile Unit := do
  let g ← get
  if g.currentClass.isSome || g.currentFunction.isSome then reject (.classInside id)
  else if g.classes.contains id || (Scalar.ofName? id).isSome then refuse (.redeclared id)
  else set { g with classes := g.classes.insert id [], currentClass := some id }

/-- Declare a field of the open class; its type may be that class. -/
def declareField (id : String) (ty : TypeName) : Compile Unit := do
  let g ← get
  match g.currentClass with
  | none => reject (.fieldOutside id)
  | some c =>
    requireType ty
    match g.classes.find? c with
    | none => reject (.classVanished c)
    | some fields =>
      if (fields.find? id).isSome then refuse (.redeclared (c ++ "." ++ id))
      else modify fun g => { g with classes := g.classes.insert c (fields ++ [(id, ty)]) }

/-- Close the open class. -/
def endClass : Compile Unit := do
  let g ← get
  match g.currentClass with
  | some _ => set { g with currentClass := none }
  | none => reject .endOfClassWithoutClass

end Quadruple.Compile
