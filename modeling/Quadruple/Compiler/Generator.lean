/-
  The state of the compiler, and the steps all events are made of.

  A generator keeps the address pool and the program under construction, symbol tables, a stack of
  operands and a stack of operators.  Each open parenthesis remembers how high the operator stack
  was (`fences`); calls and array accesses open one, too.  Open conditionals and loops remember the
  jumps whose targets are not known yet.

  A step is a computation in `Compile`: it may fail, and whatever it did before it failed stays
  done.  So a caller may go on after an error, in the state that the failed step left.
-/
import Quadruple.Program
import Quadruple.Typing
import Quadruple.Pool
import Quadruple.Journal.Memory
import Quadruple.Compiler.Error

namespace Quadruple

/-! ## Symbols and stacks -/

/-- A dimension of an array: its size, the constant that holds it, and the constant with the number
of elements that one step in this dimension skips (absent for the last). -/
structure Dimension where
  size : Nat
  sizeConstant : Nat
  strideConstant : Option Nat
deriving DecidableEq, Inhabited

/-- A declared variable. -/
structure Variable where
  /-- Its slot, or the slot of its first element. -/
  address : Nat
  ty : TypeName
  /-- Sizes declared but not laid out yet. -/
  pendingSizes : List Nat
  dimensions : List Dimension
deriving DecidableEq, Inhabited

/-- Whether a variable was laid out as an array. -/
def Variable.isArray (v : Variable) : Bool := !v.dimensions.isEmpty

/-- The fields of a class, in the order of their places in an object. -/
abbrev Fields := List (String × TypeName)

/-- The place and the type of a field. -/
def Fields.find? (fields : Fields) (name : String) : Option (Nat × TypeName) :=
  fields.zipIdx.findSome? fun ((field, ty), offset) =>
    if field == name then some (offset, ty) else none

/-- An entry of the operand stack. -/
structure Entry where
  address : Nat
  /-- The type of the value the entry stands for. -/
  ty : Scalar
  /-- The class of the object, for pointers to objects. -/
  className : Option String
  /-- The address holds a pointer, and the value is where it leads. -/
  through : Bool
  /-- What messages call it. -/
  name : String
deriving DecidableEq, Inhabited

namespace Entry

/-- The operand that reads or writes the value. -/
def value (e : Entry) : Operand := if e.through then .deref e.address else .addr e.address

/-- The operand that acts on the pointer itself. -/
def pointer (e : Entry) : Operand := if e.through then .deref e.address else .ref e.address

/-- The class of the object, or the type of the value. -/
def typeName (e : Entry) : String := e.className.getD e.ty.name

/-- Whether a value may be stored in a slot of a declared type. -/
def fits (e : Entry) : TypeName → Bool
  | .object c => e.className == some c
  | .scalar .pointer => e.ty = .pointer && e.className.isNone
  | .scalar ty => (Opcode.assign.resultType? ty e.ty).isSome

end Entry

/-- An open conditional: the jump taken when the condition is false, and the jump over the other
branch. -/
structure Conditional where
  falseJump : Nat
  exitJump : Option Nat
deriving DecidableEq, Inhabited

/-- An open loop: its first quad, and the jump out of it. -/
structure Loop where
  start : Nat
  exitJump : Option Nat
deriving DecidableEq, Inhabited

/-- An open call: the function, and how many arguments were passed. -/
structure Call where
  function : String
  passed : Nat
deriving DecidableEq, Inhabited

/-- An open array access: the array, how many indices were taken, and the offset so far. -/
structure Access where
  id : String
  base : Nat
  ty : TypeName
  dimensions : List Dimension
  seen : Nat
  offset : Option Entry
deriving DecidableEq, Inhabited

/-- The state of the compiler.  Stacks have their top in front. -/
structure Generator where
  pool : Pool
  program : Program
  names : Names
  globals : Table String Variable
  locals : Table String Variable
  classes : Table String Fields
  /-- Literals met so far and their slots; NaNs are all one literal. -/
  literals : List (Value × Nat)
  operands : List Entry
  operators : List Opcode
  fences : List Nat
  conditionals : List Conditional
  loops : List Loop
  calls : List Call
  accesses : List Access
  currentFunction : Option String
  currentClass : Option String
  lastDeclared : Option String
  /-- The function of the call just closed, until its result is claimed. -/
  finishedCall : Option String
  /-- Whether the open function has returned a value somewhere. -/
  returned : Bool
  journal : Journal

namespace Generator

/-- The initial state for a choice of sizes. -/
def ofSizes (sizes : Sizes) (threshold : Level) : Generator where
  pool := Pool.ofLayout (Layout.ofSizes sizes)
  program := Program.ofSizes sizes
  names := Table.empty
  globals := Table.empty
  locals := Table.empty
  classes := Table.empty
  literals := []
  operands := []
  operators := []
  fences := []
  conditionals := []
  loops := []
  calls := []
  accesses := []
  currentFunction := none
  currentClass := none
  lastDeclared := none
  finishedCall := none
  returned := false
  journal := Journal.ofLevel threshold

/-- What messages call the open scope. -/
def scopeName (g : Generator) : String := g.currentFunction.getD "<global>"

/-- The number of the quad emitted next. -/
def nextQuad (g : Generator) : Nat := g.program.quads.size

/-- A variable in scope; locals hide globals. -/
def lookup (g : Generator) (id : String) : Option Variable :=
  match g.locals.find? id with
  | some v => some v
  | none => g.globals.find? id

/-- Change a variable in scope. -/
def setVariable (g : Generator) (id : String) (v : Variable) : Generator :=
  if g.locals.contains id then { g with locals := g.locals.insert id v }
  else { g with globals := g.globals.insert id v }

/-- Whether a declared type is known. -/
def knowsType (g : Generator) : TypeName → Bool
  | .scalar _ => true
  | .object c => g.classes.contains c

/-- How high the operator stack was at the innermost open parenthesis. -/
def fence (g : Generator) : Nat := g.fences.head?.getD 0

end Generator

/-! ## Steps -/

/-- A step of the compiler: it may fail, and keeps what it did before that. -/
abbrev Compile := ExceptT CompileError (StateM Generator)

namespace Compile

/-- Refuse the event, naming the open scope. -/
def refuse {α : Type} (cause : Cause) : Compile α := do throw ⟨cause, (← get).scopeName⟩

/-- Refuse an event out of sequence. -/
def reject {α : Type} (what : Misuse) : Compile α := refuse (.misuse what)

/-- Note something down. -/
def note (n : Note) : Compile Unit := modify fun g => { g with journal := g.journal.write n }

/-! ### Quads -/

/-- Emit a quad into the open function; the result is its number. -/
def emit (op : Opcode) (left right result : Option Operand) : Compile Nat := do
  let g ← get
  if g.currentFunction.isNone then reject (.emittedOutsideFunction op)
  else do
    let index := g.nextQuad
    let quad : Quad := ⟨op, left, right, result⟩
    note (.quadEmitted index quad)
    modify fun g => { g with program := { g.program with quads := g.program.quads.push quad } }
    return index

/-- Give a jump its target. -/
def patch (index target : Nat) : Compile Unit := do
  let g ← get
  match g.program.quads[index]? with
  | some q =>
    if q.isJump then
      let quads := g.program.quads.setIfInBounds index { q with result := some (.jump target) }
      set { g with program := { g.program with quads := quads } }
    else reject (.notPendingJump index)
  | none => reject (.notPendingJump index)

/-! ### Slots -/

/-- Take one address of a segment, and note when it was in use before. -/
def allocate (ty : Scalar) (segment : Segment) : Compile Nat := do
  let g ← get
  match g.pool.allocate ty segment with
  | .ok (address, pool) =>
    set { g with pool := pool }
    modify fun g' => { g' with journal := g'.journal.writeAll (g.pool.reuseNotes ty segment) }
    return address
  | .error e => refuse (.ofPoolError e)

/-- Take consecutive addresses of a segment. -/
def allocateBlock (ty : Scalar) (segment : Segment) (len : Nat) : Compile Nat := do
  let g ← get
  match g.pool.allocateBlock ty segment len with
  | .ok (address, pool) =>
    set { g with pool := pool }
    return address
  | .error e => refuse (.ofPoolError e)

/-- Give an address back. -/
def giveBack (address : Nat) : Compile Unit := do
  let g ← get
  match g.pool.release address with
  | .ok pool => set { g with pool := pool }
  | .error e => refuse (.ofPoolError e)

/-- Take a temporary. -/
def temporary (ty : Scalar) : Compile Nat := allocate ty .temporaries

/-- Give back the slot of a consumed operand if it is a temporary. -/
def release (e : Entry) : Compile Unit := do
  if (← get).pool.inSegment e.address .temporaries then giveBack e.address

/-- Name an address. -/
def nameAddress (address : Nat) (name : String) : Compile Unit :=
  modify fun g => { g with names := g.names.insert address name }

/-- What a literal is called: strings in quotes, the rest as printed. -/
def literalName : Value → String
  | .string s => Text.quoted s
  | v => v.text

/-- The slot of a literal; equal literals share one. -/
def constant (v : Value) : Compile Nat := do
  let ty := v.scalar
  if ty = .pointer then reject .pointerLiteral
  else
    let key := v.canonical
    match (← get).literals.find? (·.1 == key) with
    | some (_, address) => return address
    | none => do
      let address ← allocate ty .constants
      nameAddress address (literalName v)
      modify fun g => { g with
        program := { g.program with constants := g.program.constants.insert address ⟨v, ty⟩ }
        literals := (key, address) :: g.literals }
      return address

/-! ### The operand stack -/

def push (e : Entry) : Compile Unit := modify fun g => { g with operands := e :: g.operands }

def pop : Compile Entry := do
  let g ← get
  match g.operands with
  | e :: rest =>
    set { g with operands := rest }
    return e
  | [] => reject .operandUnderflow

/-- Push a literal. -/
def pushConstant (v : Value) : Compile Unit := do
  let address ← constant v
  push ⟨address, v.scalar, none, false, (← get).names.display address⟩

/-- Push an address of a known type. -/
def pushOperand (address : Nat) (ty : Scalar) (className : Option String) : Compile Unit := do
  let g ← get
  if g.pool.layout.typeOf address = some ty then
    push ⟨address, ty, className, false, g.names.display address⟩
  else reject (.wrongSlotType address ty)

/-- Push a declared variable that is no array. -/
def pushVariable (id : String) : Compile Unit := do
  match (← get).lookup id with
  | none => refuse (.undeclared id)
  | some v =>
    if v.isArray || !v.pendingSizes.isEmpty then refuse (.arrayUse id .mustBeIndexed)
    else push ⟨v.address, v.ty.storage, v.ty.class?, false, id⟩

/-! ### Open constructs -/

/-- Everything that can be open, with how much of it is. -/
def openConstructs (g : Generator) : List (Unclosed × Nat) :=
  [(.operands, g.operands.length), (.operators, g.operators.length),
    (.parentheses, g.fences.length), (.conditionals, g.conditionals.length),
    (.loops, g.loops.length), (.calls, g.calls.length),
    (.accesses, g.accesses.length)]

/-- Fail if anything is open. -/
def ensureClosed (scope : String) : Compile Unit := do
  match (openConstructs (← get)).find? (0 < ·.2) with
  | some (what, n) => reject (.leftOpen n what scope)
  | none => pure ()

end Compile

end Quadruple
