/-
  Expressions: operators turn operands into quads.

  An operator is pushed when it is met and reduced when enough is known: it takes the two topmost
  operands, emits its quads and, unless it assigns, pushes its result.  A front end asks for
  reduction by priority (`reduce`) or for everything since the innermost open parenthesis
  (`reduceAll`); no reduction goes below that fence.  Each reduction takes exactly one operator off
  the stack, so `reduceAll` runs as often as the stack is higher than the fence.
-/
import Quadruple.Compiler.Generator

namespace Quadruple.Compile

/-- Push an operator of expressions. -/
def pushOperator (op : Opcode) : Compile Unit := do
  if op.priority?.isNone then reject (.notAnOperator op)
  else modify fun g => { g with operators := op :: g.operators }

/-! ## Operators that compute -/

/-- Emit `left op right` into a fresh temporary and push it. -/
def binary (left : Entry) (op : Opcode) (right : Entry) : Compile Unit := do
  match op.resultType? left.ty right.ty with
  | none => refuse (.typeMismatch left.name op.symbol right.name)
  | some ty =>
    let result ← temporary ty
    let _ ← emit op (some left.value) (some right.value) (some (.addr result))
    release left
    release right
    push ⟨result, ty, none, false, "(" ++ left.name ++ " " ++ op.symbol ++ " " ++ right.name ++ ")"⟩

/-! ## Operators that assign -/

/-- Emit the assignment of one pointer to another; both must lead to the same class. -/
def assignPointer (left right : Entry) : Compile Unit := do
  if left.ty ≠ right.ty then refuse (.typeMismatch left.name "=" right.name)
  else if left.className ≠ right.className then refuse (.classMismatch left.typeName right.typeName)
  else
    let _ ← emit .pointerAssign (some right.pointer) none (some left.pointer)
    release right
    release left

/-- The operand to store: heap cells have no type, so an integer is widened before it is stored as a
float through a pointer. -/
def widened (left right : Entry) : Compile Entry := do
  if left.through && left.ty = .float && right.ty = .int then
    let wide ← temporary .float
    let _ ← emit .assign (some right.value) none (some (.addr wide))
    release right
    return ⟨wide, .float, none, false, right.name⟩
  else return right

/-- Emit an assignment. -/
def assign (left right : Entry) : Compile Unit := do
  if left.ty = .pointer ∨ right.ty = .pointer then assignPointer left right
  else if (Opcode.assign.resultType? left.ty right.ty).isNone then
    refuse (.typeMismatch left.name "=" right.name)
  else
    let source ← widened left right
    let _ ← emit .assign (some source.value) none (some left.value)
    release source
    release left

/-- Emit `left op= right` as `t = left op right; left = t`. -/
def compoundAssign (left : Entry) (op base : Opcode) (right : Entry) : Compile Unit := do
  match op.resultType? left.ty right.ty with
  | none => refuse (.typeMismatch left.name op.symbol right.name)
  | some ty =>
    if (Opcode.assign.resultType? left.ty ty).isNone then
      refuse (.typeMismatch left.name op.symbol right.name)
    else
      let result ← temporary ty
      let _ ← emit base (some left.value) (some right.value) (some (.addr result))
      let _ ← emit .assign (some (.addr result)) none (some left.value)
      giveBack result
      release right
      release left

/-! ## Reduction -/

/-- Take an operator off its stack. -/
def popOperator : Compile Opcode := do
  let g ← get
  match g.operators with
  | op :: rest =>
    set { g with operators := rest }
    return op
  | [] => reject .operatorUnderflow

/-- Reduce the topmost operator. -/
def reduceTop : Compile Unit := do
  let op ← popOperator
  let right ← pop
  let left ← pop
  if op = .assign then assign left right
  else match op.compoundBase? with
    | some base => compoundAssign left op base right
    | none => binary left op right

/-- Reduce the topmost operator so many times. -/
def reduceTimes : Nat → Compile Unit
  | 0 => pure ()
  | n + 1 => do
    reduceTop
    reduceTimes n

/-- Reduce every operator since the innermost open parenthesis. -/
def reduceAll : Compile Unit := do
  let g ← get
  reduceTimes (g.operators.length - g.fence)

/-- Reduce the topmost operator if it stands since the innermost open parenthesis and has this
priority. -/
def reduce (priority : Nat) : Compile Unit := do
  let g ← get
  if g.operators.length ≤ g.fence then pure ()
  else match g.operators with
    | op :: _ => if op.priority? = some priority then reduceTop else pure ()
    | [] => pure ()

def openParenthesis : Compile Unit :=
  modify fun g => { g with fences := g.operators.length :: g.fences }

def closeParenthesis : Compile Unit := do
  reduceAll
  let g ← get
  match g.fences with
  | _ :: rest => set { g with fences := rest }
  | [] => reject .unbalancedParenthesis

/-! ## Built-ins -/

/-- Print the topmost operand. -/
def print : Compile Unit := do
  reduceAll
  let value ← pop
  let _ ← emit .print none none (some value.value)
  release value

/-- Print a prompt, if there is one. -/
def prompt : Option String → Compile Unit
  | none => pure ()
  | some text => do
    let address ← constant (.string text)
    let _ ← emit .print none none (some (.addr address))

/-- Read a line into a fresh temporary of the type of the topmost operand, the target of the
assignment to come, and push it. -/
def input (text : Option String) : Compile Unit := do
  match (← get).operands with
  | [] => reject .inputWithoutTarget
  | target :: _ =>
    if target.ty = .pointer then refuse (.typeMismatch target.name "input" "Pointer")
    else
      prompt text
      let result ← temporary target.ty
      let _ ← emit .input none none (some (.addr result))
      push ⟨result, target.ty, none, false, "input"⟩

end Quadruple.Compile
