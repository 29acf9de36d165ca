/-
  Calls and returns.

  A call reserves the frame of the callee, passes its arguments in order, each exactly once, and
  transfers control; its result can be claimed right after that.  The body of a function ends with
  an `ENDFUNC` quad of its own, after any returns in it, and its frame needs as many slots as were
  in use at once while it was compiled.
-/
import Quadruple.Compiler.Reduction
import Quadruple.Compiler.Declaration

namespace Quadruple.Compile

/-- What is known of a function. -/
def routine (id : String) : Compile Routine := do
  match (← get).program.functions.find? id with
  | some r => return r
  | none => refuse (.undeclared id)

/-! ## The caller's side -/

/-- Reserve the frame of a function and open its arguments. -/
def callFunction (id : String) : Compile Unit := do
  let _ ← routine id
  let _ ← emit .are (some (.function id)) none none
  modify fun g => { g with calls := ⟨id, 0⟩ :: g.calls }
  openParenthesis

/-- Pass the topmost operand as the argument with this index. -/
def pushCallArgument (index : Nat) : Compile Unit := do
  reduceAll
  let argument ← pop
  match (← get).calls with
  | [] => reject .argumentOutside
  | call :: _ =>
    let r ← routine call.function
    -- arguments come in order, each index exactly once
    if index ≠ call.passed then
      refuse (.arity call.function r.paramTypes.length (max index call.passed + 1))
    else match r.paramTypes[index]? with
      | none => refuse (.arity call.function r.paramTypes.length (index + 1))
      | some expected =>
        if !argument.fits expected then
          refuse (.parameterType call.function index expected.word argument.typeName)
        else
          let _ ← emit .param (some argument.value) none (some (.immediate index))
          release argument
          modify fun g => { g with calls := match g.calls with
            | call :: rest => { call with passed := call.passed + 1 } :: rest
            | [] => [] }

/-- Close the arguments and transfer control. -/
def endCall : Compile Unit := do
  let g ← get
  match g.calls with
  | [] => reject .endOfCallWithoutCall
  | call :: rest =>
    set { g with calls := rest }
    let r ← routine call.function
    if call.passed ≠ r.paramTypes.length then
      refuse (.arity call.function r.paramTypes.length call.passed)
    else
      closeParenthesis
      let _ ← emit .goSub (some (.function call.function)) none none
      modify fun g => { g with finishedCall := some call.function }

/-- Claim the result of the call just closed. -/
def pushCallResult : Compile Unit := do
  let g ← get
  match g.finishedCall with
  | none => reject .resultWithoutCall
  | some f =>
    set { g with finishedCall := none }
    match (← routine f).returnType with
    | none => refuse (.typeMismatch f "call" "Void")
    | some ty =>
      let result ← temporary ty.storage
      let _ ← emit .callAssign (some (.function f)) none (some (.addr result))
      push ⟨result, ty.storage, ty.class?, false, f ++ "()"⟩

/-! ## The callee's side -/

/-- The open function and what is known of it. -/
def openRoutine : Compile (String × Routine) := do
  match (← get).currentFunction with
  | none => reject .returnOutside
  | some f => return (f, ← routine f)

/-- Return the topmost operand. -/
def returnValue : Compile Unit := do
  let (f, r) ← openRoutine
  reduceAll
  let value ← pop
  match r.returnType with
  | none => refuse (.invalidReturn (.valueInVoid f))
  | some expected =>
    if !value.fits expected then refuse (.invalidReturn (.wrongType f expected.word value.typeName))
    else
      let _ ← emit .returnValue none none (some value.value)
      release value
      let _ ← emit .endFunc none none none
      modify fun g => { g with returned := true }

/-- Return nothing. -/
def returnVoid : Compile Unit := do
  let (f, r) ← openRoutine
  match r.returnType with
  | some expected => refuse (.invalidReturn (.valueMissing f expected.word))
  | none =>
    let _ ← emit .endFunc none none none

/-- Close the open function: end its body, record the size of its frames and forget its scope. -/
def endFunction : Compile Unit := do
  let (f, r) ← openRoutine
  if r.returnType.isSome && !(← get).returned then refuse (.invalidReturn (.neverReturns f))
  else
    ensureClosed ("'" ++ f ++ "'")
    let _ ← emit .endFunc none none none
    let pool := (← get).pool
    updateRoutine f fun r => { r with slots := ⟨pool.peaks .locals, pool.peaks .temporaries⟩ }
    modify fun g => { g with
      pool := (g.pool.releaseSegment .locals).releaseSegment .temporaries
      locals := Table.empty
      currentFunction := none
      lastDeclared := none }
    note (.functionClosed f)

end Quadruple.Compile
