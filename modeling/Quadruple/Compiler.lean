/-
  The compiler: events in, program out.

  `apply` compiles one event.  A call's result can only be claimed by the very next event; any other
  event drops it, with a warning if the function returns something.  `perform` also takes the steps
  that a front end may call directly; these neither drop a result nor look up operator symbols.
  `finish` closes a compilation, and `compile` does all of it for a script.
-/
import Quadruple.Event
import Quadruple.Compiler.Call
import Quadruple.Compiler.Access
import Quadruple.Compiler.Branch

namespace Quadruple

namespace Compile

/-! ## Events -/

/-- Drop the result of a call that was just closed. -/
def dropResult : Compile Unit := do
  let g ← get
  match g.finishedCall with
  | none => pure ()
  | some f =>
    set { g with finishedCall := none }
    match (g.program.functions.find? f).bind (·.returnType) with
    | some ty => note (.resultDiscarded ty f)
    | none => pure ()

/-- The step of an event, whatever was before it. -/
def dispatch : Event → Compile Unit
  | .declareClass id => declareClass id
  | .declareField id ty => declareField id ty
  | .endClass => endClass
  | .declareFunction id => declareFunction id
  | .setFunctionType ty => setFunctionType ty
  | .declareParam id ty => declareParam id ty
  | .declareVariable id ty => declareVariable id ty
  | .declareArrayDimension size => declareArrayDimension size
  | .allocateArray => allocateArray
  | .endFunction => endFunction
  | .pushVariable id => pushVariable id
  | .pushOperand address ty className => pushOperand address ty className
  | .pushConstant value => pushConstant value
  | .pushOperator symbol =>
    match Opcode.ofSymbol? symbol with
    | some op => pushOperator op
    | none => reject (.unknownOperator symbol)
  | .openParenthesis => openParenthesis
  | .closeParenthesis => closeParenthesis
  | .reduce priority => reduce priority
  | .executeRemaining => reduceAll
  | .openConditional => openConditional
  | .elseBranch => elseBranch
  | .closeConditional => closeConditional
  | .saveLoopStart => saveLoopStart
  | .setLoopCondition => setLoopCondition
  | .closeLoop => closeLoop
  | .callFunction id => callFunction id
  | .pushCallArgument index => pushCallArgument index
  | .endCall => endCall
  | .pushCallResult => pushCallResult
  | .returnValue => returnValue
  | .returnVoid => returnVoid
  | .pushArray id => pushArray id
  | .pushArrayIndex => pushArrayIndex
  | .closeArrayAccess => closeArrayAccess
  | .pushObject id => pushObject id
  | .pushProperty name => pushProperty name
  | .newObject className => newObject className
  | .deleteObject => deleteObject
  | .print => print
  | .input text => input text

/-- Compile an event. -/
def apply (event : Event) : Compile Unit := do
  if event ≠ .pushCallResult then dropResult
  dispatch event

/-- Close a compilation. -/
def finish : Compile (Program × Names) := do
  let g ← get
  match g.currentFunction with
  | some f => reject (.functionNeverClosed f)
  | none =>
    ensureClosed "program"
    if !g.program.functions.contains Program.entryPoint then refuse (.undeclared Program.entryPoint)
    else
      let program :=
        { g.program with globals := { g.program.globals with locals := g.pool.peaks .globals } }
      note (.programFinished program.quads.size program.functions.size program.constants.size)
      return (program, g.names)

end Compile

/-! ## Direct steps -/

/-- An event, or a step called directly. -/
inductive Directive where
  | event (e : Event)
  | pushOperator (op : Opcode)
  | setFunctionType (ty : TypeName)
  | declareParam (id : String) (ty : TypeName)
  | declareVariable (id : String) (ty : TypeName)
  | pushConstant (value : Value)
  | pushVariable (id : String)
  | print
  | executeRemaining
  | pushCallResult
  | callFunction (id : String)
  | endCall
  | endFunction
deriving DecidableEq

/-- Compile an event or a direct step. -/
def Compile.perform : Directive → Compile Unit
  | .event e => apply e
  | .pushOperator op => Compile.pushOperator op
  | .setFunctionType ty => Compile.setFunctionType ty
  | .declareParam id ty => Compile.declareParam id ty
  | .declareVariable id ty => Compile.declareVariable id ty
  | .pushConstant value => Compile.pushConstant value
  | .pushVariable id => Compile.pushVariable id
  | .print => Compile.print
  | .executeRemaining => reduceAll
  | .pushCallResult => Compile.pushCallResult
  | .callFunction id => Compile.callFunction id
  | .endCall => Compile.endCall
  | .endFunction => Compile.endFunction

/-! ## Scripts -/

namespace Generator

/-- The quads of `after` that are new or differ from those of `before`, with their numbers. -/
def changedQuads (before after : Array Quad) : List (Nat × Quad) :=
  after.toList.zipIdx.filterMap fun (q, i) => if before[i]? = some q then none else some (i, q)

/-- The state after a list of events, refused ones included; each event finds the state that the one
before it left. -/
def feed (g : Generator) (events : List Event) : Generator :=
  events.foldl (fun g e => ((Compile.apply e).run.run g).2) g

end Generator

/-- A script that could not be compiled: the error, and the position of the event that was refused,
which is absent when all were taken and the end was refused. -/
structure ScriptError where
  position : Option Nat
  error : CompileError
deriving DecidableEq

/-- Compile events from the `i`th on. -/
def Compile.applyFrom (i : Nat) : List Event → Generator → Except ScriptError Unit × Generator
  | [], g => (.ok (), g)
  | e :: rest, g =>
    match (apply e).run.run g with
    | (.ok (), g') => applyFrom (i + 1) rest g'
    | (.error error, g') => (.error ⟨some i, error⟩, g')

/-- Compile a script: the program with its names, or the error, and the journal.  Sizes whose sum is
no word have no layout, so nothing is compiled for them. -/
def compile (threshold : Level) (sizes : Sizes) (events : List Event) :
    Except ScriptError (Program × Names) × Journal :=
  let start := Generator.ofSizes sizes threshold
  if ¬ sizes.Addressable then (.error ⟨none, ⟨.overflow .sum, start.scopeName⟩⟩, start.journal)
  else
    match Compile.applyFrom 0 events start with
    | (.error e, g) => (.error e, g.journal)
    | (.ok (), g) =>
      match Compile.finish.run.run g with
      | (.ok result, g') => (.ok result, g'.journal)
      | (.error error, g') => (.error ⟨none, error⟩, g'.journal)

end Quadruple
