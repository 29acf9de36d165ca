/-
  One step of the machine: the effect of the quad at the instruction pointer.

  A step is a computation in `Exec`: it may fault, and what it did before that stays done.  It does
  not move the instruction pointer; its result, a `Flow`, says where execution goes on.

  A call takes four kinds of quads.  `ARE` reserves a frame, `PARAM` fills its parameter slots,
  `GOSUB` enters it, and `ENDFUNC` leaves it.  A `RETURN` sets the value that a `CALL_ASSIGN` right
  after the call claims; entering a function drops whatever was not claimed.
-/
import Quadruple.Machine.Memory
import Quadruple.Machine.Arithmetic

namespace Quadruple

/-- Where execution goes on after a quad. -/
inductive Flow where
  | next
  | jump (target : Nat)
  | halt
deriving DecidableEq, Inhabited

/-- A computation of the machine: it may fault, and keeps what it did before that. -/
abbrev Exec := ExceptT Fault (StateM Machine)

namespace Exec

/-- A question to the machine that changes nothing. -/
def ask {α : Type} (f : Machine → Except Fault α) : Exec α := do
  match f (← get) with
  | .ok a => return a
  | .error e => throw e

/-- A change of the machine, or a fault that leaves it as it is.  The fault carries no machine:
whatever is passed here makes all its checks before its first assignment, and what assigns in
between is a sequence of several updates, of which the earlier ones stay done. -/
def update (f : Machine → Except Fault Machine) : Exec Unit := do set (← ask f)

/-- Note something down. -/
def note (n : Note) : Exec Unit := modify fun m => { m with journal := m.journal.write n }

/-- Malformed code. -/
def reject {α : Type} (d : Defect) : Exec α := throw (.internal d)

/-! ## Arithmetic, logic, assignment -/

def arithmetic (q : Quad) : Exec Flow := do
  let left ← ask (·.read q.left)
  let right ← ask (·.read q.right)
  let target ← ask (·.resolve q.result)
  let v ← ask fun m => Quadruple.arithmetic q.op (m.layout.typeOf target) left right
  update (·.writeSlot target (some v))
  return .next

def boolean (q : Quad) : Exec Flow := do
  let left ← ask (·.read q.left)
  let right ← ask (·.read q.right)
  let b ← ask fun _ => Quadruple.boolean q.op left right
  update (·.write q.result (.bool b))
  return .next

def assign (q : Quad) : Exec Flow := do
  let v ← ask (·.read q.left)
  update (·.write q.result v)
  return .next

/-! ## Pointers and arrays -/

/-- The address that a pointer sum starts from. -/
def pointerBase : Option Operand → Exec Nat
  | some (.immediate n) => return n
  | some (.addr a) => ask (·.pointerAt a)
  | some (.ref a) => ask (·.pointerAt a)
  | some (.deref a) => do ask (·.pointerAt (← ask (·.pointerAt a)))
  | o => reject (.badPointerBase o)

def pointerAdd (q : Quad) : Exec Flow := do
  let base ← pointerBase q.left
  let offset := (← ask (·.readInt q.right)).toInt
  let address := (base : Int) + offset
  if offset < 0 ∨ UInt64.size ≤ address then throw (.invalidAddress base)
  else
    update (·.write q.result (.pointer address.toNat))
    return .next

/-- Reserve a heap block; the result is where it starts. -/
def newBlock (size : Nat) : Exec Nat := do
  let m ← get
  match m.heap.allocate size with
  | .error e => throw (.ofHeapError e)
  | .ok (s, heap) =>
    set { m with heap := heap }
    note s.allocationNote
    return s.first

/-- The value of a pointer assignment: a fresh block, or what the source slot holds. -/
def pointerSource (q : Quad) : Exec (Option Value) := do
  match q.left with
  | some .allocHeap =>
    match q.right with
    | some (.immediate n) => return some (.pointer (← newBlock n))
    | o => reject (.badHeapSize o)
  | o =>
    let address ← ask (·.resolve o)
    ask (·.readSlot address)

/-- A pointer or nothing; any other value is refused. -/
def requirePointer : Option Value → Exec Unit
  | some (.pointer _) => pure ()
  | none => pure ()
  | some v => throw (.typeError (.pointerAssignment v.scalar))

def pointerAssign (q : Quad) : Exec Flow := do
  let v ← pointerSource q
  requirePointer v
  let target ← ask (·.resolve q.result)
  update (·.writeSlot target v)
  return .next

/-- Note each block of a list as given back. -/
def noteFreed : List Span → Exec Unit
  | [] => pure ()
  | s :: rest => do
    note s.releaseNote
    noteFreed rest

/-- Release the block at a reference and all it leads to. -/
def releaseBlocks (reference : Nat) : Exec Unit := do
  let m ← get
  match m.heap.release reference with
  | .error e => throw (.ofHeapError e)
  | .ok (spans, heap) =>
    set { m with heap := heap }
    noteFreed spans
    note (.blocksReleased spans.length reference)

def deleteRef (q : Quad) : Exec Flow := do
  let slot ← ask (·.resolve q.result)
  let reference ← ask (·.pointerAt slot)
  releaseBlocks reference
  update (·.writeSlot slot none)
  return .next

def verify (q : Quad) : Exec Flow := do
  let index := (← ask (·.readInt q.left)).toInt
  let size := (← ask (·.readInt q.result)).toInt
  if index < 0 ∨ size ≤ index then throw (.indexOutOfRange index size) else return .next

/-! ## Jumps, input and output -/

def jump (q : Quad) : Exec Flow := do
  match q.jumpTarget? with
  | none => reject .unpatchedJump
  | some target =>
    if q.op = .goto then return .jump target
    else if ← ask (·.readBool q.left) then return .next
    else return .jump target

/-- Write a line. -/
def writeLine (text : String) : Exec Unit := do
  let m ← get
  let (result, console) := m.console.write (Bytes.utf8 text ++ [10])
  set { m with console := console }
  match result with
  | .ok () => pure ()
  | .error e => throw (.console e)

def print (q : Quad) : Exec Flow := do
  let v ← ask (·.read q.result)
  writeLine v.text
  return .next

/-- Make sure that everything written arrives. -/
def flush : Exec Unit := do
  match (← get).console.flush with
  | .ok () => pure ()
  | .error e => throw (.console e)

/-- Read a line. -/
def readLine : Exec String := do
  let m ← get
  let (result, console) := m.console.readLine
  set { m with console := console }
  match result with
  | .ok line => return line
  | .error e => throw (.console e)

def input (q : Quad) : Exec Flow := do
  let target ← ask (·.resolve q.result)
  match (← get).layout.typeOf target with
  | none => throw (.typeError .untypedInput)
  | some ty =>
    flush
    let line ← readLine
    match Value.read? ty line with
    | none => throw (.invalidInput ty (String.ofList (Text.trimEnd line.toList)))
    | some v =>
      update (·.writeSlot target (some v))
      return .next

/-! ## Calls -/

/-- The function that an operand names, and what is known of it. -/
def callee : Option Operand → Exec (String × Routine)
  | some (.function id) => do
    match (← get).functions.find? id with
    | some r => return (id, r)
    | none => reject (.unknownFunction id)
  | o => reject (.notAFunction o)

def are (q : Quad) : Exec Flow := do
  let (id, r) ← callee q.left
  let frame ← ask fun _ => Machine.mapped .overflow (Frame.ofCounts? id r.slots)
  modify fun m => { m with pending := frame :: m.pending }
  return .next

def param (q : Quad) : Exec Flow := do
  let v ← ask (·.read q.left)
  match q.result with
  | some (.immediate index) =>
    let m ← get
    match m.pending with
    | [] => reject .argumentWithoutFrame
    | frame :: rest =>
      match (m.functions.find? frame.function).bind (·.paramAddresses[index]?) with
      | none => reject (.noParameter index)
      | some address =>
        match m.layout.locate address with
        | none => throw (.invalidAddress address)
        | some r =>
          match v.coerce? r.ty with
          | none => throw (.typeError (.argument index r.ty))
          | some v =>
            match frame.set? r address (some v) with
            | none => throw (frame.absence r address)
            | some frame =>
              set { m with pending := frame :: rest }
              return .next
  | _ => reject .argumentWithoutIndex

def goSub (q : Quad) : Exec Flow := do
  let (id, r) ← callee q.left
  let m ← get
  if m.limits.maxCallDepth ≤ m.frames.length then throw (.callDepth m.limits.maxCallDepth)
  else match m.pending with
    | [] => reject .callWithoutFrame
    | frame :: rest =>
      note (.functionEntered id m.ip)
      modify fun m => { m with
        pending := rest
        returned := none
        frames := frame :: m.frames
        returns := (m.ip + 1) :: m.returns }
      return .jump r.startQuad

def returnValue (q : Quad) : Exec Flow := do
  let v ← ask (·.read q.result)
  modify fun m => { m with returned := some v }
  return .next

def endFunc : Exec Flow := do
  let m ← get
  match m.returns with
  | ip :: rest =>
    set { m with frames := m.frames.drop 1, returns := rest }
    return .jump ip
  | [] =>
    set { m with frames := m.frames.drop 1 }
    return .halt

/-- What messages call the function of a call result. -/
def resultOwner : Option Operand → String
  | some (.function id) => id
  | _ => "<unknown>"

def callAssign (q : Quad) : Exec Flow := do
  let m ← get
  match m.returned with
  | none => throw (.missingReturn (resultOwner q.left))
  | some v =>
    set { m with returned := none }
    update (·.write q.result v)
    return .next

/-! ## Steps -/

/-- The effect of a quad. -/
def execute (q : Quad) : Exec Flow :=
  match q.op with
  | .add | .subtract | .multiply | .divide => arithmetic q
  | .equal | .notEqual | .lessThan | .greaterThan | .lessEqual | .greaterEqual | .and | .or =>
    boolean q
  | .assign => assign q
  | .pointerAdd => pointerAdd q
  | .pointerAssign => pointerAssign q
  | .deleteRef => deleteRef q
  | .verify => verify q
  | .goto | .gotoFalse => jump q
  | .print => print q
  | .input => input q
  | .are => are q
  | .param => param q
  | .goSub => goSub q
  | .returnValue => returnValue q
  | .endFunc => endFunc
  | .callAssign => callAssign q
  | .addAssign | .subtractAssign | .multiplyAssign | .divideAssign => throw (.unknownOpcode q.op)

/-- Count a step, within the limit. -/
def countStep : Exec Unit := do
  modify fun m => { m with steps := m.steps + 1 }
  let m ← get
  match m.limits.maxSteps with
  | some limit => if limit < m.steps then throw (.stepLimit limit)
  | none => pure ()

/-- Execute the quad at the instruction pointer. -/
def step : Exec Flow := do
  let m ← get
  match m.quads[m.ip]? with
  | none => reject (.outsideProgram m.ip)
  | some q =>
    countStep
    note (.quadReached m.ip q)
    execute q

end Exec

end Quadruple
