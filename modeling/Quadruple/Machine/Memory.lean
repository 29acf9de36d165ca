/-
  The state of the machine, and its memory as one space of addresses.

  An address lies in the heap, among the globals, in the active frame, or among the constants
  (`place`).  Reading and writing go through that distinction and nothing else, so `readSlot` and
  `writeSlot` make the machine's memory one array of independent slots.  A slot below the heap has
  the type of its run: what is written there is converted to it or refused.
-/
import Quadruple.Heap
import Quadruple.Journal.Memory
import Quadruple.Machine.Frame
import Quadruple.Machine.Fault

namespace Quadruple

/-- Limits of a run. -/
structure Limits where
  maxCallDepth : Nat
  maxSteps : Option Nat
  heapSize : Nat
deriving DecidableEq

namespace Limits

/-- The limits used when nothing else is asked for. -/
def standard : Limits := ⟨1000, none, 4096⟩

instance : Inhabited Limits := ⟨standard⟩

end Limits

/-- The state of the machine.  Stacks have their top in front. -/
structure Machine where
  limits : Limits
  console : Console
  layout : Layout
  quads : Array Quad
  functions : Table String Routine
  constants : Table Nat Value
  globals : Frame
  /-- Active frames, innermost first. -/
  frames : List Frame
  /-- Frames reserved for calls that are not entered yet. -/
  pending : List Frame
  /-- Where to continue when an active function ends. -/
  returns : List Nat
  /-- The value returned last and not claimed. -/
  returned : Option Value
  heap : Heap
  /-- The quad to execute. -/
  ip : Nat
  steps : Nat
  journal : Journal
deriving DecidableEq

namespace Machine

/-- The name of the frame of the globals. -/
def globalScope : String := "<global>"

/-- A machine that has not loaded anything. -/
def ofConsole (limits : Limits) (console : Console) (threshold : Level) : Machine where
  limits := limits
  console := console
  layout := Layout.standard
  quads := #[]
  functions := Table.empty
  constants := Table.empty
  globals := Frame.ofCounts globalScope SlotCounts.zero
  frames := []
  pending := []
  returns := []
  returned := none
  heap := Heap.ofSize Layout.standard.heapStart limits.heapSize
  ip := 0
  steps := 0
  journal := Journal.ofLevel threshold

/-- A fault with where the machine stands. -/
def errorOf (m : Machine) (f : Fault) : RuntimeError := ⟨f, m.ip, m.frames.map (·.function)⟩

/-- Where an address lies. -/
inductive Place where
  | global (r : Range)
  | frame (r : Range)
  | constant
  | heap
deriving DecidableEq

/-- Where an address lies, if it is mapped at all. -/
def place (m : Machine) (address : Nat) : Except Fault Place :=
  if m.layout.heapStart ≤ address then
    if m.heap.contains address then .ok .heap else .error (.invalidAddress address)
  else match m.layout.locate address with
    | none => .error (.invalidAddress address)
    | some r =>
      match r.segment with
      | .globals => .ok (.global r)
      | .locals | .temporaries => .ok (.frame r)
      | .constants => .ok .constant

/-- A slot, or the fault that there is none. -/
def mapped {α : Type} (absence : Fault) : Option α → Except Fault α
  | some a => .ok a
  | none => .error absence

/-- A heap result with its error as a fault. -/
def heapResult {α : Type} : Except HeapError α → Except Fault α
  | .ok a => .ok a
  | .error e => .error (.ofHeapError e)

/-- What a slot holds. -/
def readSlot (m : Machine) (address : Nat) : Except Fault (Option Value) := do
  match ← m.place address with
  | .global r => mapped (m.globals.absence r address) (m.globals.get? r address)
  | .frame r =>
    match m.frames with
    | [] => throw (.internal .noActiveFrame)
    | f :: _ => mapped (f.absence r address) (f.get? r address)
  | .constant => return m.constants.find? address
  | .heap => heapResult (m.heap.read address)

/-- What is stored in a slot for a value: converted to the type of the slot, if it has one. -/
def stored (m : Machine) (address : Nat) (v : Option Value) : Except Fault (Option Value) :=
  match v, m.layout.typeOf address with
  | some v, some ty =>
    match v.coerce? ty with
    | some v => .ok (some v)
    | none => .error (.typeError (.cannotStore ty address))
  | v, _ => .ok v

/-- Fill a slot or empty it. -/
def writeSlot (m : Machine) (address : Nat) (v : Option Value) : Except Fault Machine := do
  let v ← m.stored address v
  match ← m.place address with
  | .global r => do
    let globals ← mapped (m.globals.absence r address) (m.globals.set? r address v)
    return { m with globals := globals }
  | .frame r =>
    match m.frames with
    | [] => throw (.invalidAddress address)
    | f :: rest => do
      let f ← mapped (f.absence r address) (f.set? r address v)
      return { m with frames := f :: rest }
  | .constant => throw (.internal (.writeToConstant address))
  | .heap => do
    let heap ← heapResult (m.heap.write address v)
    return { m with heap := heap }

/-! ## Operands -/

/-- The value in a slot that has one. -/
def readValue (m : Machine) (address : Nat) : Except Fault Value := do
  match ← m.readSlot address with
  | some v => return v
  | none => throw (.uninitialized address)

/-- The address that a pointer slot holds. -/
def pointerAt (m : Machine) (address : Nat) : Except Fault Nat := do
  match ← m.readSlot address with
  | some (.pointer target) => return target
  | none => throw (.nullPointer address)
  | some v => throw (.typeError (.notAPointer address v.scalar))

/-- The slot that an operand names. -/
def resolve (m : Machine) : Option Operand → Except Fault Nat
  | some (.addr a) => .ok a
  | some (.ref a) => .ok a
  | some (.deref a) => m.pointerAt a
  | o => .error (.internal (.notASlot o))

/-- The value of an operand; a literal wraps to sixty-four bits. -/
def read (m : Machine) : Option Operand → Except Fault Value
  | some (.immediate n) => .ok (.int (Int64.ofInt n))
  | o => do m.readValue (← m.resolve o)

/-- The integer value of an operand. -/
def readInt (m : Machine) (o : Option Operand) : Except Fault Int64 := do
  match ← m.read o with
  | .int n => return n
  | v => throw (.typeError (.expected .int v.scalar))

/-- The truth value of an operand. -/
def readBool (m : Machine) (o : Option Operand) : Except Fault Bool := do
  match ← m.read o with
  | .bool b => return b
  | v => throw (.typeError (.expected .bool v.scalar))

/-- Write a value to the slot that an operand names. -/
def write (m : Machine) (o : Option Operand) (v : Value) : Except Fault Machine := do
  m.writeSlot (← m.resolve o) (some v)

end Machine

end Quadruple
