/-
  Why a run stops before its end.

  A fault is a cause with what its message mentions; a `RuntimeError` adds where execution stood:
  the quad, and the functions active at that moment.  Faults of the program (`TypeFault` and the
  constructors of `Fault`) are kept apart from code that no compiler would emit (`Defect`).
-/
import Quadruple.Word
import Quadruple.Quad
import Quadruple.Scalar
import Quadruple.Decimal.Digits
import Quadruple.Heap.Blocks
import Quadruple.Machine.Console

namespace Quadruple

/-- A value of the wrong type, or out of the range of its type. -/
inductive TypeFault where
  | cannotStore (ty : Scalar) (address : Nat)
  | notAPointer (address : Nat) (found : Scalar)
  | expected (ty found : Scalar)
  | integerOperation (op : Opcode) (left right : Scalar)
  | floatOperation (op : Opcode) (left right : Scalar)
  | overflow (left : Int) (op : Opcode) (right : Int)
  | resultSlot (ty : Option Scalar)
  | logicOperation (op : Opcode) (left right : Scalar)
  | incomparable (left right : Scalar)
  | pointerAssignment (found : Scalar)
  | untypedInput
  | argument (index : Nat) (ty : Scalar)
deriving DecidableEq

def TypeFault.message : TypeFault → String
  | cannotStore ty a => "cannot store a value in " ++ ty.name ++ " slot " ++ a.repr
  | notAPointer a found => "expected a pointer at " ++ a.repr ++ ", found " ++ found.name
  | expected ty found => "expected " ++ ty.name ++ ", found " ++ found.name
  | integerOperation op l r => "integer " ++ op.symbol ++ " on " ++ l.name ++ " and " ++ r.name
  | floatOperation op l r => "float " ++ op.symbol ++ " on " ++ l.name ++ " and " ++ r.name
  | overflow l op r =>
    "integer overflow in " ++ Decimal.intText l ++ " " ++ op.symbol ++ " " ++ Decimal.intText r
  | resultSlot (some ty) => "arithmetic result stored in Some(" ++ ty.name ++ ") slot"
  | resultSlot none => "arithmetic result stored in None slot"
  | logicOperation op l r => op.symbol ++ " on " ++ l.name ++ " and " ++ r.name
  | incomparable l r => "cannot compare " ++ l.name ++ " with " ++ r.name
  | pointerAssignment found => "pointer assignment of " ++ found.name
  | untypedInput => "input into an untyped cell"
  | argument i ty => "argument " ++ i.repr ++ " does not fit a " ++ ty.name ++ " parameter"

/-- Malformed code. -/
inductive Defect where
  | heapStartMismatch (program layout : Nat)
  | noEntryPoint
  | outsideProgram (ip : Nat)
  | noActiveFrame
  | writeToConstant (address : Nat)
  | notASlot (operand : Option Operand)
  | badPointerBase (operand : Option Operand)
  | badHeapSize (operand : Option Operand)
  | unpatchedJump
  | notAFunction (operand : Option Operand)
  | unknownFunction (id : String)
  | argumentWithoutIndex
  | argumentWithoutFrame
  | noParameter (index : Nat)
  | callWithoutFrame
deriving DecidableEq

def Defect.message : Defect → String
  | heapStartMismatch p l =>
    "heap start " ++ p.repr ++ " does not match the layout (" ++ l.repr ++ ")"
  | noEntryPoint => "program has no main function"
  | outsideProgram ip => "instruction pointer " ++ ip.repr ++ " outside the program"
  | noActiveFrame => "no active frame"
  | writeToConstant a => "write to constant " ++ a.repr
  | notASlot o => "operand " ++ Operand.describeOf o ++ " does not name a slot"
  | badPointerBase o => "bad pointer base " ++ Operand.describeOf o
  | badHeapSize o => "bad heap size " ++ Operand.describeOf o
  | unpatchedJump => "unpatched jump"
  | notAFunction o => "expected a function operand, found " ++ Operand.describeOf o
  | unknownFunction id => "unknown function '" ++ id ++ "'"
  | argumentWithoutIndex => "PARAM without index"
  | argumentWithoutFrame => "PARAM without ARE"
  | noParameter i => "no parameter " ++ i.repr
  | callWithoutFrame => "GOSUB without ARE"

/-- Why a run stops. -/
inductive Fault where
  | nullPointer (address : Nat)
  | indexOutOfRange (index size : Int)
  | divisionByZero
  | heapExhausted (requested largest : Nat)
  | unknownOpcode (op : Opcode)
  | doubleFree (reference : Nat)
  | uninitialized (address : Nat)
  | invalidAddress (address : Nat)
  | invalidInput (expected : Scalar) (text : String)
  | typeError (fault : TypeFault)
  | missingReturn (function : String)
  | stepLimit (limit : Nat)
  | callDepth (limit : Nat)
  | console (error : ConsoleError)
  | internal (defect : Defect)
  /-- A count of slots or an address is no word. -/
  | overflow
deriving DecidableEq

namespace Fault

def message : Fault → String
  | nullPointer a => "null pointer dereference through address " ++ a.repr
  | indexOutOfRange i size =>
    "array index " ++ Decimal.intText i ++ " out of range for size " ++ Decimal.intText size
  | divisionByZero => "division by zero"
  | heapExhausted requested largest => (HeapError.exhausted requested largest).message
  | unknownOpcode op => "unknown opcode '" ++ op.symbol ++ "'"
  | doubleFree r => "heap reference " ++ r.repr ++ " released twice"
  | uninitialized a => "read of uninitialized address " ++ a.repr
  | invalidAddress a => "address " ++ a.repr ++ " is not mapped"
  | invalidInput ty text => "cannot read '" ++ text ++ "' as " ++ ty.name
  | typeError f => "type error: " ++ f.message
  | missingReturn f => "function '" ++ f ++ "' ended without returning a value"
  | stepLimit n => "execution step limit exceeded (" ++ n.repr ++ ")"
  | callDepth n => "maximum call depth exceeded (" ++ n.repr ++ ")"
  | console e => "i/o error: " ++ e.message
  | internal d => "internal error: " ++ d.message
  | overflow => Overflow.sum.message

/-- The fault that a heap error is at run time. -/
def ofHeapError : HeapError → Fault
  | .exhausted requested largest => heapExhausted requested largest
  | .notAllocated r => doubleFree r
  | .outside a => invalidAddress a

end Fault

/-- A fault with where it was met. -/
structure RuntimeError where
  fault : Fault
  /-- The quad that raised it. -/
  ip : Nat
  /-- The active functions, innermost first. -/
  callStack : List String
deriving DecidableEq

/-- The whole message: the fault and, below it, the call stack. -/
def RuntimeError.message (e : RuntimeError) : String :=
  let line := "runtime error at quad " ++ e.ip.repr ++ ": " ++ e.fault.message
  if e.callStack.isEmpty then line
  else line ++ "\n  call stack:" ++
    String.join (e.callStack.zipIdx.map fun (f, i) => "\n    " ++ i.repr ++ ": " ++ f)

end Quadruple
