/-
  Programs as bytes.

  The parts of a program follow one another without names or padding: sizes, constants, functions,
  globals, quads, start of the heap.  `ofBytes` ignores whatever follows the program, takes the
  entries of a table in any order and keeps the last of those with one key.
-/
import Quadruple.Program
import Quadruple.Bytes

namespace Quadruple

open Bytes

/-! ## Values, operands and quads -/

def Scalar.toBytes (ty : Scalar) : Bytes := ofTag ty.index

def Scalar.decode : Decoder Scalar := do
  match Scalar.all[← takeTag]? with
  | some ty => return ty
  | none => throw .unknownAlternative

def Opcode.toBytes (op : Opcode) : Bytes := ofTag op.index

def Opcode.decode : Decoder Opcode := do
  match Opcode.ofIndex? (← takeTag) with
  | some op => return op
  | none => throw .unknownAlternative

def TypeName.toBytes (ty : TypeName) : Bytes := ofText ty.word

def TypeName.decode : Decoder TypeName := do return TypeName.ofWord (← takeText)

def Value.toBytes : Value → Bytes
  | int n => ofTag 0 ++ ofInt64 n
  | float x => ofTag 1 ++ ofFloat x
  | bool b => ofTag 2 ++ ofBool b
  | string s => ofTag 3 ++ ofText s
  | pointer a => ofTag 4 ++ ofWord a

def Value.decode : Decoder Value := do
  match ← takeTag with
  | 0 => return .int (← takeInt64)
  | 1 => return .float (← takeFloat)
  | 2 => return .bool (← takeBool)
  | 3 => return .string (← takeText)
  | 4 => return .pointer (← takeWord)
  | _ => throw .unknownAlternative

def Operand.toBytes : Operand → Bytes
  | addr a => ofTag 0 ++ ofWord a
  | ref a => ofTag 1 ++ ofWord a
  | deref a => ofTag 2 ++ ofWord a
  | jump i => ofTag 3 ++ ofWord i
  | immediate n => ofTag 4 ++ ofWord n
  | function id => ofTag 5 ++ ofText id
  | allocHeap => ofTag 6

def Operand.decode : Decoder Operand := do
  match ← takeTag with
  | 0 => return .addr (← takeWord)
  | 1 => return .ref (← takeWord)
  | 2 => return .deref (← takeWord)
  | 3 => return .jump (← takeWord)
  | 4 => return .immediate (← takeWord)
  | 5 => return .function (← takeText)
  | 6 => return .allocHeap
  | _ => throw .unknownAlternative

def Quad.toBytes (q : Quad) : Bytes :=
  q.op.toBytes ++ ofOption Operand.toBytes q.left ++ ofOption Operand.toBytes q.right ++
    ofOption Operand.toBytes q.result

def Quad.decode : Decoder Quad := do
  let op ← Opcode.decode
  let left ← takeOption Operand.decode
  let right ← takeOption Operand.decode
  let result ← takeOption Operand.decode
  return ⟨op, left, right, result⟩

/-! ## Counts, constants and functions -/

def PerScalar.toBytes (r : PerScalar Nat) : Bytes := r.toList.flatMap ofWord

def PerScalar.decode : Decoder (PerScalar Nat) := do
  let int ← takeWord
  let float ← takeWord
  let bool ← takeWord
  let string ← takeWord
  let pointer ← takeWord
  return ⟨int, float, bool, string, pointer⟩

def Sizes.toBytes (sizes : Sizes) : Bytes := sizes.toList.flatMap PerScalar.toBytes

def Sizes.decode : Decoder Sizes := do
  let globals ← PerScalar.decode
  let locals ← PerScalar.decode
  let temporaries ← PerScalar.decode
  let constants ← PerScalar.decode
  return ⟨globals, locals, temporaries, constants⟩

def SlotCounts.toBytes (c : SlotCounts) : Bytes := c.locals.toBytes ++ c.temporaries.toBytes

def SlotCounts.decode : Decoder SlotCounts := do
  let locals ← PerScalar.decode
  let temporaries ← PerScalar.decode
  return ⟨locals, temporaries⟩

def Constant.toBytes (c : Constant) : Bytes := c.value.toBytes ++ c.ty.toBytes

def Constant.decode : Decoder Constant := do
  let value ← Value.decode
  let ty ← Scalar.decode
  return ⟨value, ty⟩

def Routine.toBytes (r : Routine) : Bytes :=
  ofWord r.startQuad ++ ofOption TypeName.toBytes r.returnType ++ ofList TypeName.toBytes
    r.paramTypes ++
    ofList ofWord r.paramAddresses ++ r.slots.toBytes

def Routine.decode : Decoder Routine := do
  let startQuad ← takeWord
  let returnType ← takeOption TypeName.decode
  let paramTypes ← takeList TypeName.decode
  let paramAddresses ← takeList takeWord
  let slots ← SlotCounts.decode
  return ⟨startQuad, returnType, paramTypes, paramAddresses, slots⟩

/-! ## Programs -/

namespace Program

def toBytes (p : Program) : Bytes :=
  p.sizes.toBytes ++ ofList (fun e => ofWord e.1 ++ e.2.toBytes) p.constants.entries ++
    ofList (fun e => ofText e.1 ++ e.2.toBytes) p.functions.entries ++ p.globals.toBytes ++
    ofList Quad.toBytes p.quads.toList ++ ofWord p.heapStart

def decode : Decoder Program := do
  let sizes ← Sizes.decode
  let constants ← takeList (takePair takeWord Constant.decode)
  let functions ← takeList (takePair takeText Routine.decode)
  let globals ← SlotCounts.decode
  let quads ← takeList Quad.decode
  let heapStart ← takeWord
  return ⟨sizes, Table.ofList constants, Table.ofList functions, globals, quads.toArray, heapStart⟩

/-- The program at the front of a byte sequence. -/
def ofBytes (bytes : Bytes) : Except DecodeError Program :=
  match decode bytes with
  | .ok (p, _) => .ok p
  | .error e => .error e

/-- The message when bytes are no program. -/
def decodeMessage (e : DecodeError) : String := "binary program encoding: " ++ e.message

end Program

end Quadruple
