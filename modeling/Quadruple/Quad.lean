/-
  Quads: instructions with an opcode and three optional operands.

  By convention the third operand is where a result goes, the target of a jump, or the only
  operand.  An operand names a slot in one of three ways (the slot itself, a pointer slot acted on
  as itself, or the slot a pointer leads to), or is a quad number, a small literal, a function, or
  the request for a fresh block.
-/
import Quadruple.Opcode
import Quadruple.Text.Quoted

namespace Quadruple

/-- An operand of a quad. -/
inductive Operand where
  /-- A slot, read or written directly. -/
  | addr (address : Nat)
  /-- A pointer slot, acted on as itself. -/
  | ref (address : Nat)
  /-- The slot that the pointer stored at the address leads to. -/
  | deref (address : Nat)
  /-- The number of a quad. -/
  | jump (target : Nat)
  /-- A small literal: an offset, a size or a position. -/
  | immediate (n : Nat)
  /-- A function by name. -/
  | function (id : String)
  /-- The request for a fresh heap block. -/
  | allocHeap
deriving DecidableEq, Inhabited

namespace Operand

/-- An operand in listings. -/
def text : Operand → String
  | addr a => a.repr
  | ref a => "&" ++ a.repr
  | deref a => "*" ++ a.repr
  | jump i => "@" ++ i.repr
  | immediate n => "#" ++ n.repr
  | function id => id
  | allocHeap => "HEAP"

/-- An operand in messages about malformed code: its kind, and its content in parentheses. -/
def describe : Operand → String
  | addr a => "Addr(" ++ a.repr ++ ")"
  | ref a => "Ref(" ++ a.repr ++ ")"
  | deref a => "Deref(" ++ a.repr ++ ")"
  | jump i => "Jump(" ++ i.repr ++ ")"
  | immediate n => "Immediate(" ++ n.repr ++ ")"
  | function id => "Function(" ++ Text.quoted id ++ ")"
  | allocHeap => "AllocHeap"

/-- An operand place in listings: a dash where there is none. -/
def textOf : Option Operand → String
  | some o => o.text
  | none => "-"

/-- An operand place in messages about malformed code. -/
def describeOf : Option Operand → String
  | some o => "Some(" ++ o.describe ++ ")"
  | none => "None"

end Operand

/-- An instruction. -/
structure Quad where
  op : Opcode
  left : Option Operand
  right : Option Operand
  result : Option Operand
deriving DecidableEq, Inhabited

namespace Quad

/-- Whether the instruction is a jump. -/
def isJump (q : Quad) : Bool := q.op = .goto || q.op = .gotoFalse

/-- Where a jump goes, once that is known. -/
def jumpTarget? (q : Quad) : Option Nat :=
  match q.isJump, q.result with
  | true, some (.jump target) => some target
  | _, _ => none

/-- A quad in messages. -/
def text (q : Quad) : String :=
  "(" ++ q.op.symbol ++ ", " ++ Operand.textOf q.left ++ ", " ++ Operand.textOf q.right ++ ", " ++
    Operand.textOf q.result ++ ")"

end Quad

end Quadruple
