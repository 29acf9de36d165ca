/-
  Why an event cannot be compiled.

  A cause is either a mistake in the program that the events describe (a type that does not fit, a
  name that is not there, too many values for a segment) or a misuse of the compiler: an event out
  of sequence.  Each cause is a constructor that carries what its message mentions, and
  `CompileError.message` gives the wording, together with the function that was open and, for some
  causes, a hint.
-/
import Quadruple.Pool
import Quadruple.Opcode

namespace Quadruple

/-- Something that can be left open at the end of a scope. -/
inductive Unclosed where
  | operands
  | operators
  | parentheses
  | conditionals
  | loops
  | calls
  | accesses
deriving DecidableEq, Inhabited

/-- How messages call what is left open. -/
def Unclosed.name : Unclosed → String
  | operands => "operand(s)"
  | operators => "operator(s)"
  | parentheses => "parenthesis group(s)"
  | conditionals => "if statement(s)"
  | loops => "loop(s)"
  | calls => "call(s)"
  | accesses => "array access(es)"

/-- An event out of sequence, or one that contradicts the state of the compiler. -/
inductive Misuse where
  | emittedOutsideFunction (op : Opcode)
  | notPendingJump (index : Nat)
  | address (error : PoolError)
  | pointerLiteral
  | operandUnderflow
  | operatorUnderflow
  | wrongSlotType (address : Nat) (ty : Scalar)
  | notAnOperator (op : Opcode)
  | unknownOperator (symbol : String)
  | unbalancedParenthesis
  | inputWithoutTarget
  | leftOpen (count : Nat) (what : Unclosed) (scope : String)
  | functionNeverClosed (id : String)
  | functionInside (id enclosing : String)
  | missingRoutine (id : String)
  | returnTypeOutside
  | parameterOutside (id : String)
  | dimensionWithoutVariable
  | classInside (id : String)
  | fieldOutside (id : String)
  | classVanished (id : String)
  | endOfClassWithoutClass
  | argumentOutside
  | endOfCallWithoutCall
  | resultWithoutCall
  | returnOutside
  | indexOutside
  | endOfAccessWithoutArray
  | accessWithoutOffset
  | secondElse
  | elseWithoutIf
  | endOfIfWithoutIf
  | conditionWithoutLoop
  | endOfLoopWithoutStart
  | loopWithoutCondition
deriving DecidableEq

def Misuse.message : Misuse → String
  | emittedOutsideFunction op => "'" ++ op.symbol ++ "' emitted outside of a function body"
  | notPendingJump i => "quad " ++ i.repr ++ " is not a pending jump"
  | address e => e.message
  | pointerLiteral => "pointer literals are not supported"
  | operandUnderflow => "operand stack underflow"
  | operatorUnderflow => "operator stack underflow"
  | wrongSlotType a ty => "address " ++ a.repr ++ " does not hold a " ++ ty.name
  | notAnOperator op => "'" ++ op.symbol ++ "' is not an expression operator"
  | unknownOperator s => "unknown operator '" ++ s ++ "'"
  | unbalancedParenthesis => "unbalanced parenthesis"
  | inputWithoutTarget => "input without an assignment target"
  | leftOpen n what scope => n.repr ++ " " ++ what.name ++ " left open at end of " ++ scope
  | functionNeverClosed id => "function '" ++ id ++ "' is never closed"
  | functionInside id enclosing => "function '" ++ id ++ "' declared inside '" ++ enclosing ++ "'"
  | missingRoutine id => "no data for '" ++ id ++ "'"
  | returnTypeOutside => "return type outside of a function declaration"
  | parameterOutside id => "parameter '" ++ id ++ "' outside of a function"
  | dimensionWithoutVariable => "array dimension without a declared variable"
  | classInside id => "class '" ++ id ++ "' must be declared at top level"
  | fieldOutside id => "field '" ++ id ++ "' outside of a class"
  | classVanished id => "class '" ++ id ++ "' vanished"
  | endOfClassWithoutClass => "end of class without a class"
  | argumentOutside => "argument outside of a call"
  | endOfCallWithoutCall => "end of call without a call"
  | resultWithoutCall => "call result without a finished call"
  | returnOutside => "return outside of a function"
  | indexOutside => "index outside of an array access"
  | endOfAccessWithoutArray => "end of array access without an array"
  | accessWithoutOffset => "array access without an offset"
  | secondElse => "second else on one if"
  | elseWithoutIf => "else without if"
  | endOfIfWithoutIf => "end of if without if"
  | conditionWithoutLoop => "loop condition without loop start"
  | endOfLoopWithoutStart => "end of loop without loop start"
  | loopWithoutCondition => "loop closed without a condition"

/-- What is wrong with the use or the declaration of an array. -/
inductive ArrayFault where
  | mustBeIndexed
  | sizeNotPositive
  | noDimensions
  | notAnArray
  | tooManyIndices (declared : Nat)
  | wrongIndexCount (expected found : Nat)
deriving DecidableEq

def ArrayFault.message : ArrayFault → String
  | mustBeIndexed => "an array must be indexed"
  | sizeNotPositive => "dimension size must be positive"
  | noDimensions => "no dimensions declared"
  | notAnArray => "not declared with dimensions"
  | tooManyIndices n => "declared with " ++ n.repr ++ " dimension(s)"
  | wrongIndexCount expected found =>
    "expected " ++ expected.repr ++ " index(es), got " ++ found.repr

/-- What is wrong with a return, or with a function that lacks one. -/
inductive ReturnFault where
  | valueInVoid (function : String)
  | wrongType (function expected found : String)
  | valueMissing (function expected : String)
  | neverReturns (function : String)
deriving DecidableEq

def ReturnFault.message : ReturnFault → String
  | valueInVoid f => "void function '" ++ f ++ "' cannot return a value"
  | wrongType f expected found => "'" ++ f ++ "' must return " ++ expected ++ ", found " ++ found
  | valueMissing f expected => "'" ++ f ++ "' must return " ++ expected
  | neverReturns f => "'" ++ f ++ "' never returns a value"

/-- Why an event was refused. -/
inductive Cause where
  | typeMismatch (left op right : String)
  | undeclared (id : String)
  | redeclared (id : String)
  | arity (function : String) (expected found : Nat)
  | parameterType (function : String) (index : Nat) (expected found : String)
  | exhausted (segment : Segment) (ty : Scalar)
  | noSuchField (className field : String)
  | classMismatch (expected found : String)
  | arrayUse (array : String) (fault : ArrayFault)
  | invalidReturn (fault : ReturnFault)
  | misuse (what : Misuse)
  /-- An address or a size is no word.  Nothing is said of the program that the events describe. -/
  | overflow (what : Overflow)
deriving DecidableEq

namespace Cause

def message : Cause → String
  | typeMismatch left op right =>
    "type mismatch: cannot apply '" ++ op ++ "' to '" ++ left ++ "' and '" ++ right ++ "'"
  | undeclared id => "undeclared identifier '" ++ id ++ "'"
  | redeclared id => "'" ++ id ++ "' is already declared in this scope"
  | arity f expected found =>
    "'" ++ f ++ "' expects " ++ expected.repr ++ " argument(s), got " ++ found.repr
  | parameterType f i expected found =>
    "argument " ++ i.repr ++ " of '" ++ f ++ "' must be " ++ expected ++ ", got " ++ found
  | exhausted segment ty => (PoolError.exhausted segment ty).message
  | noSuchField c f => "class '" ++ c ++ "' has no field '" ++ f ++ "'"
  | classMismatch expected found =>
    "cannot use a '" ++ found ++ "' object where '" ++ expected ++ "' is required"
  | arrayUse a fault => "array '" ++ a ++ "': " ++ fault.message
  | invalidReturn fault => "invalid return: " ++ fault.message
  | misuse what => "internal compiler error: " ++ what.message
  | overflow what => what.message

/-- Advice for the causes that have some. -/
def hint? : Cause → Option String
  | typeMismatch .. => some "Int widens to Float on assignment; every other conversion is explicit"
  | exhausted .. => some "split the function or raise the segment size in the layout"
  | arrayUse .. => some "index every declared dimension, e.g. grid[i][j]"
  | _ => none

/-- The cause of a pool error: running out is a mistake of the program, an overflow stays one, and
anything else is a misuse. -/
def ofPoolError : PoolError → Cause
  | .exhausted segment ty => exhausted segment ty
  | .overflow => overflow .sum
  | e => misuse (.address e)

end Cause

/-- A refused event: the cause and the scope it was met in. -/
structure CompileError where
  cause : Cause
  scope : String
deriving DecidableEq

/-- The whole message. -/
def CompileError.message (e : CompileError) : String :=
  let line := "compile error in '" ++ e.scope ++ "': " ++ e.cause.message
  match e.cause.hint? with
  | some hint => line ++ "\n  hint: " ++ hint
  | none => line

end Quadruple
