/-
  Operators and instructions.

  One type covers the operators of expressions and the instructions of compiled code, since most
  operators become the instruction of the same name.  Compound assignments exist only as operators:
  the compiler lowers them, and a machine that meets one does not know it (`family?` has no answer
  for them).  The order of the constructors is the order of their numbers in encoded programs.
-/

namespace Quadruple

/-- An operator or instruction. -/
inductive Opcode where
  -- arithmetic
  | add
  | subtract
  | multiply
  | divide
  -- compound assignment
  | addAssign
  | subtractAssign
  | multiplyAssign
  | divideAssign
  -- comparison
  | equal
  | notEqual
  | lessThan
  | greaterThan
  | lessEqual
  | greaterEqual
  -- logic
  | and
  | or
  -- assignment
  | assign
  | pointerAssign
  -- pointers and arrays
  | pointerAdd
  | deleteRef
  | verify
  -- jumps
  | goto
  | gotoFalse
  -- built-ins
  | print
  | input
  -- calls
  | are
  | param
  | goSub
  | returnValue
  | endFunc
  | callAssign
deriving DecidableEq, Inhabited

/-- The families of instructions that a machine tells apart. -/
inductive Family where
  | arithmetic
  | pointerArithmetic
  | array
  | boolean
  | jump
  | builtIn
  | function
  | assignment
deriving DecidableEq, Inhabited

namespace Opcode

/-- Every opcode, in the order of their numbers. -/
def all : List Opcode :=
  [add, subtract, multiply, divide, addAssign, subtractAssign, multiplyAssign, divideAssign, equal,
    notEqual, lessThan, greaterThan, lessEqual, greaterEqual, and, or, assign, pointerAssign,
    pointerAdd, deleteRef, verify, goto, gotoFalse, print, input, are, param, goSub, returnValue,
    endFunc, callAssign]

/-- The number of an opcode in encoded programs. -/
def index (op : Opcode) : Nat := op.ctorIdx

/-- The opcode with a number. -/
def ofIndex? (i : Nat) : Option Opcode := all[i]?

/-- The name of an opcode in structured data. -/
def name : Opcode → String
  | add => "Add"
  | subtract => "Subtract"
  | multiply => "Multiply"
  | divide => "Divide"
  | addAssign => "AddAssign"
  | subtractAssign => "SubtractAssign"
  | multiplyAssign => "MultiplyAssign"
  | divideAssign => "DivideAssign"
  | equal => "Equal"
  | notEqual => "NotEqual"
  | lessThan => "LessThan"
  | greaterThan => "GreaterThan"
  | lessEqual => "LessEqual"
  | greaterEqual => "GreaterEqual"
  | and => "And"
  | or => "Or"
  | assign => "Assign"
  | pointerAssign => "PointerAssign"
  | pointerAdd => "PointerAdd"
  | deleteRef => "DeleteRef"
  | verify => "Verify"
  | goto => "Goto"
  | gotoFalse => "GotoF"
  | print => "Print"
  | input => "Input"
  | are => "Are"
  | param => "Param"
  | goSub => "GoSub"
  | returnValue => "Return"
  | endFunc => "EndFunc"
  | callAssign => "CallAssign"

/-- The opcode with a name. -/
def ofName? (word : String) : Option Opcode := all.find? (·.name == word)

/-- The symbol of an opcode in listings and messages. -/
def symbol : Opcode → String
  | add => "+"
  | subtract => "-"
  | multiply => "*"
  | divide => "/"
  | addAssign => "+="
  | subtractAssign => "-="
  | multiplyAssign => "*="
  | divideAssign => "/="
  | equal => "=="
  | notEqual => "!="
  | lessThan => "<"
  | greaterThan => ">"
  | lessEqual => "<="
  | greaterEqual => ">="
  | and => "&&"
  | or => "||"
  | assign => "="
  | pointerAssign => "POINTER_ASSIGN"
  | pointerAdd => "POINTER_ADD"
  | deleteRef => "DELETE_REF"
  | verify => "VERIFY"
  | goto => "GOTO"
  | gotoFalse => "GOTOF"
  | print => "PRINT"
  | input => "INPUT"
  | are => "ARE"
  | param => "PARAM"
  | goSub => "GOSUB"
  | returnValue => "RETURN"
  | endFunc => "ENDFUNC"
  | callAssign => "CALL_ASSIGN"

/-- How tightly an operator of expressions binds; other instructions have no priority. -/
def priority? : Opcode → Option Nat
  | assign | addAssign | subtractAssign | multiplyAssign | divideAssign => some 0
  | and | or => some 1
  | equal | notEqual | lessThan | greaterThan | lessEqual | greaterEqual => some 2
  | add | subtract => some 3
  | multiply | divide => some 4
  | _ => none

/-- The operator of expressions with a symbol; the instructions that have no priority have none. -/
def ofSymbol? (s : String) : Option Opcode :=
  all.find? fun op => op.priority?.isSome && op.symbol == s

/-- The family of an instruction; a compound assignment is none. -/
def family? : Opcode → Option Family
  | add | subtract | multiply | divide => some .arithmetic
  | pointerAdd | pointerAssign | deleteRef => some .pointerArithmetic
  | verify => some .array
  | equal | notEqual | lessThan | greaterThan | lessEqual | greaterEqual | and | or => some .boolean
  | goto | gotoFalse => some .jump
  | print | input => some .builtIn
  | are | param | goSub | returnValue | endFunc | callAssign => some .function
  | assign => some .assignment
  | addAssign | subtractAssign | multiplyAssign | divideAssign => none

/-- The plain operator of a compound assignment. -/
def compoundBase? : Opcode → Option Opcode
  | addAssign => some add
  | subtractAssign => some subtract
  | multiplyAssign => some multiply
  | divideAssign => some divide
  | _ => none

@[simp] theorem ofIndex?_index (op : Opcode) : ofIndex? op.index = some op := by cases op <;> rfl

@[simp] theorem ofName?_name (op : Opcode) : ofName? op.name = some op := by cases op <;> decide

end Opcode

/-- The name of a family in structured data. -/
def Family.name : Family → String
  | arithmetic => "Arithmetic"
  | pointerArithmetic => "PointerArithmetic"
  | array => "Array"
  | boolean => "Boolean"
  | jump => "Jump"
  | builtIn => "BuiltIn"
  | function => "Function"
  | assignment => "Assignment"

end Quadruple
