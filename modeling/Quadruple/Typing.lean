/-
  Which operands an operator takes, and the type of its result.

  The rule is a table over the operator and the types of its two sides.  Numbers mix freely in
  arithmetic and comparison; truth values can be compared for equality and combined; an assignment
  takes a value of its target's own type, and an integer where a float is wanted.  Strings and
  pointers are only ever assigned.
-/
import Quadruple.Opcode
import Quadruple.Scalar

namespace Quadruple

/-- Whether a scalar is a number. -/
def Scalar.isNumeric : Scalar → Bool
  | .int | .float => true
  | _ => false

/-- The type of `left op right`, if the combination is legal.  For an assignment the left side is
the target.  Arithmetic on two integers stays an integer and is a float as soon as one side is. -/
def Opcode.resultType? (op : Opcode) (left right : Scalar) : Option Scalar :=
  match op with
  | .add | .subtract | .multiply | .divide
  | .addAssign | .subtractAssign | .multiplyAssign | .divideAssign =>
    if left = .int ∧ right = .int then some .int
    else if left.isNumeric && right.isNumeric then some .float
    else none
  | .lessThan | .greaterThan | .lessEqual | .greaterEqual =>
    if left.isNumeric && right.isNumeric then some .bool else none
  | .equal | .notEqual =>
    if (left.isNumeric && right.isNumeric) || (left = .bool && right = .bool) then some .bool
    else none
  | .and | .or => if left = .bool ∧ right = .bool then some .bool else none
  | .assign =>
    if left = .float ∧ right = .int then some .float
    else if left = right then some left
    else none
  | _ => none

end Quadruple
