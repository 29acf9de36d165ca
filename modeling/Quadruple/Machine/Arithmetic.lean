/-
  What operators do to values.

  Integer arithmetic is exact: a result outside sixty-four bits is an overflow, and a quotient is
  rounded toward zero.  Floats follow their own arithmetic, except that division by either zero is
  refused.  Values of one type are compared in that type, strings by their characters; an integer
  and a float are compared as floats.  Nothing is equal to, below or above a NaN.
-/
import Quadruple.Value
import Quadruple.Machine.Fault

namespace Quadruple

/-- The exact result of an operator on integers, before it is known to fit. -/
def exactOperation (op : Opcode) (a b : Int) : Except Fault Int :=
  match op with
  | .add => .ok (a + b)
  | .subtract => .ok (a - b)
  | .multiply => .ok (a * b)
  | .divide => if b = 0 then .error .divisionByZero else .ok (a.tdiv b)
  | op => .error (.unknownOpcode op)

/-- An operator on integers. -/
def integerOperation (op : Opcode) (a b : Int64) : Except Fault Int64 :=
  match exactOperation op a.toInt b.toInt with
  | .error f => .error f
  | .ok n =>
    if Decimal.fitsInt64 n then .ok (Int64.ofInt n)
    else .error (.typeError (.overflow a.toInt op b.toInt))

/-- An operator on floats. -/
def floatOperation (op : Opcode) (a b : Binary64) : Except Fault Binary64 :=
  match op with
  | .add => .ok (a.add b)
  | .subtract => .ok (a.sub b)
  | .multiply => .ok (a.mul b)
  | .divide => if b.isZero then .error .divisionByZero else .ok (a.div b)
  | op => .error (.unknownOpcode op)

/-- An arithmetic operator whose result goes to a slot of type `ty`. -/
def arithmetic (op : Opcode) (ty : Option Scalar) (left right : Value) : Except Fault Value :=
  match ty with
  | some .int =>
    match left, right with
    | .int a, .int b => Value.int <$> integerOperation op a b
    | _, _ => .error (.typeError (.integerOperation op left.scalar right.scalar))
  | some .float =>
    match left.number?, right.number? with
    | some a, some b => Value.float <$> floatOperation op a b
    | _, _ => .error (.typeError (.floatOperation op left.scalar right.scalar))
  | ty => .error (.typeError (.resultSlot ty))

/-- How two values compare; `none` when a NaN takes part. -/
def ordering (left right : Value) : Except Fault (Option Ordering) :=
  match left, right with
  | .int a, .int b => .ok (some (compare a.toInt b.toInt))
  | .bool a, .bool b => .ok (some (compare a b))
  | .string a, .string b => .ok (some (compare a b))
  | .pointer a, .pointer b => .ok (some (compare a b))
  | left, right =>
    match left.number?, right.number? with
    | some a, some b => .ok (a.compare? b)
    | _, _ => .error (.typeError (.incomparable left.scalar right.scalar))

/-- Whether a comparison holds for an ordering; only inequality holds where there is none. -/
def holds (op : Opcode) : Option Ordering → Except Fault Bool
  | none => .ok (op = .notEqual)
  | some o =>
    match op with
    | .equal => .ok (o == .eq)
    | .notEqual => .ok (o != .eq)
    | .lessThan => .ok (o == .lt)
    | .greaterThan => .ok (o == .gt)
    | .lessEqual => .ok (o != .gt)
    | .greaterEqual => .ok (o != .lt)
    | op => .error (.unknownOpcode op)

/-- A comparison or a logical operator. -/
def boolean (op : Opcode) (left right : Value) : Except Fault Bool :=
  match op with
  | .and | .or =>
    match left, right with
    | .bool a, .bool b => .ok (if op = .and then a && b else a || b)
    | _, _ => .error (.typeError (.logicOperation op left.scalar right.scalar))
  | op =>
    match ordering left right with
    | .error f => .error f
    | .ok o => holds op o

end Quadruple
