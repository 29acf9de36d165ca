/-
  Structured programs: the source that a front end walks when it reports events, and what it means.

  A script is one function with scalar variables and a body of assignments, prints, conditionals and
  loops.  `Script.events` is what the front end reports for it, in order.  `Script.run` says what it
  does without any of the compiler's notions: variables are names, expressions have values, and a
  loop is run turn by turn.

  Operators are strict.  An operand that is a variable stands for the variable until its operator is
  applied; so of two failures in one expression the one met is the one that a left-to-right
  computation with variables read by their operator meets first.

  A loop need not end, so the interpreter takes fuel, one unit for each statement that it enters,
  and has no answer when that is used up:

      exec 0 s  =  none          exec (n + 1) (loop e s)  =  if e then (exec n s; exec n (loop e s))
-/
import Mathlib.Algebra.Group.Int.Defs
import Quadruple.Event
import Quadruple.Opcode
import Quadruple.Machine.Console

namespace Quadruple.Source

/-! ## Syntax -/

/-- The types of variables. -/
inductive Kind where
  | int
  | float
  | bool
  | string
deriving DecidableEq

def Kind.scalar : Kind → Scalar
  | int => .int
  | float => .float
  | bool => .bool
  | string => .string

/-- A literal; the only floats that can be written down are finite. -/
inductive Literal where
  | int (n : Int64)
  | float (x : Binary64) (finite : x.isFinite = true)
  | bool (b : Bool)
  | string (s : String)
deriving DecidableEq

def Literal.value : Literal → Value
  | int n => .int n
  | float x _ => .float x
  | bool b => .bool b
  | string s => .string s

inductive Arithmetic where
  | add
  | subtract
  | multiply
  | divide
deriving DecidableEq

inductive Comparison where
  | equal
  | notEqual
  | lessThan
  | greaterThan
  | lessEqual
  | greaterEqual
deriving DecidableEq

inductive Logic where
  | and
  | or
deriving DecidableEq

/-- An operator between two expressions. -/
inductive Operator where
  | arithmetic (op : Arithmetic)
  | comparison (op : Comparison)
  | logic (op : Logic)
deriving DecidableEq

inductive Expr where
  | literal (l : Literal)
  | var (x : String)
  | binary (left : Expr) (op : Operator) (right : Expr)
deriving DecidableEq

inductive Stmt where
  | skip
  | assign (x : String) (e : Expr)
  /-- `x op= e` -/
  | compound (x : String) (op : Arithmetic) (e : Expr)
  | print (e : Expr)
  | ifThen (e : Expr) (body : Stmt)
  | ifElse (e : Expr) (body other : Stmt)
  | loop (e : Expr) (body : Stmt)
  | seq (first second : Stmt)
deriving DecidableEq

/-- A whole program: the variables of its only function, and its body. -/
structure Script where
  declarations : List (String × Kind)
  body : Stmt
deriving DecidableEq

/-! ## What a front end reports -/

def Arithmetic.opcode : Arithmetic → Opcode
  | add => .add
  | subtract => .subtract
  | multiply => .multiply
  | divide => .divide

/-- The operator of the compound assignment. -/
def Arithmetic.compound : Arithmetic → Opcode
  | add => .addAssign
  | subtract => .subtractAssign
  | multiply => .multiplyAssign
  | divide => .divideAssign

def Comparison.opcode : Comparison → Opcode
  | equal => .equal
  | notEqual => .notEqual
  | lessThan => .lessThan
  | greaterThan => .greaterThan
  | lessEqual => .lessEqual
  | greaterEqual => .greaterEqual

def Logic.opcode : Logic → Opcode
  | and => .and
  | or => .or

def Operator.opcode : Operator → Opcode
  | arithmetic op => op.opcode
  | comparison op => op.opcode
  | logic op => op.opcode

/-- Every operator is reported in parentheses. -/
def Expr.events : Expr → List Event
  | literal l => [.pushConstant l.value]
  | var x => [.pushVariable x]
  | binary left op right =>
    [.openParenthesis] ++ left.events ++ [.pushOperator op.opcode.symbol] ++ right.events ++
      [.closeParenthesis]

def Stmt.events : Stmt → List Event
  | skip => []
  | assign x e => [.pushVariable x, .pushOperator "="] ++ e.events ++ [.executeRemaining]
  | compound x op e =>
    [.pushVariable x, .pushOperator op.compound.symbol] ++ e.events ++ [.executeRemaining]
  | print e => e.events ++ [.print]
  | ifThen e body => e.events ++ [.openConditional] ++ body.events ++ [.closeConditional]
  | ifElse e body other =>
    e.events ++ [.openConditional] ++ body.events ++ [.elseBranch] ++ other.events ++
      [.closeConditional]
  | loop e body =>
    [.saveLoopStart] ++ e.events ++ [.setLoopCondition] ++ body.events ++ [.closeLoop]
  | seq first second => first.events ++ second.events

def Script.events (s : Script) : List Event :=
  [.declareFunction "main"] ++ s.declarations.map (fun d =>
    .declareVariable d.1 (.scalar d.2.scalar)) ++
    s.body.events ++ [.endFunction]

/-! ## Operators -/

/-- Why a script fails. -/
inductive Failure where
  | unassigned (x : String)
  | zeroDivisor
  | overflow (left : Int) (op : Arithmetic) (right : Int)
  | output (e : ConsoleError)
  /-- A value of a type that the operator, the variable or the condition does not take. -/
  | illTyped
deriving DecidableEq

/-- The exact result on integers, rounded toward zero; none for a zero divisor. -/
def Arithmetic.exact (a b : Int) : Arithmetic → Option Int
  | add => some (a + b)
  | subtract => some (a - b)
  | multiply => some (a * b)
  | divide => if b = 0 then none else some (a.tdiv b)

/-- Integers: the exact result, which must fit sixty-four bits. -/
def Arithmetic.onInts (op : Arithmetic) (a b : Int64) : Except Failure Value :=
  match op.exact a.toInt b.toInt with
  | none => .error .zeroDivisor
  | some n =>
    if -(2 ^ 63 : Int) ≤ n ∧ n < (2 ^ 63 : Int) then .ok (.int (Int64.ofInt n))
    else .error (.overflow a.toInt op b.toInt)

def Arithmetic.onFloats (x y : Binary64) : Arithmetic → Except Failure Value
  | add => .ok (.float (x.add y))
  | subtract => .ok (.float (x.sub y))
  | multiply => .ok (.float (x.mul y))
  | divide => if y.isZero then .error .zeroDivisor else .ok (.float (x.div y))

/-- Two integers give an integer; otherwise both sides are widened to floats. -/
def Arithmetic.apply (op : Arithmetic) : Value → Value → Except Failure Value
  | .int a, .int b => op.onInts a b
  | v, w =>
    match v.number?, w.number? with
    | some x, some y => op.onFloats x y
    | _, _ => .error .illTyped

/-- How two numbers or truth values compare; no order when a NaN takes part. -/
def compared : Value → Value → Except Failure (Option Ordering)
  | .int a, .int b => .ok (some (compare a.toInt b.toInt))
  | .bool a, .bool b => .ok (some (compare a b))
  | v, w =>
    match v.number?, w.number? with
    | some x, some y => .ok (x.compare? y)
    | _, _ => .error .illTyped

def Comparison.holds (o : Option Ordering) : Comparison → Bool
  | equal => o == some .eq
  | notEqual => o != some .eq
  | lessThan => o == some .lt
  | greaterThan => o == some .gt
  | lessEqual => o == some .lt || o == some .eq
  | greaterEqual => o == some .gt || o == some .eq

def Logic.apply : Logic → Value → Value → Except Failure Value
  | and, .bool a, .bool b => .ok (.bool (a && b))
  | or, .bool a, .bool b => .ok (.bool (a || b))
  | _, _, _ => .error .illTyped

def Operator.apply : Operator → Value → Value → Except Failure Value
  | arithmetic op, v, w => op.apply v w
  | comparison op, v, w => (fun o => .bool (op.holds o)) <$> compared v w
  | logic op, v, w => op.apply v w

/-- What a variable of a kind holds when a value is stored in it: an integer is widened to a float.
-/
def Kind.stored : Kind → Value → Except Failure Value
  | .float, .int n => .ok (.float (Binary64.ofInt n.toInt))
  | k, v => if v.scalar = k.scalar then .ok v else .error .illTyped

/-! ## Expressions and statements -/

/-- What each variable holds, if it was assigned. -/
abbrev Store := String → Option Value

def Store.assign (σ : Store) (x : String) (v : Value) : Store :=
  fun y => if y = x then some v else σ y

/-- What an expression is once it is computed: a value, or a variable to be read. -/
inductive Atom where
  | value (v : Value)
  | var (x : String)
deriving DecidableEq

def Atom.read (σ : Store) : Atom → Except Failure Value
  | value v => .ok v
  | var x =>
    match σ x with
    | some v => .ok v
    | none => .error (.unassigned x)

/-- Compute an expression: both sides first, the left one before the right one, then read both. -/
def Expr.atom (σ : Store) : Expr → Except Failure Atom
  | literal l => .ok (.value l.value)
  | var x => .ok (.var x)
  | binary left op right => do
    let a ← left.atom σ
    let b ← right.atom σ
    let v ← a.read σ
    let w ← b.read σ
    return .value (← op.apply v w)

def Expr.eval (σ : Store) (e : Expr) : Except Failure Value := do (← e.atom σ).read σ

/-- The value of a condition. -/
def Expr.test (σ : Store) (e : Expr) : Except Failure Bool := do
  match ← e.eval σ with
  | .bool b => return b
  | _ => throw .illTyped

/-- Store a value in a declared variable. -/
def Store.put (kinds : String → Option Kind) (σ : Store) (x : String) (v : Value) :
    Except Failure Store :=
  match kinds x with
  | none => .error .illTyped
  | some k => (σ.assign x ·) <$> k.stored v

/-- Print a value on a line of its own. -/
def printed (c : Console) (v : Value) : Except Failure Unit × Console :=
  match c.write (Bytes.utf8 v.text ++ [10]) with
  | (.ok (), c') => (.ok (), c')
  | (.error e, c') => (.error (.output e), c')

/-- Run a statement: the store it leaves or the failure it meets, and the console in either case. -/
def Stmt.exec (kinds : String → Option Kind) : Nat → Stmt → Store → Console →
    Option (Except Failure Store × Console)
  | 0, _, _, _ => none
  | fuel + 1, s, σ, c =>
    match s with
    | skip => some (.ok σ, c)
    | assign x e => some (e.eval σ >>= σ.put kinds x, c)
    | compound x op e =>
      some ((Expr.binary (.var x) (.arithmetic op) e).eval σ >>= σ.put kinds x, c)
    | print e =>
      match e.eval σ with
      | .error f => some (.error f, c)
      | .ok v => some ((fun _ => σ) <$> (printed c v).1, (printed c v).2)
    | ifThen e body =>
      match e.test σ with
      | .error f => some (.error f, c)
      | .ok true => body.exec kinds fuel σ c
      | .ok false => some (.ok σ, c)
    | ifElse e body other =>
      match e.test σ with
      | .error f => some (.error f, c)
      | .ok true => body.exec kinds fuel σ c
      | .ok false => other.exec kinds fuel σ c
    | loop e body =>
      match e.test σ with
      | .error f => some (.error f, c)
      | .ok false => some (.ok σ, c)
      | .ok true =>
        match body.exec kinds fuel σ c with
        | some (.ok σ', c') => (loop e body).exec kinds fuel σ' c'
        | ended => ended
    | seq first second =>
      match first.exec kinds fuel σ c with
      | some (.ok σ', c') => second.exec kinds fuel σ' c'
      | ended => ended

/-- How a script ends. -/
inductive Outcome where
  | done
  | failed (f : Failure)
deriving DecidableEq

def Script.kinds (s : Script) (x : String) : Option Kind := s.declarations.lookup x

/-- Run a script on a console; at first no variable is assigned. -/
def Script.run (s : Script) (fuel : Nat) (c : Console) : Option (Outcome × Console) :=
  match s.body.exec s.kinds fuel (fun _ => none) c with
  | none => none
  | some (.ok _, c') => some (.done, c')
  | some (.error f, c') => some (.failed f, c')

end Quadruple.Source
