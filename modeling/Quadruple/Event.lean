/-
  Events: what a front end reports while it walks a source text, one semantic action at a time.
-/
import Quadruple.Value

namespace Quadruple

/-- A semantic action. -/
inductive Event where
  -- declarations
  | declareClass (id : String)
  | declareField (id : String) (ty : TypeName)
  | endClass
  | declareFunction (id : String)
  | setFunctionType (ty : TypeName)
  | declareParam (id : String) (ty : TypeName)
  | declareVariable (id : String) (ty : TypeName)
  | declareArrayDimension (size : Nat)
  | allocateArray
  | endFunction
  -- expressions
  | pushVariable (id : String)
  | pushOperand (address : Nat) (ty : Scalar) (className : Option String)
  | pushConstant (value : Value)
  | pushOperator (op : String)
  | openParenthesis
  | closeParenthesis
  | reduce (priority : Nat)
  | executeRemaining
  -- control flow
  | openConditional
  | elseBranch
  | closeConditional
  | saveLoopStart
  | setLoopCondition
  | closeLoop
  -- calls
  | callFunction (id : String)
  | pushCallArgument (index : Nat)
  | endCall
  | pushCallResult
  | returnValue
  | returnVoid
  -- arrays and objects
  | pushArray (id : String)
  | pushArrayIndex
  | closeArrayAccess
  | pushObject (id : String)
  | pushProperty (name : String)
  | newObject (className : String)
  | deleteObject
  -- built-ins
  | print
  | input (prompt : Option String)
deriving DecidableEq, Inhabited

end Quadruple
