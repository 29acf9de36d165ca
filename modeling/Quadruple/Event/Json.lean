/-
  Events as structured data, and scripts of events.

  An event is an object whose member `event` names its kind, with one member for each field; other
  members are ignored.  It may also be an array that starts with the kind and goes on with the
  fields in order.  A script is an array of events.

  A script is read in order, so the first fault met from left to right counts.  The kind of an event
  is checked when it is read, its fields when the event is complete.
-/
import Quadruple.Event
import Quadruple.Program.Json
import Quadruple.Json.Reader
import Quadruple.Json.Shape

namespace Quadruple

open Json

/-! ## Contents of fields -/

def Value.ofJson (j : Json) : Except JsonError Value := do
  match ← getChoice j with
  | ("Int", some j) => return .int (← getInt64 j)
  | ("Float", some j) => return .float (← getFloat j)
  | ("Bool", some j) => return .bool (← getBool j)
  | ("String", some j) => return .string (← getString j)
  | ("Pointer", some j) => return .pointer (← getWord j)
  | _ => throw .misfit

/-- A scalar type by its name; beside the name in an object, `null` or an empty object stands for
nothing. -/
def Scalar.ofJson (j : Json) : Except JsonError Scalar := do
  let (name, content) ← getChoice j
  match Scalar.ofName? name with
  | some ty =>
    noContent content
    return ty
  | none => throw .misfit

def TypeName.ofJson (j : Json) : Except JsonError TypeName := TypeName.ofWord <$> getString j

namespace Event

/-! ## Kinds and fields -/

/-- The kinds of events with their fields; a field with `true` may be left out. -/
def kinds : List (String × List (String × Bool)) := [
  ("declare_class", [("id", false)]),
  ("declare_field", [("id", false), ("type", false)]),
  ("end_class", []),
  ("declare_function", [("id", false)]),
  ("set_function_type", [("type", false)]),
  ("declare_param", [("id", false), ("type", false)]),
  ("declare_variable", [("id", false), ("type", false)]),
  ("declare_array_dimension", [("size", false)]),
  ("allocate_array", []),
  ("end_function", []),
  ("push_variable", [("id", false)]),
  ("push_operand", [("address", false), ("type", false), ("class", true)]),
  ("push_constant", [("value", false)]),
  ("push_operator", [("op", false)]),
  ("open_parenthesis", []),
  ("close_parenthesis", []),
  ("reduce", [("priority", false)]),
  ("execute_remaining", []),
  ("open_conditional", []),
  ("else_branch", []),
  ("close_conditional", []),
  ("save_loop_start", []),
  ("set_loop_condition", []),
  ("close_loop", []),
  ("call_function", [("id", false)]),
  ("push_call_argument", [("index", false)]),
  ("end_call", []),
  ("push_call_result", []),
  ("return_value", []),
  ("return_void", []),
  ("push_array", [("id", false)]),
  ("push_array_index", []),
  ("close_array_access", []),
  ("push_object", [("id", false)]),
  ("push_property", [("name", false)]),
  ("new_object", [("class", false)]),
  ("delete_object", []),
  ("print", []),
  ("input", [("prompt", true)])]

/-- The fields of a kind. -/
def fieldsOf? (kind : String) : Option (List (String × Bool)) :=
  (kinds.find? (·.1 == kind)).map (·.2)

/-- Fields in order from an array: only the last ones may be missing, and only if they may be left
out. -/
def fieldsOfItems : List (String × Bool) → List Json → Except JsonError (List (Option Json))
  | [], [] => .ok []
  | [], _ :: _ => .error .misfit
  | (_, mayMiss) :: fields, [] => do
    if mayMiss then return none :: (← fieldsOfItems fields []) else throw .misfit
  | _ :: fields, j :: items => return some j :: (← fieldsOfItems fields items)

/-- The fields of an event from what stands beside its kind. -/
def getEventFields (fields : List (String × Bool)) : Json → Except JsonError (List (Option Json))
  | obj members => fields.mapM fun f => member? f.1 members
  | arr items => fieldsOfItems fields items
  | _ => .error .misfit

/-- Build an event from its kind and fields. -/
def build (kind : String) (fields : List (Option Json)) : Except JsonError Event := do
  match kind, fields with
  | "declare_class", [id] => return .declareClass (← required getString id)
  | "declare_field", [id, ty] =>
    return .declareField (← required getString id) (← required TypeName.ofJson ty)
  | "end_class", [] => return .endClass
  | "declare_function", [id] => return .declareFunction (← required getString id)
  | "set_function_type", [ty] => return .setFunctionType (← required TypeName.ofJson ty)
  | "declare_param", [id, ty] =>
    return .declareParam (← required getString id) (← required TypeName.ofJson ty)
  | "declare_variable", [id, ty] =>
    return .declareVariable (← required getString id) (← required TypeName.ofJson ty)
  | "declare_array_dimension", [size] => return .declareArrayDimension (← required getWord size)
  | "allocate_array", [] => return .allocateArray
  | "end_function", [] => return .endFunction
  | "push_variable", [id] => return .pushVariable (← required getString id)
  | "push_operand", [address, ty, className] =>
    return .pushOperand (← required getWord address) (← required Scalar.ofJson ty)
      (← optional getString className)
  | "push_constant", [value] => return .pushConstant (← required Value.ofJson value)
  | "push_operator", [op] => return .pushOperator (← required getString op)
  | "open_parenthesis", [] => return .openParenthesis
  | "close_parenthesis", [] => return .closeParenthesis
  | "reduce", [priority] => return .reduce (← required (getNat 256) priority)
  | "execute_remaining", [] => return .executeRemaining
  | "open_conditional", [] => return .openConditional
  | "else_branch", [] => return .elseBranch
  | "close_conditional", [] => return .closeConditional
  | "save_loop_start", [] => return .saveLoopStart
  | "set_loop_condition", [] => return .setLoopCondition
  | "close_loop", [] => return .closeLoop
  | "call_function", [id] => return .callFunction (← required getString id)
  | "push_call_argument", [index] => return .pushCallArgument (← required getWord index)
  | "end_call", [] => return .endCall
  | "push_call_result", [] => return .pushCallResult
  | "return_value", [] => return .returnValue
  | "return_void", [] => return .returnVoid
  | "push_array", [id] => return .pushArray (← required getString id)
  | "push_array_index", [] => return .pushArrayIndex
  | "close_array_access", [] => return .closeArrayAccess
  | "push_object", [id] => return .pushObject (← required getString id)
  | "push_property", [name] => return .pushProperty (← required getString name)
  | "new_object", [className] => return .newObject (← required getString className)
  | "delete_object", [] => return .deleteObject
  | "print", [] => return .print
  | "input", [prompt] => return .input (← optional getString prompt)
  | _, _ => throw .misfit

/-- An event from its kind and what stands beside it. -/
def ofContent (kind : String) (content : Json) : Except JsonError Event :=
  match fieldsOf? kind with
  | some fields => do build kind (← getEventFields fields content)
  | none => .error .misfit

/-- The tree of an event; fields that may be left out are written as `null`. -/
def toJson : Event → Json
  | declareClass id => obj [("event", str "declare_class"), ("id", str id)]
  | declareField id ty =>
    obj [("event", str "declare_field"), ("id", str id), ("type", str ty.word)]
  | endClass => obj [("event", str "end_class")]
  | declareFunction id => obj [("event", str "declare_function"), ("id", str id)]
  | setFunctionType ty => obj [("event", str "set_function_type"), ("type", str ty.word)]
  | declareParam id ty =>
    obj [("event", str "declare_param"), ("id", str id), ("type", str ty.word)]
  | declareVariable id ty =>
    obj [("event", str "declare_variable"), ("id", str id), ("type", str ty.word)]
  | declareArrayDimension size => obj [("event", str "declare_array_dimension"), ("size", nat size)]
  | allocateArray => obj [("event", str "allocate_array")]
  | endFunction => obj [("event", str "end_function")]
  | pushVariable id => obj [("event", str "push_variable"), ("id", str id)]
  | pushOperand address ty className =>
    obj [("event", str "push_operand"), ("address", nat address), ("type", str ty.name),
      ("class", orNull str className)]
  | pushConstant value => obj [("event", str "push_constant"), ("value", value.toJson)]
  | pushOperator op => obj [("event", str "push_operator"), ("op", str op)]
  | openParenthesis => obj [("event", str "open_parenthesis")]
  | closeParenthesis => obj [("event", str "close_parenthesis")]
  | reduce priority => obj [("event", str "reduce"), ("priority", nat priority)]
  | executeRemaining => obj [("event", str "execute_remaining")]
  | openConditional => obj [("event", str "open_conditional")]
  | elseBranch => obj [("event", str "else_branch")]
  | closeConditional => obj [("event", str "close_conditional")]
  | saveLoopStart => obj [("event", str "save_loop_start")]
  | setLoopCondition => obj [("event", str "set_loop_condition")]
  | closeLoop => obj [("event", str "close_loop")]
  | callFunction id => obj [("event", str "call_function"), ("id", str id)]
  | pushCallArgument index => obj [("event", str "push_call_argument"), ("index", nat index)]
  | endCall => obj [("event", str "end_call")]
  | pushCallResult => obj [("event", str "push_call_result")]
  | returnValue => obj [("event", str "return_value")]
  | returnVoid => obj [("event", str "return_void")]
  | pushArray id => obj [("event", str "push_array"), ("id", str id)]
  | pushArrayIndex => obj [("event", str "push_array_index")]
  | closeArrayAccess => obj [("event", str "close_array_access")]
  | pushObject id => obj [("event", str "push_object"), ("id", str id)]
  | pushProperty name => obj [("event", str "push_property"), ("name", str name)]
  | newObject className => obj [("event", str "new_object"), ("class", str className)]
  | deleteObject => obj [("event", str "delete_object")]
  | print => obj [("event", str "print")]
  | input prompt => obj [("event", str "input"), ("prompt", orNull str prompt)]

/-! ## Scripts -/

/-- Read the kind of an event: a string that names one. -/
def readKind (cs : List Char) : Except JsonError (String × List Char) :=
  match skipSpace cs with
  | '"' :: rest => do
    let (kind, rest) ← readString rest
    if (fieldsOf? kind).isSome then return (kind, rest) else throw .misfit
  | rest => .error (refusalAt rest)

/-- Read one or more members of an event and the closing brace; the kind is kept apart, and met
once. -/
def readEventMembers : Nat → Nat → Option String → List Char →
    Except JsonError (Option String × List (String × Json) × List Char)
  | 0, _, _, _ => .error .malformed
  | budget + 1, depth, kind, cs =>
    match skipSpace cs with
    | '"' :: rest => do
      let (k, rest) ← readString rest
      let (kind, member, rest) ←
        if k == "event" then
          if kind.isSome then throw .misfit
          else do
            let (kind, rest) ← readKind (← readColon rest)
            pure (some kind, [], rest)
        else do
          let (j, rest) ← readTree budget depth (← readColon rest)
          pure (kind, [(k, j)], rest)
      match skipSpace rest with
      | ',' :: rest => do
        let (kind, members, rest) ← readEventMembers budget depth kind rest
        return (kind, member ++ members, rest)
      | '\x7d' :: rest => return (kind, member, rest)
      | _ => throw .malformed
    | _ => .error .malformed

/-- Read an event. -/
def readEvent (budget depth : Nat) (cs : List Char) : Except JsonError (Event × List Char) :=
  match skipSpace cs with
  | '\x7b' :: rest =>
    match skipSpace rest with
    -- an event without a kind
    | '\x7d' :: _ => .error .misfit
    | rest => do
      let (kind, members, rest) ← readEventMembers budget depth none rest
      match kind with
      | some kind => return (← ofContent kind (obj members), rest)
      | none => throw .misfit
  | '[' :: rest =>
    match skipSpace rest with
    | ']' :: _ => .error .misfit
    | rest => do
      let (kind, rest) ← readKind rest
      match skipSpace rest with
      | ']' :: rest => return (← ofContent kind (arr []), rest)
      | ',' :: rest => do
        let (items, rest) ← readItems budget depth rest
        return (← ofContent kind (arr items), rest)
      | _ => throw .malformed
  | rest => .error (refusalAt rest)

/-- Read one or more events and the closing bracket. -/
def readEvents : Nat → Nat → List Char → Except JsonError (List Event × List Char)
  | 0, _, _ => .error .malformed
  | budget + 1, depth, cs => do
    let (event, rest) ← readEvent budget depth cs
    match skipSpace rest with
    | ',' :: rest => do
      let (events, rest) ← readEvents budget depth rest
      return (event :: events, rest)
    | ']' :: rest => return ([event], rest)
    | _ => throw .malformed

/-- How deep brackets may nest in a field: an event in a script stands two levels deep. -/
def fieldDepth : Nat := maxDepth - 2

/-- Read a script. -/
def parseScript (text : String) : Except JsonError (List Event) := do
  match skipSpace text.toList with
  | '[' :: rest =>
    match skipSpace rest with
    | ']' :: rest => finish [] rest
    | cs => do
      let (events, rest) ← readEvents (budgetFor cs) fieldDepth cs
      finish events rest
  | rest => throw (refusalAt rest)

/-- Read an event that stands alone, as it would be read in a script. -/
def parse (text : String) : Except JsonError Event := do
  let cs := text.toList
  let (event, rest) ← readEvent (budgetFor cs) fieldDepth cs
  finish event rest

end Event

end Quadruple
