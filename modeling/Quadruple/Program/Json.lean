/-
  Programs as structured data.

  `toJson` writes the parts of a program in a fixed order; the tables become objects whose keys
  ascend, those of the constants being the decimal text of their addresses.  `ofRaw` reads the same
  shape back, and `parse` does so from a text.  A float constant that is infinite or a NaN is lost
  on the way, since structured data has no such numbers.
-/
import Quadruple.Program
import Quadruple.Json.Typed

namespace Quadruple

open Json (orNull Raw)
open Json.Raw (getWord getInt64 getFloat getBool getString getOption getList getRow getEntries
    getRecord getChoice
  noContent)

/-! ## Values and operands -/

/-- A value: its type and content. -/
def Value.toJson : Value → Json
  | int n => .obj [("Int", .int n.toInt)]
  | float x => .obj [("Float", .float x)]
  | bool b => .obj [("Bool", .bool b)]
  | string s => .obj [("String", .str s)]
  | pointer a => .obj [("Pointer", .nat a)]

def Value.ofRaw : Raw → Except JsonError Value := getChoice fun name content =>
  match name, content with
  | "Int", some r => .int <$> getInt64 r
  | "Float", some r => .float <$> getFloat r
  | "Bool", some r => .bool <$> getBool r
  | "String", some r => .string <$> getString r
  | "Pointer", some r => .pointer <$> getWord r
  | _, _ => .error .misfit

def Scalar.ofRaw : Raw → Except JsonError Scalar := getChoice fun name content =>
  match Scalar.ofName? name with
  | some ty => do
    noContent content
    return ty
  | none => .error .misfit

def Opcode.ofRaw : Raw → Except JsonError Opcode := getChoice fun name content =>
  match Opcode.ofName? name with
  | some op => do
    noContent content
    return op
  | none => .error .misfit

def TypeName.ofRaw (r : Raw) : Except JsonError TypeName := TypeName.ofWord <$> getString r

def Operand.toJson : Operand → Json
  | addr a => .obj [("Addr", .nat a)]
  | ref a => .obj [("Ref", .nat a)]
  | deref a => .obj [("Deref", .nat a)]
  | jump i => .obj [("Jump", .nat i)]
  | immediate n => .obj [("Immediate", .nat n)]
  | function id => .obj [("Function", .str id)]
  | allocHeap => .str "AllocHeap"

def Operand.ofRaw : Raw → Except JsonError Operand := getChoice fun name content =>
  match name, content with
  | "Addr", some r => .addr <$> getWord r
  | "Ref", some r => .ref <$> getWord r
  | "Deref", some r => .deref <$> getWord r
  | "Jump", some r => .jump <$> getWord r
  | "Immediate", some r => .immediate <$> getWord r
  | "Function", some r => .function <$> getString r
  | "AllocHeap", content => do
    noContent content
    return .allocHeap
  | _, _ => .error .misfit

namespace Quad

def toJson (q : Quad) : Json :=
  .obj [("op", .str q.op.name), ("left", orNull Operand.toJson q.left),
    ("right", orNull Operand.toJson q.right), ("result", orNull Operand.toJson q.result)]

/-- The members of a quad. -/
def keys : Raw.Keys := [("op", false), ("left", true), ("right", true), ("result", true)]

/-- Set the member with a key. -/
def put (q : Quad) (key : String) (r : Raw) : Except JsonError Quad := do
  match key with
  | "op" => return { q with op := ← Opcode.ofRaw r }
  | "left" => return { q with left := ← getOption Operand.ofRaw r }
  | "right" => return { q with right := ← getOption Operand.ofRaw r }
  | "result" => return { q with result := ← getOption Operand.ofRaw r }
  | _ => return q

def ofRaw : Raw → Except JsonError Quad := getRecord keys put ⟨default, none, none, none⟩

end Quad

/-! ## Counts -/

def PerScalar.toJson (r : PerScalar Nat) : Json := .arr (r.toList.map .nat)

def PerScalar.ofRaw (r : Raw) : Except JsonError (PerScalar Nat) := do
  match PerScalar.ofList? (← getRow 5 getWord r) with
  | some counts => return counts
  | none => throw .misfit

/-- The rows of sizes, one for each segment. -/
def PerSegment.ofRaw (r : Raw) : Except JsonError Sizes := do
  match PerSegment.ofList? (← getRow 4 PerScalar.ofRaw r) with
  | some sizes => return sizes
  | none => throw .misfit

def Sizes.toJson (sizes : Sizes) : Json :=
  .obj [("sizes", .arr (sizes.toList.map PerScalar.toJson))]

def Sizes.ofRaw : Raw → Except JsonError Sizes :=
  getRecord [("sizes", false)] (fun _ _ r => PerSegment.ofRaw r) default

namespace SlotCounts

def toJson (c : SlotCounts) : Json :=
  .obj [("local", c.locals.toJson), ("temporary", c.temporaries.toJson)]

/-- The members of slot counts. -/
def keys : Raw.Keys := [("local", false), ("temporary", false)]

/-- Set the member with a key. -/
def put (c : SlotCounts) (key : String) (r : Raw) : Except JsonError SlotCounts := do
  match key with
  | "local" => return { c with locals := ← PerScalar.ofRaw r }
  | "temporary" => return { c with temporaries := ← PerScalar.ofRaw r }
  | _ => return c

def ofRaw : Raw → Except JsonError SlotCounts := getRecord keys put zero

end SlotCounts

/-! ## Constants and functions -/

namespace Constant

def toJson (c : Constant) : Json := .obj [("value", c.value.toJson), ("ty", .str c.ty.name)]

/-- The members of a constant. -/
def keys : Raw.Keys := [("value", false), ("ty", false)]

/-- Set the member with a key. -/
def put (c : Constant) (key : String) (r : Raw) : Except JsonError Constant := do
  match key with
  | "value" => return { c with value := ← Value.ofRaw r }
  | "ty" => return { c with ty := ← Scalar.ofRaw r }
  | _ => return c

def ofRaw : Raw → Except JsonError Constant := getRecord keys put default

end Constant

namespace Routine

def toJson (f : Routine) : Json :=
  .obj [("start_quad", .nat f.startQuad),
    ("return_type", orNull (fun t => .str t.word) f.returnType),
    ("param_types", .arr (f.paramTypes.map fun t => .str t.word)),
    ("param_addresses", .arr (f.paramAddresses.map .nat)), ("slot_counts", f.slots.toJson)]

/-- The members of a function. -/
def keys : Raw.Keys :=
  [("start_quad", false), ("return_type", true), ("param_types", false), ("param_addresses", false),
    ("slot_counts", false)]

/-- Set the member with a key. -/
def put (f : Routine) (key : String) (r : Raw) : Except JsonError Routine := do
  match key with
  | "start_quad" => return { f with startQuad := ← getWord r }
  | "return_type" => return { f with returnType := ← getOption TypeName.ofRaw r }
  | "param_types" => return { f with paramTypes := ← getList TypeName.ofRaw r }
  | "param_addresses" => return { f with paramAddresses := ← getList getWord r }
  | "slot_counts" => return { f with slots := ← SlotCounts.ofRaw r }
  | _ => return f

def ofRaw : Raw → Except JsonError Routine := getRecord keys put (startingAt 0)

end Routine

/-! ## Programs -/

/-- An address as the key of a member: a number and nothing else. -/
def addressOfKey (key : List Char) : Except JsonError Nat := do
  let (j, rest) ← Json.readNumber key
  let address ← Json.getWord j
  if rest.isEmpty then return address else throw .malformed

namespace Program

def toJson (p : Program) : Json :=
  .obj [("layout", p.sizes.toJson),
    ("constant_table", .obj (p.constants.entries.map fun (a, c) => (a.repr, c.toJson))),
    ("function_data", .obj (p.functions.entries.map fun (id, f) => (id, f.toJson))),
    ("globals", p.globals.toJson), ("quad_list", .arr (p.quads.toList.map Quad.toJson)),
    ("heap_start", .nat p.heapStart)]

/-- The members of a program. -/
def keys : Raw.Keys :=
  [("layout", false), ("constant_table", false), ("function_data", false), ("globals", false),
    ("quad_list", false), ("heap_start", false)]

/-- Set the member with a key. -/
def put (p : Program) (key : String) (r : Raw) : Except JsonError Program := do
  match key with
  | "layout" => return { p with sizes := ← Sizes.ofRaw r }
  | "constant_table" =>
    return { p with constants := Table.ofList (← getEntries addressOfKey Constant.ofRaw r) }
  | "function_data" =>
    return { p with functions := Table.ofList (← getEntries Json.stringOf Routine.ofRaw r) }
  | "globals" => return { p with globals := ← SlotCounts.ofRaw r }
  | "quad_list" => return { p with quads := (← getList Quad.ofRaw r).toArray }
  | "heap_start" => return { p with heapStart := ← getWord r }
  | _ => return p

def ofRaw : Raw → Except JsonError Program := getRecord keys put default

/-- The text of a program as structured data. -/
def jsonText (p : Program) : String := p.toJson.pretty

/-- Read a program from its text. -/
def parse (text : String) : Except JsonError Program :=
  match Raw.parse text with
  | .ok r => ofRaw r
  | .error _ => .error .malformed

end Program

end Quadruple
