/-
  The types of single slots, the segments of the address space, and the types written in
  declarations.

  The order `int, float, bool, string, pointer` is more than a listing: it is the order of the
  ranges inside a segment and of the counts in an encoded program.  The same holds for the four
  segments.  Tables indexed by a scalar or by a segment are therefore records with one field per
  index (`PerScalar`, `PerSegment`): a look-up in them cannot fail, and an update of one entry
  leaves the others alone by a case split.
-/

namespace Quadruple

/-! ## Scalars -/

/-- The storage type of a single slot. -/
inductive Scalar where
  | int
  | float
  | bool
  | string
  | pointer
deriving DecidableEq, Inhabited

namespace Scalar

/-- Every scalar, in range order. -/
def all : List Scalar := [int, float, bool, string, pointer]

/-- The position of a scalar inside a segment. -/
def index : Scalar → Nat
  | int => 0
  | float => 1
  | bool => 2
  | string => 3
  | pointer => 4

/-- The keyword of a scalar. -/
def name : Scalar → String
  | int => "Int"
  | float => "Float"
  | bool => "Bool"
  | string => "String"
  | pointer => "Pointer"

/-- Read a type keyword. -/
def ofName? (word : String) : Option Scalar := all.find? (·.name == word)

@[simp] theorem ofName?_name (t : Scalar) : ofName? t.name = some t := by
  cases t <;> decide

end Scalar

/-! ## Segments -/

/-- A named partition of the address space. -/
inductive Segment where
  | globals
  | locals
  | temporaries
  | constants
deriving DecidableEq, Inhabited

namespace Segment

/-- Every segment, in address order. -/
def all : List Segment := [globals, locals, temporaries, constants]

/-- The position of a segment in the address space. -/
def index : Segment → Nat
  | globals => 0
  | locals => 1
  | temporaries => 2
  | constants => 3

/-- The name of a segment in messages. -/
def name : Segment → String
  | globals => "global"
  | locals => "local"
  | temporaries => "temporary"
  | constants => "constant"

end Segment

/-! ## Records indexed by a scalar or a segment -/

/-- One `α` for each scalar. -/
structure PerScalar (α : Type) where
  int : α
  float : α
  bool : α
  string : α
  pointer : α
deriving DecidableEq, Inhabited

namespace PerScalar

variable {α β : Type}

/-- The record built from a function. -/
def ofFn (f : Scalar → α) : PerScalar α := ⟨f .int, f .float, f .bool, f .string, f .pointer⟩

/-- The same `α` everywhere. -/
def const (a : α) : PerScalar α := ⟨a, a, a, a, a⟩

/-- The entry of a scalar. -/
def get (r : PerScalar α) : Scalar → α
  | .int => r.int
  | .float => r.float
  | .bool => r.bool
  | .string => r.string
  | .pointer => r.pointer

/-- Replace the entry of one scalar. -/
def set (r : PerScalar α) (t : Scalar) (a : α) : PerScalar α :=
  match t with
  | .int => { r with int := a }
  | .float => { r with float := a }
  | .bool => { r with bool := a }
  | .string => { r with string := a }
  | .pointer => { r with pointer := a }

/-- Change every entry. -/
def map (f : α → β) (r : PerScalar α) : PerScalar β :=
  ⟨f r.int, f r.float, f r.bool, f r.string, f r.pointer⟩

/-- The entries in scalar order. -/
def toList (r : PerScalar α) : List α := [r.int, r.float, r.bool, r.string, r.pointer]

/-- Read exactly one entry per scalar. -/
def ofList? : List α → Option (PerScalar α)
  | [a, b, c, d, e] => some ⟨a, b, c, d, e⟩
  | _ => none

@[simp] theorem get_ofFn (f : Scalar → α) (t : Scalar) : (ofFn f).get t = f t := by cases t <;> rfl

@[simp] theorem get_map (f : α → β) (r : PerScalar α) (t : Scalar) :
    (r.map f).get t = f (r.get t) := by
  cases t <;> rfl

@[simp] theorem get_set_self (r : PerScalar α) (t : Scalar) (a : α) : (r.set t a).get t = a := by
  cases t <;> rfl

theorem get_set_of_ne (r : PerScalar α) {t u : Scalar} (a : α) (h : u ≠ t) :
    (r.set t a).get u = r.get u := by
  cases t <;> cases u <;> first | rfl | exact absurd rfl h

@[simp] theorem ofList?_toList (r : PerScalar α) : ofList? r.toList = some r := rfl

end PerScalar

/-- One `α` for each segment. -/
structure PerSegment (α : Type) where
  globals : α
  locals : α
  temporaries : α
  constants : α
deriving DecidableEq, Inhabited

namespace PerSegment

variable {α β : Type}

/-- The record built from a function. -/
def ofFn (f : Segment → α) : PerSegment α := ⟨f .globals, f .locals, f .temporaries, f .constants⟩

/-- The same `α` everywhere. -/
def const (a : α) : PerSegment α := ⟨a, a, a, a⟩

/-- The entry of a segment. -/
def get (r : PerSegment α) : Segment → α
  | .globals => r.globals
  | .locals => r.locals
  | .temporaries => r.temporaries
  | .constants => r.constants

/-- Replace the entry of one segment. -/
def set (r : PerSegment α) (s : Segment) (a : α) : PerSegment α :=
  match s with
  | .globals => { r with globals := a }
  | .locals => { r with locals := a }
  | .temporaries => { r with temporaries := a }
  | .constants => { r with constants := a }

/-- The entries in segment order. -/
def toList (r : PerSegment α) : List α := [r.globals, r.locals, r.temporaries, r.constants]

/-- Read exactly one entry per segment. -/
def ofList? : List α → Option (PerSegment α)
  | [a, b, c, d] => some ⟨a, b, c, d⟩
  | _ => none

@[simp] theorem get_ofFn (f : Segment → α) (s : Segment) : (ofFn f).get s = f s := by
  cases s <;> rfl

@[simp] theorem get_set_self (r : PerSegment α) (s : Segment) (a : α) : (r.set s a).get s = a := by
  cases s <;> rfl

theorem get_set_of_ne (r : PerSegment α) {s u : Segment} (a : α) (h : u ≠ s) :
    (r.set s a).get u = r.get u := by
  cases s <;> cases u <;> first | rfl | exact absurd rfl h

@[simp] theorem ofList?_toList (r : PerSegment α) : ofList? r.toList = some r := rfl

end PerSegment

/-! ## Declared types -/

/-- A type as written in a declaration: a scalar keyword or the name of a class. -/
inductive TypeName where
  | scalar (ty : Scalar)
  | object (className : String)
deriving DecidableEq, Inhabited

namespace TypeName

/-- The slot type of a declared type: an object is held by a pointer. -/
def storage : TypeName → Scalar
  | .scalar ty => ty
  | .object _ => .pointer

/-- The class of an object type. -/
def class? : TypeName → Option String
  | .scalar _ => none
  | .object name => some name

/-- Read a type: any word that is no scalar keyword names a class. -/
def ofWord (word : String) : TypeName :=
  match Scalar.ofName? word with
  | some ty => .scalar ty
  | none => .object word

/-- The word of a type. -/
def word : TypeName → String
  | .scalar ty => ty.name
  | .object name => name

@[simp] theorem word_ofWord (w : String) : (ofWord w).word = w := by
  unfold ofWord
  cases h : Scalar.ofName? w with
  | none => rfl
  | some ty =>
    have h := List.find?_some h
    simpa [word] using h

end TypeName

end Quadruple
