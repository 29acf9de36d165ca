/-
  Types of quads, and what the compiler knows of the types of its operands.

  A quad is well typed against a layout when the slots that it names have the types that its opcode
  asks for (`Quad.Typed`).  Of the slot behind a pointer the layout knows nothing.  So an operand
  stands for a value of a type when it names a slot of that type, or leads through a pointer slot:

      Denotes ty a   ↔  typeOf a = some ty
      Denotes ty *a  ↔  typeOf a = some pointer

  An entry of the operand stack records the type of the value that it stands for.  The operator
  table is asked with the recorded types, and the machine looks at the addresses; that the two agree
  is the invariant here (`Generator.Typed`).  It covers whatever an entry can be made from:
  variables with the constants of their dimensions, literals, the offsets of open array accesses,
  and the pool that fresh temporaries come from.  No part of it speaks of what is handed out to
  whom, so it survives operands pushed by number and events that are refused halfway.

  This module states typing and invariant and shows that the primitive steps uphold it.
-/
import Quadruple.Proofs.Addresses
import Quadruple.Proofs.Straight

namespace Quadruple

variable {l : Layout} {a : Nat} {v : Variable}

/-! ## The addresses of a quad -/

/-- The address that an operand names. -/
def Operand.addresses : Operand → List Nat
  | .addr a | .ref a | .deref a => [a]
  | _ => []

@[simp, grind =] theorem Operand.addresses_addr (a : Nat) : (Operand.addr a).addresses = [a] := rfl
@[simp, grind =] theorem Operand.addresses_ref (a : Nat) : (Operand.ref a).addresses = [a] := rfl
@[simp, grind =] theorem Operand.addresses_jump (n : Nat) : (Operand.jump n).addresses = [] := rfl
@[simp, grind =] theorem Operand.addresses_immediate (n : Nat) :
    (Operand.immediate n).addresses = [] := rfl
@[simp, grind =] theorem Operand.addresses_function (f : String) :
    (Operand.function f).addresses = [] := rfl
@[simp, grind =] theorem Operand.addresses_allocHeap : Operand.allocHeap.addresses = [] := rfl

@[simp, grind =] theorem Entry.addresses_value (e : Entry) : e.value.addresses = [e.address] := by
  unfold Entry.value
  split
  · rfl
  · rfl

@[simp, grind =] theorem Entry.addresses_pointer (e : Entry) :
    e.pointer.addresses = [e.address] := by
  unfold Entry.pointer
  split
  · rfl
  · rfl

/-- The addresses that the operands of a quad name. -/
@[grind =]
def Quad.addresses (q : Quad) : List Nat :=
  (q.left.toList ++ q.right.toList ++ q.result.toList).flatMap Operand.addresses

/-! ## Operands and quads -/

/-- The operand stands for a value of the type: it names a slot of that type, or one behind a
pointer. -/
def Operand.Denotes (l : Layout) (ty : Scalar) : Operand → Prop
  | .addr a => l.typeOf a = some ty
  | .deref a => l.typeOf a = some .pointer
  | _ => False

theorem Operand.denotes_addr {ty : Scalar} (h : l.typeOf a = some ty) :
    (Operand.addr a).Denotes l ty := h

/-- The operand names a pointer slot, or one behind a pointer, to act on as a pointer. -/
def Operand.ActsOnPointer (l : Layout) : Operand → Prop
  | .ref a | .deref a => l.typeOf a = some .pointer
  | _ => False

/-- The address is that of a temporary of the type. -/
def Layout.IsTemporary (l : Layout) (ty : Scalar) (a : Nat) : Prop :=
  l.segmentOf a = some .temporaries ∧ l.typeOf a = some ty

/-- Arithmetic, comparison and logic. -/
def Opcode.computes (op : Opcode) : Bool :=
  op.family? = some .arithmetic || op.family? = some .boolean

/-- The quad is well typed against the layout: it has one of the forms that code is made of, over
operands of the types that its opcode asks for. -/
inductive Quad.Typed (l : Layout) : Quad → Prop
  | compute {op : Opcode} {left right : Operand} {t : Nat} {ty₁ ty₂ ty : Scalar}
      (hop : op.computes = true)
      (hty : op.resultType? ty₁ ty₂ = some ty) (hleft : left.Denotes l ty₁)
      (hright : right.Denotes l ty₂)
      (ht : l.IsTemporary ty t) : Typed l ⟨op, some left, some right, some (.addr t)⟩
  | assign {source target : Operand} {ty₁ ty₂ : Scalar}
      (hty : (Opcode.assign.resultType? ty₂ ty₁).isSome = true)
      (hsource : source.Denotes l ty₁) (htarget : target.Denotes l ty₂) :
      Typed l ⟨.assign, some source, none, some target⟩
  | assignPointer {source target : Operand} (hsource : source.ActsOnPointer l)
      (htarget : target.ActsOnPointer l) :
      Typed l ⟨.pointerAssign, some source, none, some target⟩
  | newObject {target : Operand} (size : Nat) (htarget : target.ActsOnPointer l) :
      Typed l ⟨.pointerAssign, some .allocHeap, some (.immediate size), some target⟩
  | delete {target : Operand} (htarget : target.ActsOnPointer l) :
      Typed l ⟨.deleteRef, none, none, some target⟩
  | element {offset : Operand} {t : Nat} (base : Nat) (hoffset : offset.Denotes l .int)
      (ht : l.IsTemporary .pointer t) :
      Typed l ⟨.pointerAdd, some (.immediate base), some offset, some (.ref t)⟩
  | field {object : Operand} {t : Nat} (offset : Nat) (hobject : object.ActsOnPointer l)
      (ht : l.IsTemporary .pointer t) :
      Typed l ⟨.pointerAdd, some object, some (.immediate offset), some (.ref t)⟩
  | verify {index : Operand} {size : Nat} (hindex : index.Denotes l .int)
      (hsize : l.typeOf size = some .int) :
      Typed l ⟨.verify, some index, none, some (.addr size)⟩
  | goto {target : Option Operand} (htarget : ∀ o, target = some o → ∃ n, o = .jump n) :
      Typed l ⟨.goto, none, none, target⟩
  | gotoFalse {condition : Operand} {target : Option Operand}
      (hcondition : condition.Denotes l .bool) (htarget : ∀ o, target = some o → ∃ n, o = .jump n) :
        Typed l ⟨.gotoFalse, some condition, none, target⟩
  | print {value : Operand} {ty : Scalar} (hvalue : value.Denotes l ty) :
      Typed l ⟨.print, none, none, some value⟩
  | input {t : Nat} {ty : Scalar} (hty : ty ≠ .pointer) (ht : l.IsTemporary ty t) :
      Typed l ⟨.input, none, none, some (.addr t)⟩
  | are (f : String) : Typed l ⟨.are, some (.function f), none, none⟩
  | param {value : Operand} {ty : Scalar} (i : Nat) (hvalue : value.Denotes l ty) :
      Typed l ⟨.param, some value, none, some (.immediate i)⟩
  | goSub (f : String) : Typed l ⟨.goSub, some (.function f), none, none⟩
  | returnValue {value : Operand} {ty : Scalar} (hvalue : value.Denotes l ty) :
      Typed l ⟨.returnValue, none, none, some value⟩
  | endFunc : Typed l ⟨.endFunc, none, none, none⟩
  | callAssign {t : Nat} {ty : Scalar} (f : String) (ht : l.IsTemporary ty t) :
      Typed l ⟨.callAssign, some (.function f), none, some (.addr t)⟩

/-- A jump stays well typed when it is given a target. -/
theorem Quad.Typed.patched {q : Quad} (h : q.Typed l) (hjump : q.isJump = true) (target : Nat) :
    ({ q with result := some (.jump target) } : Quad).Typed l := by
  have htarget : ∀ o, some (Operand.jump target) = some o → ∃ n, o = .jump n := by
    rintro o ⟨⟩
    exact ⟨target, rfl⟩
  cases h with
  | goto => exact .goto htarget
  | gotoFalse hcondition => exact .gotoFalse hcondition htarget
  | @compute op _ _ _ _ _ _ hop =>
    cases op with
    | goto | gotoFalse => cases hop
    | _ => cases hjump
  | _ => cases hjump

/-! ## Entries and symbols -/

/-- The operand of the entry stands for a value of the type that the entry records. -/
def Entry.Typed (l : Layout) (e : Entry) : Prop := e.value.Denotes l e.ty

/-- The entry that names a slot directly. -/
theorem Entry.typed_direct {ty : Scalar} (h : l.typeOf a = some ty) (className : Option String)
    (name : String) : (⟨a, ty, className, false, name⟩ : Entry).Typed l := h

/-- The entry that leads through a pointer. -/
theorem Entry.typed_through (h : l.typeOf a = some .pointer) (ty : Scalar)
    (className : Option String) (name : String) :
    (⟨a, ty, className, true, name⟩ : Entry).Typed l := h

/-- An entry for a pointer can be acted on as one. -/
theorem Entry.Typed.actsOnPointer {e : Entry} (h : e.Typed l) (hty : e.ty = .pointer) :
    e.pointer.ActsOnPointer l := by
  unfold Entry.Typed Entry.value at h
  unfold Entry.pointer
  split
  · rename_i hthrough
    rwa [if_pos hthrough] at h
  · rename_i hthrough
    rwa [if_neg hthrough, hty] at h

/-- Size and stride of the dimension are integers. -/
structure Dimension.Typed (l : Layout) (d : Dimension) : Prop where
  size : l.typeOf d.sizeConstant = some .int
  stride : ∀ s, d.strideConstant = some s → l.typeOf s = some .int

/-- The slot of the variable has the type that it is declared with. -/
structure Variable.Typed (l : Layout) (v : Variable) : Prop where
  address : l.typeOf v.address = some v.ty.storage
  dimensions : ∀ d ∈ v.dimensions, d.Typed l

/-- The offset so far is an integer. -/
structure Access.Typed (l : Layout) (x : Access) : Prop where
  dimensions : ∀ d ∈ x.dimensions, d.Typed l
  offset : ∀ e, x.offset = some e → e.Typed l ∧ e.ty = .int

/-! ## The invariant -/

namespace Generator

/-- What the compiler records of types agrees with the layout, and so do the quads emitted so far.
-/
structure Typed (sizes : Sizes) (g : Generator) : Prop where
  pool : g.pool.Valid sizes
  operands : ∀ e ∈ g.operands, e.Typed (.ofSizes sizes)
  globals : ∀ id v, g.globals.find? id = some v → v.Typed (.ofSizes sizes)
  locals : ∀ id v, g.locals.find? id = some v → v.Typed (.ofSizes sizes)
  literals : ∀ x ∈ g.literals, (Layout.ofSizes sizes).typeOf x.2 = some x.1.scalar
  accesses : ∀ x ∈ g.accesses, x.Typed (.ofSizes sizes)
  quads : ∀ q ∈ g.program.quads, q.Typed (.ofSizes sizes)
  sizes_eq : g.program.sizes = sizes
  heapStart_eq : g.program.heapStart = (Layout.ofSizes sizes).heapStart
  /-- A frame has no more slots of a type than there are addresses below the heap. -/
  frames : ∀ id r, g.program.functions.find? id = some r →
    ∀ ty, r.slots.total ty ≤ (Layout.ofSizes sizes).heapStart
  /-- Temporaries are of functions only. -/
  unshared : ∀ ty, g.program.globals.temporaries.get ty = 0

variable {sizes : Sizes} {g : Generator}

theorem typed_ofSizes (sizes : Sizes) (threshold : Level) :
    (ofSizes sizes threshold).Typed sizes where
  pool := Pool.valid_ofLayout sizes
  operands := List.forall_mem_nil _
  globals := by
    rintro id v ⟨⟩
  locals := by
    rintro id v ⟨⟩
  literals := List.forall_mem_nil _
  accesses := List.forall_mem_nil _
  quads := by
    intro q hq
    exact (Array.not_mem_empty q hq).elim
  sizes_eq := rfl
  heapStart_eq := rfl
  frames := by
    rintro id r ⟨⟩
  unshared ty := by cases ty <;> rfl

theorem Typed.lookup (h : g.Typed sizes) {id : String} (hv : g.lookup id = some v) :
    v.Typed (.ofSizes sizes) := by
  unfold Generator.lookup at hv
  split at hv
  · rename_i w hw
    cases hv
    exact h.locals id v hw
  · exact h.globals id v hv

theorem Typed.setVariable (h : g.Typed sizes) (id : String) (hv : v.Typed (.ofSizes sizes)) :
    (g.setVariable id v).Typed sizes := by
  unfold Generator.setVariable
  split
  · exact { h with locals := Table.forall_insert h.locals hv }
  · exact { h with globals := Table.forall_insert h.globals hv }

end Generator

namespace Compile

open Generator

variable {sizes : Sizes} {α : Type} {Q : α → Prop}

/-- Recorded types stay in agreement with the layout, whether the step is accepted or refused. -/
abbrev KeepsTypes (sizes : Sizes) (c : Compile α) : Prop := Upholds (Typed sizes) c fun _ => True

/-! ## Refusals, notes and quads -/

theorem upholds_refuse (cause : Cause) : Upholds (Typed sizes) (refuse cause : Compile α) Q :=
  upholds_get_bind fun _ _ => upholds_throw _

theorem upholds_reject (what : Misuse) :
    Upholds (Typed sizes) (reject what : Compile α) Q := upholds_refuse _

theorem upholds_note (n : Note) : KeepsTypes sizes (note n) :=
  upholds_modify fun _ hg => { hg with }

/-- The one place where quads come from. -/
theorem upholds_emit {op : Opcode} {left right result : Option Operand}
    (hq : (⟨op, left, right, result⟩ : Quad).Typed (.ofSizes sizes)) :
    KeepsTypes sizes (emit op left right result) := by
  refine upholds_get_bind fun g hg => ?_
  split
  · exact upholds_reject _
  refine .bind (upholds_note _) fun _ _ => .bind (upholds_modify fun g' hg' => ?_) fun _ _ =>
    upholds_pure trivial
  refine { hg' with quads := ?_ }
  intro q hmem
  rcases Array.mem_push.mp hmem with hmem | rfl
  · exact hg'.quads q hmem
  · exact hq

theorem upholds_patch (index target : Nat) :
    KeepsTypes sizes (patch index target) := by
  refine upholds_get_bind fun g hg => ?_
  split
  · rename_i q hq
    split
    · rename_i hjump
      refine upholds_set { hg with quads := ?_ }
      intro q' hmem
      rcases Array.mem_or_eq_of_mem_setIfInBounds hmem with hmem | rfl
      · exact hg.quads q' hmem
      · exact (hg.quads q (Array.mem_of_getElem? hq)).patched hjump target
    · exact upholds_reject _
  · exact upholds_reject _

/-! ## Slots -/

theorem upholds_allocate (ty : Scalar) (segment : Segment) :
    Upholds (Typed sizes) (allocate ty segment) fun a => Located sizes a segment ty := by
  refine upholds_get_bind fun g hg => ?_
  split
  · rename_i address pool hallocate
    have htakes := hg.pool.allocate hallocate
    refine .bind (upholds_set { hg with pool := htakes.valid }) fun _ _ => ?_
    exact .bind (upholds_modify fun _ hg => { hg with }) fun _ _ => upholds_pure htakes.located
  · exact upholds_refuse _

theorem upholds_allocateBlock (ty : Scalar) (segment : Segment) (len : Nat) :
    Upholds (Typed sizes) (allocateBlock ty segment len) fun a => Located sizes a segment ty := by
  refine upholds_get_bind fun g hg => ?_
  split
  · rename_i address pool hallocate
    have htakes := hg.pool.allocateBlock hallocate
    exact .bind (upholds_set { hg with pool := htakes.valid }) fun _ _ =>
      upholds_pure htakes.located
  · exact upholds_refuse _

theorem upholds_giveBack (address : Nat) :
    KeepsTypes sizes (giveBack address) := by
  refine upholds_get_bind fun g hg => ?_
  split
  · rename_i pool hrelease
    exact upholds_set { hg with pool := (hg.pool.release hrelease).valid }
  · exact upholds_refuse _

theorem upholds_temporary (ty : Scalar) :
    Upholds (Typed sizes) (temporary ty) ((Layout.ofSizes sizes).IsTemporary ty) :=
  (upholds_allocate ty .temporaries).weaken fun _ h => ⟨h.segmentOf, h.typeOf⟩

theorem upholds_release (e : Entry) : KeepsTypes sizes (release e) := by
  refine upholds_get_bind fun g hg => ?_
  split
  · exact upholds_giveBack _
  · exact upholds_pure trivial

theorem upholds_nameAddress (address : Nat) (name : String) :
    KeepsTypes sizes (nameAddress address name) :=
  upholds_modify fun _ hg => { hg with }

/-- The slot of a literal has its type, whether the literal is new or was met before. -/
theorem upholds_constant (v : Value) :
    Upholds (Typed sizes) (constant v) fun a =>
      (Layout.ofSizes sizes).typeOf a = some v.scalar := by
  have hcanonical : v.canonical.scalar = v.scalar := by cases v <;> rfl
  unfold constant
  dsimp only
  split
  · exact upholds_reject _
  refine upholds_get_bind fun g hg => ?_
  split
  · rename_i key address hfind
    have hkey := List.find?_some hfind
    rw [beq_iff_eq] at hkey
    have htype := hg.literals _ (List.mem_of_find?_eq_some hfind)
    rw [hkey, hcanonical] at htype
    exact upholds_pure htype
  · refine .bind (upholds_allocate _ _) fun address hlocated => .bind (upholds_nameAddress _ _)
      fun _ _ => ?_
    refine .bind (upholds_modify fun g' hg' => ?_) fun _ _ => upholds_pure hlocated.typeOf
    refine { hg' with literals := ?_ }
    rw [List.forall_mem_cons, hcanonical]
    exact ⟨hlocated.typeOf, hg'.literals⟩

/-! ## Operands -/

theorem upholds_push {e : Entry} (he : e.Typed (.ofSizes sizes)) :
    KeepsTypes sizes (push e) := by
  refine upholds_modify fun g hg => { hg with operands := ?_ }
  rw [List.forall_mem_cons]
  exact ⟨he, hg.operands⟩

theorem upholds_pop : Upholds (Typed sizes) pop (Entry.Typed (.ofSizes sizes)) := by
  refine upholds_get_bind fun g hg => ?_
  split
  · rename_i e rest hoperands
    have hall := hg.operands
    rw [hoperands, List.forall_mem_cons] at hall
    exact .bind (upholds_set { hg with operands := hall.2 }) fun _ _ =>
      upholds_pure hall.1
  · exact upholds_reject _

theorem upholds_pushConstant (v : Value) : KeepsTypes sizes (pushConstant v) :=
  .bind (upholds_constant v) fun _ ha => upholds_get_bind fun _ _ =>
    upholds_push (Entry.typed_direct ha _ _)

/-- An operand pushed by number is checked against the layout. -/
theorem upholds_pushOperand (address : Nat) (ty : Scalar) (className : Option String) :
    KeepsTypes sizes (pushOperand address ty className) := by
  refine upholds_get_bind fun g hg => ?_
  split
  · rename_i hty
    rw [hg.pool.layout] at hty
    exact upholds_push (Entry.typed_direct hty _ _)
  · exact upholds_reject _

theorem upholds_pushVariable (id : String) :
    KeepsTypes sizes (pushVariable id) := by
  refine upholds_get_bind fun g hg => ?_
  split
  · exact upholds_refuse _
  rename_i v hv
  split
  · exact upholds_refuse _
  · exact upholds_push (Entry.typed_direct (hg.lookup hv).address _ _)

end Compile

end Quadruple
