/-
  Compiled programs: what passes from the compiler to the machine.

  A program says how the address space is laid out, what its constants and functions are, how many
  global slots it uses, and lists its quads.  Names of addresses are not part of it; the compiler
  hands them out beside the program for those who want to read it (`Names`).
-/
import Quadruple.Table
import Quadruple.Value
import Quadruple.Layout
import Quadruple.Quad

namespace Quadruple

/-- How many slots of each type a frame needs.  In the frame of the globals only `locals` counts. -/
structure SlotCounts where
  locals : PerScalar Nat
  temporaries : PerScalar Nat
deriving DecidableEq, Inhabited

namespace SlotCounts

/-- No slots at all. -/
def zero : SlotCounts := ⟨PerScalar.const 0, PerScalar.const 0⟩

/-- The slots of a type, local and temporary together. -/
def total (c : SlotCounts) (ty : Scalar) : Nat := c.locals.get ty + c.temporaries.get ty

/-- Whether the slots of each type together are a word, as they have to be for a frame. -/
def countable (c : SlotCounts) : Bool := Scalar.all.all fun ty => IsWord (c.total ty)

theorem countable_iff {c : SlotCounts} : c.countable = true ↔ ∀ ty, IsWord (c.total ty) := by
  unfold countable
  rw [List.all_eq_true]
  have hall : ∀ ty, ty ∈ Scalar.all := by
    intro ty
    cases ty <;> decide
  exact ⟨fun h ty => of_decide_eq_true (h ty (hall ty)), fun h ty _ => decide_eq_true (h ty)⟩

end SlotCounts

/-- What is known of a function: where its body starts, its signature, and the size of its frames.
-/
structure Routine where
  startQuad : Nat
  /-- Absent for a function that returns nothing. -/
  returnType : Option TypeName
  paramTypes : List TypeName
  paramAddresses : List Nat
  slots : SlotCounts
deriving DecidableEq, Inhabited

/-- A function whose body starts at a quad and of which nothing else is known yet. -/
def Routine.startingAt (quad : Nat) : Routine := ⟨quad, none, [], [], SlotCounts.zero⟩

/-- A constant with the type of its slot. -/
structure Constant where
  value : Value
  ty : Scalar
deriving DecidableEq, Inhabited

/-- A compiled program. -/
structure Program where
  sizes : Sizes
  constants : Table Nat Constant
  functions : Table String Routine
  globals : SlotCounts
  quads : Array Quad
  heapStart : Nat
deriving DecidableEq, Inhabited

namespace Program

/-- The name of the function where execution starts. -/
def entryPoint : String := "main"

/-- A program with nothing in it. -/
def ofSizes (sizes : Sizes) : Program where
  sizes := sizes
  constants := Table.empty
  functions := Table.empty
  globals := SlotCounts.zero
  quads := #[]
  heapStart := (Layout.ofSizes sizes).heapStart

/-- The address space of a program. -/
def layout (p : Program) : Layout := Layout.ofSizes p.sizes

/-- The function where execution starts. -/
def main? (p : Program) : Option Routine := p.functions.find? entryPoint

/-- Equality of constants as a program sees it: values agree as numbers. -/
def constantsAgree : List (Nat × Constant) → List (Nat × Constant) → Bool
  | [], [] => true
  | (a, c) :: rest, (b, d) :: rest' =>
    a == b && c.ty == d.ty && c.value.agrees d.value && constantsAgree rest rest'
  | _, _ => false

/-- Equality of programs in which a NaN differs from itself. -/
def agrees (p q : Program) : Bool :=
  constantsAgree p.constants.entries q.constants.entries && { p with constants := q.constants } == q

end Program

/-! ## Names of addresses -/

/-- Names for a reader, by address. -/
abbrev Names := Table Nat String

/-- The name of an address, or the address itself. -/
def Names.display (names : Names) (address : Nat) : String :=
  (names.find? address).getD address.repr

end Quadruple
