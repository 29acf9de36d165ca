/-
  The address space below the heap.

  Each segment gives each scalar type a run of consecutive addresses.  The runs follow one another
  without gaps, segment by segment and inside a segment type by type, from address 0; the heap
  starts where the last one ends.  So an address below the heap belongs to exactly one (non-empty)
  run, and its place in it is its distance from the start of the run.

  For the sizes  n₀, n₁, …, n₁₉  of the runs in this order, the k-th run is
      [n₀ + … + nₖ₋₁, n₀ + … + nₖ),   and the heap starts at   n₀ + … + n₁₉.
  All these sums are words when the last one is (`Sizes.Addressable`), and there are layouts for
  such sizes only: whoever makes one from given sizes, to compile or to load a program, asks for it
  first.
-/
import Quadruple.Word
import Quadruple.Scalar

namespace Quadruple

/-- How many slots each segment reserves for each scalar type. -/
abbrev Sizes := PerSegment (PerScalar Nat)

namespace Sizes

/-- The same number of slots everywhere. -/
def uniform (slots : Nat) : Sizes := PerSegment.const (PerScalar.const slots)

/-- The sizes used when nothing else is asked for. -/
def standard : Sizes := uniform 1000

/-- The number of slots of one run. -/
def slots (sizes : Sizes) (segment : Segment) (ty : Scalar) : Nat := (sizes.get segment).get ty

/-- Change the number of slots of one run. -/
def withSlots (sizes : Sizes) (segment : Segment) (ty : Scalar) (n : Nat) : Sizes :=
  sizes.set segment ((sizes.get segment).set ty n)

end Sizes

/-- A run of addresses that belongs to one segment and one scalar type. -/
structure Range where
  segment : Segment
  ty : Scalar
  start : Nat
  len : Nat
deriving DecidableEq, Inhabited

namespace Range

/-- One past the last address. -/
def limit (r : Range) : Nat := r.start + r.len

/-- Whether an address lies in the run. -/
def contains (r : Range) (address : Nat) : Bool := r.start ≤ address && address < r.limit

/-- The place of an address in the run. -/
def offset (r : Range) (address : Nat) : Nat := address - r.start

end Range

/-- Every segment with every scalar type, in address order. -/
def places : List (Segment × Scalar) := Segment.all.flatMap fun s => Scalar.all.map fun t => (s, t)

/-- The number of slots of a list of places together. -/
def Sizes.total (sizes : Sizes) (ps : List (Segment × Scalar)) : Nat :=
  ps.foldr (fun p n => sizes.slots p.1 p.2 + n) 0

/-- Whether all addresses of the runs, and the start of the heap, are words. -/
def Sizes.Addressable (sizes : Sizes) : Prop := IsWord (sizes.total places)

instance (sizes : Sizes) : Decidable sizes.Addressable := inferInstanceAs (Decidable (IsWord _))

/-- Where the run of a place starts: after the runs of all places before it. -/
def Sizes.startOf (sizes : Sizes) (segment : Segment) (ty : Scalar) : Nat :=
  sizes.total (places.takeWhile (· ≠ (segment, ty)))

/-- The address space of a choice of sizes. -/
structure Layout where
  sizes : Sizes
  ranges : PerSegment (PerScalar Range)
  heapStart : Nat
deriving DecidableEq, Inhabited

namespace Layout

/-- The layout with these sizes. -/
def ofSizes (sizes : Sizes) : Layout where
  sizes := sizes
  ranges := PerSegment.ofFn fun s => PerScalar.ofFn fun t =>
    ⟨s, t, sizes.startOf s t, sizes.slots s t⟩
  heapStart := sizes.total places

/-- The layout used when nothing else is asked for. -/
def standard : Layout := ofSizes Sizes.standard

/-- The run of a segment and a scalar type. -/
def range (l : Layout) (segment : Segment) (ty : Scalar) : Range := (l.ranges.get segment).get ty

/-- The runs in address order. -/
def rangeList (l : Layout) : List Range := places.map fun p => l.range p.1 p.2

/-- The run that an address belongs to; heap addresses belong to none. -/
def locate (l : Layout) (address : Nat) : Option Range := l.rangeList.find? (·.contains address)

/-- The scalar type of an address below the heap. -/
def typeOf (l : Layout) (address : Nat) : Option Scalar := (l.locate address).map (·.ty)

/-- The segment of an address below the heap. -/
def segmentOf (l : Layout) (address : Nat) : Option Segment := (l.locate address).map (·.segment)

end Layout

end Quadruple
