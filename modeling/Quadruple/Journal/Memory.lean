/-
  What is worth noting when memory is handed out and taken back.

  Of an address, only that it was in use before; of a heap block, always where it lies.
-/
import Quadruple.Journal
import Quadruple.Pool
import Quadruple.Heap.Blocks

namespace Quadruple

/-- Write several notes, first to last. -/
def Journal.writeAll (j : Journal) (notes : List Note) : Journal := notes.foldl Journal.write j

/-- The notes on the next single address that a pool hands out. -/
def Pool.reuseNotes (p : Pool) (ty : Scalar) (segment : Segment) : List Note :=
  match p.reusable? ty segment with
  | some a => [.addressReused segment ty a]
  | none => []

/-- The note on a block handed out. -/
def Span.allocationNote (s : Span) : Note := .blockAllocated s.first s.last

/-- The note on a block taken back. -/
def Span.releaseNote (s : Span) : Note := .blockFreed s.first s.last

end Quadruple
