/-
  Frames: the slots of one activation of a function, or of the globals.

  A frame has a row of slots for each scalar type, local slots first and temporaries after them.
  Which slot an address means follows from its run in the layout: its place in the run, moved past
  the locals for a temporary.  An address past the slots that the frame has means none.

  With `n` local and `k` temporary slots of a type, and `o` for the place of an address in its run:
      the row has     n + k  cells
      a local is      cell  o      if  o < n
      a temporary is  cell  n + o  if  n + o < n + k.
  Both sums have to be words.  A frame is made only if the first one is (`ofCounts?`), and an
  address for which the second one is not has no cell, for which the fault is an overflow
  (`absence`).
-/
import Quadruple.Program
import Quadruple.Machine.Fault

namespace Quadruple

/-- The slots of one activation. -/
structure Frame where
  function : String
  localCounts : PerScalar Nat
  slots : PerScalar (Array (Option Value))
deriving DecidableEq, Inhabited

namespace Frame

/-- A frame with empty slots. -/
def ofCounts (function : String) (counts : SlotCounts) : Frame where
  function := function
  localCounts := counts.locals
  slots := PerScalar.ofFn fun t => Array.replicate (counts.total t) none

/-- A frame with empty slots, if each row can be counted. -/
def ofCounts? (function : String) (counts : SlotCounts) : Option Frame :=
  if counts.countable then some (ofCounts function counts) else none

/-- The place of an address in the row of its type. -/
def index? (f : Frame) (r : Range) (address : Nat) : Option Nat :=
  let offset := r.offset address
  let localCount := f.localCounts.get r.ty
  let size := (f.slots.get r.ty).size
  match r.segment with
  | .globals | .locals => if offset < localCount ∧ offset < size then some offset else none
  | .temporaries =>
    if IsWord (localCount + offset) ∧ localCount + offset < size then some (localCount + offset)
    else none
  | .constants => none

/-- Why an address has no place in the row of its type: it would be no word, or there is no such
place. -/
def absence (f : Frame) (r : Range) (address : Nat) : Fault :=
  if r.segment = .temporaries ∧ ¬ IsWord (f.localCounts.get r.ty + r.offset address) then .overflow
  else .invalidAddress address

/-- What the slot of an address holds; `none` when there is no such slot. -/
def get? (f : Frame) (r : Range) (address : Nat) : Option (Option Value) :=
  match f.index? r address with
  | some i => (f.slots.get r.ty)[i]?
  | none => none

/-- Fill the slot of an address or empty it; `none` when there is no such slot. -/
def set? (f : Frame) (r : Range) (address : Nat) (v : Option Value) : Option Frame :=
  match f.index? r address with
  | some i => some { f with slots := f.slots.set r.ty ((f.slots.get r.ty).setIfInBounds i v) }
  | none => none

end Frame

end Quadruple
