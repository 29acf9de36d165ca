/-
  Handing out the addresses of a layout.

  Every run of the layout has a supply of its own.  A supply remembers the lowest address it never
  handed out since it was last rewound (`next`) and the addresses given back since then: in a queue,
  oldest first (`freed`), and as a set (`idle`), in which an address is looked up before it is taken
  back.  A request for one address takes the oldest one given back, and only when there is none
  moves `next`; a request for a block of consecutive addresses always moves `next`, since addresses
  given back need not be adjacent.  When everything handed out is back, the supply rewinds to the
  start of its run.  Capacity is fixed: running out is an error, never a resize.

  With `[start, limit)` for the run, a request for `len` fresh addresses has three outcomes:
      next + len ≥ 2 ^ 64            overflow: the end of the block is no word
      limit < next + len < 2 ^ 64    exhausted
      next + len ≤ limit             the block `[next, next + len)`
  The end is computed first and compared afterwards, so a request that is far too large is not
  refused as one that does not fit.  Both outcomes other than a grant leave the pool as it was:
  every check of a request comes before its first assignment, and so a result in `Except` carries a
  pool only when there is a new one.

  An address is live when it was handed out and is not back: it lies below `next` and not in `freed`
  (`Supply.isLive`).  `peak` is the largest number of addresses below `next` since the last bulk
  release, and rewinding does not lower it.
-/
import Quadruple.Word
import Quadruple.Layout

namespace Quadruple

/-- Why an address could not be handed out or taken back. -/
inductive PoolError where
  | exhausted (segment : Segment) (ty : Scalar)
  | notAllocated (address : Nat)
  | outOfRange (address : Nat)
  | overflow
deriving DecidableEq

/-- The message of a pool error. -/
def PoolError.message : PoolError → String
  | exhausted segment ty => "too many " ++ ty.name ++ " values in " ++ segment.name ++ " scope"
  | notAllocated a => "address " ++ a.repr ++ " is not currently allocated"
  | outOfRange a => "address " ++ a.repr ++ " is outside every segment"
  | overflow => Overflow.sum.message

/-! ## The supply of one run -/

/-- Why a supply hands out nothing. -/
inductive Shortage where
  /-- Too few addresses of the run were never handed out. -/
  | exhausted
  /-- The end of the request is no word. -/
  | overflow
deriving DecidableEq

/-- The pool error that a shortage in the run of a segment and a type is. -/
def Shortage.error (segment : Segment) (ty : Scalar) : Shortage → PoolError
  | exhausted => .exhausted segment ty
  | overflow => .overflow

/-- The bookkeeping of one run of addresses. -/
structure Supply where
  range : Range
  /-- The lowest address not handed out since the last rewind. -/
  next : Nat
  /-- Addresses given back, oldest first. -/
  freed : List Nat
  /-- The same addresses as a set. -/
  idle : List Nat
  /-- The most addresses below `next` at any time since the last bulk release. -/
  peak : Nat
deriving DecidableEq, Inhabited

namespace Supply

/-- A supply from which nothing was taken. -/
def ofRange (r : Range) : Supply := ⟨r, r.start, [], [], 0⟩

/-- Start over at the lowest address. -/
def rewind (s : Supply) : Supply := { s with next := s.range.start, freed := [], idle := [] }

/-- Whether an address is handed out. -/
def isLive (s : Supply) (address : Nat) : Bool :=
  s.range.start ≤ address && address < s.next && !s.freed.contains address

/-- Take the next `len` addresses that were never handed out. -/
def takeFresh (s : Supply) (len : Nat) : Except Shortage (Nat × Supply) :=
  let stop := s.next + len
  if ¬ IsWord stop then .error .overflow
  else if s.range.limit < stop then .error .exhausted
  else .ok (s.next, { s with next := stop, peak := max s.peak (stop - s.range.start) })

/-- Take one address: the oldest given back, else a fresh one. -/
def take (s : Supply) : Except Shortage (Nat × Supply) :=
  match s.freed with
  | a :: rest => .ok (a, { s with freed := rest, idle := s.idle.erase a })
  | [] => s.takeFresh 1

/-- Take an address back; `none` when it is not handed out.  With the last one back the supply
rewinds. -/
def give? (s : Supply) (address : Nat) : Option Supply :=
  if s.next ≤ address || s.idle.contains address then none
  else
    let s' := { s with freed := s.freed ++ [address], idle := s.idle.insert address }
    if s'.freed.length = s.next - s.range.start then some s'.rewind else some s'

end Supply

/-! ## The pool -/

/-- The supplies of all runs of a layout. -/
structure Pool where
  layout : Layout
  supplies : PerSegment (PerScalar Supply)
deriving DecidableEq, Inhabited

namespace Pool

/-- The pool of a layout, nothing handed out. -/
def ofLayout (l : Layout) : Pool where
  layout := l
  supplies := PerSegment.ofFn fun s => PerScalar.ofFn fun t => Supply.ofRange (l.range s t)

/-- The supply of a segment and a scalar type. -/
def supply (p : Pool) (segment : Segment) (ty : Scalar) : Supply := (p.supplies.get segment).get ty

/-- Replace one supply. -/
def setSupply (p : Pool) (segment : Segment) (ty : Scalar) (s : Supply) : Pool :=
  { p with supplies := p.supplies.set segment ((p.supplies.get segment).set ty s) }

/-- The address that the next single request would get back into use, if there is one. -/
def reusable? (p : Pool) (ty : Scalar) (segment : Segment) : Option Nat :=
  (p.supply segment ty).freed.head?

/-- Hand out one address. -/
def allocate (p : Pool) (ty : Scalar) (segment : Segment) : Except PoolError (Nat × Pool) :=
  match (p.supply segment ty).take with
  | .ok (a, s) => .ok (a, p.setSupply segment ty s)
  | .error shortage => .error (shortage.error segment ty)

/-- Hand out `len` consecutive fresh addresses, at least one; the result is the first. -/
def allocateBlock (p : Pool) (ty : Scalar) (segment : Segment) (len : Nat) :
    Except PoolError (Nat × Pool) :=
  match (p.supply segment ty).takeFresh (max len 1) with
  | .ok (a, s) => .ok (a, p.setSupply segment ty s)
  | .error shortage => .error (shortage.error segment ty)

/-- Take an address back. -/
def release (p : Pool) (address : Nat) : Except PoolError Pool :=
  match p.layout.locate address with
  | none => .error (.outOfRange address)
  | some r =>
    match (p.supply r.segment r.ty).give? address with
    | some s => .ok (p.setSupply r.segment r.ty s)
    | none => .error (.notAllocated address)

/-- Take back everything in a segment and forget its peaks. -/
def releaseSegment (p : Pool) (segment : Segment) : Pool :=
  let cleared := (p.supplies.get segment).map fun s => { s.rewind with peak := 0 }
  { p with supplies := p.supplies.set segment cleared }

/-- Whether an address is handed out. -/
def isLive (p : Pool) (address : Nat) : Bool :=
  match p.layout.locate address with
  | some r => (p.supply r.segment r.ty).isLive address
  | none => false

/-- Whether an address lies in a segment. -/
def inSegment (p : Pool) (address : Nat) (segment : Segment) : Bool :=
  p.layout.segmentOf address == some segment

/-- The most slots in use at any time since the last bulk release. -/
def peak (p : Pool) (segment : Segment) (ty : Scalar) : Nat := (p.supply segment ty).peak

/-- The peaks of a segment. -/
def peaks (p : Pool) (segment : Segment) : PerScalar Nat := PerScalar.ofFn fun t => p.peak segment t

@[simp] theorem supply_setSupply_self (p : Pool) (segment : Segment) (ty : Scalar) (s : Supply) :
    (p.setSupply segment ty s).supply segment ty = s := by
  simp [supply, setSupply]

theorem supply_setSupply_of_ne (p : Pool) {segment segment' : Segment} {ty ty' : Scalar}
    (s : Supply) (h : (segment', ty') ≠ (segment, ty)) :
    (p.setSupply segment ty s).supply segment' ty' = p.supply segment' ty' := by
  unfold supply setSupply
  by_cases hs : segment' = segment
  · subst hs
    have ht : ty' ≠ ty := fun e => h (by rw [e])
    rw [PerSegment.get_set_self, PerScalar.get_set_of_ne _ _ ht]
  · rw [PerSegment.get_set_of_ne _ _ hs]

end Pool

end Quadruple
