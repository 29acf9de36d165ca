/-
  Which cells of the heap belong to which block.

  The heap is an interval of addresses, divided into blocks in use and free spans.  The blocks are
  kept in ascending order.  The free spans are a bag: what is left of a span that was cut goes to
  the front, so the order in which they are kept depends on what was asked for before.  A block is
  cut from the front of the span that comes before all others, which is the longest one, the lowest
  on a tie.  When a block is given back, the free spans are put in ascending order and those that
  touch are joined.
-/

namespace Quadruple

/-- Why a heap request fails. -/
inductive HeapError where
  | exhausted (requested largest : Nat)
  | notAllocated (reference : Nat)
  | outside (address : Nat)
deriving DecidableEq

/-- The message of a heap error. -/
def HeapError.message : HeapError → String
  | exhausted requested largest =>
    "heap exhausted: requested " ++ requested.repr ++ " cells, largest free range holds " ++
      largest.repr
  | notAllocated r => "heap reference " ++ r.repr ++ " is not an allocated block"
  | outside a => "address " ++ a.repr ++ " is outside the heap"

/-- The cells from `first` to `last`, both included. -/
structure Span where
  first : Nat
  last : Nat
deriving DecidableEq, Inhabited

namespace Span

/-- How many cells a span has. -/
def length (s : Span) : Nat := s.last - s.first + 1

/-- Put a span at its place in an ascending list. -/
def insert (s : Span) : List Span → List Span
  | [] => [s]
  | t :: rest => if s.first ≤ t.first then s :: t :: rest else t :: insert s rest

/-- Join spans that touch or overlap, in an ascending list that starts with `s`. -/
def joinFrom (s : Span) : List Span → List Span
  | [] => [s]
  | t :: rest =>
    if t.first ≤ s.last + 1 then joinFrom ⟨s.first, max s.last t.last⟩ rest
    else s :: joinFrom t rest

/-- Join spans that touch or overlap. -/
def join : List Span → List Span
  | [] => []
  | s :: rest => joinFrom s rest

/-- Spans in ascending order. -/
def sort (l : List Span) : List Span := l.foldr insert []

/-- Whether a block is rather cut from the first span than from the second: from the longer one, and
of two of the same length from the lower. -/
def Precedes (s t : Span) : Prop := t.length < s.length ∨ s.length = t.length ∧ s.first < t.first

instance (s t : Span) : Decidable (Precedes s t) :=
  inferInstanceAs (Decidable (t.length < s.length ∨ s.length = t.length ∧ s.first < t.first))

/-- The span that comes before all others. -/
def foremost? : List Span → Option Span
  | [] => none
  | s :: rest =>
    match foremost? rest with
    | some t => if t.Precedes s then some t else some s
    | none => some s

/-- What is left of a span when `n` cells are cut from its front; nothing when it has no more. -/
def remainder (s : Span) (n : Nat) : List Span :=
  if n < s.length then [⟨s.first + n, s.last⟩] else []

end Span

/-- The division of a heap into blocks in use and free spans. -/
structure Blocks where
  base : Nat
  size : Nat
  /-- The free spans, in no particular order. -/
  bag : List Span
  /-- The blocks in use, ascending. -/
  taken : List Span
deriving DecidableEq, Inhabited

namespace Blocks

/-- A heap of `size` free cells from address `base`. -/
def ofSize (base size : Nat) : Blocks where
  base := base
  size := size
  bag := if size = 0 then [] else [⟨base, base + size - 1⟩]
  taken := []

/-- Whether an address belongs to the heap. -/
def contains (b : Blocks) (address : Nat) : Bool := b.base ≤ address && address < b.base + b.size

/-- The block that starts at a reference. -/
def block? (b : Blocks) (reference : Nat) : Option Span := b.taken.find? (·.first == reference)

/-- Whether a block starts at a reference. -/
def isTaken (b : Blocks) (reference : Nat) : Bool := (b.block? reference).isSome

/-- The free spans in ascending order. -/
def free (b : Blocks) : List Span := Span.sort b.bag

/-- How many cells are free. -/
def available (b : Blocks) : Nat := b.bag.foldr (fun s n => s.length + n) 0

/-- Reserve `size` consecutive cells, at least one. -/
def allocate (b : Blocks) (size : Nat) : Except HeapError (Span × Blocks) :=
  let n := max size 1
  match Span.foremost? b.bag with
  | none => .error (.exhausted n 0)
  | some s =>
    if s.length < n then .error (.exhausted n s.length)
    else
      let block : Span := ⟨s.first, s.first + n - 1⟩
      .ok (block,
        { b with bag := s.remainder n ++ b.bag.erase s, taken := Span.insert block b.taken })

/-- Give the block at a reference back; the result is that block too. -/
def release (b : Blocks) (reference : Nat) : Except HeapError (Span × Blocks) :=
  match b.block? reference with
  | none => .error (.notAllocated reference)
  | some s =>
    .ok (s, { b with bag := Span.join (Span.sort (s :: b.bag)), taken := b.taken.filter (· ≠ s) })

end Blocks

end Quadruple
