/-
  The heap of a running program: blocks, and the cells that lie in them.

  Cell addresses continue the address space of the segments, so a pointer can name a slot below the
  heap or a cell of it.  Cells have no type of their own; a fresh block is empty.

  Releasing a block also releases every block that can be reached from it by following cells that
  hold the start of a block in use.  The search is depth first with an explicit stack: the block on
  top is recorded unless it was met before, and the blocks its cells point to go on the stack, the
  highest cell on top.  The blocks are then given back in the opposite order of recording, latest
  first.  The search ends because each recorded block was not recorded before and there are only
  finitely many in use.

  For `h.release r`, with  b → t  when a cell of block b holds the start t of a block in use:
      collect [r] []   =  [bₙ, …, b₁]      each bᵢ with  r →* bᵢ,  and  b₁ = r
      releaseEach      :  bₙ first, b₁ last

  Each access to a cell asks whether the address is one of the heap, also where blocks are emptied
  and where they are searched.  These questions are part of the definitions; that the answer is
  always yes for the cells of a block is a fact about the heaps that requests lead to
  (`Sound.emptySpan_granted`, `Sound.collect_eq`).  So a request that fails does so before anything
  is changed, and its result is an error without a heap.
-/
import Quadruple.Value
import Quadruple.Heap.Blocks

namespace Quadruple

/-- Blocks and cells. -/
structure Heap where
  blocks : Blocks
  cells : Array (Option Value)
deriving DecidableEq, Inhabited

namespace Heap

/-- A heap of `size` empty cells from address `base`. -/
def ofSize (base size : Nat) : Heap := ⟨Blocks.ofSize base size, Array.replicate size none⟩

/-- Whether an address belongs to the heap. -/
def contains (h : Heap) (address : Nat) : Bool := h.blocks.contains address

/-- What a cell holds. -/
def read (h : Heap) (address : Nat) : Except HeapError (Option Value) :=
  if h.contains address then .ok (h.cells[address - h.blocks.base]?.getD none)
  else .error (.outside address)

/-- Fill a cell, or empty it. -/
def write (h : Heap) (address : Nat) (v : Option Value) : Except HeapError Heap :=
  if h.contains address then
    .ok { h with cells := h.cells.setIfInBounds (address - h.blocks.base) v }
  else .error (.outside address)

/-- Empty `n` cells from an address on. -/
def emptyFrom (h : Heap) (address : Nat) : Nat → Except HeapError Heap
  | 0 => .ok h
  | n + 1 =>
    match h.write address none with
    | .error e => .error e
    | .ok h' => h'.emptyFrom (address + 1) n

/-- Empty the cells of a span. -/
def emptySpan (h : Heap) (s : Span) : Except HeapError Heap := h.emptyFrom s.first s.length

/-- Reserve a block of `size` empty cells. -/
def allocate (h : Heap) (size : Nat) : Except HeapError (Span × Heap) :=
  match h.blocks.allocate size with
  | .error e => .error e
  | .ok (s, blocks) => (s, ·) <$> { h with blocks := blocks }.emptySpan s

/-! ## Release -/

/-- The start of the block in use that the value of a cell leads to. -/
def target? (h : Heap) : Option Value → Option Nat
  | some (.pointer t) => if h.blocks.isTaken t then some t else none
  | _ => none

/-- The starts of blocks in use that `n` cells from an address on point to, in cell order. -/
def targetsFrom (h : Heap) (address : Nat) : Nat → Except HeapError (List Nat)
  | 0 => .ok []
  | n + 1 =>
    match h.read address with
    | .error e => .error e
    | .ok v => ((h.target? v).toList ++ ·) <$> h.targetsFrom (address + 1) n

/-- The starts of blocks in use that the cells of a span point to, in cell order. -/
def targets (h : Heap) (s : Span) : Except HeapError (List Nat) := h.targetsFrom s.first s.length

/-- How many blocks in use are not recorded yet. -/
def unrecorded (h : Heap) (found : List Nat) : Nat :=
  (h.blocks.taken.filter fun s => !found.contains s.first).length

theorem unrecorded_cons_lt (h : Heap) {found : List Nat} {b : Nat} {s : Span}
    (hs : h.blocks.block? b = some s) (hb : ¬ found.contains b = true) :
    h.unrecorded (b :: found) < h.unrecorded found := by
  have hmem : s ∈ h.blocks.taken := List.mem_of_find?_eq_some hs
  have hfirst : s.first = b := by
    have := List.find?_some hs
    simpa using this
  -- recording `b` drops from the blocks still to record those that start at `b`
  have hdrop : (h.blocks.taken.filter fun t => !(b :: found).contains t.first) =
      (h.blocks.taken.filter fun t => !found.contains t.first).filter fun t => t.first ≠ b := by
    rw [List.filter_filter]
    congr 1
    funext t
    simp
  unfold unrecorded
  rw [hdrop]
  refine List.length_filter_lt_length_iff_exists.mpr ⟨s, ?_, by simp [hfirst]⟩
  exact List.mem_filter.mpr ⟨hmem, by simpa [hfirst] using hb⟩

/-- The blocks that can be reached from those on the stack, latest recorded first, before those
already recorded. -/
def collect (h : Heap) (stack found : List Nat) : Except HeapError (List Nat) :=
  match stack with
  | [] => .ok found
  | b :: rest =>
    if _hb : found.contains b = true then collect h rest found
    else
      match _hs : h.blocks.block? b with
      | none => collect h rest found
      | some s =>
        match h.targets s with
        | .error e => .error e
        | .ok targets =>
          let fresh := targets.filter fun t => !(b :: found).contains t
          collect h (fresh.reverse ++ rest) (b :: found)
termination_by (h.unrecorded found, stack.length)
decreasing_by
  · exact Prod.Lex.right _ (by simp)
  · exact Prod.Lex.right _ (by simp)
  · exact Prod.Lex.left _ _ (unrecorded_cons_lt h _hs _hb)

/-- Empty the cells of one block and give it back. -/
def releaseBlock (h : Heap) (reference : Nat) : Except HeapError (Span × Heap) :=
  match h.blocks.release reference with
  | .error e => .error e
  | .ok (s, blocks) => (fun h' => (s, { h' with blocks := blocks })) <$> h.emptySpan s

/-- Give back blocks one after another. -/
def releaseEach (h : Heap) : List Nat → Except HeapError (List Span × Heap)
  | [] => .ok ([], h)
  | r :: rest =>
    match h.releaseBlock r with
    | .error e => .error e
    | .ok (s, h') =>
      match h'.releaseEach rest with
      | .error e => .error e
      | .ok (spans, h'') => .ok (s :: spans, h'')

/-- Give back the block at a reference and all blocks reachable from it; the result lists them in
the order in which they were given back. -/
def release (h : Heap) (reference : Nat) : Except HeapError (List Span × Heap) :=
  if h.blocks.isTaken reference then
    match h.collect [reference] [] with
    | .error e => .error e
    | .ok found => h.releaseEach found
  else .error (.notAllocated reference)

end Heap

end Quadruple
