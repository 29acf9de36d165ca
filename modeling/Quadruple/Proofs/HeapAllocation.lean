/-
  A block is granted whenever there is room for it.

  The heap looks at one free span only, the longest.  That is enough because the free spans are the
  longest runs of free cells: cells that are free one after another lie in one span
  (`Tiled.exists_span_of_free`), so there is room for so many cells exactly when the longest span
  has as many (`Tiled.hasRoom_iff`).

  Blocks and cells are kept apart, and what ties them together is small (`Sound`): the blocks divide
  the heap, and there is a cell for each address.  It holds of every heap that requests lead to,
  whatever was written through pointers to blocks that are no longer in use, and it is all that
  reading needs: a block in use lies inside the heap,
      s ∈ taken  →  base ≤ s.first ≤ s.last < base + size,
  so emptying its cells never fails, and empties these cells and no others
  (`Sound.emptySpan_granted`).
-/
import Mathlib.Data.List.Permutation
import Mathlib.Order.Bounds.Basic
import Quadruple.Heap
import Quadruple.Proofs.Tiling

namespace Quadruple

variable {a n size reference : Nat} {s : Span} {e : HeapError} {v : Option Value} {blocks : Blocks}
  {P : Heap → Prop} {spans : List Span}

instance (s : Span) (a : Nat) : Decidable (a ∈ s) :=
  inferInstanceAs (Decidable (s.first ≤ a ∧ a ≤ s.last))

namespace Blocks

variable {b b' : Blocks}

/-! ## Room -/

/-- There are so many free cells one after another. -/
def HasRoom (b : Blocks) (n : Nat) : Prop := ∃ a, ∀ i, i < n → b.IsFree (a + i)

/-- Of the runs of free cells that cannot be made longer the longest, the lowest on a tie. -/
structure IsLongestRun (b : Blocks) (s : Span) : Prop where
  isRun : b.IsRun s
  foremost : ∀ t, b.IsRun t → t.length < s.length ∨ t.length = s.length ∧ s.first ≤ t.first

/-- The length of the span that blocks are cut from; zero when no cell is free. -/
def largest (b : Blocks) : Nat :=
  match Span.foremost? b.bag with
  | some s => s.length
  | none => 0

/-- Free cells one after another lie in one free span.  By induction on their number, as the next
cell is in the span of the cell before it. -/
theorem Tiled.exists_span_of_free (hb : b.Tiled) (hfree : ∀ i, i ≤ n → b.IsFree (a + i)) :
    ∃ s ∈ b.bag, a ∈ s ∧ a + n ∈ s := by
  induction n with
  | zero =>
    obtain ⟨s, hs, ha⟩ := (hb.isFree_iff _).mp (hfree 0 (Nat.le_refl 0))
    exact ⟨s, hs, ha, ha⟩
  | succ n ih =>
    obtain ⟨s, hs, ha, hlast⟩ := ih fun i hi => hfree i (by omega)
    obtain ⟨t, ht, hnext⟩ := (hb.isFree_iff _).mp (hfree (n + 1) (Nat.le_refl _))
    obtain rfl := hb.eq_of_adjacent hs ht hlast hnext
    exact ⟨s, hs, ha, hnext⟩

/-- The cells of a free span are free one after another. -/
theorem Tiled.hasRoom_of_mem (hb : b.Tiled) (hs : s ∈ b.bag) (hn : n ≤ s.length) : b.HasRoom n := by
  have hs' := hb.nonempty hs
  unfold Span.length at hn
  refine ⟨s.first, fun i hi => (hb.isFree_iff _).mpr ⟨s, hs, ?_⟩⟩
  rw [Span.mem_iff]
  omega

theorem length_le_of_foremost? {t : Span} (hs : Span.foremost? b.bag = some s) (ht : t ∈ b.bag) :
    t.length < s.length ∨ t.length = s.length ∧ s.first ≤ t.first := by
  have hnot := Span.not_precedes_of_foremost? hs t ht
  unfold Span.Precedes at hnot
  omega

/-- There is room for as many cells as the longest free span has, and for no more. -/
theorem Tiled.hasRoom_iff (hb : b.Tiled) (n : Nat) : b.HasRoom n ↔ n ≤ b.largest := by
  constructor
  · rintro ⟨a, hfree⟩
    cases n with
    | zero => exact Nat.zero_le _
    | succ n =>
      obtain ⟨t, ht, hfirst, hlast⟩ :=
        hb.exists_span_of_free fun i hi => hfree i (Nat.lt_succ_of_le hi)
      have hlength : n + 1 ≤ t.length := by
        rw [Span.mem_iff] at hfirst hlast
        unfold Span.length
        omega
      unfold largest
      cases hforemost : Span.foremost? b.bag with
      | none =>
        rw [Span.eq_nil_of_foremost? hforemost] at ht
        cases ht
      | some s =>
        have hle := length_le_of_foremost? hforemost ht
        show n + 1 ≤ s.length
        omega
  · intro hn
    unfold largest at hn
    cases hforemost : Span.foremost? b.bag with
    | none =>
      rw [hforemost] at hn
      obtain rfl : n = 0 := Nat.le_zero.mp hn
      exact ⟨0, fun i hi => (Nat.not_lt_zero i hi).elim⟩
    | some s =>
      rw [hforemost] at hn
      exact hb.hasRoom_of_mem (Span.mem_of_foremost? hforemost) hn

/-- The span that blocks are cut from is the longest run of free cells. -/
theorem Tiled.isLongestRun (hb : b.Tiled) (hs : Span.foremost? b.bag = some s) :
    b.IsLongestRun s := by
  refine ⟨(hb.mem_bag_iff s).mp (Span.mem_of_foremost? hs), ?_⟩
  intro t ht
  exact length_le_of_foremost? hs ((hb.mem_bag_iff t).mpr ht)

/-- A block is refused when the longest free span is too short for it, and for no other reason. -/
theorem allocate_eq_error_iff :
    b.allocate size = .error e ↔
      b.largest < max size 1 ∧ e = .exhausted (max size 1) b.largest := by
  unfold allocate largest
  dsimp only
  cases Span.foremost? b.bag with
  | none =>
    have hpos : 0 < max size 1 := by omega
    constructor
    · intro h
      cases h
      exact ⟨hpos, rfl⟩
    · rintro ⟨-, rfl⟩
      rfl
  | some s =>
    dsimp only
    split
    · rename_i hshort
      constructor
      · intro h
        cases h
        exact ⟨hshort, rfl⟩
      · rintro ⟨-, rfl⟩
        rfl
    · rename_i hroom
      constructor
      · intro h
        cases h
      · rintro ⟨hshort, -⟩
        exact (hroom hshort).elim

theorem allocate_isOk_iff : (∃ s b', b.allocate size = .ok (s, b')) ↔ max size 1 ≤ b.largest := by
  rw [← Nat.not_lt]
  constructor
  · rintro ⟨s, b', h⟩ hshort
    rw [allocate_eq_error_iff.mpr ⟨hshort, rfl⟩] at h
    cases h
  · intro hroom
    cases hresult : b.allocate size with
    | ok result => exact ⟨result.1, result.2, rfl⟩
    | error e => exact (hroom (allocate_eq_error_iff.mp hresult).1).elim

theorem extent_allocate (h : b.allocate size = .ok (s, b')) :
    b'.base = b.base ∧ b'.size = b.size := by
  obtain ⟨-, -, -, -, rfl⟩ := allocate_eq_ok h
  exact ⟨rfl, rfl⟩

theorem extent_release (h : b.release reference = .ok (s, b')) :
    b'.base = b.base ∧ b'.size = b.size := by
  obtain ⟨-, rfl⟩ := release_eq_ok h
  exact ⟨rfl, rfl⟩

/-- The blocks in use after a granted request are those before it and the new one. -/
theorem mem_taken_allocate (h : b.allocate size = .ok (s, b')) (t : Span) :
    t ∈ b'.taken ↔ t = s ∨ t ∈ b.taken := by
  obtain ⟨-, -, -, -, rfl⟩ := allocate_eq_ok h
  exact (Span.perm_insert s b.taken).mem_iff.trans List.mem_cons

/-- A block lies inside the heap. -/
theorem Tiled.contains_of_mem (hb : b.Tiled) (hs : s ∈ b.taken) (ha : a ∈ s) :
    b.base ≤ a ∧ a < b.base + b.size :=
  (hb.divides.cover a).mp ⟨s, List.mem_append_right _ hs, ha⟩

/-- No two blocks have a cell in common. -/
theorem Tiled.apart_of_mem (hb : b.Tiled) {t : Span} (hs : s ∈ b.taken) (ht : t ∈ b.taken)
    (hne : s ≠ t) : s.Apart t :=
  (List.pairwise_append.mp hb.divides.apart).2.1.forall hs ht hne

end Blocks

namespace Heap

/-! ## Requests -/

/-- What can be asked of a heap: blocks are reserved and released, and cells filled and emptied
wherever they lie. -/
inductive Request where
  | allocate (size : Nat)
  | write (address : Nat) (v : Value)
  | clear (address : Nat)
  | release (reference : Nat)

/-- The heap that is left: the one before, if the request is refused.  That a refused request
changes nothing is in the form of its result, which then holds no heap; it is so because blocks and
cells are changed only after the last check that can fail. -/
def settle (h : Heap) : Except HeapError Heap → Heap
  | .ok h' => h'
  | .error _ => h

/-- The heap after a request. -/
def serve (h : Heap) : Request → Heap
  | .allocate size => h.settle ((·.2) <$> h.allocate size)
  | .write address v => h.settle (h.write address (some v))
  | .clear address => h.settle (h.write address none)
  | .release reference => h.settle ((·.2) <$> h.release reference)

/-- The heap after requests. -/
def after (h : Heap) : List Request → Heap
  | [] => h
  | r :: rest => (h.serve r).after rest

variable {h h' : Heap}

theorem write_eq_ok {address : Nat} (hresult : h.write address v = .ok h') :
    h' = { h with cells := h.cells.setIfInBounds (address - h.blocks.base) v } := by
  unfold write at hresult
  split at hresult
  · cases hresult
    rfl
  · cases hresult

/-! ## Cells -/

theorem contains_iff :
    h.contains a = true ↔ h.blocks.base ≤ a ∧ a < h.blocks.base + h.blocks.size := by
  rw [contains, Blocks.contains, Bool.and_eq_true, decide_eq_true_eq, decide_eq_true_eq]

/-- The blocks divide the heap, and there is a cell for each of its addresses. -/
structure Sound (h : Heap) : Prop where
  tiled : h.blocks.Tiled
  size : h.cells.size = h.blocks.size

theorem Sound.write (hh : h.Sound) {address : Nat} (hresult : h.write address v = .ok h') :
    h'.Sound := by
  obtain rfl := write_eq_ok hresult
  refine ⟨hh.tiled, ?_⟩
  show (h.cells.setIfInBounds _ v).size = h.blocks.size
  rw [Array.size_setIfInBounds]
  exact hh.size

section

variable {a b : Nat} {w : Option Value}

/-- A cell holds what was written to it. -/
theorem Sound.read_of_write (hh : h.Sound) (hwrite : h.write a w = .ok h')
    (ha : h.contains a = true) : h'.read a = .ok w := by
  obtain rfl := write_eq_ok hwrite
  have hinside := contains_iff.mp ha
  have hsize := hh.size
  have hlt : a - h.blocks.base < h.cells.size := by omega
  show (if h.contains a = true then Except.ok ((h.cells.setIfInBounds _ w)[_]?.getD none) else _) =
      _
  rw [if_pos ha, Array.getElem?_setIfInBounds_self_of_lt hlt]
  rfl

/-- Writing to a cell leaves every other one. -/
theorem read_of_write_of_ne (hwrite : h.write a w = .ok h') (ha : h.contains a = true)
    (hne : b ≠ a) : h'.read b = h.read b := by
  obtain rfl := write_eq_ok hwrite
  show (if h.contains b = true then Except.ok ((h.cells.setIfInBounds _ w)[_]?.getD none) else _) =
      h.read b
  unfold read
  split
  · rename_i hb
    have hfirst := contains_iff.mp ha
    have hsecond := contains_iff.mp hb
    have hcells : a - h.blocks.base ≠ b - h.blocks.base := by omega
    rw [Array.getElem?_setIfInBounds_ne hcells]
  · rfl

end

/-- Cells of the heap are emptied without an error, and no others are.  By induction on their
number. -/
theorem Sound.emptyFrom_granted (hh : h.Sound) {first : Nat}
    (hinside : ∀ a, first ≤ a → a < first + n → h.contains a = true) :
    ∃ h', h.emptyFrom first n = .ok h' ∧ h'.Sound ∧ h'.blocks = h.blocks ∧
      ∀ a, h'.read a = if first ≤ a ∧ a < first + n then .ok none else h.read a := by
  induction n generalizing h first with
  | zero => exact ⟨h, rfl, hh, rfl, fun a => (if_neg (by omega)).symm⟩
  | succ n ih =>
    have hfirst := hinside first (Nat.le_refl _) (by omega)
    obtain ⟨h₁, hwrite⟩ : ∃ h₁, h.write first none = .ok h₁ := ⟨_, if_pos hfirst⟩
    have hblocks : h₁.blocks = h.blocks := by rw [write_eq_ok hwrite]
    have hrest : ∀ a, first + 1 ≤ a → a < first + 1 + n → h₁.contains a = true := by
      intro a hlo hhi
      rw [contains, hblocks]
      exact hinside a (by omega) (by omega)
    obtain ⟨h', hempty, hsound, hsame, hread⟩ := ih (hh.write hwrite) hrest
    refine ⟨h', ?_, hsound, hsame.trans hblocks, fun a => ?_⟩
    · rw [emptyFrom, hwrite]
      exact hempty
    · rw [hread]
      by_cases ha : a = first
      · subst ha
        rw [if_neg (by omega), if_pos (by omega)]
        exact hh.read_of_write hwrite hfirst
      · rw [read_of_write_of_ne hwrite hfirst ha]
        congr 1
        refine propext ?_
        omega

/-- The cells of a span are empty, and nothing else has changed. -/
structure Empties (h : Heap) (s : Span) (h' : Heap) : Prop where
  sound : h'.Sound
  blocks : h'.blocks = h.blocks
  empty : ∀ a ∈ s, h'.read a = .ok none
  others : ∀ a, a ∉ s → h'.read a = h.read a

/-- The cells of a block in use can be emptied: all of them are cells of the heap, so no access to
them fails. -/
theorem Sound.emptySpan_granted (hh : h.Sound) (hs : s ∈ h.blocks.taken) :
    ∃ h', h.emptySpan s = .ok h' ∧ h.Empties s h' := by
  have hnonempty : s.first ≤ s.last := hh.tiled.divides.nonempty s (List.mem_append_right _ hs)
  have hcells : ∀ a, s.first ≤ a ∧ a < s.first + s.length ↔ a ∈ s := by
    intro a
    rw [Span.mem_iff, Span.length]
    omega
  obtain ⟨h', hempty, hsound, hblocks, hread⟩ := hh.emptyFrom_granted fun a hlo hhi =>
    contains_iff.mpr (hh.tiled.contains_of_mem hs ((hcells a).mp ⟨hlo, hhi⟩))
  refine ⟨h', hempty, hsound, hblocks, fun a ha => ?_, fun a ha => ?_⟩
  · rw [hread, if_pos ((hcells a).mpr ha)]
  · rw [hread, if_neg (mt (hcells a).mp ha)]

/-- What a cell holds depends on the cells and on where the heap lies, not on the blocks. -/
theorem read_withBlocks (h : Heap) (hbase : blocks.base = h.blocks.base)
    (hsize : blocks.size = h.blocks.size) (a : Nat) :
    ({ h with blocks := blocks } : Heap).read a = h.read a := by
  unfold read contains Blocks.contains
  rw [hbase, hsize]

/-! ## What every heap keeps to -/

theorem sound_ofSize (base size : Nat) : (ofSize base size).Sound :=
  ⟨Blocks.tiled_ofSize base size, Array.size_replicate⟩

/-- Emptying cells changes no block, in whatever state the heap is.  By induction on the number of
cells. -/
theorem emptyFrom_blocks {first : Nat} (hempty : h.emptyFrom first n = .ok h') :
    h'.blocks = h.blocks := by
  induction n generalizing h first with
  | zero =>
    cases hempty
    rfl
  | succ n ih =>
    rw [emptyFrom] at hempty
    split at hempty
    · cases hempty
    · rename_i h₁ hwrite
      rw [ih hempty, write_eq_ok hwrite]

/-- A block comes from the free blocks. -/
theorem allocate_blocks (hresult : h.allocate size = .ok (s, h')) :
    h.blocks.allocate size = .ok (s, h'.blocks) := by
  unfold allocate at hresult
  split at hresult
  · cases hresult
  rename_i t blocks hblocks
  cases hempty : ({ h with blocks := blocks } : Heap).emptySpan t with
  | error e =>
    rw [hempty] at hresult
    cases hresult
  | ok h₁ =>
    rw [hempty] at hresult
    cases hresult
    rw [hblocks, emptyFrom_blocks hempty]

/-- A block that is granted can be emptied. -/
theorem Sound.allocate_granted (hh : h.Sound) (hblocks : h.blocks.allocate size = .ok (s, blocks)) :
    ∃ h', h.allocate size = .ok (s, h') ∧ ({ h with blocks := blocks } : Heap).Empties s h' := by
  have hsize : h.cells.size = blocks.size := hh.size.trans (Blocks.extent_allocate hblocks).2.symm
  have hsound : ({ h with blocks := blocks } : Heap).Sound := ⟨hh.tiled.allocate hblocks, hsize⟩
  have hmem : s ∈ blocks.taken := (Blocks.mem_taken_allocate hblocks s).mpr (Or.inl rfl)
  obtain ⟨h', hempty, hempties⟩ := hsound.emptySpan_granted hmem
  refine ⟨h', ?_, hempties⟩
  rw [Heap.allocate, hblocks]
  dsimp only
  rw [hempty]
  rfl

/-- A block is granted exactly when one is found, and is then empty. -/
theorem Sound.allocate_eq_ok (hh : h.Sound) (hresult : h.allocate size = .ok (s, h')) :
    ∃ blocks, h.blocks.allocate size = .ok (s, blocks) ∧
      ({ h with blocks := blocks } : Heap).Empties s h' := by
  cases hblocks : h.blocks.allocate size with
  | error e =>
    rw [Heap.allocate, hblocks] at hresult
    cases hresult
  | ok found =>
    obtain ⟨t, blocks⟩ := found
    obtain ⟨h'', hgranted, hempties⟩ := hh.allocate_granted hblocks
    rw [hresult] at hgranted
    cases hgranted
    exact ⟨blocks, rfl, hempties⟩

/-- A request for a block fails only where no block is found. -/
theorem Sound.allocate_eq_error (hh : h.Sound) (hresult : h.allocate size = .error e) :
    h.blocks.allocate size = .error e := by
  cases hblocks : h.blocks.allocate size with
  | error e' =>
    rw [Heap.allocate, hblocks] at hresult
    cases hresult
    rfl
  | ok found =>
    obtain ⟨h'', hgranted, -⟩ := hh.allocate_granted hblocks
    rw [hresult] at hgranted
    cases hgranted

theorem Sound.allocate (hh : h.Sound) (hresult : h.allocate size = .ok (s, h')) : h'.Sound := by
  obtain ⟨blocks, -, hempties⟩ := hh.allocate_eq_ok hresult
  exact hempties.sound

/-- A block in use can be emptied and given back. -/
theorem Sound.releaseBlock_of_release (hh : h.Sound)
    (hblocks : h.blocks.release reference = .ok (s, blocks)) :
    ∃ h₁, h.releaseBlock reference = .ok (s, { h₁ with blocks := blocks }) ∧ h.Empties s h₁ := by
  have hmem : s ∈ h.blocks.taken := (Blocks.mem_taken_of_block? (Blocks.release_eq_ok hblocks).1).1
  obtain ⟨h₁, hempty, hempties⟩ := hh.emptySpan_granted hmem
  refine ⟨h₁, ?_, hempties⟩
  rw [Heap.releaseBlock, hblocks]
  dsimp only
  rw [hempty]
  rfl

theorem Sound.releaseBlock (hh : h.Sound) (hresult : h.releaseBlock reference = .ok (s, h')) :
    h'.Sound := by
  cases hblocks : h.blocks.release reference with
  | error e =>
    rw [Heap.releaseBlock, hblocks] at hresult
    cases hresult
  | ok found =>
    obtain ⟨t, blocks⟩ := found
    obtain ⟨h₁, hgranted, hempties⟩ := hh.releaseBlock_of_release hblocks
    rw [hresult] at hgranted
    cases hgranted
    refine ⟨hh.tiled.release hblocks, ?_⟩
    show h₁.cells.size = blocks.size
    rw [(Blocks.extent_release hblocks).2, hempties.sound.size, hempties.blocks]

/-- What giving back any one block keeps, giving back several keeps.  By induction on the list of
references. -/
theorem releaseEach_induction
    (hstep : ∀ {h h' : Heap} {r : Nat} {s : Span}, P h → h.releaseBlock r = .ok (s, h') → P h')
    {references : List Nat} (hh : P h) (hresult : h.releaseEach references = .ok (spans, h')) :
    P h' := by
  induction references generalizing h spans with
  | nil =>
    cases hresult
    exact hh
  | cons r rest ih =>
    rw [Heap.releaseEach] at hresult
    split at hresult
    · cases hresult
    rename_i s h₁ hfirst
    split at hresult
    · cases hresult
    rename_i spans' h₂ hrest
    cases hresult
    exact ih (hstep hh hfirst) hrest

/-- What giving back any one block keeps, a release keeps. -/
theorem release_induction
    (hstep : ∀ {h h' : Heap} {r : Nat} {s : Span}, P h → h.releaseBlock r = .ok (s, h') → P h')
    (hh : P h) (hresult : h.release reference = .ok (spans, h')) : P h' := by
  unfold Heap.release at hresult
  split at hresult
  · split at hresult
    · cases hresult
    · exact releaseEach_induction hstep hh hresult
  · cases hresult

theorem Sound.release (hh : h.Sound) (hresult : h.release reference = .ok (spans, h')) : h'.Sound :=
  release_induction (fun hh hresult => hh.releaseBlock hresult) hh hresult

theorem extent_releaseBlock (hresult : h.releaseBlock reference = .ok (s, h')) :
    h'.blocks.base = h.blocks.base ∧ h'.blocks.size = h.blocks.size := by
  unfold releaseBlock at hresult
  split at hresult
  · cases hresult
  rename_i t blocks hblocks
  cases hempty : h.emptySpan t with
  | error e =>
    rw [hempty] at hresult
    cases hresult
  | ok h₁ =>
    rw [hempty] at hresult
    cases hresult
    exact Blocks.extent_release hblocks

/-- The heap stays where it is, whatever is given back. -/
theorem extent_release (hresult : h.release reference = .ok (spans, h')) :
    h'.blocks.base = h.blocks.base ∧ h'.blocks.size = h.blocks.size := by
  refine release_induction (P := fun k => k.blocks.base = h.blocks.base ∧
    k.blocks.size = h.blocks.size) ?_ ⟨rfl, rfl⟩
    hresult
  intro k k' r s hk hrelease
  obtain ⟨hbase, hsize⟩ := extent_releaseBlock hrelease
  exact ⟨hbase.trans hk.1, hsize.trans hk.2⟩

/-- The heap that is left is sound if the one that a granted request makes is. -/
theorem Sound.settle (hh : h.Sound) {result : Except HeapError Heap}
    (hresult : ∀ h', result = .ok h' → h'.Sound) : (h.settle result).Sound := by
  cases result with
  | ok h' => exact hresult h' rfl
  | error e => exact hh

/-- A request keeps the heap sound. -/
theorem Sound.serve (hh : h.Sound) (r : Request) : (h.serve r).Sound := by
  cases r with
  | allocate size =>
    refine hh.settle fun h' hresult => ?_
    cases hallocate : h.allocate size with
    | error e =>
      rw [hallocate] at hresult
      cases hresult
    | ok granted =>
      rw [hallocate] at hresult
      cases hresult
      exact hh.allocate hallocate
  | write address v => exact hh.settle fun h' hresult => hh.write hresult
  | clear address => exact hh.settle fun h' hresult => hh.write hresult
  | release reference =>
    refine hh.settle fun h' hresult => ?_
    cases hrelease : h.release reference with
    | error e =>
      rw [hrelease] at hresult
      cases hresult
    | ok released =>
      rw [hrelease] at hresult
      cases hresult
      exact hh.release hrelease

/-- So does any number of requests. -/
theorem Sound.after (hh : h.Sound) (requests : List Request) : (h.after requests).Sound := by
  induction requests generalizing h with
  | nil => exact hh
  | cons r rest ih => exact ih (hh.serve r)

/-! ## Allocation -/

/-- What a granted request for a block does: the block is the beginning of the longest run of free
cells, its cells are empty, and no other cell or block has changed. -/
structure Grants (h : Heap) (n : Nat) (s : Span) (h' : Heap) : Prop where
  place : ∃ run, h.blocks.IsLongestRun run ∧ n ≤ run.length ∧ s = ⟨run.first, run.first + n - 1⟩
  apart : ∀ t ∈ h.blocks.taken, s.Apart t
  empty : ∀ a ∈ s, h'.read a = .ok none
  others : ∀ a, a ∉ s → h'.read a = h.read a
  taken : ∀ t, t ∈ h'.blocks.taken ↔ t = s ∨ t ∈ h.blocks.taken

/-- A granted block lies in a longest free run and is empty. -/
theorem Sound.grants (hh : h.Sound) (hresult : h.allocate size = .ok (s, h')) :
    h.Grants (max size 1) s h' := by
  obtain ⟨blocks, hblocks, hempties⟩ := hh.allocate_eq_ok hresult
  obtain ⟨run, hrun, hroom, hs, -⟩ := Blocks.allocate_eq_ok hblocks
  obtain ⟨hbase, hsize⟩ := Blocks.extent_allocate hblocks
  have htiled := hh.tiled.allocate hblocks
  have htaken := Blocks.mem_taken_allocate hblocks
  have hlongest := hh.tiled.isLongestRun hrun
  have hmem : s ∈ blocks.taken := (htaken s).mpr (Or.inl rfl)
  have hnonempty : s.first ≤ s.last := htiled.divides.nonempty s (List.mem_append_right _ hmem)
  have hinside : ∀ a ∈ s, a ∈ run := by
    intro a ha
    rw [hs, Span.mem_iff] at ha
    have hlength := hlongest.isRun.nonempty
    unfold Span.length at hroom
    dsimp only at ha
    rw [Span.mem_iff]
    omega
  refine ⟨⟨run, hlongest, hroom, hs⟩, ?_, hempties.empty, ?_, ?_⟩
  · intro t ht
    refine htiled.apart_of_mem hmem ((htaken t).mpr (Or.inr ht)) ?_
    rintro rfl
    -- a block that was in use has no free cell
    have hfirst := hinside s.first ⟨Nat.le_refl _, hnonempty⟩
    exact (hlongest.isRun.free s.first hfirst).2 s ht ⟨Nat.le_refl _, hnonempty⟩
  · intro a ha
    exact (hempties.others a ha).trans (read_withBlocks h hbase hsize a)
  · intro t
    rw [hempties.blocks]
    exact htaken t

/-- **Allocation is complete, fresh and atomic.** In every heap that requests lead to, a block is
granted exactly when there are so many free cells one after another (a block has at least one
cell).  The block is then the beginning of the longest run of free cells, the lowest on a tie; it
overlaps no block in use, all its cells are empty, and nothing else has changed.  A request that is
refused reports how many cells were asked for and how many free cells there are at most one after
another, and the heap stays as it is. -/
theorem allocation_is_complete (base size : Nat) (requests : List Request) (n : Nat) :
    let h := (ofSize base size).after requests
    ((∃ s h', h.allocate n = .ok (s, h')) ↔ h.blocks.HasRoom (max n 1)) ∧
      (∀ s h', h.allocate n = .ok (s, h') → h.Grants (max n 1) s h') ∧
      ∀ e, h.allocate n = .error e →
        (∃ largest, e = .exhausted (max n 1) largest ∧
          IsGreatest {k | h.blocks.HasRoom k} largest) ∧
          h.serve (.allocate n) = h := by
  intro h
  have hh : h.Sound := (sound_ofSize base size).after requests
  refine ⟨?_, fun s h' hresult => hh.grants hresult, ?_⟩
  · rw [hh.tiled.hasRoom_iff, ← Blocks.allocate_isOk_iff]
    constructor
    · rintro ⟨s, h', hresult⟩
      obtain ⟨blocks, hblocks, -⟩ := hh.allocate_eq_ok hresult
      exact ⟨s, blocks, hblocks⟩
    · rintro ⟨s, blocks, hblocks⟩
      obtain ⟨h', hgranted, -⟩ := hh.allocate_granted hblocks
      exact ⟨s, h', hgranted⟩
  · intro e hresult
    obtain ⟨-, he⟩ := Blocks.allocate_eq_error_iff.mp (hh.allocate_eq_error hresult)
    refine ⟨⟨h.blocks.largest, he, ?_, ?_⟩, ?_⟩
    · exact (hh.tiled.hasRoom_iff _).mpr (Nat.le_refl _)
    · intro k hk
      exact (hh.tiled.hasRoom_iff k).mp hk
    · rw [serve, hresult]
      rfl

/-- Two runs of three free cells each; in the lower one a cell was filled after its block had been
released. -/
def dangling : List Request :=
  [.allocate 3, .allocate 2, .allocate 1, .release 10, .write 11 (.int 7)]

theorem allocation_is_complete_dangling :
    ((ofSize 10 9).after dangling).read 11 = .ok (some (.int 7)) ∧
      (∃ h', ((ofSize 10 9).after dangling).allocate 2 = .ok (⟨10, 11⟩, h') ∧
        ((ofSize 10 9).after dangling).Grants 2 ⟨10, 11⟩ h' ∧ h'.read 11 = .ok none) ∧
      ((ofSize 10 9).after dangling).allocate 4 = .error (.exhausted 4 3) ∧
      IsGreatest {k | ((ofSize 10 9).after dangling).blocks.HasRoom k} 3 := by
  have hrefused : ((ofSize 10 9).after dangling).allocate 4 = .error (.exhausted 4 3) := by cbv
  obtain ⟨⟨largest, he, hgreatest⟩, -⟩ := (allocation_is_complete 10 9 dangling 4).2.2 _ hrefused
  cases he
  have hblock : (·.1) <$> ((ofSize 10 9).after dangling).allocate 2 = .ok ⟨10, 11⟩ := by cbv
  cases hresult : ((ofSize 10 9).after dangling).allocate 2 with
  | error e =>
    rw [hresult] at hblock
    cases hblock
  | ok granted =>
    obtain ⟨s, h'⟩ := granted
    rw [hresult] at hblock
    cases hblock
    have hgrants := (allocation_is_complete 10 9 dangling 2).2.1 _ _ hresult
    exact ⟨by cbv, ⟨h', rfl, hgrants, hgrants.empty 11 (by decide)⟩, hrefused, hgreatest⟩

end Heap

end Quadruple
