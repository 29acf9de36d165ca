/-
  Releasing a block releases the blocks that can be reached from it, and no others.

  A block points to another when one of its cells holds the start of the other (`Points`).  Pointers
  to the inside of blocks, to blocks no longer in use and to anything else lead nowhere.  What can
  be reached is what a chain of such pointers leads to (`Reaches`); the pointers may share blocks
  and go round in circles.

  The search for these blocks has a stack of blocks to visit and a list of blocks visited.  One
  invariant carries it (`Searching`): everything met can be reached, nothing is recorded twice, and
  what a recorded block points to is recorded or still on the stack.  So when the stack is empty
  (`Searching.mem_iff`):

      b ∈ found  ↔  h.Reaches reference b

  The blocks are given back one after another.  They are different blocks in use, so none of them is
  refused, and each takes with it its own cells only (`Frees`).
-/
import Mathlib.Logic.Relation
import Quadruple.Proofs.HeapAllocation
import Quadruple.Proofs.HeapHistory

namespace Quadruple.Heap

variable {h h' h'' : Heap}
variable {s : Span}

/-! ## What can be reached -/

/-- A block in use starts there. -/
def Starts (h : Heap) (r : Nat) : Prop := ∃ s ∈ h.blocks.taken, s.first = r

/-- A cell of the block at one reference holds a pointer to the start of a block in use. -/
def Points (h : Heap) (r t : Nat) : Prop :=
  h.Starts t ∧ ∃ s ∈ h.blocks.taken, s.first = r ∧ ∃ a ∈ s, h.read a = .ok (some (.pointer t))

/-- Pointers lead from one reference to the other. -/
def Reaches (h : Heap) : Nat → Nat → Prop := Relation.ReflTransGen h.Points

theorem isTaken_iff (h : Heap) (r : Nat) : h.blocks.isTaken r = true ↔ h.Starts r := by
  rw [Blocks.isTaken, Blocks.block?, Starts, List.find?_isSome]
  simp only [beq_iff_eq]

theorem block?_eq_none_iff (h : Heap) (r : Nat) : h.blocks.block? r = none ↔ ¬ h.Starts r := by
  rw [← isTaken_iff, Blocks.isTaken, Bool.not_eq_true, Option.isSome_eq_false_iff,
    Option.isNone_iff_eq_none]

/-- What the cell of an address holds. -/
def cell (h : Heap) (a : Nat) : Option Value := h.cells[a - h.blocks.base]?.getD none

/-- The starts of blocks in use that the cells of a span point to, in cell order. -/
def pointees (h : Heap) (s : Span) : List Nat := s.cells.filterMap fun a => h.target? (h.cell a)

theorem read_of_contains {a : Nat} (ha : h.contains a = true) :
    h.read a = .ok (h.cell a) := if_pos ha

/-- Looking for pointers in cells of the heap never fails.  By induction on their number. -/
theorem targetsFrom_eq {first n : Nat}
    (hinside : ∀ a, first ≤ a → a < first + n → h.contains a = true) :
    h.targetsFrom first n = .ok ((List.range' first n).filterMap fun a =>
      h.target? (h.cell a)) := by
  induction n generalizing first with
  | zero => rfl
  | succ n ih =>
    have hrest : h.targetsFrom (first + 1) n = _ :=
      ih fun a hlo hhi => hinside a (by omega) (by omega)
    rw [targetsFrom, read_of_contains (hinside first (Nat.le_refl _) (by omega)), List.range'_succ,
      List.filterMap_cons]
    dsimp only
    rw [hrest]
    cases h.target? (h.cell first) <;> rfl

/-- The cells of a block in use can all be read. -/
theorem Sound.targets_eq (hh : h.Sound) (hs : s ∈ h.blocks.taken) :
    h.targets s = .ok (h.pointees s) := by
  have hnonempty : s.first ≤ s.last := hh.tiled.divides.nonempty s (List.mem_append_right _ hs)
  refine targetsFrom_eq fun a hlo hhi => contains_iff.mpr (hh.tiled.contains_of_mem hs ?_)
  unfold Span.length at hhi
  rw [Span.mem_iff]
  omega

theorem target?_eq_some_iff {v : Option Value} {t : Nat} :
    h.target? v = some t ↔ h.Starts t ∧ v = some (.pointer t) := by
  unfold target?
  split
  · rename_i t'
    rw [Option.ite_none_right_eq_some, isTaken_iff, Option.some.injEq, Option.some.injEq,
      Value.pointer.injEq]
    constructor
    · rintro ⟨hstarts, rfl⟩
      exact ⟨hstarts, rfl⟩
    · rintro ⟨hstarts, rfl⟩
      exact ⟨hstarts, rfl⟩
  · rename_i hother
    exact iff_of_false nofun fun h => hother t h.2

/-- The search follows the pointers in the cells of a block. -/
theorem Sound.mem_pointees_iff (hh : h.Sound) (hs : s ∈ h.blocks.taken) (t : Nat) :
    t ∈ h.pointees s ↔ h.Points s.first t := by
  have hnonempty : s.first ≤ s.last := hh.tiled.divides.nonempty s (List.mem_append_right _ hs)
  have hread : ∀ a ∈ s, h.read a = .ok (h.cell a) := fun a ha =>
    read_of_contains (contains_iff.mpr (hh.tiled.contains_of_mem hs ha))
  rw [pointees, List.mem_filterMap]
  constructor
  · rintro ⟨a, ha, htarget⟩
    have ha := (Span.mem_cells hnonempty a).mp ha
    obtain ⟨hstarts, hcell⟩ := target?_eq_some_iff.mp htarget
    exact ⟨hstarts, s, hs, rfl, a, ha, (hread a ha).trans (congrArg _ hcell)⟩
  · rintro ⟨hstarts, s', hs', hfirst, a, ha, hpointer⟩
    -- one block only starts there
    obtain rfl :=
      hh.tiled.eq_of_first (List.mem_append_right _ hs') (List.mem_append_right _ hs) hfirst
    rw [hread a ha, Except.ok.injEq] at hpointer
    exact ⟨a, (Span.mem_cells hnonempty a).mpr ha, target?_eq_some_iff.mpr ⟨hstarts, hpointer⟩⟩

/-! ## The search -/

/-- The search where all cells can be read: the blocks that can be reached from those on the stack,
latest recorded first, before those already recorded. -/
def search (h : Heap) (stack found : List Nat) : List Nat :=
  match stack with
  | [] => found
  | b :: rest =>
    if _hb : found.contains b = true then search h rest found
    else
      match _hs : h.blocks.block? b with
      | none => search h rest found
      | some s =>
        let fresh := (h.pointees s).filter fun t => !(b :: found).contains t
        search h (fresh.reverse ++ rest) (b :: found)
termination_by (h.unrecorded found, stack.length)
decreasing_by
  · exact Prod.Lex.right _ (by simp)
  · exact Prod.Lex.right _ (by simp)
  · exact Prod.Lex.left _ _ (unrecorded_cons_lt h _hs _hb)

/-- The search never meets a cell that it cannot read. -/
theorem Sound.collect_eq (hh : h.Sound) (stack found : List Nat) :
    h.collect stack found = .ok (h.search stack found) := by
  fun_induction h.search stack found with
  | case1 found => rw [collect]
  | case2 found b rest hb ih => rw [collect, dif_pos hb, ih]
  | case3 found b rest hb hnone ih =>
    rw [collect, dif_neg hb]
    split
    · exact ih
    rename_i s hs
    rw [hnone] at hs
    cases hs
  | case4 found b rest hb s hs fresh ih =>
    rw [collect, dif_neg hb]
    split
    · rename_i hnone
      rw [hs] at hnone
      cases hnone
    · rename_i s' hs'
      rw [hs] at hs'
      cases hs'
      rw [hh.targets_eq (Blocks.mem_taken_of_block? hs).1]
      exact ih

/-- How the search for what a reference reaches stands. -/
structure Searching (h : Heap) (reference : Nat) (stack found : List Nat) : Prop where
  used : h.Starts reference
  root : reference ∈ found ∨ reference ∈ stack
  starts : ∀ b ∈ found, h.Starts b
  nodup : found.Nodup
  reached : ∀ b, b ∈ found ∨ b ∈ stack → h.Reaches reference b
  closed : ∀ b ∈ found, ∀ t, h.Points b t → t ∈ found ∨ t ∈ stack

variable {reference b : Nat} {stack rest found : List Nat}

/-- The search starts at the block itself. -/
theorem searching_start (hused : h.Starts reference) : h.Searching reference [reference] [] := by
  refine ⟨hused, Or.inr List.mem_cons_self, ?_, List.nodup_nil, ?_, ?_⟩
  · rintro b ⟨⟩
  · rintro b (⟨⟨⟩⟩ | hb)
    obtain rfl := List.mem_singleton.mp hb
    exact .refl
  · rintro b ⟨⟩

/-- A block that is recorded, or no block at all, may be taken from the stack. -/
theorem Searching.skip (hsearch : h.Searching reference (b :: rest) found)
    (hskip : h.Starts b → b ∈ found) : h.Searching reference rest found := by
  have hkept : ∀ t, h.Starts t → t ∈ found ∨ t ∈ b :: rest → t ∈ found ∨ t ∈ rest := by
    rintro t ht (hfound | hstack)
    · exact Or.inl hfound
    · rcases List.mem_cons.mp hstack with rfl | hrest
      · exact Or.inl (hskip ht)
      · exact Or.inr hrest
  refine ⟨hsearch.used, hkept _ hsearch.used hsearch.root, hsearch.starts, hsearch.nodup, ?_, ?_⟩
  · intro t ht
    exact hsearch.reached t (ht.imp_right (List.mem_cons_of_mem b))
  · intro c hc t hpoints
    exact hkept t hpoints.1 (hsearch.closed c hc t hpoints)

/-- A block is recorded, and what it points to and is not recorded yet goes on the stack. -/
theorem Searching.visit (hsearch : h.Searching reference (b :: rest) found) (hh : h.Sound)
    (hb : b ∉ found) (hs : s ∈ h.blocks.taken) (hfirst : s.first = b) :
    h.Searching reference (((h.pointees s).filter fun t => !(b :: found).contains t).reverse ++
      rest) (b :: found) := by
  subst hfirst
  have hfresh : ∀ t, t ∈ ((h.pointees s).filter fun t => !(s.first :: found).contains t).reverse ++
      rest ↔
      h.Points s.first t ∧ t ∉ s.first :: found ∨ t ∈ rest := by
    intro t
    rw [List.mem_append, List.mem_reverse, List.mem_filter, hh.mem_pointees_iff hs,
      Bool.not_eq_true', List.contains_eq_mem, decide_eq_false_iff_not]
  have hmet : ∀ t, t ∈ found ∨ t ∈ s.first :: rest → t ∈ s.first :: found ∨ t ∈ rest := by
    intro t ht
    simp only [List.mem_cons] at ht ⊢
    rcases ht with hfound | rfl | hrest
    · exact Or.inl (Or.inr hfound)
    · exact Or.inl (Or.inl rfl)
    · exact Or.inr hrest
  refine ⟨hsearch.used, ?_, ?_, List.nodup_cons.mpr ⟨hb, hsearch.nodup⟩, ?_, ?_⟩
  · exact (hmet _ hsearch.root).imp_right fun hrest => (hfresh _).mpr (Or.inr hrest)
  · exact List.forall_mem_cons.mpr ⟨⟨s, hs, rfl⟩, hsearch.starts⟩
  · have hreached : h.Reaches reference s.first := hsearch.reached _ (Or.inr List.mem_cons_self)
    rintro t (hfound | hstack)
    · rcases List.mem_cons.mp hfound with rfl | hfound
      · exact hreached
      · exact hsearch.reached t (Or.inl hfound)
    · rcases (hfresh t).mp hstack with ⟨hpoints, -⟩ | hrest
      · exact hreached.tail hpoints
      · exact hsearch.reached t (Or.inr (List.mem_cons_of_mem _ hrest))
  · intro c hc t hpoints
    rw [hfresh]
    rcases List.mem_cons.mp hc with rfl | hc
    · by_cases ht : t ∈ s.first :: found
      · exact Or.inl ht
      · exact Or.inr (Or.inl ⟨hpoints, ht⟩)
    · exact (hmet t (hsearch.closed c hc t hpoints)).imp_right Or.inr

/-- The search goes on until the stack is empty. -/
theorem Searching.search (hh : h.Sound) (hsearch : h.Searching reference stack found) :
    h.Searching reference [] (h.search stack found) := by
  fun_induction h.search stack found with
  | case1 found => exact hsearch
  | case2 found b rest hb ih => exact ih (hsearch.skip fun _ => List.contains_iff_mem.mp hb)
  | case3 found b rest hb hnone ih =>
    exact ih (hsearch.skip fun hstarts => ((block?_eq_none_iff h b).mp hnone hstarts).elim)
  | case4 found b rest hb s hs fresh ih =>
    obtain ⟨hmem, hfirst⟩ := Blocks.mem_taken_of_block? hs
    exact ih (hsearch.visit hh (fun hfound => hb (List.contains_iff_mem.mpr hfound)) hmem hfirst)

/-- When nothing is left to visit, the recorded blocks are those that can be reached. -/
theorem Searching.mem_iff (hsearch : h.Searching reference [] found) (b : Nat) :
    b ∈ found ↔ h.Reaches reference b := by
  constructor
  · intro hb
    exact hsearch.reached b (Or.inl hb)
  · intro hreaches
    induction hreaches with
    | refl => exact hsearch.root.resolve_right List.not_mem_nil
    | tail _ hpoints ih => exact (hsearch.closed _ ih _ hpoints).resolve_right List.not_mem_nil

/-! ## Giving back -/

/-- The blocks are no longer in use and their cells are empty; no other block or cell has changed.
-/
structure Frees (h : Heap) (spans : List Span) (h' : Heap) : Prop where
  taken : ∀ s, s ∈ h'.blocks.taken ↔ s ∈ h.blocks.taken ∧ s ∉ spans
  empty : ∀ s ∈ spans, ∀ a ∈ s, h'.read a = .ok none
  others : ∀ a, (∀ s ∈ spans, a ∉ s) → h'.read a = h.read a

theorem frees_nil (h : Heap) : h.Frees [] h := by
  refine ⟨fun s => ⟨fun hs => ⟨hs, List.not_mem_nil⟩, And.left⟩, ?_, fun _ _ => rfl⟩
  rintro s ⟨⟩

theorem Frees.cons {spans : List Span} (hfirst : h.Frees [s] h') (hrest : h'.Frees spans h'') :
    h.Frees (s :: spans) h'' := by
  refine ⟨?_, ?_, ?_⟩
  · intro t
    rw [hrest.taken, hfirst.taken, List.mem_singleton, List.mem_cons, not_or, and_assoc]
  · intro t ht a ha
    -- whether the blocks have cells in common does not matter: a cell that is emptied twice is
    -- empty
    by_cases hlater : ∃ u ∈ spans, a ∈ u
    · obtain ⟨u, hu, hau⟩ := hlater
      exact hrest.empty u hu a hau
    · have hnot : ∀ u ∈ spans, a ∉ u := fun u hu hau => hlater ⟨u, hu, hau⟩
      rcases List.mem_cons.mp ht with rfl | ht
      · rw [hrest.others a hnot]
        exact hfirst.empty t List.mem_cons_self a ha
      · exact (hnot t ht ha).elim
  · intro a ha
    obtain ⟨hs, hspans⟩ := List.forall_mem_cons.mp ha
    rw [hrest.others a hspans, hfirst.others a (List.forall_mem_singleton.mpr hs)]

/-- A block in use can be given back, and only its own cells go with it. -/
theorem Sound.releaseBlock_granted (hh : h.Sound) (hs : s ∈ h.blocks.taken) :
    ∃ h', h.releaseBlock s.first = .ok (s, h') ∧ h.Frees [s] h' := by
  have hblock : h.blocks.block? s.first = some s := (hh.tiled.block?_eq_some_iff _ s).mpr ⟨hs, rfl⟩
  obtain ⟨blocks, hblocks⟩ : ∃ blocks, h.blocks.release s.first = .ok (s, blocks) := by
    rw [Blocks.release, hblock]
    exact ⟨_, rfl⟩
  obtain ⟨hbase, hsize⟩ := Blocks.extent_release hblocks
  obtain ⟨h₁, hgranted, hempties⟩ := hh.releaseBlock_of_release hblocks
  have hkept : ∀ a, ({ h₁ with blocks := blocks } : Heap).read a = h₁.read a :=
    read_withBlocks h₁ (by rw [hbase, hempties.blocks]) (by rw [hsize, hempties.blocks])
  refine ⟨_, hgranted, ?_, ?_, ?_⟩
  · intro t
    obtain ⟨-, rfl⟩ := Blocks.release_eq_ok hblocks
    show t ∈ h.blocks.taken.filter _ ↔ _
    rw [List.mem_filter, decide_eq_true_iff, List.mem_singleton]
  · intro t ht a ha
    obtain rfl := List.mem_singleton.mp ht
    rw [hkept]
    exact hempties.empty a ha
  · intro a ha
    rw [hkept]
    exact hempties.others a (ha s List.mem_cons_self)

/-- Different blocks in use can be given back one after another. -/
theorem Sound.releaseEach_granted (hh : h.Sound) {references : List Nat} (hnodup : references.Nodup)
    (hstarts : ∀ r ∈ references, h.Starts r) :
    ∃ spans h', h.releaseEach references = .ok (spans, h') ∧ spans.map Span.first = references ∧
      (∀ s ∈ spans, s ∈ h.blocks.taken) ∧ h.Frees spans h' := by
  induction references generalizing h with
  | nil => exact ⟨[], h, rfl, rfl, fun s hs => (List.not_mem_nil hs).elim, frees_nil h⟩
  | cons r rest ih =>
    obtain ⟨⟨s, hs, rfl⟩, hrest⟩ := List.forall_mem_cons.mp hstarts
    obtain ⟨hnew, hnodup⟩ := List.nodup_cons.mp hnodup
    obtain ⟨h₁, hfirst, hfrees⟩ := hh.releaseBlock_granted hs
    have hkept : ∀ r ∈ rest, h₁.Starts r := by
      intro r hr
      obtain ⟨t, ht, rfl⟩ := hrest r hr
      refine ⟨t, (hfrees.taken t).mpr ⟨ht, ?_⟩, rfl⟩
      rw [List.mem_singleton]
      rintro rfl
      exact hnew hr
    obtain ⟨spans, h₂, heach, hfirsts, hused, hfrees'⟩ := ih (hh.releaseBlock hfirst) hnodup hkept
    refine ⟨s :: spans, h₂, ?_, ?_, ?_, hfrees.cons hfrees'⟩
    · rw [Heap.releaseEach, hfirst]
      dsimp only
      rw [heach]
    · rw [List.map_cons, hfirsts]
    · exact List.forall_mem_cons.mpr ⟨hs, fun t ht => ((hfrees.taken t).mp (hused t ht)).1⟩

/-- **Releasing a block frees exactly what can be reached from it.** In every heap that requests
lead to, whatever its cells point to: at the start of a block in use the release succeeds, and the
blocks it gives back, each listed once, are those that pointers lead to from there; their cells are
empty, and every other block and cell is as it was.  At any other reference it is refused, and the
heap stays as it is. -/
theorem release_frees_reachable (base size : Nat) (requests : List Request) (reference : Nat) :
    let h := (ofSize base size).after requests
    (h.Starts reference → ∃ spans h', h.release reference = .ok (spans, h') ∧ spans.Nodup ∧
        (∀ s, s ∈ spans ↔ s ∈ h.blocks.taken ∧ h.Reaches reference s.first) ∧ h.Frees spans h') ∧
      (¬ h.Starts reference →
        h.release reference = .error (.notAllocated reference) ∧
        h.serve (.release reference) = h) := by
  intro h
  have hh : h.Sound := (sound_ofSize base size).after requests
  constructor
  · intro hused
    have hsearch := (searching_start hused).search hh
    obtain ⟨spans, h', heach, hfirsts, hmem, hfrees⟩ :=
      hh.releaseEach_granted hsearch.nodup hsearch.starts
    refine ⟨spans, h', ?_, ?_, ?_, hfrees⟩
    · rw [release, if_pos ((isTaken_iff h reference).mpr hused), hh.collect_eq]
      exact heach
    · refine List.Nodup.of_map Span.first ?_
      rw [hfirsts]
      exact hsearch.nodup
    · intro s
      rw [← hsearch.mem_iff, ← hfirsts]
      constructor
      · intro hs
        exact ⟨hmem s hs, List.mem_map_of_mem hs⟩
      · rintro ⟨hs, hfirst⟩
        obtain ⟨t, ht, hsame⟩ := List.mem_map.mp hfirst
        obtain rfl :=
          hh.tiled.eq_of_first (List.mem_append_right _ (hmem t ht)) (List.mem_append_right _ hs)
            hsame
        exact ht
  · intro hunused
    have hrefused : h.release reference = .error (.notAllocated reference) := by
      rw [release, if_neg fun htaken => hunused ((isTaken_iff h reference).mp htaken)]
    refine ⟨hrefused, ?_⟩
    rw [serve, hrefused]
    rfl

/-- Five blocks.  The first three point to one another in a circle, the third to itself as well, and
a cell of the first to the inside of the second; the fourth points to the third and to a free cell.
-/
def tangled : List Request :=
  [.allocate 2, .allocate 2, .allocate 1, .allocate 2, .allocate 1, .write 0 (.pointer 2),
    .write 1 (.pointer 3), .write 2 (.pointer 4), .write 3 (.pointer 0), .write 4 (.pointer 4),
    .write 5 (.pointer 4), .write 6 (.pointer 9)]

theorem release_frees_reachable_tangled :
    ((ofSize 0 12).after tangled).Starts 0 ∧
      (∃ h', ((ofSize 0 12).after tangled).release 0 = .ok ([⟨4, 4⟩, ⟨2, 3⟩, ⟨0, 1⟩], h') ∧
        ((ofSize 0 12).after tangled).Reaches 0 4 ∧ ¬ ((ofSize 0 12).after tangled).Reaches 0 5 ∧
        ((ofSize 0 12).after tangled).Frees [⟨4, 4⟩, ⟨2, 3⟩, ⟨0, 1⟩] h') ∧
      ¬ ((ofSize 0 12).after tangled).Starts 3 ∧
      ((ofSize 0 12).after tangled).release 3 = .error (.notAllocated 3) := by
  have htaken : ((ofSize 0 12).after tangled).blocks.taken = [⟨0, 1⟩, ⟨2, 3⟩, ⟨4, 4⟩, ⟨5, 6⟩,
      ⟨7, 7⟩] := by decide +kernel
  have hstarts : ((ofSize 0 12).after tangled).Starts 0 := ⟨⟨0, 1⟩, by rw [htaken]; decide, rfl⟩
  have hinside : ¬ ((ofSize 0 12).after tangled).Starts 3 := by
    rw [Starts, htaken]
    decide
  obtain ⟨hgranted, -⟩ := release_frees_reachable 0 12 tangled 0
  obtain ⟨-, hrefused⟩ := release_frees_reachable 0 12 tangled 3
  obtain ⟨spans, h', hrelease, -, hspans, hfrees⟩ := hgranted hstarts
  have hlisted : (·.1) <$> ((ofSize 0 12).after tangled).release 0 = .ok [⟨4, 4⟩, ⟨2, 3⟩, ⟨0, 1⟩] :=
    by cbv
  rw [hrelease] at hlisted
  cases hlisted
  refine ⟨hstarts, ⟨h', hrelease, ?_, ?_, hfrees⟩, hinside, (hrefused hinside).1⟩
  · exact ((hspans ⟨4, 4⟩).mp List.mem_cons_self).2
  · intro hreaches
    have hmem := (hspans ⟨5, 6⟩).mpr ⟨by rw [htaken]; decide, hreaches⟩
    exact absurd hmem (by decide)

end Quadruple.Heap
