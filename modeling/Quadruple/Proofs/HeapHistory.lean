/-
  The heap forgets its history.

  What a heap answers depends on the blocks in use and on nothing else.  The bag of free spans does
  depend on what was asked for before, in its order; but its spans are the longest runs of free
  cells, so which spans it holds is settled by the blocks (`SameBlocks.mem_bag_iff`).  Two things
  then remain to be seen.  Among spans that start at different cells there is one that comes before
  all others, so the order of the bag does not show in the span that a block is cut from
  (`foremost?_congr`); and spans that end before the next one starts have one ascending order
  (`SameBlocks.free_eq`).

  So heaps with the same blocks give the same answer to a request and have the same blocks after it
  (`SameBlocks.serve`), and go on so for ever:

      SameBlocks b c  →  (b.serve r).1 = (c.serve r).1  ∧  SameBlocks (b.serve r).2 (c.serve r).2

  Blocks that are given back in whatever order leave
  the same blocks in use (`Tiled.mem_taken_releases`), and with none in use the heap is as good as
  new.
-/
import Quadruple.Proofs.Tiling

namespace Quadruple

/-- Of spans that start at different cells the same one comes before all others, in whatever order
they are listed. -/
theorem Span.foremost?_congr {l m : List Span}
    (hstarts : ∀ s ∈ l, ∀ t ∈ l, s.first = t.first → s = t) (hmem : ∀ s, s ∈ l ↔ s ∈ m) :
    foremost? l = foremost? m := by
  cases hl : foremost? l with
  | none =>
    have hnil : m = [] := by
      rw [List.eq_nil_iff_forall_not_mem]
      intro s hs
      rw [← hmem, eq_nil_of_foremost? hl] at hs
      cases hs
    rw [hnil]
    rfl
  | some s =>
    have hs := mem_of_foremost? hl
    cases hm : foremost? m with
    | none =>
      rw [hmem, eq_nil_of_foremost? hm] at hs
      cases hs
    | some t =>
      have ht := (hmem t).mpr (mem_of_foremost? hm)
      have hst := not_precedes_of_foremost? hm s ((hmem s).mp hs)
      have hts := not_precedes_of_foremost? hl t ht
      -- neither comes before the other, so they are of one length and start at one cell
      unfold Precedes at hst hts
      have hfirst : s.first = t.first := by omega
      rw [hstarts s hs t ht hfirst]

namespace Blocks

variable {b c : Blocks}

/-! ## Heaps with the same blocks -/

/-- Two heaps on the same cells with the same blocks in use. -/
structure SameBlocks (b c : Blocks) : Prop where
  base : b.base = c.base
  size : b.size = c.size
  taken : ∀ s, s ∈ b.taken ↔ s ∈ c.taken

/-- Two ways to go on from one heap can differ in the blocks only. -/
theorem sameBlocks_after {xs ys : List Request}
    (h : ∀ s, s ∈ (b.after xs).taken ↔ s ∈ (b.after ys).taken) :
    SameBlocks (b.after xs) (b.after ys) := by
  obtain ⟨hbase, hsize⟩ := extent_after b xs
  obtain ⟨hbase', hsize'⟩ := extent_after b ys
  exact ⟨hbase.trans hbase'.symm, hsize.trans hsize'.symm, h⟩

theorem SameBlocks.symm (h : SameBlocks b c) : SameBlocks c b :=
  ⟨h.base.symm, h.size.symm, fun s => (h.taken s).symm⟩

theorem SameBlocks.isFree_iff (h : SameBlocks b c) (a : Nat) : b.IsFree a ↔ c.IsFree a := by
  unfold IsFree
  rw [h.base, h.size]
  simp only [h.taken]

theorem SameBlocks.isRun (h : SameBlocks b c) {s : Span} (hs : b.IsRun s) : c.IsRun s :=
  ⟨hs.nonempty, fun a ha => (h.isFree_iff a).mp (hs.free a ha),
    fun ha => hs.ends ((h.isFree_iff _).mpr ha), fun a ha hfree =>
      hs.starts a ha ((h.isFree_iff a).mpr hfree)⟩

/-- Heaps with the same blocks have the same free spans. -/
theorem SameBlocks.mem_bag_iff (h : SameBlocks b c) (hb : b.Tiled) (hc : c.Tiled) (s : Span) :
    s ∈ b.bag ↔ s ∈ c.bag := by
  rw [hb.mem_bag_iff, hc.mem_bag_iff]
  exact ⟨h.isRun, h.symm.isRun⟩

/-- Free spans and blocks all start at different cells. -/
theorem Tiled.eq_of_first (hb : b.Tiled) {s t : Span} (hs : s ∈ b.bag ++ b.taken)
    (ht : t ∈ b.bag ++ b.taken) (hfirst : s.first = t.first) : s = t := by
  have hs' := hb.divides.nonempty s hs
  have ht' := hb.divides.nonempty t ht
  exact hb.divides.eq_of_mem hs ht (a := s.first) ⟨Nat.le_refl _, hs'⟩ ⟨by omega, by omega⟩

theorem SameBlocks.foremost?_eq (h : SameBlocks b c) (hb : b.Tiled) (hc : c.Tiled) :
    Span.foremost? b.bag = Span.foremost? c.bag := by
  refine Span.foremost?_congr ?_ (h.mem_bag_iff hb hc)
  intro s hs t ht hfirst
  exact hb.eq_of_first (List.mem_append_left _ hs) (List.mem_append_left _ ht) hfirst

theorem SameBlocks.free_eq (h : SameBlocks b c) (hb : b.Tiled) (hc : c.Tiled) :
    b.free = c.free := by
  have hbefore : ∀ {d : Blocks}, d.Tiled → d.free.Pairwise Span.Before := fun hd =>
    Span.before_sort (fun _ => hd.nonempty) (List.pairwise_append.mp hd.divides.apart).1
  have hnodup : ∀ {d : Blocks}, d.Tiled → d.bag.Nodup :=
    fun hd => (List.nodup_append.mp hd.divides.nodup).1
  have hperm : b.free.Perm c.free := by
    have hbags := (List.perm_ext_iff_of_nodup (hnodup hb) (hnodup hc)).mpr (h.mem_bag_iff hb hc)
    exact ((Span.perm_sort b.bag).trans hbags).trans (Span.perm_sort c.bag).symm
  refine hperm.eq_of_pairwise ?_ (hbefore hb) (hbefore hc)
  intro s t hs ht hst hts
  -- no span ends before one that ends before it
  have hs' := hb.nonempty ((Span.perm_sort b.bag).mem_iff.mp hs)
  have ht' := hc.nonempty ((Span.perm_sort c.bag).mem_iff.mp ht)
  unfold Span.Before at hst hts
  omega

/-- The block at a reference is the one block that starts there. -/
theorem Tiled.block?_eq_some_iff (hb : b.Tiled) (reference : Nat) (s : Span) :
    b.block? reference = some s ↔ s ∈ b.taken ∧ s.first = reference := by
  constructor
  · exact mem_taken_of_block?
  · rintro ⟨hs, rfl⟩
    cases hfind : b.block? s.first with
    | none => exact absurd (List.find?_eq_none.mp hfind s hs) (by simp)
    | some t =>
      obtain ⟨ht, hfirst⟩ := mem_taken_of_block? hfind
      rw [hb.eq_of_first (List.mem_append_right _ ht) (List.mem_append_right _ hs) hfirst]

theorem SameBlocks.block?_eq (h : SameBlocks b c) (hb : b.Tiled) (hc : c.Tiled) (reference : Nat) :
    b.block? reference = c.block? reference := by
  refine Option.ext fun s => ?_
  rw [hb.block?_eq_some_iff, hc.block?_eq_some_iff, h.taken]

/-! ## The same answers -/

/-- Heaps with the same blocks answer a request alike and have the same blocks after it. -/
theorem SameBlocks.serve (h : SameBlocks b c) (hb : b.Tiled) (hc : c.Tiled) (r : Request) :
    (b.serve r).1 = (c.serve r).1 ∧ SameBlocks (b.serve r).2 (c.serve r).2 := by
  cases r with
  | allocate size =>
    simp only [Blocks.serve, Blocks.allocate, h.foremost?_eq hb hc]
    cases Span.foremost? c.bag with
    | none => exact ⟨rfl, h⟩
    | some s =>
      by_cases hroom : s.length < max size 1
      · simp only [if_pos hroom]
        exact ⟨rfl, h⟩
      · simp only [if_neg hroom]
        refine ⟨rfl, h.base, h.size, ?_⟩
        intro t
        show t ∈ Span.insert _ b.taken ↔ t ∈ Span.insert _ c.taken
        rw [(Span.perm_insert _ _).mem_iff, (Span.perm_insert _ _).mem_iff, List.mem_cons,
          List.mem_cons, h.taken]
  | release reference =>
    simp only [Blocks.serve, Blocks.release, h.block?_eq hb hc]
    cases c.block? reference with
    | none => exact ⟨rfl, h⟩
    | some s =>
      refine ⟨rfl, h.base, h.size, ?_⟩
      intro t
      show t ∈ b.taken.filter _ ↔ t ∈ c.taken.filter _
      rw [List.mem_filter, List.mem_filter, h.taken]

/-- Nobody can tell two heaps apart: the same answers and the same free spans, whatever is asked
for. -/
def Alike (b c : Blocks) : Prop :=
  ∀ requests, b.answers requests = c.answers requests ∧
    (b.after requests).free = (c.after requests).free

theorem SameBlocks.alike (h : SameBlocks b c) (hb : b.Tiled) (hc : c.Tiled) : Alike b c := by
  intro requests
  induction requests generalizing b c with
  | nil => exact ⟨rfl, h.free_eq hb hc⟩
  | cons r rest ih =>
    obtain ⟨hanswer, hsame⟩ := h.serve hb hc r
    obtain ⟨hanswers, hfree⟩ := ih hsame (hb.serve r) (hc.serve r)
    refine ⟨?_, hfree⟩
    rw [answers, answers, hanswer, hanswers]

/-! ## Giving blocks back -/

/-- Giving a block back takes it from the blocks in use and leaves the others; where there is none,
nothing changes. -/
theorem Tiled.mem_taken_release (hb : b.Tiled) (reference : Nat) (s : Span) :
    s ∈ (b.serve (.release reference)).2.taken ↔ s ∈ b.taken ∧ s.first ≠ reference := by
  simp only [Blocks.serve, Blocks.release]
  cases hfind : b.block? reference with
  | none =>
    refine ⟨fun hs => ⟨hs, ?_⟩, And.left⟩
    rintro rfl
    have hsome := (hb.block?_eq_some_iff s.first s).mpr ⟨hs, rfl⟩
    rw [hfind] at hsome
    cases hsome
  | some t =>
    obtain ⟨ht, rfl⟩ := mem_taken_of_block? hfind
    show s ∈ b.taken.filter _ ↔ _
    rw [List.mem_filter, decide_eq_true_iff]
    refine and_congr_right fun hs => not_congr ⟨?_, ?_⟩
    · rintro rfl
      rfl
    · exact hb.eq_of_first (List.mem_append_right _ hs) (List.mem_append_right _ ht)

/-- Give blocks back one after another. -/
def releases (references : List Nat) : List Request := references.map .release

theorem Tiled.mem_taken_releases (hb : b.Tiled) (references : List Nat) (s : Span) :
    s ∈ (b.after (releases references)).taken ↔ s ∈ b.taken ∧ s.first ∉ references := by
  induction references generalizing b with
  | nil => simp [releases, Blocks.after]
  | cons r rest ih =>
    have hrest := ih (hb.serve (.release r))
    rw [hb.mem_taken_release] at hrest
    rw [List.mem_cons, not_or, ← and_assoc]
    exact hrest

/-- Blocks in use that are given back one after another are all taken back. -/
theorem Tiled.granted_releases (hb : b.Tiled) {references : List Nat} (hnodup : references.Nodup)
    (hlive : ∀ r ∈ references, b.isTaken r = true) :
    ∀ answer ∈ b.answers (releases references), answer.isOk = true := by
  induction references generalizing b with
  | nil =>
    rintro answer ⟨⟩
  | cons r rest ih =>
    obtain ⟨hr, hrest⟩ := List.forall_mem_cons.mp hlive
    obtain ⟨hfresh, hnodup⟩ := List.nodup_cons.mp hnodup
    obtain ⟨s, hs⟩ := Option.isSome_iff_exists.mp hr
    refine List.forall_mem_cons.mpr ⟨?_, ih (hb.serve _) hnodup ?_⟩
    · simp only [Blocks.serve, Blocks.release, hs]
      rfl
    · intro r' hr'
      obtain ⟨t, ht⟩ := Option.isSome_iff_exists.mp (hrest r' hr')
      obtain ⟨hmem, rfl⟩ := mem_taken_of_block? ht
      refine Option.isSome_iff_exists.mpr ⟨t, ?_⟩
      rw [(hb.serve _).block?_eq_some_iff, hb.mem_taken_release]
      refine ⟨⟨hmem, ?_⟩, rfl⟩
      rintro rfl
      exact hfresh hr'

theorem free_ofSize (base size : Nat) :
    (ofSize base size).free = if size = 0 then [] else [⟨base, base + size - 1⟩] := by
  show Span.sort (if size = 0 then [] else [⟨base, base + size - 1⟩]) = _
  split
  · rfl
  · rfl

/-- Heaps on the same cells that have come to have the same blocks, by whatever requests, have the
same free spans and cannot be told apart from then on.  In particular blocks in use may be given
back in any order, and with all of them back the heap is one free span. -/
theorem history_is_forgotten (base size : Nat) (xs : List Request) :
    let b := (ofSize base size).after xs
    (∀ ys, (∀ s, s ∈ b.taken ↔ s ∈ ((ofSize base size).after ys).taken) →
        b.free = ((ofSize base size).after ys).free ∧ Alike b ((ofSize base size).after ys)) ∧
      (∀ references references', references.Nodup → (∀ r ∈ references, b.isTaken r = true) →
        references'.Perm references →
          (∀ answer ∈ b.answers (releases references), answer.isOk = true) ∧
            Alike (b.after (releases references)) (b.after (releases references'))) ∧
      ∀ references, references.Perm (b.taken.map Span.first) →
        (b.after (releases references)).free = if size = 0 then []
          else [⟨base, base + size - 1⟩] := by
  intro b
  have hstart := tiled_ofSize base size
  have hb : b.Tiled := hstart.after xs
  refine ⟨?_, ?_, ?_⟩
  · intro ys htaken
    have hsame := sameBlocks_after htaken
    exact ⟨hsame.free_eq hb (hstart.after ys), hsame.alike hb (hstart.after ys)⟩
  · intro references references' hnodup hlive hperm
    refine ⟨hb.granted_releases hnodup hlive, ?_⟩
    have hsame : SameBlocks (b.after (releases references)) (b.after (releases references')) := by
      apply sameBlocks_after
      intro s
      rw [hb.mem_taken_releases, hb.mem_taken_releases, hperm.mem_iff]
    exact hsame.alike (hb.after _) (hb.after _)
  · intro references hperm
    obtain ⟨hbase, hsize⟩ := extent_after (ofSize base size) xs
    obtain ⟨hbase', hsize'⟩ := extent_after b (releases references)
    have hsame : SameBlocks (b.after (releases references)) (ofSize base size) := by
      refine ⟨hbase'.trans hbase, hsize'.trans hsize, ?_⟩
      intro s
      rw [hb.mem_taken_releases, hperm.mem_iff]
      constructor
      · rintro ⟨hs, hnot⟩
        exact (hnot (List.mem_map_of_mem hs)).elim
      · rintro ⟨⟩
    rw [hsame.free_eq (hb.after _) hstart, free_ofSize]

/-- Two ways to the same blocks of a heap of ten cells: the hole in the middle is made before or
after the last block is cut, so the free spans are kept in different orders. -/
def holeFirst : List Request := [.allocate 2, .allocate 2, .allocate 2, .release 2, .allocate 1]

def holeLast : List Request := [.allocate 2, .allocate 2, .allocate 2, .allocate 1, .release 2]

theorem history_is_forgotten_holes :
    let b := (ofSize 0 10).after holeFirst
    let c := (ofSize 0 10).after holeLast
    b.bag ≠ c.bag ∧ b.taken = c.taken ∧ b.free = c.free ∧ Alike b c ∧
      Alike (b.after (releases [6, 0])) (b.after (releases [0, 6])) ∧
      (b.after (releases [4, 0, 6])).free = [⟨0, 9⟩] := by
  intro b c
  obtain ⟨hsame, horder, hall⟩ := history_is_forgotten 0 10 holeFirst
  have htaken : b.taken = c.taken := by decide
  have hlive : ∀ r ∈ [6, 0], b.isTaken r = true := by decide
  obtain ⟨hfree, halike⟩ := hsame holeLast fun s => by rw [htaken]
  exact ⟨by decide, htaken, hfree, halike,
    (horder [6, 0] [0, 6] (by decide) hlive (List.Perm.swap 6 0 [])).2,
    hall [4, 0, 6] (List.Perm.swap 0 4 [6])⟩

end Blocks

end Quadruple
