/-
  The cells of the heap are divided among blocks and free spans.

  At every time each cell of the heap lies in exactly one block in use or free span, no span is
  empty, and no two free spans touch, so that a free span is a maximal run of free cells
  (`mem_bag_iff`).

  Requests change the division in two ways only.  A block is cut from the front of a free span,
  which divides one span in two (`Divides.cut`); and a block that is given back is joined with the
  free spans that touch it, which makes one span of two (`Divides.join`).  A division does not
  depend on the order in which its spans are listed (`Divides.perm`), so neither the bag of free
  spans nor the sorting before the joining matters to it.  That free spans do not touch is kept by
  cutting from the front, and after joining it holds by construction: the ascending list is gone
  through once, and a span is left behind only when the next one starts beyond the cell after its
  end (`pairwise_joinFrom`).

  The number of cells follows from the division alone (`Divides.total_eq`):

      Σ (last - first + 1) over blocks and free spans  =  size
-/
import Mathlib.Data.List.Nodup
import Mathlib.Data.List.Pairwise
import Quadruple.Heap.Blocks

namespace Quadruple

variable {s t : Span} {a reference : Nat}

namespace Span

/-! ## Divisions of an interval -/

/-- The cells of a span. -/
instance : Membership Nat Span := ⟨fun s a => s.first ≤ a ∧ a ≤ s.last⟩

theorem mem_iff (s : Span) (a : Nat) : a ∈ s ↔ s.first ≤ a ∧ a ≤ s.last := Iff.rfl

/-- Two spans without a common cell. -/
def Apart (s t : Span) : Prop := s.last < t.first ∨ t.last < s.first

/-- Two spans with a cell between them. -/
def Clear (s t : Span) : Prop := s.last + 1 < t.first ∨ t.last + 1 < s.first

/-- The first span ends before the second starts. -/
def Before (s t : Span) : Prop := s.last < t.first

theorem Apart.symm (h : s.Apart t) : t.Apart s := Or.symm h

theorem Clear.symm (h : s.Clear t) : t.Clear s := Or.symm h

theorem Apart.not_mem (h : s.Apart t) (has : a ∈ s) : a ∉ t := by
  intro hat
  rw [mem_iff] at has hat
  rcases h with hbefore | hafter
  · omega
  · omega

instance : Std.Symm Apart := ⟨fun _ _ => Apart.symm⟩

instance : Std.Symm Clear := ⟨fun _ _ => Clear.symm⟩

/-- How many cells spans have together. -/
def total (l : List Span) : Nat := l.foldr (fun s n => s.length + n) 0

/-- Each of `size` cells from `base` on lies in exactly one of the spans, and every span has a cell.
-/
structure Divides (l : List Span) (base size : Nat) : Prop where
  nonempty : ∀ s ∈ l, s.first ≤ s.last
  apart : l.Pairwise Apart
  cover : ∀ a, (∃ s ∈ l, a ∈ s) ↔ base ≤ a ∧ a < base + size

variable {l l' : List Span} {s t : Span} {base size : Nat}

theorem Divides.perm (h : Divides l base size) (hperm : l.Perm l') : Divides l' base size := by
  refine ⟨fun s hs => h.nonempty s (hperm.mem_iff.mpr hs),
    (hperm.pairwise_iff Apart.symm).mp h.apart, ?_⟩
  intro a
  rw [← h.cover a]
  simp only [hperm.mem_iff]

/-- One span may be divided after any of its cells but the last. -/
theorem Divides.cut (h : Divides (s :: l) base size) {m : Nat} (hlo : s.first ≤ m)
    (hhi : m < s.last) : Divides (⟨s.first, m⟩ :: ⟨m + 1, s.last⟩ :: l) base size := by
  obtain ⟨hapart, hrest⟩ := List.pairwise_cons.mp h.apart
  obtain ⟨-, hnonempty⟩ := List.forall_mem_cons.mp h.nonempty
  refine ⟨?_, ?_, ?_⟩
  · simp only [List.forall_mem_cons]
    exact ⟨hlo, hhi, hnonempty⟩
  · simp only [List.pairwise_cons, List.forall_mem_cons]
    refine ⟨⟨Or.inl (Nat.lt_succ_self m), ?_⟩, ?_, hrest⟩
    · intro t ht
      rcases hapart t ht with hbefore | hafter
      · exact Or.inl (Nat.lt_trans hhi hbefore)
      · exact Or.inr hafter
    · intro t ht
      rcases hapart t ht with hbefore | hafter
      · exact Or.inl hbefore
      · refine Or.inr ?_
        show t.last < m + 1
        omega
  · intro a
    rw [← h.cover a]
    simp only [List.exists_mem_cons_iff, mem_iff]
    constructor
    · rintro (⟨hfirst, hlast⟩ | ⟨hfirst, hlast⟩ | hrest)
      · exact Or.inl ⟨hfirst, by omega⟩
      · exact Or.inl ⟨by omega, hlast⟩
      · exact Or.inr hrest
    · rintro (⟨hfirst, hlast⟩ | hrest)
      · rcases Nat.lt_or_ge m a with hma | ham
        · exact Or.inr (Or.inl ⟨hma, hlast⟩)
        · exact Or.inl ⟨hfirst, ham⟩
      · exact Or.inr (Or.inr hrest)

/-- A span may be divided into its first `n` cells and what is left of it. -/
theorem Divides.remainder (h : Divides (s :: l) base size) {n : Nat} (hpos : 0 < n)
    (hle : n ≤ s.length) :
    Divides (⟨s.first, s.first + n - 1⟩ :: (s.remainder n ++ l)) base size := by
  have hs : s.first ≤ s.last := h.nonempty s List.mem_cons_self
  unfold length at hle
  unfold Span.remainder length
  split
  · have hnext : s.first + n = s.first + n - 1 + 1 := by omega
    rw [hnext]
    exact h.cut (by omega) (by omega)
  · have hlast : s.first + n - 1 = s.last := by omega
    rw [hlast]
    exact h

/-- Two spans of which the second starts where the first ends are one. -/
theorem Divides.join (h : Divides (s :: t :: l) base size) (htouch : t.first = s.last + 1) :
    Divides (⟨s.first, t.last⟩ :: l) base size := by
  obtain ⟨hs, ht, hnonempty⟩ : s.first ≤ s.last ∧ t.first ≤ t.last ∧ ∀ u ∈ l, u.first ≤ u.last := by
    simpa only [List.forall_mem_cons] using h.nonempty
  obtain ⟨hsapart, htapart, hrest⟩ :=
    (List.pairwise_cons.mp h.apart).imp_right List.pairwise_cons.mp
  refine ⟨?_, ?_, ?_⟩
  · refine List.forall_mem_cons.mpr ⟨?_, hnonempty⟩
    show s.first ≤ t.last
    omega
  · refine List.pairwise_cons.mpr ⟨?_, hrest⟩
    intro u hu
    have hu' := hnonempty u hu
    -- a span that lies between the two would be empty
    rcases hsapart u (List.mem_cons_of_mem _ hu) with hbefore | hafter
    · rcases htapart u hu with hbefore' | hafter'
      · exact Or.inl hbefore'
      · omega
    · exact Or.inr hafter
  · intro a
    rw [← h.cover a]
    simp only [List.exists_mem_cons_iff, mem_iff]
    constructor
    · rintro (⟨hfirst, hlast⟩ | hrest)
      · rcases Nat.lt_or_ge s.last a with hsa | has
        · exact Or.inr (Or.inl ⟨by omega, hlast⟩)
        · exact Or.inl ⟨hfirst, has⟩
      · exact Or.inr (Or.inr hrest)
    · rintro (⟨hfirst, hlast⟩ | ⟨hfirst, hlast⟩ | hrest)
      · exact Or.inl ⟨hfirst, by omega⟩
      · exact Or.inl ⟨by omega, hlast⟩
      · exact Or.inr hrest

/-- Two spans of a division that have a cell in common are the same. -/
theorem Divides.eq_of_mem (h : Divides l base size) (hs : s ∈ l) (ht : t ∈ l) (has : a ∈ s)
    (hat : a ∈ t) : s = t := by
  by_contra hne
  have hapart : s.Apart t := h.apart.forall hs ht hne
  exact hapart.not_mem has hat

/-- The cells of a span, one after another. -/
def cells (s : Span) : List Nat := List.range' s.first s.length

theorem mem_cells (h : s.first ≤ s.last) (a : Nat) : a ∈ s.cells ↔ a ∈ s := by
  rw [cells, List.mem_range'_1, mem_iff, length]
  omega

theorem total_append (l l' : List Span) : total (l ++ l') = total l + total l' := by
  induction l with
  | nil => exact (Nat.zero_add _).symm
  | cons s rest ih =>
    show s.length + total (rest ++ l') = s.length + total rest + total l'
    omega

theorem Divides.nodup (h : Divides l base size) : l.Nodup := by
  refine h.apart.imp_of_mem ?_
  rintro s t hs - hapart rfl
  have hfirst : s.first ∈ s := ⟨Nat.le_refl _, h.nonempty s hs⟩
  exact hapart.not_mem hfirst hfirst

theorem length_flatMap_cells (l : List Span) : (l.flatMap cells).length = total l := by
  induction l with
  | nil => rfl
  | cons s rest ih =>
    rw [List.flatMap_cons, List.length_append, ih, cells, List.length_range']
    rfl

/-- The spans of a division have as many cells as there are.  Listed one span after another, the
cells of the spans are those of the interval, none of them twice. -/
theorem Divides.total_eq (h : Divides l base size) : total l = size := by
  have hnodup : (l.flatMap cells).Nodup := by
    rw [List.nodup_flatMap]
    refine ⟨fun s _ => List.nodup_range', ?_⟩
    refine h.apart.imp_of_mem ?_
    intro s t hs ht hapart a has hat
    rw [mem_cells (h.nonempty s hs)] at has
    rw [mem_cells (h.nonempty t ht)] at hat
    exact hapart.not_mem has hat
  have hsame : (l.flatMap cells).Perm (List.range' base size) := by
    rw [List.perm_ext_iff_of_nodup hnodup List.nodup_range']
    intro a
    rw [List.mem_range'_1, ← h.cover a, List.mem_flatMap]
    constructor
    · rintro ⟨s, hs, ha⟩
      exact ⟨s, hs, (mem_cells (h.nonempty s hs) a).mp ha⟩
    · rintro ⟨s, hs, ha⟩
      exact ⟨s, hs, (mem_cells (h.nonempty s hs) a).mpr ha⟩
  rw [← length_flatMap_cells, hsame.length_eq, List.length_range']

/-! ## Sorting and joining -/

theorem perm_insert (s : Span) : ∀ l : List Span, (insert s l).Perm (s :: l)
  | [] => List.Perm.refl _
  | t :: rest => by
    rw [insert]
    split
    · exact List.Perm.refl _
    · exact ((perm_insert s rest).cons t).trans (List.Perm.swap s t rest)

theorem perm_sort (l : List Span) : (sort l).Perm l := by
  induction l with
  | nil => exact List.Perm.refl _
  | cons s rest ih => exact (perm_insert s (sort rest)).trans (ih.cons s)

theorem pairwise_insert (s : Span) : ∀ {l : List Span}, l.Pairwise (fun u v => u.first ≤ v.first) →
    (insert s l).Pairwise (fun u v => u.first ≤ v.first)
  | [], _ => List.pairwise_singleton _ _
  | t :: rest, h => by
    obtain ⟨hhead, htail⟩ := List.pairwise_cons.mp h
    rw [insert]
    split
    · rename_i hle
      refine List.pairwise_cons.mpr ⟨?_, h⟩
      intro u hu
      rcases List.mem_cons.mp hu with rfl | hu
      · exact hle
      · have hu := hhead u hu
        omega
    · rename_i hgt
      refine List.pairwise_cons.mpr ⟨?_, pairwise_insert s htail⟩
      intro u hu
      rcases List.mem_cons.mp ((perm_insert s rest).mem_iff.mp hu) with rfl | hu
      · omega
      · exact hhead u hu

theorem pairwise_sort (l : List Span) : (sort l).Pairwise fun u v => u.first ≤ v.first := by
  induction l with
  | nil => exact List.Pairwise.nil
  | cons s rest ih => exact pairwise_insert s ih

/-- Spans without common cells that are in ascending order end before the next one starts. -/
theorem before_sort (hnonempty : ∀ s ∈ l, s.first ≤ s.last) (hapart : l.Pairwise Apart) :
    (sort l).Pairwise Before := by
  have hapart' : (sort l).Pairwise Apart := ((perm_sort l).pairwise_iff Apart.symm).mpr hapart
  refine ((pairwise_sort l).and hapart').imp_of_mem ?_
  rintro u v hu hv ⟨hle, hbefore | hafter⟩
  · exact hbefore
  · have hv' := hnonempty v ((perm_sort l).mem_iff.mp hv)
    omega

/-- What is joined is divided as before, whatever other spans there are.  By induction on the list,
one span of which is joined to the first or left behind it in each step. -/
theorem divides_joinFrom :
    ∀ (l : List Span) (s : Span) (rest : List Span), (s :: l).Pairwise Before →
    Divides (s :: l ++ rest) base size → Divides (joinFrom s l ++ rest) base size
  | [], _, _, _, h => h
  | t :: l, s, rest, hbefore, h => by
    obtain ⟨hs, hl⟩ := List.pairwise_cons.mp hbefore
    obtain ⟨hst, hsl⟩ := List.forall_mem_cons.mp hs
    obtain ⟨htl, hrest⟩ := List.pairwise_cons.mp hl
    have hst : s.last < t.first := hst
    have ht : t.first ≤ t.last := h.nonempty t (by simp)
    rw [joinFrom]
    split
    · rename_i hle
      have hmax : max s.last t.last = t.last := by omega
      rw [hmax]
      refine divides_joinFrom l ⟨s.first, t.last⟩ rest (List.pairwise_cons.mpr ⟨?_, hrest⟩) ?_
      · intro u hu
        exact htl u hu
      · exact h.join (by omega)
    · -- the first span is put behind the others while these are joined
      have hperm : (s :: t :: l ++ rest).Perm (t :: l ++ s :: rest) := List.perm_middle.symm
      have hjoined := divides_joinFrom l t (s :: rest) hl (h.perm hperm)
      exact hjoined.perm List.perm_middle

/-- After joining there is a cell between any two spans. -/
theorem pairwise_joinFrom : ∀ (l : List Span) (s : Span), (s :: l).Pairwise Before →
    (∀ u ∈ s :: l, u.first ≤ u.last) →
      (joinFrom s l).Pairwise (fun u v => u.last + 1 < v.first) ∧
      ∀ u ∈ joinFrom s l, s.first ≤ u.first
  | [], s, _, _ => by
    refine ⟨List.pairwise_singleton _ _, ?_⟩
    intro u hu
    obtain rfl := List.mem_singleton.mp hu
    exact Nat.le_refl _
  | t :: l, s, hbefore, hnonempty => by
    obtain ⟨hs, hl⟩ := List.pairwise_cons.mp hbefore
    obtain ⟨hst, hsl⟩ := List.forall_mem_cons.mp hs
    obtain ⟨htl, hrest⟩ := List.pairwise_cons.mp hl
    obtain ⟨hs', hnonempty⟩ := List.forall_mem_cons.mp hnonempty
    obtain ⟨ht', hl'⟩ := List.forall_mem_cons.mp hnonempty
    have hst : s.last < t.first := hst
    rw [joinFrom]
    split
    · have hmax : max s.last t.last = t.last := by omega
      rw [hmax]
      refine pairwise_joinFrom l ⟨s.first, t.last⟩ (List.pairwise_cons.mpr ⟨htl, hrest⟩) ?_
      refine List.forall_mem_cons.mpr ⟨?_, hl'⟩
      show s.first ≤ t.last
      omega
    · rename_i hgap
      obtain ⟨hclear, hfirst⟩ := pairwise_joinFrom l t hl hnonempty
      refine ⟨List.pairwise_cons.mpr ⟨?_, hclear⟩, ?_⟩
      · intro u hu
        have hu := hfirst u hu
        omega
      · intro u hu
        rcases List.mem_cons.mp hu with rfl | hu
        · exact Nat.le_refl _
        · have hu := hfirst u hu
          omega

theorem divides_join {rest : List Span} (hbefore : l.Pairwise Before)
    (h : Divides (l ++ rest) base size) : Divides (join l ++ rest) base size := by
  cases l with
  | nil => exact h
  | cons s l => exact divides_joinFrom l s rest hbefore h

theorem clear_join (hbefore : l.Pairwise Before) (hnonempty : ∀ s ∈ l, s.first ≤ s.last) :
    (join l).Pairwise Clear := by
  cases l with
  | nil => exact List.Pairwise.nil
  | cons s l => exact (pairwise_joinFrom l s hbefore hnonempty).1.imp Or.inl

/-! ## The span to cut from -/

theorem mem_of_foremost? : ∀ {l : List Span} {s : Span}, foremost? l = some s → s ∈ l
  | [], _, h => by cases h
  | t :: rest, s, h => by
    rw [foremost?] at h
    split at h
    · rename_i u hu
      split at h
      · cases h
        exact List.mem_cons_of_mem _ (mem_of_foremost? hu)
      · cases h
        exact List.mem_cons_self
    · cases h
      exact List.mem_cons_self

theorem eq_nil_of_foremost? {l : List Span} (h : foremost? l = none) : l = [] := by
  cases l with
  | nil => rfl
  | cons s rest =>
    rw [foremost?] at h
    split at h
    · split at h
      · cases h
      · cases h
    · cases h

/-- No span comes before the one that blocks are cut from. -/
theorem not_precedes_of_foremost? :
    ∀ {l : List Span} {s : Span}, foremost? l = some s → ∀ t ∈ l, ¬ t.Precedes s
  | [], _, h => by cases h
  | u :: rest, s, h => by
    have hirrefl : ∀ v : Span, ¬ v.Precedes v := by
      intro v hv
      unfold Precedes at hv
      omega
    rw [foremost?] at h
    split at h
    · rename_i v hv
      have ih := not_precedes_of_foremost? hv
      split at h
      · rename_i hprecedes
        cases h
        refine List.forall_mem_cons.mpr ⟨?_, ih⟩
        unfold Precedes at hprecedes ⊢
        omega
      · rename_i hprecedes
        cases h
        refine List.forall_mem_cons.mpr ⟨hirrefl u, ?_⟩
        intro t ht
        have ht := ih t ht
        unfold Precedes at hprecedes ht ⊢
        omega
    · rename_i hnone
      cases h
      have hrest : rest = [] := eq_nil_of_foremost? hnone
      rw [hrest]
      exact List.forall_mem_singleton.mpr (hirrefl u)

end Span

namespace Blocks

/-! ## Requests -/

/-- What can be asked of the division of a heap. -/
inductive Request where
  | allocate (size : Nat)
  | release (reference : Nat)

/-- The answer to a request and the division after it.  A refusal holds no division, since a request
is refused before anything is changed; so the one before stays. -/
def settle (b : Blocks) : Except HeapError (Span × Blocks) → Except HeapError Span × Blocks
  | .ok (s, b') => (.ok s, b')
  | .error e => (.error e, b)

/-- Carry a request out; the answer is the block it is about. -/
def serve (b : Blocks) : Request → Except HeapError Span × Blocks
  | .allocate size => b.settle (b.allocate size)
  | .release reference => b.settle (b.release reference)

/-- The division after requests. -/
def after (b : Blocks) : List Request → Blocks
  | [] => b
  | r :: rest => (b.serve r).2.after rest

/-- The answers to requests. -/
def answers (b : Blocks) : List Request → List (Except HeapError Span)
  | [] => []
  | r :: rest => (b.serve r).1 :: (b.serve r).2.answers rest

variable {b b' : Blocks}

theorem allocate_eq_ok {size : Nat} {block : Span} (h : b.allocate size = .ok (block, b')) :
    ∃ s, Span.foremost? b.bag = some s ∧ max size 1 ≤ s.length ∧
      block = ⟨s.first, s.first + max size 1 - 1⟩ ∧
      b' = { b with
        bag := s.remainder (max size 1) ++ b.bag.erase s, taken := Span.insert block b.taken } := by
  unfold allocate at h
  dsimp only at h
  split at h
  · cases h
  rename_i s hs
  split at h
  · cases h
  · cases h
    exact ⟨s, hs, by omega, rfl, rfl⟩

theorem release_eq_ok (h : b.release reference = .ok (s, b')) :
    b.block? reference = some s ∧
      b' = { b with
        bag := Span.join (Span.sort (s :: b.bag)), taken := b.taken.filter (· ≠ s) } := by
  unfold release at h
  split at h
  · cases h
  rename_i t ht
  cases h
  exact ⟨ht, rfl⟩

theorem mem_taken_of_block? (h : b.block? reference = some s) : s ∈ b.taken ∧ s.first = reference :=
  ⟨List.mem_of_find?_eq_some h, by simpa using List.find?_some h⟩

/-- What holds of a division and of what is made of it by a granted request holds after every
request. -/
theorem serve_induction {P : Blocks → Prop}
    (hallocate : ∀ size s b', b.allocate size = .ok (s, b') → P b')
    (hrelease : ∀ reference s b', b.release reference = .ok (s, b') → P b') (h : P b)
    (r : Request) : P (b.serve r).2 := by
  cases r with
  | allocate size =>
    cases hresult : b.allocate size with
    | ok result =>
      have hP := hallocate size result.1 result.2 hresult
      rw [serve, hresult]
      exact hP
    | error e =>
      rw [serve, hresult]
      exact h
  | release reference =>
    cases hresult : b.release reference with
    | ok result =>
      have hP := hrelease reference result.1 result.2 hresult
      rw [serve, hresult]
      exact hP
    | error e =>
      rw [serve, hresult]
      exact h

/-! ## What every division keeps to -/

/-- The heap is divided among its free spans and blocks, and no two free spans touch. -/
structure Tiled (b : Blocks) : Prop where
  divides : Span.Divides (b.bag ++ b.taken) b.base b.size
  clear : b.bag.Pairwise Span.Clear

theorem tiled_ofSize (base size : Nat) : (ofSize base size).Tiled := by
  by_cases hsize : size = 0
  · subst hsize
    refine ⟨⟨?_, List.Pairwise.nil, ?_⟩, List.Pairwise.nil⟩
    · rintro s ⟨⟩
    · intro a
      constructor
      · rintro ⟨s, ⟨⟩, -⟩
      · rintro ⟨hlo, hhi⟩
        exact (Nat.not_lt.mpr hlo hhi).elim
  · have hbag : (ofSize base size).bag = [⟨base, base + size - 1⟩] := if_neg hsize
    have hwhole : Span.Divides [⟨base, base + size - 1⟩] base size := by
      refine ⟨?_, List.pairwise_singleton _ _, ?_⟩
      · refine List.forall_mem_singleton.mpr ?_
        show base ≤ base + size - 1
        omega
      · intro a
        simp only [List.mem_singleton, exists_eq_left, Span.mem_iff]
        omega
    refine ⟨?_, ?_⟩
    · rw [hbag]
      exact hwhole
    · rw [hbag]
      exact List.pairwise_singleton _ _

/-- Cutting a block from a free run leaves the tiling. -/
theorem Tiled.allocate (hb : b.Tiled) {size : Nat} {block : Span}
    (h : b.allocate size = .ok (block, b')) : b'.Tiled := by
  obtain ⟨s, hs, hroom, rfl, rfl⟩ := allocate_eq_ok h
  have hperm : b.bag.Perm (s :: b.bag.erase s) := List.perm_cons_erase (Span.mem_of_foremost? hs)
  refine ⟨?_, ?_⟩
  · have hdivides : Span.Divides (s :: (b.bag.erase s ++ b.taken)) b.base b.size :=
      hb.divides.perm (hperm.append_right b.taken)
    refine (hdivides.remainder (Nat.lt_of_lt_of_le Nat.one_pos (Nat.le_max_right size 1))
      hroom).perm ?_
    -- the block goes to its place among the blocks
    rw [← List.append_assoc]
    exact List.perm_middle.symm.trans ((Span.perm_insert _ b.taken).symm.append_left _)
  · obtain ⟨hclear, hrest⟩ :=
      List.pairwise_cons.mp ((hperm.pairwise_iff Span.Clear.symm).mp hb.clear)
    show (s.remainder (max size 1) ++ b.bag.erase s).Pairwise Span.Clear
    unfold Span.remainder
    split
    · refine List.pairwise_cons.mpr ⟨?_, hrest⟩
      intro t ht
      rcases hclear t ht with hbefore | hafter
      · exact Or.inl hbefore
      · refine Or.inr ?_
        show t.last + 1 < s.first + max size 1
        omega
    · exact hrest

theorem Tiled.release (hb : b.Tiled) (h : b.release reference = .ok (s, b')) : b'.Tiled := by
  obtain ⟨hs, rfl⟩ := release_eq_ok h
  obtain ⟨hmem, -⟩ := mem_taken_of_block? hs
  have hnodup : b.taken.Nodup := (List.nodup_append.mp hb.divides.nodup).2.1
  have hperm : b.taken.Perm (s :: b.taken.filter (· ≠ s)) := by
    have herase : b.taken.erase s = b.taken.filter (· ≠ s) := by
      rw [hnodup.erase_eq_filter]
      exact List.filter_congr fun t _ => by rw [Bool.eq_iff_iff, bne_iff_ne, decide_eq_true_iff]
    rw [← herase]
    exact List.perm_cons_erase hmem
  have hdivides : Span.Divides (s :: b.bag ++ b.taken.filter (· ≠ s)) b.base b.size :=
    hb.divides.perm ((hperm.append_left b.bag).trans List.perm_middle)
  have hnonempty : ∀ t ∈ s :: b.bag, t.first ≤ t.last :=
    fun t ht => hdivides.nonempty t (List.mem_append_left _ ht)
  have hbefore : (Span.sort (s :: b.bag)).Pairwise Span.Before :=
    Span.before_sort hnonempty (List.pairwise_append.mp hdivides.apart).1
  have hsorted := Span.perm_sort (s :: b.bag)
  refine ⟨?_, ?_⟩
  · exact Span.divides_join hbefore (hdivides.perm (hsorted.symm.append_right _))
  · exact Span.clear_join hbefore fun t ht => hnonempty t (hsorted.mem_iff.mp ht)

/-- A request keeps the blocks tiled. -/
theorem Tiled.serve (hb : b.Tiled) (r : Request) : (b.serve r).2.Tiled :=
  serve_induction (fun _ _ _ => hb.allocate) (fun _ _ _ => hb.release) hb r

/-- So does any number of requests. -/
theorem Tiled.after (hb : b.Tiled) (requests : List Request) : (b.after requests).Tiled := by
  induction requests generalizing b with
  | nil => exact hb
  | cons r rest ih => exact ih (hb.serve r)

/-- No request moves or resizes the heap. -/
theorem extent_serve (b : Blocks) (r : Request) :
    (b.serve r).2.base = b.base ∧ (b.serve r).2.size = b.size := by
  refine serve_induction (P := fun c => c.base = b.base ∧ c.size = b.size) ?_ ?_ ⟨rfl, rfl⟩ r
  · intro size s b' h
    obtain ⟨_, _, _, _, rfl⟩ := allocate_eq_ok h
    exact ⟨rfl, rfl⟩
  · intro reference s b' h
    obtain ⟨_, rfl⟩ := release_eq_ok h
    exact ⟨rfl, rfl⟩

/-- Requests change neither where a heap starts nor its size. -/
theorem extent_after (b : Blocks) (requests : List Request) :
    (b.after requests).base = b.base ∧ (b.after requests).size = b.size := by
  induction requests generalizing b with
  | nil => exact ⟨rfl, rfl⟩
  | cons r rest ih =>
    obtain ⟨hbase, hsize⟩ := extent_serve b r
    obtain ⟨hbase', hsize'⟩ := ih (b.serve r).2
    exact ⟨hbase'.trans hbase, hsize'.trans hsize⟩

/-! ## Free spans as runs of free cells -/

/-- A cell of the heap that lies in no block. -/
def IsFree (b : Blocks) (a : Nat) : Prop :=
  (b.base ≤ a ∧ a < b.base + b.size) ∧ ∀ s ∈ b.taken, a ∉ s

/-- A run of free cells that cannot be made longer. -/
structure IsRun (b : Blocks) (s : Span) : Prop where
  nonempty : s.first ≤ s.last
  free : ∀ a ∈ s, b.IsFree a
  ends : ¬ b.IsFree (s.last + 1)
  starts : ∀ a, a + 1 = s.first → ¬ b.IsFree a

/-- The free cells are those of the free spans. -/
theorem Tiled.isFree_iff (hb : b.Tiled) (a : Nat) : b.IsFree a ↔ ∃ s ∈ b.bag, a ∈ s := by
  constructor
  · rintro ⟨hinside, hnot⟩
    obtain ⟨s, hs, ha⟩ := (hb.divides.cover a).mpr hinside
    rcases List.mem_append.mp hs with hs | hs
    · exact ⟨s, hs, ha⟩
    · exact (hnot s hs ha).elim
  · rintro ⟨s, hs, ha⟩
    refine ⟨(hb.divides.cover a).mp ⟨s, List.mem_append_left _ hs, ha⟩, ?_⟩
    intro t ht
    have hapart : s.Apart t := (List.pairwise_append.mp hb.divides.apart).2.2 s hs t ht
    exact hapart.not_mem ha

theorem Tiled.nonempty (hb : b.Tiled) (hs : s ∈ b.bag) : s.first ≤ s.last :=
  hb.divides.nonempty s (List.mem_append_left _ hs)

/-- Cells of free spans with no cell between them are in one span. -/
theorem Tiled.eq_of_adjacent (hb : b.Tiled) (hs : s ∈ b.bag) (ht : t ∈ b.bag) (ha : a ∈ s)
    (ha' : a + 1 ∈ t) : s = t := by
  by_contra hne
  have hclear : s.Clear t := hb.clear.forall hs ht hne
  rw [Span.mem_iff] at ha ha'
  rcases hclear with hbefore | hafter
  · omega
  · omega

/-- The free spans are the longest runs of free cells: they depend on the blocks and on nothing
else. -/
theorem Tiled.mem_bag_iff (hb : b.Tiled) (s : Span) : s ∈ b.bag ↔ b.IsRun s := by
  have hinside : ∀ {t}, t ∈ b.bag → ∀ a ∈ t, b.IsFree a :=
    fun ht a ha => (hb.isFree_iff a).mpr ⟨_, ht, ha⟩
  constructor
  · intro hs
    have hs' := hb.nonempty hs
    refine ⟨hs', hinside hs, ?_, ?_⟩
    · intro hfree
      obtain ⟨t, ht, hat⟩ := (hb.isFree_iff _).mp hfree
      obtain rfl := hb.eq_of_adjacent hs ht ⟨hs', Nat.le_refl _⟩ hat
      rw [Span.mem_iff] at hat
      omega
    · intro a ha hfree
      obtain ⟨t, ht, hat⟩ := (hb.isFree_iff _).mp hfree
      obtain rfl := hb.eq_of_adjacent ht hs hat ⟨by omega, by omega⟩
      rw [Span.mem_iff] at hat
      omega
  · rintro ⟨hs, hfree, hends, hstarts⟩
    -- the free span with the first cell of the run neither starts earlier nor ends elsewhere
    obtain ⟨t, ht, hat⟩ := (hb.isFree_iff _).mp (hfree s.first ⟨Nat.le_refl _, hs⟩)
    have ht' := hb.nonempty ht
    rw [Span.mem_iff] at hat
    have hfirst : t.first = s.first := by
      by_contra hne
      exact hstarts (s.first - 1) (by omega) (hinside ht _ ⟨by omega, by omega⟩)
    have hlast : t.last = s.last := by
      rcases Nat.lt_trichotomy t.last s.last with hlt | heq | hgt
      · obtain ⟨u, hu, hau⟩ := (hb.isFree_iff _).mp (hfree (t.last + 1) ⟨by omega, hlt⟩)
        obtain rfl := hb.eq_of_adjacent ht hu ⟨ht', Nat.le_refl _⟩ hau
        rw [Span.mem_iff] at hau
        omega
      · exact heq
      · exact (hends (hinside ht _ ⟨by omega, hgt⟩)).elim
    have hst : s = t := by
      cases s
      cases t
      cases hfirst
      cases hlast
      rfl
    exact hst ▸ ht

/-- After any requests, refused ones included, the cells of the heap are divided among the blocks
and the free spans; the free spans are the longest runs of free cells, no two of them touch, and
free cells and cells of blocks are as many as the heap has. -/
theorem cells_are_tiled (base size : Nat) (requests : List Request) :
    let b := (ofSize base size).after requests
    Span.Divides (b.free ++ b.taken) base size ∧
    (∀ s ∈ b.free, ∀ t ∈ b.free, s.last + 1 ≠ t.first) ∧
      (∀ s, s ∈ b.free ↔ b.IsRun s) ∧ b.available + Span.total b.taken = size := by
  intro b
  have hb : b.Tiled := (tiled_ofSize base size).after requests
  have hsorted : b.free.Perm b.bag := Span.perm_sort b.bag
  obtain ⟨hbase, hsize⟩ : b.base = base ∧ b.size = size := extent_after (ofSize base size) requests
  have hdivides : Span.Divides (b.bag ++ b.taken) base size := hbase ▸ hsize ▸ hb.divides
  refine ⟨hdivides.perm (hsorted.symm.append_right _), ?_, ?_, ?_⟩
  · intro s hs t ht htouch
    rw [hsorted.mem_iff] at hs ht
    have hs' := hb.nonempty hs
    have ht' := hb.nonempty ht
    obtain rfl := hb.eq_of_adjacent hs ht ⟨hs', Nat.le_refl _⟩ ⟨by omega, by omega⟩
    omega
  · intro s
    rw [hsorted.mem_iff, hb.mem_bag_iff]
  · have htotal := hdivides.total_eq
    rwa [Span.total_append] at htotal

end Blocks

end Quadruple
