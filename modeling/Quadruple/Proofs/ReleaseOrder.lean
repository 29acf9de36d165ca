/-
  In which order a release gives blocks back.

  The blocks that can be reached are recorded depth first and given back latest first.  A block is
  recorded when it is met, not when all it leads to has been: so a block that two others point to
  may have been recorded through the one before the other is, and is then given back after it.

  When this happens is a matter of the cells.  A block is searched from its last cell to its first,
  and what a cell leads to is recorded before the search goes on with the cell below.  So a child is
  recorded through the last cell that leads to it, and an owner of it is recorded earlier only if
  that cell or a later one leads to the owner, too (`OwnersMetFirst`).

  The search is taken apart into visits (`Visits`): a block is visited when it is met for the first
  time, and by then some blocks have been recorded.  Without circles, the targets of a block that
  have been searched leave behind what was recorded before them and what they reach, nothing else
  (`Visits.mem_search_iff`):

      c ∈ search targets (b :: found)  ↔  c ∈ b :: found ∨ ∃ x ∈ targets, Reaches x c
-/
import Quadruple.Proofs.HeapRelease

namespace Quadruple.Heap

variable {h : Heap} {reference b c t : Nat} {found stack rest done todo : List Nat} {s : Span}

/-! ## The search, one block after another -/

theorem search_cons_of_mem (hb : b ∈ found) : h.search (b :: rest) found = h.search rest found := by
  rw [search, dif_pos (List.contains_iff_mem.mpr hb)]

theorem search_cons_of_not_starts (hb : ¬ h.Starts b) :
    h.search (b :: rest) found = h.search rest found := by
  rw [search]
  split
  · rfl
  split
  · rfl
  rename_i s hs
  obtain ⟨hmem, hfirst⟩ := Blocks.mem_taken_of_block? hs
  exact (hb ⟨s, hmem, hfirst⟩).elim

theorem search_cons_of_block (hb : b ∉ found) (hs : h.blocks.block? b = some s) :
    h.search (b :: rest) found =
      h.search (((h.pointees s).filter fun t => !(b :: found).contains t).reverse ++ rest)
        (b :: found) := by
  rw [search, dif_neg (mt List.contains_iff_mem.mp hb)]
  split
  · rename_i hnone
    rw [hs] at hnone
    cases hnone
  · rename_i s' hs'
    rw [hs] at hs'
    cases hs'
    rfl

/-- What is on top of the stack is searched before the rest is looked at. -/
theorem search_append (h : Heap) (stack later found : List Nat) :
    h.search (stack ++ later) found = h.search later (h.search stack found) := by
  fun_induction h.search stack found with
  | case1 found => rfl
  | case2 found b rest hb ih =>
    rw [List.cons_append, search_cons_of_mem (List.contains_iff_mem.mp hb), ih]
  | case3 found b rest hb hnone ih =>
    rw [List.cons_append, search_cons_of_not_starts ((block?_eq_none_iff h b).mp hnone), ih]
  | case4 found b rest hb s hs fresh ih =>
    rw [List.cons_append, search_cons_of_block (mt List.contains_iff_mem.mpr hb) hs,
      ← List.append_assoc, ih]

/-- Blocks are recorded in front of those recorded before. -/
theorem suffix_search (h : Heap) (stack found : List Nat) : found <:+ h.search stack found := by
  fun_induction h.search stack found with
  | case1 found => exact List.suffix_refl found
  | case2 found b rest hb ih => exact ih
  | case3 found b rest hb hnone ih => exact ih
  | case4 found b rest hb s hs fresh ih => exact (List.suffix_cons b found).trans ih

theorem mem_search_of_starts (hb : b ∈ stack) (hstarts : h.Starts b) :
    b ∈ h.search stack found := by
  fun_induction h.search stack found with
  | case1 found => cases hb
  | case2 found c rest hc ih =>
    rcases List.mem_cons.mp hb with rfl | hb
    · exact (suffix_search h rest found).subset (List.contains_iff_mem.mp hc)
    · exact ih hb
  | case3 found c rest hc hnone ih =>
    rcases List.mem_cons.mp hb with rfl | hb
    · exact ((block?_eq_none_iff h b).mp hnone hstarts).elim
    · exact ih hb
  | case4 found c rest hc s hs fresh ih =>
    rcases List.mem_cons.mp hb with rfl | hb
    · exact (suffix_search h _ _).subset List.mem_cons_self
    · exact ih (List.mem_append_right _ hb)

/-- What a block points to is recorded before the search for it ends. -/
theorem Sound.mem_search_of_points (hh : h.Sound) (hc : c ∈ h.search stack found) (hnew : c ∉ found)
    (hpoints : h.Points c t) : t ∈ h.search stack found := by
  fun_induction h.search stack found with
  | case1 found => exact (hnew hc).elim
  | case2 found b rest hb ih => exact ih hc hnew
  | case3 found b rest hb hnone ih => exact ih hc hnew
  | case4 found b rest hb s hs fresh ih =>
    by_cases hcb : c = b
    · subst hcb
      by_cases ht : t ∈ c :: found
      · exact (suffix_search h _ _).subset ht
      · obtain ⟨hmem, hfirst⟩ := Blocks.mem_taken_of_block? hs
        have htarget : t ∈ h.pointees s :=
          (hh.mem_pointees_iff hmem t).mpr (by rw [hfirst]; exact hpoints)
        have hfresh : t ∈ fresh := List.mem_filter.mpr ⟨htarget, by simpa using ht⟩
        exact mem_search_of_starts (List.mem_append_left _ (List.mem_reverse.mpr hfresh)) hpoints.1
    · exact ih hc (List.not_mem_cons_of_ne_of_not_mem hcb hnew)

/-- Nothing is recorded but what the stack reaches. -/
theorem Sound.reaches_of_mem_search (hh : h.Sound) (hc : c ∈ h.search stack found) :
    c ∈ found ∨ ∃ b ∈ stack, h.Reaches b c := by
  fun_induction h.search stack found with
  | case1 found => exact Or.inl hc
  | case2 found b rest hb ih =>
    exact (ih hc).imp_right (Exists.imp fun _ => And.imp_left (List.mem_cons_of_mem b))
  | case3 found b rest hb hnone ih =>
    exact (ih hc).imp_right (Exists.imp fun _ => And.imp_left (List.mem_cons_of_mem b))
  | case4 found b rest hb s hs fresh ih =>
    rcases ih hc with hfound | ⟨x, hx, hreaches⟩
    · rcases List.mem_cons.mp hfound with rfl | hfound
      · exact Or.inr ⟨c, List.mem_cons_self, .refl⟩
      · exact Or.inl hfound
    · rcases List.mem_append.mp hx with hx | hx
      · obtain ⟨hmem, hfirst⟩ := Blocks.mem_taken_of_block? hs
        have hpoints :=
          (hh.mem_pointees_iff hmem x).mp (List.mem_filter.mp (List.mem_reverse.mp hx)).1
        rw [hfirst] at hpoints
        exact Or.inr ⟨b, List.mem_cons_self, .head hpoints hreaches⟩
      · exact Or.inr ⟨x, List.mem_cons_of_mem b hx, hreaches⟩

/-- Blocks that are recorded make no difference on the stack. -/
theorem search_filter {old : List Nat} (hold : old ⊆ found) (stack : List Nat) :
    h.search (stack.filter fun t => !old.contains t) found = h.search stack found := by
  induction stack generalizing found with
  | nil => rfl
  | cons b rest ih =>
    by_cases hb : b ∈ old
    · rw [List.filter_cons_of_neg (by simpa using hb), search_cons_of_mem (hold hb), ih hold]
    · have hrecorded : old ⊆ h.search [b] found :=
        fun x hx => (suffix_search h [b] found).subset (hold hx)
      rw [List.filter_cons_of_pos (by simpa using hb), ← List.singleton_append, search_append,
        ih hrecorded, ← search_append, List.singleton_append]

/-- To search a block is to record it and search its targets, the last first. -/
theorem Sound.search_singleton (hh : h.Sound) (hs : s ∈ h.blocks.taken) (hnew : s.first ∉ found) :
    h.search [s.first] found = h.search (h.pointees s).reverse (s.first :: found) := by
  have hblock : h.blocks.block? s.first = some s := (hh.tiled.block?_eq_some_iff _ s).mpr ⟨hs, rfl⟩
  rw [search_cons_of_block hnew hblock, List.append_nil, ← List.filter_reverse,
    search_filter (List.Subset.refl _)]

/-! ## Visits -/

/-- The search meets a block for the first time, when so many blocks have been recorded. -/
inductive Visits (h : Heap) (reference : Nat) : Nat → List Nat → Prop
  | root : Visits h reference reference []
  | child {s : Span} {found done todo : List Nat} {t : Nat}
      (owner : Visits h reference s.first found)
      (hs : s ∈ h.blocks.taken) (htargets : (h.pointees s).reverse = done ++ t :: todo)
      (hnew : t ∉ h.search done (s.first :: found)) :
        Visits h reference t (h.search done (s.first :: found))

namespace Visits

theorem not_mem (hvisit : h.Visits reference b found) : b ∉ found := by
  cases hvisit with
  | root => exact List.not_mem_nil
  | child _ _ _ hnew => exact hnew

theorem points_of_mem (hh : h.Sound) (hs : s ∈ h.blocks.taken)
    (htargets : (h.pointees s).reverse = done ++ todo) :
    ∀ x ∈ done ++ todo, h.Points s.first x := by
  intro x hx
  rw [← htargets, List.mem_reverse] at hx
  exact (hh.mem_pointees_iff hs x).mp hx

/-- What is visited is reached. -/
theorem reaches (hh : h.Sound) (hvisit : h.Visits reference b found) : h.Reaches reference b := by
  induction hvisit with
  | root => exact .refl
  | child _ hs htargets _ ih =>
    exact ih.tail (points_of_mem hh hs htargets _ (List.mem_append_right _ List.mem_cons_self))

/-- What is recorded halfway through a block stays recorded. -/
theorem search_suffix (hh : h.Sound) (hvisit : h.Visits reference s.first found)
    (hs : s ∈ h.blocks.taken) (htargets : (h.pointees s).reverse = done ++ todo) :
    h.search done (s.first :: found) <:+ h.search [s.first] found := by
  rw [hh.search_singleton hs hvisit.not_mem, htargets, search_append]
  exact suffix_search h todo _

/-- What is recorded at the end of a visit stays recorded. -/
theorem suffix (hh : h.Sound) (hvisit : h.Visits reference b found) :
    h.search [b] found <:+ h.search [reference] [] := by
  induction hvisit with
  | root => exact List.suffix_refl _
  | @child s found done todo t owner hs htargets hnew ih =>
    have hnext : (h.pointees s).reverse = (done ++ [t]) ++ todo := by
      rw [htargets, List.append_assoc, List.singleton_append]
    rw [← search_append]
    exact (owner.search_suffix hh hs hnext).trans ih

/-- A recorded block has its targets recorded, unless it leads to the block that is visited. -/
theorem settled (hh : h.Sound) (hvisit : h.Visits reference b found) :
    ∀ c ∈ found, ¬ h.Reaches c b → ∀ t, h.Points c t → t ∈ found := by
  induction hvisit with
  | root => rintro c ⟨⟩
  | @child s found done todo t owner hs htargets hnew ih =>
    have hpoints := points_of_mem hh hs htargets t (List.mem_append_right _ List.mem_cons_self)
    intro c hc hleads x hx
    by_cases hbefore : c ∈ s.first :: found
    · rcases List.mem_cons.mp hbefore with rfl | hfound
      · exact (hleads (.single hpoints)).elim
      · have hmem := ih c hfound (fun hreaches => hleads (hreaches.tail hpoints)) x hx
        exact (suffix_search h _ _).subset (List.mem_cons_of_mem _ hmem)
    · exact hh.mem_search_of_points hc hbefore hx

/-- Without circles, searching targets of a block records exactly what they reach. -/
theorem mem_search_iff (hh : h.Sound) (hvisit : h.Visits reference b found)
    (hcircle : ¬ Relation.TransGen h.Points b b) {targets : List Nat}
    (htargets : ∀ x ∈ targets, h.Points b x) (c : Nat) :
    c ∈ h.search targets (b :: found) ↔ c ∈ b :: found ∨ ∃ x ∈ targets, h.Reaches x c := by
  constructor
  · exact hh.reaches_of_mem_search
  · rintro (hbefore | ⟨x, hx, hreaches⟩)
    · exact (suffix_search h _ _).subset hbefore
    · induction hreaches with
      | refl => exact mem_search_of_starts hx (htargets x hx).1
      | @tail y z hy hpoints ih =>
        have hpath : Relation.TransGen h.Points b y := .head' (htargets x hx) hy
        by_cases hbefore : y ∈ b :: found
        · rcases List.mem_cons.mp hbefore with rfl | hfound
          · exact (hcircle hpath).elim
          · have hmem :=
              hvisit.settled hh y hfound (fun hback => hcircle (hpath.trans_left hback)) z hpoints
            exact (suffix_search h _ _).subset (List.mem_cons_of_mem _ hmem)
        · exact hh.mem_search_of_points ih hbefore hpoints

end Visits

theorem unrecorded_le_of_subset {found' : List Nat} (hsub : found ⊆ found') :
    h.unrecorded found' ≤ h.unrecorded found := by
  refine (List.monotone_filter_right _ fun s hs => ?_).length_le
  simp only [Bool.not_eq_true', List.contains_eq_mem, decide_eq_false_iff_not] at hs ⊢
  exact fun hmem => hs (hsub hmem)

/-- Each block that a visit records is visited.  By induction on the number of blocks that are not
recorded, and within a visit on the targets to come. -/
theorem Sound.exists_visits_of_visits (hh : h.Sound) (hvisit : h.Visits reference b found)
    (hstarts : h.Starts b) (hc : c ∈ h.search [b] found) :
    c ∈ found ∨ ∃ found', h.Visits reference c found' := by
  induction hn : h.unrecorded found using Nat.strong_induction_on generalizing b found with
  | _ n ih =>
    obtain ⟨s, hs, rfl⟩ := hstarts
    have hfewer : h.unrecorded (s.first :: found) < n := by
      rw [← hn]
      exact unrecorded_cons_lt h ((hh.tiled.block?_eq_some_iff _ s).mpr ⟨hs, rfl⟩)
        (mt List.contains_iff_mem.mp hvisit.not_mem)
    have hrest : ∀ todo done, (h.pointees s).reverse = done ++ todo →
        c ∈ h.search todo (h.search done (s.first :: found)) →
        c ∈ h.search done (s.first :: found) ∨ ∃ found', h.Visits reference c found' := by
      intro todo
      induction todo with
      | nil =>
        intro done _ hc
        rw [search] at hc
        exact Or.inl hc
      | cons t todo ihtodo =>
        intro done htargets hc
        have hnext : (h.pointees s).reverse = (done ++ [t]) ++ todo := by
          rw [htargets, List.append_assoc, List.singleton_append]
        rw [← List.singleton_append, search_append, ← search_append h done [t]] at hc
        rcases ihtodo (done ++ [t]) hnext hc with hc | hvisited
        · rw [search_append] at hc
          by_cases ht : t ∈ h.search done (s.first :: found)
          · rw [search_cons_of_mem ht, search] at hc
            exact Or.inl hc
          · have hpoints :=
              Visits.points_of_mem hh hs htargets t (List.mem_append_right _ List.mem_cons_self)
            have hless :=
              unrecorded_le_of_subset (h := h) (suffix_search h done (s.first :: found)).subset
            exact ih _ (Nat.lt_of_le_of_lt hless hfewer) (.child hvisit hs htargets ht) hpoints.1
              hc rfl
        · exact Or.inr hvisited
    rw [hh.search_singleton hs hvisit.not_mem] at hc
    rcases hrest _ [] rfl (by rwa [search]) with hc | hvisited
    · rw [search] at hc
      rcases List.mem_cons.mp hc with rfl | hfound
      · exact Or.inr ⟨found, hvisit⟩
      · exact Or.inl hfound
    · exact Or.inr hvisited

/-- Each block that can be reached is visited, and the blocks that are recorded by then are recorded
last. -/
theorem Sound.exists_visits (hh : h.Sound) (hused : h.Starts reference)
    (hreaches : h.Reaches reference b) :
    ∃ found, h.Visits reference b found ∧ b :: found <:+ h.search [reference] [] := by
  have hmem := (((searching_start hused).search hh).mem_iff b).mpr hreaches
  rcases hh.exists_visits_of_visits .root hused hmem with ⟨⟨⟩⟩ | ⟨found, hvisit⟩
  have hstarts : h.Starts b := ((searching_start hused).search hh).starts b hmem
  obtain ⟨s, hs, rfl⟩ := hstarts
  refine ⟨found, hvisit, ?_⟩
  have hfirst := suffix_search h (h.pointees s).reverse (s.first :: found)
  rw [← hh.search_singleton hs hvisit.not_mem] at hfirst
  exact hfirst.trans (hvisit.suffix hh)

/-! ## Cells -/

/-- A cell holds a pointer to the start of a block in use. -/
def Holds (h : Heap) (a t : Nat) : Prop := h.Starts t ∧ h.read a = .ok (some (.pointer t))

/-- What a cell holds reaches the block. -/
def Leads (h : Heap) (a b : Nat) : Prop := ∃ t, h.Holds a t ∧ h.Reaches t b

theorem Holds.points {a : Nat} (hholds : h.Holds a t) (hs : s ∈ h.blocks.taken) (ha : a ∈ s) :
    h.Points s.first t :=
  ⟨hholds.1, s, hs, rfl, a, ha, hholds.2⟩

/-- The targets of a block are what its cells hold, cell by cell. -/
theorem Sound.exists_pointees_eq_filterMap (hh : h.Sound) (hs : s ∈ h.blocks.taken) :
    ∃ target : Nat → Option Nat, h.pointees s = (List.range' s.first s.length).filterMap target ∧
      ∀ a ∈ s, ∀ t, target a = some t ↔ h.Holds a t := by
  refine ⟨_, rfl, ?_⟩
  intro a ha t
  rw [Holds, read_of_contains (contains_iff.mpr (hh.tiled.contains_of_mem hs ha)), Except.ok.injEq]
  exact target?_eq_some_iff

/-- The targets of the cells from some cell on. -/
theorem Sound.mem_filterMap_cells (hh : h.Sound) (hs : s ∈ h.blocks.taken)
    {target : Nat → Option Nat} (htarget : ∀ a ∈ s, ∀ t, target a = some t ↔ h.Holds a t)
    (k t : Nat) :
    t ∈ (List.range' (s.first + k) (s.length - k)).filterMap target ↔
      ∃ a ∈ s, s.first + k ≤ a ∧ h.Holds a t := by
  have hnonempty : s.first ≤ s.last := hh.tiled.divides.nonempty s (List.mem_append_right _ hs)
  have hcells : ∀ a, a ∈ List.range' (s.first + k) (s.length - k) ↔ a ∈ s ∧ s.first + k ≤ a := by
    intro a
    rw [List.mem_range'_1, Span.mem_iff, Span.length]
    omega
  rw [List.mem_filterMap]
  constructor
  · rintro ⟨a, ha, ht⟩
    obtain ⟨hmem, hlow⟩ := (hcells a).mp ha
    exact ⟨a, hmem, hlow, (htarget a hmem t).mp ht⟩
  · rintro ⟨a, hmem, hlow, hholds⟩
    exact ⟨a, (hcells a).mpr ⟨hmem, hlow⟩, (htarget a hmem t).mpr hholds⟩

/-- The targets searched first are those of the cells from some cell on. -/
theorem Sound.exists_cell_of_split (hh : h.Sound) (hs : s ∈ h.blocks.taken)
    (hsplit : (h.pointees s).reverse = done ++ todo) :
    ∃ m, ∀ t, t ∈ done ↔ ∃ a ∈ s, m ≤ a ∧ h.Holds a t := by
  obtain ⟨target, htargets, htarget⟩ := hh.exists_pointees_eq_filterMap hs
  rw [List.reverse_eq_iff, List.reverse_append, htargets, List.filterMap_eq_append_iff] at hsplit
  obtain ⟨low, high, hcells, -, hhigh⟩ := hsplit
  obtain ⟨k, -, -, rfl⟩ := List.range'_eq_append_iff.mp hcells
  rw [Nat.mul_one] at hhigh
  refine ⟨s.first + k, fun t => ?_⟩
  rw [← hh.mem_filterMap_cells hs htarget, hhigh, List.mem_reverse]

/-- The targets of the cells from any cell on are searched first. -/
theorem Sound.exists_split_of_cell (hh : h.Sound) (hs : s ∈ h.blocks.taken) {a : Nat} (ha : a ∈ s) :
    ∃ done todo, (h.pointees s).reverse = done ++ todo ∧ ∀ t, t ∈ done ↔
      ∃ a' ∈ s, a ≤ a' ∧ h.Holds a' t := by
  obtain ⟨target, htargets, htarget⟩ := hh.exists_pointees_eq_filterMap hs
  obtain ⟨hlow, hhigh⟩ := (s.mem_iff a).mp ha
  have hcells : List.range' s.first s.length =
      List.range' s.first (a - s.first) ++ List.range' (s.first + (a - s.first))
        (s.length - (a - s.first)) := by
    refine List.range'_eq_append_iff.mpr ⟨a - s.first, ?_, rfl, by rw [Nat.mul_one]⟩
    unfold Span.length
    omega
  refine ⟨((List.range' (s.first + (a - s.first)) (s.length - (a - s.first))).filterMap
    target).reverse, ((List.range' s.first (a - s.first)).filterMap target).reverse, ?_,
      fun t => ?_⟩
  · rw [htargets, hcells, List.filterMap_append, List.reverse_append]
  · rw [List.mem_reverse, hh.mem_filterMap_cells hs htarget, Nat.add_sub_cancel' hlow]

/-! ## Children and owners -/

/-- Nothing that can be reached leads back to itself. -/
def AcyclicFrom (h : Heap) (reference : Nat) : Prop :=
  ∀ b, h.Reaches reference b → ¬ Relation.TransGen h.Points b b

/-- Each block that can be reached stands before the blocks that can be reached and point to it. -/
def ChildrenFirst (h : Heap) (reference : Nat) (order : List Nat) : Prop :=
  ∀ owner child, h.Reaches reference owner → h.Points owner child → [child, owner].Sublist order

/-- In each block that can be reached, of the cells that lead to a child the last one, or one after
it, leads to any owner of the child that the block leads to. -/
def OwnersMetFirst (h : Heap) (reference : Nat) : Prop :=
  ∀ s ∈ h.blocks.taken, h.Reaches reference s.first →
    ∀ owner child, h.Reaches s.first owner → owner ≠ s.first →
    h.Points owner child → ∀ a ∈ s, h.Leads a child → ∃ a' ∈ s, a ≤ a' ∧ h.Leads a' owner

/-- No two blocks that can be reached point to the same block. -/
def SingleOwners (h : Heap) (reference : Nat) : Prop :=
  ∀ owner owner' child, h.Reaches reference owner → h.Reaches reference owner' →
    h.Points owner child →
    h.Points owner' child → owner = owner'

/-- A cell that leads to a child leads to it through its owner. -/
theorem SingleOwners.ownersMetFirst (hsingle : h.SingleOwners reference) :
    h.OwnersMetFirst reference := by
  intro s hs hreaches owner child howner hne hpoints a ha hleads
  obtain ⟨t, hholds, hpath⟩ := hleads
  have hfirst := hholds.points hs ha
  rcases hpath.cases_tail with rfl | ⟨w, hw, hlast⟩
  · exact (hne (hsingle owner s.first child (hreaches.trans howner) hreaches hpoints hfirst)).elim
  · obtain rfl :=
      hsingle owner w child (hreaches.trans howner) ((hreaches.tail hfirst).trans hw) hpoints hlast
    exact ⟨a, ha, Nat.le_refl a, t, hholds, hw⟩

/-- A path into a set of blocks enters it somewhere. -/
theorem Reaches.exists_entry {known : List Nat} (hreaches : h.Reaches b c) (hb : b ∉ known)
    (hc : c ∈ known) : ∃ w x, h.Reaches b w ∧ h.Points w x ∧ w ∉ known ∧ x ∈ known := by
  induction hreaches with
  | refl => exact (hb hc).elim
  | @tail w x hw hpoints ih =>
    by_cases hknown : w ∈ known
    · exact ih hknown
    · exact ⟨w, x, hw, hpoints, hknown, hc⟩

/-- Where owners are met first, nothing that a block leads to is recorded before the block.  By
induction on the visits: where a path from a new target enters what is recorded, the last block
outside has been met through the same cells. -/
theorem OwnersMetFirst.not_mem_of_visits (hmet : h.OwnersMetFirst reference) (hh : h.Sound)
    (hacyclic : h.AcyclicFrom reference) (hvisit : h.Visits reference b found) :
    ∀ x, h.Reaches b x → x ∉ found := by
  induction hvisit with
  | root => exact fun x _ => List.not_mem_nil
  | @child s found done todo t owner hs htargets hnew ih =>
    intro x hreaches hx
    have hsplit := Visits.points_of_mem hh hs htargets
    have hdone : ∀ y ∈ done, h.Points s.first y := fun y hy => hsplit y (List.mem_append_left _ hy)
    have hpoints : h.Points s.first t := hsplit t (List.mem_append_right _ List.mem_cons_self)
    have hrecorded := owner.mem_search_iff hh (hacyclic _ (owner.reaches hh)) hdone
    obtain ⟨w, x, hw, hwx, hwnew, hx⟩ := Reaches.exists_entry hreaches hnew hx
    have hsw : h.Reaches s.first w := .head hpoints hw
    rcases (hrecorded x).mp hx with hbefore | ⟨y, hy, hyx⟩
    · rcases List.mem_cons.mp hbefore with rfl | hfound
      · exact hacyclic _ (owner.reaches hh) (.tail' hsw hwx)
      · exact ih x (hsw.tail hwx) hfound
    · obtain ⟨m, hcells⟩ := hh.exists_cell_of_split hs htargets
      obtain ⟨a, ha, hma, hholds⟩ := (hcells y).mp hy
      have hne : w ≠ s.first := by
        rintro rfl
        exact hwnew ((hrecorded _).mpr (Or.inl List.mem_cons_self))
      obtain ⟨a', ha', haa', y', hholds', hy'w⟩ :=
        hmet s hs (owner.reaches hh) w x hsw hne hwx a ha ⟨y, hholds, hyx⟩
      have hy' : y' ∈ done := (hcells y').mpr ⟨a', ha', by omega, hholds'⟩
      exact hwnew ((hrecorded w).mpr (Or.inr ⟨y', hy', hy'w⟩))

theorem OwnersMetFirst.childrenFirst (hmet : h.OwnersMetFirst reference) (hh : h.Sound)
    (hused : h.Starts reference) (hacyclic : h.AcyclicFrom reference) :
    h.ChildrenFirst reference (h.search [reference] []) := by
  intro owner child howner hpoints
  obtain ⟨found, hvisit, front, hfront⟩ := hh.exists_visits hused howner
  have hmem : child ∈ h.search [reference] [] :=
    (((searching_start hused).search hh).mem_iff child).mpr (howner.tail hpoints)
  have hne : child ≠ owner := by
    rintro rfl
    exact hacyclic _ howner (.single hpoints)
  have hnew : child ∉ found := hmet.not_mem_of_visits hh hacyclic hvisit child (.single hpoints)
  rw [← hfront] at hmem ⊢
  have hchild : child ∈ front :=
    (List.mem_append.mp hmem).resolve_right (List.not_mem_cons_of_ne_of_not_mem hne hnew)
  exact (List.singleton_sublist.mpr hchild).append (List.singleton_sublist.mpr List.mem_cons_self)

/-- Whoever stands after a block in a list without repetitions stands in each end of the list that
has the block. -/
theorem mem_suffix_of_sublist {order last : List Nat} (hnodup : order.Nodup)
    (hlast : last <:+ order) (hsub : [b, c].Sublist order) (hb : b ∈ last) : c ∈ last := by
  obtain ⟨front, rfl⟩ := hlast
  obtain ⟨l₁, l₂, hsplit, hfront, hback⟩ := List.sublist_append_iff.mp hsub
  cases l₁ with
  | nil =>
    rw [List.nil_append] at hsplit
    subst hsplit
    exact hback.subset (List.mem_cons_of_mem b List.mem_cons_self)
  | cons x l₁ =>
    obtain ⟨rfl, -⟩ := List.cons.inj hsplit
    exact ((List.nodup_append.mp hnodup).2.2 b (hfront.subset List.mem_cons_self) b hb rfl).elim

/-- From the order of the blocks to the cells: once a cell and those after it have been searched,
the owners of what is recorded are recorded as well, and they can only be so through these cells. -/
theorem ChildrenFirst.ownersMetFirst (hfirst : h.ChildrenFirst reference (h.search [reference] []))
    (hh : h.Sound) (hused : h.Starts reference) (hacyclic : h.AcyclicFrom reference) :
    h.OwnersMetFirst reference := by
  intro s hs hreaches owner child howner hne hpoints a ha hleads
  have hnodup := ((searching_start hused).search hh).nodup
  have howners : ∀ {last x y}, last <:+ h.search [reference] [] → h.Reaches reference y →
      h.Points y x → x ∈ last →
      y ∈ last :=
    fun hlast hy hyx hx => mem_suffix_of_sublist hnodup hlast (hfirst _ _ hy hyx) hx
  obtain ⟨found, hvisit, hsuffix⟩ := hh.exists_visits hused hreaches
  have hfound : ∀ x, h.Reaches s.first x → x ∉ found := by
    intro x hx
    induction hx with
    | refl => exact hvisit.not_mem
    | tail hy hyx ih =>
      exact fun hmem =>
        ih (howners ((List.suffix_cons _ _).trans hsuffix) (hreaches.trans hy) hyx hmem)
  obtain ⟨done, todo, htargets, hcells⟩ := hh.exists_split_of_cell hs ha
  have hdone : ∀ y ∈ done, h.Points s.first y :=
    fun y hy => Visits.points_of_mem hh hs htargets y (List.mem_append_left _ hy)
  have hrecorded := hvisit.mem_search_iff hh (hacyclic _ hreaches) hdone
  obtain ⟨t, hholds, hpath⟩ := hleads
  have hchild : child ∈ h.search done (s.first :: found) :=
    (hrecorded child).mpr (Or.inr ⟨t, (hcells t).mpr ⟨a, ha, Nat.le_refl a, hholds⟩, hpath⟩)
  have hlast := (hvisit.search_suffix hh hs htargets).trans (hvisit.suffix hh)
  rcases (hrecorded owner).mp
    (howners hlast (hreaches.trans howner) hpoints hchild) with hbefore | ⟨y, hy, hpath⟩
  · rcases List.mem_cons.mp hbefore with rfl | hmem
    · exact (hne rfl).elim
    · exact (hfound owner howner hmem).elim
  · obtain ⟨a', ha', haa', hholds'⟩ := (hcells y).mp hy
    exact ⟨a', ha', haa', y, hholds', hpath⟩

/-- **When children are freed before their owners.** In every heap that requests lead to, where
nothing that can be reached from a block in use leads back to itself: the release succeeds and gives
back each block that can be reached once.  The order has each of them before the blocks that point
to it exactly if the search meets the owners first, and it does so whenever no block has two owners.
-/
theorem children_freed_first_iff (base size : Nat) (requests : List Request) (reference : Nat) :
    let h := (ofSize base size).after requests
    h.Starts reference → h.AcyclicFrom reference →
      ∃ spans h', h.release reference = .ok (spans, h') ∧ (spans.map Span.first).Nodup ∧
        (∀ b, b ∈ spans.map Span.first ↔ h.Reaches reference b) ∧
        (h.ChildrenFirst reference (spans.map Span.first) ↔ h.OwnersMetFirst reference) ∧
        (h.SingleOwners reference → h.ChildrenFirst reference (spans.map Span.first)) := by
  intro h hused hacyclic
  have hh : h.Sound := (sound_ofSize base size).after requests
  have hsearch := (searching_start hused).search hh
  obtain ⟨spans, h', heach, hfirsts, -, -⟩ := hh.releaseEach_granted hsearch.nodup hsearch.starts
  refine ⟨spans, h', ?_, ?_⟩
  · rw [release, if_pos ((isTaken_iff h reference).mpr hused), hh.collect_eq]
    exact heach
  · rw [hfirsts]
    exact ⟨hsearch.nodup, hsearch.mem_iff, ⟨fun hfirst => hfirst.ownersMetFirst hh hused hacyclic,
      fun hmet => hmet.childrenFirst hh hused hacyclic⟩, fun hsingle =>
        hsingle.ownersMetFirst.childrenFirst hh hused hacyclic⟩

/-- Pointers that all lead upwards go round in no circle. -/
theorem acyclicFrom_of_lt (hup : ∀ b t, h.Points b t → b < t) (reference : Nat) :
    h.AcyclicFrom reference := by
  have hpath : ∀ b c, Relation.TransGen h.Points b c → b < c := by
    intro b c hreaches
    induction hreaches with
    | single hpoints => exact hup _ _ hpoints
    | tail _ hpoints ih => exact Nat.lt_trans ih (hup _ _ hpoints)
  intro b _ hcircle
  exact Nat.lt_irrefl b (hpath b b hcircle)

/-- What holds of the targets of all blocks in use holds of all pointers. -/
theorem Sound.all_points (hh : h.Sound) {P : Nat → Nat → Prop} [DecidableRel P]
    (hall : (h.blocks.taken.all fun s => (h.pointees s).all fun t => decide (P s.first t)) = true)
    (hpoints : h.Points b t) : P b t := by
  obtain ⟨-, s, hs, rfl, -⟩ := id hpoints
  have htarget := (hh.mem_pointees_iff hs t).mpr hpoints
  exact of_decide_eq_true (List.all_eq_true.mp (List.all_eq_true.mp hall s hs) t htarget)

/-- Three blocks.  The cells of the first point to the second and the third, in one order or the
other, and the second points to the third. -/
def shared (low high : Nat) : List Request :=
  [.allocate 2, .allocate 1, .allocate 1, .write 0 (.pointer low), .write 1 (.pointer high),
    .write 2 (.pointer 3)]

/-- The last cell of the first block leads to the second, and through it to the third. -/
theorem children_freed_first_iff_shared :
    ((ofSize 0 8).after (shared 3 2)).Starts 0 ∧ ((ofSize 0 8).after (shared 3 2)).AcyclicFrom 0 ∧
      (·.1) <$> ((ofSize 0 8).after (shared 3 2)).release 0 = .ok [⟨3, 3⟩, ⟨2, 2⟩, ⟨0, 1⟩] ∧
      ((ofSize 0 8).after (shared 3 2)).ChildrenFirst 0 [3, 2, 0] ∧
      ((ofSize 0 8).after (shared 3 2)).OwnersMetFirst 0 ∧
      ¬ ((ofSize 0 8).after (shared 3 2)).SingleOwners 0 := by
  have hh : ((ofSize 0 8).after (shared 3 2)).Sound := (sound_ofSize 0 8).after (shared 3 2)
  have htaken : ((ofSize 0 8).after (shared 3 2)).blocks.taken = [⟨0, 1⟩, ⟨2, 2⟩, ⟨3, 3⟩] := by
    decide +kernel
  have hstarts : ((ofSize 0 8).after (shared 3 2)).Starts 0 := ⟨⟨0, 1⟩, by rw [htaken]; decide, rfl⟩
  have hacyclic : ((ofSize 0 8).after (shared 3 2)).AcyclicFrom 0 :=
    acyclicFrom_of_lt (fun b t => hh.all_points (by decide +kernel)) 0
  have hlisted : (·.1) <$> ((ofSize 0 8).after (shared 3 2)).release 0 = .ok [⟨3, 3⟩, ⟨2, 2⟩,
      ⟨0, 1⟩] := by cbv
  have hfirst : ((ofSize 0 8).after (shared 3 2)).ChildrenFirst 0 [3, 2, 0] :=
    fun owner child _ => hh.all_points (P := fun owner child => [child, owner].Sublist [3, 2, 0])
      (by decide +kernel)
  have hpoints : ((ofSize 0 8).after (shared 3 2)).Points 0 2 ∧
      ((ofSize 0 8).after (shared 3 2)).Points 0 3 ∧
      ((ofSize 0 8).after (shared 3 2)).Points 2 3 :=
    ⟨(hh.mem_pointees_iff (s := ⟨0, 1⟩) (by rw [htaken]; decide) 2).mp (by decide +kernel),
      (hh.mem_pointees_iff (s := ⟨0, 1⟩) (by rw [htaken]; decide) 3).mp (by decide +kernel),
      (hh.mem_pointees_iff (s := ⟨2, 2⟩) (by rw [htaken]; decide) 3).mp (by decide +kernel)⟩
  obtain ⟨spans, h', hrelease, -, -, hiff, -⟩ :=
    children_freed_first_iff 0 8 (shared 3 2) 0 hstarts hacyclic
  have hspans := hlisted
  rw [hrelease] at hspans
  cases hspans
  refine ⟨hstarts, hacyclic, hlisted, hfirst, hiff.mp hfirst, ?_⟩
  intro hsingle
  exact absurd (hsingle 0 2 3 .refl (.single hpoints.1) hpoints.2.1 hpoints.2.2) (by decide)

/-- **An owner may be freed before its child.** The first block points to the second and the third,
and the second to the third; nothing leads back to itself.  The last cell of the first block leads
to the third at once, so the third block is recorded before the second and given back after it. -/
theorem owner_freed_before_shared_child :
    ((ofSize 0 8).after (shared 2 3)).Starts 0 ∧ ((ofSize 0 8).after (shared 2 3)).AcyclicFrom 0 ∧
      ((ofSize 0 8).after (shared 2 3)).Reaches 0 2 ∧ ((ofSize 0 8).after (shared 2 3)).Points 2 3 ∧
      (·.1) <$> ((ofSize 0 8).after (shared 2 3)).release 0 = .ok [⟨2, 2⟩, ⟨3, 3⟩, ⟨0, 1⟩] ∧
      ¬ ((ofSize 0 8).after (shared 2 3)).ChildrenFirst 0 [2, 3, 0] := by
  have hh : ((ofSize 0 8).after (shared 2 3)).Sound := (sound_ofSize 0 8).after (shared 2 3)
  have htaken : ((ofSize 0 8).after (shared 2 3)).blocks.taken = [⟨0, 1⟩, ⟨2, 2⟩, ⟨3, 3⟩] := by
    decide +kernel
  have hreaches : ((ofSize 0 8).after (shared 2 3)).Reaches 0 2 :=
    .single ((hh.mem_pointees_iff (s := ⟨0, 1⟩) (by rw [htaken]; decide) 2).mp (by decide +kernel))
  have hpoints : ((ofSize 0 8).after (shared 2 3)).Points 2 3 :=
    (hh.mem_pointees_iff (s := ⟨2, 2⟩) (by rw [htaken]; decide) 3).mp (by decide +kernel)
  refine ⟨⟨⟨0, 1⟩, by rw [htaken]; decide, rfl⟩, ?_, hreaches, hpoints, by cbv, ?_⟩
  · exact acyclicFrom_of_lt (fun b t => hh.all_points (by decide +kernel)) 0
  · intro hfirst
    exact absurd (hfirst 2 3 hreaches hpoints) (by decide)

end Quadruple.Heap
