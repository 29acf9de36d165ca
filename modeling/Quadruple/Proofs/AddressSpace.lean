/-
  Addresses below the heap and their places are the same thing.

  A place is a segment, a scalar type and an offset in the run that the segment has for the type.
  The runs follow one another from address 0 to the start of the heap (`consecutive_rangeList`), and
  the address of a place is the start of its run plus its offset.  Sizes are arbitrary, and a run of
  no slots starts where the next one does; it contains nothing, so the search for the run of an
  address never finds it (`locate_start_add_iff`):

      locate ((range s t).start + o) = some (range s t)  ↔  o < slots s t
-/
import Quadruple.Proofs.Addresses

namespace Quadruple

variable {done rest : List (Segment × Scalar)}

/-- The runs follow one another from the one address to the other. -/
def Range.Consecutive : Nat → List Range → Nat → Prop
  | first, [], limit => first = limit
  | first, r :: rest, limit => r.start = first ∧ Consecutive r.limit rest limit

namespace Sizes

theorem total_append (sizes : Sizes) (ps qs : List (Segment × Scalar)) :
    sizes.total (ps ++ qs) = sizes.total ps + sizes.total qs := by
  induction ps with
  | nil => exact (Nat.zero_add _).symm
  | cons p ps ih =>
    show sizes.slots p.1 p.2 + sizes.total (ps ++ qs) = sizes.slots p.1 p.2 + sizes.total ps +
        sizes.total qs
    omega

/-- A run starts where those of the places before it end. -/
theorem startOf_eq_total (sizes : Sizes) {s : Segment} {t : Scalar}
    (h : places = done ++ (s, t) :: rest) : sizes.startOf s t = sizes.total done := by
  have hnodup : (done ++ (s, t) :: rest).Nodup := by
    rw [← h]
    decide
  have hnew : ∀ p ∈ done, p ≠ (s, t) := by
    intro p hp
    exact (List.nodup_append.mp hnodup).2.2 p hp (s, t) List.mem_cons_self
  show sizes.total (places.takeWhile (· ≠ (s, t))) = sizes.total done
  rw [h, List.takeWhile_append_of_pos (by simpa using hnew), List.takeWhile_cons_of_neg (by simp),
    List.append_nil]

end Sizes

namespace Layout

/-- Induction on the places still to come; the runs of those before them end where the next one
starts. -/
theorem consecutive_map_range (sizes : Sizes) (h : places = done ++ rest) :
    Range.Consecutive (sizes.total done) (rest.map fun p => (ofSizes sizes).range p.1 p.2)
      (ofSizes sizes).heapStart := by
  induction rest generalizing done with
  | nil =>
    rw [List.append_nil] at h
    show sizes.total done = sizes.total places
    rw [h]
  | cons p rest ih =>
    have hnext : places = (done ++ [p]) ++ rest := by
      rw [h, List.append_assoc, List.singleton_append]
    have hstart : sizes.startOf p.1 p.2 = sizes.total done := sizes.startOf_eq_total h
    have hlimit : ((ofSizes sizes).range p.1 p.2).limit = sizes.total (done ++ [p]) := by
      rw [range_ofSizes, sizes.total_append]
      show sizes.startOf p.1 p.2 + sizes.slots p.1 p.2 = sizes.total done +
          (sizes.slots p.1 p.2 + 0)
      omega
    show ((ofSizes sizes).range p.1 p.2).start = sizes.total done ∧
      Range.Consecutive ((ofSizes sizes).range p.1 p.2).limit _ _
    rw [hlimit, range_ofSizes]
    exact ⟨hstart, ih hnext⟩

theorem consecutive_rangeList (sizes : Sizes) :
    Range.Consecutive 0 (ofSizes sizes).rangeList (ofSizes sizes).heapStart :=
  consecutive_map_range sizes (List.nil_append places).symm

/-- The heap starts after as many addresses as there are slots. -/
theorem heapStart_ofSizes (sizes : Sizes) :
    (ofSizes sizes).heapStart =
      (Segment.all.flatMap fun s => Scalar.all.map fun t => sizes.slots s t).foldr (· + ·) 0 := by
  show sizes.total (Segment.all.flatMap fun s => Scalar.all.map fun t => (s, t)) = _
  rw [Sizes.total, ← List.foldr_map, List.map_flatMap]
  rfl

/-- A run is found at the addresses of its slots, and at no other address from its start on. -/
theorem locate_start_add_iff (sizes : Sizes) (s : Segment) (t : Scalar) (o : Nat) :
    (ofSizes sizes).locate
    (((ofSizes sizes).range s t).start + o) = some ((ofSizes sizes).range s t) ↔
      o < sizes.slots s t := by
  have hcontains : ((ofSizes sizes).range s t).contains (((ofSizes sizes).range s t).start + o) =
      true ↔
      o < sizes.slots s t := by
    rw [contains_iff, range_ofSizes]
    show sizes.startOf s t ≤ sizes.startOf s t + o ∧
        sizes.startOf s t + o < sizes.startOf s t + sizes.slots s t ↔ _
    omega
  rw [← hcontains]
  exact ⟨fun h => (locate_eq_some h).2, locate_eq_of_contains⟩

/-- The address of a place determines it. -/
theorem place_unique {sizes : Sizes} {s s' : Segment} {t t' : Scalar} {o o' : Nat}
    (ho : o < sizes.slots s t) (ho' : o' < sizes.slots s' t')
    (h : ((ofSizes sizes).range s t).start + o = ((ofSizes sizes).range s' t').start + o') :
    (s, t, o) = (s', t', o') := by
  have hlocated := (locate_start_add_iff sizes s t o).mpr ho
  have hlocated' := (locate_start_add_iff sizes s' t' o').mpr ho'
  rw [← h] at hlocated'
  obtain ⟨rfl, rfl⟩ := Located.unique hlocated' hlocated
  obtain rfl : o = o' := by omega
  rfl

/-- Every address below the heap is that of a place. -/
theorem exists_place {sizes : Sizes} {a : Nat} (ha : a < (ofSizes sizes).heapStart) :
    ∃ s t o, o < sizes.slots s t ∧ ((ofSizes sizes).range s t).start + o = a := by
  cases hlocate : (ofSizes sizes).locate a with
  | none =>
    have hheap := locate_eq_none_iff.mp hlocate
    omega
  | some r =>
    obtain ⟨hr, hcontains⟩ := locate_eq_some hlocate
    obtain ⟨hlow, -⟩ := (contains_iff r a).mp hcontains
    have hsum : ((ofSizes sizes).range r.segment r.ty).start + (a - r.start) = a := by
      rw [← hr]
      omega
    refine ⟨r.segment, r.ty, a - r.start, ?_, hsum⟩
    rw [← locate_start_add_iff, hsum, hlocate, ← hr]

/-- **Addresses below the heap are places.** Whatever the sizes, zeros included: there are twenty
runs, one for each segment and type and as long as asked for, and they follow one another from
address 0 to the start of the heap, which is the sum of all sizes.  An address belongs to no run
exactly when the heap has it; counted from the start of a run, exactly the first addresses, as many
as its size, belong to it.  So each address below the heap is that of one segment, type and offset.
-/
theorem addresses_are_places (sizes : Sizes) :
    let l := ofSizes sizes
    l.rangeList.length = 20 ∧ (∀ s t, l.range s t ∈ l.rangeList) ∧
      (∀ s t, (l.range s t).segment = s ∧ (l.range s t).ty = t ∧
        (l.range s t).len = sizes.slots s t) ∧
      Range.Consecutive 0 l.rangeList l.heapStart ∧
      l.heapStart = (Segment.all.flatMap fun s => Scalar.all.map fun t => sizes.slots s t).foldr
        (· + ·) 0 ∧
      (∀ a, l.locate a = none ↔ l.heapStart ≤ a) ∧
      (∀ s t o, l.locate ((l.range s t).start + o) = some (l.range s t) ↔ o < sizes.slots s t) ∧
      ∀ a < l.heapStart, ∃! p : Segment × Scalar × Nat,
        p.2.2 < sizes.slots p.1 p.2.1 ∧ (l.range p.1 p.2.1).start + p.2.2 = a := by
  intro l
  refine ⟨rfl, ?_, ?_, consecutive_rangeList sizes, heapStart_ofSizes sizes,
    fun a => locate_eq_none_iff, locate_start_add_iff sizes, ?_⟩
  · intro s t
    exact List.mem_map.mpr ⟨(s, t), mem_places s t, rfl⟩
  · intro s t
    show ((ofSizes sizes).range s t).segment = s ∧ _
    rw [range_ofSizes]
    exact ⟨rfl, rfl, rfl⟩
  · intro a ha
    obtain ⟨s, t, o, ho, haddress⟩ := exists_place ha
    refine ⟨(s, t, o), ⟨ho, haddress⟩, ?_⟩
    rintro ⟨s', t', o'⟩ ⟨ho', haddress'⟩
    exact place_unique ho' ho (haddress'.trans haddress.symm)

/-- Two slots everywhere, but none for the first run and none between two others. -/
def emptyRuns : Sizes := ((Sizes.uniform 2).withSlots .globals .int 0).withSlots .locals .float 0

/-- The empty run of the globals starts at the same address as the next one, and is not found there.
-/
theorem addresses_are_places_emptyRuns :
    ((ofSizes emptyRuns).range .globals .int).start = 0 ∧
    ((ofSizes emptyRuns).range .globals .float).start = 0 ∧
      (ofSizes emptyRuns).locate 0 ≠ some ((ofSizes emptyRuns).range .globals .int) ∧
      (ofSizes emptyRuns).locate 0 = some ((ofSizes emptyRuns).range .globals .float) ∧
      10 < (ofSizes emptyRuns).heapStart ∧
      ∃! p : Segment × Scalar × Nat,
        p.2.2 < emptyRuns.slots p.1 p.2.1 ∧
        ((ofSizes emptyRuns).range p.1 p.2.1).start + p.2.2 = 10 := by
  obtain ⟨-, -, -, -, -, -, hlocate, hplaces⟩ := addresses_are_places emptyRuns
  have hempty := hlocate .globals .int 0
  have hfirst := hlocate .globals .float 0
  exact ⟨by decide, by decide, fun h => absurd (hempty.mp h) (by decide), hfirst.mpr (by decide),
    by decide, hplaces 10 (by decide)⟩

end Layout

end Quadruple
