/-
  Memory is one array of independent slots.

  Behind one space of addresses are four kinds of storage: the frame of the globals, the frame on
  top, the constants and the cells of the heap.  In a frame the locals and the temporaries of a type
  share a row.  So what is written at one address could be seen at another in four ways: two runs
  could share a row and a place in it, a run could be longer than what the frame has of it, the heap
  could have fewer cells than addresses, or a sum could be no word.

  1. Inside one row, addresses of one run have different places, and the temporaries start where the
     locals end (`Frame.index?_ne`, `Frame.index?_ne_of_run`).  An address past the slots of a frame
     has no place at all.
  2. Which storage an address belongs to depends on the layout and on the extent of the heap, which
     a write leaves alone.
  3. The heap has a cell for each of its addresses, in every state of a run (`Machine.Equipped`).
  4. With  n  locals,  k  temporaries and  o  for the place of an address in its run, the sums taken
     are
         n + k                  (the row)
         n + o                  (the place of a temporary)
         heapStart + heapSize   (the end of the heap).
     A frame whose first sum is no word is never made, a temporary whose second one is no word has
     no place, and the third is a condition on the machine.
-/
import Quadruple.Proofs.HeapAllocation
import Quadruple.Proofs.TypedMemory

namespace Quadruple

variable {sizes : Sizes}

/-! ## Frames -/

namespace Frame

variable {f f' : Frame} {r r' : Range} {a b : Nat} {w : Option Value}

/-- Different addresses of one run have different places. -/
theorem index?_ne_of_run {i j : Nat} (ha : r.start ≤ a) (hb : r.start ≤ b) (hne : b ≠ a)
    (hi : f.index? r a = some i) (hj : f.index? r b = some j) : j ≠ i := by
  unfold index? Range.offset at hi hj
  dsimp only at hi hj
  cases hsegment : r.segment <;>
    simp only [hsegment, Option.ite_none_right_eq_some, Option.some.injEq] at hi hj <;> grind

/-- An address has a place that can be filled exactly when it has one that can be read. -/
theorem exists_set?_iff : (∃ f', f.set? r a w = some f') ↔ ∃ u, f.get? r a = some u := by
  unfold set? get?
  cases hi : f.index? r a with
  | none => simp
  | some i => simp [lt_of_index? hi]

/-- What is put into a slot is seen in no slot with another place. -/
theorem get?_of_set?_of_ne (hset : f.set? r a w = some f')
    (h : r'.ty = r.ty → ∀ i j, f.index? r a = some i → f.index? r' b = some j → j ≠ i) :
    f'.get? r' b = f.get? r' b := by
  obtain ⟨i, hi, rfl⟩ := set?_eq_some hset
  exact get?_written_of_ne w fun hty j hj => h hty i j hi hj

end Frame

/-! ## What is stored -/

/-- What is stored at an address for a value: nothing for nothing, in a cell of the heap the value
itself, and elsewhere the value converted to the type of the slot. -/
inductive Layout.Converts (l : Layout) (a : Nat) : Option Value → Option Value → Prop
  | nothing : Converts l a none none
  | cell {v : Value} (inHeap : l.heapStart ≤ a) : Converts l a (some v) (some v)
  | slot {v w : Value} {ty : Scalar} (declared : l.typeOf a = some ty)
      (converted : v.coerce? ty = some w) :
      Converts l a (some v) (some w)

namespace Machine

variable {m m' : Machine} {a b : Nat} {v w : Option Value} {r : Range}

/-- A store succeeds on the values the slot converts, and on no other. -/
theorem stored_eq_ok_iff (hlayout : m.layout = Layout.ofSizes sizes) :
    m.stored a v = .ok w ↔ (Layout.ofSizes sizes).Converts a v w := by
  unfold stored
  rw [hlayout]
  constructor
  · intro h
    split at h
    · rename_i u ty hty
      split at h
      · rename_i u' hu'
        cases h
        exact .slot hty hu'
      · cases h
    · rename_i hnone
      cases h
      cases w with
      | none => exact .nothing
      | some u =>
        refine .cell (Layout.locate_eq_none_iff.mp ?_)
        cases hlocate : (Layout.ofSizes sizes).locate a with
        | none => rfl
        | some r => exact (hnone u r.ty rfl (by rw [Layout.typeOf, hlocate, Option.map_some])).elim
  · intro h
    cases h with
    | nothing => rfl
    | cell hheap =>
      have htype : (Layout.ofSizes sizes).typeOf a = none := by
        rw [Layout.typeOf, Layout.locate_eq_none_iff.mpr hheap, Option.map_none]
      rw [htype]
    | slot hty hconverted => rw [hty]; dsimp only; rw [hconverted]

/-! ## Where addresses lie -/

/-- Where an address lies depends on the layout and on the extent of the heap. -/
theorem place_congr (hlayout : m'.layout = m.layout) (hblocks : m'.heap.blocks = m.heap.blocks)
    (a : Nat) : m'.place a = m.place a := by
  unfold place Heap.contains
  rw [hlayout, hblocks]

theorem segment_of_place (hlayout : m.layout = Layout.ofSizes sizes)
    (h : m.place a = .ok (.global r)) :
    (Layout.ofSizes sizes).locate a = some r ∧ r.segment = .globals := by
  have hlocate := locate_of_place (Or.inl h)
  rw [hlayout] at hlocate
  rw [place_of_locate hlayout hlocate] at h
  refine ⟨hlocate, ?_⟩
  cases hsegment : r.segment <;> rw [hsegment] at h <;> first | rfl | cases h

theorem contains_of_place (h : m.place a = .ok .heap) : m.heap.contains a = true := by
  unfold place at h
  split at h
  · split at h
    · assumption
    · cases h
  · split at h
    · cases h
    · split at h <;> cases h

/-- The address of a constant belongs to the segment of constants. -/
theorem place_eq_constant_iff (hlayout : m.layout = Layout.ofSizes sizes) :
    m.place a = .ok .constant ↔ (Layout.ofSizes sizes).segmentOf a = some .constants := by
  unfold Layout.segmentOf
  cases hlocate : (Layout.ofSizes sizes).locate a with
  | none =>
    have hheap := Layout.locate_eq_none_iff.mp hlocate
    rw [place, hlayout, if_pos hheap]
    split <;> simp
  | some r =>
    rw [place_of_locate hlayout hlocate, Option.map_some]
    cases r.segment <;> simp

/-! ## Reading -/

/-- What reading an address depends on: where it lies, and what is stored there. -/
theorem readSlot_congr (hplace : m'.place b = m.place b) (hframes : m'.frames = m.frames)
    (hconstants : m'.constants = m.constants)
    (hcounts : m'.globals.localCounts = m.globals.localCounts)
    (hglobals : ∀ r, m.place b = .ok (.global r) → m'.globals.get? r b = m.globals.get? r b)
    (hheap : m.place b = .ok .heap → m'.heap.read b = m.heap.read b) :
    m'.readSlot b = m.readSlot b := by
  unfold readSlot
  rw [hplace, hframes, hconstants]
  cases hp : m.place b with
  | error e => rfl
  | ok place =>
    cases place with
    | global r =>
      dsimp only [bind, Except.bind]
      rw [hglobals r hp, Frame.absence_congr hcounts]
    | frame r => rfl
    | constant => rfl
    | heap =>
      dsimp only [bind, Except.bind]
      rw [hheap hp]

theorem readSlot_global (h : m.place a = .ok (.global r)) :
    m.readSlot a = mapped (m.globals.absence r a) (m.globals.get? r a) := by
  rw [readSlot, h]
  rfl

theorem readSlot_heap (h : m.place a = .ok .heap) : m.readSlot a = heapResult (m.heap.read a) := by
  rw [readSlot, h]
  rfl

theorem mapped_eq_ok_iff {α : Type} {absence : Fault} {o : Option α} {u : α} :
    mapped absence o = .ok u ↔ o = some u := by
  cases o <;> simp [mapped]

/-! ## Writing -/

/-- The value is in the slot, every other slot is as it was, and nothing that is no slot has
changed. -/
structure SlotSet (m : Machine) (a : Nat) (w : Option Value) (m' : Machine) : Prop where
  written : m'.readSlot a = .ok w
  others : ∀ b, b ≠ a → m'.readSlot b = m.readSlot b
  constants : m'.constants = m.constants
  callers : m'.frames.tail = m.frames.tail
  pending : m'.pending = m.pending
  blocks : m'.heap.blocks = m.heap.blocks

theorem slotSet_global {globals : Frame} (hlayout : m.layout = Layout.ofSizes sizes)
    (hplace : m.place a = .ok (.global r)) (hset : m.globals.set? r a w = some globals) :
    SlotSet m a w { m with globals := globals } := by
  refine ⟨?_, ?_, rfl, rfl, rfl, rfl⟩
  · rw [readSlot_global (m := { m with globals := globals }) hplace, Frame.get?_of_set? hset]
    rfl
  · intro b hne
    refine readSlot_congr rfl rfl rfl (Frame.sameShape_of_set? hset).localCounts (fun r' hplace' =>
      ?_) fun _ => rfl
    refine Frame.get?_of_set?_of_ne hset fun hty i j hi hj => ?_
    obtain ⟨hr, hsegment⟩ := segment_of_place hlayout hplace
    obtain ⟨hr', hsegment'⟩ := segment_of_place hlayout hplace'
    obtain ⟨hrange, hin⟩ := Layout.locate_eq_some hr
    obtain ⟨hrange', hin'⟩ := Layout.locate_eq_some hr'
    -- the globals of one type are one run
    obtain rfl : r' = r := by rw [hrange', hrange, hty, hsegment, hsegment']
    rw [Layout.contains_iff] at hin hin'
    exact Frame.index?_ne_of_run hin.1 hin'.1 hne hi hj

theorem slotSet_frame {f f' : Frame} {rest : List Frame} (hlayout : m.layout = Layout.ofSizes sizes)
    (hplace : m.place a = .ok (.frame r)) (hframes : m.frames = f :: rest)
    (hset : f.set? r a w = some f') : SlotSet m a w { m with frames := f' :: rest } := by
  refine ⟨?_, ?_, rfl, ?_, rfl, rfl⟩
  · rw [readSlot_frame (m := { m with frames := f' :: rest }) hplace rfl, Frame.get?_of_set? hset]
    rfl
  · intro b hne
    refine readSlot_setFrame hframes (Frame.sameShape_of_set? hset).localCounts fun r' hplace' =>
      Frame.get?_of_set?_of_ne hset fun hty i j hi hj => ?_
    obtain ⟨hr, hframe⟩ := inFrame_of_place hlayout hplace
    obtain ⟨hr', hframe'⟩ := inFrame_of_place hlayout hplace'
    exact Frame.index?_ne hr hr' hframe hframe' hty hne hi hj
  · rw [hframes]
    rfl

theorem slotSet_heap {heap : Heap} (hheap : m.heap.Sound) (hplace : m.place a = .ok .heap)
    (hwrite : m.heap.write a w = .ok heap) : SlotSet m a w { m with heap := heap } := by
  have hinside := contains_of_place hplace
  have hblocks : heap.blocks = m.heap.blocks := by rw [Heap.write_eq_ok hwrite]
  have hplaces : ∀ b, place { m with heap := heap } b = m.place b := place_congr rfl hblocks
  refine ⟨?_, ?_, rfl, rfl, rfl, hblocks⟩
  · rw [readSlot_heap ((hplaces a).trans hplace)]
    show heapResult (heap.read a) = _
    rw [hheap.read_of_write hwrite hinside]
    rfl
  · intro b hne
    exact readSlot_congr (hplaces b) rfl rfl rfl (fun _ _ => rfl) fun _ =>
      Heap.read_of_write_of_ne hwrite hinside hne

/-- The machine is set up for the program: it has its layout, the heap lies behind the runs and has
a cell for each of its addresses, and all addresses are words. -/
structure Equipped (p : Program) (m : Machine) : Prop where
  layout : m.layout = p.layout
  heap : m.heap.Sound
  base : m.heap.blocks.base = p.layout.heapStart
  words : IsWord (m.heap.blocks.base + m.heap.blocks.size)

variable {p : Program}

/-- An address that can be read is a word: it lies in a run, and so below the heap, or in the heap.
-/
theorem Equipped.isWord (hm : m.Equipped p) {u : Option Value} (h : m.readSlot a = .ok u) :
    IsWord a := by
  have hlayout : m.layout = Layout.ofSizes p.sizes := hm.layout
  have hbase : m.heap.blocks.base = (Layout.ofSizes p.sizes).heapStart := hm.base
  cases hlocate : (Layout.ofSizes p.sizes).locate a with
  | some r =>
    obtain ⟨hrange, hin⟩ := Layout.locate_eq_some hlocate
    rw [hrange] at hin
    have hlow := Layout.lt_heapStart hin
    rw [← hbase] at hlow
    exact .of_le (Nat.le_trans (Nat.le_of_lt hlow) (Nat.le_add_right _ _)) hm.words
  | none =>
    have hplace : ∃ place, m.place a = .ok place := by
      cases hplace : m.place a with
      | ok place => exact ⟨place, rfl⟩
      | error e =>
        rw [readSlot, hplace] at h
        cases h
    obtain ⟨place, hplace⟩ := hplace
    rw [Machine.place, hlayout, if_pos (Layout.locate_eq_none_iff.mp hlocate)] at hplace
    split at hplace
    · rename_i hin
      exact .of_le (Nat.le_of_lt (Heap.contains_iff.mp hin).2) hm.words
    · cases hplace

theorem Equipped.slotSet (hm : m.Equipped p) (h : m.writeSlot a v = .ok m') :
    ∃ w, p.layout.Converts a v w ∧ SlotSet m a w m' := by
  obtain ⟨w, hstored, hwhere⟩ := writeSlot_eq_ok_iff.mp h
  refine ⟨w, (stored_eq_ok_iff hm.layout).mp hstored, ?_⟩
  obtain ⟨r, globals, hplace, hset, rfl⟩ | ⟨r, f, f', rest, hplace, hframes, hset, rfl⟩ |
    ⟨heap, hplace, hwrite, rfl⟩ := hwhere
  · exact slotSet_global hm.layout hplace hset
  · exact slotSet_frame hm.layout hplace hframes hset
  · exact slotSet_heap hm.heap hplace hwrite

/-- A slot can be written exactly when it can be read, is no constant and suits the value. -/
theorem Equipped.writeSlot_isOk_iff (hm : m.Equipped p) (hframe : m.frames ≠ []) :
    (∃ m', m.writeSlot a v = .ok m') ↔
      (∃ w, p.layout.Converts a v w) ∧ (∃ u, m.readSlot a = .ok u) ∧
        p.layout.segmentOf a ≠ some .constants := by
  have hlayout : m.layout = Layout.ofSizes p.sizes := hm.layout
  show _ ↔ (∃ w, (Layout.ofSizes p.sizes).Converts a v w) ∧ _ ∧
      (Layout.ofSizes p.sizes).segmentOf a ≠ _
  simp only [writeSlot_eq_ok_iff, ← stored_eq_ok_iff hlayout, Ne, ← place_eq_constant_iff hlayout]
  constructor
  · rintro ⟨m', w, hstored, hwhere⟩
    refine ⟨⟨w, hstored⟩, ?_⟩
    obtain ⟨r, globals, hplace, hset, -⟩ | ⟨r, f, f', rest, hplace, hframes, hset, -⟩ |
      ⟨heap, hplace, hwrite, -⟩ := hwhere
    · obtain ⟨u, hu⟩ := Frame.exists_set?_iff.mp ⟨globals, hset⟩
      rw [readSlot_global hplace, hplace]
      exact ⟨⟨u, mapped_eq_ok_iff.mpr hu⟩, fun h => by cases h⟩
    · obtain ⟨u, hu⟩ := Frame.exists_set?_iff.mp ⟨f', hset⟩
      rw [readSlot_frame hplace hframes, hplace]
      exact ⟨⟨u, mapped_eq_ok_iff.mpr hu⟩, fun h => by cases h⟩
    · rw [readSlot_heap hplace, hplace, Heap.read, if_pos (contains_of_place hplace)]
      exact ⟨⟨_, rfl⟩, fun h => by cases h⟩
  · rintro ⟨⟨w, hstored⟩, ⟨u, hu⟩, hconstant⟩
    obtain ⟨f, rest, hframes⟩ := List.exists_cons_of_ne_nil hframe
    cases hplace : m.place a with
    | error e =>
      rw [readSlot, hplace] at hu
      cases hu
    | ok place =>
      cases place with
      | global r =>
        rw [readSlot_global hplace, mapped_eq_ok_iff] at hu
        obtain ⟨globals, hset⟩ := Frame.exists_set?_iff.mpr ⟨u, hu⟩
        exact ⟨_, w, hstored, Or.inl ⟨r, globals, rfl, hset, rfl⟩⟩
      | frame r =>
        rw [readSlot_frame hplace hframes, mapped_eq_ok_iff] at hu
        obtain ⟨f', hset⟩ := Frame.exists_set?_iff.mpr ⟨u, hu⟩
        exact ⟨_, w, hstored, Or.inr (Or.inl ⟨r, f, f', rest, rfl, hframes, hset, rfl⟩)⟩
      | constant => exact (hconstant hplace).elim
      | heap =>
        exact ⟨_, w, hstored, Or.inr (Or.inr ⟨_, rfl, if_pos (contains_of_place hplace), rfl⟩)⟩

/-! ## Runs -/

/-- The machine is set up for the program afterwards if it was before. -/
def StaysEquipped (p : Program) (m m' : Machine) : Prop := m.Equipped p → m'.Equipped p

instance : IsPreorder Machine (StaysEquipped p) where
  refl _ := id
  trans _ _ _ h₁ h₂ := h₂ ∘ h₁

/-- A heap that is sound and stays where it is keeps the machine set up. -/
theorem StaysEquipped.of_heap (hlayout : m'.layout = m.layout)
    (hsound : m.heap.Sound → m'.heap.Sound)
    (hextent : m'.heap.blocks.base = m.heap.blocks.base ∧ m'.heap.blocks.size = m.heap.blocks.size)
    : StaysEquipped p m m' := by
  intro hm
  refine ⟨hlayout.trans hm.layout, hsound hm.heap, hextent.1.trans hm.base, ?_⟩
  rw [hextent.1, hextent.2]
  exact hm.words

theorem StaysEquipped.of_eq (hlayout : m'.layout = m.layout) (hheap : m'.heap = m.heap) :
    StaysEquipped p m m' :=
  .of_heap hlayout (hheap ▸ id) (hheap ▸ ⟨rfl, rfl⟩)

theorem Touch.staysEquipped (h : Touch m m') : StaysEquipped p m m' := by
  cases h with
  | journal _ | console _ => exact .of_eq rfl rfl
  | allocate hallocate =>
    exact .of_heap rfl (·.allocate hallocate)
      (Blocks.extent_allocate (Heap.allocate_blocks hallocate))
  | release hrelease => exact .of_heap rfl (·.release hrelease) (Heap.extent_release hrelease)
  | write hwrite =>
    obtain ⟨_, _, _, -, -, -, rfl⟩ | ⟨_, _, _, _, _, -, -, -, -, rfl⟩ | ⟨_, _, hcell, rfl⟩ :=
      writeSlot_eq_ok hwrite
    · exact .of_eq rfl rfl
    · exact .of_eq rfl rfl
    · exact .of_heap rfl (·.write hcell) (by rw [Heap.write_eq_ok hcell]; exact ⟨rfl, rfl⟩)

/-- A step keeps the machine equipped, however it ends. -/
theorem staysEquipped_advance (m : Machine) : StaysEquipped p m m.advance.machine :=
  rel_advance (R := StaysEquipped p) (fun _ _ _ _ => .of_eq rfl rfl)
    (Exec.moves_execute_of_touch Touch.staysEquipped fun _ _ _ _ _ => .of_eq rfl rfl) m

/-- It is equipped at the start. -/
theorem equipped_start {m₀ : Machine} (hheap : IsWord (p.heapStart + m.limits.heapSize))
    (h : m.start p = .ok m₀) : m₀.Equipped p := by
  unfold start load at h
  dsimp only at h
  split at h
  · cases h
  rename_i hload
  cases h
  split at hload
  · cases hload
  split at hload
  · cases hload
  rename_i hlayout
  split at hload
  · cases hload
  split at hload
  · cases hload
  cases hload
  rw [← not_not.mp hlayout] at hheap
  exact ⟨rfl, Heap.sound_ofSize _ _, rfl, hheap⟩

/-- In every state of a run the machine is set up for the program. -/
theorem equipped_after {m₀ s : Machine} {n : Nat} (hheap : IsWord (p.heapStart + m.limits.heapSize))
    (hstart : m.start p = .ok m₀) (hs : m₀.after n = some s) : s.Equipped p := by
  refine after_induction (equipped_start hheap hstart) ?_ hs
  intro s s' hs hstep
  have hstays := staysEquipped_advance s hs
  rwa [hstep] at hstays

/-- **Slots are independent.** In every state of a run of any program whose addresses, those of the
heap included, are words, also in the state in which the run halts or stops with an error, as long
as a function is active: an address that can be read is a word.  It can be written exactly when it
can be read, is no constant and suits the value.  Reading it then gives what was written, converted
to the type of the slot; reading any other address gives what it gave before; and constants, the
frames of the callers, reserved frames and the blocks of the heap are as they were.  A write that
fails changes nothing at all. -/
theorem slots_are_independent {m m₀ s t : Machine} {p : Program} {n : Nat}
    (hheap : IsWord (p.heapStart + m.limits.heapSize)) (hstart : m.start p = .ok m₀)
    (hs : m₀.after n = some s) (ht : t = s ∨ t = s.advance.machine) (hframe : t.frames ≠ [])
    (a : Nat) (v : Option Value) :
    (∀ u, t.readSlot a = .ok u → IsWord a) ∧
    ((∃ t', Yields (Exec.update (·.writeSlot a v)) t () t') ↔
      (∃ w, p.layout.Converts a v w) ∧ (∃ u, t.readSlot a = .ok u) ∧
        p.layout.segmentOf a ≠ some .constants) ∧
    (∀ t', Yields (Exec.update (·.writeSlot a v)) t () t' →
      ∃ w, p.layout.Converts a v w ∧ SlotSet t a w t') ∧
    ∀ e t', Fails (Exec.update (·.writeSlot a v)) t e t' → t' = t := by
  have hequipped : t.Equipped p := by
    rcases ht with rfl | rfl
    · exact equipped_after hheap hstart hs
    · exact staysEquipped_advance s (equipped_after hheap hstart hs)
  refine ⟨fun _ => hequipped.isWord, ?_, ?_, ?_⟩
  · simp only [Exec.yields_update]
    exact hequipped.writeSlot_isOk_iff hframe
  · intro t' hwrite
    exact hequipped.slotSet (Exec.yields_update.mp hwrite)
  · intro e t' hfails
    exact (Exec.fails_update.mp hfails).2

/-- A function whose frames have two locals and one temporary of each type, in a layout with room
for three of each: the temporary has the place that a third local would have. -/
def sharedRow : Program :=
  { Program.ofSizes (Sizes.uniform 3) with
    constants := Table.ofList [(45, ⟨.int 5, .int⟩)]
    functions := Table.ofList
      [("main", { Routine.startingAt 0 with slots := ⟨PerScalar.const 2, PerScalar.const 1⟩ })]
    quads := #[⟨.assign, some (.addr 45), none, some (.addr 19)⟩, ⟨.endFunc, none, none, none⟩] }

/-- The first state of `sharedRow`. -/
def sharedRowStart : Machine :=
  (ofConsole ⟨2, none, 0⟩ (Console.ofInput []) .warn).startState sharedRow

/-- After the first step of `sharedRow` an integer goes to the temporary as a float, the local keeps
what it has, and the address of a third local is none. -/
theorem slots_are_independent_sharedRow :
    ∃ m₀ s t, (ofConsole ⟨2, none, 0⟩ (Console.ofInput []) .warn).start sharedRow = .ok m₀ ∧
      m₀.after 1 = some s ∧
      s.frames ≠ [] ∧ Yields (Exec.update (·.writeSlot 33 (some (.int 7)))) s () t ∧
      t.readSlot 33 = .ok (some (.float (Binary64.ofInt 7))) ∧
      t.readSlot 19 = .ok (some (.float (Binary64.ofInt 5))) ∧
      ¬ ∃ t', Yields (Exec.update (·.writeSlot 20 (some (.int 7)))) s () t' := by
  have hstart :
      (ofConsole ⟨2, none, 0⟩ (Console.ofInput []) .warn).start sharedRow = .ok sharedRowStart :=
    start_eq_startState (by decide +kernel)
  obtain ⟨s, hs, hframe, hlocal, hthird, htemporary⟩ : ∃ s, sharedRowStart.after 1 = some s ∧
      s.frames ≠ [] ∧ s.readSlot 19 = .ok (some (.float (Binary64.ofInt 5))) ∧
      s.readSlot 20 = .error (.invalidAddress 20) ∧ s.readSlot 33 = .ok none :=
    ⟨(sharedRowStart.after 1).get (by decide +kernel),
      by decide +kernel, by decide +kernel, by decide +kernel,
      by decide +kernel, by decide +kernel⟩
  obtain ⟨-, hiff, hset, -⟩ :=
    slots_are_independent (by decide) hstart hs (Or.inl rfl) hframe 33 (some (.int 7))
  have hconverts :
      sharedRow.layout.Converts 33 (some (.int 7)) (some (.float (Binary64.ofInt 7))) :=
    .slot (show _ = some .float by decide +kernel) (by decide +kernel)
  obtain ⟨t, ht⟩ := hiff.mpr ⟨⟨_, hconverts⟩, ⟨_, htemporary⟩, by decide +kernel⟩
  obtain ⟨w, hw, hwritten⟩ := hset t ht
  have hfloat : w = some (.float (Binary64.ofInt 7)) :=
    Except.ok.inj (((stored_eq_ok_iff (m := sharedRowStart) rfl).mpr hw).symm.trans
      ((stored_eq_ok_iff (m := sharedRowStart) rfl).mpr hconverts))
  refine ⟨_, s, t, hstart, hs, hframe, ht, hfloat ▸ hwritten.written,
    (hwritten.others 19 (by decide)).trans hlocal, ?_⟩
  intro hthirdWritten
  obtain ⟨-, hiff', -⟩ :=
    slots_are_independent (by decide) hstart hs (Or.inl rfl) hframe 20 (some (.int 7))
  obtain ⟨-, ⟨u, hu⟩, -⟩ := hiff'.mp hthirdWritten
  rw [hthird] at hu
  cases hu

end Machine

end Quadruple
