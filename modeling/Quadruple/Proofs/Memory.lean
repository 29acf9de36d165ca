/-
  The slots of a frame are separate memory.

  A local or temporary address that the frame on top has a slot for can be written, reading it then
  gives what was written, converted to its type, and every other address reads as before
  (`Machine.Framed.write`):

      v.coerce? ty = some w  →  ∃ m', m.writeSlot a (some v) = ok m' ∧ Writes m a w m'

  Behind that is that different addresses have different places in the
  rows of the frame: locals come first, temporaries after them (`Frame.index?_ne`).
-/
import Quadruple.Proofs.Addresses
import Quadruple.Machine.Memory

namespace Quadruple

variable {sizes : Sizes} {counts : SlotCounts}
variable {ty : Scalar} {f : Frame} {r : Range} {rest : List Frame}

/-! ## Frames -/

/-- The run belongs to the frame of a function. -/
def Range.inFrame (r : Range) : Prop := r.segment = .locals ∨ r.segment = .temporaries

namespace Frame

/-- The frame has as many slots as counted, and their number is a word. -/
structure Sized (counts : SlotCounts) (f : Frame) : Prop where
  locals : f.localCounts = counts.locals
  rows : ∀ ty, (f.slots.get ty).size = counts.total ty
  words : ∀ ty, IsWord (counts.total ty)

theorem sized_ofCounts (function : String) {counts : SlotCounts} (h : counts.countable = true) :
    (ofCounts function counts).Sized counts := by
  refine ⟨rfl, fun ty => ?_, SlotCounts.countable_iff.mp h⟩
  rw [ofCounts, PerScalar.get_ofFn, Array.size_replicate]

/-- Why an address has no slot depends on how many local slots there are, not on what they hold. -/
theorem absence_congr {f' : Frame} (h : f'.localCounts = f.localCounts) (r : Range) (a : Nat) :
    f'.absence r a = f.absence r a := by
  unfold absence
  rw [h]

/-- Different addresses of one type have different places. -/
theorem index?_ne {a b i j : Nat} {r' : Range} (hr : (Layout.ofSizes sizes).locate a = some r)
    (hr' : (Layout.ofSizes sizes).locate b = some r') (hframe : r.inFrame) (hframe' : r'.inFrame)
    (hty : r'.ty = r.ty) (hne : b ≠ a) (hi : f.index? r a = some i) (hj : f.index? r' b = some j) :
    j ≠ i := by
  obtain ⟨hrange, hin⟩ := Layout.locate_eq_some hr
  obtain ⟨hrange', hin'⟩ := Layout.locate_eq_some hr'
  rw [Layout.contains_iff] at hin hin'
  rw [Layout.range_ofSizes] at hrange hrange'
  unfold index? Range.offset at hi hj
  rw [hty] at hj hrange'
  rcases hframe with hs | hs <;> rcases hframe' with hs' | hs' <;>
    · rw [hs] at hi hrange
      rw [hs'] at hj hrange'
      have hstart := congrArg Range.start hrange
      have hstart' := congrArg Range.start hrange'
      dsimp only at hi hj hstart hstart'
      split at hi
      · split at hj
        · cases hi
          cases hj
          omega
        · cases hj
      · cases hi

/-- The frame after a write to the place `i` of a row. -/
def written (f : Frame) (ty : Scalar) (i : Nat) (v : Option Value) : Frame :=
  { f with slots := f.slots.set ty ((f.slots.get ty).setIfInBounds i v) }

theorem get_written_self (f : Frame) (ty : Scalar) (i : Nat) (v : Option Value) :
    (f.written ty i v).slots.get ty = (f.slots.get ty).setIfInBounds i v :=
      PerScalar.get_set_self _ _ _

theorem get_written_of_ne (f : Frame) {ty' : Scalar} (i : Nat) (v : Option Value) (h : ty' ≠ ty) :
    (f.written ty i v).slots.get ty' = f.slots.get ty' := PerScalar.get_set_of_ne _ _ h

theorem size_written (f : Frame) (ty ty' : Scalar) (i : Nat) (v : Option Value) :
    ((f.written ty i v).slots.get ty').size = (f.slots.get ty').size := by
  by_cases h : ty' = ty
  · subst h
    rw [get_written_self, Array.size_setIfInBounds]
  · rw [get_written_of_ne f i v h]

theorem Sized.written (hf : f.Sized counts) (ty : Scalar) (i : Nat) (v : Option Value) :
    (f.written ty i v).Sized counts :=
  ⟨hf.locals, fun ty' => (size_written f ty ty' i v).trans (hf.rows ty'), hf.words⟩

theorem index?_written (f : Frame) (ty : Scalar) (i : Nat) (v : Option Value) (r : Range)
    (a : Nat) : (f.written ty i v).index? r a = f.index? r a := by
  rw [index?, size_written]
  rfl

/-- A write is seen at its own place only. -/
theorem get?_written_of_ne {i b : Nat} (v : Option Value)
    (h : r.ty = ty → ∀ j, f.index? r b = some j → j ≠ i) :
    (f.written ty i v).get? r b = f.get? r b := by
  unfold get?
  rw [index?_written]
  cases hj : f.index? r b with
  | none => rfl
  | some j =>
    dsimp only
    by_cases hty : r.ty = ty
    · rw [hty, get_written_self, Array.getElem?_setIfInBounds_ne (Ne.symm (h hty j hj))]
    · rw [get_written_of_ne f i v hty]

end Frame

/-! ## Slots -/

/-- What is stored has the slot's type. -/
theorem Value.scalar_of_coerce? {v w : Value} (h : v.coerce? ty = some w) : w.scalar = ty := by
  cases ty <;> cases v <;> cases h <;> rfl

/-- The address is that of a slot of this type that a frame with these counts has. -/
inductive IsSlot (sizes : Sizes) (counts : SlotCounts) (a : Nat) (ty : Scalar) : Prop
  | inLocals
      (located : (Layout.ofSizes sizes).locate a = some ((Layout.ofSizes sizes).range .locals ty))
      (counted : ((Layout.ofSizes sizes).range .locals ty).offset a < counts.locals.get ty)
  | inTemporaries
      (located : (Layout.ofSizes sizes).locate a =
        some ((Layout.ofSizes sizes).range .temporaries ty))
      (counted : ((Layout.ofSizes sizes).range .temporaries ty).offset a < counts.temporaries.get
        ty)

/-- The frame finds the place of a slot, inside its row. -/
theorem IsSlot.index? {a : Nat} (h : IsSlot sizes counts a ty) (hf : f.Sized counts) :
    ∃ r i, (Layout.ofSizes sizes).locate a = some r ∧ r.ty = ty ∧ r.inFrame ∧
      f.index? r a = some i ∧
      i < (f.slots.get ty).size := by
  unfold Frame.index?
  rw [hf.locals, hf.rows]
  cases h with
  | inLocals located counted =>
    refine ⟨_, ((Layout.ofSizes sizes).range .locals ty).offset a, located, ?_⟩
    rw [Layout.range_ofSizes] at counted ⊢
    dsimp only at counted ⊢
    rw [hf.rows]
    unfold SlotCounts.total
    exact ⟨rfl, Or.inl rfl, if_pos (by omega), by omega⟩
  | inTemporaries located counted =>
    refine ⟨_, counts.locals.get ty + ((Layout.ofSizes sizes).range .temporaries ty).offset a,
      located, ?_⟩
    rw [Layout.range_ofSizes] at counted ⊢
    dsimp only at counted ⊢
    have hword := hf.words ty
    rw [hf.rows]
    unfold SlotCounts.total at hword ⊢
    exact ⟨rfl, Or.inr rfl, if_pos ⟨.of_le (by omega) hword, by omega⟩, by omega⟩

namespace Machine

/-- The machine has this layout, and on top a frame with these slots. -/
structure Framed (sizes : Sizes) (counts : SlotCounts) (m : Machine) : Prop where
  layout : m.layout = Layout.ofSizes sizes
  frame : ∃ f rest, m.frames = f :: rest ∧ f.Sized counts

variable {m : Machine} {a : Nat} {ty : Scalar}

/-- Below the heap an address lies where its run belongs. -/
theorem place_of_locate (hlayout : m.layout = Layout.ofSizes sizes)
    (hr : (Layout.ofSizes sizes).locate a = some r) :
    m.place a = .ok (match r.segment with
      | .globals => .global r
      | .locals | .temporaries => .frame r
      | .constants => .constant) := by
  obtain ⟨hrange, hcontains⟩ := Layout.locate_eq_some hr
  rw [hrange] at hcontains
  have hlow := Layout.lt_heapStart hcontains
  rw [place, hlayout, if_neg (by omega), hr]
  cases hs : r.segment <;> simp [hs]

theorem place_inFrame (hlayout : m.layout = Layout.ofSizes sizes)
    (hr : (Layout.ofSizes sizes).locate a = some r) (hframe : r.inFrame) :
    m.place a = .ok (.frame r) := by
  rw [place_of_locate hlayout hr]
  rcases hframe with hs | hs
  · rw [hs]
  · rw [hs]

theorem inFrame_of_place (hlayout : m.layout = Layout.ofSizes sizes)
    (h : m.place a = .ok (.frame r)) : (Layout.ofSizes sizes).locate a = some r ∧ r.inFrame := by
  unfold place at h
  split at h
  · split at h
    · cases h
    · cases h
  · rw [hlayout] at h
    split at h
    · cases h
    · rename_i hr
      split at h
      · cases h
      · rename_i hs
        cases h
        exact ⟨hr, Or.inl hs⟩
      · rename_i hs
        cases h
        exact ⟨hr, Or.inr hs⟩
      · cases h

/-- A constant is read from the table of constants. -/
theorem readSlot_constant (hlayout : m.layout = Layout.ofSizes sizes)
    (hr : Located sizes a .constants ty) : m.readSlot a = .ok (m.constants.find? a) := by
  have hplace : m.place a = .ok .constant := by
    rw [place_of_locate hlayout hr, Layout.range_ofSizes]
  rw [readSlot, hplace]
  rfl

theorem readSlot_frame (hplace : m.place a = .ok (.frame r)) (hframes : m.frames = f :: rest) :
    m.readSlot a = mapped (f.absence r a) (f.get? r a) := by
  rw [readSlot, hplace]
  dsimp only [bind, Except.bind]
  rw [hframes]

/-- A change of the frame on top is seen only where the frames differ. -/
theorem readSlot_setFrame {f' : Frame} (hframes : m.frames = f :: rest)
    (hcounts : f'.localCounts = f.localCounts)
    (h : ∀ r, m.place a = .ok (.frame r) → f'.get? r a = f.get? r a) :
    ({ m with frames := f' :: rest } : Machine).readSlot a = m.readSlot a := by
  cases hplace : m.place a with
  | error e =>
    have hplace' : ({ m with frames := f' :: rest } : Machine).place a = .error e := hplace
    unfold readSlot
    rw [hplace, hplace']
    rfl
  | ok p =>
    have hplace' : ({ m with frames := f' :: rest } : Machine).place a = .ok p := hplace
    cases p with
    | frame r =>
      rw [readSlot_frame hplace hframes, readSlot_frame hplace' rfl, h r hplace,
        Frame.absence_congr hcounts]
    | _ =>
      unfold readSlot
      rw [hplace, hplace']
      rfl

/-- What writing a value to a slot does: the slot holds the value, and nothing else has changed. -/
structure Writes (sizes : Sizes) (counts : SlotCounts) (m : Machine) (a : Nat) (v : Value)
    (m' : Machine) : Prop where
  framed : m'.Framed sizes counts
  written : m'.readSlot a = .ok (some v)
  others : ∀ b, b ≠ a → m'.readSlot b = m.readSlot b
  frames : ∃ frames, m' = { m with frames := frames }

/-- Writing to a slot of the frame succeeds when the value can be stored in it. -/
theorem Framed.write (hm : m.Framed sizes counts) (h : IsSlot sizes counts a ty) {v w : Value}
    (hw : v.coerce? ty = some w) :
    ∃ m', m.writeSlot a (some v) = .ok m' ∧ Writes sizes counts m a w m' := by
  obtain ⟨f, rest, hframes, hf⟩ := hm.frame
  obtain ⟨r, i, hr, hty, hframe, hindex, hlt⟩ := h.index? hf
  have hplace := place_inFrame hm.layout hr hframe
  have hstored : m.stored a (some v) = .ok (some w) := by
    unfold stored Layout.typeOf
    rw [hm.layout, hr]
    dsimp only [Option.map_some]
    rw [hty, hw]
  have hset : f.set? r a (some w) = some (f.written ty i (some w)) := by
    unfold Frame.set?
    rw [hindex, hty]
    rfl
  refine ⟨{ m with frames := f.written ty i (some w) :: rest }, ?_,
    ⟨hm.layout, _, rest, rfl, hf.written ty i (some w)⟩, ?_, ?_, _, rfl⟩
  · unfold writeSlot
    rw [hstored, hplace]
    dsimp only [bind, Except.bind]
    rw [hframes]
    dsimp only
    rw [hset]
    rfl
  · have hplace' :
        ({ m with frames := f.written ty i (some w) :: rest } : Machine).place a = .ok (.frame r) :=
          hplace
    rw [readSlot_frame hplace' rfl]
    unfold Frame.get?
    rw [Frame.index?_written, hindex, hty]
    dsimp only
    rw [Frame.get_written_self, Array.getElem?_setIfInBounds_self_of_lt hlt]
    rfl
  · intro b hne
    refine readSlot_setFrame hframes rfl fun r' hplace' => Frame.get?_written_of_ne _
      fun hty' j hj => ?_
    obtain ⟨hr', hframe'⟩ := inFrame_of_place hm.layout hplace'
    exact Frame.index?_ne hr hr' hframe hframe' (hty'.trans hty.symm) hne hindex hj

end Machine

end Quadruple
