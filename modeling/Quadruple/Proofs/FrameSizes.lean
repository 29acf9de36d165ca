/-
  Frames have a slot for every address that the code of their function uses.

  With `n` local and `k` temporary slots recorded for a function, and `o` for the place of an
  address in its run:
      o < n  for a local,     o < k  for a temporary,     n + k < 2 ^ 64.
  The compiler records the slots of a function when it closes it; the ledger says that the quads of
  its body and its parameters are covered by what it records (`hasSlot_of_compile`), and the sum is
  a word since the program can be loaded.  The machine makes every frame with the slots recorded for
  its function, and no step changes how many there are (`Fits`, with `fits_advance` for a step and
  `fits_after` for a run).  So in a frame of a function an address of its code can be read, and a
  write to it fails only for what is written or because it is a constant (`Fits.serves`).
-/
import Quadruple.Proofs.FrameSteps
import Quadruple.Proofs.InOrder
import Quadruple.Proofs.Loading

namespace Quadruple

variable {sizes : Sizes} {a : Nat} {p : Program} {counts : SlotCounts} {m s : Machine}

/-! ## What the compiler records -/

/-- The function uses the address: a quad of its body names it, or it is that of a parameter. -/
def Program.Uses (p : Program) (r : Routine) (a : Nat) : Prop :=
  a ∈ r.paramAddresses ∨
    ∃ (n : Nat) (q : Quad), p.StartsLast r.startQuad n ∧ p.quads[n]? = some q ∧ a ∈ q.addresses

theorem Covered.lt_heapStart {constants : Table Nat Constant} {count : Segment → Scalar → Nat}
    (h : Covered sizes constants count a) : a < (Layout.ofSizes sizes).heapStart := by
  obtain ⟨segment, ty, hlocated, -⟩ := h
  exact Layout.lt_heapStart (Layout.locate_eq_some hlocated).2

theorem hasSlot_of_compile {threshold : Level} {events : List Event} {names : Names}
    (h : (compile threshold sizes events).1 = .ok (p, names))
    (hevents : ∀ e ∈ events, e.namesAddress = false) {f : String} {r : Routine}
    (hr : p.functions.find? f = some r) (ha : p.Uses r a) :
    a < p.heapStart ∧ p.HasSlot r.slots a := by
  obtain ⟨g, g', haccepts, hfinish⟩ := accepts_of_compile h
  obtain ⟨hnone, -, -, -, rfl⟩ := Compile.yields_finish hfinish
  obtain ⟨since, hledger⟩ := haccepts.inOrder hevents
  -- no function is open, so every function is closed and all quads belong to closed functions
  have hsince := hledger.extents.idle hnone
  obtain ⟨-, hparams, hbody⟩ := hledger.extents.closed f r hr (by simp [Generator.account, hnone])
  have hcovers : g.account.Covers sizes r.slots a := by
    rcases ha with ha | ⟨n, q, hlast, hq, ha⟩
    · exact hparams a ha
    · have hlt : n < g.program.quads.size := (Array.getElem?_eq_some_iff.mp hq).1
      exact hbody n q (by rw [hsince]; exact hlt) hlast hq a ha
  refine ⟨?_, ?_⟩
  · show a < g.account.program.heapStart
    rw [hledger.heapStart_eq]
    exact Covered.lt_heapStart hcovers
  · show Covered g.account.program.sizes _ _ a
    rw [hledger.sizes_eq]
    exact hcovers

/-! ## What the machine makes of it -/

namespace Frame

/-- A slot that is counted for its run has a place in its row. -/
theorem Sized.exists_index {f : Frame} (hf : f.Sized counts) {segment : Segment} {ty : Scalar}
    (hsegment : segment ≠ .constants)
    (hlt : ((Layout.ofSizes sizes).range segment ty).offset a < if segment =
      .temporaries then counts.temporaries.get ty else counts.locals.get ty) :
    ∃ i, f.index? ((Layout.ofSizes sizes).range segment ty) a = some i ∧
      i < (f.slots.get ty).size := by
  rw [Layout.range_ofSizes] at hlt ⊢
  have hrow := hf.rows ty
  have hword := hf.words ty
  unfold SlotCounts.total at hrow hword
  simp only [index?, hf.locals]
  cases segment with
  | constants => exact (hsegment rfl).elim
  | temporaries =>
    rw [if_pos rfl] at hlt
    exact ⟨_, if_pos ⟨.of_le (by omega) hword, by omega⟩, by omega⟩
  | globals | locals =>
    rw [if_neg (by decide)] at hlt
    exact ⟨_, if_pos (by omega), by omega⟩

variable {f : Frame} {r : Range} {a i : Nat}

theorem exists_get? (hi : f.index? r a = some i) (hlt : i < (f.slots.get r.ty).size) :
    ∃ v, f.get? r a = some v := by
  refine ⟨(f.slots.get r.ty)[i], ?_⟩
  simp only [get?, hi]
  exact Array.getElem?_eq_getElem hlt

theorem exists_set? (hi : f.index? r a = some i) (v : Option Value) :
    ∃ f', f.set? r a v = some f' := by
  refine ⟨f.written r.ty i v, ?_⟩
  simp only [set?, hi]
  rfl

end Frame

namespace Machine

/-- With the frame on top the address can be read, and writing to it fails only when the value is
not of the type of the slot or the address is that of a constant: neither for want of a slot nor by
an overflow. -/
def Serves (s : Machine) (frame : Frame) (a : Nat) : Prop :=
  ∀ rest, (∃ v, { s with frames := frame :: rest }.readSlot a = .ok v) ∧
    ∀ v f, { s with frames := frame :: rest }.writeSlot a v = .error f →
      (∃ ty, f = .typeError (.cannotStore ty a)) ∨ f = .internal (.writeToConstant a)

/-- A state of a run of the program: all frames have the slots recorded for their functions. -/
structure Fits (p : Program) (s : Machine) : Prop where
  layout : s.layout = p.layout
  functions : s.functions = p.functions
  globals : s.globals.Sized p.globals
  frames : ∀ frame ∈ s.frames ++ s.pending, ∃ r, p.functions.find? frame.function = some r ∧
    frame.Sized r.slots

/-- The first frame fits. -/
theorem fits_start {m₀ : Machine} (h : m.start p = .ok m₀) : m₀.Fits p := by
  obtain ⟨main, h₀⟩ := exists_started h
  refine ⟨h₀.layout, h₀.functions, ?_, ?_⟩
  · rw [h₀.globals]
    exact Frame.sized_ofCounts _ h₀.countable.1
  · intro frame hframe
    rw [h₀.frames, h₀.pending] at hframe
    obtain rfl := List.mem_singleton.mp hframe
    exact ⟨main, h₀.entry, Frame.sized_ofCounts _ h₀.countable.2⟩

/-- A step keeps frames fitting. -/
theorem fits_advance {s' : Machine} (hs : s.Fits p) (h : s.advance = .running s') : s'.Fits p := by
  obtain ⟨-, -, hsame, -⟩ := advance_running h
  obtain ⟨q, -, hstep⟩ := frameStep_of_running h
  have hlayout := hsame.layout.trans hs.layout
  have hfunctions := hsame.functions.trans hs.functions
  obtain ⟨hactive, hreserved⟩ := List.forall_mem_append.mp hs.frames
  cases hstep with
  | @reserve f r _ _ hknown hpending hkept hglobals hcounted =>
    refine ⟨hlayout, hfunctions, hglobals ▸ hs.globals, ?_⟩
    rw [hkept, hpending, List.forall_mem_append, List.forall_mem_cons]
    exact ⟨hactive, ⟨r, hs.functions ▸ hknown, Frame.sized_ofCounts f hcounted⟩, hreserved⟩
  | pass _ _ htop _ _ _ _ hfilled hpending hkept hglobals =>
    refine ⟨hlayout, hfunctions, hglobals ▸ hs.globals, ?_⟩
    rw [htop, List.forall_mem_cons] at hreserved
    obtain ⟨⟨r, hr, hsized⟩, hrest⟩ := hreserved
    have hshape := Frame.sameShape_of_set? hfilled
    rw [hkept, hpending, List.forall_mem_append, List.forall_mem_cons]
    exact ⟨hactive, ⟨r, hshape.function ▸ hr, hshape.sized hsized⟩, hrest⟩
  | enter _ _ _ htop hpending hentered hglobals =>
    refine ⟨hlayout, hfunctions, hglobals ▸ hs.globals, ?_⟩
    rw [htop, List.forall_mem_cons] at hreserved
    rw [hentered, hpending, List.forall_mem_append, List.forall_mem_cons]
    exact ⟨⟨hreserved.1, hactive⟩, hreserved.2⟩
  | leave _ hpending hleft hglobals =>
    refine ⟨hlayout, hfunctions, hglobals ▸ hs.globals, ?_⟩
    rw [hleft, hpending, List.forall_mem_append]
    exact ⟨fun frame hframe => hactive frame (List.mem_of_mem_tail hframe), hreserved⟩
  | keep _ hkept =>
    refine ⟨hlayout, hfunctions, hkept.globals.sized hs.globals, ?_⟩
    rw [hkept.pending, List.forall_mem_append]
    refine ⟨fun frame hnew => ?_, hreserved⟩
    obtain ⟨frame₀, hmem, hshape⟩ := hkept.frames frame hnew
    obtain ⟨r, hr, hsized⟩ := hactive frame₀ hmem
    exact ⟨r, hshape.function ▸ hr, hshape.sized hsized⟩

/-- So all frames of a run fit. -/
theorem fits_after {m₀ : Machine} {n : Nat} (h : m.start p = .ok m₀) (hs : m₀.after n = some s) :
    s.Fits p := after_induction (fits_start h) fits_advance hs

/-! ## Reading and writing -/

/-- Conversion to the type of a slot fails only for want of one. -/
theorem stored_eq_error {f : Fault} {v : Option Value} (h : m.stored a v = .error f) :
    ∃ ty, f = .typeError (.cannotStore ty a) := by
  unfold stored at h
  split at h
  · split at h
    · cases h
    · cases h
      exact ⟨_, rfl⟩
  · cases h

/-- The frame of a function serves the addresses that have slots with the counts of the function. -/
theorem Fits.serves (hs : s.Fits p) {frame : Frame} (hframe : frame.Sized counts)
    (ha : p.HasSlot counts a) : s.Serves frame a := by
  obtain ⟨segment, ty, hlocated, hslot, -⟩ := ha
  intro rest
  have hplace := place_of_locate (m := { s with frames := frame :: rest }) hs.layout hlocated
  rw [show ((Layout.ofSizes p.sizes).range segment ty).segment = segment
    by rw [Layout.range_ofSizes]] at hplace
  constructor
  · rw [readSlot, hplace]
    cases segment with
    | constants => exact ⟨_, rfl⟩
    | globals =>
      obtain ⟨i, hi, hlt⟩ := hs.globals.exists_index (by decide) (hslot (by decide))
      obtain ⟨v, hv⟩ := Frame.exists_get? hi (by rw [Layout.range_ofSizes]; exact hlt)
      exact ⟨v, by simp only [bind, Except.bind, hv, mapped]⟩
    | locals | temporaries =>
      obtain ⟨i, hi, hlt⟩ := hframe.exists_index (by decide) (hslot (by decide))
      obtain ⟨v, hv⟩ := Frame.exists_get? hi (by rw [Layout.range_ofSizes]; exact hlt)
      exact ⟨v, by simp only [bind, Except.bind, hv, mapped]⟩
  · intro v f h
    rw [writeSlot, hplace] at h
    cases hw : ({ s with frames := frame :: rest } : Machine).stored a v with
    | error e =>
      rw [hw] at h
      cases h
      exact Or.inl (stored_eq_error hw)
    | ok w =>
      rw [hw] at h
      cases segment with
      | constants =>
        cases h
        exact Or.inr rfl
      | globals =>
        obtain ⟨i, hi, -⟩ := hs.globals.exists_index (by decide) (hslot (by decide))
        obtain ⟨f', hf'⟩ := Frame.exists_set? hi w
        simp only [bind, Except.bind, hf', mapped] at h
        cases h
      | locals | temporaries =>
        obtain ⟨i, hi, -⟩ := hframe.exists_index (by decide) (hslot (by decide))
        obtain ⟨f', hf'⟩ := Frame.exists_set? hi w
        simp only [bind, Except.bind, hf', mapped] at h
        cases h

end Machine

/-- **Frame sizes cover every address that the code uses.** For a script that compiles and names no
address by number, every address that a function uses lies below the heap and has a slot: in a frame
with the slots recorded for the function, among the globals, or in the table of constants.  The
start of the heap is a word and the slots of a frame can be counted by words, so that every machine
can run the program.  In every state of every run, in every frame of the function, active or
reserved, such an address can be read, and a write to it fails neither with an invalid address nor
by an overflow. -/
theorem frames_cover_addresses {threshold : Level} {sizes : Sizes} {events : List Event}
    {p : Program} {names : Names} (h : (compile threshold sizes events).1 = .ok (p, names))
    (hevents : ∀ e ∈ events, e.namesAddress = false) {f : String} {r : Routine}
    (hr : p.functions.find? f = some r) {a : Nat} (ha : p.Uses r a) :
    a < p.heapStart ∧ IsWord p.heapStart ∧ p.HasSlot r.slots a ∧ r.slots.countable = true ∧
      (∀ m : Machine, ∃ m₀, m.start p = .ok m₀) ∧
      ∀ (m m₀ s : Machine) (n : Nat), m.start p = .ok m₀ → m₀.after n = some s →
        ∀ frame ∈ s.frames ++ s.pending, frame.function = f → s.Serves frame a := by
  obtain ⟨hlow, hslot⟩ := hasSlot_of_compile h hevents hr ha
  have hloadable := loadable_of_compile h
  have hword : IsWord p.heapStart := hloadable.heapStart ▸ hloadable.sizes
  refine ⟨hlow, hword, hslot, hloadable.frames f r hr, hloadable.exists_start, ?_⟩
  intro m m₀ s n hstart hs frame hframe hfunction
  have hfits := Machine.fits_after hstart hs
  obtain ⟨r', hr', hsized⟩ := hfits.frames frame hframe
  rw [hfunction, hr] at hr'
  cases hr'
  exact hfits.serves hsized hslot

/-- A function over a parameter, a local array and a global, and a call of it. -/
def scaleTotal : List Event :=
  [.declareVariable "total" (.scalar .int),
    .declareFunction "scale", .declareParam "x" (.scalar .int), .declareVariable "m" (.scalar .int),
    .declareArrayDimension 3, .allocateArray,
    .pushVariable "total", .pushOperator "=", .pushVariable "x", .pushOperator "*",
    .pushConstant (.int 2), .executeRemaining, .endFunction,
    .declareFunction "main", .callFunction "scale", .pushConstant (.int 5), .pushCallArgument 0,
    .endCall, .pushVariable "total", .print, .endFunction]

theorem frames_cover_addresses_scaleTotal :
    ∃ p names r q, (compile .warn (Sizes.uniform 8) scaleTotal).1 = .ok (p, names) ∧
      p.functions.find? "scale" = some r ∧ p.quads[r.startQuad]? = some q ∧ q.addresses.length = 3 ∧
      ∀ a ∈ q.addresses, a < p.heapStart ∧ IsWord p.heapStart ∧ p.HasSlot r.slots a ∧
        r.slots.countable = true ∧
        (∀ m : Machine, ∃ m₀, m.start p = .ok m₀) ∧
        ∀ (m m₀ s : Machine) (n : Nat), m.start p = .ok m₀ → m₀.after n = some s →
          ∀ frame ∈ s.frames ++ s.pending, frame.function = "scale" → s.Serves frame a := by
  obtain ⟨names, h⟩ := compile_eq_programOf
    (show (compile .warn (Sizes.uniform 8) scaleTotal).1.isOk = true by decide +kernel)
  generalize hp : programOf .warn (Sizes.uniform 8) scaleTotal = p at h
  have hcode :
      (p.functions.find? "scale").any (fun r => p.quads[r.startQuad]?.any fun q =>
        q.addresses.length = 3) =
      true := by
    rw [← hp]
    decide +kernel
  obtain ⟨r, hr, hcode⟩ := (Option.any_eq_true _ _).mp hcode
  obtain ⟨q, hq, hlength⟩ := (Option.any_eq_true _ _).mp hcode
  refine ⟨p, names, r, q, h, hr, hq, of_decide_eq_true hlength, ?_⟩
  intro a ha
  have hlast : p.StartsLast r.startQuad r.startQuad := ⟨Nat.le_refl _, fun _ _ _ hle => hle⟩
  exact frames_cover_addresses h (by decide) hr (Or.inr ⟨r.startQuad, q, hlast, hq, ha⟩)

end Quadruple
