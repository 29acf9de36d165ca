/-
  What a step does to frames.

  A frame is made with the slots of its function and waits among the reserved ones, where its
  arguments are filled in, until it becomes the active frame:

      ARE       pending            →  frame :: pending
      PARAM     frame :: pending   →  frame' :: pending
      GOSUB     frame :: pending, frames  →  pending, frame :: frames
      ENDFUNC   frame :: frames    →  frames

  Whatever else a step does, it may write to slots, which leaves each frame
  the frame of its function with as many slots as it had (`SameShape`), and it leaves the reserved
  frames alone.

  `FrameStep` says this once, with one case for each kind of quad, and `frameStep_of_running` is
  what the proofs about reserved frames and about slots start from.
-/
import Quadruple.Proofs.Memory
import Quadruple.Proofs.Run

namespace Quadruple

variable {f f' : Frame} {r : Range} {a : Nat} {v : Option Value} {m m' : Machine} {q : Quad}
  {flow : Flow}

namespace Frame

/-- Whose frame it is and how many slots it has stays, whatever is written to it. -/
structure SameShape (f f' : Frame) : Prop where
  function : f'.function = f.function
  localCounts : f'.localCounts = f.localCounts
  rows : ∀ ty, (f'.slots.get ty).size = (f.slots.get ty).size

theorem SameShape.refl (f : Frame) : SameShape f f := ⟨rfl, rfl, fun _ => rfl⟩

theorem SameShape.trans {f₁ f₂ f₃ : Frame} (h₁ : SameShape f₁ f₂) (h₂ : SameShape f₂ f₃) :
    SameShape f₁ f₃ :=
  ⟨h₂.function.trans h₁.function, h₂.localCounts.trans h₁.localCounts,
    fun ty => (h₂.rows ty).trans (h₁.rows ty)⟩

theorem SameShape.sized {counts : SlotCounts} (h : SameShape f f') (hf : f.Sized counts) :
    f'.Sized counts :=
      ⟨h.localCounts.trans hf.locals, fun ty => (h.rows ty).trans (hf.rows ty), hf.words⟩

theorem set?_eq_some (h : f.set? r a v = some f') :
    ∃ i, f.index? r a = some i ∧ f' = f.written r.ty i v := by
  unfold set? at h
  split at h
  · rename_i i hi
    cases h
    exact ⟨i, hi, rfl⟩
  · cases h

theorem lt_of_index? {i : Nat} (h : f.index? r a = some i) : i < (f.slots.get r.ty).size := by
  unfold index? at h
  dsimp only at h
  split at h
  · split at h
    · cases h
      omega
    · cases h
  · split at h
    · cases h
      omega
    · cases h
  · split at h
    · cases h
      omega
    · cases h
  · cases h

/-- What was put into a slot is there. -/
theorem get?_of_set? (h : f.set? r a v = some f') : f'.get? r a = some v := by
  obtain ⟨i, hi, rfl⟩ := set?_eq_some h
  rw [get?, index?_written, hi]
  dsimp only
  rw [get_written_self, Array.getElem?_setIfInBounds_self_of_lt (lt_of_index? hi)]

theorem sameShape_of_set? (h : f.set? r a v = some f') : SameShape f f' := by
  obtain ⟨i, -, rfl⟩ := set?_eq_some h
  exact ⟨rfl, rfl, fun ty => size_written f r.ty ty i v⟩

end Frame

namespace Machine

/-! ## Frames under writes -/

/-- Frames keep their shapes, and the reserved ones are left alone. -/
structure KeepsFrames (m m' : Machine) : Prop where
  pending : m'.pending = m.pending
  frames : ∀ f' ∈ m'.frames, ∃ f ∈ m.frames, f.SameShape f'
  globals : m.globals.SameShape m'.globals

theorem KeepsFrames.of_eq (hpending : m'.pending = m.pending) (hframes : m'.frames = m.frames)
    (hglobals : m'.globals = m.globals) : KeepsFrames m m' := by
  refine ⟨hpending, ?_, hglobals ▸ .refl _⟩
  intro f hf
  exact ⟨f, hframes ▸ hf, .refl f⟩

instance : IsPreorder Machine KeepsFrames where
  refl _ := .of_eq rfl rfl rfl
  trans _ _ _ h₁ h₂ := by
    refine ⟨h₂.pending.trans h₁.pending, ?_, h₁.globals.trans h₂.globals⟩
    intro f'' hf''
    obtain ⟨f', hf', hshape'⟩ := h₂.frames f'' hf''
    obtain ⟨f, hf, hshape⟩ := h₁.frames f' hf'
    exact ⟨f, hf, hshape.trans hshape'⟩

theorem keepsFrames_writeSlot {address : Nat} (h : m.writeSlot address v = .ok m') :
    KeepsFrames m m' := by
  obtain ⟨r, w, globals, -, -, hset, rfl⟩ | ⟨r, w, f, f', rest, -, -, hframes, hset, rfl⟩ | ⟨w,
      heap, -, rfl⟩ :=
    writeSlot_eq_ok h
  · exact ⟨rfl, fun f hf => ⟨f, hf, .refl f⟩, Frame.sameShape_of_set? hset⟩
  · refine ⟨rfl, ?_, .refl _⟩
    intro g hg
    rw [hframes]
    rcases List.mem_cons.mp hg with rfl | hg
    · exact ⟨f, List.mem_cons_self, Frame.sameShape_of_set? hset⟩
    · exact ⟨g, List.mem_cons_of_mem _ hg, .refl g⟩
  · exact .of_eq rfl rfl rfl

theorem Touches.keepsFrames (h : Touches m m') : KeepsFrames m m' := by
  refine h.rel (R := KeepsFrames) fun htouch => ?_
  cases htouch with
  | write hw => exact keepsFrames_writeSlot hw
  | _ => exact .of_eq rfl rfl rfl

end Machine

/-! ## The quads that reserve and fill frames -/

namespace Exec

/-- `ARE` reserves a frame of the function that it names, whose slots can be counted. -/
theorem yields_are (h : Yields (are q) m flow m') :
    ∃ f r, q.left = some (.function f) ∧ m.functions.find? f = some r ∧ r.slots.countable = true ∧
      m' = { m with pending := Frame.ofCounts f r.slots :: m.pending } := by
  rw [are, yields_bind] at h
  obtain ⟨⟨f, r⟩, _, hc, h⟩ := h
  obtain ⟨hleft, hr, rfl⟩ := yields_callee.mp hc
  obtain ⟨_, _, hask, h⟩ := yields_bind.mp h
  obtain ⟨hframe, rfl⟩ := yields_ask.mp hask
  obtain ⟨hcount, rfl⟩ := ofCounts?_eq_ok_iff.mp hframe
  obtain ⟨_, _, hm, h⟩ := yields_bind.mp h
  cases hm
  cases h
  exact ⟨f, r, hleft, hr, hcount, rfl⟩

/-- `PARAM` fills the slot of a parameter in the frame reserved last. -/
theorem yields_param (h : Yields (param q) m flow m') :
    ∃ i frame rest r a range v frame', q.result = some (.immediate i) ∧ m.pending = frame :: rest ∧
      m.functions.find? frame.function = some r ∧ r.paramAddresses[i]? = some a ∧
      m.layout.locate a = some range ∧
      v.scalar = range.ty ∧ frame.set? range a (some v) = some frame' ∧
      m' = { m with pending := frame' :: rest } := by
  rw [param, yields_bind] at h
  obtain ⟨v, _, ha, h⟩ := h
  obtain ⟨-, rfl⟩ := yields_ask.mp ha
  split at h
  · rename_i i hi
    rw [yields_get_bind] at h
    split at h
    · cases h
    · rename_i frame rest hpending
      split at h
      · cases h
      · rename_i a haddress
        obtain ⟨r, hr, ha⟩ := Option.bind_eq_some_iff.mp haddress
        split at h
        · cases h
        · rename_i range hrange
          split at h
          · cases h
          · rename_i w hw
            split at h
            · cases h
            · rename_i frame' hset
              obtain ⟨_, _, hs, h⟩ := yields_bind.mp h
              cases hs
              cases h
              exact ⟨i, frame, rest, r, a, range, w, frame', hi, hpending, hr, ha, hrange,
                Value.scalar_of_coerce? hw, hset, rfl⟩
  · cases h

end Exec

/-! ## One step -/

namespace Machine

open Exec

/-- What a step does to frames, by the kind of its quad. -/
inductive FrameStep (q : Quad) (m m' : Machine) : Prop
  | reserve {f : String} {r : Routine} (op : q.op = .are) (callee : q.left = some (.function f))
      (known : m.functions.find? f = some r)
      (pending : m'.pending = Frame.ofCounts f r.slots :: m.pending)
      (frames : m'.frames = m.frames) (globals : m'.globals = m.globals)
      (counted : r.slots.countable = true)
  | pass {i a : Nat} {frame frame' : Frame} {rest : List Frame} {r : Routine} {range : Range}
      {v : Value} (op : q.op = .param) (index : q.result = some (.immediate i))
      (top : m.pending = frame :: rest)
      (known : m.functions.find? frame.function = some r) (address : r.paramAddresses[i]? = some a)
      (located : m.layout.locate a = some range) (typed : v.scalar = range.ty)
      (filled : frame.set? range a (some v) = some frame') (pending : m'.pending = frame' :: rest)
      (frames : m'.frames = m.frames) (globals : m'.globals = m.globals)
  | enter {f : String} {r : Routine} {frame : Frame} {rest : List Frame} (op : q.op = .goSub)
      (callee : q.left = some (.function f)) (known : m.functions.find? f = some r)
      (top : m.pending = frame :: rest) (pending : m'.pending = rest)
      (frames : m'.frames = frame :: m.frames) (globals : m'.globals = m.globals)
  | leave (op : q.op = .endFunc) (pending : m'.pending = m.pending)
      (frames : m'.frames = m.frames.tail) (globals : m'.globals = m.globals)
  | keep (op : q.op ≠ .are ∧ q.op ≠ .param ∧ q.op ≠ .goSub ∧ q.op ≠ .endFunc)
      (kept : KeepsFrames m m')

/-- The quads that are neither a call nor a return keep all frames. -/
theorem keepsFrames_execute (hare : q.op ≠ .are) (hparam : q.op ≠ .param) (hgo : q.op ≠ .goSub)
    (hend : q.op ≠ .endFunc) (h : Yields (execute q) m flow m') : KeepsFrames m m' := by
  by_cases hret : q.op = .returnValue
  · rw [execute, hret] at h
    obtain ⟨v, -, rfl⟩ := yields_returnValue h
    exact .of_eq rfl rfl rfl
  · by_cases hcall : q.op = .callAssign
    · rw [execute, hcall] at h
      obtain ⟨v, -, hw⟩ := yields_callAssign h
      have hclaimed : KeepsFrames m { m with returned := none } := .of_eq rfl rfl rfl
      exact trans_of KeepsFrames hclaimed (touch_write hw).touches.keepsFrames
    · refine ((touches_execute ?_).of_yields h).keepsFrames
      revert hare hparam hgo hend hret hcall
      cases q.op <;> simp [Opcode.isOfCall]

/-- Every step that goes on is one of them. -/
theorem frameStep_of_running (h : m.advance = .running m') :
    ∃ q, m.quads[m.ip]? = some q ∧ FrameStep q m m' := by
  obtain ⟨flow, m₁, hstep, hflow⟩ := yields_of_running h
  obtain ⟨q, hq, -, hexec⟩ := yields_step hstep
  refine ⟨q, hq, ?_⟩
  -- where execution goes on is of no matter here
  obtain ⟨ip, rfl⟩ : ∃ ip, m' = { m₁ with ip := ip } := by
    obtain ⟨-, rfl⟩ | ⟨target, -, rfl⟩ := hflow
    · exact ⟨_, rfl⟩
    · exact ⟨_, rfl⟩
  by_cases hare : q.op = .are
  · rw [execute, hare] at hexec
    obtain ⟨f, r, hleft, hr, hcount, rfl⟩ := yields_are hexec
    exact .reserve hare hleft hr rfl rfl rfl hcount
  · by_cases hparam : q.op = .param
    · rw [execute, hparam] at hexec
      obtain ⟨i, frame, rest, r, a, range, v, frame', hi, htop, hr, ha, hrange, hv, hset, rfl⟩ :=
        yields_param hexec
      exact .pass hparam hi htop hr ha hrange hv hset rfl rfl rfl
    · by_cases hgo : q.op = .goSub
      · rw [execute, hgo] at hexec
        obtain ⟨f, r, frame, rest, hleft, hr, -, htop, -, rfl⟩ := yields_goSub hexec
        exact .enter hgo hleft hr htop rfl rfl rfl
      · by_cases hend : q.op = .endFunc
        · rw [execute, hend] at hexec
          obtain ⟨_, _, -, -, rfl⟩ | ⟨-, -, rfl⟩ := yields_endFunc hexec
          · exact .leave hend rfl List.drop_one rfl
          · exact .leave hend rfl List.drop_one rfl
        · have hkept := keepsFrames_execute hare hparam hgo hend hexec
          exact .keep ⟨hare, hparam, hgo, hend⟩ ⟨hkept.pending, hkept.frames, hkept.globals⟩

variable {q : Quad} {m m' : Machine}

/-- A call enters the frame reserved last. -/
theorem FrameStep.of_goSub (h : FrameStep q m m') (hop : q.op = .goSub) {frame : Frame}
    {rest : List Frame} (htop : m.pending = frame :: rest) :
    m'.pending = rest ∧ m'.frames = frame :: m.frames := by
  cases h with
  | enter _ _ _ htop' htaken hentered =>
    rw [htop] at htop'
    cases htop'
    exact ⟨htaken, hentered⟩
  | reserve hother | pass hother | leave hother =>
    rw [hop] at hother
    cases hother
  | keep hother => exact (hother.2.2.1 hop).elim

/-- Quads that no call site is made of leave the reserved frames alone. -/
theorem FrameStep.pending_eq (h : FrameStep q m m')
    (hop : q.op ≠ .are ∧ q.op ≠ .param ∧ q.op ≠ .goSub) : m'.pending = m.pending := by
  cases h with
  | reserve hare => exact (hop.1 hare).elim
  | pass hparam => exact (hop.2.1 hparam).elim
  | enter hgo => exact (hop.2.2 hgo).elim
  | leave _ hpending => exact hpending
  | keep _ hkept => exact hkept.pending

end Machine

end Quadruple
