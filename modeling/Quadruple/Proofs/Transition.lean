/-
  What one step of the machine can do.

  Every quad but two leaves the stacks of frames and return addresses as they are, except that it
  may write to the slots of the active frame: `GOSUB` puts one frame and one return address on them,
  `ENDFUNC` takes one of each off.  So a step that goes on is of one of three kinds.

  1. **Staying** (`Stays`): the callers' frames and the return addresses are untouched, and
     execution goes on at the next quad or at the target of the jump.
  2. **Entering** (`Enters`): `GOSUB` with a function that exists, below the depth limit.
  3. **Leaving** (`Leaves`): `ENDFUNC` with a return address to go to.

      stays    f :: frames                  →  f' :: frames        returns unchanged
      enters   frames, returns              →  g :: frames, (ip + 1) :: returns
      leaves   f :: frames, ip :: returns   →  frames, returns, at ip

  The crux is that all reading and writing goes through `readSlot` and `writeSlot`: a quad that is
  no part of a call takes notes, talks to the console, reserves and releases blocks and writes to
  slots, and does nothing else (`Touches`).  How such a quad is made of these parts is said once,
  for every property that a sequence inherits from its parts (`Inherited`).  A write reaches at most
  the frame on top.  Everything a later proof needs of a step is in `advance_running`.
-/
import Mathlib.Logic.Relation
import Quadruple.Machine
import Quadruple.Proofs.Effect

namespace Quadruple

variable {m m' : Machine} {address : Nat} {v : Option Value} {o : Option Operand}
  {R : Machine → Machine → Prop} {α : Type} {q : Quad} {flow : Flow}

namespace Machine

/-! ## Staying in the active function -/

/-- What a machine was loaded with. -/
structure SameProgram (m m' : Machine) : Prop where
  limits : m'.limits = m.limits
  layout : m'.layout = m.layout
  quads : m'.quads = m.quads
  functions : m'.functions = m.functions
  constants : m'.constants = m.constants

instance : IsPreorder Machine SameProgram where
  refl _ := ⟨rfl, rfl, rfl, rfl, rfl⟩
  trans _ _ _ h₁ h₂ :=
    ⟨h₂.limits.trans h₁.limits, h₂.layout.trans h₁.layout, h₂.quads.trans h₁.quads,
      h₂.functions.trans h₁.functions, h₂.constants.trans h₁.constants⟩

/-- Nothing outside the active frame, the memory shared by all and the bookkeeping has changed. -/
structure Within (m m' : Machine) : Prop extends SameProgram m m' where
  ip : m'.ip = m.ip
  returns : m'.returns = m.returns
  callers : m'.frames.tail = m.frames.tail
  height : m'.frames.length = m.frames.length

instance : IsPreorder Machine Within where
  refl m := ⟨refl_of SameProgram m, rfl, rfl, rfl, rfl⟩
  trans _ _ _ h₁ h₂ :=
    ⟨trans_of SameProgram h₁.toSameProgram h₂.toSameProgram, h₂.ip.trans h₁.ip,
      h₂.returns.trans h₁.returns, h₂.callers.trans h₁.callers, h₂.height.trans h₁.height⟩

/-- In addition, the value returned last is still waiting to be claimed, or still absent. -/
structure Quiet (m m' : Machine) : Prop extends Within m m' where
  returned : m'.returned = m.returned

instance : IsPreorder Machine Quiet where
  refl m := ⟨refl_of Within m, rfl⟩
  trans _ _ _ h₁ h₂ := ⟨trans_of Within h₁.toWithin h₂.toWithin, h₂.returned.trans h₁.returned⟩

/-- Memory, reserved frames and notes are no part of this. -/
theorem quiet_of_parts {steps : Nat} {globals heap pending journal console} :
    Quiet m { m with
      steps := steps, globals := globals, heap := heap, pending := pending
      journal := journal, console := console } :=
  ⟨⟨⟨rfl, rfl, rfl, rfl, rfl⟩, rfl, rfl, rfl, rfl⟩, rfl⟩

theorem within_returned {returned : Option Value} : Within m { m with returned := returned } :=
  ⟨⟨rfl, rfl, rfl, rfl, rfl⟩, rfl, rfl, rfl, rfl⟩

/-- The run of a slot that is no constant is the one that the layout finds. -/
theorem locate_of_place {r : Range}
    (h : m.place address = .ok (.global r) ∨ m.place address = .ok (.frame r)) :
    m.layout.locate address = some r := by
  unfold place at h
  split at h
  · split at h
    · rcases h with h | h <;> cases h
    · rcases h with h | h <;> cases h
  · split at h
    · rcases h with h | h <;> cases h
    · rename_i r' hr'
      split at h <;> rcases h with h | h <;> cases h <;> exact hr'

/-- A write is the change of one slot: of the globals, of the frame on top or of the heap, as its
address lies. -/
theorem writeSlot_eq_ok_iff :
    m.writeSlot address v = .ok m' ↔ ∃ w, m.stored address v = .ok w ∧
      ((∃ r globals, m.place address = .ok (.global r) ∧ m.globals.set? r address w = some globals ∧
        m' = { m with globals := globals }) ∨
      (∃ r f f' rest, m.place address = .ok (.frame r) ∧ m.frames = f :: rest ∧
        f.set? r address w = some f' ∧
        m' = { m with frames := f' :: rest }) ∨
      ∃ heap, m.place address = .ok .heap ∧ m.heap.write address w = .ok heap ∧
        m' = { m with heap := heap }) := by
  unfold writeSlot
  constructor
  · intro h
    cases hv : m.stored address v with
    | error f => rw [hv] at h; cases h
    | ok w =>
      rw [hv] at h
      refine ⟨w, rfl, ?_⟩
      cases hp : m.place address with
      | error f => simp only [hp, bind, Except.bind] at h; cases h
      | ok place =>
        simp only [hp, bind, Except.bind] at h
        cases place with
        | global r =>
          cases hg : m.globals.set? r address w with
          | none => simp only [hg, mapped] at h; cases h
          | some globals =>
            simp only [hg, mapped] at h
            cases h
            exact Or.inl ⟨r, globals, rfl, hg, rfl⟩
        | frame r =>
          cases hf : m.frames with
          | nil => simp only [hf] at h; cases h
          | cons f rest =>
            simp only [hf] at h
            cases hs : f.set? r address w with
            | none => simp only [hs, mapped] at h; cases h
            | some f' =>
              simp only [hs, mapped] at h
              cases h
              exact Or.inr (Or.inl ⟨r, f, f', rest, rfl, rfl, hs, rfl⟩)
        | constant => cases h
        | heap =>
          cases hh : m.heap.write address w with
          | error f => simp only [hh, heapResult] at h; cases h
          | ok heap =>
            simp only [hh, heapResult] at h
            cases h
            exact Or.inr (Or.inr ⟨heap, rfl, rfl, rfl⟩)
  · rintro ⟨w, hv, ⟨r, globals, hp, hg, rfl⟩ | ⟨r, f, f', rest, hp, hf, hs, rfl⟩ | ⟨heap, hp, hh,
      rfl⟩⟩
    · simp only [hv, hp, hg, mapped, bind, Except.bind, pure, Except.pure]
    · simp only [hv, hp, hf, hs, mapped, bind, Except.bind, pure, Except.pure]
    · simp only [hv, hp, hh, heapResult, bind, Except.bind, pure, Except.pure]

/-- A write reaches a slot of the globals, of the frame on top or of the heap, and nothing else;
what it stores below the heap goes to the run where the layout finds the address. -/
theorem writeSlot_eq_ok (h : m.writeSlot address v = .ok m') :
    (∃ r w globals, m.layout.locate address = some r ∧ m.stored address v = .ok w ∧
      m.globals.set? r address w = some globals ∧ m' = { m with globals := globals }) ∨
    (∃ r w f f' rest, m.layout.locate address = some r ∧ m.stored address v = .ok w ∧
      m.frames = f :: rest ∧
      f.set? r address w = some f' ∧ m' = { m with frames := f' :: rest }) ∨
    ∃ w heap, m.heap.write address w = .ok heap ∧ m' = { m with heap := heap } := by
  obtain ⟨w, hv, ⟨r, globals, hp, hg, rfl⟩ | ⟨r, f, f', rest, hp, hf, hs, rfl⟩ | ⟨heap, -, hh,
      rfl⟩⟩ :=
    writeSlot_eq_ok_iff.mp h
  · exact Or.inl ⟨r, w, globals, locate_of_place (Or.inl hp), hv, hg, rfl⟩
  · exact Or.inr (Or.inl ⟨r, w, f, f', rest, locate_of_place (Or.inr hp), hv, hf, hs, rfl⟩)
  · exact Or.inr (Or.inr ⟨w, heap, hh, rfl⟩)

theorem quiet_writeSlot (h : m.writeSlot address v = .ok m') : Quiet m m' := by
  obtain ⟨r, w, globals, -, -, -, rfl⟩ | ⟨r, w, f, f', rest, -, -, hframes, -, rfl⟩ | ⟨w, heap, -,
      rfl⟩ :=
    writeSlot_eq_ok h
  · exact quiet_of_parts
  · refine ⟨⟨⟨rfl, rfl, rfl, rfl, rfl⟩, rfl, rfl, ?_, ?_⟩, rfl⟩
    · rw [hframes]
      rfl
    · rw [hframes]
      rfl
  · exact quiet_of_parts

/-- A change that a quad makes to what no call owns, or to the slots it can write. -/
inductive Touch (m : Machine) : Machine → Prop
  | journal (journal : Journal) : Touch m { m with journal := journal }
  | console (console : Console) : Touch m { m with console := console }
  | allocate {size : Nat} {s : Span} {heap : Heap} (h : m.heap.allocate size = .ok (s, heap)) :
      Touch m { m with heap := heap }
  | release {reference : Nat} {spans : List Span} {heap : Heap}
      (h : m.heap.release reference = .ok (spans, heap)) :
      Touch m { m with heap := heap }
  | write {address : Nat} {v : Option Value} {m' : Machine} (h : m.writeSlot address v = .ok m') :
      Touch m m'

/-- Any number of such changes. -/
def Touches : Machine → Machine → Prop := Relation.ReflTransGen Touch

instance : IsPreorder Machine Touches where
  refl _ := .refl
  trans _ _ _ := .trans

/-- Writing to an operand is writing to the slot that it names. -/
theorem touch_write {v : Value} (h : m.write o v = .ok m') : Touch m m' := by
  unfold write at h
  cases hr : m.resolve o with
  | error f => rw [hr] at h; cases h
  | ok address =>
    rw [hr] at h
    exact .write h

theorem Touch.touches (h : Touch m m') : Touches m m' := .single h

/-- What each single change keeps, all of them together keep. -/
theorem Touches.rel [IsPreorder Machine R] (hR : ∀ {m m'}, Touch m m' → R m m') (h : Touches m m') :
    R m m' := by
  induction h with
  | refl => exact refl_of R m
  | tail _ htouch ih => exact trans_of R ih (hR htouch)

theorem Touches.quiet (h : Touches m m') : Quiet m m' := by
  refine h.rel (R := Quiet) fun htouch => ?_
  cases htouch with
  | write hw => exact quiet_writeSlot hw
  | _ => exact quiet_of_parts

end Machine

namespace Exec

open Machine

/-! ## The parts that steps are made of -/

/-- A question answers from the state and leaves it as it is. -/
theorem yields_ask {f : Machine → Except Fault α} {a : α} :
    Yields (ask f) m a m' ↔ f m = .ok a ∧ m' = m := by
  rw [ask, yields_bind]
  constructor
  · rintro ⟨_, _, hg, h⟩
    cases hg
    split at h
    · rename_i b hb
      cases h
      exact ⟨hb, rfl⟩
    · cases h
  · rintro ⟨hf, rfl⟩
    refine ⟨_, _, yields_get.mpr ⟨rfl, rfl⟩, ?_⟩
    rw [hf]
    exact yields_pure.mpr ⟨rfl, rfl⟩

theorem fails_ask {f : Machine → Except Fault α} {e : Fault} :
    Fails (ask f) m e m' ↔ f m = .error e ∧ m' = m := by
  rw [ask, fails_bind]
  constructor
  · rintro (h | ⟨_, _, hg, h⟩)
    · exact (not_fails_get h).elim
    · cases hg
      split at h
      · exact (not_fails_pure h).elim
      · rename_i d hd
        obtain ⟨rfl, rfl⟩ := fails_throw.mp h
        exact ⟨hd, rfl⟩
  · rintro ⟨hf, rfl⟩
    refine Or.inr ⟨_, _, yields_get.mpr ⟨rfl, rfl⟩, ?_⟩
    rw [hf]
    exact fails_throw.mpr ⟨rfl, rfl⟩

/-- An update goes where its function says. -/
theorem yields_update {f : Machine → Except Fault Machine} {u : Unit} :
    Yields (update f) m u m' ↔ f m = .ok m' := by
  rw [update, yields_bind]
  constructor
  · rintro ⟨_, _, ha, h⟩
    obtain ⟨hf, rfl⟩ := yields_ask.mp ha
    rw [yields_set.mp h]
    exact hf
  · intro hf
    exact ⟨m', m, yields_ask.mpr ⟨hf, rfl⟩, yields_set.mpr rfl⟩

theorem fails_update {f : Machine → Except Fault Machine} {e : Fault} :
    Fails (update f) m e m' ↔ f m = .error e ∧ m' = m := by
  rw [update, fails_bind]
  constructor
  · rintro (h | ⟨_, _, -, h⟩)
    · exact fails_ask.mp h
    · exact (not_fails_set h).elim
  · intro h
    exact Or.inl (fails_ask.mpr h)

section

variable {R : Machine → Machine → Prop} [IsPreorder Machine R]

theorem moves_ask (f : Machine → Except Fault α) : Moves R (ask f) := by
  refine moves_get_bind fun m => ?_
  split
  · exact moves_pure _ m
  · exact moves_throw _ m

theorem moves_update {f : Machine → Except Fault Machine} (hf : ∀ m m', f m = .ok m' → R m m') :
    Moves R (update f) := by
  intro m
  show R m ((update f).run.run m).2
  cases h : (update f).run.run m with
  | mk r m' =>
    cases r with
    | ok u => exact hf m m' (yields_update.mp h)
    | error e =>
      obtain ⟨-, rfl⟩ := fails_update.mp h
      exact refl_of R _

theorem moves_reject (d : Defect) : Moves R (reject d : Exec α) := moves_throw _

end

theorem moves_note (n : Note) :
    Moves Touches (note n) := moves_modify fun _ => (Touch.journal _).touches

theorem moves_writeSlot (address : Nat) (v : Option Value) :
    Moves Touches (update (·.writeSlot address v)) :=
      moves_update fun _ _ h => (Touch.write h).touches

theorem moves_write (o : Option Operand) (v : Value) : Moves Touches (update (·.write o v)) :=
  moves_update fun _ _ h => (touch_write h).touches

/-! ## Quads that neither call nor return -/

end Exec

/-- The opcodes that calls are made of. -/
def Opcode.isOfCall : Opcode → Bool
  | .are | .param | .goSub | .returnValue | .endFunc | .callAssign => true
  | _ => false

/-- A fault that the effect of a quad can have, unless the quad is a jump without a target. -/
def Fault.isOfQuad : Fault → Bool
  | .stepLimit _ | .internal (.outsideProgram _) | .internal .noEntryPoint
  | .internal (.heapStartMismatch _ _)
  | .internal .unpatchedJump => false
  | _ => true

/-- The fault is one of a quad. -/
def OfQuad (f : Fault) : Prop := f.isOfQuad = true

namespace Exec

open Machine

/-- What the effect of a quad asks the machine. -/
inductive Question : {α : Type} → (Machine → Except Fault α) → Prop
  | resolve (o : Option Operand) : Question (·.resolve o)
  | readSlot (address : Nat) : Question (·.readSlot address)
  | pointerAt (address : Nat) : Question (·.pointerAt address)
  | read (o : Option Operand) : Question (·.read o)
  | readInt (o : Option Operand) : Question (·.readInt o)
  | readBool (o : Option Operand) : Question (·.readBool o)
  | arithmetic (op : Opcode) (target : Nat) (left right : Value) :
    Question fun m => Quadruple.arithmetic op (m.layout.typeOf target) left right
  | boolean (op : Opcode) (left right : Value) : Question fun _ => Quadruple.boolean op left right

/-- A property that a sequence has if its parts have it, and that all parts of quads outside calls
have. -/
structure Inherited (P : ∀ {α : Type}, Exec α → Prop) : Prop where
  pure : ∀ {α : Type} (a : α), P (Pure.pure a : Exec α)
  bind : ∀ {α β : Type} {c : Exec α} {f : α → Exec β}, P c → (∀ a, P (f a)) → P (c >>= f)
  fault : ∀ {α : Type} {f : Fault}, OfQuad f → P (throw f : Exec α)
  ask : ∀ {α : Type} {f : Machine → Except Fault α}, Question f → P (Exec.ask f)
  read : ∀ {α : Type} {k : Machine → Exec α}, (∀ m, P (k m)) →
    (∀ m m', m'.layout = m.layout → k m' = k m) → P (get >>= k)
  writeSlot : ∀ address v, P (update (·.writeSlot address v))
  write : ∀ o v, P (update (·.write o v))
  newBlock : ∀ size, P (Exec.newBlock size)
  releaseBlocks : ∀ reference, P (Exec.releaseBlocks reference)
  writeLine : ∀ text, P (Exec.writeLine text)
  flush : P Exec.flush
  readLine : P Exec.readLine

namespace Inherited

variable {P : ∀ {α : Type}, Exec α → Prop} (hP : Inherited P)

include hP

theorem arithmetic (q : Quad) : P (Exec.arithmetic q) :=
  hP.bind (hP.ask (.read _)) fun _ => hP.bind (hP.ask (.read _)) fun _ =>
    hP.bind (hP.ask (.resolve _)) fun _ =>
    hP.bind (hP.ask (.arithmetic _ _ _ _)) fun _ => hP.bind (hP.writeSlot _ _) fun _ => hP.pure _

theorem boolean (q : Quad) : P (Exec.boolean q) :=
  hP.bind (hP.ask (.read _)) fun _ => hP.bind (hP.ask (.read _)) fun _ =>
    hP.bind (hP.ask (.boolean _ _ _)) fun _ => hP.bind (hP.write _ _) fun _ => hP.pure _

theorem assign (q : Quad) : P (Exec.assign q) :=
  hP.bind (hP.ask (.read _)) fun _ => hP.bind (hP.write _ _) fun _ => hP.pure _

theorem pointerBase (o : Option Operand) : P (Exec.pointerBase o) := by
  unfold Exec.pointerBase
  split
  · exact hP.pure _
  · exact hP.ask (.pointerAt _)
  · exact hP.ask (.pointerAt _)
  · exact hP.bind (hP.ask (.pointerAt _)) fun _ => hP.ask (.pointerAt _)
  · exact hP.fault rfl

theorem pointerAdd (q : Quad) : P (Exec.pointerAdd q) := by
  refine hP.bind (hP.pointerBase _) fun base => hP.bind (hP.ask (.readInt _)) fun offset => ?_
  dsimp only
  split
  · exact hP.fault rfl
  · exact hP.bind (hP.write _ _) fun _ => hP.pure _

theorem pointerSource (q : Quad) : P (Exec.pointerSource q) := by
  unfold Exec.pointerSource
  split
  · split
    · exact hP.bind (hP.newBlock _) fun _ => hP.pure _
    · exact hP.fault rfl
  · exact hP.bind (hP.ask (.resolve _)) fun _ => hP.ask (.readSlot _)

theorem requirePointer (v : Option Value) : P (Exec.requirePointer v) := by
  unfold Exec.requirePointer
  split
  · exact hP.pure _
  · exact hP.pure _
  · exact hP.fault rfl

theorem pointerAssign (q : Quad) : P (Exec.pointerAssign q) :=
  hP.bind (hP.pointerSource q) fun _ => hP.bind (hP.requirePointer _) fun _ =>
    hP.bind (hP.ask (.resolve _)) fun _ => hP.bind (hP.writeSlot _ _) fun _ => hP.pure _

theorem deleteRef (q : Quad) : P (Exec.deleteRef q) :=
  hP.bind (hP.ask (.resolve _)) fun _ => hP.bind (hP.ask (.pointerAt _)) fun _ =>
    hP.bind (hP.releaseBlocks _) fun _ => hP.bind (hP.writeSlot _ _) fun _ => hP.pure _

theorem verify (q : Quad) : P (Exec.verify q) := by
  refine hP.bind (hP.ask (.readInt _)) fun index => hP.bind (hP.ask (.readInt _)) fun size => ?_
  dsimp only
  split
  · exact hP.fault rfl
  · exact hP.pure _

theorem jump (htarget : q.jumpTarget? = none → P (reject .unpatchedJump : Exec Flow)) :
    P (Exec.jump q) := by
  unfold Exec.jump
  split
  · rename_i hnone
    exact htarget hnone
  · split
    · exact hP.pure _
    · refine hP.bind (hP.ask (.readBool _)) fun b => ?_
      split
      · exact hP.pure _
      · exact hP.pure _

theorem print (q : Quad) : P (Exec.print q) :=
  hP.bind (hP.ask (.read _)) fun _ => hP.bind (hP.writeLine _) fun _ => hP.pure _

theorem input (q : Quad) : P (Exec.input q) := by
  refine hP.bind (hP.ask (.resolve _)) fun target => hP.read (fun m => ?_) fun m m' hlayout =>
    by rw [hlayout]
  split
  · exact hP.fault rfl
  refine hP.bind hP.flush fun _ => hP.bind hP.readLine fun line => ?_
  split
  · exact hP.fault rfl
  · exact hP.bind (hP.writeSlot _ _) fun _ => hP.pure _

/-- A quad outside calls has what its parts have. -/
theorem execute (hcall : q.op.isOfCall = false)
    (htarget : q.isJump = true → q.jumpTarget? = none → P (reject .unpatchedJump : Exec Flow)) :
    P (Exec.execute q) := by
  unfold Exec.execute
  cases hop : q.op with
  | add | subtract | multiply | divide => exact hP.arithmetic q
  | equal | notEqual | lessThan | greaterThan | lessEqual | greaterEqual | and | or =>
    exact hP.boolean q
  | assign => exact hP.assign q
  | pointerAdd => exact hP.pointerAdd q
  | pointerAssign => exact hP.pointerAssign q
  | deleteRef => exact hP.deleteRef q
  | verify => exact hP.verify q
  | goto | gotoFalse =>
    refine hP.jump (htarget ?_)
    rw [Quad.isJump, hop]
    rfl
  | print => exact hP.print q
  | input => exact hP.input q
  | addAssign | subtractAssign | multiplyAssign | divideAssign => exact hP.fault rfl
  | _ =>
    rw [hop] at hcall
    cases hcall

end Inherited

theorem moves_newBlock (size : Nat) : Moves Touches (newBlock size) := by
  refine moves_get_bind fun m => ?_
  split
  · exact moves_throw _ m
  rename_i hallocate
  refine leads_set_bind (Touch.allocate hallocate).touches ?_
  exact Moves.bind (moves_note _) (fun _ => moves_pure _) _

theorem moves_noteFreed : ∀ spans : List Span, Moves Touches (noteFreed spans)
  | [] => moves_pure _
  | _ :: rest => .bind (moves_note _) fun _ => moves_noteFreed rest

theorem moves_releaseBlocks (reference : Nat) : Moves Touches (releaseBlocks reference) := by
  refine moves_get_bind fun m => ?_
  split
  · exact moves_throw _ m
  rename_i hrelease
  refine leads_set_bind (Touch.release hrelease).touches ?_
  exact Moves.bind (moves_noteFreed _) (fun _ => moves_note _) _

theorem moves_writeLine (text : String) : Moves Touches (writeLine text) := by
  refine moves_get_bind fun m => ?_
  split
  rename_i result console _
  refine leads_set_bind (Touch.console _).touches ?_
  cases result with
  | ok _ => exact moves_pure _ _
  | error e => exact moves_throw _ _

theorem moves_flush [IsPreorder Machine R] : Moves R flush := by
  refine moves_get_bind fun m => ?_
  split
  · exact moves_pure _ m
  · exact moves_throw _ m

theorem moves_readLine : Moves Touches readLine := by
  refine moves_get_bind fun m => ?_
  split
  rename_i result console _
  refine leads_set_bind (Touch.console _).touches ?_
  cases result with
  | ok _ => exact moves_pure _ _
  | error e => exact moves_throw _ _

/-- All parts of quads outside calls touch. -/
theorem inherited_touches : Inherited (Moves Touches) where
  pure := moves_pure
  bind := Moves.bind
  fault _ := moves_throw _
  ask _ := moves_ask _
  read hk _ := moves_get_bind fun m => hk m m
  writeSlot := moves_writeSlot
  write := moves_write
  newBlock := moves_newBlock
  releaseBlocks := moves_releaseBlocks
  writeLine := moves_writeLine
  flush := moves_flush
  readLine := moves_readLine

/-- A quad that is no part of a call does nothing but touch. -/
theorem touches_execute (h : q.op.isOfCall = false) : Moves Touches (execute q) :=
  inherited_touches.execute h fun _ _ => moves_throw _

/-! ## Quads of calls -/

section

variable {R : Machine → Machine → Prop} [IsPreorder Machine R]

theorem moves_callee (o : Option Operand) : Moves R (callee o) := by
  unfold callee
  split
  · refine moves_get_bind fun m => ?_
    split
    · exact moves_pure _ m
    · exact moves_reject _ m
  · exact moves_reject _

/-- A frame is made exactly when the slots of each type can be counted. -/
theorem ofCounts?_eq_ok_iff {id : String} {counts : SlotCounts} {f : Frame} :
    Machine.mapped .overflow (Frame.ofCounts? id counts) = .ok f ↔
      counts.countable = true ∧ f = Frame.ofCounts id counts := by
  unfold Frame.ofCounts?
  split
  · rename_i hcount
    exact ⟨fun h => ⟨hcount, by cases h; rfl⟩, fun h => h.2 ▸ rfl⟩
  · rename_i hcount
    exact iff_of_false nofun fun h => hcount h.1

theorem moves_are (h : ∀ m id slots, R m { m with pending := Frame.ofCounts id slots :: m.pending })
    (q : Quad) : Moves R (are q) := by
  refine .bind (moves_callee _) fun called m => leads_bind_yields (moves_ask _ m)
    fun frame m' hask => ?_
  obtain ⟨-, rfl⟩ := ofCounts?_eq_ok_iff.mp (yields_ask.mp hask).1
  exact Moves.bind (moves_modify fun m => h m _ _) (fun _ => moves_pure _) m'

theorem moves_param
    (h : ∀ {m : Machine} {frame frame' : Frame} {rest : List Frame} {r : Range} {a : Nat}
      {v w : Value},
    m.pending = frame :: rest → v.coerce? r.ty = some w → frame.set? r a (some w) = some frame' →
      R m { m with pending := frame' :: rest }) (q : Quad) : Moves R (param q) := by
  refine .bind (moves_ask _) fun v => ?_
  split
  · refine moves_get_bind fun m => ?_
    split
    · exact moves_reject _ m
    · rename_i hpending
      split
      · exact moves_reject _ m
      · split
        · exact moves_throw _ m
        · split
          · exact moves_throw _ m
          · rename_i hcoerce
            split
            · exact moves_throw _ m
            · rename_i hset
              exact leads_set_bind (h hpending hcoerce hset) (moves_pure _ _)
  · exact moves_reject _

theorem moves_goSub (hnote : ∀ m journal, R m { m with journal := journal })
    (h : ∀ {m : Machine} {frame : Frame} {rest : List Frame}, m.pending = frame :: rest →
      R m { m with
        pending := rest
        returned := none
        frames := frame :: m.frames
        returns := (m.ip + 1) :: m.returns }) (q : Quad) : Moves R (goSub q) := by
  refine .bind (moves_callee _) fun called => moves_get_bind fun m => ?_
  split
  · exact moves_throw _ m
  split
  · exact moves_reject _ m
  · rename_i hpending
    exact trans_of R (hnote m (m.journal.write (.functionEntered called.1 m.ip))) (h hpending)

theorem moves_returnValue (h : ∀ m v, R m { m with returned := some v }) (q : Quad) :
    Moves R (returnValue q) :=
  .bind (moves_ask _) fun _ => .bind (moves_modify fun m => h m _) fun _ => moves_pure _

theorem moves_endFunc
    (h : ∀ m returns, R m { m with frames := m.frames.drop 1, returns := returns }) :
    Moves R endFunc := by
  refine moves_get_bind fun m => ?_
  split
  · exact leads_set_bind (h m _) (moves_pure _ _)
  · exact leads_set_bind (h m _) (moves_pure _ _)

theorem moves_callAssign (htouch : ∀ {m m'}, Touches m m' → R m m')
    (h : ∀ m, R m { m with returned := none }) (q : Quad) : Moves R (callAssign q) := by
  refine moves_get_bind fun m => ?_
  split
  · exact moves_throw _ m
  · exact leads_set_bind (h m)
      (Moves.bind ((moves_write _ _).mono htouch) (fun _ => moves_pure _) _)

/-- What touching keeps and what takes no account of calls, every quad keeps. -/
theorem moves_execute_of_touch (htouch : ∀ {m m'}, Touch m m' → R m m')
    (hcalls : ∀ m frames pending returns returned, R m { m with
      frames := frames, pending := pending, returns := returns, returned := returned }) (q : Quad) :
    Moves R (execute q) := by
  cases hcall : q.op.isOfCall with
  | false => exact (touches_execute hcall).mono fun h => h.rel htouch
  | true =>
    unfold execute
    cases hop : q.op with
    | are => exact moves_are (fun m _ _ => hcalls m _ _ _ _) q
    | param => exact moves_param (fun _ _ _ => hcalls _ _ _ _ _) q
    | goSub => exact moves_goSub (fun _ _ => htouch (.journal _)) (fun _ => hcalls _ _ _ _ _) q
    | returnValue => exact moves_returnValue (fun m _ => hcalls m _ _ _ _) q
    | endFunc => exact moves_endFunc fun m _ => hcalls m _ _ _ _
    | callAssign => exact moves_callAssign (fun h => h.rel htouch) (fun m => hcalls m _ _ _ _) q
    | _ =>
      rw [hop] at hcall
      cases hcall

end

/-- Every quad but those of calls and returns leaves both stacks and the returned value alone. -/
theorem moves_execute (hgo : q.op ≠ .goSub) (hend : q.op ≠ .endFunc) (hret : q.op ≠ .returnValue)
    (hcall : q.op ≠ .callAssign) : Moves Quiet (execute q) := by
  by_cases hare : q.op = .are
  · rw [execute, hare]
    exact moves_are (fun _ _ _ => quiet_of_parts) q
  · by_cases hparam : q.op = .param
    · rw [execute, hparam]
      exact moves_param (fun _ _ _ => quiet_of_parts) q
    · refine (touches_execute ?_).mono Touches.quiet
      revert hgo hend hret hcall hare hparam
      cases q.op <;> simp [Opcode.isOfCall]

/-! ## Where execution goes on -/

/-- To the next quad, or to the target of the jump that the quad is. -/
def StaysLocal (q : Quad) (flow : Flow) : Prop :=
  flow = .next ∨ ∃ target, q.jumpTarget? = some target ∧ flow = .jump target

/-- A jump goes on at the next quad or at its target. -/
theorem gives_jump (q : Quad) : Gives (StaysLocal q) (jump q) := by
  unfold jump
  split
  · exact gives_throw _
  rename_i target htarget
  split
  · exact gives_pure (Or.inr ⟨target, htarget, rfl⟩)
  refine gives_bind fun b => ?_
  split
  · exact gives_pure (Or.inl rfl)
  · exact gives_pure (Or.inr ⟨target, htarget, rfl⟩)

theorem gives_param (q : Quad) : Gives (StaysLocal q) (param q) := by
  refine gives_bind fun v => ?_
  split
  · refine gives_bind fun m => ?_
    split
    · exact gives_throw _
    · split
      · exact gives_throw _
      · split
        · exact gives_throw _
        · split
          · exact gives_throw _
          · split
            · exact gives_throw _
            · exact gives_bind fun _ => gives_pure (Or.inl rfl)
  · exact gives_throw _

/-- Only calls and returns leave the function: all else goes on at the next quad or at the target of
a jump. -/
theorem gives_execute (hgo : q.op ≠ .goSub) (hend : q.op ≠ .endFunc) :
    Gives (StaysLocal q) (execute q) := by
  have hnext : StaysLocal q .next := Or.inl rfl
  unfold execute
  cases hop : q.op with
  | add | subtract | multiply | divide =>
    exact gives_bind fun _ => gives_bind fun _ => gives_bind fun _ => gives_bind fun _ =>
      gives_bind fun _ => gives_pure hnext
  | equal | notEqual | lessThan | greaterThan | lessEqual | greaterEqual | and | or | pointerAssign
  | deleteRef =>
    exact gives_bind fun _ => gives_bind fun _ => gives_bind fun _ => gives_bind fun _ =>
      gives_pure hnext
  | assign | print | returnValue => exact gives_bind fun _ => gives_bind fun _ => gives_pure hnext
  | pointerAdd =>
    refine gives_bind fun base => gives_bind fun offset => ?_
    dsimp only
    split
    · exact gives_throw _
    · exact gives_bind fun _ => gives_pure hnext
  | verify =>
    refine gives_bind fun index => gives_bind fun size => ?_
    dsimp only
    split
    · exact gives_throw _
    · exact gives_pure hnext
  | goto | gotoFalse => exact gives_jump q
  | input =>
    refine gives_bind fun target => gives_bind fun m => ?_
    split
    · exact gives_throw _
    refine gives_bind fun _ => gives_bind fun line => ?_
    split
    · exact gives_throw _
    · exact gives_bind fun _ => gives_pure hnext
  | are => exact gives_bind fun _ => gives_bind fun _ => gives_bind fun _ => gives_pure hnext
  | param => exact gives_param q
  | goSub => exact absurd hop hgo
  | endFunc => exact absurd hop hend
  | callAssign =>
    refine gives_bind fun m => ?_
    split
    · exact gives_throw _
    · exact gives_bind fun _ => gives_bind fun _ => gives_pure hnext
  | addAssign | subtractAssign | multiplyAssign | divideAssign => exact gives_throw _

/-! ## Calls and returns -/

/-- The callee is a function that exists. -/
theorem yields_callee {id : String} {r : Routine} :
    Yields (callee o) m (id, r) m' ↔ o = some (.function id) ∧ m.functions.find? id = some r ∧
    m' = m := by
  unfold callee
  split
  · rename_i name
    rw [yields_bind]
    constructor
    · rintro ⟨_, _, hg, h⟩
      cases hg
      split at h
      · rename_i r' hr
        obtain ⟨heq, rfl⟩ := yields_pure.mp h
        cases heq
        exact ⟨rfl, hr, rfl⟩
      · cases h
    · rintro ⟨heq, hr, rfl⟩
      cases heq
      refine ⟨_, _, yields_get.mpr ⟨rfl, rfl⟩, ?_⟩
      rw [hr]
      exact yields_pure.mpr ⟨rfl, rfl⟩
  · rename_i hne
    constructor
    · intro h
      cases h
    · rintro ⟨heq, -, -⟩
      exact absurd heq (hne id)

/-- `GOSUB` needs a function that exists, room below the depth limit and a reserved frame, which it
enters. -/
theorem yields_goSub (h : Yields (goSub q) m flow m') :
    ∃ id r frame rest, q.left = some (.function id) ∧ m.functions.find? id = some r ∧
      m.frames.length < m.limits.maxCallDepth ∧ m.pending = frame :: rest ∧
      flow = .jump r.startQuad ∧
      m' = { m with
        journal := m.journal.write (.functionEntered id m.ip)
        pending := rest
        returned := none
        frames := frame :: m.frames
        returns := (m.ip + 1) :: m.returns } := by
  rw [goSub, yields_bind] at h
  obtain ⟨⟨id, r⟩, _, hc, h⟩ := h
  obtain ⟨hleft, hr, rfl⟩ := yields_callee.mp hc
  rw [yields_get_bind] at h
  split at h
  · cases h
  rename_i hdepth
  split at h
  · cases h
  rename_i frame rest hpending
  obtain ⟨_, _, hn, h⟩ := yields_bind.mp h
  cases hn
  obtain ⟨_, _, hm, h⟩ := yields_bind.mp h
  cases hm
  cases h
  exact ⟨id, r, frame, rest, hleft, hr, Nat.lt_of_not_le hdepth, hpending, rfl, rfl⟩

/-- `ENDFUNC` drops the active frame and goes back to where the call came from, or halts. -/
theorem yields_endFunc (h : Yields endFunc m flow m') :
    (∃ ip rest, m.returns = ip :: rest ∧ flow = .jump ip ∧
      m' = { m with frames := m.frames.drop 1, returns := rest }) ∨
    (m.returns = [] ∧ flow = .halt ∧ m' = { m with frames := m.frames.drop 1 }) := by
  rw [endFunc, yields_get_bind] at h
  split at h
  · rename_i ip rest hreturns
    obtain ⟨_, _, hs, h⟩ := yields_bind.mp h
    cases hs
    cases h
    exact Or.inl ⟨ip, rest, hreturns, rfl, rfl⟩
  · rename_i hreturns
    obtain ⟨_, _, hs, h⟩ := yields_bind.mp h
    cases hs
    cases h
    exact Or.inr ⟨hreturns, rfl, rfl⟩

/-- `RETURN` leaves the value of its operand to be claimed. -/
theorem yields_returnValue (h : Yields (returnValue q) m flow m') :
    ∃ v, m.read q.result = .ok v ∧ m' = { m with returned := some v } := by
  rw [returnValue, yields_bind] at h
  obtain ⟨v, _, ha, h⟩ := h
  obtain ⟨hv, rfl⟩ := yields_ask.mp ha
  obtain ⟨_, _, hm, h⟩ := yields_bind.mp h
  cases hm
  cases h
  exact ⟨v, hv, rfl⟩

/-- `CALL_ASSIGN` stores the value returned last, which is then claimed. -/
theorem yields_callAssign (h : Yields (callAssign q) m flow m') :
    ∃ v, m.returned = some v ∧ { m with returned := none }.write q.result v = .ok m' := by
  rw [callAssign, yields_get_bind] at h
  split at h
  · cases h
  rename_i v hv
  obtain ⟨_, _, hs, h⟩ := yields_bind.mp h
  cases hs
  obtain ⟨_, _, hu, h⟩ := yields_bind.mp h
  cases h
  exact ⟨v, hv, yields_update.mp hu⟩

/-! ## One step -/

end Exec

namespace Machine

variable {f : Fault}

open Exec

/-- The machine as the effect of its quad finds it: the step is counted and noted. -/
def reached (m : Machine) (q : Quad) : Machine :=
  { m with steps := m.steps + 1, journal := m.journal.write (.quadReached m.ip q) }

/-- The step limit, if there is one, allows another step. -/
def MayStep (m : Machine) : Prop := ∀ limit, m.limits.maxSteps = some limit → m.steps < limit

/-- A step that may be taken is the effect of the quad it has come to. -/
theorem step_eq_execute (hq : m.quads[m.ip]? = some q) (hm : m.MayStep) :
    Exec.step.run.run m = (execute q).run.run (m.reached q) := by
  have hcount : Yields countStep m () { m with steps := m.steps + 1 } := by
    unfold countStep
    refine yields_bind.mpr ⟨(), _, yields_modify.mpr rfl,
      yields_bind.mpr ⟨_, _, yields_get.mpr ⟨rfl, rfl⟩, ?_⟩⟩
    dsimp only
    split
    · rename_i limit hlimit
      rw [if_neg (Nat.not_lt.mpr (hm limit hlimit))]
      exact yields_pure.mpr ⟨rfl, rfl⟩
    · exact yields_pure.mpr ⟨rfl, rfl⟩
  rw [Exec.step, (yields_get.mpr ⟨rfl, rfl⟩ : Yields get m m m).run_bind, hq]
  dsimp only
  rw [hcount.run_bind]
  rfl

/-- Outside the program a step fails at once. -/
theorem step_eq_outside (hq : m.quads[m.ip]? = none) :
    Exec.step.run.run m = (.error (.internal (.outsideProgram m.ip)), m) := by
  rw [Exec.step, (yields_get.mpr ⟨rfl, rfl⟩ : Yields get m m m).run_bind, hq]
  rfl

/-- At the limit a step fails once it has been counted. -/
theorem step_eq_limit {limit : Nat} (hq : m.quads[m.ip]? = some q)
    (hlimit : m.limits.maxSteps = some limit) (hle : limit ≤ m.steps) :
    Exec.step.run.run m = (.error (.stepLimit limit), { m with steps := m.steps + 1 }) := by
  have hcount : Fails countStep m (.stepLimit limit) { m with steps := m.steps + 1 } := by
    unfold countStep
    refine fails_bind.mpr (Or.inr ⟨(), _, yields_modify.mpr rfl,
      fails_bind.mpr (Or.inr ⟨_, _, yields_get.mpr ⟨rfl, rfl⟩, ?_⟩)⟩)
    dsimp only
    rw [hlimit]
    dsimp only
    rw [if_pos (Nat.lt_succ_of_le hle)]
    exact fails_throw.mpr ⟨rfl, rfl⟩
  rw [Exec.step, (yields_get.mpr ⟨rfl, rfl⟩ : Yields get m m m).run_bind, hq]
  dsimp only
  rw [hcount.run_bind]

/-- A step that succeeds had a quad and room below the step limit, and is the effect of that quad.
-/
theorem yields_step (h : Yields Exec.step m flow m') :
    ∃ q, m.quads[m.ip]? = some q ∧ m.MayStep ∧ Yields (execute q) (m.reached q) flow m' := by
  unfold Yields at h ⊢
  cases hq : m.quads[m.ip]? with
  | none =>
    rw [step_eq_outside hq] at h
    cases h
  | some q =>
    have hm : m.MayStep := by
      intro limit hlimit
      by_cases hle : limit ≤ m.steps
      · rw [step_eq_limit hq hlimit hle] at h
        cases h
      · exact Nat.lt_of_not_le hle
    rw [step_eq_execute hq hm] at h
    exact ⟨q, rfl, hm, h⟩

/-! ## The three kinds of steps -/

/-- What a quad does to the value returned last: `RETURN` sets it, `CALL_ASSIGN` claims it, and
every other quad that stays in its function leaves it alone. -/
def Hands (q : Quad) (m m' : Machine) : Prop :=
  (q.op = .returnValue ∧ ∃ v, m.read q.result = .ok v ∧ m'.returned = some v) ∨
  (q.op = .callAssign ∧ m'.returned = none) ∨
  (q.op ≠ .returnValue ∧ q.op ≠ .callAssign ∧ m'.returned = m.returned)

/-- A step inside the active function. -/
structure Stays (q : Quad) (m m' : Machine) : Prop where
  op_ne_goSub : q.op ≠ .goSub
  op_ne_endFunc : q.op ≠ .endFunc
  returns : m'.returns = m.returns
  callers : m'.frames.tail = m.frames.tail
  height : m'.frames.length = m.frames.length
  ip : m'.ip = m.ip + 1 ∨ q.jumpTarget? = some m'.ip
  returned : Hands q m m'

/-- A step into a function. -/
structure Enters (q : Quad) (m m' : Machine) : Prop where
  op : q.op = .goSub
  callee : ∃ id r, q.left = some (.function id) ∧ m.functions.find? id = some r ∧
    m'.ip = r.startQuad
  room : m.frames.length < m.limits.maxCallDepth
  frames : ∃ frame, m'.frames = frame :: m.frames
  returns : m'.returns = (m.ip + 1) :: m.returns
  returned : m'.returned = none

/-- A step back to the caller. -/
structure Leaves (q : Quad) (m m' : Machine) : Prop where
  op : q.op = .endFunc
  frames : m'.frames = m.frames.tail
  returns : m.returns = m'.ip :: m'.returns
  returned : m'.returned = m.returned

theorem quiet_reached (m : Machine) (q : Quad) : Quiet m (m.reached q) := quiet_of_parts

/-- A quad that stays in its function changes no more than the frame on top, and hands over a value
or leaves it. -/
theorem within_execute (hgo : q.op ≠ .goSub) (hend : q.op ≠ .endFunc)
    (h : Yields (execute q) m flow m') : Within m m' ∧ Hands q m m' := by
  by_cases hret : q.op = .returnValue
  · rw [execute, hret] at h
    obtain ⟨v, hv, rfl⟩ := yields_returnValue h
    exact ⟨within_returned, Or.inl ⟨hret, v, hv, rfl⟩⟩
  · by_cases hcall : q.op = .callAssign
    · rw [execute, hcall] at h
      obtain ⟨v, -, hw⟩ := yields_callAssign h
      have hq := (touch_write hw).touches.quiet
      exact ⟨trans_of Within within_returned hq.toWithin, Or.inr (Or.inl ⟨hcall, hq.returned⟩)⟩
    · have hq := (moves_execute hgo hend hret hcall).of_yields h
      exact ⟨hq.toWithin, Or.inr (Or.inr ⟨hret, hcall, hq.returned⟩)⟩

/-- A step that succeeds goes where its flow says. -/
theorem advance_of_yields {m₁ : Machine} (h : Yields Exec.step m flow m₁) :
    m.advance = match flow with
      | .next => .running { m₁ with ip := m₁.ip + 1 }
      | .jump target => .running { m₁ with ip := target }
      | .halt => m₁.conclude := by
  rw [advance, show Exec.step.run.run m = (.ok flow, m₁) from h]
  cases flow <;> rfl

/-- A step that fails ends the run. -/
theorem advance_of_fails {m₁ : Machine} (h : Fails Exec.step m f m₁) :
    m.advance = .faulted (m₁.errorOf f) m₁ := by
  rw [advance, show Exec.step.run.run m = (.error f, m₁) from h]

theorem conclude_ne_running (m m' : Machine) : m.conclude ≠ .running m' := by
  unfold conclude
  intro h
  split at h
  · cases h
  · cases h

/-- A step that goes on comes from a step that succeeded without halting. -/
theorem yields_of_running (h : m.advance = .running m') :
    ∃ flow m₁, Yields Exec.step m flow m₁ ∧
      ((flow = .next ∧ m' = { m₁ with ip := m₁.ip + 1 }) ∨
        ∃ target, flow = .jump target ∧ m' = { m₁ with ip := target }) := by
  cases hs : Exec.step.run.run m with
  | mk r m₁ =>
    cases r with
    | error f =>
      rw [advance_of_fails hs] at h
      cases h
    | ok flow =>
      rw [advance_of_yields hs] at h
      cases flow with
      | next =>
        cases h
        exact ⟨.next, m₁, hs, Or.inl ⟨rfl, rfl⟩⟩
      | jump target =>
        cases h
        exact ⟨.jump target, m₁, hs, Or.inr ⟨target, rfl, rfl⟩⟩
      | halt => exact (conclude_ne_running _ _ h).elim

/-- **What one step can do.** The program stays; the step stays in its function, enters one or
leaves one. -/
theorem advance_running (h : m.advance = .running m') :
    ∃ q, m.quads[m.ip]? = some q ∧ SameProgram m m' ∧
      (Stays q m m' ∨ Enters q m m' ∨ Leaves q m m') := by
  obtain ⟨flow, m₁, hstep, hflow⟩ := yields_of_running h
  obtain ⟨q, hq, -, hexec⟩ := yields_step hstep
  have hreached := quiet_reached m q
  refine ⟨q, hq, ?_⟩
  by_cases hgo : q.op = .goSub
  · -- a call: the flow is the start of the callee
    rw [execute, hgo] at hexec
    obtain ⟨id, r, frame, rest, hleft, hr, hroom, -, rfl, rfl⟩ := yields_goSub hexec
    obtain ⟨hne, -⟩ | ⟨target, htarget, rfl⟩ := hflow
    · cases hne
    · cases htarget
      exact ⟨⟨rfl, rfl, rfl, rfl, rfl⟩, Or.inr (Or.inl
        ⟨hgo, ⟨id, r, hleft, hr, rfl⟩, hroom, ⟨frame, rfl⟩, rfl, rfl⟩)⟩
  · by_cases hend : q.op = .endFunc
    · -- a return: the flow is the return address, since a halt does not go on
      rw [execute, hend] at hexec
      obtain ⟨ip, rest, hreturns, rfl, rfl⟩ | ⟨-, rfl, -⟩ := yields_endFunc hexec
      · obtain ⟨hne, -⟩ | ⟨target, htarget, rfl⟩ := hflow
        · cases hne
        · cases htarget
          exact ⟨⟨rfl, rfl, rfl, rfl, rfl⟩, Or.inr (Or.inr ⟨hend, List.drop_one, hreturns, rfl⟩)⟩
      · obtain ⟨hne, -⟩ | ⟨_, hne, -⟩ := hflow
        · cases hne
        · cases hne
    · obtain ⟨hwithin, hands⟩ := within_execute hgo hend hexec
      have hw := trans_of Within hreached.toWithin hwithin
      have hlocal := gives_execute hgo hend _ _ _ hexec
      refine ⟨?_, Or.inl ?_⟩
      · obtain ⟨-, rfl⟩ | ⟨_, -, rfl⟩ := hflow
        · exact { hw with }
        · exact { hw with }
      · obtain ⟨-, rfl⟩ | ⟨target, rfl, rfl⟩ := hflow
        · refine ⟨hgo, hend, hw.returns, hw.callers, hw.height, Or.inl ?_, hands⟩
          show m₁.ip + 1 = m.ip + 1
          rw [hw.ip]
        · refine ⟨hgo, hend, hw.returns, hw.callers, hw.height, Or.inr ?_, hands⟩
          obtain hne | ⟨_, ht, htarget⟩ := hlocal
          · cases hne
          · cases htarget
            exact ht

/-! ## Steps that fail -/

/-- A call that fails has done nothing. -/
theorem fails_goSub (h : Fails (goSub q) m f m') : Quiet m m' := by
  rw [goSub, fails_bind] at h
  obtain h | ⟨⟨id, r⟩, _, hc, h⟩ := h
  · exact (moves_callee _).of_fails h
  · obtain ⟨-, -, rfl⟩ := yields_callee.mp hc
    rw [fails_get_bind] at h
    split at h
    · exact (moves_throw _).of_fails h
    · split at h
      · exact (moves_throw _).of_fails h
      · -- once the frame is there, nothing can fail any more
        cases h

theorem not_fails_endFunc : ¬ Fails endFunc m f m' := by
  rw [endFunc, fails_get_bind]
  intro h
  split at h
  · cases h
  · cases h

/-- A quad that fails leaves both stacks as high as they were. -/
theorem fails_execute (h : Fails (execute q) m f m') : Within m m' := by
  by_cases hgo : q.op = .goSub
  · rw [execute, hgo] at h
    exact (fails_goSub h).toWithin
  · by_cases hend : q.op = .endFunc
    · rw [execute, hend] at h
      exact (not_fails_endFunc h).elim
    · by_cases hret : q.op = .returnValue
      · rw [execute, hret] at h
        exact (moves_returnValue (fun _ _ => within_returned) q).of_fails h
      · by_cases hcall : q.op = .callAssign
        · rw [execute, hcall] at h
          exact (moves_callAssign (fun h => h.quiet.toWithin) (fun _ => within_returned)
            q).of_fails h
        · exact ((moves_execute hgo hend hret hcall).of_fails h).toWithin

/-- A step that fails leaves both stacks as high as they were, and all but the frame on top as it
was. -/
theorem within_of_fails (h : Fails Exec.step m f m') : Within m m' := by
  unfold Fails at h
  cases hq : m.quads[m.ip]? with
  | none =>
    rw [step_eq_outside hq] at h
    cases h
    exact refl_of Within _
  | some q =>
    by_cases hm : m.MayStep
    · rw [step_eq_execute hq hm] at h
      exact trans_of Within (quiet_reached m q).toWithin (fails_execute h)
    · -- the only other failure is that of the step limit
      rw [MayStep, Classical.not_forall] at hm
      obtain ⟨limit, hm⟩ := hm
      rw [Classical.not_imp] at hm
      rw [step_eq_limit hq hm.1 (Nat.le_of_not_lt hm.2)] at h
      cases h
      exact quiet_of_parts.toWithin

end Machine

end Quadruple
