/-
  Which faults a quad can raise.

  A run stops with a fault of the quad it executes, at a jump without a target, with the step limit,
  outside the program, or because the program could not be loaded.  The effect of any other quad,
  whatever its operands and whatever the state, raises none but faults of the first kind
  (`throws_execute`), so the others come from one place each:

      q.isUnpatched = false  →  Fails (execute q) m f m'  →  OfQuad f
-/
import Quadruple.Proofs.Transition

namespace Quadruple

variable {q : Quad} {α : Type} {P : Fault → Prop} {e : RuntimeError}

/-- A jump that got no target. -/
def Quad.isUnpatched (q : Quad) : Bool := q.isJump && q.jumpTarget?.isNone

@[simp] theorem isUnpatched_of_not_jump (h : q.isJump = false) : q.isUnpatched = false := by
  simp [Quad.isUnpatched, h]

/-! ## Values -/

theorem raises_exactOperation (op : Opcode) (a b : Int) :
    Raises OfQuad (exactOperation op a b) := by
  unfold exactOperation
  split
  · exact raises_ok _
  · exact raises_ok _
  · exact raises_ok _
  · split
    · exact raises_error rfl
    · exact raises_ok _
  · exact raises_error rfl

theorem raises_integerOperation (op : Opcode) (a b : Int64) :
    Raises OfQuad (integerOperation op a b) := by
  unfold integerOperation
  split
  · rename_i f hf
    exact raises_error (raises_exactOperation op _ _ f hf)
  · split
    · exact raises_ok _
    · exact raises_error rfl

theorem raises_floatOperation (op : Opcode) (a b : Binary64) :
    Raises OfQuad (floatOperation op a b) := by
  unfold floatOperation
  split
  · exact raises_ok _
  · exact raises_ok _
  · exact raises_ok _
  · split
    · exact raises_error rfl
    · exact raises_ok _
  · exact raises_error rfl

theorem raises_arithmetic (op : Opcode) (ty : Option Scalar) (left right : Value) :
    Raises OfQuad (arithmetic op ty left right) := by
  unfold arithmetic
  split
  · split
    · exact raises_map _ (raises_integerOperation op _ _)
    · exact raises_error rfl
  · split
    · exact raises_map _ (raises_floatOperation op _ _)
    · exact raises_error rfl
  · exact raises_error rfl

theorem raises_ordering (left right : Value) : Raises OfQuad (ordering left right) := by
  unfold ordering
  split
  · exact raises_ok _
  · exact raises_ok _
  · exact raises_ok _
  · exact raises_ok _
  split
  · exact raises_ok _
  · exact raises_error rfl

theorem raises_holds (op : Opcode) (o : Option Ordering) : Raises OfQuad (holds op o) := by
  unfold holds
  split
  · exact raises_ok _
  split
  · exact raises_ok _
  · exact raises_ok _
  · exact raises_ok _
  · exact raises_ok _
  · exact raises_ok _
  · exact raises_ok _
  · exact raises_error rfl

theorem raises_boolean (op : Opcode) (left right : Value) :
    Raises OfQuad (boolean op left right) := by
  unfold boolean
  split
  · split
    · exact raises_ok _
    · exact raises_error rfl
  · split
    · exact raises_ok _
    · exact raises_error rfl
  · split
    · rename_i f hf
      exact raises_error (raises_ordering left right f hf)
    · exact raises_holds _ _

theorem ofQuad_absence (f : Frame) (r : Range) (address : Nat) : OfQuad (f.absence r address) := by
  unfold Frame.absence
  split
  · rfl
  · rfl

theorem ofQuad_ofHeapError (e : HeapError) : OfQuad (.ofHeapError e) := by
  cases e with
  | exhausted requested largest => rfl
  | notAllocated r => rfl
  | outside a => rfl

/-! ## Memory -/

namespace Machine

variable (m : Machine)

theorem raises_place (address : Nat) : Raises OfQuad (m.place address) := by
  unfold place
  split
  · split
    · exact raises_ok _
    · exact raises_error rfl
  · split
    · exact raises_error rfl
    · split
      · exact raises_ok _
      · exact raises_ok _
      · exact raises_ok _
      · exact raises_ok _

theorem raises_mapped {absence : Fault} (h : OfQuad absence) (a : Option α) :
    Raises OfQuad (mapped absence a) := by
  cases a with
  | none => exact raises_error h
  | some a => exact raises_ok a

theorem raises_heapResult (x : Except HeapError α) : Raises OfQuad (heapResult x) := by
  cases x with
  | ok a => exact raises_ok a
  | error e => exact raises_error (ofQuad_ofHeapError e)

theorem raises_readSlot (address : Nat) : Raises OfQuad (m.readSlot address) := by
  refine raises_bind (m.raises_place address) fun place => ?_
  cases place with
  | global r => exact raises_mapped (ofQuad_absence _ _ _) _
  | frame r =>
    dsimp only
    split
    · exact raises_error rfl
    · exact raises_mapped (ofQuad_absence _ _ _) _
  | constant => exact raises_ok _
  | heap => exact raises_heapResult _

theorem raises_stored (address : Nat) (v : Option Value) : Raises OfQuad (m.stored address v) := by
  unfold stored
  split
  · split
    · exact raises_ok _
    · exact raises_error rfl
  · exact raises_ok _

theorem raises_writeSlot (address : Nat) (v : Option Value) :
    Raises OfQuad (m.writeSlot address v) := by
  refine raises_bind (m.raises_stored address v) fun v => raises_bind (m.raises_place address)
    fun place => ?_
  cases place with
  | global r => exact raises_bind (raises_mapped (ofQuad_absence _ _ _) _) fun _ => raises_ok _
  | frame r =>
    dsimp only
    split
    · exact raises_error rfl
    · exact raises_bind (raises_mapped (ofQuad_absence _ _ _) _) fun _ => raises_ok _
  | constant => exact raises_error rfl
  | heap => exact raises_bind (raises_heapResult _) fun _ => raises_ok _

theorem raises_readValue (address : Nat) : Raises OfQuad (m.readValue address) := by
  refine raises_bind (m.raises_readSlot address) fun v => ?_
  cases v with
  | none => exact raises_error rfl
  | some v => exact raises_ok v

theorem raises_pointerAt (address : Nat) : Raises OfQuad (m.pointerAt address) := by
  refine raises_bind (m.raises_readSlot address) fun v => ?_
  split
  · exact raises_ok _
  · exact raises_error rfl
  · exact raises_error rfl

theorem raises_resolve (o : Option Operand) : Raises OfQuad (m.resolve o) := by
  unfold resolve
  split
  · exact raises_ok _
  · exact raises_ok _
  · exact m.raises_pointerAt _
  · exact raises_error rfl

theorem raises_read (o : Option Operand) : Raises OfQuad (m.read o) := by
  unfold read
  split
  · exact raises_ok _
  · exact raises_bind (m.raises_resolve _) fun a => m.raises_readValue a

theorem raises_readInt (o : Option Operand) : Raises OfQuad (m.readInt o) := by
  refine raises_bind (m.raises_read o) fun v => ?_
  split
  · exact raises_ok _
  · exact raises_error rfl

theorem raises_readBool (o : Option Operand) : Raises OfQuad (m.readBool o) := by
  refine raises_bind (m.raises_read o) fun v => ?_
  split
  · exact raises_ok _
  · exact raises_error rfl

theorem raises_write (o : Option Operand) (v : Value) : Raises OfQuad (m.write o v) :=
  raises_bind (m.raises_resolve o) fun a => m.raises_writeSlot a _

end Machine

/-! ## Quads -/

namespace Exec

theorem throws_ask {f : Machine → Except Fault α} (h : ∀ m, Raises P (f m)) : Throws P (ask f) := by
  refine throws_bind throws_get fun m => ?_
  split
  · exact throws_pure _
  · rename_i e he
    exact throws_throw (h m e he)

theorem throws_update {f : Machine → Except Fault Machine} (h : ∀ m, Raises P (f m)) :
    Throws P (update f) :=
  throws_bind (throws_ask h) fun _ => throws_set _

theorem throws_note (n : Note) : Throws P (note n) := throws_modify _

theorem throws_newBlock (size : Nat) : Throws OfQuad (newBlock size) := by
  refine throws_bind throws_get fun m => ?_
  split
  · exact throws_throw (ofQuad_ofHeapError _)
  · exact throws_bind (throws_set _) fun _ => throws_bind (throws_note _) fun _ => throws_pure _

theorem throws_noteFreed {P : Fault → Prop} : ∀ spans : List Span, Throws P (noteFreed spans)
  | [] => throws_pure _
  | _ :: rest => throws_bind (throws_note _) fun _ => throws_noteFreed rest

theorem throws_releaseBlocks (reference : Nat) : Throws OfQuad (releaseBlocks reference) := by
  refine throws_bind throws_get fun m => ?_
  split
  · exact throws_throw (ofQuad_ofHeapError _)
  · exact throws_bind (throws_set _) fun _ => throws_bind (throws_noteFreed _) fun _ =>
      throws_note _

theorem throws_writeLine (text : String) : Throws OfQuad (writeLine text) := by
  refine throws_bind throws_get fun m => ?_
  dsimp only
  refine throws_bind (throws_set _) fun _ => ?_
  split
  · exact throws_pure _
  · exact throws_throw rfl

theorem throws_flush : Throws OfQuad flush := by
  refine throws_bind throws_get fun m => ?_
  split
  · exact throws_pure _
  · exact throws_throw rfl

theorem throws_readLine : Throws OfQuad readLine := by
  refine throws_bind throws_get fun m => ?_
  dsimp only
  refine throws_bind (throws_set _) fun _ => ?_
  split
  · exact throws_pure _
  · exact throws_throw rfl

theorem raises_question {f : Machine → Except Fault α} (h : Question f) (m : Machine) :
    Raises OfQuad (f m) := by
  cases h with
  | resolve o => exact m.raises_resolve o
  | readSlot address => exact m.raises_readSlot address
  | pointerAt address => exact m.raises_pointerAt address
  | read o => exact m.raises_read o
  | readInt o => exact m.raises_readInt o
  | readBool o => exact m.raises_readBool o
  | arithmetic op target left right => exact raises_arithmetic op _ left right
  | boolean op left right => exact raises_boolean op left right

theorem inherited_throws : Inherited (Throws OfQuad) where
  pure := throws_pure
  bind := throws_bind
  fault := throws_throw
  ask h := throws_ask (raises_question h)
  read hk _ := throws_bind throws_get hk
  writeSlot _ _ := throws_update fun m => m.raises_writeSlot _ _
  write _ _ := throws_update fun m => m.raises_write _ _
  newBlock := throws_newBlock
  releaseBlocks := throws_releaseBlocks
  writeLine := throws_writeLine
  flush := throws_flush
  readLine := throws_readLine

theorem throws_callee (o : Option Operand) : Throws OfQuad (callee o) := by
  unfold callee
  split
  · refine throws_bind throws_get fun m => ?_
    split
    · exact throws_pure _
    · exact throws_throw rfl
  · exact throws_throw rfl

theorem throws_are (q : Quad) : Throws OfQuad (are q) :=
  throws_bind (throws_callee _) fun _ =>
    throws_bind (throws_ask fun _ => Machine.raises_mapped (show OfQuad .overflow from rfl) _)
      fun _ =>
      throws_bind (throws_modify _) fun _ => throws_pure _

theorem throws_param (q : Quad) : Throws OfQuad (param q) := by
  refine throws_bind (throws_ask fun m => m.raises_read _) fun v => ?_
  split
  · refine throws_bind throws_get fun m => ?_
    split
    · exact throws_throw rfl
    · split
      · exact throws_throw rfl
      · split
        · exact throws_throw rfl
        · split
          · exact throws_throw rfl
          · split
            · exact throws_throw (ofQuad_absence _ _ _)
            · exact throws_bind (throws_set _) fun _ => throws_pure _
  · exact throws_throw rfl

theorem throws_goSub (q : Quad) : Throws OfQuad (goSub q) := by
  refine throws_bind (throws_callee _) fun _ => throws_bind throws_get fun m => ?_
  split
  · exact throws_throw rfl
  split
  · exact throws_throw rfl
  · exact throws_bind (throws_note _) fun _ => throws_bind (throws_modify _) fun _ => throws_pure _

theorem throws_returnValue (q : Quad) : Throws OfQuad (returnValue q) :=
  throws_bind (throws_ask fun m => m.raises_read _) fun _ => throws_bind (throws_modify _) fun _ =>
    throws_pure _

theorem throws_callAssign (q : Quad) : Throws OfQuad (callAssign q) := by
  refine throws_bind throws_get fun m => ?_
  split
  · exact throws_throw rfl
  · exact throws_bind (throws_set _) fun _ =>
      throws_bind (throws_update fun m => m.raises_write _ _) fun _ => throws_pure _

/-- The effect of a quad raises none but faults of quads, unless it is a jump without a target. -/
theorem throws_execute (h : q.isUnpatched = false) : Throws OfQuad (execute q) := by
  cases hcall : q.op.isOfCall with
  | false =>
    refine inherited_throws.execute hcall fun hjump hnone => ?_
    rw [Quad.isUnpatched, hjump, hnone] at h
    cases h
  | true =>
    unfold execute
    cases hop : q.op with
    | are => exact throws_are q
    | param => exact throws_param q
    | goSub => exact throws_goSub q
    | returnValue => exact throws_returnValue q
    | endFunc => exact fun _ _ _ h => (Machine.not_fails_endFunc h).elim
    | callAssign => exact throws_callAssign q
    | _ =>
      rw [hop] at hcall
      cases hcall

end Exec

namespace Machine

/-- A jump without a target is never taken. -/
theorem fails_unpatched (h : q.isUnpatched = true) (m : Machine) :
    (Exec.execute q).run.run m = (.error (.internal .unpatchedJump), m) := by
  rw [Quad.isUnpatched, Bool.and_eq_true, Option.isNone_iff_eq_none] at h
  obtain ⟨hjump, hnone⟩ := h
  have hexec : Exec.execute q = Exec.jump q := by
    rw [Quad.isJump, Bool.or_eq_true, decide_eq_true_eq, decide_eq_true_eq] at hjump
    unfold Exec.execute
    rcases hjump with hop | hop
    · rw [hop]
    · rw [hop]
  rw [hexec]
  rw [Exec.jump, hnone]
  rfl

/-- A step that the step limit allows faults at a jump without a target, or with a fault of its
quad. -/
theorem faulted_of_mayStep {m m' : Machine} (hq : m.quads[m.ip]? = some q) (hm : m.MayStep)
    (h : m.advance = .faulted e m') :
    (q.isUnpatched = true ∧ e.fault = .internal .unpatchedJump) ∨ OfQuad e.fault := by
  rw [advance, step_eq_execute hq hm] at h
  cases hunpatched : q.isUnpatched with
  | true =>
    rw [fails_unpatched hunpatched] at h
    cases h
    exact Or.inl ⟨rfl, rfl⟩
  | false =>
    split at h
    · rename_i f m₁ hf
      cases h
      exact Or.inr (Exec.throws_execute hunpatched _ f _ hf)
    · cases h
    · cases h
    · rename_i m₁ _
      unfold conclude at h
      split at h
      · cases h
      · rename_i f m₂ hf
        cases h
        exact Or.inr (Exec.throws_flush _ f _ hf)

/-- A step that faults does so outside the program, at the step limit, at a jump without a target,
or with a fault of its quad. -/
theorem faulted_cases {m m' : Machine} (h : m.advance = .faulted e m') :
    (m.quads[m.ip]? = none ∧ e.fault = .internal (.outsideProgram m.ip)) ∨
      ∃ q, m.quads[m.ip]? = some q ∧ ((∃ limit, e.fault = .stepLimit limit) ∨
        (q.isUnpatched = true ∧ e.fault = .internal .unpatchedJump) ∨ OfQuad e.fault) := by
  cases hq : m.quads[m.ip]? with
  | none =>
    rw [advance, step_eq_outside hq] at h
    cases h
    exact Or.inl ⟨rfl, rfl⟩
  | some q =>
    refine Or.inr ⟨q, rfl, ?_⟩
    by_cases hm : m.MayStep
    · exact Or.inr (faulted_of_mayStep hq hm h)
    · unfold advance at h
      rw [MayStep, Classical.not_forall] at hm
      obtain ⟨limit, hm⟩ := hm
      rw [Classical.not_imp] at hm
      rw [step_eq_limit hq hm.1 (Nat.le_of_not_lt hm.2)] at h
      cases h
      exact Or.inl ⟨limit, rfl⟩

end Machine

end Quadruple
