/-
  Every quad that the compiler emits is well typed.

  The compiler asks the operator table with the types recorded on its operand stack and emits a quad
  over the addresses recorded there.  By the invariant of `Generator.Typed` the two agree:
      (a, s), (b, t) on the stack     typeOf a = s,  typeOf b = t
      ⟨op, a, b, r⟩ emitted           resultType? op (typeOf a) (typeOf b) = some (typeOf r)
  Patching a jump keeps a quad well typed.  The invariant is upheld by every step that a front end
  can take, accepted or refused and in whatever order (`upholds_dispatch`); so it holds after every
  sequence of them (`Generator.Typed.afterCalls`).

  What a machine relies on is read off from the forms of well-typed quads (`Quad.Obeys`).
-/
import Quadruple.Proofs.QuadTyping

namespace Quadruple

variable {op : Opcode}

/-! ## The operator table -/

/-- What the table of types has besides assignments computes. -/
theorem Opcode.computes_of_resultType? {left right ty : Scalar}
    (h : op.resultType? left right = some ty) (hassign : op ≠ .assign)
    (hbase : op.compoundBase? = none) : op.computes = true := by
  cases op with
  | assign => exact (hassign rfl).elim
  | addAssign | subtractAssign | multiplyAssign | divideAssign => cases hbase
  | add | subtract | multiply | divide | equal | notEqual | lessThan | greaterThan | lessEqual
  | greaterEqual | and | or => rfl
  | _ => cases h

theorem Opcode.ne_of_computes {other : Opcode} (h : op.computes = true)
    (hother : other.computes = false) : op ≠ other := by
  rintro rfl
  rw [hother] at h
  cases h

/-- A compound assignment takes what its plain operator takes. -/
theorem Opcode.resultType?_compoundBase {base : Opcode} (h : op.compoundBase? = some base)
    (left right : Scalar) :
    base.computes = true ∧ base.resultType? left right = op.resultType? left right := by
  cases op with
  | addAssign | subtractAssign | multiplyAssign | divideAssign =>
    cases h
    exact ⟨rfl, rfl⟩
  | _ => cases h

namespace Compile

open Generator

variable {sizes : Sizes}

/-! ## Expressions -/

theorem upholds_pushOperator (op : Opcode) : KeepsTypes sizes (pushOperator op) := by
  unfold pushOperator
  split
  · exact upholds_reject _
  · exact upholds_modify fun _ hg => { hg with }

/-- What is stored in the end is still something that the target takes. -/
theorem upholds_widened {left right : Entry} (hright : right.Typed (.ofSizes sizes))
    (hty : (Opcode.assign.resultType? left.ty right.ty).isSome = true) :
    Upholds (Typed sizes) (widened left right) fun e =>
      e.Typed (.ofSizes sizes) ∧ (Opcode.assign.resultType? left.ty e.ty).isSome = true := by
  unfold widened
  split
  · rename_i hwiden
    simp only [Bool.and_eq_true, decide_eq_true_eq] at hwiden
    obtain ⟨⟨-, hfloat⟩, hint⟩ := hwiden
    have hwide : (Opcode.assign.resultType? .float right.ty).isSome = true := by rw [hint]; rfl
    refine .bind (upholds_temporary .float) fun wide hwidth => ?_
    refine .bind (upholds_emit (.assign hwide hright (Operand.denotes_addr hwidth.2))) fun _ _ => ?_
    refine .bind (upholds_release _) fun _ _ => upholds_pure ⟨Entry.typed_direct hwidth.2 _ _, ?_⟩
    rw [hfloat]
    rfl
  · exact upholds_pure ⟨hright, hty⟩

section

variable {left right : Entry} (hleft : left.Typed (.ofSizes sizes))
    (hright : right.Typed (.ofSizes sizes))

include hleft hright

/-- The temporary for the result has the type that the table gives. -/
theorem upholds_binary (hassign : op ≠ .assign) (hbase : op.compoundBase? = none) :
    KeepsTypes sizes (binary left op right) := by
  unfold binary
  split
  · exact upholds_refuse _
  rename_i ty hty
  have hop := Opcode.computes_of_resultType? hty hassign hbase
  refine .bind (upholds_temporary ty) fun t ht => ?_
  refine .bind (upholds_emit (.compute hop hty hleft hright ht)) fun _ _ => ?_
  exact .bind (upholds_release _) fun _ _ => .bind (upholds_release _) fun _ _ =>
    upholds_push (Entry.typed_direct ht.2 _ _)

theorem upholds_assignPointer (hpointer : left.ty = .pointer ∨ right.ty = .pointer) :
    KeepsTypes sizes (assignPointer left right) := by
  unfold assignPointer
  split
  · exact upholds_refuse _
  rename_i hty
  have hty : left.ty = right.ty := not_not.mp hty
  have hboth : left.ty = .pointer ∧ right.ty = .pointer := by
    rcases hpointer with h | h
    · exact ⟨h, hty ▸ h⟩
    · exact ⟨hty.trans h, h⟩
  split
  · exact upholds_refuse _
  · refine .bind
      (upholds_emit (.assignPointer (hright.actsOnPointer hboth.2) (hleft.actsOnPointer hboth.1)))
        fun _ _ => ?_
    exact .bind (upholds_release _) fun _ _ => upholds_release _

/-- What is assigned is of a type that the table lets the target take. -/
theorem upholds_assign : KeepsTypes sizes (assign left right) := by
  unfold assign
  split
  · rename_i hpointer
    exact upholds_assignPointer hleft hright hpointer
  · split
    · exact upholds_refuse _
    · rename_i hnone
      have hty : (Opcode.assign.resultType? left.ty right.ty).isSome = true := by
        rw [Option.isNone_iff_eq_none] at hnone
        exact Option.isSome_iff_ne_none.mpr hnone
      refine .bind (upholds_widened hright hty) fun source hsource => ?_
      refine .bind (upholds_emit (.assign hsource.2 hsource.1 hleft)) fun _ _ => ?_
      exact .bind (upholds_release _) fun _ _ => upholds_release _

/-- The plain operator computes, and its result is assigned. -/
theorem upholds_compoundAssign {base : Opcode} (hbase : op.compoundBase? = some base) :
    KeepsTypes sizes (compoundAssign left op base right) := by
  unfold compoundAssign
  split
  · exact upholds_refuse _
  rename_i ty hty
  obtain ⟨hop, hsame⟩ := Opcode.resultType?_compoundBase hbase left.ty right.ty
  split
  · exact upholds_refuse _
  rename_i hnone
  rw [Option.isNone_iff_eq_none] at hnone
  refine .bind (upholds_temporary ty) fun t ht => ?_
  refine .bind (upholds_emit (.compute hop (hsame.trans hty) hleft hright ht)) fun _ _ => ?_
  have hsome := Option.isSome_iff_ne_none.mpr hnone
  refine .bind (upholds_emit (.assign hsome (Operand.denotes_addr ht.2) hleft)) fun _ _ => ?_
  exact .bind (upholds_giveBack _) fun _ _ => .bind (upholds_release _) fun _ _ => upholds_release _

end

theorem upholds_popOperator : KeepsTypes sizes popOperator := by
  refine upholds_get_bind fun g hg => ?_
  split
  · exact .bind (upholds_set { hg with }) fun _ _ => upholds_pure trivial
  · exact upholds_reject _

/-- What the topmost operator stands for finds its operands as they are recorded. -/
theorem upholds_reduceTop : KeepsTypes sizes reduceTop := by
  refine .bind upholds_popOperator fun op _ => .bind upholds_pop fun right hright =>
    .bind upholds_pop fun left hleft => ?_
  split
  · exact upholds_assign hleft hright
  rename_i hassign
  split
  · rename_i base hbase
    exact upholds_compoundAssign hleft hright hbase
  · rename_i hbase
    exact upholds_binary hleft hright hassign hbase

theorem upholds_reduceTimes : ∀ n : Nat, KeepsTypes sizes (reduceTimes n)
  | 0 => upholds_pure trivial
  | n + 1 => .bind upholds_reduceTop fun _ _ => upholds_reduceTimes n

theorem upholds_reduceAll : KeepsTypes sizes reduceAll :=
  upholds_get_bind fun _ _ => upholds_reduceTimes _

theorem upholds_reduce (priority : Nat) : KeepsTypes sizes (reduce priority) := by
  refine upholds_get_bind fun g _ => ?_
  split
  · exact upholds_pure trivial
  split
  · split
    · exact upholds_reduceTop
    · exact upholds_pure trivial
  · exact upholds_pure trivial

theorem upholds_openParenthesis : KeepsTypes sizes openParenthesis :=
  upholds_modify fun _ hg => { hg with }

theorem upholds_closeParenthesis : KeepsTypes sizes closeParenthesis := by
  refine .bind upholds_reduceAll fun _ _ => upholds_get_bind fun g hg => ?_
  split
  · exact upholds_set { hg with }
  · exact upholds_reject _

/-! ## Built-ins -/

theorem upholds_print : KeepsTypes sizes print :=
  .bind upholds_reduceAll fun _ _ => .bind upholds_pop fun _ hvalue =>
    .bind (upholds_emit (.print hvalue)) fun _ _ => upholds_release _

theorem upholds_prompt : ∀ text : Option String, KeepsTypes sizes (prompt text)
  | none => upholds_pure trivial
  | some _ => .bind (upholds_constant _) fun _ haddress =>
      .bind (upholds_emit (.print (Operand.denotes_addr haddress))) fun _ _ => upholds_pure trivial

theorem upholds_input (text : Option String) : KeepsTypes sizes (input text) := by
  refine upholds_get_bind fun g _ => ?_
  split
  · exact upholds_reject _
  rename_i target _ _
  split
  · exact upholds_refuse _
  rename_i hpointer
  refine .bind (upholds_prompt text) fun _ _ => .bind (upholds_temporary target.ty) fun t ht => ?_
  exact .bind (upholds_emit (.input hpointer ht)) fun _ _ =>
    upholds_push (Entry.typed_direct ht.2 _ _)

/-! ## Declarations -/

theorem upholds_declareFunction (id : String) : KeepsTypes sizes (declareFunction id) := by
  refine upholds_get_bind fun g hg => ?_
  split
  · exact upholds_reject _
  split
  · exact upholds_refuse _
  refine .bind (upholds_set { hg with locals := ?_, frames := ?_ }) fun _ _ => upholds_note _
  · intro id v hv
    cases hv
  · refine Table.forall_insert hg.frames fun ty => ?_
    cases ty <;> exact Nat.zero_le _

/-- What is recorded of a function may change, as long as its frames stay small enough. -/
theorem upholds_updateRoutine (id : String) {f : Routine → Routine}
    (hf : ∀ r, (∀ ty, r.slots.total ty ≤ (Layout.ofSizes sizes).heapStart) →
      ∀ ty, (f r).slots.total ty ≤ (Layout.ofSizes sizes).heapStart) :
    KeepsTypes sizes (updateRoutine id f) := by
  refine upholds_get_bind fun g hg => ?_
  split
  · rename_i r hr
    exact upholds_set { hg with frames := Table.forall_insert hg.frames (hf r (hg.frames id r hr)) }
  · exact upholds_reject _

theorem upholds_requireType (ty : TypeName) : KeepsTypes sizes (requireType ty) := by
  refine upholds_get_bind fun g _ => ?_
  split
  · exact upholds_pure trivial
  · exact upholds_refuse _

theorem upholds_setFunctionType (ty : TypeName) : KeepsTypes sizes (setFunctionType ty) := by
  refine .bind (upholds_requireType ty) fun _ _ => upholds_get_bind fun g _ => ?_
  split
  · exact upholds_reject _
  · exact upholds_updateRoutine _ fun _ h => h

theorem upholds_declareParam (id : String) (ty : TypeName) :
    KeepsTypes sizes (declareParam id ty) := by
  refine .bind (upholds_requireType ty) fun _ _ => upholds_get_bind fun g _ => ?_
  split
  · exact upholds_reject _
  split
  · exact upholds_refuse _
  refine .bind (upholds_allocate _ _) fun address hlocated => .bind (upholds_nameAddress _ _)
    fun _ _ => ?_
  refine .bind (upholds_modify fun g' hg' => ?_) fun _ _ => upholds_updateRoutine _ fun _ h => h
  exact { hg' with
    locals := Table.forall_insert hg'.locals ⟨hlocated.typeOf, List.forall_mem_nil _⟩ }

theorem upholds_declareVariable (id : String) (ty : TypeName) :
    KeepsTypes sizes (declareVariable id ty) := by
  refine .bind (upholds_requireType ty) fun _ _ => upholds_get_bind fun g _ => ?_
  split
  · split
    · exact upholds_refuse _
    · refine .bind (upholds_allocate _ _) fun address hlocated => ?_
      refine .bind (upholds_nameAddress _ _) fun _ _ => upholds_modify fun g' hg' => ?_
      exact { hg' with
        locals := Table.forall_insert hg'.locals ⟨hlocated.typeOf, List.forall_mem_nil _⟩ }
  · split
    · exact upholds_refuse _
    · refine .bind (upholds_allocate _ _) fun address hlocated => ?_
      refine .bind (upholds_nameAddress _ _) fun _ _ => upholds_modify fun g' hg' => ?_
      exact { hg' with
        globals := Table.forall_insert hg'.globals ⟨hlocated.typeOf, List.forall_mem_nil _⟩ }

theorem upholds_lastDeclared : KeepsTypes sizes lastDeclared := by
  refine upholds_get_bind fun g _ => ?_
  split
  · exact upholds_pure trivial
  · exact upholds_reject _

theorem upholds_declareArrayDimension (size : Nat) :
    KeepsTypes sizes (declareArrayDimension size) := by
  refine .bind upholds_lastDeclared fun id _ => ?_
  split
  · exact upholds_refuse _
  refine upholds_get_bind fun g hg => ?_
  split
  · rename_i v hv
    have htyped := hg.lookup hv
    exact upholds_modify fun g' hg' => hg'.setVariable id ⟨htyped.address, htyped.dimensions⟩
  · exact upholds_refuse _

/-- Sizes and strides are integer literals. -/
theorem upholds_dimensionConstants :
    ∀ dims : List Nat, Upholds (Typed sizes) (dimensionConstants dims) fun ds =>
    ∀ d ∈ ds, d.Typed (.ofSizes sizes)
  | [] => upholds_pure (List.forall_mem_nil _)
  | [size] => by
    refine .bind (upholds_constant _) fun slot hslot => upholds_pure ?_
    exact List.forall_mem_singleton.mpr ⟨hslot, nofun⟩
  | size :: next :: later => by
    refine .bind (upholds_constant _) fun slot hslot => .bind (upholds_constant _)
      fun stride hstride => ?_
    refine .bind (upholds_dimensionConstants (next :: later)) fun ds hds => upholds_pure ?_
    rw [List.forall_mem_cons]
    refine ⟨⟨hslot, ?_⟩, hds⟩
    rintro s ⟨⟩
    exact hstride

theorem upholds_allocateArray : KeepsTypes sizes allocateArray := by
  refine .bind upholds_lastDeclared fun id _ => upholds_get_bind fun g _ => ?_
  split
  · exact upholds_refuse _
  rename_i v _
  split
  · exact upholds_refuse _
  dsimp only
  split
  · exact upholds_refuse _
  refine .bind (upholds_giveBack _) fun _ _ => .bind (upholds_allocateBlock _ _ _) fun base hbase =>
    ?_
  refine .bind (upholds_dimensionConstants _) fun ds hds => .bind (upholds_nameAddress _ _)
    fun _ _ => ?_
  exact .bind (upholds_modify fun g' hg' => hg'.setVariable id ⟨hbase.typeOf, hds⟩) fun _ _ =>
    upholds_note _

theorem upholds_declareClass (id : String) : KeepsTypes sizes (declareClass id) := by
  refine upholds_get_bind fun g hg => ?_
  split
  · exact upholds_reject _
  split
  · exact upholds_refuse _
  · exact upholds_set { hg with }

theorem upholds_declareField (id : String) (ty : TypeName) :
    KeepsTypes sizes (declareField id ty) := by
  refine upholds_get_bind fun g _ => ?_
  split
  · exact upholds_reject _
  refine .bind (upholds_requireType ty) fun _ _ => ?_
  split
  · exact upholds_reject _
  split
  · exact upholds_refuse _
  · exact upholds_modify fun _ hg => { hg with }

theorem upholds_endClass : KeepsTypes sizes endClass := by
  refine upholds_get_bind fun g hg => ?_
  split
  · exact upholds_set { hg with }
  · exact upholds_reject _

/-! ## Conditionals and loops -/

theorem upholds_conditionalJump (construct : String) :
    KeepsTypes sizes (conditionalJump construct) := by
  refine .bind upholds_reduceAll fun _ _ => .bind upholds_pop fun condition hcondition => ?_
  split
  · exact upholds_refuse _
  rename_i hbool
  have hbool : condition.ty = .bool := not_not.mp hbool
  rw [Entry.Typed, hbool] at hcondition
  refine .bind (upholds_emit (.gotoFalse hcondition nofun)) fun _ _ => ?_
  exact .bind (upholds_release _) fun _ _ => upholds_pure trivial

theorem upholds_openConditional : KeepsTypes sizes openConditional :=
  .bind (upholds_conditionalJump _) fun _ _ => upholds_modify fun _ hg => { hg with }

theorem upholds_elseBranch : KeepsTypes sizes elseBranch := by
  refine upholds_get_bind fun g _ => ?_
  split
  · exact upholds_reject _
  split
  · exact upholds_reject _
  refine .bind (upholds_emit (.goto nofun)) fun _ _ => ?_
  exact .bind (upholds_modify fun _ hg => { hg with }) fun _ _ => upholds_patch _ _

theorem upholds_closeConditional : KeepsTypes sizes closeConditional := by
  refine upholds_get_bind fun g hg => ?_
  split
  · exact upholds_reject _
  · exact .bind (upholds_set { hg with }) fun _ _ => upholds_patch _ _

theorem upholds_saveLoopStart : KeepsTypes sizes saveLoopStart :=
  upholds_modify fun _ hg => { hg with }

theorem upholds_setLoopCondition : KeepsTypes sizes setLoopCondition := by
  refine .bind (upholds_conditionalJump _) fun _ _ => upholds_get_bind fun g hg => ?_
  split
  · exact upholds_reject _
  · exact upholds_set { hg with }

theorem upholds_closeLoop : KeepsTypes sizes closeLoop := by
  refine upholds_get_bind fun g hg => ?_
  split
  · exact upholds_reject _
  refine .bind (upholds_set { hg with }) fun _ _ => ?_
  split
  · exact upholds_reject _
  refine .bind (upholds_emit (.goto ?_)) fun _ _ => upholds_patch _ _
  rintro o ⟨⟩
  exact ⟨_, rfl⟩

/-! ## Calls and returns -/

theorem upholds_routine (id : String) : KeepsTypes sizes (routine id) := by
  refine upholds_get_bind fun g _ => ?_
  split
  · exact upholds_pure trivial
  · exact upholds_refuse _

theorem upholds_callFunction (id : String) : KeepsTypes sizes (callFunction id) :=
  .bind (upholds_routine id) fun _ _ => .bind (upholds_emit (.are id)) fun _ _ =>
    .bind (upholds_modify fun _ hg => { hg with }) fun _ _ => upholds_openParenthesis

theorem upholds_pushCallArgument (index : Nat) : KeepsTypes sizes (pushCallArgument index) := by
  refine .bind upholds_reduceAll fun _ _ => .bind upholds_pop fun argument hargument =>
    upholds_get_bind fun g _ => ?_
  split
  · exact upholds_reject _
  refine .bind (upholds_routine _) fun r _ => ?_
  split
  · exact upholds_refuse _
  split
  · exact upholds_refuse _
  split
  · exact upholds_refuse _
  refine .bind (upholds_emit (.param index hargument)) fun _ _ => ?_
  exact .bind (upholds_release _) fun _ _ => upholds_modify fun _ hg => { hg with }

theorem upholds_endCall : KeepsTypes sizes endCall := by
  refine upholds_get_bind fun g hg => ?_
  split
  · exact upholds_reject _
  refine .bind (upholds_set { hg with }) fun _ _ => .bind (upholds_routine _) fun r _ => ?_
  split
  · exact upholds_refuse _
  · exact .bind upholds_closeParenthesis fun _ _ => .bind (upholds_emit (.goSub _)) fun _ _ =>
      upholds_modify fun _ hg => { hg with }

theorem upholds_pushCallResult : KeepsTypes sizes pushCallResult := by
  refine upholds_get_bind fun g hg => ?_
  split
  · exact upholds_reject _
  refine .bind (upholds_set { hg with }) fun _ _ => .bind (upholds_routine _) fun r _ => ?_
  split
  · exact upholds_refuse _
  · refine .bind (upholds_temporary _) fun t ht => .bind (upholds_emit (.callAssign _ ht))
      fun _ _ => ?_
    exact upholds_push (Entry.typed_direct ht.2 _ _)

theorem upholds_openRoutine : KeepsTypes sizes openRoutine := by
  refine upholds_get_bind fun g _ => ?_
  split
  · exact upholds_reject _
  · exact .bind (upholds_routine _) fun _ _ => upholds_pure trivial

theorem upholds_returnValue : KeepsTypes sizes returnValue := by
  refine .bind upholds_openRoutine fun _ _ => .bind upholds_reduceAll fun _ _ =>
    .bind upholds_pop fun value hvalue => ?_
  split
  · exact upholds_refuse _
  split
  · exact upholds_refuse _
  · exact .bind (upholds_emit (.returnValue hvalue)) fun _ _ => .bind (upholds_release _) fun _ _ =>
      .bind (upholds_emit .endFunc) fun _ _ => upholds_modify fun _ hg => { hg with }

theorem upholds_returnVoid : KeepsTypes sizes returnVoid := by
  refine .bind upholds_openRoutine fun _ _ => ?_
  dsimp only
  split
  · exact upholds_refuse _
  · exact .bind (upholds_emit .endFunc) fun _ _ => upholds_pure trivial

theorem upholds_ensureClosed (scope : String) : KeepsTypes sizes (ensureClosed scope) := by
  refine upholds_get_bind fun g _ => ?_
  split
  · exact upholds_reject _
  · exact upholds_pure trivial

/-- The peaks of the function become the counts of its frames, which fit below the heap. -/
theorem upholds_endFunction : KeepsTypes sizes endFunction := by
  refine .bind upholds_openRoutine fun _ _ => upholds_get_bind fun g _ => ?_
  split
  · exact upholds_refuse _
  refine .bind (upholds_ensureClosed _) fun _ _ => .bind (upholds_emit .endFunc) fun _ _ => ?_
  refine upholds_get_bind fun g' hg' => .bind (upholds_updateRoutine _ fun r _ ty => ?_) fun _ _ =>
    ?_
  · show (PerScalar.ofFn _).get ty + (PerScalar.ofFn _).get ty ≤ _
    rw [PerScalar.get_ofFn, PerScalar.get_ofFn]
    exact hg'.pool.peak_add_peak_le (by decide) ty
  refine .bind (upholds_modify fun g'' hg'' => ?_) fun _ _ => upholds_note _
  exact { hg'' with
    pool := (hg''.pool.releaseSegment .locals).releaseSegment .temporaries, locals := nofun }

/-! ## Arrays -/

theorem upholds_pushArray (id : String) : KeepsTypes sizes (pushArray id) := by
  refine upholds_get_bind fun g hg => ?_
  split
  · exact upholds_refuse _
  rename_i v hv
  split
  · exact upholds_refuse _
  refine .bind (upholds_set { hg with accesses := ?_ }) fun _ _ => upholds_openParenthesis
  exact List.forall_mem_cons.mpr ⟨⟨(hg.lookup hv).dimensions, nofun⟩, hg.accesses⟩

theorem upholds_modifyAccess {f : Access → Access}
    (h : ∀ x, x.Typed (.ofSizes sizes) → (f x).Typed (.ofSizes sizes)) :
    KeepsTypes sizes (modifyAccess f) := by
  refine upholds_modify fun g hg => { hg with accesses := ?_ }
  have hall := hg.accesses
  split
  · rename_i x rest haccesses
    rw [haccesses, List.forall_mem_cons] at hall
    rw [List.forall_mem_cons]
    exact ⟨h x hall.1, hall.2⟩
  · exact List.forall_mem_nil _

/-- The entry stands for an integer. -/
def IsIndex (sizes : Sizes) (e : Entry) : Prop := e.Typed (.ofSizes sizes) ∧ e.ty = .int

theorem IsIndex.denotes {e : Entry} (h : IsIndex sizes e) :
    e.value.Denotes (.ofSizes sizes) .int := h.2 ▸ h.1

theorem upholds_scaled {index : Entry} (hindex : IsIndex sizes index) :
    ∀ stride : Option Nat, (∀ s, stride = some s → (Layout.ofSizes sizes).typeOf s = some .int) →
      Upholds (Typed sizes) (scaled index stride) (IsIndex sizes)
  | none, _ => upholds_pure hindex
  | some stride, hstride => by
    refine .bind (upholds_temporary .int) fun t ht => ?_
    have hproduct : Opcode.multiply.resultType? .int .int = some .int := rfl
    have hfactor := Operand.denotes_addr (hstride stride rfl)
    refine .bind (upholds_emit (.compute rfl hproduct hindex.denotes hfactor ht)) fun _ _ => ?_
    exact .bind (upholds_release _) fun _ _ => upholds_pure ⟨Entry.typed_direct ht.2 _ _, rfl⟩

theorem upholds_advanced {term : Entry} (hterm : IsIndex sizes term) :
    ∀ sum : Option Entry, (∀ e, sum = some e → IsIndex sizes e) →
      Upholds (Typed sizes) (advanced term sum) (IsIndex sizes)
  | none, _ => upholds_pure hterm
  | some sum, hsum => by
    refine .bind (upholds_temporary .int) fun t ht => ?_
    have hinteger : Opcode.add.resultType? .int .int = some .int := rfl
    refine .bind (upholds_emit (.compute rfl hinteger (hsum sum rfl).denotes hterm.denotes ht))
      fun _ _ => ?_
    exact .bind (upholds_release _) fun _ _ => .bind (upholds_release _) fun _ _ =>
      upholds_pure ⟨Entry.typed_direct ht.2 _ _, rfl⟩

/-- Each index of an access is an integer, and so is the offset. -/
theorem upholds_pushArrayIndex : KeepsTypes sizes pushArrayIndex := by
  refine .bind upholds_reduceAll fun _ _ => .bind upholds_pop fun index htyped =>
    upholds_get_bind fun g hg => ?_
  split
  · exact upholds_reject _
  rename_i access rest haccesses
  have haccess : access.Typed (.ofSizes sizes) :=
    hg.accesses access (haccesses ▸ List.mem_cons_self)
  split
  · exact upholds_refuse _
  rename_i hint
  have hindex : IsIndex sizes index := ⟨htyped, not_not.mp hint⟩
  split
  · exact upholds_refuse _
  rename_i dimension hdimension
  have hdim := haccess.dimensions dimension (List.mem_of_getElem? hdimension)
  refine .bind (upholds_emit (.verify hindex.denotes hdim.size)) fun _ _ => ?_
  refine .bind (upholds_scaled hindex _ hdim.stride) fun term hterm => ?_
  refine .bind (upholds_modifyAccess fun x hx => ⟨hx.dimensions, nofun⟩) fun _ _ => ?_
  refine .bind (upholds_advanced hterm _ haccess.offset) fun offset hoffset => ?_
  refine upholds_modifyAccess fun x hx => ⟨hx.dimensions, ?_⟩
  rintro e ⟨⟩
  exact hoffset

theorem upholds_closeArrayAccess : KeepsTypes sizes closeArrayAccess := by
  refine upholds_get_bind fun g hg => ?_
  split
  · exact upholds_reject _
  rename_i access rest haccesses
  have hall := hg.accesses
  rw [haccesses, List.forall_mem_cons] at hall
  refine .bind (upholds_set { hg with accesses := hall.2 }) fun _ _ => ?_
  split
  · exact upholds_refuse _
  split
  · exact upholds_reject _
  rename_i offset hsome
  have hoffset : IsIndex sizes offset := hall.1.offset offset hsome
  refine .bind upholds_closeParenthesis fun _ _ => .bind (upholds_temporary .pointer) fun t ht => ?_
  refine .bind (upholds_emit (.element _ hoffset.denotes ht)) fun _ _ => .bind (upholds_release _)
    fun _ _ => ?_
  exact upholds_push (Entry.typed_through ht.2 _ _ _)

/-! ## Objects -/

theorem upholds_pushObject (id : String) : KeepsTypes sizes (pushObject id) := by
  refine upholds_get_bind fun g _ => ?_
  split
  · exact upholds_refuse _
  split
  · exact upholds_pushVariable id
  · exact upholds_refuse _

/-- An object is a pointer. -/
theorem upholds_popObject :
    Upholds (Typed sizes) popObject fun x => x.1.pointer.ActsOnPointer (.ofSizes sizes) := by
  refine .bind upholds_pop fun e he => ?_
  split
  · split
    · rename_i hpointer
      exact upholds_pure (he.actsOnPointer hpointer)
    · exact upholds_refuse _
  · exact upholds_refuse _

theorem upholds_pushProperty (name : String) : KeepsTypes sizes (pushProperty name) := by
  refine .bind upholds_popObject fun _ hobject => upholds_get_bind fun g _ => ?_
  split
  · exact upholds_refuse _
  · refine .bind (upholds_temporary .pointer) fun t ht => .bind (upholds_emit (.field _ hobject ht))
      fun _ _ => ?_
    exact .bind (upholds_release _) fun _ _ => upholds_push (Entry.typed_through ht.2 _ _ _)

theorem upholds_newObject (className : String) : KeepsTypes sizes (newObject className) := by
  refine upholds_get_bind fun g _ => ?_
  split
  · exact upholds_refuse _
  refine .bind upholds_popObject fun _ htarget => ?_
  dsimp only
  split
  · exact upholds_refuse _
  · exact .bind (upholds_emit (.newObject _ htarget)) fun _ _ => upholds_release _

theorem upholds_deleteObject : KeepsTypes sizes deleteObject :=
  .bind upholds_popObject fun _ htarget => .bind (upholds_emit (.delete htarget)) fun _ _ =>
    upholds_release _

/-! ## Every step -/

/-- One event, whatever it is. -/
theorem upholds_dispatch (e : Event) : KeepsTypes sizes (dispatch e) := by
  cases e with
  | declareClass id => exact upholds_declareClass id
  | declareField id ty => exact upholds_declareField id ty
  | endClass => exact upholds_endClass
  | declareFunction id => exact upholds_declareFunction id
  | setFunctionType ty => exact upholds_setFunctionType ty
  | declareParam id ty => exact upholds_declareParam id ty
  | declareVariable id ty => exact upholds_declareVariable id ty
  | declareArrayDimension size => exact upholds_declareArrayDimension size
  | allocateArray => exact upholds_allocateArray
  | endFunction => exact upholds_endFunction
  | pushVariable id => exact upholds_pushVariable id
  | pushOperand address ty className => exact upholds_pushOperand address ty className
  | pushConstant value => exact upholds_pushConstant value
  | pushOperator symbol =>
    unfold dispatch
    dsimp only
    split
    · exact upholds_pushOperator _
    · exact upholds_reject _
  | openParenthesis => exact upholds_openParenthesis
  | closeParenthesis => exact upholds_closeParenthesis
  | reduce priority => exact upholds_reduce priority
  | executeRemaining => exact upholds_reduceAll
  | openConditional => exact upholds_openConditional
  | elseBranch => exact upholds_elseBranch
  | closeConditional => exact upholds_closeConditional
  | saveLoopStart => exact upholds_saveLoopStart
  | setLoopCondition => exact upholds_setLoopCondition
  | closeLoop => exact upholds_closeLoop
  | callFunction id => exact upholds_callFunction id
  | pushCallArgument index => exact upholds_pushCallArgument index
  | endCall => exact upholds_endCall
  | pushCallResult => exact upholds_pushCallResult
  | returnValue => exact upholds_returnValue
  | returnVoid => exact upholds_returnVoid
  | pushArray id => exact upholds_pushArray id
  | pushArrayIndex => exact upholds_pushArrayIndex
  | closeArrayAccess => exact upholds_closeArrayAccess
  | pushObject id => exact upholds_pushObject id
  | pushProperty name => exact upholds_pushProperty name
  | newObject className => exact upholds_newObject className
  | deleteObject => exact upholds_deleteObject
  | print => exact upholds_print
  | input text => exact upholds_input text

theorem upholds_dropResult : KeepsTypes sizes dropResult := by
  refine upholds_get_bind fun g hg => ?_
  split
  · exact upholds_pure trivial
  refine .bind (upholds_set { hg with }) fun _ _ => ?_
  split
  · exact upholds_note _
  · exact upholds_pure trivial

/-- Every event keeps code typed, whether it is accepted or not. -/
theorem upholds_apply (e : Event) : KeepsTypes sizes (apply e) := by
  unfold apply
  split
  · exact .bind upholds_dropResult fun _ _ => upholds_dispatch e
  · exact upholds_dispatch e

/-- One directive, whatever it is. -/
theorem upholds_perform (d : Directive) : KeepsTypes sizes (perform d) := by
  cases d with
  | event e => exact upholds_apply e
  | pushOperator op => exact upholds_pushOperator op
  | setFunctionType ty => exact upholds_setFunctionType ty
  | declareParam id ty => exact upholds_declareParam id ty
  | declareVariable id ty => exact upholds_declareVariable id ty
  | pushConstant value => exact upholds_pushConstant value
  | pushVariable id => exact upholds_pushVariable id
  | print => exact upholds_print
  | executeRemaining => exact upholds_reduceAll
  | pushCallResult => exact upholds_pushCallResult
  | callFunction id => exact upholds_callFunction id
  | endCall => exact upholds_endCall
  | endFunction => exact upholds_endFunction

end Compile

/-! ## Whatever a front end does -/

/-- A call that a front end can make: a directive, or the step of any event without the drop of a
waiting result. -/
inductive FrontEndCall where
  | directive (d : Directive)
  | direct (e : Event)
deriving DecidableEq

def FrontEndCall.step : FrontEndCall → Compile Unit
  | directive d => Compile.perform d
  | direct e => Compile.dispatch e

namespace Generator

/-- The state after a list of calls, refused ones included; each finds the state that the one before
it left. -/
def afterCalls (g : Generator) (calls : List FrontEndCall) : Generator :=
  calls.foldl (fun g c => (c.step.run.run g).2) g

/-- By induction on the calls: all of them together uphold what each of them does. -/
theorem Typed.afterCalls {sizes : Sizes} {g : Generator} (hg : g.Typed sizes) :
    ∀ calls : List FrontEndCall, (g.afterCalls calls).Typed sizes
  | [] => hg
  | c :: rest => by
    have hstep : Compile.KeepsTypes sizes c.step := by
      cases c with
      | directive d => exact Compile.upholds_perform d
      | direct e => exact Compile.upholds_dispatch e
    exact Typed.afterCalls (hstep g hg).1 rest

end Generator

/-! ## What a machine relies on -/

/-- What the slots of a quad must be for its opcode, as far as the layout can tell. -/
structure Quad.Obeys (l : Layout) (q : Quad) : Prop where
  /-- No compound assignment is left. -/
  lowered : q.op.compoundBase? = none
  /-- Only pointers are followed. -/
  follows : ∀ a, some (.deref a) ∈ [q.left, q.right, q.result] → l.typeOf a = some .pointer
  /-- A result goes to a temporary, which for inputs with slots of their own has the type that the
  table gives. -/
  computes : q.op.computes = true →
    ∃ t, q.result = some (.addr t) ∧ l.segmentOf t = some .temporaries ∧
    ∀ a b, q.left = some (.addr a) → q.right = some (.addr b) →
      ∃ ty₁ ty₂ ty, l.typeOf a = some ty₁ ∧
      l.typeOf b = some ty₂ ∧ l.typeOf t = some ty ∧ q.op.resultType? ty₁ ty₂ = some ty
  assigns : q.op = .assign → ∀ a b, q.left = some (.addr a) → q.result = some (.addr b) → ∃ ty₁ ty₂,
    l.typeOf a = some ty₁ ∧ l.typeOf b = some ty₂ ∧
    (Opcode.assign.resultType? ty₂ ty₁).isSome = true
  pointers : q.op = .pointerAssign →
    (q.left = some .allocHeap ∨ ∃ o, q.left = some o ∧ o.ActsOnPointer l) ∧
    ∃ o, q.result = some o ∧ o.ActsOnPointer l
  condition : q.op = .gotoFalse → ∀ a, q.left = some (.addr a) → l.typeOf a = some .bool
  bounds : q.op = .verify → (∀ a, q.left = some (.addr a) → l.typeOf a = some .int) ∧
    ∃ size, q.result = some (.addr size) ∧ l.typeOf size = some .int
  pointerSum : q.op = .pointerAdd → ∃ t, q.result = some (.ref t) ∧ l.typeOf t = some .pointer
  reads : q.op = .input → ∃ t ty, q.result = some (.addr t) ∧ l.segmentOf t = some .temporaries ∧
    l.typeOf t = some ty ∧ ty ≠ .pointer

namespace Quad.Typed

variable {l : Layout} {q : Quad}

/-- No form has a compound assignment. -/
theorem op_lowered (h : q.Typed l) : q.op.compoundBase? = none := by
  cases h with
  | @compute op _ _ _ _ _ _ hop =>
    cases op with
    | addAssign | subtractAssign | multiplyAssign | divideAssign => cases hop
    | _ => rfl
  | _ => rfl

theorem follows_pointer (h : q.Typed l) {a : Nat}
    (ha : some (.deref a) ∈ [q.left, q.right, q.result]) : l.typeOf a = some .pointer := by
  simp only [List.mem_cons, List.not_mem_nil, or_false] at ha
  -- in each form, the operands that can be `*a` are those that stand for a value or act on a
  -- pointer
  cases h with
  | compute _ _ hleft hright =>
    rcases ha with ha | ha | ha <;> cases ha
    · exact hleft
    · exact hright
  | assign _ hsource htarget =>
    rcases ha with ha | ha | ha <;> cases ha
    · exact hsource
    · exact htarget
  | assignPointer hsource htarget =>
    rcases ha with ha | ha | ha <;> cases ha
    · exact hsource
    · exact htarget
  | gotoFalse hcondition htarget =>
    rcases ha with ha | ha | ha
    · cases ha
      exact hcondition
    · cases ha
    · obtain ⟨n, hn⟩ := htarget _ ha.symm
      cases hn
  | goto htarget =>
    rcases ha with ha | ha | ha
    · cases ha
    · cases ha
    · obtain ⟨n, hn⟩ := htarget _ ha.symm
      cases hn
  | newObject _ hoperand | delete hoperand | element _ hoperand | field _ hoperand | verify hoperand
  | print hoperand | param _ hoperand | returnValue hoperand =>
    rcases ha with ha | ha | ha <;> cases ha
    exact hoperand
  | input | are | goSub | endFunc | callAssign =>
    rcases ha with ha | ha | ha <;> cases ha

/-- A well-typed quad has what a machine relies on. -/
theorem obeys (h : q.Typed l) : q.Obeys l where
  lowered := h.op_lowered
  follows _ ha := h.follows_pointer ha
  computes hop := by
    cases h with
    | @compute op left right t ty₁ ty₂ ty _ hty hleft hright ht =>
      refine ⟨t, rfl, ht.1, ?_⟩
      rintro a b ⟨⟩ ⟨⟩
      exact ⟨ty₁, ty₂, ty, hleft, hright, ht.2, hty⟩
    | _ => cases hop
  assigns hop := by
    cases h with
    | @assign source target ty₁ ty₂ hty hsource htarget =>
      rintro a b ⟨⟩ ⟨⟩
      exact ⟨ty₁, ty₂, hsource, htarget, hty⟩
    | compute hcomputes => exact (Opcode.ne_of_computes hcomputes rfl hop).elim
    | _ => cases hop
  pointers hop := by
    cases h with
    | assignPointer hsource htarget => exact ⟨Or.inr ⟨_, rfl, hsource⟩, _, rfl, htarget⟩
    | newObject _ htarget => exact ⟨Or.inl rfl, _, rfl, htarget⟩
    | compute hcomputes => exact (Opcode.ne_of_computes hcomputes rfl hop).elim
    | _ => cases hop
  condition hop := by
    cases h with
    | gotoFalse hcondition =>
      rintro a ⟨⟩
      exact hcondition
    | compute hcomputes => exact (Opcode.ne_of_computes hcomputes rfl hop).elim
    | _ => cases hop
  bounds hop := by
    cases h with
    | verify hindex hsize =>
      refine ⟨?_, _, rfl, hsize⟩
      rintro a ⟨⟩
      exact hindex
    | compute hcomputes => exact (Opcode.ne_of_computes hcomputes rfl hop).elim
    | _ => cases hop
  pointerSum hop := by
    cases h with
    | element _ _ ht => exact ⟨_, rfl, ht.2⟩
    | field _ _ ht => exact ⟨_, rfl, ht.2⟩
    | compute hcomputes => exact (Opcode.ne_of_computes hcomputes rfl hop).elim
    | _ => cases hop
  reads hop := by
    cases h with
    | input hty ht => exact ⟨_, _, rfl, ht.1, ht.2, hty⟩
    | compute hcomputes => exact (Opcode.ne_of_computes hcomputes rfl hop).elim
    | _ => cases hop

end Quad.Typed

/-! ## The addresses that quads name -/

variable {l : Layout} {a : Nat} {q : Quad}

theorem Operand.Denotes.typed_addresses {ty : Scalar} {o : Operand} (h : o.Denotes l ty)
    (ha : a ∈ o.addresses) : ∃ ty, l.typeOf a = some ty := by
  cases o with
  | addr | deref =>
    obtain rfl := List.mem_singleton.mp ha
    exact ⟨_, h⟩
  | _ => cases h

theorem Operand.ActsOnPointer.typed_addresses {o : Operand} (h : o.ActsOnPointer l)
    (ha : a ∈ o.addresses) : ∃ ty, l.typeOf a = some ty := by
  cases o with
  | ref | deref =>
    obtain rfl := List.mem_singleton.mp ha
    exact ⟨_, h⟩
  | _ => cases h

/-- Every address that a well-typed quad names has a type. -/
theorem Quad.Typed.typed_addresses (h : q.Typed l) (ha : a ∈ q.addresses) :
    ∃ ty, l.typeOf a = some ty := by
  unfold Quad.addresses at ha
  cases h with
  | are | goSub | endFunc => simp at ha
  | goto htarget =>
    obtain ⟨o, ho, hmem⟩ := List.mem_flatMap.mp ha
    obtain ⟨n, rfl⟩ := htarget o (by simpa using ho)
    cases hmem
  | gotoFalse hcondition htarget =>
    obtain ⟨o, ho, hmem⟩ := List.mem_flatMap.mp ha
    obtain rfl | ho : o = _ ∨ _ = some o := by simpa using ho
    · exact hcondition.typed_addresses hmem
    · obtain ⟨n, rfl⟩ := htarget o ho
      cases hmem
  | _ =>
    simp only [Option.toList, List.cons_append, List.nil_append, List.append_nil, List.flatMap_cons,
      List.flatMap_nil, List.mem_append, Operand.addresses_addr, Operand.addresses_ref,
      Operand.addresses_immediate, Operand.addresses_function, Operand.addresses_allocHeap] at ha
    grind [Operand.Denotes.typed_addresses, Operand.ActsOnPointer.typed_addresses,
      Layout.IsTemporary]

/-- Addresses that have a type are words when the sizes fit. -/
theorem Quad.Typed.isWord {sizes : Sizes} (hsizes : sizes.Addressable)
    (h : q.Typed (.ofSizes sizes)) (ha : a ∈ q.addresses) : IsWord a := by
  obtain ⟨ty, hty⟩ := h.typed_addresses ha
  have hlow : a < (Layout.ofSizes sizes).heapStart := by
    by_contra hhigh
    rw [Layout.typeOf, Layout.locate_eq_none_iff.mpr (Nat.le_of_not_lt hhigh)] at hty
    cases hty
  exact .of_le (Nat.le_of_lt hlow) hsizes

/-- **Emitted code is well typed.** Over sizes that a word can address, whatever a front end does,
with operands pushed by number and with calls that are refused or overflow, halfway or at once,
every quad emitted has one of the well-typed forms, and the addresses it names are words.  So no
compound assignment is left; an operand `*a` follows a pointer; arithmetic, comparison and logic
write to a temporary, of the type that the operator table gives for the types of two direct inputs;
an assignment between slots is one that the table has; both sides of a pointer assignment are
pointers, or the source is a fresh block; a condition in a slot is a truth value; an index in a slot
and the size it is checked against are integers; a pointer sum goes to a pointer, and input to a
temporary that is none. -/
theorem emitted_quads_are_typed (sizes : Sizes) (hsizes : sizes.Addressable) (threshold : Level)
    (calls : List FrontEndCall) :
    ∀ q ∈ ((Generator.ofSizes sizes threshold).afterCalls calls).program.quads,
      q.Typed (.ofSizes sizes) ∧ q.Obeys (.ofSizes sizes) ∧ ∀ a ∈ q.addresses, IsWord a := by
  intro q hq
  have htyped := ((Generator.typed_ofSizes sizes threshold).afterCalls calls).quads q hq
  exact ⟨htyped, htyped.obeys, fun _ => htyped.isWord hsizes⟩

/-- A sum over a truth value, which is refused; then `t += 1` for a temporary that was never handed
out, which is refused as well, but only after its quads were emitted. -/
def borrowedTemporary : List FrontEndCall :=
  [.directive (.event (.declareFunction "main")), .direct (.pushOperand 44 .float none),
    .direct (.pushConstant (.bool true)), .directive (.pushOperator .add),
    .directive .executeRemaining, .direct (.pushOperand 44 .float none),
    .directive (.pushConstant (.int 1)), .directive (.pushOperator .addAssign),
    .directive .executeRemaining]

theorem emitted_quads_are_typed_borrowedTemporary :
    (⟨.add, some (.addr 44), some (.addr 60), some (.addr 44)⟩ : Quad) ∈
      ((Generator.ofSizes (Sizes.uniform 4) .warn).afterCalls borrowedTemporary).program.quads ∧
    (⟨.add, some (.addr 44), some (.addr 60), some (.addr 44)⟩ : Quad).Obeys
    (.ofSizes (Sizes.uniform 4)) ∧
    (Layout.ofSizes (Sizes.uniform 4)).typeOf 60 = some .int := by
  have hmem : (⟨.add, some (.addr 44), some (.addr 60), some (.addr 44)⟩ : Quad) ∈
      ((Generator.ofSizes (Sizes.uniform 4) .warn).afterCalls borrowedTemporary).program.quads := by
    decide +kernel
  exact ⟨hmem, (emitted_quads_are_typed _ (by decide) _ _ _ hmem).2.1, by decide +kernel⟩

end Quadruple
