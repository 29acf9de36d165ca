/-
  Every event keeps the ledger.

  The triples of array accesses, objects, calls, conditionals and loops, and with them those of all
  events.  Between two events nothing is in hand:
      ⦃ InOrder ⦄ apply e ⦃ InOrder ⦄      for every e but those that name an address by its number
  and by induction on the script it is in order after every one that is accepted.  A number can
  stand for what is not accounted for, so an event that names one can break the ledger.
-/
import Quadruple.Proofs.Accounting

namespace Quadruple

variable {g : Generator} {f : Option String} {locals : Table String Variable} {rest : List Access}
  {c : Compile Unit}

namespace Compile

open Generator

variable {sizes : Sizes} {since : Nat} {x : Scope} {held : List Nat}

/-! ## Arrays -/

theorem ensures_pushArray (id : String) : Rescopes sizes since x held (pushArray id) := by
  refine ensures_get_bind fun g hg => ?_
  split
  · exact ensures_refuse _
  rename_i v hlookup
  obtain ⟨segment, hsegment, hv, -⟩ := variable_of_lookup hg hlookup
  split
  · exact ensures_refuse _
  refine ensures_set_bind (ensures_modify fun g' heq => heq ▸ ⟨_, ?_, rfl⟩)
  refine hg.1.regroup (.refl _) ?_
  intro y hy
  rcases List.mem_cons.mp hy with rfl | hy
  · exact hv.dimensions
  · exact hg.1.symbols.accesses y hy

/-- The addresses of the offsets of accesses. -/
def offsets (accesses : List Access) : List Nat := (accesses.filterMap (·.offset)).map (·.address)

theorem offsets_singleton (y : Access) : offsets [y] = y.offset.toList.map (·.address) := by
  cases h : y.offset with
  | none => simp [offsets, h]
  | some e => simp [offsets, h]

/-- Offsets go from hand to the accesses and back. -/
theorem held_setAccesses {accesses accesses' : List Access} {held' : List Nat}
    (hg : Held sizes since ⟨f, locals, accesses⟩ held g)
    (hperm : (held' ++ offsets accesses').Perm (held ++ offsets accesses))
    (hdimensions : ∀ y ∈ accesses', ∃ z ∈ accesses, y.dimensions = z.dimensions) :
    Held sizes since ⟨f, locals, accesses'⟩ held' { g with accesses := accesses' } := by
  have hfunction : g.currentFunction = f := congrArg Scope.currentFunction hg.2
  have hlocals : g.locals = locals := congrArg Scope.locals hg.2
  have haccesses : g.accesses = accesses := congrArg Scope.accesses hg.2
  subst hfunction hlocals haccesses
  refine ⟨hg.1.regroup ?_ ?_, rfl⟩
  · -- the operands stand between
    show (held' ++ (g.operands.map (·.address) ++ offsets accesses')).Perm
      (held ++ (g.operands.map (·.address) ++ offsets g.accesses))
    rw [List.perm_iff_count] at hperm ⊢
    intro a
    have hcount := hperm a
    simp only [List.count_append] at hcount ⊢
    omega
  · intro y hy
    obtain ⟨z, hz, heq⟩ := hdimensions y hy
    rw [heq]
    exact hg.1.symbols.accesses z hz

theorem ensures_modifyAccess {access : Access} (held' : List Nat) (update : Access → Access)
    (hdimensions : (update access).dimensions = access.dimensions)
    (hperm : (held' ++ offsets [update access]).Perm (held ++ offsets [access])) :
    Ensures (Held sizes since ⟨f, locals, access :: rest⟩ held) (modifyAccess update)
      fun _ => Held sizes since ⟨f, locals, update access :: rest⟩ held' := by
  refine ensures_modify fun g hg => ?_
  have haccesses : g.accesses = access :: rest := congrArg Scope.accesses hg.2
  rw [haccesses]
  refine held_setAccesses hg ?_ ?_
  · have hsplit : ∀ y, offsets (y :: rest) = offsets [y] ++ offsets rest := by
      intro y
      rw [offsets, offsets, offsets, ← List.map_append, ← List.filterMap_append,
        List.singleton_append]
    rw [hsplit, hsplit, ← List.append_assoc, ← List.append_assoc]
    exact hperm.append_right _
  · intro y hy
    rcases List.mem_cons.mp hy with rfl | hy
    · exact ⟨access, List.mem_cons_self, hdimensions⟩
    · exact ⟨y, List.mem_cons_of_mem _ hy, rfl⟩

/-- An index is scaled by its stride, which stays in hand. -/
theorem ensures_scaled (index : Entry) : ∀ stride : Option Nat,
    Ensures (Held sizes since x (index.address :: (stride.toList ++ held))) (scaled index stride)
      fun term =>
      Held sizes since x (term.address :: (stride.toList ++ held))
  | none => ensures_pure fun _ hg => hg
  | some stride => by
    refine (ensures_temporary _).bind fun t => (ensures_emit (by grind)).bind fun _ => ?_
    · exact (ensures_release_below index).bind fun _ => ensures_pure fun _ hg =>
        hg

/-- A term is added to the offset so far. -/
theorem ensures_advanced (term : Entry) : ∀ sum : Option Entry,
    Ensures (Held sizes since x (sum.toList.map (·.address) ++ term.address :: held))
      (advanced term sum) fun offset =>
      Held sizes since x (offset.address :: held)
  | none => ensures_pure fun _ hg => hg
  | some sum => by
    refine (ensures_temporary _).bind fun t => (ensures_emit (by grind)).bind fun _ => ?_
    · refine (ensures_release_below sum).bind fun _ => ?_
      exact (ensures_release_below term).bind fun _ => ensures_pure fun _ hg => hg

/-- One index: it is checked against the size of its dimension, scaled, and added to the offset. -/
theorem ensures_index {access : Access} {dimension : Dimension} (index : Entry)
    (hsize : ¬ Temporary sizes dimension.sizeConstant)
    (hstride : ∀ s, dimension.strideConstant = some s → ¬ Temporary sizes s) :
    Ensures (Held sizes since ⟨f, locals, access :: rest⟩
        (dimension.sizeConstant :: index.address :: (dimension.strideConstant.toList ++ held)))
      (do
        let _ ← emit .verify (some index.value) none (some (.addr dimension.sizeConstant))
        let term ← scaled index dimension.strideConstant
        modifyAccess fun a => { a with offset := none }
        let offset ← advanced term access.offset
        modifyAccess fun a => { a with offset := some offset, seen := a.seen + 1 })
      fun _ g => ∃ x', Held sizes since x' held g := by
  refine (ensures_emit (by grind)).bind fun _ => ?_
  refine Ensures.forget [_] ?_ (by simpa using hsize)
  refine (ensures_scaled index dimension.strideConstant).bind fun term => ?_
  refine Ensures.reorder (Ensures.forget dimension.strideConstant.toList ?_ ?_)
    List.perm_middle.symm
  · -- the offset so far is taken in hand, and the new one takes its place
    have htake : ((access.offset.toList.map (·.address) ++ term.address :: held) ++
        offsets [{ access with offset := none }]).Perm
          ((term.address :: held) ++ offsets [access]) := by
      rw [offsets_singleton, offsets_singleton, Option.toList_none, List.map_nil, List.append_nil]
      exact List.perm_append_comm
    refine (ensures_modifyAccess _ (fun a => { a with offset := none }) rfl htake).bind fun _ =>
      (ensures_advanced term access.offset).bind fun offset => ?_
    have hput :
        (held ++ offsets [{ access with offset := some offset, seen := access.seen + 1 }]).Perm
        ((offset.address :: held) ++ offsets [{ access with offset := none }]) := by
      simp [offsets_singleton]
    exact (ensures_modifyAccess held (fun a =>
      { a with offset := some offset, seen := a.seen + 1 }) rfl hput).weaken
      (fun _ hg => hg) fun _ _ hg => ⟨_, hg⟩
  · intro s hs
    exact hstride s (Option.mem_toList.mp hs)

theorem ensures_pushArrayIndex : Rescopes sizes since x held pushArrayIndex := by
  refine ensures_reduceAll.bind fun _ => ensures_pop.bind fun index => ensures_get_bind fun g hg =>
    ?_
  split
  · exact ensures_reject _
  rename_i access rest haccesses
  split
  · exact ensures_refuse _
  split
  · exact ensures_refuse _
  rename_i dimension hdimension
  have hmem : access ∈ g.account.accesses := by
    show access ∈ g.accesses
    rw [haccesses]
    exact List.mem_cons_self
  have hd := hg.1.symbols.accesses access hmem dimension (List.mem_of_getElem? hdimension)
  have hscope : g.scope = ⟨g.currentFunction, g.locals, access :: rest⟩ := by
    rw [← haccesses]
    rfl
  have hstride : ∀ s, dimension.strideConstant = some s → ¬ Temporary sizes s :=
    fun s hs => (hd.stride s hs).not_temporary
  -- the constants of the dimension are taken in hand
  have hheld : Held sizes since ⟨g.currentFunction, g.locals, access :: rest⟩
      (dimension.sizeConstant :: index.address :: (dimension.strideConstant.toList ++ held)) g := by
    refine ⟨Ledger.hold ?_ hd.size.not_temporary hd.size.1, hscope⟩
    cases hs : dimension.strideConstant with
    | none => exact hg.1
    | some s => exact (hg.1.hold (hstride s hs) (hd.stride s hs).1).perm (.swap _ _ _)
  exact (ensures_index index hd.size.not_temporary hstride).start hheld

theorem ensures_closeArrayAccess : Rescopes sizes since x held closeArrayAccess := by
  refine ensures_get_bind fun g hg => ?_
  split
  · exact ensures_reject _
  rename_i access rest haccesses
  refine ensures_set_bind ?_
  split
  · exact ensures_refuse _
  split
  · exact ensures_reject _
  rename_i offset hoffset
  have hscope : Held sizes since ⟨g.currentFunction, g.locals, access :: rest⟩ held g := by
    refine ⟨hg.1, ?_⟩
    rw [← haccesses]
    rfl
  have htake :
      ((offset.address :: held) ++ offsets rest).Perm (held ++ offsets (access :: rest)) := by
    simp [offsets, hoffset, List.perm_middle.symm]
  have hheld := held_setAccesses hscope htake fun y hy => ⟨y, List.mem_cons_of_mem _ hy, rfl⟩
  refine Ensures.start ?_ hheld
  refine ensures_closeParenthesis.bind fun _ => (ensures_temporary _).bind fun element =>
    (ensures_emit (by grind)).bind fun _ => ?_
  refine (ensures_release_below offset).bind fun _ => ?_
  exact (ensures_push rfl).weaken (fun _ hg => hg) fun _ _ hg => ⟨_, hg⟩

/-! ## Objects -/

theorem ensures_pushObject (id : String) : Balances sizes since x held (pushObject id) := by
  refine ensures_get_bind fun g hg => ?_
  split
  · exact ensures_refuse _
  split
  · exact (ensures_pushVariable id).start hg
  · exact ensures_refuse _

theorem ensures_popObject :
    Trades sizes since x held popObject fun object => (object.1.address :: held) := by
  refine ensures_pop.bind fun e => ?_
  split
  · split
    · exact ensures_pure fun _ hg => hg
    · exact ensures_refuse _
  · exact ensures_refuse _

theorem ensures_pushProperty (name : String) : Balances sizes since x held (pushProperty name) := by
  refine ensures_popObject.bind fun ⟨object, c⟩ => ensures_get_bind fun g hg => ?_
  split
  · exact ensures_refuse _
  refine Ensures.start ?_ hg
  refine (ensures_temporary _).bind fun field => (ensures_emit (by grind)).bind fun _ => ?_
  exact (ensures_release_below object).bind fun _ => ensures_push rfl

theorem ensures_newObject (className : String) :
    Balances sizes since x held (newObject className) := by
  refine ensures_get_bind fun g hg => ?_
  split
  · exact ensures_refuse _
  refine Ensures.start ?_ hg
  refine ensures_popObject.bind fun ⟨target, c⟩ => ?_
  dsimp only
  split
  · exact ensures_refuse _
  exact (ensures_emit (by grind)).bind fun _ => ensures_release target

theorem ensures_deleteObject : Balances sizes since x held deleteObject := by
  exact ensures_popObject.bind fun ⟨target, c⟩ => (ensures_emit (by grind)).bind fun _ =>
    ensures_release target

/-! ## Calls and returns -/

/-- A quad without addresses. -/
theorem ensures_emit_bare {op : Opcode} {left right result : Option Operand}
    (hq : (Quad.mk op left right result).addresses = []) :
    Balances sizes since x held (emit op left right result) := by
  refine ensures_emit fun a => ?_
  rw [hq]
  exact Nat.zero_le _

theorem ensures_routine (id : String) : Balances sizes since x held (routine id) := by
  refine ensures_get_bind fun g hg => ?_
  split
  · exact ensures_pure fun _ heq => heq ▸ hg
  · exact ensures_refuse _

theorem ensures_openRoutine : Balances sizes since x held openRoutine := by
  refine ensures_get_bind fun g hg => ?_
  split
  · exact ensures_reject _
  · exact Ensures.start ((ensures_routine _).bind fun _ => ensures_pure fun _ hg => hg) hg

theorem ensures_callFunction (id : String) : Balances sizes since x held (callFunction id) := by
  refine (ensures_routine id).bind fun _ => (ensures_emit_bare rfl).bind fun _ =>
    Ensures.bind (ensures_modify ?_) fun _ => ensures_openParenthesis
  exact fun _ hg => hg

theorem ensures_pushCallArgument (index : Nat) :
    Balances sizes since x held (pushCallArgument index) := by
  refine ensures_reduceAll.bind fun _ => ensures_pop.bind fun argument =>
    ensures_get_bind fun g hg => ?_
  split
  · exact ensures_reject _
  refine Ensures.start ?_ hg
  refine (ensures_routine _).bind fun r => ?_
  split
  · exact ensures_refuse _
  split
  · exact ensures_refuse _
  split
  · exact ensures_refuse _
  exact (ensures_emit (by grind)).bind fun _ => (ensures_release argument).bind fun _ =>
    ensures_modify fun _ hg => hg

theorem ensures_endCall : Balances sizes since x held endCall := by
  refine ensures_get_bind fun g hg => ?_
  split
  · exact ensures_reject _
  rename_i call rest _
  have hg' : Held sizes since x held { g with calls := rest } := hg
  refine ensures_set_bind (Ensures.start ?_ hg')
  refine (ensures_routine _).bind fun r => ?_
  split
  · exact ensures_refuse _
  exact ensures_closeParenthesis.bind fun _ => (ensures_emit_bare rfl).bind fun _ =>
    ensures_modify fun _ hg => hg

theorem ensures_pushCallResult : Balances sizes since x held pushCallResult := by
  refine ensures_get_bind fun g hg => ?_
  split
  · exact ensures_reject _
  have hg' : Held sizes since x held { g with finishedCall := none } := hg
  refine ensures_set_bind (Ensures.start ?_ hg')
  refine (ensures_routine _).bind fun r => ?_
  split
  · exact ensures_refuse _
  exact (ensures_temporary _).bind fun t => (ensures_emit (by grind)).bind fun _ => ensures_push rfl

theorem ensures_returnValue : Balances sizes since x held returnValue := by
  refine ensures_openRoutine.bind fun ⟨f, r⟩ => ensures_reduceAll.bind fun _ =>
    ensures_pop.bind fun value => ?_
  split
  · exact ensures_refuse _
  split
  · exact ensures_refuse _
  exact (ensures_emit (by grind)).bind fun _ => (ensures_release value).bind fun _ =>
    (ensures_emit_bare rfl).bind fun _ =>
    ensures_modify fun _ hg => hg

theorem ensures_returnVoid : Balances sizes since x held returnVoid := by
  refine ensures_openRoutine.bind fun ⟨f, r⟩ => ?_
  dsimp only
  split
  · exact ensures_refuse _
  · exact (ensures_emit_bare rfl).bind fun _ => ensures_pure fun _ hg => hg

/-! ## Conditionals and loops -/

theorem ensures_conditionalJump (construct : String) :
    Balances sizes since x held (conditionalJump construct) := by
  refine ensures_reduceAll.bind fun _ => ensures_pop.bind fun condition => ?_
  split
  · exact ensures_refuse _
  exact (ensures_emit (by grind)).bind fun _ => (ensures_release condition).bind fun _ =>
    ensures_pure fun _ hg => hg

theorem ensures_openConditional : Balances sizes since x held openConditional :=
  (ensures_conditionalJump _).bind fun _ => ensures_modify fun _ hg => hg

theorem ensures_elseBranch : Balances sizes since x held elseBranch := by
  refine ensures_get_bind fun g hg => ?_
  split
  · exact ensures_reject _
  split
  · exact ensures_reject _
  refine Ensures.start ?_ hg
  refine (ensures_emit_bare rfl).bind fun _ => Ensures.bind (ensures_modify ?_) fun _ =>
    ensures_patch _ _
  exact fun _ hg => hg

theorem ensures_closeConditional : Balances sizes since x held closeConditional := by
  refine ensures_get_bind fun g hg => ?_
  split
  · exact ensures_reject _
  rename_i c rest _
  have hg' : Held sizes since x held { g with conditionals := rest } := hg
  exact ensures_set_bind ((ensures_patch _ _).start hg')

theorem ensures_saveLoopStart : Balances sizes since x held saveLoopStart :=
  ensures_modify fun _ hg => hg

theorem ensures_setLoopCondition : Balances sizes since x held setLoopCondition := by
  refine (ensures_conditionalJump _).bind fun _ => ensures_get_bind fun g hg => ?_
  split
  · exact ensures_reject _
  · exact ensures_set hg

theorem ensures_closeLoop : Balances sizes since x held closeLoop := by
  refine ensures_get_bind fun g hg => ?_
  split
  · exact ensures_reject _
  rename_i l rest _
  have hg' : Held sizes since x held { g with loops := rest } := hg
  refine ensures_set_bind (Ensures.start ?_ hg')
  split
  · exact ensures_reject _
  · exact (ensures_emit_bare rfl).bind fun _ => ensures_patch _ _

/-! ## Functions -/

theorem operands_of_closed (h : ∀ x ∈ openConstructs g, x.2 = 0) : g.operands = [] :=
  List.eq_nil_of_length_eq_zero (h (.operands, g.operands.length) (by simp [openConstructs]))

theorem accesses_of_closed (h : ∀ x ∈ openConstructs g, x.2 = 0) : g.accesses = [] :=
  List.eq_nil_of_length_eq_zero (h (.accesses, g.accesses.length) (by simp [openConstructs]))

end Compile

/-- Between two events nothing is in hand. -/
def Generator.InOrder (sizes : Sizes) (g : Generator) : Prop :=
  ∃ since, Ledger sizes since [] g.account

namespace Compile

open Generator

variable {sizes : Sizes}

theorem ensures_declareFunction (id : String) :
    Ensures (InOrder sizes) (declareFunction id) fun _ => InOrder sizes := by
  rintro g u g' ⟨since, hg⟩ h
  obtain ⟨journal, hnone, hnew, rfl⟩ := yields_declareFunction h
  exact ⟨since, hg.openFunction hnone hnew⟩

/-- A function is closed with an empty stack, so it takes all it used with it. -/
theorem ensures_endFunction : Ensures (InOrder sizes) endFunction fun _ => InOrder sizes := by
  rintro g u g' ⟨since, hg⟩ h
  obtain ⟨f, r, journal, hf, hr, hclosed, rfl⟩ := yields_endFunction h
  exact ⟨_, hg.close hf hr (operands_of_closed hclosed) (accesses_of_closed hclosed)⟩

/-- A step that keeps the ledger in every scope, whatever it does to the scope. -/
theorem ensures_inOrder
    (h : ∀ since x, Ensures (Held sizes since x []) c fun _ g => ∃ x', Held sizes since x' [] g) :
    Ensures (InOrder sizes) c fun _ => InOrder sizes := by
  rintro g u g' ⟨since, hg⟩ hc
  obtain ⟨x', hg'⟩ := h since g.scope g u g' ⟨hg, rfl⟩ hc
  exact ⟨since, hg'.1⟩

theorem ensures_same
    (h : ∀ since x, Trades sizes since x [] c fun _ => []) :
    Ensures (InOrder sizes) c fun _ => InOrder sizes :=
  ensures_inOrder fun since x => (h since x).weaken (fun _ hg => hg) fun _ _ hg => ⟨x, hg⟩

/-! ## Events -/

end Compile

/-- The event names an address by number. -/
def Event.namesAddress : Event → Bool
  | .pushOperand _ _ _ => true
  | _ => false

namespace Compile

open Generator

variable {sizes : Sizes}

/-- One event: most keep the scope, too. -/
theorem ensures_dispatch {e : Event} (he : e.namesAddress = false) :
    Ensures (InOrder sizes) (dispatch e) fun _ => InOrder sizes := by
  cases e with
  | declareClass id => exact ensures_same fun _ _ => ensures_declareClass id
  | declareField id ty => exact ensures_same fun _ _ => ensures_declareField id ty
  | endClass => exact ensures_same fun _ _ => ensures_endClass
  | declareFunction id => exact ensures_declareFunction id
  | setFunctionType ty => exact ensures_same fun _ _ => ensures_setFunctionType ty
  | declareParam id ty => exact ensures_inOrder fun _ _ => ensures_declareParam id ty
  | declareVariable id ty => exact ensures_inOrder fun _ _ => ensures_declareVariable id ty
  | declareArrayDimension n => exact ensures_inOrder fun _ _ => ensures_declareArrayDimension n
  | allocateArray => exact ensures_inOrder fun _ _ => ensures_allocateArray
  | endFunction => exact ensures_endFunction
  | pushVariable id => exact ensures_same fun _ _ => ensures_pushVariable id
  | pushOperand a ty c => cases he
  | pushConstant v => exact ensures_same fun _ _ => ensures_pushConstant v
  | pushOperator symbol =>
    unfold dispatch
    dsimp only
    split
    · exact ensures_same fun _ _ => ensures_pushOperator _
    · exact ensures_reject _
  | openParenthesis => exact ensures_same fun _ _ => ensures_openParenthesis
  | closeParenthesis => exact ensures_same fun _ _ => ensures_closeParenthesis
  | reduce priority => exact ensures_same fun _ _ => ensures_reduce priority
  | executeRemaining => exact ensures_same fun _ _ => ensures_reduceAll
  | openConditional => exact ensures_same fun _ _ => ensures_openConditional
  | elseBranch => exact ensures_same fun _ _ => ensures_elseBranch
  | closeConditional => exact ensures_same fun _ _ => ensures_closeConditional
  | saveLoopStart => exact ensures_same fun _ _ => ensures_saveLoopStart
  | setLoopCondition => exact ensures_same fun _ _ => ensures_setLoopCondition
  | closeLoop => exact ensures_same fun _ _ => ensures_closeLoop
  | callFunction id => exact ensures_same fun _ _ => ensures_callFunction id
  | pushCallArgument index =>
    exact ensures_same fun _ _ => ensures_pushCallArgument index
  | endCall => exact ensures_same fun _ _ => ensures_endCall
  | pushCallResult => exact ensures_same fun _ _ => ensures_pushCallResult
  | returnValue => exact ensures_same fun _ _ => ensures_returnValue
  | returnVoid => exact ensures_same fun _ _ => ensures_returnVoid
  | pushArray id => exact ensures_inOrder fun _ _ => ensures_pushArray id
  | pushArrayIndex => exact ensures_inOrder fun _ _ => ensures_pushArrayIndex
  | closeArrayAccess => exact ensures_inOrder fun _ _ => ensures_closeArrayAccess
  | pushObject id => exact ensures_same fun _ _ => ensures_pushObject id
  | pushProperty name => exact ensures_same fun _ _ => ensures_pushProperty name
  | newObject className => exact ensures_same fun _ _ => ensures_newObject className
  | deleteObject => exact ensures_same fun _ _ => ensures_deleteObject
  | print => exact ensures_same fun _ _ => ensures_print
  | input text => exact ensures_same fun _ _ => ensures_input text

theorem ensures_dropResult : Ensures (InOrder sizes) dropResult fun _ => InOrder sizes := by
  refine ensures_get_bind fun g hg => ?_
  split
  · exact ensures_pure fun _ heq => heq ▸ hg
  have hg' : InOrder sizes { g with finishedCall := none } := hg
  refine ensures_set_bind (Ensures.start ?_ hg')
  split
  · exact ensures_modify fun _ hg => hg
  · exact ensures_pure fun _ hg => hg

/-- Every accepted event keeps the order. -/
theorem ensures_apply {e : Event} (he : e.namesAddress = false) :
    Ensures (InOrder sizes) (apply e) fun _ => InOrder sizes := by
  unfold apply
  split
  · exact ensures_dropResult.bind fun _ => ensures_dispatch he
  · exact ensures_dispatch he

end Compile

/-- The ledger is in order before the first event. -/
theorem inOrder_ofSizes (sizes : Sizes) (threshold : Level) :
    (Generator.ofSizes sizes threshold).InOrder sizes := by
  have hnothing : ∀ {α : Type} {id : String}, (Table.empty : Table String α).find? id = none := rfl
  refine ⟨0, Pool.valid_ofLayout sizes, rfl, rfl, ?_, ?_, ⟨?_, ?_, ?_, ?_⟩,
    ⟨Nat.le_refl _, fun _ => rfl, ?_, ?_, ?_⟩, ?_⟩
  · intro a _
    show 0 = ((Pool.ofLayout (Layout.ofSizes sizes)).isLive a).toNat
    rw [Pool.isLive_ofLayout]
    rfl
  · exact List.forall_mem_nil _
  · exact fun _ _ hv => nomatch hnothing.symm.trans hv
  · exact fun _ _ hv => nomatch hnothing.symm.trans hv
  · exact List.forall_mem_nil _
  · exact List.forall_mem_nil _
  · intro f hf
    cases hf
  · intro n q _ hq
    cases hq
  · exact fun _ _ hr => nomatch hnothing.symm.trans hr
  · intro n q hq
    cases hq

/-- The ledger is in order after every script that is accepted and names no addresses by number. -/
theorem Accepts.inOrder {sizes : Sizes} {threshold : Level} {events : List Event}
    (h : Accepts (.ofSizes sizes threshold) events g)
    (hevents : ∀ e ∈ events, e.namesAddress = false) : g.InOrder sizes := by
  refine h.induction (P := fun done g => (∀ e ∈ done, e.namesAddress = false) → g.InOrder sizes)
    (fun _ => inOrder_ofSizes sizes threshold) ?_ hevents
  intro done e g g' ih happly hdone
  have hbefore := ih fun e' he' => hdone e' (List.mem_append_left _ he')
  exact Compile.ensures_apply (hdone e (List.mem_append_right _ List.mem_cons_self)) g () g' hbefore
    happly

end Quadruple
