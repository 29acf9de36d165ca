/-
  Operators and the fences between them.

  Each open parenthesis, call and array access has put up a fence: the height of the operator stack
  at that moment.  What an operator is settled with neither looks at the two stacks nor touches
  them, and does the same whatever is on them (`Oblivious`).  The steps that do are few: an operator
  is pushed, a fence is put up or taken down, and operators are reduced, each reduction taking the
  topmost operator off whether it succeeds or not (`tail_reduceTop`).

  Reductions stop at the innermost fence.  So in every state, and after refused events too, with
  the innermost fence first (`Fenced`, `fenced_perform`):

      operators.length ≥ fence₁ ≥ fence₂ ≥ …
-/
import Quadruple.Proofs.Tolerance

namespace Quadruple

variable {g g' : Generator}

/-! ## Steps that do not see the stacks -/

namespace Compile

variable {α β : Type}
variable {rest : List Opcode}

/-- The computation does the same whatever operators and fences there are, and leaves them as they
are. -/
def Oblivious (c : Compile α) : Prop :=
  ∀ (g : Generator) (operators : List Opcode) (fences : List Nat),
    c.run.run (g.withStacks operators fences) =
    ((c.run.run g).1, (c.run.run g).2.withStacks operators fences)

theorem oblivious_pure (a : α) : Oblivious (pure a) := fun _ _ _ => rfl

theorem oblivious_throw (e : CompileError) : Oblivious (throw e : Compile α) := fun _ _ _ => rfl

theorem Oblivious.bind {c : Compile α} {f : α → Compile β} (hc : Oblivious c)
    (hf : ∀ a, Oblivious (f a)) : Oblivious (c >>= f) := by
  intro g operators fences
  rw [run_bind, run_bind, hc]
  rcases c.run.run g with ⟨r, s⟩
  cases r with
  | ok a => exact hf a s operators fences
  | error e => rfl

theorem oblivious_modify {f : Generator → Generator}
    (h : ∀ g operators fences,
      f (g.withStacks operators fences) = (f g).withStacks operators fences)
    : Oblivious (modify f) := fun g operators fences => congrArg (Prod.mk _) (h g operators fences)

/-- What follows may depend on everything but the two stacks. -/
theorem oblivious_read {k : Generator → Compile β} (hk : ∀ g, Oblivious (k g))
    (hsame : ∀ g operators fences, k (g.withStacks operators fences) = k g) :
    Oblivious (get >>= k) := by
  intro g operators fences
  rw [run_bind, run_bind]
  show (k (g.withStacks operators fences)).run.run _ = _
  rw [hsame]
  exact hk g g operators fences

/-- What follows may also put the state back with something changed. -/
theorem oblivious_get_bind {k : Generator → Compile β}
    (h : ∀ g operators fences,
      (k (g.withStacks operators fences)).run.run (g.withStacks operators fences) =
      (((k g).run.run g).1, ((k g).run.run g).2.withStacks operators fences)) :
    Oblivious (get >>= k) := h

theorem oblivious_refuse (cause : Cause) : Oblivious (refuse cause : Compile α) :=
  oblivious_read (fun _ => oblivious_throw _) fun _ _ _ => rfl

/-! ### Quads and slots -/

theorem oblivious_emit (op : Opcode) (left right result : Option Operand) :
    Oblivious (emit op left right result) := by
  refine oblivious_read (fun g => ?_) fun _ _ _ => rfl
  split
  · exact oblivious_refuse _
  · exact .bind (oblivious_modify fun _ _ _ => rfl) fun _ =>
      .bind (oblivious_modify fun _ _ _ => rfl) fun _ => oblivious_pure _

theorem oblivious_allocate (ty : Scalar) (segment : Segment) : Oblivious (allocate ty segment) := by
  refine oblivious_get_bind fun g operators fences => ?_
  have hpool : (g.withStacks operators fences).pool.allocate ty segment = g.pool.allocate ty
      segment := rfl
  rw [hpool]
  rcases g.pool.allocate ty segment with e | ⟨address, pool⟩
  · rfl
  · rfl

theorem oblivious_giveBack (address : Nat) : Oblivious (giveBack address) := by
  refine oblivious_get_bind fun g operators fences => ?_
  have hpool : (g.withStacks operators fences).pool.release address = g.pool.release address := rfl
  rw [hpool]
  cases g.pool.release address with
  | error e => rfl
  | ok pool => rfl

theorem oblivious_temporary (ty : Scalar) :
    Oblivious (temporary ty) := oblivious_allocate ty .temporaries

theorem oblivious_constant (v : Value) : Oblivious (constant v) := by
  unfold constant
  dsimp only
  split
  · exact oblivious_refuse _
  refine oblivious_read (fun g => ?_) fun _ _ _ => rfl
  split
  · exact oblivious_pure _
  · exact .bind (oblivious_allocate _ _) fun _ => .bind (oblivious_modify fun _ _ _ => rfl) fun _ =>
      .bind (oblivious_modify fun _ _ _ => rfl) fun _ => oblivious_pure _

/-! ### Operands -/

theorem oblivious_push (e : Entry) : Oblivious (push e) := oblivious_modify fun _ _ _ => rfl

theorem oblivious_pop : Oblivious pop := by
  refine oblivious_get_bind fun g operators fences => ?_
  have hoperands : (g.withStacks operators fences).operands = g.operands := rfl
  rw [hoperands]
  cases g.operands with
  | nil => rfl
  | cons e rest => rfl

theorem sequential_oblivious : Sequential Oblivious where
  pure := oblivious_pure
  bind := Oblivious.bind
  read := oblivious_read
  refuse _ := oblivious_refuse _

theorem inherited_oblivious : Inherited Oblivious :=
  sequential_oblivious.inherited (fun _ => oblivious_emit _) oblivious_temporary oblivious_giveBack
    (fun _ => oblivious_push _) oblivious_pop

theorem oblivious_dropResult : Oblivious dropResult := by
  refine oblivious_get_bind fun g operators fences => ?_
  have hfinished : (g.withStacks operators fences).finishedCall = g.finishedCall := rfl
  have hfunctions : (g.withStacks operators fences).program.functions = g.program.functions := rfl
  rw [hfinished, hfunctions]
  cases g.finishedCall with
  | none => rfl
  | some f =>
    dsimp only
    cases (g.program.functions.find? f).bind (·.returnType) with
    | none => rfl
    | some ty => rfl

/-- Such a step leaves the two stacks. -/
theorem Oblivious.stacks {c : Compile α} (h : Oblivious c) (g : Generator) :
    (c.run.run g).2.operators = g.operators ∧ (c.run.run g).2.fences = g.fences := by
  have hsame := congrArg Prod.snd (h g g.operators g.fences)
  have hself : g.withStacks g.operators g.fences = g := rfl
  rw [hself] at hsame
  rw [hsame]
  exact ⟨rfl, rfl⟩

/-! ## Reductions -/

/-- A reduction takes the topmost operator off first. -/
theorem run_reduceTop_cons {op : Opcode} (h : g.operators = op :: rest) :
    reduceTop.run.run g = (settle op).run.run (g.withStacks rest g.fences) := by
  have hpop : Yields popOperator g op (g.withStacks rest g.fences) := by
    rw [popOperator, yields_get_bind, h]
    rfl
  exact hpop.run_bind _

theorem run_reduceTop_nil (h : g.operators = []) :
    reduceTop.run.run g = (.error ⟨.misuse .operatorUnderflow, g.scopeName⟩, g) := by
  have hpop : Fails popOperator g ⟨.misuse .operatorUnderflow, g.scopeName⟩ g := by
    rw [popOperator, fails_get_bind, h]
    rfl
  exact hpop.run_bind _

/-- At or below the fence nothing is reduced. -/
theorem run_reduce_of_le (h : g.operators.length ≤ g.fence) (priority : Nat) :
    (reduce priority).run.run g = (.ok (), g) := by
  rw [reduce, run_get_bind, if_pos h]
  rfl

/-- Above it the topmost operator is, if it has the priority. -/
theorem run_reduce_cons {op : Opcode} (hoperators : g.operators = op :: rest)
    (hfence : g.fence < g.operators.length) (priority : Nat) :
    (reduce priority).run.run g =
    (if op.priority? = some priority then reduceTop else pure ()).run.run g := by
  rw [reduce, run_get_bind, if_neg (Nat.not_le.mpr hfence), hoperators]

/-- A reduction takes one operator off, whether it succeeds or not. -/
theorem tail_reduceTop (g : Generator) :
    (reduceTop.run.run g).2.operators = g.operators.tail ∧
    (reduceTop.run.run g).2.fences = g.fences := by
  cases h : g.operators with
  | nil =>
    rw [run_reduceTop_nil h]
    exact ⟨h, rfl⟩
  | cons op rest =>
    rw [run_reduceTop_cons h]
    exact (inherited_oblivious.settle op).stacks _

/-- So many reductions take at most so many operators off. -/
theorem drop_reduceTimes (n : Nat) (g : Generator) :
    (∃ k ≤ n, ((reduceTimes n).run.run g).2.operators = g.operators.drop k) ∧
      ((reduceTimes n).run.run g).2.fences = g.fences := by
  induction n generalizing g with
  | zero => exact ⟨⟨0, Nat.le_refl 0, rfl⟩, rfl⟩
  | succ n ih =>
    obtain ⟨htail, hfences⟩ := tail_reduceTop g
    rw [reduceTimes, run_bind]
    rcases hrun : reduceTop.run.run g with ⟨result, g'⟩
    rw [hrun] at htail hfences
    cases result with
    | error e => exact ⟨⟨1, by omega, by rw [List.drop_one]; exact htail⟩, hfences⟩
    | ok u =>
      obtain ⟨⟨k, hk, hoperators⟩, hkept⟩ := ih g'
      refine ⟨⟨k + 1, by omega, ?_⟩, hkept.trans hfences⟩
      rw [hoperators, htail, List.drop_tail]

end Compile

/-! ## The invariant -/

/-- The fences ascend, and the operators reach above the highest. -/
def Generator.Fenced (g : Generator) : Prop := (g.operators.length :: g.fences).Pairwise (· ≥ ·)

namespace Generator.Fenced

variable {g g' : Generator}

theorem fence_le (h : g.Fenced) : g.fence ≤ g.operators.length := by
  unfold Generator.Fenced at h
  unfold Generator.fence
  cases hfences : g.fences with
  | nil => exact Nat.zero_le _
  | cons f rest =>
    rw [hfences] at h
    exact (List.pairwise_cons.mp h).1 f List.mem_cons_self

/-- What stays above the innermost fence stays fenced. -/
theorem of_fence_le (h : g.Fenced) (hfences : g'.fences = g.fences)
    (hle : g.fence ≤ g'.operators.length) : g'.Fenced := by
  obtain ⟨-, hascend⟩ := List.pairwise_cons.mp h
  rw [Generator.Fenced, hfences]
  refine List.pairwise_cons.mpr ⟨?_, hascend⟩
  intro f hf
  unfold Generator.fence at hle
  cases hrest : g.fences with
  | nil =>
    rw [hrest] at hf
    cases hf
  | cons first rest =>
    rw [hrest] at hf hle hascend
    have hfirst : first ≤ g'.operators.length := hle
    rcases List.mem_cons.mp hf with rfl | hf
    · exact hfirst
    · exact Nat.le_trans ((List.pairwise_cons.mp hascend).1 f hf) hfirst

theorem of_same (h : g.Fenced) (hoperators : g'.operators = g.operators)
    (hfences : g'.fences = g.fences) : g'.Fenced := by
  rw [Generator.Fenced, hoperators, hfences]
  exact h

/-- Another operator. -/
theorem push (h : g.Fenced) (op : Opcode) :
    ({ g with operators := op :: g.operators } : Generator).Fenced :=
  h.of_fence_le rfl (Nat.le_succ_of_le h.fence_le)

/-- Another fence. -/
theorem opened (h : g.Fenced) :
    ({ g with fences := g.operators.length :: g.fences } : Generator).Fenced := by
  refine List.pairwise_cons.mpr ⟨?_, h⟩
  intro f hf
  rcases List.mem_cons.mp hf with rfl | hf
  · exact Nat.le_refl _
  · exact (List.pairwise_cons.mp h).1 f hf

/-- One fence less. -/
theorem closed {f : Nat} {rest : List Nat} (h : g.Fenced) (hfences : g.fences = f :: rest) :
    ({ g with fences := rest } : Generator).Fenced := by
  unfold Generator.Fenced at h ⊢
  rw [hfences] at h
  exact h.sublist (.cons_cons _ (.cons _ (.refl rest)))

end Generator.Fenced

namespace Generator

/-- What is fenced stays fenced. -/
def KeepsFenced (g g' : Generator) : Prop := g.Fenced → g'.Fenced

instance : IsPreorder Generator KeepsFenced where
  refl _ := id
  trans _ _ _ h h' := h' ∘ h

theorem KeepsFenced.of_same (hoperators : g'.operators = g.operators)
    (hfences : g'.fences = g.fences) : KeepsFenced g g' := fun hg => hg.of_same hoperators hfences

end Generator

namespace Compile

open Generator

variable {α : Type}

theorem Oblivious.fenced {c : Compile α} (h : Oblivious c) : Moves KeepsFenced c := by
  intro g
  obtain ⟨hoperators, hfences⟩ := h.stacks g
  exact .of_same hoperators hfences

theorem fenced_reduceAll : Moves KeepsFenced reduceAll := by
  intro g hg
  rw [reduceAll, run_get_bind]
  obtain ⟨⟨k, hk, hoperators⟩, hfences⟩ := drop_reduceTimes (g.operators.length - g.fence) g
  refine hg.of_fence_le hfences ?_
  have hle := hg.fence_le
  rw [hoperators, List.length_drop]
  omega

theorem fenced_reduce (priority : Nat) : Moves KeepsFenced (reduce priority) := by
  intro g hg
  by_cases hle : g.operators.length ≤ g.fence
  · rw [run_reduce_of_le hle]
    exact hg
  · obtain ⟨op, rest, hstack⟩ :=
      List.exists_cons_of_length_pos (Nat.zero_lt_of_lt (Nat.not_le.mp hle))
    rw [run_reduce_cons hstack (Nat.not_le.mp hle)]
    split
    · obtain ⟨hoperators, hfences⟩ := tail_reduceTop g
      refine hg.of_fence_le hfences ?_
      rw [hoperators, List.length_tail]
      omega
    · exact hg

theorem fenced_pushOperator (op : Opcode) : Moves KeepsFenced (pushOperator op) := by
  unfold pushOperator
  split
  · exact moves_reject _
  · exact moves_modify fun _ hg => hg.push op

theorem fenced_closeParenthesis : Moves KeepsFenced closeParenthesis := by
  refine .bind fenced_reduceAll fun _ => moves_get_bind fun g => ?_
  split
  · rename_i hfences
    exact leads_set fun hg => hg.closed hfences
  · exact moves_reject _ g

theorem branches_fenced : BranchesKeep KeepsFenced where
  expressions := { inherited_oblivious.map sequential_moves Oblivious.fenced with
    pushOperator := fenced_pushOperator
    reduce := fenced_reduce
    reduceAll := fenced_reduceAll
    openParenthesis := moves_modify fun _ hg => hg.opened
    closeParenthesis := fenced_closeParenthesis
    accesses := .of_same rfl rfl }
  grows _ _ := .of_same rfl rfl
  patches _ _ _ := .of_same rfl rfl
  marks := .of_same rfl rfl

theorem expressions_fenced : ExpressionsKeep KeepsFenced := branches_fenced.expressions

theorem variables_fenced : VariablesKeep KeepsFenced where
  allocate ty segment := (oblivious_allocate ty segment).fenced
  allocateBlock ty segment len := by
    refine moves_get_bind fun g => ?_
    split
    · exact leads_set_bind (.of_same rfl rfl) (moves_pure _ _)
    · exact moves_refuse _ g
  giveBack address := (oblivious_giveBack address).fenced
  constant v := (oblivious_constant v).fenced
  tables := .of_same rfl rfl

theorem fenced_declareFunction (id : String) : Moves KeepsFenced (declareFunction id) := by
  refine moves_get_bind fun g => ?_
  split
  · exact moves_reject _ g
  split
  · exact moves_refuse _ g
  · exact leads_set_bind (.of_same rfl rfl) (moves_modify (fun _ => .of_same rfl rfl) _)

/-- A function may only be closed when no operator is left, but looking at them is all that it does.
-/
theorem fenced_endFunction : Moves KeepsFenced endFunction := by
  refine .bind moves_openRoutine fun r => moves_get_bind fun g => ?_
  dsimp only
  split
  · exact moves_refuse _ g
  refine Moves.leads ?_
  refine .bind (moves_ensureClosed _) fun _ => .bind (oblivious_emit _ _ _ _).fenced fun _ =>
    .bind moves_get fun _ => ?_
  exact .bind (moves_updateRoutine _ fun _ => .of_same rfl rfl) fun _ =>
    .bind (moves_modify fun _ => .of_same rfl rfl) fun _ => moves_modify fun _ => .of_same rfl rfl

/-! ### Every event and step -/

theorem fenced_callFunction (id : String) : Moves KeepsFenced (callFunction id) :=
  expressions_fenced.callFunction (.of_same rfl rfl)
    (fun _ _ _ => (oblivious_emit _ _ _ _).fenced) id

theorem fenced_endCall : Moves KeepsFenced endCall :=
  expressions_fenced.endCall (.of_same rfl rfl) (fun _ _ _ => (oblivious_emit _ _ _ _).fenced)
    (.of_same rfl rfl)

theorem fenced_setFunctionType (ty : TypeName) : Moves KeepsFenced (setFunctionType ty) :=
  moves_setFunctionType ty fun _ => .of_same rfl rfl

theorem fenced_declareParam (id : String) (ty : TypeName) :
    Moves KeepsFenced (declareParam id ty) :=
  variables_fenced.declareParam (fun _ _ _ => .of_same rfl rfl) id ty

theorem fenced_pushConstant (v : Value) : Moves KeepsFenced (pushConstant v) :=
  expressions_fenced.pushConstant (variables_fenced.constant v)

/-- Every event keeps the fences, whether it is accepted or not. -/
theorem fenced_dispatch (e : Event) : Moves KeepsFenced (dispatch e) := by
  cases hexpression : e.isExpression with
  | true => exact expressions_fenced.dispatch hexpression
  | false =>
    cases hbranch : e.isBranch with
    | true => exact branches_fenced.moves_dispatch hbranch
    | false =>
      cases e with
      | declareClass id => exact moves_declareClass (.of_same rfl rfl) id
      | declareField id ty => exact moves_declareField (.of_same rfl rfl) id ty
      | endClass => exact moves_endClass (.of_same rfl rfl)
      | declareFunction id => exact fenced_declareFunction id
      | setFunctionType ty => exact fenced_setFunctionType ty
      | declareParam id ty => exact fenced_declareParam id ty
      | declareVariable id ty => exact variables_fenced.declareVariable id ty
      | declareArrayDimension size => exact variables_fenced.declareArrayDimension size
      | allocateArray => exact variables_fenced.allocateArray
      | endFunction => exact fenced_endFunction
      | pushOperand a ty c => exact moves_pushOperand (.of_same rfl rfl) a ty c
      | pushConstant value => exact fenced_pushConstant value
      | input text => exact expressions_fenced.input variables_fenced.constant text
      | callFunction id => exact fenced_callFunction id
      | pushCallArgument index =>
        exact expressions_fenced.pushCallArgument (.of_same rfl rfl)
          (fun _ _ _ => (oblivious_emit _ _ _ _).fenced) index
      | endCall => exact fenced_endCall
      | openConditional | elseBranch | closeConditional | saveLoopStart | setLoopCondition
      | closeLoop | pushCallResult
      | returnValue | returnVoid => cases hbranch
      | _ => cases hexpression

/-- So does dropping the result before it. -/
theorem fenced_apply (e : Event) : Moves KeepsFenced (apply e) := by
  unfold apply
  split
  · exact .bind oblivious_dropResult.fenced fun _ => fenced_dispatch e
  · exact fenced_dispatch e

/-- So does every step of a front end. -/
theorem fenced_perform : ∀ d : Directive, Moves KeepsFenced (perform d)
  | .event e => fenced_apply e
  | .pushOperator op => fenced_pushOperator op
  | .setFunctionType ty => fenced_setFunctionType ty
  | .declareParam id ty => fenced_declareParam id ty
  | .declareVariable id ty => variables_fenced.declareVariable id ty
  | .pushConstant value => fenced_pushConstant value
  | .pushVariable id => expressions_fenced.pushVariable id
  | .print => expressions_fenced.print
  | .executeRemaining => fenced_reduceAll
  | .pushCallResult => branches_fenced.moves_pushCallResult
  | .callFunction id => fenced_callFunction id
  | .endCall => fenced_endCall
  | .endFunction => fenced_endFunction

end Compile

namespace Generator

theorem fence_congr (h : g'.fences = g.fences) : g'.fence = g.fence := by
  unfold fence
  rw [h]

/-- The state after events and direct steps, refused ones included. -/
def after (g : Generator) (steps : List Directive) : Generator :=
  steps.foldl (fun g d => ((Compile.perform d).run.run g).2) g

/-- An event that is accepted leads there. -/
theorem yields_after_of_isOk {e : Event} (h : ((Compile.apply e).run.run g).1.isOk = true) :
    Yields (Compile.apply e) g () (g.after [.event e]) := by
  obtain ⟨u, g', h⟩ := exists_yields_of_isOk h
  have hg : g.after [.event e] = g' := congrArg Prod.snd h
  rw [hg]
  exact h

theorem fenced_ofSizes (sizes : Sizes) (threshold : Level) : (ofSizes sizes threshold).Fenced :=
  List.pairwise_singleton _ _

/-- They hold after any number of steps. -/
theorem Fenced.after (h : g.Fenced) (steps : List Directive) : (g.after steps).Fenced := by
  induction steps generalizing g with
  | nil => exact h
  | cons d rest ih => exact ih (Compile.fenced_perform d g h)

/-- Events and direct steps, refused or not, lead to the state. -/
def Reached (g : Generator) : Prop :=
  ∃ (sizes : Sizes) (threshold : Level) (steps : List Directive),
    (ofSizes sizes threshold).after steps = g

theorem Reached.fenced (h : g.Reached) : g.Fenced := by
  obtain ⟨sizes, threshold, steps, rfl⟩ := h
  exact (fenced_ofSizes sizes threshold).after steps

end Generator

end Quadruple
