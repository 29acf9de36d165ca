/-
  Reductions stop at the innermost fence.

  Reducing everything since the innermost open parenthesis is a loop: while there are operators
  above the fence, reduce the topmost one (`ReducesAll`).  Each round takes one operator off and
  leaves the fences, whether it succeeds or not, so the loop ends after at most as many rounds as
  there are operators above the fence, and `reduceAll` is how it ends (`reducesAll_iff`):

      (∃ k, ReducesAll g k outcome)  ↔  outcome = reduceAll.run.run g

  A round only runs while the stack is higher than a fence, so it always finds an operator: if it
  fails, then for another reason (`inherited_throws`).  And the operators below the fence are out of
  its reach (`Generator.Spares`).  All of this rests on the fences being in order, which they are in
  every state that events and direct steps, refused ones included, lead to (`Reached.fenced`).
-/
import Quadruple.Proofs.Fences

namespace Quadruple

variable {g : Generator} {e : CompileError} {k : Nat}
  {outcome : Except CompileError Unit × Generator}

/-! ## How a reduction fails -/

/-- It is not for want of an operator that the event was refused. -/
def CompileError.FoundOperator (e : CompileError) : Prop := e.cause ≠ .misuse .operatorUnderflow

namespace Compile

variable {α : Type}

theorem throws_refuse {cause : Cause} (h : cause ≠ .misuse .operatorUnderflow) :
    Throws CompileError.FoundOperator (refuse cause : Compile α) :=
  throws_bind throws_get fun _ => throws_throw h

theorem throws_poolError (e : PoolError) :
    Throws CompileError.FoundOperator (refuse (.ofPoolError e) : Compile α) := by
  refine throws_refuse ?_
  cases e <;> simp [Cause.ofPoolError]

theorem throws_emit (op : Opcode) (left right result : Option Operand) :
    Throws CompileError.FoundOperator (emit op left right result) := by
  refine throws_bind throws_get fun g => ?_
  split
  · exact throws_refuse (by simp)
  · exact throws_bind (throws_modify _) fun _ => throws_bind (throws_modify _) fun _ =>
      throws_pure _

theorem throws_temporary (ty : Scalar) : Throws CompileError.FoundOperator (temporary ty) := by
  refine throws_bind throws_get fun g => ?_
  split
  · exact throws_bind (throws_set _) fun _ => throws_bind (throws_modify _) fun _ => throws_pure _
  · exact throws_poolError _

theorem throws_giveBack (address : Nat) : Throws CompileError.FoundOperator (giveBack address) := by
  refine throws_bind throws_get fun g => ?_
  split
  · exact throws_set _
  · exact throws_poolError _

theorem throws_pop : Throws CompileError.FoundOperator pop := by
  refine throws_bind throws_get fun g => ?_
  split
  · exact throws_bind (throws_set _) fun _ => throws_pure _
  · exact throws_refuse (by simp)

theorem sequential_throws : Sequential (Throws CompileError.FoundOperator) where
  pure := throws_pure
  bind := throws_bind
  read hk _ := throws_bind throws_get hk
  refuse := throws_refuse

theorem inherited_throws : Inherited (Throws CompileError.FoundOperator) :=
  sequential_throws.inherited (fun _ => throws_emit _) throws_temporary throws_giveBack (fun _ =>
    throws_modify _) throws_pop

/-- Above a fence there is an operator to reduce. -/
theorem foundOperator_of_fails {g' : Generator} (hfence : g.fence < g.operators.length)
    (h : Fails reduceTop g e g') : e.FoundOperator := by
  obtain ⟨op, rest, hstack⟩ := List.exists_cons_of_length_pos (Nat.zero_lt_of_lt hfence)
  rw [Fails, run_reduceTop_cons hstack] at h
  exact inherited_throws.settle op _ _ _ h

/-! ## The loop -/

/-- Reducing the topmost operator while there are some above the fence: after so many rounds it ends
with that outcome. -/
inductive ReducesAll : Generator → Nat → Except CompileError Unit × Generator → Prop
  | done {g : Generator} (h : g.operators.length ≤ g.fence) : ReducesAll g 0 (.ok (), g)
  | fails {g g' : Generator} {e : CompileError} (h : g.fence < g.operators.length)
      (hround : Fails reduceTop g e g') :
      ReducesAll g 1 (.error e, g')
  | round {g g' : Generator} {n : Nat} {outcome : Except CompileError Unit × Generator}
      (h : g.fence < g.operators.length)
      (hround : Yields reduceTop g () g') (hrest : ReducesAll g' n outcome) :
        ReducesAll g (n + 1) outcome

/-- A round takes one operator off, so that there is one less above the same fence. -/
theorem above_reduceTop (g : Generator) :
    (reduceTop.run.run g).2.operators.length - (reduceTop.run.run g).2.fence = g.operators.length -
      g.fence - 1 := by
  obtain ⟨hoperators, hfences⟩ := tail_reduceTop g
  rw [hoperators, List.length_tail, Generator.fence_congr hfences]
  omega

/-- Induction on the number of operators above the fence. -/
theorem exists_reducesAll {n : Nat} (hn : g.operators.length - g.fence = n) :
    ∃ k ≤ n, ReducesAll g k ((reduceTimes n).run.run g) := by
  induction n generalizing g with
  | zero => exact ⟨0, Nat.le_refl 0, .done (by omega)⟩
  | succ n ih =>
    have hfence : g.fence < g.operators.length := by omega
    have habove := above_reduceTop g
    unfold reduceTimes
    cases hround : reduceTop.run.run g with
    | mk result g' =>
      rw [hround] at habove
      dsimp only at habove
      cases result with
      | error e =>
        rw [Fails.run_bind hround]
        exact ⟨1, by omega, .fails hfence hround⟩
      | ok u =>
        rw [Yields.run_bind hround]
        obtain ⟨k, hk, hrest⟩ := ih (g := g') (by omega)
        exact ⟨k + 1, by omega, .round hfence hround hrest⟩

/-- The loop ends in one way only. -/
theorem ReducesAll.eq_reduceTimes (h : ReducesAll g k outcome) :
    outcome = (reduceTimes (g.operators.length - g.fence)).run.run g := by
  induction h with
  | done h =>
    rw [Nat.sub_eq_zero_of_le h]
    rfl
  | @fails g g' e h hround =>
    obtain ⟨n, hn⟩ : ∃ n, g.operators.length - g.fence = n + 1 :=
      ⟨g.operators.length - g.fence - 1, by omega⟩
    rw [hn, reduceTimes, Fails.run_bind hround]
  | @round g g' n outcome h hround hrest ih =>
    have habove := above_reduceTop g
    rw [hround] at habove
    rw [ih, habove]
    obtain ⟨n, hn⟩ : ∃ n, g.operators.length - g.fence = n + 1 :=
      ⟨g.operators.length - g.fence - 1, by omega⟩
    rw [hn, reduceTimes, Yields.run_bind hround]
    rfl

theorem run_reduceAll (g : Generator) :
    reduceAll.run.run g = (reduceTimes (g.operators.length - g.fence)).run.run g := rfl

/-- Reducing everything is that loop: it ends, and as it says. -/
theorem reducesAll_iff (g : Generator) (outcome : Except CompileError Unit × Generator) :
    (∃ k, ReducesAll g k outcome) ↔ outcome = reduceAll.run.run g := by
  rw [run_reduceAll]
  constructor
  · rintro ⟨k, h⟩
    exact h.eq_reduceTimes
  · rintro rfl
    obtain ⟨k, -, h⟩ := exists_reducesAll (g := g) rfl
    exact ⟨k, h⟩

/-- No round fails for want of an operator. -/
theorem ReducesAll.foundOperator (h : ReducesAll g k outcome) (he : outcome.1 = .error e) :
    e.FoundOperator := by
  induction h with
  | done h => cases he
  | fails h hround =>
    cases he
    exact foundOperator_of_fails h hround
  | round h hround hrest ih => exact ih he

/-- When no round fails, the operators above the fence are gone. -/
theorem ReducesAll.length_eq (h : ReducesAll g k outcome) (hg : g.fence ≤ g.operators.length)
    (hok : outcome.1 = .ok ()) :
    outcome.2.fences = g.fences ∧ outcome.2.operators.length = g.fence := by
  induction h with
  | done h => exact ⟨rfl, Nat.le_antisymm h hg⟩
  | fails h hround => cases hok
  | @round g g' n outcome h hround hrest ih =>
    obtain ⟨hoperators, hfences⟩ := tail_reduceTop g
    rw [hround] at hoperators hfences
    have hfence := Generator.fence_congr hfences
    obtain ⟨hkept, hlength⟩ := ih (by rw [hfence, hoperators, List.length_tail]; omega) hok
    exact ⟨hkept.trans hfences, hlength.trans hfence⟩

end Compile

/-! ## Operators below the fence -/

namespace Generator

/-- The operators that stand below the innermost fence. -/
def guarded (g : Generator) : List Opcode := g.operators.drop (g.operators.length - g.fence)

/-- The step may take operators off, but none from below the fence. -/
def Spares (g : Generator) (c : Compile Unit) : Prop :=
  (c.run.run g).2.operators <:+ g.operators ∧ g.guarded <:+ (c.run.run g).2.operators

/-- It takes off some of those above the fence. -/
theorem spares_of_drop {c : Compile Unit} (hk : k ≤ g.operators.length - g.fence)
    (h : (c.run.run g).2.operators = g.operators.drop k) : g.Spares c := by
  rw [Spares, guarded, h]
  refine ⟨List.drop_suffix _ _, ?_⟩
  obtain ⟨more, hmore⟩ : ∃ more, g.operators.length - g.fence = k + more :=
    ⟨_, (Nat.add_sub_of_le hk).symm⟩
  rw [hmore, ← List.drop_drop]
  exact List.drop_suffix _ _

theorem spares_reduceAll (g : Generator) : g.Spares Compile.reduceAll := by
  obtain ⟨⟨k, hk, hoperators⟩, -⟩ := Compile.drop_reduceTimes (g.operators.length - g.fence) g
  exact spares_of_drop hk hoperators

theorem spares_reduce (g : Generator) (priority : Nat) : g.Spares (Compile.reduce priority) := by
  by_cases hfence : g.operators.length ≤ g.fence
  · refine spares_of_drop (Nat.zero_le _) ?_
    rw [Compile.run_reduce_of_le hfence]
    rfl
  · have habove := Nat.not_le.mp hfence
    obtain ⟨op, rest, hstack⟩ := List.exists_cons_of_length_pos (Nat.zero_lt_of_lt habove)
    have hrun := Compile.run_reduce_cons hstack habove priority
    by_cases hpriority : op.priority? = some priority
    · rw [if_pos hpriority] at hrun
      refine spares_of_drop (k := 1) (by omega) ?_
      rw [hrun, (Compile.tail_reduceTop g).1, List.drop_one]
    · rw [if_neg hpriority] at hrun
      refine spares_of_drop (Nat.zero_le _) ?_
      rw [hrun]
      rfl

/-- Taking the fence down leaves the operators as the reductions before it left them. -/
theorem operators_closeParenthesis (g : Generator) :
    (Compile.closeParenthesis.run.run g).2.operators =
    (Compile.reduceAll.run.run g).2.operators := by
  unfold Compile.closeParenthesis
  cases hreduced : Compile.reduceAll.run.run g with
  | mk result g' =>
    cases result with
    | error e => rw [Fails.run_bind hreduced]
    | ok u =>
      rw [Yields.run_bind hreduced, run_get_bind]
      split
      · rfl
      · rfl

theorem spares_closeParenthesis (g : Generator) : g.Spares Compile.closeParenthesis := by
  obtain ⟨htaken, hkept⟩ := spares_reduceAll g
  rw [Spares, operators_closeParenthesis]
  exact ⟨htaken, hkept⟩

/-- **Fences hold.** In every state that events and direct steps, refused ones included, lead to:
from the outermost fence to the innermost none is lower than the one before it, and none is higher
than the operator stack.  So reducing everything since the innermost fence, a loop that reduces
while the stack is higher than the fence, ends after at most as many rounds as there are operators
above it, never for want of an operator, and when it succeeds the stack is exactly as high as the
fence; and neither it nor a reduction by priority nor a closing parenthesis takes an operator from
below the fence. -/
theorem fences_hold (sizes : Sizes) (threshold : Level) (steps : List Directive) :
    let g := (ofSizes sizes threshold).after steps
    g.fences.reverse.Pairwise (· ≤ ·) ∧ (∀ f ∈ g.fences, f ≤ g.operators.length) ∧
    g.fence ≤ g.operators.length ∧
      (∃ k ≤ g.operators.length - g.fence, Compile.ReducesAll g k (Compile.reduceAll.run.run g)) ∧
      (∀ outcome, (∃ k, Compile.ReducesAll g k outcome) ↔ outcome = Compile.reduceAll.run.run g) ∧
      (∀ e g', Fails Compile.reduceAll g e g' → e.cause ≠ .misuse .operatorUnderflow) ∧
      (∀ g', Yields Compile.reduceAll g () g' → g'.fences = g.fences ∧
        g'.operators.length = g.fence) ∧
      g.Spares Compile.reduceAll ∧ (∀ priority, g.Spares (Compile.reduce priority)) ∧
      g.Spares Compile.closeParenthesis := by
  intro g
  have hg : g.Fenced := (fenced_ofSizes sizes threshold).after steps
  obtain ⟨hbelow, hascend⟩ := List.pairwise_cons.mp hg
  obtain ⟨k, hk, hloop⟩ := Compile.exists_reducesAll (g := g) rfl
  refine ⟨List.pairwise_reverse.mpr hascend, hbelow, hg.fence_le, ⟨k, hk, hloop⟩,
    Compile.reducesAll_iff g, ?_, ?_, g.spares_reduceAll, g.spares_reduce,
    g.spares_closeParenthesis⟩
  · intro e g' hfails
    exact hloop.foundOperator (congrArg Prod.fst hfails)
  · intro g' hyields
    have hend := hloop.length_eq hg.fence_le (congrArg Prod.fst hyields)
    have hstate : (Compile.reduceAll.run.run g).2 = g' := congrArg Prod.snd hyields
    rw [← hstate]
    exact hend

/-- A parenthesis after a plus, and in it a product of a number and a truth value, which is refused
but gone all the same; then a difference. -/
def refusedProduct : List Directive :=
  [.event (.declareFunction "main"), .pushConstant (.int 1), .pushOperator .add,
    .event .openParenthesis, .pushConstant (.int 2), .pushOperator .multiply,
    .pushConstant (.bool true), .executeRemaining, .pushConstant (.int 3),
    .pushOperator .subtract, .pushConstant (.int 4)]

theorem fences_hold_refusedProduct :
    ((ofSizes (Sizes.uniform 4) .warn).after refusedProduct).fences = [1] ∧
      ((ofSizes (Sizes.uniform 4) .warn).after refusedProduct).operators = [.subtract, .add] ∧
      ((ofSizes (Sizes.uniform 4) .warn).after refusedProduct).guarded = [.add] ∧
      ∃ g', Yields Compile.reduceAll ((ofSizes (Sizes.uniform 4) .warn).after refusedProduct)
        () g' ∧
        g'.operators.length = 1 ∧ [.add] <:+ g'.operators := by
  have hfences : ((ofSizes (Sizes.uniform 4) .warn).after refusedProduct).fences = [1] := by
    decide +kernel
  have hoperators : ((ofSizes (Sizes.uniform 4) .warn).after refusedProduct).operators = [.subtract,
      .add] := by
    decide +kernel
  have hguarded : ((ofSizes (Sizes.uniform 4) .warn).after refusedProduct).guarded = [.add] := by
    decide +kernel
  have hfence : ((ofSizes (Sizes.uniform 4) .warn).after refusedProduct).fence = 1 := by
    decide +kernel
  have hok :
      (Compile.reduceAll.run.run ((ofSizes (Sizes.uniform 4) .warn).after refusedProduct)).1.isOk =
        true := by
    decide +kernel
  have hholds := fences_hold (Sizes.uniform 4) .warn refusedProduct
  revert hfences hoperators hguarded hfence hok hholds
  generalize (ofSizes (Sizes.uniform 4) .warn).after refusedProduct = g
  intro hfences hoperators hguarded hfence hok hholds
  obtain ⟨-, -, -, -, -, -, hend, ⟨-, hkept⟩, -, -⟩ := hholds
  obtain ⟨⟨⟩, g', hyields⟩ := exists_yields_of_isOk hok
  have hstate : (Compile.reduceAll.run.run g).2 = g' := congrArg Prod.snd hyields
  refine ⟨hfences, hoperators, hguarded, g', hyields, (hend g' hyields).2.trans hfence, ?_⟩
  rw [← hguarded, ← hstate]
  exact hkept

end Generator

end Quadruple
