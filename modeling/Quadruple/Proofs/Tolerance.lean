/-
  Events that neither make calls nor declare anything.

  Besides what expressions do, such an event emits jumps and returns, patches jumps, and marks what
  is open and what was returned.  A relation between generators that allows each of these
  (`BranchesKeep`) holds from before conditionals, loops and returns to after them, and one that
  also tolerates every change of straight-line code (`Tolerant`) from before any such event to after
  it, whether the event is accepted or not:

      Tolerant R  →  e.isNeutral = true  →  Moves R (dispatch e)
-/
import Quadruple.Proofs.Straight

namespace Quadruple

variable {op : Opcode}

/-- An opcode that no call site is made of. -/
def Opcode.isNeutral : Opcode → Bool
  | are | param | goSub => false
  | _ => true

theorem Opcode.isNeutral_iff : op.isNeutral = true ↔ op ≠ .are ∧ op ≠ .param ∧ op ≠ .goSub := by
  cases op <;> decide

theorem Opcode.isNeutral_of_isOrdinary (h : op.isOrdinary = true) : op.isNeutral = true := by
  cases op with
  | are | param | goSub => cases h
  | _ => rfl

/-- An event that makes no call, declares no class or function, and pushes no operand by number. -/
def Event.isNeutral : Event → Bool
  | openConditional | elseBranch | closeConditional | saveLoopStart | setLoopCondition | closeLoop
  | pushCallResult
  | returnValue | returnVoid => true
  | e => e.isOrdinary

/-- An event of conditionals, loops and returns. -/
def Event.isBranch (e : Event) : Bool := e.isNeutral && !e.isOrdinary

/-- A relation that holds from before to after what branches do besides expressions. -/
structure JumpsKeep (R : Generator → Generator → Prop) : Prop where
  grows : ∀ {g : Generator} {q : Quad} (journal : Journal), q.op.isNeutral = true → R g { g with
    journal := journal
    program := { g.program with quads := g.program.quads.push q } }
  patches : ∀ {g : Generator} {index : Nat} {q : Quad} (target : Nat),
    g.program.quads[index]? = some q →
    q.isJump = true → R g { g with
      program := { g.program with
        quads := g.program.quads.setIfInBounds index { q with result := some (.jump target) } } }
  marks : ∀ {g : Generator} {conditionals loops finishedCall returned}, R g { g with
    conditionals := conditionals, loops := loops
    finishedCall := finishedCall, returned := returned }

/-- A relation that holds from before to after everything of which conditionals, loops and returns
are made. -/
structure BranchesKeep (R : Generator → Generator → Prop) : Prop extends JumpsKeep R where
  expressions : Compile.ExpressionsKeep R

namespace BranchesKeep

open Compile

variable {R : Generator → Generator → Prop} (hR : BranchesKeep R)

include hR

theorem moves_saveLoopStart : Moves R saveLoopStart :=
  moves_modify fun _ => hR.marks

variable [IsPreorder Generator R]

theorem moves_emit (hop : op.isNeutral = true) (left right result : Option Operand) :
    Moves R (emit op left right result) :=
  moves_emit_of fun _ journal _ => hR.grows journal hop

theorem moves_patch (index target : Nat) : Moves R (patch index target) := by
  refine moves_get_bind fun g => ?_
  split
  · rename_i q hq
    split
    · rename_i hjump
      exact leads_set (hR.patches target hq hjump)
    · exact moves_reject _ g
  · exact moves_reject _ g

theorem moves_conditionalJump (construct : String) : Moves R (conditionalJump construct) := by
  refine .bind hR.expressions.reduceAll fun _ => .bind hR.expressions.pop fun condition => ?_
  split
  · exact moves_refuse _
  · exact .bind (hR.moves_emit rfl _ _ _) fun _ => .bind (hR.expressions.release _) fun _ =>
      moves_pure _

theorem moves_openConditional : Moves R openConditional :=
  .bind (hR.moves_conditionalJump _) fun _ => moves_modify fun _ => hR.marks

theorem moves_elseBranch : Moves R elseBranch := by
  refine moves_get_bind fun g => ?_
  split
  · exact moves_reject _ g
  split
  · exact moves_reject _ g
  refine Moves.leads ?_
  exact .bind (hR.moves_emit rfl _ _ _) fun _ =>
    .bind (moves_modify fun _ => hR.marks) fun _ => hR.moves_patch _ _

theorem moves_closeConditional : Moves R closeConditional := by
  refine moves_get_bind fun g => ?_
  split
  · exact moves_reject _ g
  · exact leads_set_bind hR.marks (hR.moves_patch _ _ _)

theorem moves_setLoopCondition : Moves R setLoopCondition := by
  refine .bind (hR.moves_conditionalJump _) fun _ => moves_get_bind fun g => ?_
  split
  · exact moves_reject _ g
  · exact leads_set hR.marks

theorem moves_closeLoop : Moves R closeLoop := by
  refine moves_get_bind fun g => ?_
  split
  · exact moves_reject _ g
  refine leads_set_bind hR.marks ?_
  split
  · exact moves_reject _ _
  · refine Moves.leads ?_
    exact .bind (hR.moves_emit rfl _ _ _) fun _ => hR.moves_patch _ _

theorem moves_pushCallResult : Moves R pushCallResult := by
  refine moves_get_bind fun g => ?_
  split
  · exact moves_reject _ g
  refine leads_set_bind hR.marks ?_
  refine Moves.bind (moves_routine _) (fun r => ?_) _
  split
  · exact moves_refuse _
  · exact .bind (hR.expressions.temporary _) fun _ => .bind (hR.moves_emit rfl _ _ _) fun _ =>
      hR.expressions.push (Entry.labelled_of_typeName _ _ _ _)

theorem moves_returnValue : Moves R returnValue := by
  refine .bind moves_openRoutine fun routine => ?_
  refine .bind hR.expressions.reduceAll fun _ => .bind hR.expressions.pop fun value => ?_
  split
  · exact moves_refuse _
  split
  · exact moves_refuse _
  · exact .bind (hR.moves_emit rfl _ _ _) fun _ => .bind (hR.expressions.release _) fun _ =>
      .bind (hR.moves_emit rfl _ _ _) fun _ => moves_modify fun _ => hR.marks

theorem moves_returnVoid : Moves R returnVoid := by
  refine .bind moves_openRoutine fun routine => ?_
  dsimp only
  split
  · exact moves_refuse _
  · exact .bind (hR.moves_emit rfl _ _ _) fun _ => moves_pure _

/-- Every event of branches keeps the relation. -/
theorem moves_dispatch {e : Event} (he : e.isBranch = true) : Moves R (dispatch e) := by
  cases e with
  | openConditional => exact hR.moves_openConditional
  | elseBranch => exact hR.moves_elseBranch
  | closeConditional => exact hR.moves_closeConditional
  | saveLoopStart => exact hR.moves_saveLoopStart
  | setLoopCondition => exact hR.moves_setLoopCondition
  | closeLoop => exact hR.moves_closeLoop
  | pushCallResult => exact hR.moves_pushCallResult
  | returnValue => exact hR.moves_returnValue
  | returnVoid => exact hR.moves_returnVoid
  | _ => cases he

end BranchesKeep

open Generator in
/-- A relation that tolerates everything neutral events do. -/
structure Tolerant (R : Generator → Generator → Prop) : Prop extends JumpsKeep R where
  changes : ∀ {g g' : Generator}, Changes g g' → R g g'

namespace Tolerant

open Compile

variable {R : Generator → Generator → Prop} [IsPreorder Generator R] (hR : Tolerant R)

include hR

theorem branches : BranchesKeep R := { hR with expressions := keeps_changes.mono hR.changes }

/-- What tolerates the parts of neutral events holds across each of them. -/
theorem moves_dispatch {e : Event} (he : e.isNeutral = true) : Moves R (dispatch e) := by
  cases hordinary : e.isOrdinary with
  | true => exact (changes_dispatch hordinary).mono hR.changes
  | false =>
    refine hR.branches.moves_dispatch ?_
    rw [Event.isBranch, he, hordinary]
    rfl

end Tolerant

end Quadruple
