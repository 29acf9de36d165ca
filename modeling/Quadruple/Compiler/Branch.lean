/-
  Conditionals and loops.

  A jump whose target lies ahead is emitted without one and patched when the target is known: the
  false jump of a conditional when its else branch starts or it ends, the jump over the else branch
  and the jump out of a loop when they end.  A chain of `else if` is a conditional inside the else
  branch; closing the chain closes every level.
-/
import Quadruple.Compiler.Reduction

namespace Quadruple.Compile

/-- Pop a condition and emit the jump taken when it is false, without a target. -/
def conditionalJump (construct : String) : Compile Nat := do
  reduceAll
  let condition ← pop
  if condition.ty ≠ .bool then refuse (.typeMismatch condition.name construct "Bool")
  else
    let index ← emit .gotoFalse (some condition.value) none none
    release condition
    return index

/-! ## Conditionals -/

def openConditional : Compile Unit := do
  let falseJump ← conditionalJump "if"
  modify fun g => { g with conditionals := ⟨falseJump, none⟩ :: g.conditionals }

/-- End the taken branch with a jump over the other one, and send the false jump past that jump. -/
def elseBranch : Compile Unit := do
  match (← get).conditionals with
  | [] => reject .elseWithoutIf
  | c :: _ =>
    if c.exitJump.isSome then reject .secondElse
    else
      let exit ← emit .goto none none none
      modify fun g => { g with conditionals := match g.conditionals with
        | c :: rest => { c with exitJump := some exit } :: rest
        | [] => [] }
      patch c.falseJump (exit + 1)

def closeConditional : Compile Unit := do
  let g ← get
  match g.conditionals with
  | [] => reject .endOfIfWithoutIf
  | c :: rest =>
    set { g with conditionals := rest }
    patch (c.exitJump.getD c.falseJump) g.nextQuad

/-! ## Loops -/

/-- Mark the first quad of a loop's condition. -/
def saveLoopStart : Compile Unit :=
  modify fun g => { g with loops := ⟨g.nextQuad, none⟩ :: g.loops }

def setLoopCondition : Compile Unit := do
  let exit ← conditionalJump "while"
  let g ← get
  match g.loops with
  | [] => reject .conditionWithoutLoop
  | l :: rest => set { g with loops := { l with exitJump := some exit } :: rest }

def closeLoop : Compile Unit := do
  let g ← get
  match g.loops with
  | [] => reject .endOfLoopWithoutStart
  | l :: rest =>
    set { g with loops := rest }
    match l.exitJump with
    | none => reject .loopWithoutCondition
    | some exit =>
      let back ← emit .goto none none (some (.jump l.start))
      patch exit (back + 1)

end Quadruple.Compile
