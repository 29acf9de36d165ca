/-
  Straight-line code: what most events of a compilation do.

  Of the steps a compilation is made of, few have to do with control flow: those that emit jumps,
  calls, returns and the ends of functions, that patch jumps, and that open or close a function.
  All others append quads that execution runs through from one to the next, and leave the quads
  before them, the open function, the open conditionals and loops, the result waiting to be claimed
  and the starts of functions alone (`Straight`).  Being straight is a preorder, so an event is
  straight when its parts are, whether it is accepted or refused:

      e.isControl = false  →  Moves Straight (dispatch e)

  Most of these have nothing to do with calls and declarations either.  They take and give back
  addresses, emit quads, and push and pop operands, and that is all that proofs about anything but
  names need to know of them: an event is a sequence of such changes (`Changes`), and what each of
  them keeps the event keeps (`Changes.rel`):

      (∀ g g', Change g g' → R g g')  →  e.isOrdinary = true  →  Moves R (dispatch e)

  The operands they push are labelled with a class only if they are pointers (`Entry.Labelled`).

  How the steps are put together from these parts is said once for all statements about them.  What
  a sequence inherits from its parts (`Inherited`) holds of every step of an expression, and a
  relation that the parts keep (`ExpressionsKeep`, `VariablesKeep`) holds from before to after each
  event of expressions and variables.
-/
import Mathlib.Logic.Relation
import Quadruple.Compiler
import Quadruple.Proofs.Effect

namespace Quadruple

variable {op : Opcode} {q : Quad} {g g' : Generator} {α : Type} {result : Option Operand}
  {e : Event}

/-- Execution runs through a quad with this opcode to the next one, in the same function. -/
def Opcode.isPlain : Opcode → Bool
  | goto | gotoFalse | goSub | returnValue | endFunc | callAssign => false
  | _ => true

/-- A plain opcode that is no part of a call. -/
def Opcode.isOrdinary : Opcode → Bool
  | are | param => false
  | op => op.isPlain

theorem Opcode.isPlain_of_isOrdinary (h : op.isOrdinary = true) : op.isPlain = true := by
  cases op with
  | are | param => rfl
  | _ => exact h

theorem isJump_of_isPlain (h : q.op.isPlain = true) : q.isJump = false := by
  have hgoto : q.op ≠ .goto := by
    intro hop
    rw [hop] at h
    cases h
  have hgotoFalse : q.op ≠ .gotoFalse := by
    intro hop
    rw [hop] at h
    cases h
  rw [Quad.isJump, decide_eq_false hgoto, decide_eq_false hgotoFalse]
  rfl

theorem jumpTarget?_of_not_jump (h : q.isJump = false) : q.jumpTarget? = none := by
  rw [Quad.jumpTarget?, h]

theorem isJump_of_jumpTarget? {t : Nat} (h : q.jumpTarget? = some t) : q.isJump = true := by
  cases hjump : q.isJump with
  | true => rfl
  | false =>
    rw [jumpTarget?_of_not_jump hjump] at h
    cases h

/-- An event that does more to control flow than to append straight-line code. -/
def Event.isControl : Event → Bool
  | declareFunction _ | endFunction | openConditional | elseBranch | closeConditional
  | saveLoopStart
  | setLoopCondition | closeLoop | endCall | pushCallResult | returnValue | returnVoid => true
  | _ => false

/-- An event that has nothing to do with control flow, calls and declarations, and pushes no operand
by number. -/
def Event.isOrdinary : Event → Bool
  | declareVariable _ _ | declareArrayDimension _ | allocateArray | pushVariable _ | pushConstant _
  | pushOperator _
  | openParenthesis | closeParenthesis | reduce _ | executeRemaining | pushArray _ | pushArrayIndex
  | closeArrayAccess
  | pushObject _ | pushProperty _ | newObject _ | deleteObject | print | input _ => true
  | _ => false

/-- An event of which expressions and what is done with their values are made, apart from literals.
-/
def Event.isExpression : Event → Bool
  | declareVariable _ _ | declareArrayDimension _ | allocateArray | pushConstant _ | input _ =>
    false
  | e => e.isOrdinary

/-! ## Growing code -/

/-- Plain quads were appended. -/
structure Grown (quads quads' : Array Quad) : Prop where
  size : quads.size ≤ quads'.size
  kept : ∀ i, i < quads.size → quads'[i]? = quads[i]?
  plain : ∀ i q, quads.size ≤ i → quads'[i]? = some q → q.op.isPlain = true

theorem Grown.refl (quads : Array Quad) : Grown quads quads := by
  refine ⟨Nat.le_refl _, fun _ _ => rfl, ?_⟩
  intro i q hi hq
  rw [Array.getElem?_eq_none hi] at hq
  cases hq

theorem Grown.trans {a b c : Array Quad} (hab : Grown a b) (hbc : Grown b c) : Grown a c := by
  refine ⟨Nat.le_trans hab.size hbc.size, ?_, ?_⟩
  · intro i hi
    rw [hbc.kept i (Nat.lt_of_lt_of_le hi hab.size), hab.kept i hi]
  · intro i q hi hq
    rcases Nat.lt_or_ge i b.size with hlt | hge
    · rw [hbc.kept i hlt] at hq
      exact hab.plain i q hi hq
    · exact hbc.plain i q hge hq

theorem Grown.push (quads : Array Quad) (hq : q.op.isPlain = true) :
    Grown quads (quads.push q) := by
  refine ⟨?_, ?_, ?_⟩
  · rw [Array.size_push]
    omega
  · intro i hi
    rw [Array.getElem?_push_lt hi, Array.getElem?_eq_getElem hi]
  · intro i p hi hp
    rw [Array.getElem?_push] at hp
    split at hp
    · cases hp
      exact hq
    · rw [Array.getElem?_eq_none hi] at hp
      cases hp

/-- An entry with a class is a pointer to an object. -/
def Entry.Labelled (e : Entry) : Prop := e.className.isSome = true → e.ty = .pointer

/-- The entry of something that was declared. -/
theorem Entry.labelled_of_typeName (ty : TypeName) (address : Nat) (through : Bool)
    (name : String) : (⟨address, ty.storage, ty.class?, through, name⟩ : Entry).Labelled := by
  cases ty with
  | scalar ty => exact nofun
  | object c => exact fun _ => rfl

namespace Generator

/-- Straight-line code was appended, if a function is open, and nothing else that control flow
depends on has changed. -/
structure Straight (g g' : Generator) : Prop where
  code : Grown g.program.quads g'.program.quads
  outside : g.currentFunction = none → g'.program.quads = g.program.quads
  currentFunction : g'.currentFunction = g.currentFunction
  conditionals : g'.conditionals = g.conditionals
  loops : g'.loops = g.loops
  finishedCall : g'.finishedCall = g.finishedCall
  starts : ∀ id,
    (g'.program.functions.find? id).map (·.startQuad) = (g.program.functions.find? id).map
    (·.startQuad)

/-- Quads and everything else control flow depends on are as they were. -/
theorem Straight.of_same (hquads : g'.program.quads = g.program.quads)
    (hfunctions : g'.program.functions = g.program.functions)
    (hfunction : g'.currentFunction = g.currentFunction)
    (hconditionals : g'.conditionals = g.conditionals) (hloops : g'.loops = g.loops)
    (hfinished : g'.finishedCall = g.finishedCall) : Straight g g' := by
  refine ⟨?_, fun _ => hquads, hfunction, hconditionals, hloops, hfinished, ?_⟩
  · rw [hquads]
    exact .refl _
  · intro id
    rw [hfunctions]

instance : IsPreorder Generator Straight where
  refl _ := .of_same rfl rfl rfl rfl rfl rfl
  trans g₁ g₂ g₃ h₁ h₂ := by
    refine ⟨h₁.code.trans h₂.code, ?_, h₂.currentFunction.trans h₁.currentFunction,
      h₂.conditionals.trans h₁.conditionals, h₂.loops.trans h₁.loops,
      h₂.finishedCall.trans h₁.finishedCall, ?_⟩
    · intro hnone
      rw [h₂.outside (h₁.currentFunction.trans hnone), h₁.outside hnone]
    · intro id
      rw [h₂.starts id, h₁.starts id]

/-- The parts of a generator that code, operands, calls, addresses and declarations depend on. -/
structure Core where
  sizes : Sizes
  pool : Pool
  quads : Array Quad
  functions : Table String Routine
  operands : List Entry
  classes : Table String Fields
  currentClass : Option String
  currentFunction : Option String
  conditionals : List Conditional
  loops : List Loop
  calls : List Call
  finishedCall : Option String

def core (g : Generator) : Core where
  sizes := g.program.sizes
  pool := g.pool
  quads := g.program.quads
  functions := g.program.functions
  operands := g.operands
  classes := g.classes
  currentClass := g.currentClass
  currentFunction := g.currentFunction
  conditionals := g.conditionals
  loops := g.loops
  calls := g.calls
  finishedCall := g.finishedCall

/-- One change that an event makes which has nothing to do with control flow, calls or declarations.
-/
inductive Change (g : Generator) : Generator → Prop
  | same {g' : Generator} (h : g'.core = g.core) : Change g g'
  | allocate {ty : Scalar} {segment : Segment} {address : Nat} {pool : Pool}
      (h : g.pool.allocate ty segment = .ok (address, pool)) : Change g { g with pool := pool }
  | allocateBlock {ty : Scalar} {segment : Segment} {len address : Nat} {pool : Pool}
      (h : g.pool.allocateBlock ty segment len = .ok (address, pool)) :
        Change g { g with pool := pool }
  | release {address : Nat} {pool : Pool} (h : g.pool.release address = .ok pool) :
      Change g { g with pool := pool }
  | emit {q : Quad} (hopen : g.currentFunction.isSome = true) (hop : q.op.isOrdinary = true) :
      Change g { g with program := { g.program with quads := g.program.quads.push q } }
  | push {e : Entry} (he : e.Labelled) : Change g { g with operands := e :: g.operands }
  | pop {e : Entry} {rest : List Entry} (h : g.operands = e :: rest) :
      Change g { g with operands := rest }

/-- Any number of such changes. -/
def Changes : Generator → Generator → Prop := Relation.ReflTransGen Change

instance : IsPreorder Generator Changes where
  refl _ := .refl
  trans _ _ _ := .trans

theorem Change.changes (h : Change g g') : Changes g g' := .single h

theorem Changes.of_same (h : g'.core = g.core) : Changes g g' := (Change.same h).changes

/-- What each single change keeps, all of them together keep. -/
theorem Changes.rel {R : Generator → Generator → Prop} [IsPreorder Generator R]
    (hR : ∀ {g g'}, Change g g' → R g g') (h : Changes g g') : R g g' := by
  induction h with
  | refl => exact refl_of R g
  | tail _ hchange ih => exact trans_of R ih (hR hchange)

/-- The generator with other operators and fences. -/
def withStacks (g : Generator) (operators : List Opcode) (fences : List Nat) : Generator :=
  { g with operators := operators, fences := fences }

/-- A routine with the same start is inserted for a function. -/
theorem Straight.setRoutine {id : String} {r r' : Routine}
    (hr : g.program.functions.find? id = some r) (hstart : r'.startQuad = r.startQuad) :
    Straight g
      { g with program := { g.program with functions := g.program.functions.insert id r' } } := by
  refine ⟨.refl _, fun _ => rfl, rfl, rfl, rfl, rfl, ?_⟩
  exact congrFun (Table.map_find?_insert_of_eq (·.startQuad) hr hstart)

/-- A plain quad is appended to the open function. -/
theorem Straight.emit (hopen : g.currentFunction.isSome = true) (hop : q.op.isPlain = true) :
    Straight g { g with program := { g.program with quads := g.program.quads.push q } } := by
  refine ⟨.push _ hop, ?_, rfl, rfl, rfl, rfl, fun _ => rfl⟩
  intro hnone
  rw [hnone] at hopen
  cases hopen

/-- Such changes append straight-line code at most. -/
theorem Changes.straight (h : Changes g g') : Straight g g' := by
  refine h.rel (R := Straight) fun hchange => ?_
  cases hchange with
  | same h =>
    exact .of_same (congrArg Core.quads h) (congrArg Core.functions h)
      (congrArg Core.currentFunction h)
      (congrArg Core.conditionals h) (congrArg Core.loops h) (congrArg Core.finishedCall h)
  | emit hopen hop => exact .emit hopen (Opcode.isPlain_of_isOrdinary hop)
  | _ => exact .of_same rfl rfl rfl rfl rfl rfl

end Generator

namespace Compile

open Generator

variable {R : Generator → Generator → Prop} [IsPreorder Generator R]

/-! ## Refusals and notes -/

theorem moves_refuse (cause : Cause) : Moves R (refuse cause : Compile α) :=
  .bind moves_get fun _ => moves_throw _

theorem moves_reject (what : Misuse) : Moves R (reject what : Compile α) := moves_refuse _

theorem not_yields_refuse {cause : Cause} {a : α} : ¬ Yields (refuse cause : Compile α) g a g' := by
  intro h
  unfold refuse at h
  obtain ⟨_, _, -, h⟩ := yields_bind.mp h
  exact not_yields_throw h

theorem moves_routine (id : String) : Moves R (routine id) := by
  refine moves_get_bind fun g => ?_
  split
  · exact moves_pure _ g
  · exact moves_refuse _ g

theorem moves_openRoutine : Moves R openRoutine := by
  refine moves_get_bind fun g => ?_
  split
  · exact moves_reject _ g
  · exact leads_bind (moves_routine _ g) fun _ => moves_pure _

theorem moves_ensureClosed (scope : String) : Moves R (ensureClosed scope) := by
  refine moves_get_bind fun g => ?_
  split
  · exact moves_reject _ g
  · exact moves_pure _ g

theorem moves_dropResult (hR : ∀ {g : Generator} {finishedCall journal},
    R g { g with finishedCall := finishedCall, journal := journal }) : Moves R dropResult := by
  refine moves_get_bind fun g => ?_
  split
  · exact moves_pure _ g
  refine leads_set_bind hR ?_
  split
  · exact moves_modify (fun _ => hR) _
  · exact moves_pure _ _

/-! ## Quads -/

/-- A quad can only be emitted inside a function; it gets the next number. -/
theorem yields_emit {left right : Option Operand} {n : Nat}
    (h : Yields (emit op left right result) g n g') :
    g.currentFunction.isSome = true ∧ n = g.nextQuad ∧
      g' = { g with
        journal := g.journal.write (.quadEmitted g.nextQuad ⟨op, left, right, result⟩)
        program :=
          { g.program with quads := g.program.quads.push ⟨op, left, right, result⟩ } } := by
  rw [emit, yields_get_bind] at h
  split at h
  · cases h
  rename_i hfunction
  obtain ⟨_, _, hn, h⟩ := yields_bind.mp h
  cases hn
  obtain ⟨_, _, hm, h⟩ := yields_bind.mp h
  cases hm
  cases h
  refine ⟨?_, rfl, rfl⟩
  rw [Option.isNone_iff_eq_none] at hfunction
  exact Option.isSome_iff_ne_none.mpr hfunction

/-- Emitting a quad does what appending it to the open function does, with a note. -/
theorem moves_emit_of {left right : Option Operand}
    (hR : ∀ (g : Generator) (journal : Journal), g.currentFunction.isSome = true → R g { g with
      journal := journal
      program := { g.program with quads := g.program.quads.push ⟨op, left, right, result⟩ } }) :
    Moves R (emit op left right result) := by
  refine moves_get_bind fun g => ?_
  split
  · exact moves_reject _ g
  rename_i hfunction
  rw [Option.isNone_iff_eq_none] at hfunction
  exact hR g (g.journal.write (.quadEmitted g.nextQuad ⟨op, left, right, result⟩))
    (Option.isSome_iff_ne_none.mpr hfunction)

/-- An ordinary quad is one of the changes. -/
theorem moves_emit (hop : op.isOrdinary = true) (left right result : Option Operand) :
    Moves Changes (emit op left right result) := by
  refine moves_emit_of fun g journal hopen => ?_
  have hemitted := (Change.emit (q := ⟨op, left, right, result⟩) hopen hop).changes
  refine trans_of Changes hemitted ?_
  exact .of_same rfl

/-! ## Slots -/

theorem moves_allocate (ty : Scalar) (segment : Segment) : Moves Changes (allocate ty segment) := by
  refine moves_get_bind fun g => ?_
  split
  · rename_i hallocate
    refine leads_set_bind (Change.allocate hallocate).changes ?_
    refine Moves.leads ?_
    exact .bind (moves_modify fun _ => .of_same rfl) fun _ => moves_pure _
  · exact moves_refuse _ g

theorem moves_allocateBlock (ty : Scalar) (segment : Segment) (len : Nat) :
    Moves Changes (allocateBlock ty segment len) := by
  refine moves_get_bind fun g => ?_
  split
  · rename_i hallocate
    exact leads_set_bind (Change.allocateBlock hallocate).changes (moves_pure _ _)
  · exact moves_refuse _ g

theorem moves_giveBack (address : Nat) : Moves Changes (giveBack address) := by
  refine moves_get_bind fun g => ?_
  split
  · rename_i hrelease
    exact leads_set (Change.release hrelease).changes
  · exact moves_refuse _ g

theorem moves_temporary (ty : Scalar) :
    Moves Changes (temporary ty) := moves_allocate ty .temporaries

theorem moves_nameAddress (address : Nat) (name : String) :
    Moves Changes (nameAddress address name) :=
  moves_modify fun _ => .of_same rfl

/-- A literal takes a slot at its first use. -/
theorem moves_constant (v : Value) : Moves Changes (constant v) := by
  unfold constant
  dsimp only
  split
  · exact moves_reject _
  refine moves_get_bind fun g => ?_
  split
  · exact moves_pure _ g
  refine Moves.bind (moves_allocate _ _) (fun address => ?_) g
  refine .bind (moves_nameAddress _ _) fun _ => ?_
  exact .bind (moves_modify fun _ => .of_same rfl) fun _ => moves_pure _

/-! ## Operands -/

theorem moves_push {e : Entry} (he : e.Labelled) :
    Moves Changes (push e) := moves_modify fun _ => (Change.push he).changes

theorem moves_pop : Moves Changes pop := by
  refine moves_get_bind fun g => ?_
  split
  · rename_i hoperands
    exact leads_set_bind (Change.pop hoperands).changes (moves_pure _ _)
  · exact moves_reject _ g

/-- An operand that is pushed by number can be labelled with any class. -/
theorem moves_pushOperand
    (hR : ∀ {g : Generator} {e : Entry}, R g { g with operands := e :: g.operands }) (address : Nat)
    (ty : Scalar) (className : Option String) : Moves R (pushOperand address ty className) := by
  refine moves_get_bind fun g => ?_
  split
  · exact hR
  · exact moves_reject _ g

/-! ## Expressions -/

/-- An operator of the table of types is ordinary. -/
theorem isOrdinary_of_resultType? {left right ty : Scalar}
    (h : op.resultType? left right = some ty) : op.isOrdinary = true := by
  cases op with
  | goto | gotoFalse | goSub | returnValue | endFunc | callAssign | are | param => cases h
  | _ => rfl

theorem isOrdinary_of_compoundBase? {base : Opcode} (h : op.compoundBase? = some base) :
    base.isOrdinary = true := by
  cases op with
  | addAssign | subtractAssign | multiplyAssign | divideAssign => cases h; rfl
  | _ => cases h

/-- What a reduction does once the operator is known. -/
def settle (op : Opcode) : Compile Unit := do
  let right ← pop
  let left ← pop
  if op = .assign then assign left right
  else match op.compoundBase? with
    | some base => compoundAssign left op base right
    | none => binary left op right

/-- A property of computations that a sequence has when its members have it.  What follows a look at
the state must not depend on the stacks of operators and fences, and a missing operator may be
refused in another way than the rest. -/
structure Sequential (P : ∀ {α : Type}, Compile α → Prop) : Prop where
  pure : ∀ {α : Type} (a : α), P (Pure.pure a : Compile α)
  bind : ∀ {α β : Type} {c : Compile α} {f : α → Compile β}, P c → (∀ a, P (f a)) → P (c >>= f)
  read : ∀ {β : Type} {k : Generator → Compile β}, (∀ g, P (k g)) →
    (∀ g operators fences, k (g.withStacks operators fences) = k g) → P (get >>= k)
  refuse : ∀ {α : Type} {cause : Cause}, cause ≠ .misuse .operatorUnderflow →
    P (Compile.refuse cause : Compile α)

theorem sequential_moves : Sequential (Moves R) where
  pure := moves_pure
  bind := Moves.bind
  read hk _ := moves_get_bind fun g => hk g g
  refuse _ := moves_refuse _

/-- A property that everything has of which expressions are made. -/
structure Inherited (P : ∀ {α : Type}, Compile α → Prop) : Prop extends Sequential P where
  emit : ∀ {op : Opcode}, op.isOrdinary = true →
    ∀ left right result, P (Compile.emit op left right result)
  temporary : ∀ ty, P (Compile.temporary ty)
  release : ∀ e, P (Compile.release e)
  push : ∀ {e : Entry}, e.Labelled → P (Compile.push e)
  pop : P Compile.pop
  compoundAssign : ∀ left {op base : Opcode}, op.compoundBase? = some base → ∀ right,
    P (Compile.compoundAssign left op base right)

/-- Operands that may be given back at any time may be released. -/
theorem Sequential.inherited {P : ∀ {α : Type}, Compile α → Prop} (hP : Sequential P)
    (hemit : ∀ {op : Opcode}, op.isOrdinary = true → ∀ left right result,
      P (Compile.emit op left right result))
    (htemporary : ∀ ty, P (Compile.temporary ty))
    (hgiveBack : ∀ address, P (Compile.giveBack address))
    (hpush : ∀ {e : Entry}, e.Labelled → P (Compile.push e)) (hpop : P Compile.pop) :
    Inherited P := by
  have hrelease : ∀ e, P (Compile.release e) := by
    intro e
    refine hP.read (fun g => ?_) fun _ _ _ => rfl
    split
    · exact hgiveBack _
    · exact hP.pure _
  refine { hP with
    emit := hemit, temporary := htemporary, release := hrelease, push := hpush, pop :=
      hpop, compoundAssign := ?_ }
  intro left op base hbase right
  unfold Compile.compoundAssign
  split
  · exact hP.refuse nofun
  split
  · exact hP.refuse nofun
  exact hP.bind (htemporary _) fun _ => hP.bind (hemit (isOrdinary_of_compoundBase? hbase) _ _ _)
    fun _ =>
    hP.bind (hemit rfl _ _ _) fun _ => hP.bind (hgiveBack _) fun _ =>
      hP.bind (hrelease _) fun _ => hrelease _

namespace Inherited

variable {P : ∀ {α : Type}, Compile α → Prop} (hP : Inherited P)

include hP

theorem map {Q : ∀ {α : Type}, Compile α → Prop} (hQ : Sequential Q)
    (h : ∀ {α : Type} {c : Compile α}, P c → Q c) : Inherited Q :=
  { hQ with
    emit := fun hop left right result => h (hP.emit hop left right result)
    temporary := fun ty => h (hP.temporary ty)
    release := fun e => h (hP.release e)
    push := fun he => h (hP.push he)
    pop := h hP.pop
    compoundAssign := fun left _ _ hbase right => h (hP.compoundAssign left hbase right) }

theorem pushVariable (id : String) : P (Compile.pushVariable id) := by
  refine hP.read (fun g => ?_) fun _ _ _ => rfl
  split
  · exact hP.refuse nofun
  split
  · exact hP.refuse nofun
  · exact hP.push (Entry.labelled_of_typeName _ _ _ _)

theorem binary (left : Entry) (op : Opcode) (right : Entry) : P (Compile.binary left op right) := by
  unfold Compile.binary
  split
  · exact hP.refuse nofun
  rename_i ty hty
  exact hP.bind (hP.temporary _) fun _ => hP.bind (hP.emit (isOrdinary_of_resultType? hty) _ _ _)
    fun _ =>
    hP.bind (hP.release _) fun _ => hP.bind (hP.release _) fun _ => hP.push nofun

theorem assignPointer (left right : Entry) : P (Compile.assignPointer left right) := by
  unfold Compile.assignPointer
  split
  · exact hP.refuse nofun
  split
  · exact hP.refuse nofun
  · exact hP.bind (hP.emit rfl _ _ _) fun _ => hP.bind (hP.release _) fun _ => hP.release _

theorem widened (left right : Entry) : P (Compile.widened left right) := by
  unfold Compile.widened
  split
  · exact hP.bind (hP.temporary _) fun _ => hP.bind (hP.emit rfl _ _ _) fun _ =>
      hP.bind (hP.release _) fun _ => hP.pure _
  · exact hP.pure _

theorem assign (left right : Entry) : P (Compile.assign left right) := by
  unfold Compile.assign
  split
  · exact hP.assignPointer _ _
  split
  · exact hP.refuse nofun
  · exact hP.bind (hP.widened _ _) fun _ => hP.bind (hP.emit rfl _ _ _) fun _ =>
      hP.bind (hP.release _) fun _ => hP.release _

/-- A reduction has what its parts have. -/
theorem settle (op : Opcode) : P (Compile.settle op) := by
  refine hP.bind hP.pop fun right => hP.bind hP.pop fun left => ?_
  split
  · exact hP.assign _ _
  split
  · rename_i base hbase
    exact hP.compoundAssign _ hbase _
  · exact hP.binary _ _ _

theorem pushConstant {v : Value} (hconstant : P (constant v)) : P (Compile.pushConstant v) :=
  hP.bind hconstant fun _ => hP.read (fun _ => hP.push nofun) fun _ _ _ => rfl

theorem prompt (hconstant : ∀ v, P (constant v)) : ∀ text : Option String, P (Compile.prompt text)
  | none => hP.pure _
  | some _ => hP.bind (hconstant _) fun _ => hP.bind (hP.emit rfl _ _ _) fun _ => hP.pure _

theorem input (hconstant : ∀ v, P (constant v)) (text : Option String) :
    P (Compile.input text) := by
  refine hP.read (fun g => ?_) fun _ _ _ => rfl
  split
  · exact hP.refuse nofun
  split
  · exact hP.refuse nofun
  · exact hP.bind (hP.prompt hconstant _) fun _ => hP.bind (hP.temporary _) fun _ =>
      hP.bind (hP.emit rfl _ _ _) fun _ => hP.push nofun

theorem scaled (index : Entry) : ∀ stride : Option Nat, P (Compile.scaled index stride)
  | none => hP.pure _
  | some _ => hP.bind (hP.temporary _) fun _ => hP.bind (hP.emit rfl _ _ _) fun _ =>
      hP.bind (hP.release _) fun _ => hP.pure _

theorem advanced (term : Entry) : ∀ sum : Option Entry, P (Compile.advanced term sum)
  | none => hP.pure _
  | some _ => hP.bind (hP.temporary _) fun _ => hP.bind (hP.emit rfl _ _ _) fun _ =>
      hP.bind (hP.release _) fun _ => hP.bind (hP.release _) fun _ => hP.pure _

theorem pushObject (id : String) : P (Compile.pushObject id) := by
  refine hP.read (fun g => ?_) fun _ _ _ => rfl
  split
  · exact hP.refuse nofun
  split
  · exact hP.pushVariable _
  · exact hP.refuse nofun

theorem popObject : P Compile.popObject := by
  refine hP.bind hP.pop fun e => ?_
  split
  · split
    · exact hP.pure _
    · exact hP.refuse nofun
  · exact hP.refuse nofun

theorem pushProperty (name : String) : P (Compile.pushProperty name) := by
  refine hP.bind hP.popObject fun object => hP.read (fun g => ?_) fun _ _ _ => rfl
  split
  · exact hP.refuse nofun
  · exact hP.bind (hP.temporary _) fun _ => hP.bind (hP.emit rfl _ _ _) fun _ =>
      hP.bind (hP.release _) fun _ => hP.push (Entry.labelled_of_typeName _ _ _ _)

theorem newObject (className : String) : P (Compile.newObject className) := by
  refine hP.read (fun g => ?_) fun _ _ _ => rfl
  split
  · exact hP.refuse nofun
  refine hP.bind hP.popObject fun target => ?_
  dsimp only
  split
  · exact hP.refuse nofun
  · exact hP.bind (hP.emit rfl _ _ _) fun _ => hP.release _

theorem deleteObject : P Compile.deleteObject :=
  hP.bind hP.popObject fun _ => hP.bind (hP.emit rfl _ _ _) fun _ => hP.release _

end Inherited

section

variable (hP : Inherited (Moves R))
  (hstacks : ∀ {g : Generator} {operators fences}, R g (g.withStacks operators fences))

include hstacks

omit [IsPreorder Generator R] in
theorem moves_openParenthesis :
    Moves R openParenthesis := moves_modify fun _ => hstacks

theorem moves_pushOperator (op : Opcode) : Moves R (pushOperator op) := by
  unfold pushOperator
  split
  · exact moves_reject _
  · exact moves_modify fun _ => hstacks

include hP

/-- One reduction takes an operator off its stack and does what the operator says. -/
theorem moves_reduceTop : Moves R reduceTop := by
  refine Moves.bind (moves_get_bind fun g => ?_) fun op => hP.settle op
  split
  · exact leads_set_bind hstacks (moves_pure _ _)
  · exact moves_reject _ g

theorem moves_reduceTimes : ∀ n : Nat, Moves R (reduceTimes n)
  | 0 => moves_pure _
  | n + 1 => .bind (moves_reduceTop hP hstacks) fun _ => moves_reduceTimes n

theorem moves_reduceAll :
    Moves R reduceAll := .bind moves_get fun _ => moves_reduceTimes hP hstacks _

theorem moves_reduce (priority : Nat) : Moves R (reduce priority) := by
  refine moves_get_bind fun g => ?_
  split
  · exact moves_pure _ g
  split
  · split
    · exact moves_reduceTop hP hstacks g
    · exact moves_pure _ g
  · exact moves_pure _ g

theorem moves_closeParenthesis : Moves R closeParenthesis := by
  refine .bind (moves_reduceAll hP hstacks) fun _ => moves_get_bind fun g => ?_
  split
  · exact leads_set hstacks
  · exact moves_reject _ g

end

/-- A relation that holds from before to after everything of which expressions are made. -/
structure ExpressionsKeep (R : Generator → Generator → Prop) : Prop extends Inherited
    (Moves R) where
  pushOperator : ∀ op, Moves R (Compile.pushOperator op)
  reduce : ∀ priority, Moves R (Compile.reduce priority)
  reduceAll : Moves R Compile.reduceAll
  openParenthesis : Moves R Compile.openParenthesis
  closeParenthesis : Moves R Compile.closeParenthesis
  accesses : ∀ {g : Generator} {accesses}, R g { g with accesses := accesses }

namespace ExpressionsKeep

/-- It may say nothing about the two stacks. -/
theorem of_stacks (hP : Inherited (Moves R))
    (hstacks : ∀ {g : Generator} {operators fences}, R g (g.withStacks operators fences))
    (haccesses : ∀ {g : Generator} {accesses}, R g { g with accesses := accesses }) :
    ExpressionsKeep R :=
  { hP with
    pushOperator := moves_pushOperator hstacks
    reduce := moves_reduce hP hstacks
    reduceAll := moves_reduceAll hP hstacks
    openParenthesis := moves_openParenthesis hstacks
    closeParenthesis := moves_closeParenthesis hP hstacks
    accesses := haccesses }

variable (hR : ExpressionsKeep R)

include hR

omit [IsPreorder Generator R] in
theorem mono {S : Generator → Generator → Prop} [IsPreorder Generator S]
    (hRS : ∀ {g g'}, R g g' → S g g') : ExpressionsKeep S :=
  { hR.toInherited.map sequential_moves fun h => h.mono hRS with
    pushOperator := fun op => (hR.pushOperator op).mono hRS
    reduce := fun priority => (hR.reduce priority).mono hRS
    reduceAll := hR.reduceAll.mono hRS
    openParenthesis := hR.openParenthesis.mono hRS
    closeParenthesis := hR.closeParenthesis.mono hRS
    accesses := hRS hR.accesses }

theorem print : Moves R Compile.print :=
  .bind hR.reduceAll fun _ => .bind hR.pop fun _ => .bind (hR.emit rfl _ _ _) fun _ => hR.release _

theorem pushArray (id : String) : Moves R (Compile.pushArray id) := by
  refine moves_get_bind fun g => ?_
  split
  · exact moves_refuse _ g
  split
  · exact moves_refuse _ g
  · exact leads_set_bind hR.accesses (hR.openParenthesis _)

omit [IsPreorder Generator R] in
theorem modifyAccess (f : Access → Access) :
    Moves R (Compile.modifyAccess f) := moves_modify fun _ => hR.accesses

theorem pushArrayIndex : Moves R Compile.pushArrayIndex := by
  refine .bind hR.reduceAll fun _ => .bind hR.pop fun index => moves_get_bind fun g => ?_
  split
  · exact moves_reject _ g
  split
  · exact moves_refuse _ g
  split
  · exact moves_refuse _ g
  refine Moves.leads ?_
  exact .bind (hR.emit rfl _ _ _) fun _ => .bind (hR.scaled _ _) fun _ =>
    .bind (hR.modifyAccess _) fun _ => .bind (hR.advanced _ _) fun _ => hR.modifyAccess _

theorem closeArrayAccess : Moves R Compile.closeArrayAccess := by
  refine moves_get_bind fun g => ?_
  split
  · exact moves_reject _ g
  refine leads_set_bind hR.accesses (Moves.leads ?_)
  split
  · exact moves_refuse _
  split
  · exact moves_reject _
  · exact .bind hR.closeParenthesis fun _ => .bind (hR.temporary _) fun _ =>
      .bind (hR.emit rfl _ _ _) fun _ => .bind (hR.release _) fun _ =>
        hR.push (Entry.labelled_of_typeName _ _ _ _)

/-- Every event of expressions keeps the relation. -/
theorem dispatch (he : e.isExpression = true) : Moves R (Compile.dispatch e) := by
  cases e with
  | pushVariable id => exact hR.pushVariable id
  | pushOperator symbol =>
    unfold Compile.dispatch
    dsimp only
    split
    · exact hR.pushOperator _
    · exact moves_reject _
  | openParenthesis => exact hR.openParenthesis
  | closeParenthesis => exact hR.closeParenthesis
  | reduce priority => exact hR.reduce priority
  | executeRemaining => exact hR.reduceAll
  | pushArray id => exact hR.pushArray id
  | pushArrayIndex => exact hR.pushArrayIndex
  | closeArrayAccess => exact hR.closeArrayAccess
  | pushObject id => exact hR.pushObject id
  | pushProperty name => exact hR.pushProperty name
  | newObject className => exact hR.newObject className
  | deleteObject => exact hR.deleteObject
  | print => exact hR.print
  | _ => cases he

section

variable (hcalls : ∀ {g : Generator} {calls}, R g { g with calls := calls })

include hcalls

/-- So do the events of calls, as far as their own quads and the stack of calls do. -/
theorem callFunction (hemit : ∀ left right result, Moves R (Compile.emit .are left right result))
    (id : String) : Moves R (Compile.callFunction id) :=
  .bind (moves_routine id) fun _ => .bind (hemit _ _ _) fun _ =>
    .bind (moves_modify fun _ => hcalls) fun _ => hR.openParenthesis

theorem pushCallArgument
    (hemit : ∀ left right result, Moves R (Compile.emit .param left right result)) (index : Nat) :
    Moves R (Compile.pushCallArgument index) := by
  refine .bind hR.reduceAll fun _ => .bind hR.pop fun argument => moves_get_bind fun g => ?_
  split
  · exact moves_reject _ g
  refine Moves.bind (moves_routine _) (fun r => ?_) g
  split
  · exact moves_refuse _
  split
  · exact moves_refuse _
  split
  · exact moves_refuse _
  · exact .bind (hemit _ _ _) fun _ => .bind (hR.release _) fun _ => moves_modify fun _ => hcalls

theorem endCall (hemit : ∀ left right result, Moves R (Compile.emit .goSub left right result))
    (hfinished : ∀ {g : Generator} {finishedCall}, R g { g with finishedCall := finishedCall }) :
    Moves R Compile.endCall := by
  refine moves_get_bind fun g => ?_
  split
  · exact moves_reject _ g
  refine leads_set_bind hcalls (Moves.leads ?_)
  refine .bind (moves_routine _) fun r => ?_
  split
  · exact moves_refuse _
  · exact .bind hR.closeParenthesis fun _ => .bind (hemit _ _ _) fun _ => moves_modify fun _ =>
      hfinished

end

end ExpressionsKeep

/-- All parts of expressions are made of the changes. -/
theorem inherited_changes : Inherited (Moves Changes) :=
  sequential_moves.inherited moves_emit moves_temporary moves_giveBack moves_push moves_pop

theorem keeps_changes : ExpressionsKeep Changes :=
  .of_stacks inherited_changes (.of_same rfl) (.of_same rfl)

theorem keeps_straight : ExpressionsKeep Straight := keeps_changes.mono Changes.straight

/-! ## Declarations -/

theorem moves_updateRoutine (id : String) {f : Routine → Routine}
    (hf : ∀ {g r}, g.program.functions.find? id = some r →
      R g { g with program := { g.program with functions := g.program.functions.insert id (f r) } })
    : Moves R (updateRoutine id f) := by
  refine moves_get_bind fun g => ?_
  split
  · rename_i r hr
    exact leads_set (hf hr)
  · exact moves_reject _ g

theorem moves_requireType (ty : TypeName) : Moves R (requireType ty) := by
  refine moves_get_bind fun g => ?_
  split
  · exact moves_pure _ g
  · exact moves_refuse _ g

theorem moves_setFunctionType (ty : TypeName)
    (hR : ∀ {g id r}, g.program.functions.find? id = some r →
      R g { g with program := { g.program with
      functions := g.program.functions.insert id { r with returnType := some ty } } }) :
    Moves R (setFunctionType ty) := by
  refine .bind (moves_requireType ty) fun _ => moves_get_bind fun g => ?_
  split
  · exact moves_reject _ g
  · refine Moves.leads ?_
    exact moves_updateRoutine _ hR

/-- A relation that holds from before to after everything of which declarations of variables are
made. -/
structure VariablesKeep (R : Generator → Generator → Prop) : Prop where
  allocate : ∀ ty segment, Moves R (Compile.allocate ty segment)
  allocateBlock : ∀ ty segment len, Moves R (Compile.allocateBlock ty segment len)
  giveBack : ∀ address, Moves R (Compile.giveBack address)
  constant : ∀ v, Moves R (Compile.constant v)
  tables : ∀ {g : Generator} {names globals locals lastDeclared journal}, R g { g with
    names := names, globals := globals, locals := locals
    lastDeclared := lastDeclared, journal := journal }

namespace VariablesKeep

variable (hR : VariablesKeep R)

include hR

omit [IsPreorder Generator R] in
theorem nameAddress (address : Nat) (name : String) : Moves R (Compile.nameAddress address name) :=
  moves_modify fun _ => hR.tables

omit [IsPreorder Generator R] in
theorem setVariable (g : Generator) (id : String) (v : Variable) : R g (g.setVariable id v) := by
  unfold Generator.setVariable
  split
  · exact hR.tables
  · exact hR.tables

/-- A parameter also changes the routine of the open function. -/
theorem declareParam (hroutine : ∀ {g id r} types addresses, g.program.functions.find? id = some r →
      R g { g with program := { g.program with
        functions :=
          g.program.functions.insert id { r with
            paramTypes := types, paramAddresses := addresses } } })
    (id : String) (ty : TypeName) : Moves R (Compile.declareParam id ty) := by
  refine .bind (moves_requireType ty) fun _ => moves_get_bind fun g => ?_
  split
  · exact moves_reject _ g
  split
  · exact moves_refuse _ g
  refine Moves.leads ?_
  exact .bind (hR.allocate _ _) fun _ => .bind (hR.nameAddress _ _) fun _ =>
    .bind (moves_modify fun _ => hR.tables) fun _ =>
      moves_updateRoutine _ fun hr => hroutine _ _ hr

/-- A variable takes a slot and gets a name, in the table of its scope. -/
theorem declareVariable (id : String) (ty : TypeName) :
    Moves R (Compile.declareVariable id ty) := by
  refine .bind (moves_requireType ty) fun _ => moves_get_bind fun g => ?_
  split
  · split
    · exact moves_refuse _ g
    · refine Moves.leads ?_
      exact .bind (hR.allocate _ _) fun _ => .bind (hR.nameAddress _ _) fun _ =>
        moves_modify fun _ => hR.tables
  · split
    · exact moves_refuse _ g
    · refine Moves.leads ?_
      exact .bind (hR.allocate _ _) fun _ => .bind (hR.nameAddress _ _) fun _ =>
        moves_modify fun _ => hR.tables

omit hR in
theorem lastDeclared : Moves R Compile.lastDeclared := by
  refine moves_get_bind fun g => ?_
  split
  · exact moves_pure _ g
  · exact moves_reject _ g

theorem declareArrayDimension (size : Nat) : Moves R (Compile.declareArrayDimension size) := by
  refine .bind lastDeclared fun id => ?_
  split
  · exact moves_refuse _
  refine moves_get_bind fun g => ?_
  split
  · exact moves_modify (fun g => hR.setVariable g _ _) g
  · exact moves_refuse _ g

theorem dimensionConstants : ∀ sizes : List Nat, Moves R (Compile.dimensionConstants sizes)
  | [] => moves_pure _
  | [_] => .bind (hR.constant _) fun _ => moves_pure _
  | _ :: next :: later => .bind (hR.constant _) fun _ => .bind (hR.constant _) fun _ =>
      .bind (dimensionConstants (next :: later)) fun _ => moves_pure _

/-- An array gives its slot back and takes a block. -/
theorem allocateArray : Moves R Compile.allocateArray := by
  refine .bind lastDeclared fun id => moves_get_bind fun g => ?_
  split
  · exact moves_refuse _ g
  split
  · exact moves_refuse _ g
  dsimp only
  split
  · exact moves_refuse _ g
  refine Moves.leads ?_
  exact .bind (hR.giveBack _) fun _ => .bind (hR.allocateBlock _ _ _) fun _ =>
    .bind (hR.dimensionConstants _) fun _ => .bind (hR.nameAddress _ _) fun _ =>
      .bind (moves_modify fun g => hR.setVariable g _ _) fun _ =>
        moves_modify fun _ => hR.tables

end VariablesKeep

theorem variables_changes : VariablesKeep Changes where
  allocate := moves_allocate
  allocateBlock := moves_allocateBlock
  giveBack := moves_giveBack
  constant := moves_constant
  tables := .of_same rfl

theorem variables_straight : VariablesKeep Straight where
  allocate ty segment := (moves_allocate ty segment).mono Changes.straight
  allocateBlock ty segment len := (moves_allocateBlock ty segment len).mono Changes.straight
  giveBack address := (moves_giveBack address).mono Changes.straight
  constant v := (moves_constant v).mono Changes.straight
  tables := .of_same rfl rfl rfl rfl rfl rfl

section

variable (hR : ∀ {g : Generator} {classes currentClass},
  R g { g with classes := classes, currentClass := currentClass })

include hR

theorem moves_declareClass (id : String) : Moves R (declareClass id) := by
  refine moves_get_bind fun g => ?_
  split
  · exact moves_reject _ g
  split
  · exact moves_refuse _ g
  · exact leads_set hR

theorem moves_declareField (id : String) (ty : TypeName) : Moves R (declareField id ty) := by
  refine moves_get_bind fun g => ?_
  split
  · exact moves_reject _ g
  refine Moves.bind (moves_requireType _) (fun _ => ?_) g
  split
  · exact moves_reject _
  split
  · exact moves_refuse _
  · exact moves_modify fun _ => hR

theorem moves_endClass : Moves R endClass := by
  refine moves_get_bind fun g => ?_
  split
  · exact leads_set hR
  · exact moves_reject _ g

end

/-- A plain quad is straight-line code. -/
theorem straight_emit (hop : op.isPlain = true) (left right result : Option Operand) :
    Moves Straight (emit op left right result) := by
  refine moves_emit_of fun g journal hopen => ?_
  have hemitted := Straight.emit (q := ⟨op, left, right, result⟩) hopen hop
  refine trans_of Straight hemitted ?_
  exact .of_same rfl rfl rfl rfl rfl rfl

/-! ## Events -/

/-- An ordinary event makes such changes only, whether it is accepted or not. -/
theorem changes_dispatch (he : e.isOrdinary = true) : Moves Changes (dispatch e) := by
  cases hexpression : e.isExpression with
  | true => exact keeps_changes.dispatch hexpression
  | false =>
    cases e with
    | declareVariable id ty => exact variables_changes.declareVariable id ty
    | declareArrayDimension n => exact variables_changes.declareArrayDimension n
    | allocateArray => exact variables_changes.allocateArray
    | pushConstant v => exact inherited_changes.pushConstant (moves_constant v)
    | input text => exact inherited_changes.input moves_constant text
    | pushVariable | pushOperator | openParenthesis | closeParenthesis | reduce | executeRemaining
    | pushArray | pushArrayIndex | closeArrayAccess | pushObject | pushProperty | newObject
    | deleteObject | print => cases hexpression
    | _ => cases he

/-- A straight event appends straight-line code, whether it is accepted or not. -/
theorem moves_dispatch (h : e.isControl = false) : Moves Straight (dispatch e) := by
  have hclasses : ∀ {g : Generator} {classes currentClass},
      Straight g { g with classes := classes, currentClass := currentClass } :=
    .of_same rfl rfl rfl rfl rfl rfl
  have hcalls : ∀ {g : Generator} {calls}, Straight g { g with calls := calls } :=
    .of_same rfl rfl rfl rfl rfl rfl
  cases hordinary : e.isOrdinary with
  | true => exact (changes_dispatch hordinary).mono Changes.straight
  | false =>
    cases e with
    | declareClass id => exact moves_declareClass hclasses id
    | declareField id ty => exact moves_declareField hclasses id ty
    | endClass => exact moves_endClass hclasses
    | setFunctionType ty => exact moves_setFunctionType ty fun hr => .setRoutine hr rfl
    | declareParam id ty =>
      exact variables_straight.declareParam (fun _ _ hr => .setRoutine hr rfl) id ty
    | callFunction id => exact keeps_straight.callFunction hcalls (straight_emit rfl) id
    | pushCallArgument index =>
      exact keeps_straight.pushCallArgument hcalls (straight_emit rfl) index
    | pushOperand a ty c => exact moves_pushOperand (.of_same rfl rfl rfl rfl rfl rfl) a ty c
    | declareFunction | endFunction | openConditional | elseBranch | closeConditional
    | saveLoopStart | setLoopCondition
    | closeLoop | endCall | pushCallResult | returnValue | returnVoid => cases h
    | _ => cases hordinary

end Compile

end Quadruple
