/-
  Every step of the compiler changes the inventory in one of the ways listed for it.

  From a stocked inventory, a step leads through a sequence of changes (`Generator.Extends`), and
  only laying out an array relocates anything (`Generator.Rearranges`).  All steps but the
  declarations leave the tables of variables and functions as they are on the way
  (`Generator.Works`), and all but a few of these meet no literal (`Generator.Chores`).  This holds
  whether the step is accepted or refused, and whether a script or a front end asks for it
  (`rearranges_perform`):

      Chores  ⊆  Works  ⊆  Extends  ⊆  Rearranges

  So the inventory is stocked after every sequence of steps, and what was
  promised at one moment is kept at every later one (`Generator.stocked_after`,
  `Rearranges.since`).
-/
import Quadruple.Proofs.Fences
import Quadruple.Proofs.Inventory

namespace Quadruple

variable {g g' : Generator} {b b' : Inventory} {a : Nat} {u : Unit} {id : String}
  {segment : Segment} {e : Event}

open Relation

/-! ## Code -/

namespace Repatched

theorem push (quads : Array Quad) (q : Quad) : Repatched quads (quads.push q) := by
  refine ⟨?_, ?_, ?_⟩
  · rw [Array.size_push]
    omega
  · intro n q' hq' _
    have hn := (Array.getElem?_eq_some_iff.mp hq').1
    rw [Array.getElem?_push_lt hn, ← Array.getElem?_eq_getElem hn]
    exact hq'
  · intro n q' hn hq'
    rw [Array.getElem?_push_lt hn, ← Array.getElem?_eq_getElem hn] at hq'
    exact Or.inr hq'

theorem patch {quads : Array Quad} {index : Nat} {q : Quad} (hq : quads[index]? = some q)
    (hjump : q.isJump = true) (target : Nat) :
    Repatched quads (quads.setIfInBounds index { q with result := some (.jump target) }) := by
  refine ⟨?_, ?_, ?_⟩
  · rw [Array.size_setIfInBounds]
  · intro n q' hq' hplain
    have hne : index ≠ n := by
      rintro rfl
      cases hq.symm.trans hq'
      rw [hjump] at hplain
      cases hplain
    rw [Array.getElem?_setIfInBounds_ne hne]
    exact hq'
  · intro n q' hn hq'
    by_cases hne : index = n
    · subst hne
      rw [Array.getElem?_setIfInBounds_self_of_lt hn] at hq'
      cases hq'
      exact Or.inl hjump
    · rw [Array.getElem?_setIfInBounds_ne hne] at hq'
      exact Or.inr hq'

end Repatched

/-! ## Sequences of changes -/

/-- An event that changes no table of variables or functions. -/
def Event.keepsTables : Event → Bool
  | declareFunction _ | setFunctionType _ | declareParam _ _ | declareVariable _ _
  | declareArrayDimension _
  | allocateArray | endFunction => false
  | _ => true

/-- An event that may meet literals. -/
def Event.meetsLiterals : Event → Bool
  | pushConstant _ | input _ | allocateArray => true
  | _ => false

/-- What is declared, and what is being declared. -/
structure Tables where
  globals : Table String Variable
  locals : Table String Variable
  lastDeclared : Option String
  functions : Table String Routine
  currentFunction : Option String

namespace Inventory

def tables (b : Inventory) : Tables :=
  ⟨b.globals, b.locals, b.lastDeclared, b.functions, b.currentFunction⟩

/-- A change that declares nothing. -/
structure Work (sizes : Sizes) (b b' : Inventory) : Prop where
  change : Change sizes b b'
  tables : b'.tables = b.tables

/-- A change that declares nothing and meets no new literal. -/
structure Chore (sizes : Sizes) (b b' : Inventory) : Prop extends Work sizes b b' where
  literals : b'.literals = b.literals
  constants : b'.constants = b.constants

theorem literals_of_chores {sizes : Sizes} (h : ReflTransGen (Chore sizes) b b') :
    b'.literals = b.literals ∧ b'.constants = b.constants := by
  induction h with
  | refl => exact ⟨rfl, rfl⟩
  | tail _ hlast ih => exact ⟨hlast.literals.trans ih.1, hlast.constants.trans ih.2⟩

end Inventory

namespace Generator

variable {sizes : Sizes} {g g' : Generator}

/-- From a stocked inventory, changes lead from one to the other. -/
def Extends (sizes : Sizes) (g g' : Generator) : Prop :=
  g.inventory.Stocked sizes → ReflTransGen (Inventory.Change sizes) g.inventory g'.inventory

/-- From a stocked inventory, changes that leave the tables alone lead from one to the other. -/
def Works (sizes : Sizes) (g g' : Generator) : Prop :=
  g.inventory.Stocked sizes → ReflTransGen (Inventory.Work sizes) g.inventory g'.inventory

/-- From a stocked inventory, changes that leave the tables alone and meet no literal lead from one
to the other. -/
def Chores (sizes : Sizes) (g g' : Generator) : Prop :=
  g.inventory.Stocked sizes → ReflTransGen (Inventory.Chore sizes) g.inventory g'.inventory

/-- A change, or a part of laying out an array. -/
def Rearrangement (sizes : Sizes) (b b' : Inventory) : Prop :=
  Inventory.Change sizes b b' ∨ Inventory.Relocation sizes b b'

/-- From a stocked inventory, changes and relocations lead from one to the other. -/
def Rearranges (sizes : Sizes) (g g' : Generator) : Prop :=
  g.inventory.Stocked sizes → ReflTransGen (Rearrangement sizes) g.inventory g'.inventory

theorem stocked_of_rearrangements (h : ReflTransGen (Rearrangement sizes) b b')
    (hb : b.Stocked sizes) : b'.Stocked sizes := by
  induction h with
  | refl => exact hb
  | tail _ hlast ih =>
    rcases hlast with hlast | hlast
    · exact hlast.stocked ih
    · exact hlast.stocked ih

theorem since_of_rearrangements (h : ReflTransGen (Rearrangement sizes) b b')
    (hb : b.Stocked sizes) : b.Since b' := by
  induction h with
  | refl => exact .refl b
  | tail hfirst hlast ih =>
    have hstocked := stocked_of_rearrangements hfirst hb
    rcases hlast with hlast | hlast
    · exact ih.trans (hlast.since hstocked)
    · exact ih.trans hlast.since

theorem rearrangements_of_changes (h : ReflTransGen (Inventory.Change sizes) b b') :
    ReflTransGen (Rearrangement sizes) b b' := ReflTransGen.mono (fun _ _ => Or.inl) _ _ h

theorem changes_of_work (h : ReflTransGen (Inventory.Work sizes) b b') :
    ReflTransGen (Inventory.Change sizes) b b' :=
      ReflTransGen.mono (fun _ _ => Inventory.Work.change) _ _ h

theorem work_of_chores (h : ReflTransGen (Inventory.Chore sizes) b b') :
    ReflTransGen (Inventory.Work sizes) b b' :=
      ReflTransGen.mono (fun _ _ => Inventory.Chore.toWork) _ _ h

theorem stocked_of_changes (h : ReflTransGen (Inventory.Change sizes) b b') (hb : b.Stocked sizes) :
    b'.Stocked sizes := stocked_of_rearrangements (rearrangements_of_changes h) hb

instance : IsPreorder Generator (Works sizes) where
  refl _ _ := .refl
  trans _ _ _ h h' hb := (h hb).trans (h' (stocked_of_changes (changes_of_work (h hb)) hb))

instance : IsPreorder Generator (Chores sizes) where
  refl _ _ := .refl
  trans _ _ _ h h' hb :=
    (h hb).trans (h' (stocked_of_changes (changes_of_work (work_of_chores (h hb))) hb))

instance : IsPreorder Generator (Extends sizes) where
  refl _ _ := .refl
  trans _ _ _ h h' hb := (h hb).trans (h' (stocked_of_changes (h hb) hb))

instance : IsPreorder Generator (Rearranges sizes) where
  refl _ _ := .refl
  trans _ _ _ h h' hb := (h hb).trans (h' (stocked_of_rearrangements (h hb) hb))

theorem Chores.works (h : Chores sizes g g') : Works sizes g g' := fun hb => work_of_chores (h hb)

theorem Works.extends (h : Works sizes g g') :
    Extends sizes g g' := fun hb => changes_of_work (h hb)

theorem Chores.extends (h : Chores sizes g g') : Extends sizes g g' := h.works.extends

theorem Extends.rearranges (h : Extends sizes g g') : Rearranges sizes g g' :=
  fun hb => rearrangements_of_changes (h hb)

theorem Rearranges.stocked (h : Rearranges sizes g g') (hb : g.inventory.Stocked sizes) :
    g'.inventory.Stocked sizes :=
  stocked_of_rearrangements (h hb) hb

theorem Rearranges.since (h : Rearranges sizes g g') (hb : g.inventory.Stocked sizes) :
    g.inventory.Since g'.inventory := since_of_rearrangements (h hb) hb

theorem Extends.of_change
    (h : g.inventory.Stocked sizes → Inventory.Change sizes g.inventory g'.inventory) :
    Extends sizes g g' := fun hb => .single (h hb)

theorem Works.of_change (htables : g'.inventory.tables = g.inventory.tables)
    (h : g.inventory.Stocked sizes → Inventory.Change sizes g.inventory g'.inventory) :
    Works sizes g g' :=
  fun hb => .single ⟨h hb, htables⟩

theorem Chores.of_change (htables : g'.inventory.tables = g.inventory.tables)
    (hliterals : g'.literals = g.literals) (hconstants : g'.program.constants = g.program.constants)
    (h : g.inventory.Stocked sizes → Inventory.Change sizes g.inventory g'.inventory) :
    Chores sizes g g' :=
  fun hb => .single ⟨⟨h hb, htables⟩, hliterals, hconstants⟩

theorem Chores.of_same (h : g'.inventory = g.inventory) : Chores sizes g g' := by
  intro _
  rw [h]

theorem Rearranges.of_relocation
    (h : g.inventory.Stocked sizes → Inventory.Relocation sizes g.inventory g'.inventory) :
    Rearranges sizes g g' := fun hb => .single (Or.inr (h hb))

end Generator

namespace Compile

open Generator

variable {sizes : Sizes}

/-! ## Quads and slots -/

/-- A change of nothing in the inventory. -/
theorem chores_same {f : Generator → Generator} (h : ∀ g, (f g).inventory = g.inventory) :
    Moves (Chores sizes) (modify f : Compile PUnit) := moves_modify fun g => .of_same (h g)

theorem chores_note (n : Note) : Moves (Chores sizes) (note n) := chores_same fun _ => rfl

theorem chores_emit (op : Opcode) (left right result : Option Operand) :
    Moves (Chores sizes) (emit op left right result) :=
  moves_emit_of fun g _ _ => .of_change rfl rfl rfl fun _ => .code (.push g.program.quads _)

section

variable {R : Generator → Generator → Prop} [IsPreorder Generator R] {α : Type} {ty : Scalar}
  {segment : Segment} {g : Generator}

/-- What an address is taken for counts together with taking it. -/
theorem leads_allocate_bind {f : Nat → Compile α}
    (hf : ∀ a p journal, g.pool.allocate ty segment = .ok (a, p) →
      R g ((f a).run.run { g with pool := p, journal := journal }).2) :
    Leads R g (allocate ty segment >>= f) := by
  unfold Leads
  cases h : g.pool.allocate ty segment with
  | ok result =>
    have hallocate : Yields (allocate ty segment) g result.1 { g with
        pool := result.2, journal := g.journal.writeAll (g.pool.reuseNotes ty segment) } := by
      rw [allocate, yields_get_bind, h]
      rfl
    rw [hallocate.run_bind]
    exact hf _ _ _ h
  | error e =>
    have hallocate : Fails (allocate ty segment) g ⟨.ofPoolError e, g.scopeName⟩ g := by
      rw [allocate, fails_get_bind, h]
      rfl
    rw [hallocate.run_bind]
    exact refl_of R g

end

theorem chores_temporary (ty : Scalar) : Moves (Chores sizes) (temporary ty) := by
  refine moves_get_bind fun g => ?_
  split
  · rename_i hallocate
    refine leads_set_bind (.of_change rfl rfl rfl fun hb => .take (hb.pool.allocate hallocate)) ?_
    refine Moves.leads ?_
    exact .bind (chores_same fun _ => rfl) fun _ => moves_pure _
  · exact moves_refuse _ g

/-- What is taken for an intermediate result is a temporary. -/
theorem temporary_of_yields {ty : Scalar} (h : Yields (temporary ty) g a g')
    (hb : g.inventory.Stocked sizes) : Temporary sizes a := by
  obtain ⟨p, journal, htakes, -⟩ := yields_allocate h hb.pool
  exact htakes.temporary

theorem leads_giveBack (ha : g.inventory.Stocked sizes → Temporary sizes a) :
    Leads (Chores sizes) g (giveBack a) := by
  refine leads_get_bind ?_
  split
  · rename_i hrelease
    exact leads_set (.of_change rfl rfl rfl fun hb => .give (ha hb) (hb.pool.release hrelease))
  · exact moves_refuse _ g

theorem chores_release (e : Entry) : Moves (Chores sizes) (release e) := by
  refine moves_get_bind fun g => ?_
  split
  · rename_i htemporary
    exact leads_giveBack fun hb => (Pool.inSegment_temporaries hb.pool _).mp htemporary
  · exact moves_pure _ g

theorem works_constant (v : Value) : Moves (Works sizes) (constant v) := by
  unfold constant
  dsimp only
  split
  · exact moves_reject _
  rename_i hscalar
  refine moves_get_bind fun g => ?_
  split
  · exact moves_pure _ g
  rename_i hnew
  exact leads_allocate_bind fun a p journal hallocate =>
    .of_change rfl fun hb => .literal hscalar hnew (hb.pool.allocate hallocate)

theorem chores_push (e : Entry) : Moves (Chores sizes) (push e) := chores_same fun _ => rfl

theorem chores_pop : Moves (Chores sizes) pop := by
  refine moves_get_bind fun g => ?_
  split
  · exact leads_set_bind (.of_same rfl) (moves_pure _ _)
  · exact moves_reject _ g

/-! ## Expressions and what is made of them -/

theorem chores_compoundAssign (left : Entry) (op base : Opcode) (right : Entry) :
    Moves (Chores sizes) (compoundAssign left op base right) := by
  unfold compoundAssign
  split
  · exact moves_refuse _
  split
  · exact moves_refuse _
  -- what is given back is the temporary that was taken
  intro g
  by_cases hb : g.inventory.Stocked sizes
  · refine leads_bind_yields (chores_temporary _ g) fun result g₁ hresult => Moves.leads ?_
    have htemporary := temporary_of_yields hresult hb
    exact .bind (chores_emit _ _ _ _) fun _ => .bind (chores_emit _ _ _ _) fun _ =>
      .bind (fun _ => leads_giveBack fun _ => htemporary) fun _ =>
        .bind (chores_release _) fun _ => chores_release _
  · exact fun h => (hb h).elim

theorem inherited_chores : Inherited (Moves (Chores sizes)) :=
  { sequential_moves with
    emit := fun _ => chores_emit _
    temporary := chores_temporary
    release := chores_release
    push := fun _ => chores_push _
    pop := chores_pop
    compoundAssign := fun left _ _ _ right => chores_compoundAssign left _ _ right }

theorem inherited_works : Inherited (Moves (Works sizes)) :=
  inherited_chores.map sequential_moves fun h => h.mono Chores.works

theorem expressions_chores : ExpressionsKeep (Chores sizes) :=
  .of_stacks inherited_chores (.of_same rfl) (.of_same rfl)

theorem branches_chores : BranchesKeep (Chores sizes) where
  expressions := expressions_chores
  grows {g} _ _ _ := .of_change rfl rfl rfl fun _ => .code (.push g.program.quads _)
  patches target hq hjump := .of_change rfl rfl rfl fun _ => .code (.patch hq hjump target)
  marks := .of_same rfl

theorem chores_callFunction (id : String) : Moves (Chores sizes) (callFunction id) :=
  expressions_chores.callFunction (.of_same rfl) (chores_emit _) id

theorem chores_endCall : Moves (Chores sizes) endCall :=
  expressions_chores.endCall (.of_same rfl) (chores_emit _) (.of_same rfl)

/-! ## Declarations -/

theorem extends_declareFunction (id : String) : Moves (Extends sizes) (declareFunction id) := by
  refine moves_get_bind fun g => ?_
  split
  · exact moves_reject _ g
  rename_i hclosed
  split
  · exact moves_refuse _ g
  rename_i hnew
  refine leads_set_bind (.of_change fun _ => ?_) (chores_note _ _).extends
  exact .openFunction hclosed (Option.not_isSome_iff_eq_none.mp hnew)

theorem extends_setFunctionType (ty : TypeName) : Moves (Extends sizes) (setFunctionType ty) := by
  refine .bind (moves_requireType ty) fun _ => moves_get_bind fun g => ?_
  split
  · exact moves_reject _ g
  rename_i f hopen
  refine leads_get_bind ?_
  split
  · rename_i r hr
    exact leads_set (.of_change fun _ => .returnType ty hopen hr)
  · exact moves_reject _ g

theorem extends_declareParam (id : String) (ty : TypeName) :
    Moves (Extends sizes) (declareParam id ty) := by
  refine .bind (moves_requireType ty) fun _ => moves_get_bind fun g => ?_
  split
  · exact moves_reject _ g
  rename_i f hopen
  split
  · exact moves_refuse _ g
  rename_i hnew
  refine leads_allocate_bind fun a p journal hallocate => ?_
  let g₁ : Generator := { g with
    pool := p
    journal := journal
    names := g.names.insert a id
    locals := g.locals.insert id ⟨a, ty, [], []⟩ }
  have hlocal : Extends sizes g g₁ := .of_change fun hb =>
    .declareLocal g.lastDeclared hopen (Option.not_isSome_iff_eq_none.mp hnew)
      (hb.pool.allocate hallocate)
  have hparameter : Leads (Extends sizes) g₁ (updateRoutine f fun r => { r with
      paramTypes := r.paramTypes ++ [ty], paramAddresses := r.paramAddresses ++ [a] }) := by
    refine leads_get_bind ?_
    split
    · rename_i r hr
      have hv : g₁.inventory.locals.find? id = some ⟨a, ty, [], []⟩ := Table.find?_insert_self _ _ _
      exact leads_set (.of_change fun _ => .parameter (b := g₁.inventory) hopen hr hv)
    · exact moves_reject _ _
  exact trans_of (Extends sizes) hlocal hparameter

theorem extends_declareVariable (id : String) (ty : TypeName) :
    Moves (Extends sizes) (declareVariable id ty) := by
  refine .bind (moves_requireType ty) fun _ => moves_get_bind fun g => ?_
  split
  · rename_i hopen
    obtain ⟨f, hopen⟩ := Option.isSome_iff_exists.mp hopen
    split
    · exact moves_refuse _ g
    · rename_i hnew
      exact leads_allocate_bind fun a p journal hallocate => .of_change fun hb =>
        .declareLocal _ hopen (Option.not_isSome_iff_eq_none.mp hnew) (hb.pool.allocate hallocate)
  · rename_i hclosed
    split
    · exact moves_refuse _ g
    · rename_i hnew
      exact leads_allocate_bind fun a p journal hallocate => .of_change fun hb =>
        .declareGlobal (Option.not_isSome_iff_eq_none.mp hclosed)
          (Option.not_isSome_iff_eq_none.mp hnew)
          (hb.pool.allocate hallocate)

/-- The open function gets a type. -/
theorem yields_setFunctionType {ty : TypeName} (h : Yields (setFunctionType ty) g u g') :
    ∃ f r, g.currentFunction = some f ∧ g.program.functions.find? f = some r ∧
      g' = { g with program := { g.program with
        functions := g.program.functions.insert f { r with returnType := some ty } } } := by
  unfold setFunctionType at h
  obtain ⟨_, g₁, hrequire, h⟩ := yields_bind.mp h
  cases yields_requireType hrequire
  rw [yields_get_bind] at h
  split at h
  · cases h
  rename_i f hopen
  obtain ⟨r, hr, rfl⟩ := yields_updateRoutine h
  exact ⟨f, r, hopen, hr, rfl⟩

/-- A slot is taken, named and entered. -/
theorem yields_allocate_named {scalar : Scalar} {enter : Nat → Generator → Generator}
    (h : Yields (do
      let a ← allocate scalar segment
      nameAddress a id
      modify (enter a)) g u g') :
    ∃ a p journal, g.pool.allocate scalar segment = .ok (a, p) ∧
      g' = enter a { g with pool := p, journal := journal, names := g.names.insert a id } := by
  obtain ⟨a, _, htaken, h⟩ := yields_bind.mp h
  obtain ⟨p, journal, hallocate, rfl⟩ := allocate_of_yields htaken
  obtain ⟨_, _, hname, h⟩ := yields_bind.mp h
  cases hname
  exact ⟨a, p, journal, hallocate, yields_modify.mp h⟩

/-- A variable is declared as a local in a function, and as a global outside. -/
theorem declareVariable_cases {ty : TypeName} (h : Yields (declareVariable id ty) g u g') :
    ∃ a p journal, (∃ f, g.currentFunction = some f ∧ g.locals.find? id = none ∧
        g.pool.allocate ty.storage .locals = .ok (a, p) ∧
        g' = { g with
          pool := p
          journal := journal
          names := g.names.insert a id
          locals := g.locals.insert id ⟨a, ty, [], []⟩
          lastDeclared := some id }) ∨
      (g.currentFunction = none ∧ g.globals.find? id = none ∧
        g.pool.allocate ty.storage .globals = .ok (a, p) ∧
        g' = { g with
          pool := p
          journal := journal
          names := g.names.insert a id
          globals := g.globals.insert id ⟨a, ty, [], []⟩
          lastDeclared := some id }) := by
  unfold declareVariable at h
  obtain ⟨_, g₁, hrequire, h⟩ := yields_bind.mp h
  cases yields_requireType hrequire
  rw [yields_get_bind] at h
  split at h
  · rename_i hopen
    obtain ⟨f, hopen⟩ := Option.isSome_iff_exists.mp hopen
    split at h
    · cases h
    rename_i hnew
    obtain ⟨a, p, journal, hallocate, rfl⟩ := yields_allocate_named h
    exact ⟨a, p, journal, Or.inl ⟨f, hopen, Option.not_isSome_iff_eq_none.mp hnew, hallocate, rfl⟩⟩
  · rename_i hclosed
    split at h
    · cases h
    rename_i hnew
    obtain ⟨a, p, journal, hallocate, rfl⟩ := yields_allocate_named h
    exact ⟨a, p, journal,
      Or.inr ⟨Option.not_isSome_iff_eq_none.mp hclosed, Option.not_isSome_iff_eq_none.mp hnew,
      hallocate, rfl⟩⟩

theorem yields_lastDeclared (h : Yields lastDeclared g id g') :
    g.lastDeclared = some id ∧ g' = g := by
  rw [lastDeclared, yields_get_bind] at h
  split at h
  · rename_i id' hid
    cases h
    exact ⟨hid, rfl⟩
  · cases h

theorem extends_declareArrayDimension (size : Nat) :
    Moves (Extends sizes) (declareArrayDimension size) := by
  intro g
  refine leads_bind_yields (VariablesKeep.lastDeclared g) fun id g₀ hlast => ?_
  obtain ⟨hlast, rfl⟩ := yields_lastDeclared hlast
  split
  · exact moves_refuse _ _
  rename_i hpos
  refine leads_get_bind ?_
  split
  · rename_i v hv
    refine leads_set (.of_change fun _ => ?_)
    rw [Generator.inventory_setVariable]
    exact .dimension hlast hv (Nat.pos_of_ne_zero hpos)
  · exact moves_refuse _ _

/-- The variable declared last gets one dimension more. -/
theorem yields_declareArrayDimension {n : Nat} (h : Yields (declareArrayDimension n) g u g') :
    ∃ id v, g.lastDeclared = some id ∧ g.lookup id = some v ∧
      g' = g.setVariable id { v with pendingSizes := v.pendingSizes ++ [n] } := by
  rw [declareArrayDimension, yields_bind] at h
  obtain ⟨id, _, hdeclared, h⟩ := h
  obtain ⟨hlast, rfl⟩ := yields_lastDeclared hdeclared
  split at h
  · cases h
  rw [yields_get_bind] at h
  split at h
  · rename_i v hv
    exact ⟨id, v, hlast, hv, yields_modify.mp h⟩
  · cases h

theorem yields_updateRoutine_of {f : String} {r : Routine}
    (hr : g.program.functions.find? f = some r) (update : Routine → Routine) :
    Yields (updateRoutine f update) g () { g with
      program := { g.program with functions := g.program.functions.insert f (update r) } } := by
  rw [updateRoutine, yields_get_bind, hr]
  rfl

theorem extends_endFunction : Moves (Extends sizes) endFunction := by
  intro g
  refine leads_bind_yields (moves_openRoutine g) fun opened g₀ hopened => ?_
  obtain ⟨f, r⟩ := opened
  obtain ⟨hopen, hr, rfl⟩ := yields_openRoutine hopened
  refine leads_get_bind ?_
  split
  · exact moves_refuse _ _
  refine leads_bind_yields (moves_ensureClosed _ _) fun _ g₁ hclosed => ?_
  obtain ⟨-, rfl⟩ := yields_ensureClosed hclosed
  refine leads_bind_yields (chores_emit _ _ _ _ _).extends fun _ g₂ hemit => ?_
  obtain ⟨-, -, rfl⟩ := yields_emit hemit
  -- the size of the frames is recorded as the scope is forgotten
  refine leads_get_bind ?_
  have hupdate := yields_updateRoutine_of (g := { g₁ with
    journal := g₁.journal.write (.quadEmitted g₁.nextQuad ⟨.endFunc, none, none, none⟩)
    program := { g₁.program with quads := g₁.program.quads.push ⟨.endFunc, none, none, none⟩ } }) hr
    fun r => { r with slots := ⟨g₁.pool.peaks .locals, g₁.pool.peaks .temporaries⟩ }
  rw [Leads, hupdate.run_bind]
  exact Extends.of_change fun _ => .closeFunction hopen hr

/-! ## Laying out an array -/

/-- Literals that count as the same integer are the same. -/
theorem eq_int_of_canonical {v : Value} {n : Int64} (h : v.canonical = .int n) : v = .int n := by
  cases v with
  | float x => cases h
  | _ => exact h

/-- The slot of a literal holds it, whether the literal is new or was met before; nothing is given
back for it. -/
theorem yields_constant_of_stocked {v : Value} (h : Yields (constant v) g a g')
    (hb : g.inventory.Stocked sizes) :
    (∃ c, g'.program.constants.find? a = some c ∧ c.value.canonical = v.canonical) ∧
      (∀ x, g.pool.isLive x = true → g'.pool.isLive x = true) ∧
      ∃ pool journal names constants literals, g' = { g with
        pool := pool
        journal := journal
        names := names
        program := { g.program with constants := constants }
        literals := literals } := by
  obtain ⟨-, ⟨hmem, rfl⟩ | ⟨p, journal, -, hallocate, rfl⟩⟩ := constant_cases h
  · obtain ⟨c, hc, hcanonical⟩ := hb.literals _ hmem
    exact ⟨⟨c, hc, hcanonical⟩, fun _ hx => hx, _, _, _, _, _, rfl⟩
  · have htakes := hb.pool.allocate hallocate
    exact ⟨⟨_, Table.find?_insert_self _ _ _, rfl⟩, fun x hx => (htakes.live x).mpr (Or.inl hx), _,
      _, _, _, _, rfl⟩

/-- The slot of a size holds it. -/
theorem yields_sizeConstant {n : Nat} (h : Yields (sizeConstant n) g a g')
    (hb : g.inventory.Stocked sizes) :
    HasValue g'.inventory.constants a (.int (Int64.ofInt n)) ∧ g'.inventory.Stocked sizes ∧
      g.inventory.Since g'.inventory ∧ g'.globals = g.globals ∧ g'.locals = g.locals := by
  obtain ⟨⟨c, hc, hcanonical⟩, -, hframe⟩ := yields_constant_of_stocked h hb
  have hmoves : Rearranges sizes g g' := ((works_constant _).of_yields h).extends.rearranges
  obtain ⟨pool, journal, names, constants, literals, rfl⟩ := hframe
  exact ⟨⟨c, hc, eq_int_of_canonical hcanonical⟩, hmoves.stocked hb, hmoves.since hb, rfl, rfl⟩

theorem works_dimensionConstants : ∀ ns : List Nat, Moves (Works sizes) (dimensionConstants ns)
  | [] => moves_pure _
  | [_] => .bind (works_constant _) fun _ => moves_pure _
  | _ :: next :: later => .bind (works_constant _) fun _ => .bind (works_constant _) fun _ =>
      .bind (works_dimensionConstants (next :: later)) fun _ => moves_pure _

/-- The dimensions have the sizes asked for, in that order. -/
theorem sizes_of_dimensionConstants : ∀ {ns : List Nat} {ds : List Dimension} {g g' : Generator},
    Yields (dimensionConstants ns) g ds g' → ds.map (·.size) = ns
  | [], ds, g, g', h => by
    cases h
    rfl
  | [n], ds, g, g', h => by
    unfold dimensionConstants at h
    obtain ⟨a, g₁, -, h⟩ := yields_bind.mp h
    cases h
    rfl
  | n :: next :: later, ds, g, g', h => by
    rw [dimensionConstants, yields_bind] at h
    · obtain ⟨a, g₁, -, h⟩ := h
      obtain ⟨stride, g₂, -, h⟩ := yields_bind.mp h
      obtain ⟨rest, g₃, hrest, h⟩ := yields_bind.mp h
      cases h
      rw [List.map_cons, sizes_of_dimensionConstants hrest]
    · exact nofun

/-- The constants of the dimensions describe them. -/
theorem yields_dimensionConstants : ∀ {ns : List Nat} {ds : List Dimension} {g g' : Generator},
    Yields (dimensionConstants ns) g ds g' → g.inventory.Stocked sizes → (∀ n ∈ ns, 0 < n) →
      Describes g'.inventory.constants ds ∧ g'.globals = g.globals ∧ g'.locals = g.locals
  | [], ds, g, g', h, _, _ => by
    cases h
    exact ⟨.nil, rfl, rfl⟩
  | [n], ds, g, g', h, hb, hpos => by
    unfold dimensionConstants at h
    obtain ⟨a, g₁, hsize, h⟩ := yields_bind.mp h
    cases h
    obtain ⟨hvalue, -, -, hglobals, hlocals⟩ := yields_sizeConstant hsize hb
    exact ⟨.last (hpos n List.mem_cons_self) hvalue rfl, hglobals, hlocals⟩
  | n :: next :: later, ds, g, g', h, hb, hpos => by
    rw [dimensionConstants, yields_bind] at h
    · obtain ⟨a, g₁, hsize, h⟩ := h
      obtain ⟨stride, g₂, hstride, h⟩ := yields_bind.mp h
      obtain ⟨rest, g₃, hrest, h⟩ := yields_bind.mp h
      cases h
      obtain ⟨hvalue, hb₁, -, hglobals₁, hlocals₁⟩ := yields_sizeConstant hsize hb
      obtain ⟨hproduct, hb₂, hsince₂, hglobals₂, hlocals₂⟩ := yields_sizeConstant hstride hb₁
      have hsizes := sizes_of_dimensionConstants hrest
      obtain ⟨hdescribes, hglobals₃, hlocals₃⟩ :=
        yields_dimensionConstants hrest hb₂ fun k hk => hpos k (List.mem_cons_of_mem _ hk)
      have hsince₃ :=
        ((works_dimensionConstants (next :: later)).of_yields hrest).extends.rearranges.since hb₂
      refine ⟨?_, hglobals₃.trans (hglobals₂.trans hglobals₁),
        hlocals₃.trans (hlocals₂.trans hlocals₁)⟩
      cases rest with
      | nil => cases hsizes
      | cons d ds =>
        rw [← hsizes] at hproduct
        exact .cons (hpos n List.mem_cons_self)
          ((hvalue.mono hsince₂.constants).mono hsince₃.constants) rfl
          (hproduct.mono hsince₃.constants) hdescribes
    · exact nofun

/-- A block is taken. -/
theorem yields_allocateBlock {ty : Scalar} {len : Nat}
    (h : Yields (allocateBlock ty segment len) g a g') :
    ∃ p, g.pool.allocateBlock ty segment len = .ok (a, p) ∧ g' = { g with pool := p } := by
  rw [allocateBlock, yields_get_bind] at h
  split at h
  · rename_i address p hallocate
    rw [yields_set_bind] at h
    cases h
    exact ⟨p, hallocate, rfl⟩
  · cases h

theorem yields_giveBack_eq (h : Yields (giveBack a) g u g') :
    ∃ p, g.pool.release a = .ok p ∧ g' = { g with pool := p } := by
  rw [giveBack, yields_get_bind] at h
  split at h
  · rename_i p hrelease
    exact ⟨p, hrelease, yields_set.mp h⟩
  · cases h

/-- The variable declared last gives its slot back and moves to a block, and its dimensions get
their constants. -/
theorem yields_allocateArray (h : Yields allocateArray g u g') :
    ∃ id v p base p' ds g₁, g.lastDeclared = some id ∧ g.lookup id = some v ∧ v.pendingSizes ≠ [] ∧
      v.dimensions = [] ∧ g.pool.release v.address = .ok p ∧
      p.allocateBlock v.ty.storage ((g.pool.layout.segmentOf v.address).getD .globals)
        (elementCount v.pendingSizes) =
        .ok (base, p') ∧
      Yields (dimensionConstants v.pendingSizes) { g with pool := p' } ds g₁ ∧
      g'.inventory = (g₁.setVariable id { v with
        address := base, pendingSizes := [], dimensions := ds }).inventory := by
  rw [allocateArray, yields_bind] at h
  obtain ⟨id, _, hdeclared, h⟩ := h
  obtain ⟨hlast, rfl⟩ := yields_lastDeclared hdeclared
  rw [yields_get_bind] at h
  split at h
  · cases h
  rename_i v hv
  split at h
  · cases h
  rename_i hscalar
  rw [Bool.or_eq_true, not_or, Variable.isArray, Bool.not_eq_true', Bool.not_eq_false] at hscalar
  dsimp only at h
  split at h
  · cases h
  obtain ⟨_, _, hgive, h⟩ := yields_bind.mp h
  obtain ⟨p, hrelease, rfl⟩ := yields_giveBack_eq hgive
  obtain ⟨base, _, hreserve, h⟩ := yields_bind.mp h
  obtain ⟨p', hblock, rfl⟩ := yields_allocateBlock hreserve
  obtain ⟨ds, g₁, hds, h⟩ := yields_bind.mp h
  obtain ⟨_, _, hname, h⟩ := yields_bind.mp h
  cases hname
  obtain ⟨_, _, hplace, h⟩ := yields_bind.mp h
  cases hplace
  cases h
  refine ⟨id, v, p, base, p', ds, g₁, hlast, hv, mt List.isEmpty_iff.mpr hscalar.1,
    List.isEmpty_iff.mp hscalar.2, hrelease, hblock, hds, ?_⟩
  rw [Generator.inventory_setVariable g₁]
  exact Generator.inventory_setVariable { g₁ with names := g₁.names.insert base id } id _

theorem leads_vacate {v : Variable} (hv : g.lookup id = some v) :
    Leads (Rearranges sizes) g (giveBack v.address) := by
  refine leads_get_bind ?_
  split
  · rename_i hrelease
    exact leads_set (.of_relocation fun hb =>
      .vacate (b := g.inventory) hv (hb.pool.release hrelease))
  · exact moves_refuse _ g

theorem leads_reserve {ty : Scalar} (len : Nat) (g : Generator) (hsegment : segment ≠ .constants) :
    Leads (Rearranges sizes) g (allocateBlock ty segment len) := by
  refine leads_get_bind ?_
  split
  · rename_i hallocate
    refine leads_set_bind (.of_relocation fun hb => ?_) (moves_pure _ _)
    exact .reserve (b := g.inventory) hsegment (hb.pool.allocateBlock hallocate)
  · exact moves_refuse _ g

/-- The scalar slot goes back before the block of the array is taken. -/
theorem rearranges_allocateArray : Moves (Rearranges sizes) allocateArray := by
  intro g
  by_cases hb : g.inventory.Stocked sizes
  swap
  · exact fun h => (hb h).elim
  refine leads_bind_yields (VariablesKeep.lastDeclared g) fun id g₀ hlast => ?_
  obtain ⟨-, rfl⟩ := yields_lastDeclared hlast
  refine leads_get_bind ?_
  split
  · exact moves_refuse _ _
  rename_i v hv
  split
  · exact moves_refuse _ _
  -- the variable lies in the segment of its table, and so will its block
  have hstocked := hb.lookup hv
  have hsegment : (g₀.pool.layout.segmentOf v.address).getD .globals =
      if g₀.locals.contains id then .locals else .globals := by
    rw [show g₀.pool.layout = .ofSizes sizes from hb.pool.layout, hstocked.located.segmentOf]
    rfl
  dsimp only
  split
  · exact moves_refuse _ _
  refine leads_bind_yields (leads_vacate hv) fun _ g₁ hgive => ?_
  obtain ⟨p, hgives, rfl⟩ := yields_giveBack hgive hb.pool
  have hb₁ := (Inventory.Relocation.vacate (b := g₀.inventory) hv hgives).stocked hb
  have hconstants : (g₀.pool.layout.segmentOf v.address).getD .globals ≠ .constants := by
    rw [hsegment]
    split
    · exact nofun
    · exact nofun
  refine leads_bind_yields (leads_reserve _ _ hconstants) fun base g₂ hblock => ?_
  obtain ⟨p', hallocate, rfl⟩ := yields_allocateBlock hblock
  have htakes := hb₁.pool.allocateBlock hallocate
  have hb₂ :=
    (Inventory.Relocation.reserve (b := { g₀.inventory with pool := p }) hconstants htakes).stocked
      hb₁
  refine leads_bind_yields (works_dimensionConstants _ _).extends.rearranges fun ds g₃ hds => ?_
  obtain ⟨hdescribes, hglobals, hlocals⟩ := yields_dimensionConstants hds hb₂ hstocked.pending
  have hlookup : g₃.inventory.lookup id = some v := by
    rw [Generator.lookup_inventory, Generator.lookup, hlocals, hglobals]
    exact hv
  have hroom := hb₁.pool.block_le hallocate
  rw [hsegment] at hroom
  have hplace : Inventory.Relocation sizes g₃.inventory
      (g₃.inventory.setVariable id { v with
        address := base, pendingSizes := [], dimensions := ds }) := by
    refine .place hlookup hstocked.located (hsegment ▸ htakes.located) ?_
      hdescribes
    rw [sizes_of_dimensionConstants hds]
    exact hroom
  have hsame := Generator.inventory_setVariable { g₃ with names := g₃.names.insert base id } id
    { v with address := base, pendingSizes := [], dimensions := ds }
  exact Rearranges.of_relocation fun _ => hsame ▸ hplace

/-! ## All steps -/

/-- Most events do chores only. -/
theorem chores_dispatch (he : e.keepsTables = true) (hliterals : e.meetsLiterals = false) :
    Moves (Chores sizes) (dispatch e) := by
  cases hexpression : e.isExpression with
  | true => exact expressions_chores.dispatch hexpression
  | false =>
    cases hbranch : e.isBranch with
    | true => exact branches_chores.moves_dispatch hbranch
    | false =>
      cases e with
      | declareFunction | setFunctionType | declareParam | declareVariable | declareArrayDimension
      | allocateArray
      | endFunction => cases he
      | pushConstant | input => cases hliterals
      | declareClass id => exact moves_declareClass (.of_same rfl) id
      | declareField id ty => exact moves_declareField (.of_same rfl) id ty
      | endClass => exact moves_endClass (.of_same rfl)
      | pushOperand a ty c => exact moves_pushOperand (.of_same rfl) a ty c
      | callFunction id => exact chores_callFunction id
      | pushCallArgument index =>
        exact expressions_chores.pushCallArgument (.of_same rfl) (chores_emit _) index
      | endCall => exact chores_endCall
      | openConditional | elseBranch | closeConditional | saveLoopStart | setLoopCondition
      | closeLoop | pushCallResult
      | returnValue | returnVoid => cases hbranch
      | _ => cases hexpression

/-- Events that declare nothing leave the tables alone. -/
theorem works_dispatch (he : e.keepsTables = true) : Moves (Works sizes) (dispatch e) := by
  cases hliterals : e.meetsLiterals with
  | false => exact (chores_dispatch he hliterals).mono Chores.works
  | true =>
    cases e with
    | pushConstant value => exact inherited_works.pushConstant (works_constant value)
    | input text => exact inherited_works.input works_constant text
    | allocateArray => cases he
    | _ => cases hliterals

/-- All events but one make no more than changes. -/
theorem extends_dispatch (he : e ≠ .allocateArray) : Moves (Extends sizes) (dispatch e) := by
  cases hkeeps : e.keepsTables with
  | true => exact (works_dispatch hkeeps).mono Works.extends
  | false =>
    cases e with
    | allocateArray => exact (he rfl).elim
    | declareFunction id => exact extends_declareFunction id
    | setFunctionType ty => exact extends_setFunctionType ty
    | declareParam id ty => exact extends_declareParam id ty
    | declareVariable id ty => exact extends_declareVariable id ty
    | declareArrayDimension size => exact extends_declareArrayDimension size
    | endFunction => exact extends_endFunction
    | _ => cases hkeeps

/-- All of them rearrange, whether they are accepted or not. -/
theorem rearranges_apply (e : Event) : Moves (Rearranges sizes) (apply e) := by
  have hdispatch : Moves (Rearranges sizes) (dispatch e) := by
    by_cases he : e = .allocateArray
    · subst he
      exact rearranges_allocateArray
    · exact (extends_dispatch he).mono Extends.rearranges
  unfold apply
  split
  · have hdrop : Moves (Chores sizes) dropResult := moves_dropResult (.of_same rfl)
    exact .bind (hdrop.mono fun h => h.extends.rearranges) fun _ => hdispatch
  · exact hdispatch

/-- So do the steps of a front end. -/
theorem rearranges_perform : ∀ d : Directive, Moves (Rearranges sizes) (perform d)
  | .event e => rearranges_apply e
  | .pushOperator op => (expressions_chores.pushOperator op).mono fun h => h.extends.rearranges
  | .setFunctionType ty => (extends_setFunctionType ty).mono Extends.rearranges
  | .declareParam id ty => (extends_declareParam id ty).mono Extends.rearranges
  | .declareVariable id ty => (extends_declareVariable id ty).mono Extends.rearranges
  | .pushConstant value => (inherited_works.pushConstant (works_constant value)).mono fun h =>
      h.extends.rearranges
  | .pushVariable id => (inherited_chores.pushVariable id).mono fun h => h.extends.rearranges
  | .print => expressions_chores.print.mono fun h => h.extends.rearranges
  | .executeRemaining => expressions_chores.reduceAll.mono fun h => h.extends.rearranges
  | .pushCallResult => branches_chores.moves_pushCallResult.mono fun h => h.extends.rearranges
  | .callFunction id => (chores_callFunction id).mono fun h => h.extends.rearranges
  | .endCall => chores_endCall.mono fun h => h.extends.rearranges
  | .endFunction => extends_endFunction.mono Extends.rearranges

end Compile

namespace Generator

variable {sizes : Sizes}

/-- So does any number of steps. -/
theorem rearranges_after (g : Generator) (steps : List Directive) :
    Rearranges sizes g (g.after steps) := by
  induction steps generalizing g with
  | nil => exact refl_of (Rearranges sizes) g
  | cons d rest ih => exact trans_of (Rearranges sizes) (Compile.rearranges_perform d g) (ih _)

/-- Whatever steps were taken, the inventory is stocked. -/
theorem stocked_after (sizes : Sizes) (threshold : Level) (steps : List Directive) :
    ((ofSizes sizes threshold).after steps).inventory.Stocked sizes :=
  (rearranges_after _ steps).stocked (Inventory.stocked_ofSizes sizes threshold)

end Generator

/-- So does every accepted script. -/
theorem Accepts.rearranges {sizes : Sizes} {events : List Event} (h : Accepts g events g') :
    g.Rearranges sizes g' := by
  induction h with
  | nil g => exact refl_of (Generator.Rearranges sizes) g
  | cons hfirst _ ih =>
    exact trans_of (Generator.Rearranges sizes) ((Compile.rearranges_apply _).of_yields hfirst) ih

end Quadruple
