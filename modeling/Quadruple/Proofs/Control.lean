/-
  Control flow of a compilation, event by event.

  What jumps, calls and returns depend on is a small part of a generator's state (`Control`): the
  quads, where functions start, which function is open, the open conditionals and loops, and the
  call whose result can be claimed.  `Acts` says for each event what it does to that part when it is
  accepted: most append straight-line code, and a dozen do one thing each.

  The compiler's steps are opened for this in one place (`control_apply`), and invariants of control
  flow are proved from `Acts` alone, by cases on its constructors:

      Yields (apply e) g () g'  →  Acts e (g.control.before e) g'.control
-/
import Quadruple.Proofs.Straight

namespace Quadruple

variable {index n : Nat} {quads : Array Quad} {q : Quad} {g g' : Generator} {u : Unit} {id : String}
  {ty : TypeName} {e : Event}

/-- What control flow depends on. -/
structure Control where
  quads : Array Quad
  /-- The first quad of each function declared so far. -/
  starts : String → Option Nat
  currentFunction : Option String
  conditionals : List Conditional
  loops : List Loop
  finishedCall : Option String

/-- The part of a generator that control flow depends on. -/
def Generator.control (g : Generator) : Control where
  quads := g.program.quads
  starts id := (g.program.functions.find? id).map (·.startQuad)
  currentFunction := g.currentFunction
  conditionals := g.conditionals
  loops := g.loops
  finishedCall := g.finishedCall

namespace Control

/-- The quads with a target for the jump at an index. -/
def patched (quads : Array Quad) (index target : Nat) : Array Quad :=
  match quads[index]? with
  | some q => if q.isJump then quads.setIfInBounds index { q with result := some (.jump target) }
      else quads
  | none => quads

theorem size_patched (quads : Array Quad) (index target : Nat) :
    (patched quads index target).size = quads.size := by
  unfold patched
  split
  · split
    · exact Array.size_setIfInBounds
    · rfl
  · rfl

theorem getElem?_patched_of_ne (quads : Array Quad) (target : Nat) (h : n ≠ index) :
    (patched quads index target)[n]? = quads[n]? := by
  unfold patched
  split
  · split
    · rw [Array.getElem?_setIfInBounds, if_neg (Ne.symm h)]
    · rfl
  · rfl

/-- Only a jump can be patched, and then it has the target. -/
theorem getElem?_patched {target : Nat} {q' : Quad}
    (h : (patched quads index target)[n]? = some q') :
    quads[n]? = some q' ∨ n = index ∧ ∃ q, quads[n]? = some q ∧ q.isJump = true ∧
      q' = { q with result := some (.jump target) } := by
  by_cases hn : n = index
  · subst hn
    unfold patched at h
    split at h
    · rename_i q hq
      split at h
      · rename_i hjump
        rw [Array.getElem?_setIfInBounds, if_pos rfl] at h
        split at h
        · cases h
          exact Or.inr ⟨rfl, q, hq, hjump, rfl⟩
        · cases h
      · exact Or.inl h
    · exact Or.inl h
  · rw [getElem?_patched_of_ne quads target hn] at h
    exact Or.inl h

theorem getElem?_patched_self (hq : quads[index]? = some q) (hjump : q.isJump = true)
    (target : Nat) :
    (patched quads index target)[index]? = some { q with result := some (.jump target) } := by
  rw [patched, hq]
  dsimp only
  rw [if_pos hjump, Array.getElem?_setIfInBounds, if_pos rfl,
    if_pos (Array.getElem?_eq_some_iff.mp hq).1]

theorem jumpTarget?_patched (h : q.isJump = true) (target : Nat) :
    ({ q with result := some (.jump target) } : Quad).jumpTarget? = some target := by
  have hjump : ({ q with result := some (.jump target) } : Quad).isJump = true := h
  rw [Quad.jumpTarget?, hjump]

/-- Quads that are no jumps are never patched. -/
theorem getElem?_patched_of_not_jump (hq : quads[n]? = some q) (hjump : q.isJump = false)
    (index target : Nat) : (patched quads index target)[n]? = some q := by
  by_cases hn : n = index
  · subst hn
    rw [patched, hq]
    dsimp only
    rw [hjump, if_neg Bool.false_ne_true]
    exact hq
  · rw [getElem?_patched_of_ne quads target hn]
    exact hq

/-- What an accepted event does, once the result of an earlier call has been dropped or is being
claimed. -/
inductive Acts : Event → Control → Control → Prop
  /-- Append straight-line code. -/
  | straight {e : Event} {c : Control} {quads : Array Quad} (hplain : e.isControl = false)
      (hgrown : Grown c.quads quads) (houtside : c.currentFunction = none → quads = c.quads) :
      Acts e c { c with quads := quads }
  /-- Open a function. -/
  | opens {c : Control} {id : String} (hnone : c.currentFunction = none)
      (hnew : c.starts id = none) :
      Acts (.declareFunction id) c { c with
        starts := fun j => if j = id then some c.quads.size else c.starts j
        currentFunction := some id }
  /-- Close the open function, in which nothing else is open. -/
  | closes {c : Control} {f : String} (hopen : c.currentFunction = some f)
      (hconditionals : c.conditionals = []) (hloops : c.loops = []) :
      Acts .endFunction c { c with
        quads := c.quads.push ⟨.endFunc, none, none, none⟩, currentFunction := none }
  /-- Open a conditional with the jump past its first branch. -/
  | branches {c : Control} {quads : Array Quad} {o : Option Operand}
      (hopen : c.currentFunction.isSome = true) (hgrown : Grown c.quads quads) :
      Acts .openConditional c { c with
        quads := quads.push ⟨.gotoFalse, o, none, none⟩
        conditionals := ⟨quads.size, none⟩ :: c.conditionals }
  /-- Begin the other branch. -/
  | turns {c : Control} {falseJump : Nat} {rest : List Conditional}
      (hopen : c.currentFunction.isSome = true)
      (hconditionals : c.conditionals = ⟨falseJump, none⟩ :: rest) :
      Acts .elseBranch c { c with
        quads := patched (c.quads.push ⟨.goto, none, none, none⟩) falseJump (c.quads.size + 1)
        conditionals := ⟨falseJump, some c.quads.size⟩ :: rest }
  /-- Close a conditional. -/
  | joins {c : Control} {conditional : Conditional} {rest : List Conditional}
      (hconditionals : c.conditionals = conditional :: rest) :
      Acts .closeConditional c { c with
        quads := patched c.quads (conditional.exitJump.getD conditional.falseJump) c.quads.size
        conditionals := rest }
  /-- Open a loop. -/
  | marks {c : Control} : Acts .saveLoopStart c { c with loops := ⟨c.quads.size, none⟩ :: c.loops }
  /-- Emit the jump out of the innermost loop. -/
  | tests {c : Control} {quads : Array Quad} {o : Option Operand} {l : Loop} {rest : List Loop}
      (hopen : c.currentFunction.isSome = true) (hgrown : Grown c.quads quads)
      (hloops : c.loops = l :: rest) :
      Acts .setLoopCondition c { c with
        quads := quads.push ⟨.gotoFalse, o, none, none⟩
        loops := { l with exitJump := some quads.size } :: rest }
  /-- Close a loop. -/
  | repeats {c : Control} {l : Loop} {exit : Nat} {rest : List Loop}
      (hopen : c.currentFunction.isSome = true)
      (hloops : c.loops = l :: rest) (hexit : l.exitJump = some exit) :
      Acts .closeLoop c { c with
        quads := patched (c.quads.push ⟨.goto, none, none, some (.jump l.start)⟩) exit
          (c.quads.size + 1)
        loops := rest }
  /-- Transfer control to a function. -/
  | calls {c : Control} {quads : Array Quad} {f : String} (hopen : c.currentFunction.isSome = true)
      (hgrown : Grown c.quads quads) :
      Acts .endCall c { c with
        quads := quads.push ⟨.goSub, some (.function f), none, none⟩
        finishedCall := some f }
  /-- Claim the result of a call. -/
  | claims {c : Control} {f : String} {t : Nat} (hopen : c.currentFunction.isSome = true)
      (hfinished : c.finishedCall = some f) :
      Acts .pushCallResult c { c with
        quads := c.quads.push ⟨.callAssign, some (.function f), none, some (.addr t)⟩
        finishedCall := none }
  /-- Return a value. -/
  | returns {c : Control} {quads : Array Quad} {o : Option Operand}
      (hopen : c.currentFunction.isSome = true) (hgrown : Grown c.quads quads) :
      Acts .returnValue c { c with
        quads := (quads.push ⟨.returnValue, none, none, o⟩).push ⟨.endFunc, none, none, none⟩ }
  /-- Return nothing. -/
  | leaves {c : Control} (hopen : c.currentFunction.isSome = true) :
      Acts .returnVoid c { c with quads := c.quads.push ⟨.endFunc, none, none, none⟩ }

/-- What is left of a control when the result of a finished call is dropped. -/
def dropped (c : Control) : Control := { c with finishedCall := none }

/-- The control that an event acts on: only the claim of a result finds the finished call. -/
def before (c : Control) (e : Event) : Control := if e = .pushCallResult then c else c.dropped

end Control

namespace Compile

open Generator Control

/-! ## From steps to changes of control -/

theorem control_straight (h : Straight g g') :
    Grown g.control.quads g'.program.quads ∧
    g'.control = { g.control with quads := g'.program.quads } := by
  refine ⟨h.code, ?_⟩
  unfold Generator.control
  rw [h.currentFunction, h.conditionals, h.loops, h.finishedCall, funext h.starts]

/-- Control is as it was. -/
def SameControl (g g' : Generator) : Prop := g'.control = g.control

instance : IsPreorder Generator SameControl where
  refl _ := rfl
  trans _ _ _ h₁ h₂ := Eq.trans h₂ h₁

theorem keeps_push (e : Entry) : Moves SameControl (push e) := moves_modify fun _ => rfl

theorem keeps_temporary (ty : Scalar) : Moves SameControl (temporary ty) := by
  refine moves_get_bind fun g => ?_
  split
  · refine leads_set_bind rfl ?_
    refine Moves.leads ?_
    exact .bind (moves_modify fun _ => rfl) fun _ => moves_pure _
  · exact moves_refuse _ g

theorem keeps_release (e : Entry) : Moves SameControl (release e) := by
  refine moves_get_bind fun g => ?_
  split
  · refine leads_get_bind ?_
    split
    · exact leads_set rfl
    · exact moves_refuse _ g
  · exact moves_pure _ g

theorem control_emit {op : Opcode} {left right result : Option Operand}
    (h : Yields (emit op left right result) g n g') :
    g.control.currentFunction.isSome = true ∧ n = g.control.quads.size ∧
      g'.control = { g.control with quads := g.control.quads.push ⟨op, left, right, result⟩ } := by
  obtain ⟨hopen, rfl, rfl⟩ := yields_emit h
  exact ⟨hopen, rfl, rfl⟩

/-- One quad is given its target. -/
theorem yields_patch {target : Nat} (h : Yields (patch index target) g u g') :
    g' = { g with
      program := { g.program with quads := patched g.program.quads index target } } := by
  rw [patch, yields_get_bind] at h
  split at h
  · rename_i q hq
    split at h
    · rename_i hjump
      have hset := yields_set.mp h
      rw [hset]
      rw [patched, hq]
      dsimp only
      rw [if_pos hjump]
    · cases h
  · cases h

theorem control_conditionalJump {construct : String}
    (h : Yields (conditionalJump construct) g n g') :
    ∃ quads o, g.control.currentFunction.isSome = true ∧ Grown g.control.quads quads ∧
      n = quads.size ∧
      g'.control = { g.control with quads := quads.push ⟨.gotoFalse, o, none, none⟩ } := by
  unfold conditionalJump at h
  obtain ⟨_, g₁, hr, h⟩ := yields_bind.mp h
  obtain ⟨condition, g₂, hp, h⟩ := yields_bind.mp h
  have hstraight : Straight g g₂ :=
    (trans_of Changes (keeps_changes.reduceAll.of_yields hr) (moves_pop.of_yields hp)).straight
  obtain ⟨hgrown, hcontrol⟩ := control_straight hstraight
  split at h
  · cases h
  obtain ⟨index, g₃, he, h⟩ := yields_bind.mp h
  obtain ⟨hopen, rfl, hemit⟩ := control_emit he
  obtain ⟨_, g₄, hrel, h⟩ := yields_bind.mp h
  cases h
  rw [hcontrol] at hopen hemit
  refine ⟨g₂.program.quads, some condition.value, hopen, hgrown, rfl, ?_⟩
  exact ((keeps_release _).of_yields hrel).trans hemit

/-- Dropping the result of a call changes nothing else. -/
theorem yields_dropResult (h : Yields dropResult g u g') :
    ∃ journal, g' = { g with finishedCall := none, journal := journal } := by
  rw [dropResult, yields_get_bind] at h
  split at h
  · rename_i hnone
    obtain ⟨-, rfl⟩ := yields_pure.mp h
    refine ⟨g'.journal, ?_⟩
    rw [← hnone]
  · rw [yields_set_bind] at h
    split at h
    · exact ⟨_, yields_modify.mp h⟩
    · obtain ⟨-, rfl⟩ := yields_pure.mp h
      exact ⟨_, rfl⟩

theorem control_dropResult (h : Yields dropResult g u g') : g'.control = g.control.dropped := by
  obtain ⟨journal, rfl⟩ := yields_dropResult h
  rfl

/-! ## One event after another -/

/-- A function is opened at the next quad. -/
theorem yields_declareFunction (h : Yields (declareFunction id) g u g') :
    ∃ journal, g.currentFunction = none ∧ g.program.functions.find? id = none ∧
      g' = { g with
        journal := journal
        program :=
          { g.program with
            functions := g.program.functions.insert id (Routine.startingAt g.nextQuad) }
        currentFunction := some id
        locals := Table.empty
        returned := false } := by
  rw [declareFunction, yields_get_bind] at h
  split at h
  · cases h
  rename_i hnone
  split at h
  · cases h
  rename_i hnew
  rw [yields_set_bind] at h
  exact ⟨_, hnone, Option.not_isSome_iff_eq_none.mp hnew, yields_modify.mp h⟩

theorem acts_declareFunction (h : Yields (declareFunction id) g u g') :
    Acts (.declareFunction id) g.control g'.control := by
  obtain ⟨journal, hnone, hnew, rfl⟩ := yields_declareFunction h
  have hfresh : g.control.starts id = none := by
    show (g.program.functions.find? id).map _ = none
    rw [hnew, Option.map_none]
  have hstarts :
      (fun j => ((g.program.functions.insert id (.startingAt g.nextQuad)).find? j).map
        (·.startQuad)) =
      fun j => if j = id then some g.control.quads.size else g.control.starts j :=
        Table.map_find?_insert _ _ _ _
  have hacts := Acts.opens (c := g.control) hnone hfresh
  rwa [← hstarts] at hacts

/-- Every construct is closed. -/
theorem yields_ensureClosed {scope : String} (h : Yields (ensureClosed scope) g u g') :
    (∀ x ∈ openConstructs g, x.2 = 0) ∧ g' = g := by
  rw [ensureClosed, yields_get_bind] at h
  split at h
  · cases h
  rename_i hnone
  cases h
  refine ⟨fun x hx => ?_, rfl⟩
  have := List.find?_eq_none.mp hnone x hx
  rw [decide_eq_true_eq] at this
  omega

theorem conditionals_of_closed (h : ∀ x ∈ openConstructs g, x.2 = 0) : g.conditionals = [] :=
  List.eq_nil_of_length_eq_zero
    (h (.conditionals, g.conditionals.length) (by simp [openConstructs]))

theorem loops_of_closed (h : ∀ x ∈ openConstructs g, x.2 = 0) : g.loops = [] :=
  List.eq_nil_of_length_eq_zero (h (.loops, g.loops.length) (by simp [openConstructs]))

theorem calls_of_closed (h : ∀ x ∈ openConstructs g, x.2 = 0) : g.calls = [] :=
  List.eq_nil_of_length_eq_zero (h (.calls, g.calls.length) (by simp [openConstructs]))

theorem yields_routine {r : Routine} (h : Yields (routine id) g r g') :
    g.program.functions.find? id = some r ∧ g' = g := by
  rw [routine, yields_get_bind] at h
  split at h
  · rename_i r' hr
    cases h
    exact ⟨hr, rfl⟩
  · cases h

/-- A function is open, and has a routine. -/
theorem yields_openRoutine {f : String} {r : Routine} (h : Yields openRoutine g (f, r) g') :
    g.currentFunction = some f ∧ g.program.functions.find? f = some r ∧ g' = g := by
  rw [openRoutine, yields_get_bind] at h
  split at h
  · cases h
  rename_i f' hf
  rw [yields_bind] at h
  obtain ⟨r', g₁, hroutine, h⟩ := h
  obtain ⟨hr, rfl⟩ := yields_routine hroutine
  obtain ⟨hpair, rfl⟩ := yields_pure.mp h
  cases hpair
  exact ⟨hf, hr, rfl⟩

/-- One routine is replaced. -/
theorem yields_updateRoutine {f : Routine → Routine} (h : Yields (updateRoutine id f) g u g') :
    ∃ r, g.program.functions.find? id = some r ∧
      g' = { g with
        program := { g.program with functions := g.program.functions.insert id (f r) } } := by
  rw [updateRoutine, yields_get_bind] at h
  split at h
  · rename_i r hr
    exact ⟨r, hr, yields_set.mp h⟩
  · cases h

theorem yields_requireType (h : Yields (requireType ty) g u g') : g' = g := by
  rw [requireType, yields_get_bind] at h
  split at h
  · exact (yields_pure.mp h).2
  · cases h

/-- The open function gets one more parameter, with an address of a local. -/
theorem yields_declareParam (h : Yields (declareParam id ty) g u g') :
    ∃ f r a g₁ names, g.currentFunction = some f ∧ g.locals.find? id = none ∧
      Yields (allocate ty.storage .locals) g a g₁ ∧ g₁.program.functions.find? f = some r ∧
      g' = { g₁ with
        names := names
        locals := g₁.locals.insert id ⟨a, ty, [], []⟩
        program := { g₁.program with functions := g₁.program.functions.insert f { r with
          paramTypes := r.paramTypes ++ [ty], paramAddresses := r.paramAddresses ++ [a] } } } := by
  unfold declareParam at h
  obtain ⟨_, g₀, hrequire, h⟩ := yields_bind.mp h
  cases yields_requireType hrequire
  rw [yields_get_bind] at h
  split at h
  · cases h
  rename_i f hopen
  split at h
  · cases h
  rename_i hnew
  obtain ⟨a, g₁, hallocate, h⟩ := yields_bind.mp h
  obtain ⟨_, g₂, hnamed, h⟩ := yields_bind.mp h
  obtain ⟨_, g₃, hlocal, h⟩ := yields_bind.mp h
  have hnamed := yields_modify.mp hnamed
  have hlocal := yields_modify.mp hlocal
  subst hnamed hlocal
  obtain ⟨r, hr, rfl⟩ := yields_updateRoutine h
  exact ⟨f, r, a, g₁, _, hopen, Option.not_isSome_iff_eq_none.mp hnew, hallocate, hr, rfl⟩

/-- The open function is closed with an `ENDFUNC` and the number of slots that were in use at once.
-/
theorem yields_endFunction (h : Yields endFunction g u g') :
    ∃ f r journal, g.currentFunction = some f ∧ g.program.functions.find? f = some r ∧
      (∀ x ∈ openConstructs g, x.2 = 0) ∧
      g' = { g with
        pool := (g.pool.releaseSegment .locals).releaseSegment .temporaries
        journal := journal
        program := { g.program with
          quads := g.program.quads.push ⟨.endFunc, none, none, none⟩
          functions := g.program.functions.insert f { r with
            slots := ⟨g.pool.peaks .locals, g.pool.peaks .temporaries⟩ } }
        locals := Table.empty
        currentFunction := none
        lastDeclared := none } := by
  rw [endFunction, yields_bind] at h
  obtain ⟨⟨f, r⟩, g₁, hroutine, h⟩ := h
  obtain ⟨hf, hfind, rfl⟩ := yields_openRoutine hroutine
  dsimp only at h
  rw [yields_get_bind] at h
  split at h
  · cases h
  rw [yields_bind] at h
  obtain ⟨_, g₃, hclosed, h⟩ := h
  obtain ⟨hnothing, rfl⟩ := yields_ensureClosed hclosed
  rw [yields_bind] at h
  obtain ⟨_, g₄, he, h⟩ := h
  obtain ⟨-, -, rfl⟩ := yields_emit he
  rw [yields_get_bind, yields_bind] at h
  obtain ⟨_, g₅, hupdate, h⟩ := h
  obtain ⟨r', hr', rfl⟩ := yields_updateRoutine hupdate
  cases hfind.symm.trans hr'
  rw [yields_bind] at h
  obtain ⟨_, g₆, hforget, h⟩ := h
  cases hforget
  exact ⟨_, r, _, hf, hfind, hnothing, yields_modify.mp h⟩

theorem acts_endFunction (h : Yields endFunction g u g') :
    Acts .endFunction g.control g'.control := by
  obtain ⟨f, r, journal, hf, hr, hnothing, rfl⟩ := yields_endFunction h
  have hstarts : (fun j => ((g.program.functions.insert f { r with
      slots := ⟨g.pool.peaks .locals, g.pool.peaks .temporaries⟩ }).find? j).map (·.startQuad)) =
        g.control.starts :=
    Table.map_find?_insert_of_eq _ hr rfl
  have hacts :=
    Acts.closes (c := g.control) hf (conditionals_of_closed hnothing) (loops_of_closed hnothing)
  rwa [← hstarts] at hacts

/-! ### Conditionals -/

theorem acts_openConditional (h : Yields openConditional g u g') :
    Acts .openConditional g.control g'.control := by
  unfold openConditional at h
  obtain ⟨n, g₁, hjump, h⟩ := yields_bind.mp h
  obtain ⟨quads, o, hopen, hgrown, rfl, hcontrol⟩ := control_conditionalJump hjump
  have hm := yields_modify.mp h
  have hafter :
      g'.control = { g₁.control with
        conditionals := ⟨quads.size, none⟩ :: g₁.control.conditionals } := by
    rw [hm]
    rfl
  rw [hafter, hcontrol]
  exact .branches hopen hgrown

/-- A jump over the branch is emitted, and the one into it is patched. -/
theorem yields_elseBranch (h : Yields elseBranch g u g') :
    ∃ falseJump rest journal, g.currentFunction.isSome = true ∧
      g.conditionals = ⟨falseJump, none⟩ :: rest ∧
      g' = { g with
        journal := journal
        program := { g.program with
          quads := patched (g.program.quads.push ⟨.goto, none, none, none⟩) falseJump
            (g.nextQuad + 1) }
        conditionals := ⟨falseJump, some g.nextQuad⟩ :: rest } := by
  rw [elseBranch, yields_get_bind] at h
  split at h
  · cases h
  rename_i k rest hconditionals
  split at h
  · cases h
  rename_i hsecond
  obtain ⟨n, g₁, he, h⟩ := yields_bind.mp h
  obtain ⟨hopen, rfl, rfl⟩ := yields_emit he
  obtain ⟨_, g₂, hm, h⟩ := yields_bind.mp h
  have hm := yields_modify.mp hm
  dsimp only at hm
  rw [hconditionals] at hm
  obtain ⟨falseJump, exitJump⟩ := k
  have hnone : exitJump = none := Option.not_isSome_iff_eq_none.mp hsecond
  subst hm hnone
  exact ⟨falseJump, rest, _, hopen, hconditionals, yields_patch h⟩

theorem acts_elseBranch (h : Yields elseBranch g u g') : Acts .elseBranch g.control g'.control := by
  obtain ⟨falseJump, rest, journal, hopen, hconditionals, rfl⟩ := yields_elseBranch h
  exact .turns hopen hconditionals

/-- The open jump of the conditional leads to the next quad. -/
theorem yields_closeConditional (h : Yields closeConditional g u g') :
    ∃ k rest, g.conditionals = k :: rest ∧
      g' = { g with
        program :=
          { g.program with
            quads := patched g.program.quads (k.exitJump.getD k.falseJump) g.nextQuad }
        conditionals := rest } := by
  rw [closeConditional, yields_get_bind] at h
  split at h
  · cases h
  rename_i k rest hconditionals
  rw [yields_set_bind] at h
  exact ⟨k, rest, hconditionals, yields_patch h⟩

theorem acts_closeConditional (h : Yields closeConditional g u g') :
    Acts .closeConditional g.control g'.control := by
  obtain ⟨k, rest, hconditionals, rfl⟩ := yields_closeConditional h
  exact .joins hconditionals

/-! ### Loops -/

theorem acts_saveLoopStart (h : Yields saveLoopStart g u g') :
    Acts .saveLoopStart g.control g'.control := by
  have hm := yields_modify.mp h
  rw [hm]
  exact .marks

theorem acts_setLoopCondition (h : Yields setLoopCondition g u g') :
    Acts .setLoopCondition g.control g'.control := by
  unfold setLoopCondition at h
  obtain ⟨n, g₁, hjump, h⟩ := yields_bind.mp h
  obtain ⟨quads, o, hopen, hgrown, rfl, hcontrol⟩ := control_conditionalJump hjump
  rw [yields_get_bind] at h
  split at h
  · cases h
  rename_i l rest hl
  have hm := yields_set.mp h
  have hafter :
      g'.control = { g₁.control with loops := { l with exitJump := some quads.size } :: rest } := by
    rw [hm]
    rfl
  rw [hafter, hcontrol]
  exact .tests hopen hgrown ((congrArg Control.loops hcontrol).symm.trans hl)

/-- The loop jumps back, and its exit leads behind it. -/
theorem yields_closeLoop (h : Yields closeLoop g u g') :
    ∃ l exit rest journal, g.currentFunction.isSome = true ∧ g.loops = l :: rest ∧
      l.exitJump = some exit ∧
      g' = { g with
        journal := journal
        program := { g.program with
          quads := patched (g.program.quads.push ⟨.goto, none, none, some (.jump l.start)⟩) exit
            (g.nextQuad + 1) }
        loops := rest } := by
  rw [closeLoop, yields_get_bind] at h
  split at h
  · cases h
  rename_i l rest hl
  rw [yields_set_bind] at h
  split at h
  · cases h
  rename_i exit hexit
  obtain ⟨n, g₁, he, h⟩ := yields_bind.mp h
  obtain ⟨hopen, rfl, rfl⟩ := yields_emit he
  exact ⟨l, exit, rest, _, hopen, hl, hexit, yields_patch h⟩

theorem acts_closeLoop (h : Yields closeLoop g u g') : Acts .closeLoop g.control g'.control := by
  obtain ⟨l, exit, rest, journal, hopen, hl, hexit, rfl⟩ := yields_closeLoop h
  exact .repeats hopen hl hexit

/-! ### Calls -/

/-- The innermost call is closed when it has been passed all its arguments. -/
theorem yields_endCall (h : Yields endCall g u g') :
    ∃ call rest r g₁ journal, g.calls = call :: rest ∧
      g.program.functions.find? call.function = some r ∧
      call.passed = r.paramTypes.length ∧ Yields closeParenthesis { g with calls := rest } () g₁ ∧
      g₁.currentFunction.isSome = true ∧
      g' = { g₁ with
        journal := journal
        program := { g₁.program with
          quads := g₁.program.quads.push ⟨.goSub, some (.function call.function), none, none⟩ }
        finishedCall := some call.function } := by
  rw [endCall, yields_get_bind] at h
  split at h
  · cases h
  rename_i call rest hcalls
  rw [yields_set_bind, yields_bind] at h
  obtain ⟨r, g₀, hroutine, h⟩ := h
  obtain ⟨hr, rfl⟩ := yields_routine hroutine
  split at h
  · cases h
  rename_i hpassed
  obtain ⟨_, g₁, hclose, h⟩ := yields_bind.mp h
  obtain ⟨_, g₂, he, h⟩ := yields_bind.mp h
  obtain ⟨hopen, -, rfl⟩ := yields_emit he
  exact ⟨call, rest, r, g₁, _, hcalls, hr, Classical.not_not.mp hpassed, hclose, hopen,
    yields_modify.mp h⟩

theorem acts_endCall (h : Yields endCall g u g') : Acts .endCall g.control g'.control := by
  obtain ⟨call, rest, r, g₁, journal, -, -, -, hclose, hopen, rfl⟩ := yields_endCall h
  obtain ⟨hgrown, hclosed⟩ :=
    control_straight (keeps_changes.closeParenthesis.of_yields hclose).straight
  have hafter : ({ g₁ with
      journal := journal
      program := { g₁.program with
        quads := g₁.program.quads.push ⟨.goSub, some (.function call.function), none, none⟩ }
      finishedCall := some call.function } : Generator).control = { g₁.control with
        quads := g₁.program.quads.push ⟨.goSub, some (.function call.function), none, none⟩
        finishedCall := some call.function } := rfl
  have hopen : g₁.control.currentFunction.isSome = true := hopen
  rw [hclosed] at hopen
  rw [hafter, hclosed]
  exact .calls hopen hgrown

/-- The result of the call just closed is claimed in a temporary of its type. -/
theorem yields_pushCallResult (h : Yields pushCallResult g u g') :
    ∃ f r ty t g₁, g.finishedCall = some f ∧ g.program.functions.find? f = some r ∧
      r.returnType = some ty ∧
      Yields (temporary ty.storage) { g with finishedCall := none } t g₁ ∧
      g.currentFunction.isSome = true ∧
      g'.control = { g.control with
        quads := g.program.quads.push ⟨.callAssign, some (.function f), none, some (.addr t)⟩
        finishedCall := none } := by
  rw [pushCallResult, yields_get_bind] at h
  split at h
  · cases h
  rename_i f hf
  rw [yields_set_bind, yields_bind] at h
  obtain ⟨r, g₀, hroutine, h⟩ := h
  obtain ⟨hr, rfl⟩ := yields_routine hroutine
  split at h
  · cases h
  rename_i ty hty
  obtain ⟨t, g₁, htemporary, h⟩ := yields_bind.mp h
  have hsame : g₁.control = g.control.dropped := (keeps_temporary _).of_yields htemporary
  obtain ⟨_, g₂, he, h⟩ := yields_bind.mp h
  obtain ⟨hopen, -, hemit⟩ := control_emit he
  rw [hsame] at hopen hemit
  exact ⟨f, r, ty, t, g₁, hf, hr, hty, htemporary, hopen, ((keeps_push _).of_yields h).trans hemit⟩

theorem acts_pushCallResult (h : Yields pushCallResult g u g') :
    Acts .pushCallResult g.control g'.control := by
  obtain ⟨f, r, ty, t, g₁, hf, -, -, -, hopen, hcontrol⟩ := yields_pushCallResult h
  rw [hcontrol]
  exact .claims hopen hf

/-- The topmost operand is returned if it fits the result type of the open function. -/
theorem yields_returnValue (h : Yields returnValue g u g') :
    ∃ f r g₁ value g₂ ty, g.currentFunction = some f ∧ g.program.functions.find? f = some r ∧
      Yields reduceAll g () g₁ ∧ Yields pop g₁ value g₂ ∧ r.returnType = some ty ∧
      value.fits ty = true ∧
      g₂.currentFunction.isSome = true ∧
      g'.control = { g₂.control with
        quads := (g₂.program.quads.push ⟨.returnValue, none, none, some value.value⟩).push
          ⟨.endFunc, none, none, none⟩ } := by
  rw [returnValue, yields_bind] at h
  obtain ⟨⟨f, r⟩, g₀, hroutine, h⟩ := h
  obtain ⟨hf, hr, rfl⟩ := yields_openRoutine hroutine
  dsimp only at h
  obtain ⟨_, g₁, hreduce, h⟩ := yields_bind.mp h
  obtain ⟨value, g₂, hpop, h⟩ := yields_bind.mp h
  split at h
  · cases h
  rename_i ty hty
  split at h
  · cases h
  rename_i hfits
  rw [Bool.not_eq_true', Bool.not_eq_false] at hfits
  obtain ⟨_, g₃, he, h⟩ := yields_bind.mp h
  obtain ⟨hopen, -, hemit⟩ := control_emit he
  obtain ⟨_, g₄, hrelease, h⟩ := yields_bind.mp h
  have hsame : g₄.control = g₃.control := (keeps_release _).of_yields hrelease
  obtain ⟨_, g₅, he', h⟩ := yields_bind.mp h
  obtain ⟨-, -, hemit'⟩ := control_emit he'
  have hm := yields_modify.mp h
  have hafter : g'.control = g₅.control := by
    rw [hm]
    rfl
  refine ⟨f, r, g₁, value, g₂, ty, hf, hr, hreduce, hpop, hty, hfits, hopen, ?_⟩
  rw [hafter, hemit', hsame, hemit]
  rfl

theorem acts_returnValue (h : Yields returnValue g u g') :
    Acts .returnValue g.control g'.control := by
  obtain ⟨f, r, g₁, value, g₂, ty, -, -, hreduce, hpop, -, -, hopen, hafter⟩ := yields_returnValue h
  obtain ⟨hgrown, hcontrol⟩ :=
    control_straight (trans_of Changes (keeps_changes.reduceAll.of_yields hreduce)
        (moves_pop.of_yields hpop)).straight
  have hopen : g₂.control.currentFunction.isSome = true := hopen
  rw [hcontrol] at hopen
  rw [hafter, hcontrol]
  exact .returns hopen hgrown

theorem acts_returnVoid (h : Yields returnVoid g u g') : Acts .returnVoid g.control g'.control := by
  unfold returnVoid at h
  obtain ⟨⟨f, r⟩, g₁, hroutine, h⟩ := yields_bind.mp h
  rw [← (moves_openRoutine (R := SameControl)).of_yields hroutine]
  dsimp only at h
  split at h
  · cases h
  obtain ⟨_, g₂, he, h⟩ := yields_bind.mp h
  obtain ⟨hopen, -, hemit⟩ := control_emit he
  cases h
  rw [hemit]
  exact .leaves hopen

/-! ### All events -/

/-- Every event that is accepted acts on control flow as listed. -/
theorem acts_dispatch (h : Yields (dispatch e) g u g') : Acts e g.control g'.control := by
  cases hcontrol : e.isControl with
  | false =>
    have hstraight := (moves_dispatch hcontrol).of_yields h
    obtain ⟨hgrown, hafter⟩ := control_straight hstraight
    rw [hafter]
    exact .straight hcontrol hgrown hstraight.outside
  | true =>
    cases e with
    | declareFunction id => exact acts_declareFunction h
    | endFunction => exact acts_endFunction h
    | openConditional => exact acts_openConditional h
    | elseBranch => exact acts_elseBranch h
    | closeConditional => exact acts_closeConditional h
    | saveLoopStart => exact acts_saveLoopStart h
    | setLoopCondition => exact acts_setLoopCondition h
    | closeLoop => exact acts_closeLoop h
    | endCall => exact acts_endCall h
    | pushCallResult => exact acts_pushCallResult h
    | returnValue => exact acts_returnValue h
    | returnVoid => exact acts_returnVoid h
    | _ => cases hcontrol

/-- What an accepted event does to control. -/
theorem control_apply (h : Yields (apply e) g u g') : Acts e (g.control.before e) g'.control := by
  unfold apply at h
  unfold before
  split at h
  · rename_i hne
    obtain ⟨_, g₁, hdrop, h⟩ := yields_bind.mp h
    rw [if_neg hne, ← control_dropResult hdrop]
    exact acts_dispatch h
  · rename_i heq
    rw [if_pos (Classical.not_not.mp heq)]
    exact acts_dispatch h

/-- An event that does not claim a result drops it first. -/
theorem drop_dispatch_of_apply (h : Yields (apply e) g u g') (he : e ≠ .pushCallResult) :
    ∃ journal, Yields dropResult g () { g with finishedCall := none, journal := journal } ∧
      Yields (dispatch e) { g with finishedCall := none, journal := journal } u g' := by
  rw [apply, if_pos he, yields_bind] at h
  obtain ⟨_, g₁, hdrop, h⟩ := h
  obtain ⟨journal, rfl⟩ := yields_dropResult hdrop
  exact ⟨journal, hdrop, h⟩

/-- An event that claims no result is dispatched without one. -/
theorem dispatch_of_apply (h : Yields (apply e) g u g') (he : e ≠ .pushCallResult) :
    ∃ journal, Yields (dispatch e) { g with finishedCall := none, journal := journal } u g' :=
  (drop_dispatch_of_apply h he).imp fun _ => And.right

/-- As far as finished calls and the journal do not matter, an event does what its step does. -/
theorem exists_dispatch_of_apply (h : Yields (apply e) g u g') :
    ∃ finishedCall journal,
      Yields (dispatch e) { g with finishedCall := finishedCall, journal := journal } u g' := by
  by_cases he : e = .pushCallResult
  · rw [apply, if_neg (not_not_intro he)] at h
    exact ⟨g.finishedCall, g.journal, h⟩
  · obtain ⟨journal, hdispatch⟩ := dispatch_of_apply h he
    exact ⟨none, journal, hdispatch⟩

/-- The end of a function, when it is accepted, finds nothing open and takes all its addresses back.
-/
theorem yields_apply_endFunction (h : Yields (apply .endFunction) g u g') :
    (∀ x ∈ openConstructs g, x.2 = 0) ∧
      g'.pool = (g.pool.releaseSegment .locals).releaseSegment .temporaries := by
  obtain ⟨journal, hend⟩ := dispatch_of_apply h (by decide)
  obtain ⟨f, r, journal', -, -, hclosed, rfl⟩ := yields_endFunction hend
  exact ⟨hclosed, rfl⟩

end Compile

end Quadruple
