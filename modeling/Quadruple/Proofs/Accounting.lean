/-
  What the steps of the compiler have in hand.

  A step is described by what it has in hand before and after (`Held`):
      ⦃ held ⦄           pop              ⦃ e, held ⦄
      ⦃ held ⦄           temporary ty     ⦃ t, held ⦄
      ⦃ e, held ⦄        push e           ⦃ held ⦄
      ⦃ l, r, held ⦄     binary l op r    ⦃ held ⦄
  Larger steps are put together from these triples, each function of the compiler once; here those
  of expressions and declarations.

  The open function, the locals and the open accesses are named in the triples, since some steps
  look at them twice: what they found the first time is still there the second time.
-/
import Quadruple.Proofs.Ledger

namespace Quadruple

variable {α : Type} {held : List Nat} {P : Generator → Prop} {segment : Segment} {g : Generator}
  {v : Variable}

/-- What steps rely on to stay as it is. -/
structure Scope where
  currentFunction : Option String
  locals : Table String Variable
  accesses : List Access

def Generator.scope (g : Generator) : Scope := ⟨g.currentFunction, g.locals, g.accesses⟩

/-- The ledger is in order with these addresses in hand, in this scope. -/
def Held (sizes : Sizes) (since : Nat) (x : Scope) (held : List Nat) (g : Generator) : Prop :=
  Ledger sizes since held g.account ∧ g.scope = x

/-- The step leads from one list of addresses in hand to another, which may depend on its result. -/
abbrev Trades (sizes : Sizes) (since : Nat) (x : Scope) (held : List Nat) (c : Compile α)
    (after : α → List Nat) : Prop :=
  Ensures (Held sizes since x held) c fun a => Held sizes since x (after a)

/-- It leaves in hand what it found there. -/
abbrev Balances (sizes : Sizes) (since : Nat) (x : Scope) (held : List Nat) (c : Compile α) :
    Prop :=
  Trades sizes since x held c fun _ => held

/-- It may change the scope, too. -/
abbrev Rescopes (sizes : Sizes) (since : Nat) (x : Scope) (held : List Nat) (c : Compile α) :
    Prop :=
  Ensures (Held sizes since x held) c fun _ g => ∃ x', Held sizes since x' held g

/-- The addresses in hand may be listed in any order. -/
theorem Ensures.reorder {sizes : Sizes} {since : Nat} {x : Scope} {held' : List Nat} {c : Compile α}
    {Q : α → Generator → Prop} (h : Ensures (Held sizes since x held') c Q)
    (hperm : held.Perm held') : Ensures (Held sizes since x held) c Q :=
  h.weaken (fun _ hg => ⟨hg.1.perm hperm, hg.2⟩) fun _ _ hQ => hQ

/-- Addresses in hand that are no temporaries may be forgotten. -/
theorem Ensures.forget {sizes : Sizes} {since : Nat} {x : Scope} {c : Compile α}
    {Q : α → Generator → Prop} (others : List Nat) (h : Ensures (Held sizes since x held) c Q)
    (hothers : ∀ a ∈ others, ¬ Temporary sizes a) :
    Ensures (Held sizes since x (others ++ held)) c Q := by
  refine h.weaken (fun g hg => ?_) fun _ _ hQ => hQ
  induction others with
  | nil => exact hg
  | cons a rest ih =>
    have hrest : Held sizes since x (rest ++ held) g :=
      ⟨hg.1.drop (hothers a List.mem_cons_self), hg.2⟩
    exact ih (fun c hc => hothers c (List.mem_cons_of_mem _ hc)) hrest

namespace Compile

open Generator

variable {sizes : Sizes} {since : Nat} {x : Scope} {held : List Nat}

theorem ensures_refuse {Q : α → Generator → Prop} (cause : Cause) :
    Ensures P (refuse cause : Compile α) Q := fun _ _ _ _ h => (not_yields_refuse h).elim

theorem ensures_reject {Q : α → Generator → Prop} (what : Misuse) :
    Ensures P (reject what : Compile α) Q := ensures_refuse _

/-! ## Primitives -/

theorem ensures_note (n : Note) : Balances sizes since x held (note n) :=
  ensures_modify fun _ hg => hg

theorem ensures_nameAddress (a : Nat) (name : String) :
    Balances sizes since x held (nameAddress a name) :=
  ensures_modify fun _ hg => hg

/-- All addresses of a quad are in hand, each as often as it occurs in it. -/
theorem ensures_emit {op : Opcode} {left right result : Option Operand}
    (hq : ∀ a, (Quad.mk op left right result).addresses.count a ≤ held.count a) :
    Balances sizes since x held (emit op left right result) := by
  intro g n g' hg h
  obtain ⟨hopen, -, rfl⟩ := yields_emit h
  exact ⟨hg.1.emit hopen hq, hg.2⟩

theorem ensures_patch (index target : Nat) : Balances sizes since x held (patch index target) := by
  intro g u g' hg h
  rw [yields_patch h]
  exact ⟨hg.1.patch index target, hg.2⟩

/-- A temporary is taken in hand. -/
theorem ensures_temporary (ty : Scalar) :
    Trades sizes since x held (temporary ty) fun t => (t :: held) := by
  intro g t g' hg h
  obtain ⟨p, journal, htakes, rfl⟩ := yields_allocate h hg.1.pool
  exact ⟨hg.1.takeTemporary htakes, hg.2⟩

/-- A slot for a variable. -/
theorem ensures_allocate (ty : Scalar) (htemporaries : segment ≠ .temporaries)
    (hconstants : segment ≠ .constants) :
    Ensures (Held sizes since x held) (allocate ty segment) fun a g =>
      Held sizes since x (a :: held) g ∧ Located sizes a segment ty := by
  intro g a g' hg h
  obtain ⟨p, journal, htakes, rfl⟩ := yields_allocate h hg.1.pool
  have hcovers := Account.covers_of_isLive (b := { g.account with pool := p }) htakes.valid
    htakes.isLive htakes.located hconstants
  have hledger := (hg.1.takeOther htemporaries htakes).hold
    (htakes.located.not_temporary htemporaries) hcovers
  exact ⟨⟨hledger, hg.2⟩, htakes.located⟩

theorem ensures_giveBack (a : Nat) :
    Trades sizes since x (a :: held) (giveBack a) fun _ => held := by
  intro g u g' hg h
  obtain ⟨p, hgives, rfl⟩ := yields_giveBack h hg.1.pool
  exact ⟨hg.1.give hgives, hg.2⟩

/-- A consumed operand is given back if it is a temporary, and forgotten if not. -/
theorem ensures_release (e : Entry) :
    Trades sizes since x (e.address :: held) (release e) fun _ => held := by
  refine ensures_get_bind fun g hg => ?_
  split
  · exact (ensures_giveBack e.address).start hg
  rename_i hnot
  have hother : ¬ Temporary sizes e.address :=
    fun ht => hnot ((Pool.inSegment_temporaries hg.1.pool _).mpr ht)
  exact ensures_pure fun g' heq => heq ▸ ⟨hg.1.drop hother, hg.2⟩

theorem ensures_release_below {a : Nat} (e : Entry) :
    Trades sizes since x (a :: e.address :: held) (release e) fun _ => (a :: held) :=
  (ensures_release e).reorder (.swap _ _ _)

/-- An address in hand is put on the stack. -/
theorem ensures_push {e : Entry} {a : Nat} (ha : e.address = a) :
    Trades sizes since x (a :: held) (push e) fun _ => held := by
  subst ha
  exact ensures_modify fun _ hg => ⟨hg.1.push, hg.2⟩

/-- The topmost operand is taken in hand. -/
theorem ensures_pop :
    Trades sizes since x held pop fun e => (e.address :: held) := by
  intro g e g' hg h
  obtain ⟨rest, hoperands, rfl⟩ := yields_pop h
  exact ⟨hg.1.pop hoperands, hg.2⟩

/-- The slot of a literal is in hand, among the constants. -/
theorem ensures_constant (v : Value) :
    Ensures (Held sizes since x held) (constant v) fun a g =>
      Held sizes since x (a :: held) g ∧ ∃ ty, Located sizes a .constants ty := by
  intro g a g' hg h
  obtain ⟨-, ⟨hmem, rfl⟩ | ⟨p, journal, -, hallocate, rfl⟩⟩ := constant_cases h
  · have hconstant := hg.1.symbols.literals _ hmem
    exact ⟨⟨hg.1.hold hconstant.not_temporary hconstant.1, hg.2⟩, hconstant.2⟩
  · have htakes := hg.1.pool.allocate hallocate
    obtain ⟨hledger, hconstant⟩ :=
      (hg.1.takeOther (by decide) htakes).insertConstant v.canonical htakes.located
    exact ⟨⟨hledger.hold hconstant.not_temporary hconstant.1, hg.2⟩, hconstant.2⟩

/-! ## Operands -/

/-- A variable in scope has a slot among the globals or the locals. -/
theorem variable_of_lookup (hg : Held sizes since x held g) {id : String}
    (h : g.lookup id = some v) :
    ∃ segment, (segment = .globals ∨ segment = .locals) ∧
      IsVariableIn sizes (g.account.Covers sizes g.account.slots) segment v ∧
      (segment = .locals ↔ g.locals.contains id = true) := by
  unfold Generator.lookup at h
  split at h
  · rename_i w hw
    cases h
    refine ⟨.locals, Or.inr rfl, hg.1.symbols.locals id v hw, fun _ => ?_, fun _ => rfl⟩
    rw [Table.contains, hw]
    rfl
  · rename_i hnone
    refine ⟨.globals, Or.inl rfl, hg.1.symbols.globals id v h, fun heq => ?_, fun hcontains => ?_⟩
    · cases heq
    · rw [Table.contains, hnone] at hcontains
      cases hcontains

theorem ensures_pushConstant (v : Value) : Balances sizes since x held (pushConstant v) := by
  refine (ensures_constant v).bind fun a => ensures_get_bind fun g hg => ?_
  exact (ensures_push rfl).start hg.1

theorem ensures_pushVariable (id : String) : Balances sizes since x held (pushVariable id) := by
  refine ensures_get_bind fun g hg => ?_
  split
  · exact ensures_refuse _
  rename_i v hlookup
  obtain ⟨segment, hsegment, hv, -⟩ := variable_of_lookup hg hlookup
  split
  · exact ensures_refuse _
  · exact (ensures_push rfl).start ⟨hg.1.hold (hv.not_temporary hsegment) hv.covered, hg.2⟩

/-! ## Expressions -/

theorem ensures_pushOperator (op : Opcode) : Balances sizes since x held (pushOperator op) := by
  unfold pushOperator
  split
  · exact ensures_reject _
  · exact ensures_modify fun _ hg => hg

/-- An operator consumes two operands and pushes its result. -/
theorem ensures_binary (left : Entry) (op : Opcode) (right : Entry) :
    Trades sizes since x (left.address :: right.address :: held) (binary left op right) fun _ =>
      held := by
  unfold binary
  split
  · exact ensures_refuse _
  refine (ensures_temporary _).bind fun t => (ensures_emit (by grind)).bind fun _ => ?_
  refine (ensures_release_below left).bind fun _ => ?_
  exact (ensures_release_below right).bind fun _ => ensures_push rfl

theorem ensures_assignPointer (left right : Entry) :
    Trades sizes since x (left.address :: right.address :: held) (assignPointer left right) fun _ =>
      held := by
  unfold assignPointer
  split
  · exact ensures_refuse _
  split
  · exact ensures_refuse _
  refine (ensures_emit (by grind)).bind fun _ => ?_
  exact (ensures_release_below right).bind fun _ => ensures_release left

theorem ensures_widened (left right : Entry) :
    Trades sizes since x (left.address :: right.address :: held) (widened left right) fun source =>
      (source.address :: left.address :: held) := by
  unfold widened
  split
  · refine (ensures_temporary _).bind fun wide => (ensures_emit (by grind)).bind fun _ => ?_
    refine ((ensures_release right).reorder ?_).bind fun _ => ensures_pure fun _ hg => hg
    exact (List.Perm.swap _ _ _).cons _ |>.trans (.swap _ _ _)
  · exact ensures_pure fun _ hg => ⟨hg.1.perm (.swap _ _ _), hg.2⟩

theorem ensures_assign (left right : Entry) :
    Trades sizes since x (left.address :: right.address :: held) (assign left right) fun _ =>
      held := by
  unfold assign
  split
  · exact ensures_assignPointer left right
  split
  · exact ensures_refuse _
  refine (ensures_widened left right).bind fun source => (ensures_emit (by grind)).bind fun _ => ?_
  exact (ensures_release source).bind fun _ => ensures_release left

theorem ensures_compoundAssign (left : Entry) (op base : Opcode) (right : Entry) :
    Trades sizes since x (left.address :: right.address :: held) (compoundAssign left op base right)
      fun _ => held := by
  unfold compoundAssign
  split
  · exact ensures_refuse _
  split
  · exact ensures_refuse _
  refine (ensures_temporary _).bind fun t => (ensures_emit (by grind)).bind fun _ => ?_
  refine (ensures_emit (by grind)).bind fun _ => (ensures_giveBack t).bind fun _ => ?_
  exact (ensures_release_below right).bind fun _ => ensures_release left

theorem ensures_popOperator : Balances sizes since x held popOperator := by
  intro g op g' hg h
  obtain ⟨rest, -, rfl⟩ := yields_popOperator h
  exact hg

/-- What the topmost operator stands for consumes what was popped for it. -/
theorem ensures_reduceTop : Balances sizes since x held reduceTop := by
  refine ensures_popOperator.bind fun op => ensures_pop.bind fun right =>
    ensures_pop.bind fun left => ?_
  split
  · exact ensures_assign left right
  split
  · exact ensures_compoundAssign left op _ right
  · exact ensures_binary left op right

/-- By induction on the number of operators left. -/
theorem ensures_reduceTimes :
    ∀ n : Nat, Ensures (Held sizes since x held) (reduceTimes n) fun _ => Held sizes since x held
  | 0 => ensures_pure fun _ hg => hg
  | n + 1 => ensures_reduceTop.bind fun _ => ensures_reduceTimes n

theorem ensures_reduceAll : Balances sizes since x held reduceAll :=
  ensures_get_bind fun _ hg => (ensures_reduceTimes _).start hg

theorem ensures_reduce (priority : Nat) : Balances sizes since x held (reduce priority) := by
  refine ensures_get_bind fun g hg => ?_
  split
  · exact ensures_pure fun _ heq => heq ▸ hg
  split
  · split
    · exact ensures_reduceTop.start hg
    · exact ensures_pure fun _ heq => heq ▸ hg
  · exact ensures_pure fun _ heq => heq ▸ hg

theorem ensures_openParenthesis : Balances sizes since x held openParenthesis :=
  ensures_modify fun _ hg => hg

theorem ensures_closeParenthesis : Balances sizes since x held closeParenthesis := by
  refine ensures_reduceAll.bind fun _ => ensures_get_bind fun g hg => ?_
  split
  · exact ensures_set hg
  · exact ensures_reject _

theorem ensures_print : Balances sizes since x held print := by
  refine ensures_reduceAll.bind fun _ => ensures_pop.bind fun value => ?_
  exact (ensures_emit (by grind)).bind fun _ => ensures_release value

theorem ensures_prompt :
    ∀ text : Option String, Ensures (Held sizes since x held) (prompt text) fun _ =>
      Held sizes since x held
  | none => ensures_pure fun _ hg => hg
  | some text => by
    refine (ensures_constant _).bind fun address => ?_
    intro g u g' hg h
    obtain ⟨hg, ty, hlocated⟩ := hg
    obtain ⟨n, g₁, he, h⟩ := yields_bind.mp h
    cases h
    have hg₁ := ensures_emit (by simp [Quad.addresses, List.count_cons]) g n _ hg he
    exact ⟨hg₁.1.drop (hlocated.not_temporary (by decide)), hg₁.2⟩

theorem ensures_input (text : Option String) : Balances sizes since x held (input text) := by
  refine ensures_get_bind fun g hg => ?_
  split
  · exact ensures_reject _
  split
  · exact ensures_refuse _
  refine Ensures.start ?_ hg
  exact (ensures_prompt text).bind fun _ => (ensures_temporary _).bind fun t =>
    (ensures_emit (by grind)).bind fun _ => ensures_push rfl

/-! ## Declarations -/

theorem ensures_requireType (ty : TypeName) : Balances sizes since x held (requireType ty) := by
  refine ensures_get_bind fun g hg => ?_
  split
  · exact ensures_pure fun _ heq => heq ▸ hg
  · exact ensures_refuse _

/-- A change to what is known of the open function that keeps its start. -/
theorem ensures_updateRoutine {f : String} {update : Routine → Routine}
    (hopen : x.currentFunction = some f) (hstart : ∀ r, (update r).startQuad = r.startQuad)
    (hparams : ∀ r, ∀ a ∈ (update r).paramAddresses, a ∈ r.paramAddresses ∨ a ∈ held) :
    Balances sizes since x held (updateRoutine f update) := by
  refine ensures_get_bind fun g hg => ?_
  have hcurrent : g.currentFunction = some f := by
    rw [← hopen, ← hg.2]
    rfl
  split
  · rename_i r hr
    refine ensures_set ⟨hg.1.setRoutine hcurrent hr (hstart r) ?_, hg.2⟩
    intro a ha
    rcases hparams r a ha with ha | ha
    · obtain ⟨r', hr', -, hcovered⟩ := hg.1.extents.current f hcurrent
      have heq : r' = r := Option.some.inj (hr'.symm.trans hr)
      exact hcovered a (heq ▸ ha)
    · exact hg.1.covered a (List.mem_append_left _ ha)
  · exact ensures_reject _

theorem ensures_setFunctionType (ty : TypeName) :
    Balances sizes since x held (setFunctionType ty) := by
  refine (ensures_requireType ty).bind fun _ => ensures_get_bind fun g hg => ?_
  split
  · exact ensures_reject _
  rename_i f hf
  have hopen : x.currentFunction = some f := by
    rw [← hg.2]
    exact hf
  refine Ensures.start ?_ hg
  exact ensures_updateRoutine hopen (fun _ => rfl) fun _ _ ha => Or.inl ha

/-- A slot in hand becomes a local. -/
theorem held_declareLocal {a : Nat} {t : TypeName} {s : Scalar}
    (hg : Held sizes since x (a :: held) g) (hlocated : Located sizes a .locals s) (id : String) :
    Held sizes since { x with locals := x.locals.insert id ⟨a, t, [], []⟩ } (a :: held)
      { g with locals := g.locals.insert id ⟨a, t, [], []⟩ } := by
  refine ⟨hg.1.setSymbols (Table.forall_insert hg.1.symbols.locals ?_) hg.1.symbols.globals, ?_⟩
  · exact ⟨⟨s, hlocated⟩, hg.1.covered a (List.mem_append_left _ List.mem_cons_self), fun d hd =>
      by cases hd⟩
  · rw [← hg.2]
    rfl

/-- A slot for a variable is taken and named. -/
theorem ensures_allocate_named {ty : Scalar} {id : String} {f : Nat → Compile Unit}
    {Q : Unit → Generator → Prop} (htemporaries : segment ≠ .temporaries)
    (hconstants : segment ≠ .constants) (hg : Held sizes since x held g)
    (hf : ∀ a, Located sizes a segment ty → Ensures (Held sizes since x (a :: held)) (f a) Q) :
    Ensures (· = g) (do let a ← allocate ty segment; nameAddress a id; f a) Q := by
  refine Ensures.start ?_ hg
  exact (ensures_allocate _ htemporaries hconstants).bind fun a => ensures_of_and fun hlocated =>
    (ensures_nameAddress a id).bind fun _ => hf a hlocated

theorem ensures_declareParam (id : String) (ty : TypeName) :
    Rescopes sizes since x held (declareParam id ty) := by
  refine (ensures_requireType ty).bind fun _ => ensures_get_bind fun g hg => ?_
  split
  · exact ensures_reject _
  rename_i f hf
  have hopen : x.currentFunction = some f := by
    rw [← hg.2]
    exact hf
  split
  · exact ensures_refuse _
  refine ensures_allocate_named (by decide) (by decide) hg fun a hlocated => ?_
  -- the parameter stays in hand until the function knows it
  have hdeclare : Ensures (Held sizes since x (a :: held))
      (modify fun g => { g with locals := g.locals.insert id ⟨a, ty, [], []⟩ } : Compile Unit)
      fun _ => Held sizes since { x with locals := x.locals.insert id ⟨a, ty, [], []⟩ }
        (a :: held) :=
    ensures_modify fun _ hg => held_declareLocal hg hlocated id
  have hdrop : ∀ (_ : Unit) (g : Generator),
      Held sizes since { x with locals := x.locals.insert id ⟨a, ty, [], []⟩ }
      (a :: held) g → ∃ x', Held sizes since x' held g :=
    fun _ g hg => ⟨_, hg.1.drop (hlocated.not_temporary (by decide)), hg.2⟩
  refine hdeclare.bind fun _ => Ensures.weaken ?_ (fun _ hg => hg) hdrop
  refine ensures_updateRoutine hopen (fun _ => rfl) ?_
  intro r c hc
  rcases List.mem_append.mp hc with hc | hc
  · exact Or.inl hc
  · rw [List.mem_singleton.mp hc]
    exact Or.inr List.mem_cons_self

theorem ensures_declareVariable (id : String) (ty : TypeName) :
    Rescopes sizes since x held (declareVariable id ty) := by
  refine (ensures_requireType ty).bind fun _ => ensures_get_bind fun g hg => ?_
  split
  · split
    · exact ensures_refuse _
    refine ensures_allocate_named (by decide) (by decide) hg fun a hlocated =>
      ensures_modify fun g hg => ?_
    have hg' := held_declareLocal (t := ty) hg hlocated id
    exact ⟨_, hg'.1.drop (hlocated.not_temporary (by decide)), hg'.2⟩
  · split
    · exact ensures_refuse _
    refine ensures_allocate_named (by decide) (by decide) hg fun a hlocated =>
      ensures_modify fun g hg => ⟨x, ?_, hg.2⟩
    have hvariable : IsVariableIn sizes (g.account.Covers sizes g.account.slots) .globals ⟨a, ty,
        [], []⟩ :=
      ⟨⟨_, hlocated⟩, hg.1.covered a (List.mem_append_left _ List.mem_cons_self), fun d hd =>
        by cases hd⟩
    exact (hg.1.setSymbols hg.1.symbols.locals
      (Table.forall_insert hg.1.symbols.globals hvariable)).drop
      (hlocated.not_temporary (by decide))

theorem ensures_lastDeclared : Balances sizes since x held lastDeclared := by
  refine ensures_get_bind fun g hg => ?_
  split
  · exact ensures_pure fun _ heq => heq ▸ hg
  · exact ensures_reject _

/-- A variable is replaced by one in the same segment. -/
theorem held_setVariable (hg : Held sizes since x held g) (id : String)
    (hv : IsVariableIn sizes (g.account.Covers sizes g.account.slots) segment v)
    (hsegment : segment = .globals ∨ segment = .locals)
    (hlocal : segment = .locals ↔ g.locals.contains id = true) :
    ∃ x', Held sizes since x' held (g.setVariable id v) := by
  refine ⟨_, ?_, rfl⟩
  unfold Generator.setVariable
  split
  · rename_i hcontains
    rw [hlocal.mpr hcontains] at hv
    exact hg.1.setSymbols (Table.forall_insert hg.1.symbols.locals hv) hg.1.symbols.globals
  · rename_i hcontains
    have hglobals : segment = .globals :=
      hsegment.resolve_right fun heq => hcontains (hlocal.mp heq)
    rw [hglobals] at hv
    exact hg.1.setSymbols hg.1.symbols.locals (Table.forall_insert hg.1.symbols.globals hv)

theorem ensures_declareArrayDimension (size : Nat) :
    Rescopes sizes since x held (declareArrayDimension size) := by
  refine ensures_lastDeclared.bind fun id => ?_
  split
  · exact ensures_refuse _
  refine ensures_get_bind fun g hg => ?_
  split
  · rename_i v hlookup
    obtain ⟨segment, hsegment, hv, hlocal⟩ := variable_of_lookup hg hlookup
    exact ensures_modify fun g' heq => heq ▸ held_setVariable hg id ⟨hv.located, hv.covered,
      hv.dimensions⟩ hsegment hlocal
  · exact ensures_refuse _

/-- The constants of dimensions. -/
theorem ensures_dimensionConstants : ∀ (ns : List Nat) {held : List Nat},
    Ensures (Held sizes since x held) (dimensionConstants ns) fun ds g =>
      Held sizes since x held g ∧
      ∀ d ∈ ds, IsDimension sizes (g.account.Covers sizes g.account.slots) d
  | [], _ => ensures_pure fun _ hg => ⟨hg, fun d hd => by cases hd⟩
  | [size], held => by
    refine (ensures_constant _).bind fun a => ensures_of_and fun hlocated =>
      ensures_pure fun g hg => ?_
    obtain ⟨ty, hty⟩ := hlocated
    have hcovers := hg.1.covered a (List.mem_append_left _ List.mem_cons_self)
    refine ⟨⟨hg.1.drop (hty.not_temporary (by decide)), hg.2⟩, ?_⟩
    intro d hd
    rw [List.mem_singleton.mp hd]
    exact ⟨⟨hcovers, ty, hty⟩, fun s hs => by cases hs⟩
  | size :: next :: later, held => by
    refine (ensures_constant _).bind fun a => ensures_of_and fun ⟨ty, hty⟩ => ?_
    refine (ensures_constant _).bind fun s => ensures_of_and fun ⟨ty', hty'⟩ => ?_
    -- both constants stay in hand, so they have slots when the others are done
    refine (ensures_dimensionConstants (next :: later)).bind fun ds => ensures_pure fun g hg => ?_
    obtain ⟨hg, hds⟩ := hg
    have ha := hg.1.covered a (List.mem_append_left _ (by simp))
    have hs := hg.1.covered s (List.mem_append_left _ (by simp))
    refine ⟨⟨(hg.1.drop (hty'.not_temporary (by decide))).drop (hty.not_temporary (by decide)),
      hg.2⟩, ?_⟩
    intro d hd
    rcases List.mem_cons.mp hd with rfl | hd
    · exact ⟨⟨ha, ty, hty⟩, fun s' hs' => by cases hs'; exact ⟨hs, ty', hty'⟩⟩
    · exact hds d hd

/-- The segment of a variable is the one it was declared in. -/
theorem segmentOf_variable {C : Nat → Prop} (hg : Held sizes since x held g)
    (hv : IsVariableIn sizes C segment v) : g.pool.layout.segmentOf v.address = some segment := by
  obtain ⟨ty, hlocated⟩ := hv.located
  have hlayout : g.pool.layout = Layout.ofSizes sizes := hg.1.pool.layout
  rw [hlayout, Layout.segmentOf, show (Layout.ofSizes sizes).locate v.address = _ from hlocated,
    Layout.range_ofSizes]
  rfl

theorem ensures_allocateBlock (ty : Scalar) (hsegment : segment = .globals ∨ segment = .locals)
    (len : Nat) :
    Ensures (Held sizes since x held) (allocateBlock ty segment len) fun a g =>
      Held sizes since x (a :: held) g ∧ Located sizes a segment ty := by
  have htemporaries : segment ≠ .temporaries := by rcases hsegment with rfl | rfl <;> decide
  have hconstants : segment ≠ .constants := by rcases hsegment with rfl | rfl <;> decide
  refine ensures_get_bind fun g hg => ?_
  split
  · rename_i a p hblock
    have htakes := hg.1.pool.allocateBlock hblock
    obtain ⟨hledger, hcovers⟩ := hg.1.takeBlock htemporaries hconstants htakes
    refine ensures_set_bind (ensures_pure fun g' heq => heq ▸ ⟨⟨?_, hg.2⟩, htakes.located⟩)
    exact hledger.hold (htakes.located.not_temporary htemporaries) hcovers
  · exact ensures_refuse _

/-- The slot of the variable is traded for the first one of its block. -/
theorem ensures_allocateArray : Rescopes sizes since x held allocateArray := by
  refine ensures_lastDeclared.bind fun id => ensures_get_bind fun g hg => ?_
  split
  · exact ensures_refuse _
  rename_i v hlookup
  obtain ⟨segment, hsegment, hv, hlocal⟩ := variable_of_lookup hg hlookup
  have hscope : g.locals = x.locals := congrArg Scope.locals hg.2
  split
  · exact ensures_refuse _
  dsimp only
  rw [segmentOf_variable hg hv, Option.getD_some]
  -- the old slot is given back, and the first slot of the block takes its place
  have hheld : Held sizes since x (v.address :: held) g :=
    ⟨hg.1.hold (hv.not_temporary hsegment) hv.covered, hg.2⟩
  refine Ensures.start ?_ hheld
  split
  · exact ensures_refuse _
  refine (ensures_giveBack _).bind fun _ => (ensures_allocateBlock _ hsegment _).bind fun base =>
    ensures_of_and fun hlocated => (ensures_dimensionConstants _).bind fun dimensions => ?_
  intro g₁ u g' hg₁ h
  obtain ⟨hg₁, hdimensions⟩ := hg₁
  obtain ⟨_, g₂, hname, h⟩ := yields_bind.mp h
  cases hname
  obtain ⟨_, g₃, hset, h⟩ := yields_bind.mp h
  cases hset
  have hcovers := hg₁.1.covered base (List.mem_append_left _ List.mem_cons_self)
  have hnot : ¬ Temporary sizes base := by
    rcases hsegment with rfl | rfl
    · exact hlocated.not_temporary (by decide)
    · exact hlocated.not_temporary (by decide)
  have hlocals : g₁.locals = g.locals := (congrArg Scope.locals hg₁.2).trans hscope.symm
  have hg₂ : Held sizes since x held { g₁ with names := g₁.names.insert base id } :=
    ⟨hg₁.1.drop hnot, hg₁.2⟩
  have hv' : IsVariableIn sizes (g₁.account.Covers sizes g₁.account.slots) segment
      { v with address := base, pendingSizes := [], dimensions := dimensions } :=
        ⟨⟨_, hlocated⟩, hcovers, hdimensions⟩
  obtain ⟨x', hg₃⟩ := held_setVariable hg₂ id hv' hsegment (by rw [hlocal, ← hlocals])
  exact ⟨x', ensures_note _ _ _ _ hg₃ h⟩

theorem ensures_declareClass (id : String) : Balances sizes since x held (declareClass id) := by
  refine ensures_get_bind fun g hg => ?_
  split
  · exact ensures_reject _
  split
  · exact ensures_refuse _
  · exact ensures_set hg

theorem ensures_declareField (id : String) (ty : TypeName) :
    Balances sizes since x held (declareField id ty) := by
  refine ensures_get_bind fun g hg => ?_
  split
  · exact ensures_reject _
  refine Ensures.start ?_ hg
  refine (ensures_requireType ty).bind fun _ => ?_
  split
  · exact ensures_reject _
  split
  · exact ensures_refuse _
  · exact ensures_modify fun _ hg => hg

theorem ensures_endClass : Balances sizes since x held endClass := by
  refine ensures_get_bind fun g hg => ?_
  split
  · exact ensures_set hg
  · exact ensures_reject _

end Compile

end Quadruple
