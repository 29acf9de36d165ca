/-
  Calls of a compilation, event by event.

  What call sites depend on is a part of a generator's state of its own (`Calling`): the quads, the
  stack of open calls, the parameters of the functions declared so far, and the pool that parameters
  get their addresses from.  `Calls` says for each event what it does to that part when it is
  accepted.  Five kinds of events do one thing each; all others append quads that no call site is
  made of, and leave the open calls and all parameters alone (`Keeps`).

  The compiler's steps are opened for this in one place (`calls_apply`):

      Yields (apply e) g () g'  →  Calls e g.calling g'.calling
-/
import Quadruple.Proofs.Ledger
import Quadruple.Proofs.Tolerance

namespace Quadruple

variable {e : Event} {index : Nat} {g g' : Generator} {id : String} {u : Unit}

/-! ## Padding code -/

/-- Quads that no call site is made of were appended, and no opcode has changed. -/
structure Padded (quads quads' : Array Quad) : Prop where
  size : quads.size ≤ quads'.size
  ops : ∀ (n : Nat) (q' : Quad), n < quads.size → quads'[n]? = some q' → ∃ q, quads[n]? = some q ∧
    q.op = q'.op
  fresh : ∀ (n : Nat) (q' : Quad), quads.size ≤ n → quads'[n]? = some q' → q'.op.isNeutral = true

namespace Padded

variable {quads quads' quads'' : Array Quad}

theorem refl (quads : Array Quad) : Padded quads quads := by
  refine ⟨Nat.le_refl _, fun n q' _ hq' => ⟨q', hq', rfl⟩, ?_⟩
  intro n q' hn hq'
  rw [Array.getElem?_eq_none hn] at hq'
  cases hq'

theorem trans (h₁ : Padded quads quads') (h₂ : Padded quads' quads'') : Padded quads quads'' := by
  have hsize₁ := h₁.size
  have hsize₂ := h₂.size
  refine ⟨by omega, ?_, ?_⟩
  · intro n q'' hn hq''
    obtain ⟨q', hq', hop'⟩ := h₂.ops n q'' (by omega) hq''
    obtain ⟨q, hq, hop⟩ := h₁.ops n q' hn hq'
    exact ⟨q, hq, hop.trans hop'⟩
  · intro n q'' hn hq''
    rcases Nat.lt_or_ge n quads'.size with hlt | hge
    · obtain ⟨q', hq', hop'⟩ := h₂.ops n q'' hlt hq''
      rw [← hop']
      exact h₁.fresh n q' hn hq'
    · exact h₂.fresh n q'' hge hq''

theorem push (quads : Array Quad) {q : Quad} (hq : q.op.isNeutral = true) :
    Padded quads (quads.push q) := by
  refine ⟨by simp, ?_, ?_⟩
  · intro n q' hn hq'
    rw [Array.getElem?_push_lt hn, ← Array.getElem?_eq_getElem hn] at hq'
    exact ⟨q', hq', rfl⟩
  · intro n q' hn hq'
    rw [Array.getElem?_push] at hq'
    split at hq'
    · cases hq'
      exact hq
    · rw [Array.getElem?_eq_none hn] at hq'
      cases hq'

theorem set {q : Quad} (hq : quads[index]? = some q) {p : Quad} (hop : p.op = q.op) :
    Padded quads (quads.setIfInBounds index p) := by
  refine ⟨by simp, ?_, ?_⟩
  · intro n q' hn hq'
    rw [Array.getElem?_setIfInBounds] at hq'
    split at hq'
    · rename_i hindex
      subst hindex
      rw [if_pos hn] at hq'
      cases hq'
      exact ⟨q, hq, hop.symm⟩
    · exact ⟨q', hq', rfl⟩
  · intro n q' hn hq'
    rw [Array.getElem?_eq_none (by simpa using hn)] at hq'
    cases hq'

end Padded

/-! ## The part of a generator that calls depend on -/

/-- What call sites depend on. -/
structure Calling where
  sizes : Sizes
  pool : Pool
  quads : Array Quad
  calls : List Call
  /-- The types and addresses of the parameters of each function declared so far. -/
  params : String → Option (List TypeName × List Nat)
  currentFunction : Option String

def Routine.params (r : Routine) : List TypeName × List Nat := (r.paramTypes, r.paramAddresses)

def Generator.calling (g : Generator) : Calling where
  sizes := g.program.sizes
  pool := g.pool
  quads := g.program.quads
  calls := g.calls
  params id := (g.program.functions.find? id).map Routine.params
  currentFunction := g.currentFunction

namespace Calling

/-- Code was padded, and open calls and parameters are as they were. -/
structure Keeps (c c' : Calling) : Prop where
  sizes : c'.sizes = c.sizes
  pool : c.pool.Valid c.sizes → c'.pool.Valid c.sizes
  code : Padded c.quads c'.quads
  calls : c'.calls = c.calls
  params : c'.params = c.params

theorem Keeps.refl (c : Calling) : Keeps c c := ⟨rfl, id, .refl _, rfl, rfl⟩

theorem Keeps.trans {c₁ c₂ c₃ : Calling} (h₁ : Keeps c₁ c₂) (h₂ : Keeps c₂ c₃) : Keeps c₁ c₃ := by
  refine ⟨h₂.sizes.trans h₁.sizes, ?_, h₁.code.trans h₂.code, h₂.calls.trans h₁.calls,
    h₂.params.trans h₁.params⟩
  intro hp
  rw [← h₁.sizes]
  exact h₂.pool (h₁.sizes ▸ h₁.pool hp)

end Calling

/-- An event that does nothing to open calls and parameters. -/
def Event.keepsCalls : Event → Bool
  | callFunction _ | pushCallArgument _ | endCall | declareFunction _ | declareParam _ _ => false
  | _ => true

/-- What an accepted event does to calls. -/
inductive Calls : Event → Calling → Calling → Prop
  | keeps {e : Event} {c c' : Calling} (he : e.keepsCalls = true) (hkept : c.Keeps c') :
      Calls e c c'
  /-- Reserve a frame and open the arguments. -/
  | reserves {c : Calling} {id : String} (hopen : c.currentFunction ≠ none) :
      Calls (.callFunction id) c { c with
        quads := c.quads.push ⟨.are, some (.function id), none, none⟩
        calls := ⟨id, 0⟩ :: c.calls }
  /-- Pass the argument that comes next to the innermost open call. -/
  | passes {c c₁ : Calling} {call : Call} {rest : List Call} {o : Option Operand}
      (hcalls : c.calls = call :: rest) (hkept : c.Keeps c₁) :
      Calls (.pushCallArgument call.passed) c { c₁ with
        quads := c₁.quads.push ⟨.param, o, none, some (.immediate call.passed)⟩
        calls := { call with passed := call.passed + 1 } :: rest }
  /-- Enter the function of the innermost open call, which has been passed all its arguments. -/
  | transfers {c c₁ : Calling} {call : Call} {rest : List Call} {types : List TypeName}
      {addresses : List Nat}
      (hcalls : c.calls = call :: rest) (hparams : c.params call.function = some (types, addresses))
      (hpassed : call.passed = types.length) (hkept : c.Keeps c₁) :
      Calls .endCall c { c₁ with
        quads := c₁.quads.push ⟨.goSub, some (.function call.function), none, none⟩
        calls := rest }
  /-- Open a function, which has no parameters yet. -/
  | opens {c : Calling} {id : String} (hnew : c.params id = none) :
      Calls (.declareFunction id) c { c with
        params := fun j => if j = id then some ([], []) else c.params j
        currentFunction := some id }
  /-- Give the open function one more parameter. -/
  | declares {c : Calling} {f id : String} {ty : TypeName} {a : Nat} {pool : Pool}
      {types : List TypeName} {addresses : List Nat} (hopen : c.currentFunction = some f)
      (hparams : c.params f = some (types, addresses))
      (htakes : c.pool.allocate ty.storage .locals = .ok (a, pool)) :
      Calls (.declareParam id ty) c { c with
        pool := pool
        params := fun j => if j = f then some (types ++ [ty], addresses ++ [a]) else c.params j }

theorem Calls.sizes {c c' : Calling} (h : Calls e c c') : c'.sizes = c.sizes := by
  cases h with
  | keeps _ hkept => exact hkept.sizes
  | passes _ hkept => exact hkept.sizes
  | transfers _ _ _ hkept => exact hkept.sizes
  | _ => rfl

/-! ## Events that keep calls -/

namespace Generator

/-- Code was padded, and open calls and parameters are as they were. -/
def KeepsCalls (g g' : Generator) : Prop := g.calling.Keeps g'.calling

instance : IsPreorder Generator KeepsCalls where
  refl g := .refl g.calling
  trans _ _ _ := .trans

/-- A routine with the same parameters is inserted for a function. -/
theorem params_insert {r r' : Routine} (hr : g.program.functions.find? id = some r)
    (hparams : r'.params = r.params) :
    (fun j => ((g.program.functions.insert id r').find? j).map Routine.params) = g.calling.params :=
  Table.map_find?_insert_of_eq _ hr hparams

theorem Changes.keepsCalls (h : Changes g g') : KeepsCalls g g' := by
  refine h.rel (R := KeepsCalls) fun {g g'} hchange => ?_
  cases hchange with
  | same h =>
    have hpool : g'.pool = g.pool := congrArg Core.pool h
    have hquads : g'.program.quads = g.program.quads := congrArg Core.quads h
    have hfunctions : g'.program.functions = g.program.functions := congrArg Core.functions h
    refine ⟨congrArg Core.sizes h, ?_, ?_, congrArg Core.calls h, ?_⟩
    · intro hp
      show g'.pool.Valid _
      rw [hpool]
      exact hp
    · show Padded _ g'.program.quads
      rw [hquads]
      exact .refl _
    · show (fun j => (g'.program.functions.find? j).map Routine.params) = _
      rw [hfunctions]
      rfl
  | allocate h => exact ⟨rfl, fun hp => (hp.allocate h).valid, .refl _, rfl, rfl⟩
  | allocateBlock h => exact ⟨rfl, fun hp => (hp.allocateBlock h).valid, .refl _, rfl, rfl⟩
  | release h => exact ⟨rfl, fun hp => (hp.release h).valid, .refl _, rfl, rfl⟩
  | emit _ hop => exact ⟨rfl, id, .push _ (Opcode.isNeutral_of_isOrdinary hop), rfl, rfl⟩
  | push | pop => exact .refl g.calling

end Generator

namespace Compile

open Generator

theorem tolerant_keepsCalls : Tolerant KeepsCalls where
  changes := Changes.keepsCalls
  grows _ hop := ⟨rfl, id, .push _ hop, rfl, rfl⟩
  patches _ hq _ := ⟨rfl, id, .set hq rfl, rfl, rfl⟩
  marks := .refl _

theorem keepsCalls_endFunction (h : Yields endFunction g u g') : KeepsCalls g g' := by
  obtain ⟨f, r, journal, -, hr, -, rfl⟩ := yields_endFunction h
  exact ⟨rfl, fun hp => (hp.releaseSegment .locals).releaseSegment .temporaries, .push _ rfl, rfl,
    params_insert (g := g) hr rfl⟩

/-- Most events keep the calls. -/
theorem keepsCalls_dispatch (he : e.keepsCalls = true) (h : Yields (dispatch e) g u g') :
    KeepsCalls g g' := by
  have hclasses : ∀ {g : Generator} {classes currentClass},
      KeepsCalls g { g with classes := classes, currentClass := currentClass } := .refl _
  cases hneutral : e.isNeutral with
  | true => exact (tolerant_keepsCalls.moves_dispatch hneutral).of_yields h
  | false =>
    cases e with
    | declareClass id => exact (moves_declareClass hclasses id).of_yields h
    | declareField id ty => exact (moves_declareField hclasses id ty).of_yields h
    | endClass => exact (moves_endClass hclasses).of_yields h
    | setFunctionType ty =>
      refine (moves_setFunctionType (R := KeepsCalls) ty fun hr => ?_).of_yields h
      exact ⟨rfl, id, .refl _, rfl, params_insert hr rfl⟩
    | endFunction => exact keepsCalls_endFunction h
    | pushOperand a ty c =>
      exact (moves_pushOperand (R := KeepsCalls) (.refl _) a ty c).of_yields h
    | callFunction | pushCallArgument | endCall | declareFunction | declareParam => cases he
    | _ => cases hneutral

/-! ## Events that make calls -/

theorem params_of_find? {r : Routine} (hr : g.program.functions.find? id = some r) :
    g.calling.params id = some (r.paramTypes, r.paramAddresses) := by
  show (g.program.functions.find? id).map Routine.params = _
  rw [hr]
  rfl

theorem calls_callFunction (h : Yields (callFunction id) g u g') :
    Calls (.callFunction id) g.calling g'.calling := by
  rw [callFunction, yields_bind] at h
  obtain ⟨r, g₁, hroutine, h⟩ := h
  obtain ⟨-, rfl⟩ := yields_routine hroutine
  obtain ⟨_, g₂, hemit, h⟩ := yields_bind.mp h
  obtain ⟨hopen, -, rfl⟩ := yields_emit hemit
  obtain ⟨_, g₃, hopened, h⟩ := yields_bind.mp h
  have hopened := yields_modify.mp hopened
  have hparenthesis := yields_modify.mp h
  subst hopened hparenthesis
  exact .reserves (c := g₁.calling) (Option.isSome_iff_ne_none.mp hopen)

/-- The topmost operand is passed to the innermost call if it fits the parameter that comes next. -/
theorem yields_pushCallArgument (h : Yields (pushCallArgument index) g u g') :
    ∃ g₁ argument g₂ call rest r ty g₃ journal, Yields reduceAll g () g₁ ∧
      Yields pop g₁ argument g₂ ∧
      g₂.calls = call :: rest ∧ g₂.program.functions.find? call.function = some r ∧
      index = call.passed ∧
      r.paramTypes[index]? = some ty ∧ argument.fits ty = true ∧
      Yields (release argument) { g₂ with
        journal := journal
        program := { g₂.program with
          quads := g₂.program.quads.push ⟨.param, some argument.value, none,
            some (.immediate index)⟩ } } () g₃ ∧
      g' = { g₃ with calls := match g₃.calls with
        | call :: rest => { call with passed := call.passed + 1 } :: rest
        | [] => [] } := by
  rw [pushCallArgument, yields_bind] at h
  obtain ⟨_, g₁, hreduce, h⟩ := h
  rw [yields_bind] at h
  obtain ⟨argument, g₂, hpop, h⟩ := h
  rw [yields_get_bind] at h
  split at h
  · cases h
  rename_i call rest hcalls
  rw [yields_bind] at h
  obtain ⟨r, g₀, hroutine, h⟩ := h
  obtain ⟨hr, rfl⟩ := yields_routine hroutine
  split at h
  · cases h
  rename_i hindex
  split at h
  · cases h
  rename_i ty hty
  split at h
  · cases h
  rename_i hfits
  rw [Bool.not_eq_true', Bool.not_eq_false] at hfits
  rw [yields_bind] at h
  obtain ⟨_, g₃, hemit, h⟩ := h
  obtain ⟨-, -, rfl⟩ := yields_emit hemit
  rw [yields_bind] at h
  obtain ⟨_, g₄, hrelease, h⟩ := h
  exact ⟨g₁, argument, _, call, rest, r, ty, g₄, _, hreduce, hpop, hcalls, hr,
    Classical.not_not.mp hindex, hty, hfits, hrelease, yields_modify.mp h⟩

theorem calls_pushCallArgument (h : Yields (pushCallArgument index) g u g') :
    Calls (.pushCallArgument index) g.calling g'.calling := by
  obtain ⟨g₁, argument, g₂, call, rest, r, ty, g₃, journal, hreduce, hpop, hcalls, -, rfl, -, -,
      hrelease, rfl⟩ :=
    yields_pushCallArgument h
  have hbefore : KeepsCalls g g₂ :=
    (trans_of Changes (keeps_changes.reduceAll.of_yields hreduce)
      (moves_pop.of_yields hpop)).keepsCalls
  have hcontrol := (keeps_release argument).of_yields hrelease
  have hafter : KeepsCalls _ g₃ :=
    (tolerant_keepsCalls.branches.expressions.release argument).of_yields hrelease
  -- the pool may change after the quad is emitted, so the two halves are put together part by part
  have hquads : g₃.program.quads = g₂.program.quads.push ⟨.param, some argument.value, none,
      some (.immediate call.passed)⟩ :=
    congrArg Control.quads hcontrol
  have hcalls' : g₃.calls = call :: rest := hafter.calls.trans hcalls
  have hkept : g.calling.Keeps { g₃.calling with quads := g₂.program.quads } := by
    refine ⟨hafter.sizes.trans hbefore.sizes, ?_, hbefore.code,
      hcalls'.trans (hcalls.symm.trans hbefore.calls),
      hafter.params.trans hbefore.params⟩
    intro hp
    have hsizes : g₂.calling.sizes = g.calling.sizes := hbefore.sizes
    have hvalid : g₂.calling.pool.Valid g₂.calling.sizes := hsizes ▸ hbefore.pool hp
    exact hsizes ▸ hafter.pool hvalid
  have hacts := Calls.passes (o := some argument.value) (hbefore.calls.symm.trans hcalls) hkept
  convert hacts using 1
  unfold Generator.calling
  rw [hquads, hcalls']

theorem calls_endCall (h : Yields endCall g u g') : Calls .endCall g.calling g'.calling := by
  obtain ⟨call, rest, r, g₁, journal, hcalls, hr, hpassed, hclose, -, rfl⟩ := yields_endCall h
  have hkept := (keeps_changes.closeParenthesis.of_yields hclose).keepsCalls
  have hwhole : g.calling.Keeps { g₁.calling with calls := call :: rest } :=
    ⟨hkept.sizes, hkept.pool, hkept.code, hcalls.symm, hkept.params⟩
  have hacts := Calls.transfers hcalls (params_of_find? (g := g) hr) hpassed hwhole
  convert hacts using 1
  unfold Generator.calling
  rw [show g₁.calls = rest from hkept.calls]

theorem calls_declareFunction (h : Yields (declareFunction id) g u g') :
    Calls (.declareFunction id) g.calling g'.calling := by
  obtain ⟨journal, -, hnew, rfl⟩ := yields_declareFunction h
  have hfresh : g.calling.params id = none := by
    show (g.program.functions.find? id).map Routine.params = none
    rw [hnew, Option.map_none]
  have hparams :
      (fun j => ((g.program.functions.insert id (.startingAt g.nextQuad)).find? j).map
        Routine.params) =
      fun j => if j = id then some ([], []) else g.calling.params j :=
        Table.map_find?_insert _ _ _ _
  have hacts := Calls.opens hfresh
  rwa [← hparams] at hacts

theorem calls_declareParam {ty : TypeName} (h : Yields (declareParam id ty) g u g') :
    Calls (.declareParam id ty) g.calling g'.calling := by
  obtain ⟨f, r, a, g₁, names, hopen, -, hallocate, hr, rfl⟩ := yields_declareParam h
  obtain ⟨pool, journal, htakes, rfl⟩ := allocate_of_yields hallocate
  have hparams : (fun j => ((g.program.functions.insert f { r with
      paramTypes := r.paramTypes ++ [ty], paramAddresses := r.paramAddresses ++ [a] }).find? j).map
        Routine.params) =
      fun j => if j = f then some (r.paramTypes ++ [ty], r.paramAddresses ++ [a])
        else g.calling.params j :=
    Table.map_find?_insert _ _ _ _
  have hacts : Calls (.declareParam id ty) g.calling _ :=
    .declares hopen (params_of_find? hr) htakes
  rwa [← hparams] at hacts

/-! ## All events -/

/-- Every accepted event changes them as listed. -/
theorem calls_dispatch (h : Yields (dispatch e) g u g') : Calls e g.calling g'.calling := by
  cases hkeeps : e.keepsCalls with
  | true => exact .keeps hkeeps (keepsCalls_dispatch hkeeps h)
  | false =>
    cases e with
    | callFunction id => exact calls_callFunction h
    | pushCallArgument index => exact calls_pushCallArgument h
    | endCall => exact calls_endCall h
    | declareFunction id => exact calls_declareFunction h
    | declareParam id ty => exact calls_declareParam h
    | _ => cases hkeeps

/-- What an accepted event does to calls. -/
theorem calls_apply (h : Yields (apply e) g u g') : Calls e g.calling g'.calling := by
  obtain ⟨finishedCall, journal, hdispatch⟩ := exists_dispatch_of_apply h
  exact calls_dispatch (g := { g with finishedCall := finishedCall, journal := journal }) hdispatch

end Compile

end Quadruple
