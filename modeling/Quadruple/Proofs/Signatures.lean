/-
  Signatures of functions, and the quads that depend on them.

  Four kinds of quads depend on the signature of a function: `PARAM` and `GOSUB` at its call sites,
  `RETURN` in its body, and `CALL_ASSIGN`, which claims its result.  A program agrees with its
  signatures when each of these quads is as the signature of its function says
  (`Program.AgreesAt`).

  The compiler compares such a quad with the signature that the function has where the quad is
  emitted.  The signature of the open function may still change after that, and an operand pushed by
  number may be labelled with a class without being a pointer.  So the events that emit these quads
  are asked again, with the signatures that functions have in the end (`Generator.suits`): what an
  event emits agrees with them exactly when the event suits them (`suits_iff`):

      stage i suits e  ↔  ∀ n q, Emits i n → p.quads[n]? = some q → p.AgreesAt n q
-/
import Quadruple.Proofs.Containment
import Quadruple.Proofs.Stages

namespace Quadruple

variable {n index : Nat} {q : Quad} {g g' g₁ : Generator} {u : Unit} {quads : Array Quad}

/-! ## Slots for declared types -/

/-- A slot of this type can stand where the declared type is asked for: it has the slot type of the
declared type, or it is an integer where a float is asked for. -/
def TypeName.takes (ty : TypeName) (slot : Scalar) : Bool :=
  slot = ty.storage || (ty = .scalar .float && slot = .int)

theorem TypeName.takes_storage (ty : TypeName) : ty.takes ty.storage = true := by
  rw [takes, decide_eq_true rfl, Bool.true_or]

theorem TypeName.takes_of_assignable {ty slot : Scalar}
    (h : (Opcode.assign.resultType? ty slot).isSome = true) :
    (TypeName.scalar ty).takes slot = true := by
  unfold Opcode.resultType? at h
  dsimp only at h
  split at h
  · rename_i hwiden
    obtain ⟨rfl, rfl⟩ := hwiden
    rfl
  · split at h
    · rename_i heq
      rw [← heq]
      exact takes_storage _
    · cases h

/-- The value of the entry may be stored for the declared type, as far as slots tell: one behind a
pointer always may. -/
def Entry.suits (e : Entry) (ty : TypeName) : Bool := e.through || ty.takes e.ty

/-- What the compiler accepts for a type suits it, if classes are only given to pointers. -/
theorem Entry.suits_of_fits {e : Entry} {ty : TypeName} (he : e.Labelled) (h : e.fits ty = true) :
    e.suits ty = true := by
  have htakes : ty.takes e.ty = true := by
    unfold Entry.fits at h
    split at h
    · rename_i c
      have hpointer : e.ty = .pointer := he (by rw [beq_iff_eq.mp h]; rfl)
      rw [hpointer]
      exact TypeName.takes_storage (.object c)
    · rw [Bool.and_eq_true, decide_eq_true_eq] at h
      rw [h.1]
      rfl
    · exact TypeName.takes_of_assignable h
  rw [suits, htakes, Bool.or_true]

/-! ## Agreement -/

namespace Program

def signature? (p : Program) (f : String) : Option Signature :=
  (p.functions.find? f).map Routine.signature

/-- The quad is in the body of the function: no other function starts between. -/
def InBody (p : Program) (f : String) (n : Nat) : Prop :=
  ∃ r, p.functions.find? f = some r ∧ p.StartsLast r.startQuad n

/-- The operand is for a value of the declared type: a direct one names a slot that the type takes,
any other leads through a pointer. -/
def Supplies (p : Program) (o : Option Operand) (ty : TypeName) : Prop :=
  ∃ value slot, o = some value ∧ value.Denotes p.layout slot ∧ ty.takes slot = true

/-- The argument is for the next parameter of the innermost open call. -/
def PassesNext (p : Program) (n : Nat) (q : Quad) : Prop :=
  ∃ call rest s ty, openCalls p.quads n = call :: rest ∧ q.result = some (.immediate call.passed) ∧
    p.signature? call.function = some s ∧ s.params[call.passed]? = some ty ∧ p.Supplies q.left ty

/-- The innermost open call is the one that is entered, and has been passed an argument for each
parameter. -/
def PassesAll (p : Program) (n : Nat) (q : Quad) : Prop :=
  ∃ call rest s, openCalls p.quads n = call :: rest ∧ q.left = some (.function call.function) ∧
    p.signature? call.function = some s ∧ call.passed = s.params.length

/-- The function that the quad is in has a result type, and the operand is for a value of it. -/
def ReturnsResult (p : Program) (n : Nat) (q : Quad) : Prop :=
  (∃ f, p.InBody f n) ∧ ∀ f, p.InBody f n →
    ∃ s ty, p.signature? f = some s ∧ s.result = some ty ∧ p.Supplies q.result ty

/-- The function whose result is claimed has a result type, and the target is a temporary for it. -/
def ClaimsResult (p : Program) (q : Quad) : Prop :=
  ∃ f s ty t, q.left = some (.function f) ∧ p.signature? f = some s ∧ s.result = some ty ∧
    q.result = some (.addr t) ∧ p.layout.IsTemporary ty.storage t

/-- The quad is as the signature of its function says. -/
def AgreesAt (p : Program) (n : Nat) (q : Quad) : Prop :=
  match q.op with
  | .param => p.PassesNext n q
  | .goSub => p.PassesAll n q
  | .returnValue => p.ReturnsResult n q
  | .callAssign => p.ClaimsResult q
  | _ => True

/-- Call sites, returns and claims of results are as the signatures of the program say. -/
def AgreesWithSignatures (p : Program) : Prop :=
  ∀ (n : Nat) (q : Quad), p.quads[n]? = some q → p.AgreesAt n q

end Program

theorem Entry.Typed.supplies_iff {p : Program} {e : Entry} (he : e.Typed p.layout) (ty : TypeName) :
    p.Supplies (some e.value) ty ↔ e.suits ty = true := by
  unfold Entry.Typed at he
  unfold Entry.suits
  cases hthrough : e.through with
  | true =>
    have hvalue : e.value = .deref e.address := if_pos hthrough
    refine ⟨fun _ => rfl, fun _ => ⟨e.value, ty.storage, rfl, ?_, ty.takes_storage⟩⟩
    rw [hvalue] at he ⊢
    exact he
  | false =>
    have hvalue : e.value = .addr e.address := if_neg (by rw [hthrough]; exact Bool.false_ne_true)
    rw [Bool.false_or]
    constructor
    · rintro ⟨value, slot, hsome, hslot, htakes⟩
      cases hsome
      rw [hvalue] at he hslot
      cases he.symm.trans hslot
      exact htakes
    · intro htakes
      exact ⟨e.value, e.ty, rfl, he, htakes⟩

/-- An opcode whose quads depend on the signature of a function. -/
def Opcode.followsSignature : Opcode → Bool
  | param | goSub | returnValue | callAssign => true
  | _ => false

/-- Execution runs through `PARAM` to the next quad, but not through the others. -/
theorem Opcode.not_isPlain_of_followsSignature {op : Opcode} (h : op.followsSignature = true)
    (hparam : op ≠ .param) : op.isPlain = false := by
  cases op with
  | param => exact (hparam rfl).elim
  | goSub | returnValue | callAssign => rfl
  | _ => cases h

theorem Program.agreesAt_of_not_followsSignature {p : Program} (h : q.op.followsSignature = false) :
    p.AgreesAt n q := by
  unfold AgreesAt
  cases hop : q.op with
  | param | goSub | returnValue | callAssign =>
    rw [hop] at h
    cases h
  | _ => trivial

theorem Quad.not_isJump_of_followsSignature (h : q.op.followsSignature = true) :
    q.isJump = false := by
  unfold Quad.isJump
  cases hop : q.op with
  | goto | gotoFalse =>
    rw [hop] at h
    cases h
  | _ => rfl

/-! ## Asking events again -/

/-- An event that emits such a quad. -/
def Event.followsSignature : Event → Bool
  | pushCallArgument _ | endCall | returnValue | pushCallResult => true
  | _ => false

namespace Generator

/-- The operand that the next event takes from the stack, once what is left of the expression has
been reduced. -/
def offered? (g : Generator) : Option Entry :=
  ((do Compile.dropResult; Compile.reduceAll : Compile Unit).run.run g).2.operands.head?

/-- If functions had these signatures, what the event emits would be as they say. -/
def suits (g : Generator) (signatures : String → Option Signature) : Event → Bool
  | .pushCallArgument index => g.calls.head?.any fun call => (signatures call.function).any fun s =>
      s.params[index]?.any fun ty => g.offered?.any (·.suits ty)
  | .endCall => g.calls.head?.any fun call => (signatures call.function).any fun s =>
      call.passed = s.params.length
  | .returnValue => g.currentFunction.any fun f => (signatures f).any fun s =>
      s.result.any fun ty => g.offered?.any (·.suits ty)
  | .pushCallResult => g.finishedCall.any fun f => (signatures f).any fun s =>
      s.result.any fun ty => (g.declarations.signatures f).any fun s' =>
        s'.result.any (·.storage = ty.storage)
  | _ => true

end Generator

/-! ## One quad among ordinary ones -/

/-- Ordinary quads were appended, then the `n`th quad, and nothing after it but the end of a
function. -/
structure Appends (quads quads' : Array Quad) (n : Nat) (q : Quad) : Prop where
  lower : quads.size ≤ n
  quad : quads'[n]? = some q
  before : ∀ (i : Nat) (q' : Quad), quads.size ≤ i → i < n → quads'[i]? = some q' →
    q'.op.isOrdinary = true
  after : ∀ (i : Nat) (q' : Quad), n < i → quads'[i]? = some q' → q'.op = .endFunc

theorem Opcode.isOrdinary_of_isPlain {op : Opcode} (hplain : op.isPlain = true)
    (hneutral : op.isNeutral = true) : op.isOrdinary = true := by
  cases op with
  | are | param => cases hneutral
  | _ => exact hplain

namespace Appends

variable {quads quads' : Array Quad} {n : Nat} {q : Quad}

open Generator in
theorem of_changes (h : Changes g g₁) (q : Quad) :
    Appends g.program.quads (g₁.program.quads.push q) g₁.nextQuad q where
  lower := h.straight.code.size
  quad := Array.getElem?_push_size
  before := by
    intro i q' hi hlt hq'
    have hlt : i < g₁.program.quads.size := hlt
    rw [Array.getElem?_push_lt hlt, ← Array.getElem?_eq_getElem hlt] at hq'
    exact Opcode.isOrdinary_of_isPlain (h.straight.code.plain i q' hi hq')
      (h.keepsCalls.code.fresh i q' hi hq')
  after := by
    intro i q' hlt hq'
    have hsize : (g₁.program.quads.push q).size ≤ i := by
      rw [Array.size_push]
      exact hlt
    rw [Array.getElem?_eq_none hsize] at hq'
    cases hq'

theorem push_end (h : Appends quads quads' n q) :
    Appends quads (quads'.push ⟨.endFunc, none, none, none⟩) n q where
  lower := h.lower
  quad := Control.Tame.getElem?_push_of_some h.quad
  before := by
    intro i q' hi hlt hq'
    rcases Control.Tame.getElem?_push_cases hq' with hq' | ⟨rfl, -⟩
    · exact h.before i q' hi hlt hq'
    · have hn : n < quads'.size := (Array.getElem?_eq_some_iff.mp h.quad).1
      omega
  after := by
    intro i q' hlt hq'
    rcases Control.Tame.getElem?_push_cases hq' with hq' | ⟨-, rfl⟩
    · exact h.after i q' hlt hq'
    · rfl

/-- No other quad among them depends on a signature. -/
theorem only (h : Appends quads quads' n q) {i : Nat} {q' : Quad} (hi : quads.size ≤ i)
    (hq' : quads'[i]? = some q') (hop : q'.op.followsSignature = true) : i = n := by
  rcases Nat.lt_trichotomy i n with hlt | heq | hgt
  · have hordinary := h.before i q' hi hlt hq'
    cases hop' : q'.op with
    | param | goSub | returnValue | callAssign =>
      rw [hop'] at hordinary
      cases hordinary
    | _ =>
      rw [hop'] at hop
      cases hop
  · exact heq
  · rw [h.after i q' hgt hq'] at hop
    cases hop

/-- The calls open before it are those open at the end of the code there was. -/
theorem openCalls (h : Appends quads quads' n q) (hrepatched : Repatched quads quads') :
    openCalls quads' n = openCalls quads quads.size := by
  rw [← hrepatched.openCalls (Nat.le_refl _)]
  exact openCalls_of_neutral h.lower fun i q' hi hlt hq' =>
    Opcode.isNeutral_of_isOrdinary (h.before i q' hi hlt hq')

end Appends

/-! ## Where such quads come from -/

namespace Control

variable {e : Event} {c c' : Control}

theorem starts_before (c : Control) (e : Event) : (c.before e).starts = c.starts := by
  unfold before
  split
  · rfl
  · rfl

/-- Only the event that opens a function changes where functions start. -/
theorem Acts.starts (h : Acts e c c') : c'.starts = c.starts ∨ ∃ id, c.starts id = none ∧
    c'.starts = fun j => if j = id then some c.quads.size else c.starts j := by
  cases h with
  | opens _ hnew => exact Or.inr ⟨_, hnew, rfl⟩
  | _ => exact Or.inl rfl

theorem getElem?_of_patched {target : Nat} (h : (patched quads index target)[n]? = some q)
    (hq : q.isJump = false) : quads[n]? = some q := by
  rcases getElem?_patched h with hsame | ⟨-, q', -, hjump, rfl⟩
  · exact hsame
  · have hjump' : ({ q' with result := some (.jump target) } : Quad).isJump = true := hjump
    rw [hq] at hjump'
    cases hjump'

/-- The quad appended last, after plain ones. -/
theorem fresh_push {quads₁ : Array Quad} (hgrown : Grown quads quads₁) {q₀ : Quad}
    (hn : quads.size ≤ n) (hq : (quads₁.push q₀)[n]? = some q) : q.op.isPlain = true ∨ q = q₀ := by
  rcases Tame.getElem?_push_cases hq with hq | ⟨-, rfl⟩
  · exact Or.inl (hgrown.plain n q hn hq)
  · exact Or.inr rfl

/-- New code that follows signatures comes from events that do. -/
theorem Acts.followsSignature_of_fresh (h : Acts e c c') (hn : c.quads.size ≤ n)
    (hq : c'.quads[n]? = some q) (hop : q.op.followsSignature = true) (hparam : q.op ≠ .param) :
    e.followsSignature = true := by
  have hplain := Opcode.not_isPlain_of_followsSignature hop hparam
  have hjump := Quad.not_isJump_of_followsSignature hop
  -- what is appended last is another kind of quad
  have hlast : ∀ {quads : Array Quad} {q₀ : Quad}, Grown c.quads quads →
      q₀.op.followsSignature = false →
      (quads.push q₀)[n]? = some q → False := by
    intro quads q₀ hgrown hq₀ hq
    rcases fresh_push hgrown hn hq with hyes | rfl
    · rw [hplain] at hyes
      cases hyes
    · rw [hop] at hq₀
      cases hq₀
  have hold : c.quads[n]? = some q → False := by
    intro hq
    rw [Array.getElem?_eq_none hn] at hq
    cases hq
  cases h with
  | straight _ hgrown =>
    rw [hgrown.plain n q hn hq] at hplain
    cases hplain
  | opens | marks => exact (hold hq).elim
  | closes | leaves => exact (hlast (.refl _) rfl hq).elim
  | branches _ hgrown | tests _ hgrown => exact (hlast hgrown rfl hq).elim
  | turns | repeats => exact (hlast (.refl _) rfl (getElem?_of_patched hq hjump)).elim
  | joins => exact (hold (getElem?_of_patched hq hjump)).elim
  | calls | claims | returns => rfl

end Control

theorem Calls.followsSignature_of_param {e : Event} {k k' : Calling} (h : Calls e k k')
    (hn : k.quads.size ≤ n) (hq : k'.quads[n]? = some q) (hop : q.op = .param) :
    e.followsSignature = true := by
  have hold : k.quads[n]? = some q → False := by
    intro hq
    rw [Array.getElem?_eq_none hn] at hq
    cases hq
  cases h with
  | keeps _ hkept =>
    have hneutral := hkept.code.fresh n q hn hq
    rw [hop] at hneutral
    cases hneutral
  | reserves =>
    rcases Control.Tame.getElem?_push_cases hq with hq | ⟨-, rfl⟩
    · exact (hold hq).elim
    · cases hop
  | passes | transfers => rfl
  | opens | declares => exact (hold hq).elim

/-! ## What the events emit -/

namespace Compile

open Generator

/-- What is on top once all is reduced is what was offered. -/
theorem offered?_of_yields {g₀ g₂ : Generator} {e : Entry} (hdrop : Yields dropResult g () g₀)
    (hreduce : Yields reduceAll g₀ () g₁) (hpop : Yields pop g₁ e g₂) : g.offered? = some e := by
  have hboth : Yields (do dropResult; reduceAll) g () g₁ := yields_bind.mpr ⟨(), g₀, hdrop, hreduce⟩
  obtain ⟨rest, hoperands, -⟩ := yields_pop hpop
  unfold offered?
  rw [show (do dropResult; reduceAll : Compile Unit).run.run g = (.ok (), g₁) from hboth, hoperands]
  rfl

/-- An argument is accepted in its turn and if it fits, and emits one `PARAM`. -/
theorem apply_pushCallArgument (h : Yields (apply (.pushCallArgument index)) g u g') :
    ∃ argument call rest s ty n, g.offered? = some argument ∧ g.calls = call :: rest ∧
      index = call.passed ∧
      g.declarations.signatures call.function = some s ∧ s.params[index]? = some ty ∧
      argument.fits ty = true ∧
      Appends g.program.quads g'.program.quads n ⟨.param, some argument.value, none,
        some (.immediate index)⟩ := by
  obtain ⟨journal, hdrop, hdispatch⟩ := drop_dispatch_of_apply h nofun
  obtain ⟨g₁, argument, g₂, call, rest, r, ty, g₃, journal', hreduce, hpop, hcalls, hr, hindex, hty,
      hfits, hrelease, rfl⟩ :=
    yields_pushCallArgument (g := { g with finishedCall := none, journal := journal }) hdispatch
  have hchanges :=
    trans_of Changes (keeps_changes.reduceAll.of_yields hreduce) (moves_pop.of_yields hpop)
  have hsame : g₂.declarations = g.declarations := hchanges.sameDeclarations
  have hquads : g₃.program.quads = g₂.program.quads.push ⟨.param, some argument.value, none,
      some (.immediate index)⟩ :=
    congrArg Control.quads ((keeps_release argument).of_yields hrelease)
  refine ⟨argument, call, rest, r.signature, ty, g₂.nextQuad, offered?_of_yields hdrop hreduce hpop,
    ?_, hindex, ?_, hty, hfits, ?_⟩
  · exact hchanges.keepsCalls.calls.symm.trans hcalls
  · rw [← hsame]
    exact signature_of_find? hr
  · show Appends g.program.quads g₃.program.quads g₂.nextQuad _
    rw [hquads]
    exact .of_changes hchanges _

/-- A call ends when all arguments were passed, and emits one `GOSUB`. -/
theorem apply_endCall (h : Yields (apply .endCall) g u g') :
    ∃ call rest s n, g.calls = call :: rest ∧ g.declarations.signatures call.function = some s ∧
      call.passed = s.params.length ∧
      Appends g.program.quads g'.program.quads n ⟨.goSub, some (.function call.function), none,
        none⟩ := by
  obtain ⟨journal, hdispatch⟩ := dispatch_of_apply h nofun
  obtain ⟨call, rest, r, g₁, journal', hcalls, hr, hpassed, hclose, -, rfl⟩ :=
    yields_endCall (g := { g with finishedCall := none, journal := journal }) hdispatch
  exact ⟨call, rest, r.signature, g₁.nextQuad, hcalls, signature_of_find? (g := g) hr, hpassed,
    .of_changes (keeps_changes.closeParenthesis.of_yields hclose) _⟩

/-- A return fits the type of the open function, and emits one `RETURN`. -/
theorem apply_returnValue (h : Yields (apply .returnValue) g u g') :
    ∃ value f s ty n, g.offered? = some value ∧ g.currentFunction = some f ∧
      g'.currentFunction = some f ∧
      g.declarations.signatures f = some s ∧ s.result = some ty ∧ value.fits ty = true ∧
      Appends g.program.quads g'.program.quads n ⟨.returnValue, none, none, some value.value⟩ := by
  obtain ⟨journal, hdrop, hdispatch⟩ := drop_dispatch_of_apply h nofun
  obtain ⟨f, r, g₁, value, g₂, ty, hf, hr, hreduce, hpop, hty, hfits, -, hafter⟩ :=
    yields_returnValue (g := { g with finishedCall := none, journal := journal }) hdispatch
  have hchanges :=
    trans_of Changes (keeps_changes.reduceAll.of_yields hreduce) (moves_pop.of_yields hpop)
  have hquads :
      g'.program.quads = (g₂.program.quads.push ⟨.returnValue, none, none, some value.value⟩).push
      ⟨.endFunc, none, none, none⟩ := congrArg Control.quads hafter
  have hcurrent : g'.currentFunction = g₂.currentFunction := congrArg Control.currentFunction hafter
  refine ⟨value, f, r.signature, ty, g₂.nextQuad, offered?_of_yields hdrop hreduce hpop, hf, ?_,
    signature_of_find? (g := g) hr, hty, hfits, ?_⟩
  · rw [hcurrent, hchanges.straight.currentFunction]
    exact hf
  · rw [hquads]
    exact (Appends.of_changes hchanges _).push_end

/-- A result is claimed once, into a temporary of its type. -/
theorem apply_pushCallResult (h : Yields (apply .pushCallResult) g u g') :
    ∃ f s ty t n, g.finishedCall = some f ∧ g.declarations.signatures f = some s ∧
      s.result = some ty ∧
      (∀ {sizes : Sizes}, g.Typed sizes → (Layout.ofSizes sizes).IsTemporary ty.storage t) ∧
      Appends g.program.quads g'.program.quads n ⟨.callAssign, some (.function f), none,
        some (.addr t)⟩ := by
  rw [apply, if_neg (not_not_intro rfl)] at h
  obtain ⟨f, r, ty, t, g₁, hf, hr, hty, htemporary, -, hafter⟩ := yields_pushCallResult h
  have hquads : g'.program.quads = g.program.quads.push ⟨.callAssign, some (.function f), none,
      some (.addr t)⟩ :=
    congrArg Control.quads hafter
  refine ⟨f, r.signature, ty, t, g.nextQuad, hf, signature_of_find? hr, hty, ?_, ?_⟩
  · intro sizes hg
    have hdropped : ({ g with finishedCall := none } : Generator).Typed sizes := { hg with }
    exact (upholds_temporary _ _ hdropped).2 t g₁ htemporary
  · rw [hquads]
    exact .of_changes (refl_of Changes g) _

/-- Only these events emit quads that depend on a signature. -/
theorem followsSignature_of_fresh {e : Event} (h : Yields (apply e) g u g') (hn : g.nextQuad ≤ n)
    (hq : g'.program.quads[n]? = some q) (hop : q.op.followsSignature = true) :
    e.followsSignature = true := by
  by_cases hparam : q.op = .param
  · exact (calls_apply h).followsSignature_of_param hn hq hparam
  · have hacts := control_apply h
    exact hacts.followsSignature_of_fresh (by rw [Control.quads_before]; exact hn) hq hop hparam

end Compile

/-! ## Where functions start -/

namespace Generator

/-- Functions start where they did, and new ones at the end of the code or after it. -/
structure StartsLater (g g' : Generator) : Prop where
  kept : ∀ (f : String) (s : Nat), g.control.starts f = some s → g'.control.starts f = some s
  later : ∀ (f : String) (s : Nat), g.control.starts f = none → g'.control.starts f = some s →
    g.nextQuad ≤ s
  size : g.nextQuad ≤ g'.nextQuad

instance : IsPreorder Generator StartsLater where
  refl g := by
    refine ⟨fun _ _ h => h, ?_, Nat.le_refl _⟩
    intro f s hnone hsome
    rw [hnone] at hsome
    cases hsome
  trans g₁ g₂ g₃ h₁ h₂ := by
    refine ⟨fun f s hs => h₂.kept f s (h₁.kept f s hs), ?_, Nat.le_trans h₁.size h₂.size⟩
    intro f s hnone hsome
    cases hmiddle : g₂.control.starts f with
    | none => exact Nat.le_trans h₁.size (h₂.later f s hmiddle hsome)
    | some s' =>
      cases (h₂.kept f s' hmiddle).symm.trans hsome
      exact h₁.later f s hnone hmiddle

end Generator

/-- Functions start where code ends, and nothing moves their starts. -/
theorem Compile.startsLater_apply {e : Event} (h : Yields (apply e) g u g') : g.StartsLater g' := by
  have hacts := control_apply h
  have hsize := hacts.repatched.size
  rw [Control.quads_before] at hsize
  rcases hacts.starts with hsame | ⟨id, hnew, hstarts⟩
  · rw [Control.starts_before] at hsame
    refine ⟨?_, ?_, hsize⟩
    · intro f s hs
      rw [hsame]
      exact hs
    · intro f s hnone hs
      rw [hsame, hnone] at hs
      cases hs
  · rw [Control.starts_before] at hnew hstarts
    rw [Control.quads_before] at hstarts
    refine ⟨?_, ?_, hsize⟩
    · intro f s hs
      have hne : f ≠ id := by
        rintro rfl
        rw [hnew] at hs
        cases hs
      rw [hstarts]
      exact (if_neg hne).trans hs
    · intro f s hnone hs
      rw [hstarts] at hs
      dsimp only at hs
      split at hs
      · cases hs
        exact Nat.le_refl _
      · rw [hnone] at hs
        cases hs

section

variable {sizes : Sizes} {threshold : Level} {events : List Event} {start g : Generator}
  {p : Program} {i n : Nat} (hstart : start = .ofSizes sizes threshold) (h : Accepts start events g)

include hstart h

/-- The open function starts at or before the quads that an event emits, and every other function
starts before it or after them. -/
theorem starts_of_emits (hemits : Emits start events i n) {f : String}
    (hf : (start.stage events i).currentFunction = some f)
    (hf' : (start.stage events (i + 1)).currentFunction = some f) :
    ∃ s, g.control.starts f = some s ∧ s ≤ n ∧
      ∀ f' s', g.control.starts f' = some s' → s' ≤ n → f' = f ∨ s' < s := by
  have hregions :
      ∀ j, ∃ s, Region (declaredFunctions (events.take j)) s (start.stage events j).control := by
    subst hstart
    exact fun j => region_of_accepts (h.take j)
  obtain ⟨s, hregion⟩ := hregions i
  obtain ⟨s', hregion'⟩ := hregions (i + 1)
  have hnext := h.stage_rel Compile.startsLater_apply (Nat.le_succ i)
  have hlast := h.stage_last_rel (fun hij => h.stage_rel Compile.startsLater_apply hij) (i + 1)
  have hlower := hemits.lower
  have hupper := hemits.upper
  have hle : s ≤ (start.stage events i).nextQuad := hregion.le
  have hkept := hnext.kept f s (hregion.start f hf)
  cases (hregion'.start f hf').symm.trans hkept
  refine ⟨s, hlast.kept f s hkept, by omega, ?_⟩
  intro f' t ht htn
  cases hknown : (start.stage events (i + 1)).control.starts f' with
  | none =>
    have hlater := hlast.later f' t hknown ht
    omega
  | some t' =>
    cases (hlast.kept f' t' hknown).symm.trans ht
    obtain ⟨closed, hids, hbodies⟩ := hregion'.bodies
    have hmem := (hregion'.known f').mp (by rw [hknown]; rfl)
    rw [hids, show (Generator.control _).currentFunction = some f from hf', Option.toList_some,
      List.mem_append, List.mem_singleton] at hmem
    rcases hmem with hmem | rfl
    · obtain ⟨t', ht', -, hlt⟩ := hbodies.start_isSome hmem
      cases hknown.symm.trans ht'
      exact Or.inr hlt
    · exact Or.inl rfl

/-- What an event emits is in the body of the open function. -/
theorem inBody_iff (hp : p.functions = g.program.functions) (hemits : Emits start events i n)
    {f : String} (hf : (start.stage events i).currentFunction = some f)
    (hf' : (start.stage events (i + 1)).currentFunction = some f) (f' : String) :
    p.InBody f' n ↔ f' = f := by
  obtain ⟨s, hs, hsn, hothers⟩ := starts_of_emits hstart h hemits hf hf'
  obtain ⟨r, hr, rfl⟩ := Option.map_eq_some_iff.mp hs
  have hfind : ∀ {f' r'}, p.functions.find? f' = some r' →
      g.control.starts f' = some r'.startQuad := by
    intro f' r' hr'
    rw [hp] at hr'
    exact Option.map_eq_some_iff.mpr ⟨r', hr', rfl⟩
  constructor
  · rintro ⟨r', hr', hle, hlatest⟩
    have hbefore := hlatest f r (hp ▸ hr) hsn
    refine (hothers f' _ (hfind hr') hle).resolve_right ?_
    omega
  · rintro rfl
    refine ⟨r, hp ▸ hr, hsn, ?_⟩
    intro f'' r'' hr'' hle
    rcases hothers f'' _ (hfind hr'') hle with rfl | hlt
    · rw [hp, hr] at hr''
      cases hr''
      exact Nat.le_refl _
    · omega

/-- The calls that are open in the code are those that the compiler has open. -/
theorem openCalls_of_accepts : openCalls g.program.quads g.nextQuad = g.calls := by
  subst hstart
  refine h.induction (P := fun _ g => openCalls g.program.quads g.nextQuad = g.calls) rfl ?_
  intro _ e g g' hnow happly
  exact (Compile.calls_apply happly).now (Compile.keepsCode_apply happly) hnow

end

/-! ## Quads that events emit agree with the signatures that the events suit -/

theorem typed_stage {sizes : Sizes} {threshold : Level} {start : Generator}
    (hstart : start = .ofSizes sizes threshold) (events : List Event) (i : Nat) :
    (start.stage events i).Typed sizes := by
  subst hstart
  exact (Generator.typed_ofSizes sizes threshold).stage events i

/-- The operand that is offered has the type that is recorded with it. -/
theorem Generator.Typed.offered {sizes : Sizes} (hg : g.Typed sizes) {e : Entry}
    (he : g.offered? = some e) : e.Typed (.ofSizes sizes) :=
  ((Compile.upholds_dropResult.bind fun _ _ => Compile.upholds_reduceAll) g hg).1.operands e
    (List.mem_of_mem_head? he)

section

variable {sizes : Sizes} {threshold : Level} {events : List Event} {start g : Generator}
  {p : Program} {i n : Nat}
  {q : Quad} (hstart : start = .ofSizes sizes threshold) (h : Accepts start events g)
    (hquads : p.quads = g.program.quads)

include hstart h hquads

/-- The one quad of an event that depends on a signature is in the program, with the calls open that
were open at the event. -/
theorem quad_of_appends (hadds : Appends (start.stage events i).program.quads
      (start.stage events (i + 1)).program.quads n q) (hop : q.op.followsSignature = true) :
    Emits start events i n ∧ p.quads[n]? = some q ∧
      openCalls p.quads n = (start.stage events i).calls := by
  have hn : n < (start.stage events (i + 1)).nextQuad :=
    (Array.getElem?_eq_some_iff.mp hadds.quad).1
  have hkept := h.last_keepsCode (i + 1)
  refine ⟨⟨hadds.lower, hn⟩, ?_, ?_⟩
  · rw [hquads]
    exact hkept.kept n q hadds.quad (Quad.not_isJump_of_followsSignature hop)
  · rw [hquads, hkept.openCalls (Nat.le_of_lt hn),
      hadds.openCalls (h.stage_keepsCode (Nat.le_succ i))]
    exact openCalls_of_accepts hstart (h.take i)

/-- What the event emits agrees with the signatures of the program when that quad does. -/
theorem agrees_iff_of_appends (hadds : Appends (start.stage events i).program.quads
      (start.stage events (i + 1)).program.quads n q) (hop : q.op.followsSignature = true) :
    (∀ n q, Emits start events i n → p.quads[n]? = some q → p.AgreesAt n q) ↔ p.AgreesAt n q := by
  obtain ⟨hemits, hquad, -⟩ := quad_of_appends hstart h hquads hadds hop
  constructor
  · intro hall
    exact hall n q hemits hquad
  · intro hagrees n' q' hemits' hquad'
    cases hop' : q'.op.followsSignature with
    | false => exact Program.agreesAt_of_not_followsSignature hop'
    | true =>
      rw [hquads, h.quad_iff hemits'.upper (Quad.not_isJump_of_followsSignature hop')] at hquad'
      cases hadds.only hemits'.lower hquad' hop'
      cases hadds.quad.symm.trans hquad'
      exact hagrees

variable (hfunctions : p.functions = g.program.functions) (hlayout : p.layout = .ofSizes sizes)

include hlayout in
theorem suits_pushCallArgument_iff (he : events[i]? = some (.pushCallArgument index)) :
    (start.stage events i).suits p.signature? (.pushCallArgument index) = true ↔
      ∀ n q, Emits start events i n → p.quads[n]? = some q → p.AgreesAt n q := by
  obtain ⟨argument, call, rest, -, -, n, hoffered, hcalls, rfl, -, -, -, hadds⟩ :=
    Compile.apply_pushCallArgument (h.stage he)
  obtain ⟨-, -, hopen⟩ := quad_of_appends hstart h hquads hadds rfl
  have htyped : argument.Typed p.layout := by
    rw [hlayout]
    exact (typed_stage hstart events i).offered hoffered
  rw [agrees_iff_of_appends hstart h hquads hadds rfl]
  simp only [Generator.suits, hcalls, hoffered, List.head?_cons, Option.any_some]
  constructor
  · intro hsuits
    obtain ⟨s, hs, hsuits⟩ := (Option.any_eq_true _ _).mp hsuits
    obtain ⟨ty, hty, hsuits⟩ := (Option.any_eq_true _ _).mp hsuits
    exact ⟨call, rest, s, ty, hopen.trans hcalls, rfl, hs, hty, (htyped.supplies_iff ty).mpr hsuits⟩
  · rintro ⟨call', rest', s, ty, hopen', -, hs, hty, hsupplies⟩
    cases (hopen.trans hcalls).symm.trans hopen'
    rw [hs, Option.any_some, hty, Option.any_some]
    exact (htyped.supplies_iff ty).mp hsupplies

theorem suits_endCall_iff (he : events[i]? = some .endCall) :
    (start.stage events i).suits p.signature? .endCall = true ↔
      ∀ n q, Emits start events i n → p.quads[n]? = some q → p.AgreesAt n q := by
  obtain ⟨call, rest, -, n, hcalls, -, -, hadds⟩ := Compile.apply_endCall (h.stage he)
  obtain ⟨-, -, hopen⟩ := quad_of_appends hstart h hquads hadds rfl
  rw [agrees_iff_of_appends hstart h hquads hadds rfl]
  simp only [Generator.suits, hcalls, List.head?_cons, Option.any_some]
  constructor
  · intro hsuits
    obtain ⟨s, hs, hpassed⟩ := (Option.any_eq_true _ _).mp hsuits
    exact ⟨call, rest, s, hopen.trans hcalls, rfl, hs, of_decide_eq_true hpassed⟩
  · rintro ⟨call', rest', s, hopen', -, hs, hpassed⟩
    cases (hopen.trans hcalls).symm.trans hopen'
    rw [hs, Option.any_some]
    exact decide_eq_true hpassed

include hlayout hfunctions in
theorem suits_returnValue_iff (he : events[i]? = some .returnValue) :
    (start.stage events i).suits p.signature? .returnValue = true ↔
      ∀ n q, Emits start events i n → p.quads[n]? = some q → p.AgreesAt n q := by
  obtain ⟨value, f, -, -, n, hoffered, hf, hf', -, -, -, hadds⟩ :=
    Compile.apply_returnValue (h.stage he)
  obtain ⟨hemits, -, -⟩ := quad_of_appends hstart h hquads hadds rfl
  have hbody := inBody_iff hstart h hfunctions hemits hf hf'
  have htyped : value.Typed p.layout := by
    rw [hlayout]
    exact (typed_stage hstart events i).offered hoffered
  rw [agrees_iff_of_appends hstart h hquads hadds rfl]
  simp only [Generator.suits, hf, hoffered, Option.any_some]
  constructor
  · intro hsuits
    obtain ⟨s, hs, hsuits⟩ := (Option.any_eq_true _ _).mp hsuits
    obtain ⟨ty, hty, hsuits⟩ := (Option.any_eq_true _ _).mp hsuits
    refine ⟨⟨f, (hbody f).mpr rfl⟩, ?_⟩
    intro f' hf'
    cases (hbody f').mp hf'
    exact ⟨s, ty, hs, hty, (htyped.supplies_iff ty).mpr hsuits⟩
  · rintro ⟨-, hall⟩
    obtain ⟨s, ty, hs, hty, hsupplies⟩ := hall f ((hbody f).mpr rfl)
    rw [hs, Option.any_some, hty, Option.any_some]
    exact (htyped.supplies_iff ty).mp hsupplies

include hlayout in
theorem suits_pushCallResult_iff (he : events[i]? = some .pushCallResult) :
    (start.stage events i).suits p.signature? .pushCallResult = true ↔
      ∀ n q, Emits start events i n → p.quads[n]? = some q → p.AgreesAt n q := by
  obtain ⟨f, s, ty, t, n, hfinished, hs, hty, htemporary, hadds⟩ :=
    Compile.apply_pushCallResult (h.stage he)
  have ht : p.layout.IsTemporary ty.storage t := by
    rw [hlayout]
    exact htemporary (typed_stage hstart events i)
  rw [agrees_iff_of_appends hstart h hquads hadds rfl]
  simp only [Generator.suits, hfinished, hs, hty, Option.any_some]
  constructor
  · intro hsuits
    obtain ⟨s', hs', hsuits⟩ := (Option.any_eq_true _ _).mp hsuits
    obtain ⟨ty', hty', hstorage⟩ := (Option.any_eq_true _ _).mp hsuits
    exact ⟨f, s', ty', t, rfl, hs', hty', rfl, of_decide_eq_true hstorage ▸ ht⟩
  · rintro ⟨f', s', ty', t', hf', hs', hty', hresult, ht'⟩
    cases hf'
    cases hresult
    rw [hs', Option.any_some, hty', Option.any_some]
    exact decide_eq_true (Option.some.inj (ht.2.symm.trans ht'.2))

include hlayout hfunctions in
/-- What an event emits agrees with the signatures of the program exactly when the event suits them.
-/
theorem suits_iff {e : Event} (he : events[i]? = some e) :
    (start.stage events i).suits p.signature? e = true ↔
      ∀ n q, Emits start events i n → p.quads[n]? = some q → p.AgreesAt n q := by
  cases hfollows : e.followsSignature with
  | true =>
    cases e with
    | pushCallArgument index => exact suits_pushCallArgument_iff hstart h hquads hlayout he
    | endCall => exact suits_endCall_iff hstart h hquads he
    | returnValue => exact suits_returnValue_iff hstart h hquads hfunctions hlayout he
    | pushCallResult => exact suits_pushCallResult_iff hstart h hquads hlayout he
    | _ => cases hfollows
  | false =>
    have hsuits : (start.stage events i).suits p.signature? e = true := by
      cases e with
      | pushCallArgument | endCall | returnValue | pushCallResult => cases hfollows
      | _ => rfl
    refine ⟨fun _ n q hemits hq => ?_, fun _ => hsuits⟩
    cases hop : q.op.followsSignature with
    | false => exact Program.agreesAt_of_not_followsSignature hop
    | true =>
      rw [hquads, h.quad_iff hemits.upper (Quad.not_isJump_of_followsSignature hop)] at hq
      rw [Compile.followsSignature_of_fresh (h.stage he) hemits.lower hq hop] at hfollows
      cases hfollows

end

end Quadruple
