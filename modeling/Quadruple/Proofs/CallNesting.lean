/-
  Calls nest in compiled code.

  A call site is an `ARE`, a `PARAM` for each argument and a `GOSUB`, and arguments may hold call
  sites of their own.  Read from the front, the quads before a position say which calls are open
  there and how many arguments each of them has been passed (`openCalls`); while the code is emitted
  that is what the compiler's stack of calls says:

      openCalls quads quads.size = calls

  A script may transfer control in the middle of a call site, or give a function another parameter
  after it was called, and its code then makes no sense.  `breaksCalls` reads off the events whether
  it does.  If it does not, then in its code no call is open at a jump, at the target of one, where
  a function starts or where it ends; each `PARAM` passes the argument that comes next; and each
  `GOSUB` belongs to the innermost open call, which has been passed all its arguments
  (`callsNest_of_compile`).
-/
import Quadruple.Proofs.Calling

namespace Quadruple

variable {q : Quad} {f : String} {quads quads₁ quads' : Array Quad} {n : Nat} {calls : List Call}
  {events : List Event}

/-! ## Open calls -/

/-- What a quad does to the calls that are open, innermost first. -/
def Quad.nest (q : Quad) (calls : List Call) : List Call :=
  match q.op with
  | .are =>
    match q.left with
    | some (.function f) => ⟨f, 0⟩ :: calls
    | _ => calls
  | .param =>
    match calls with
    | call :: rest => { call with passed := call.passed + 1 } :: rest
    | [] => []
  | .goSub => calls.tail
  | _ => calls

/-- The calls that are open before a quad. -/
def openCalls (quads : Array Quad) : Nat → List Call
  | 0 => []
  | n + 1 =>
    match quads[n]? with
    | some q => q.nest (openCalls quads n)
    | none => openCalls quads n

theorem Quad.nest_are (hop : q.op = .are) (hleft : q.left = some (.function f))
    (calls : List Call) : q.nest calls = ⟨f, 0⟩ :: calls := by
  unfold Quad.nest
  rw [hop, hleft]

theorem Quad.nest_param (hop : q.op = .param) (call : Call) (calls : List Call) :
    q.nest (call :: calls) = { call with passed := call.passed + 1 } :: calls := by
  rw [Quad.nest, hop]

theorem Quad.nest_goSub (hop : q.op = .goSub) (call : Call) (calls : List Call) :
    q.nest (call :: calls) = calls := by
  rw [Quad.nest, hop]
  rfl

theorem Quad.nest_of_isNeutral (h : q.op.isNeutral = true) (calls : List Call) :
    q.nest calls = calls := by
  unfold Quad.nest
  split
  · rename_i hop
    rw [hop] at h
    cases h
  · rename_i hop
    rw [hop] at h
    cases h
  · rename_i hop
    rw [hop] at h
    cases h
  · rfl

theorem Quad.isNeutral_of_isJump (h : q.isJump = true) : q.op.isNeutral = true := by
  simp only [Quad.isJump, Bool.or_eq_true, decide_eq_true_eq] at h
  rcases h with h | h
  · rw [h]
    rfl
  · rw [h]
    rfl

theorem Quad.isNeutral_of_ends (h : q.isJump = true ∨ q.op = .endFunc) : q.op.isNeutral = true := by
  rcases h with h | h
  · exact isNeutral_of_isJump h
  · rw [h]
    rfl

theorem openCalls_succ (h : quads[n]? = some q) :
    openCalls quads (n + 1) = q.nest (openCalls quads n) := by
  rw [openCalls, h]

/-- Quads that no call site is made of change nothing about what is open. -/
theorem openCalls_of_neutral {a : Nat} (han : a ≤ n)
    (h : ∀ (i : Nat) (q : Quad), a ≤ i → i < n → quads[i]? = some q → q.op.isNeutral = true) :
    openCalls quads n = openCalls quads a := by
  induction n with
  | zero =>
    have ha : a = 0 := by omega
    rw [ha]
  | succ n ih =>
    rcases Nat.lt_or_eq_of_le han with hlt | heq
    · have hbefore := ih (by omega) fun i q hai hin => h i q hai (by omega)
      rw [← hbefore, openCalls]
      split
      · rename_i q hq
        exact q.nest_of_isNeutral (h n q (by omega) (by omega) hq) _
      · rfl
    · rw [heq]

/-- Code was appended, and of the quads there were only jumps have changed. -/
structure Repatched (quads quads' : Array Quad) : Prop where
  size : quads.size ≤ quads'.size
  kept : ∀ (n : Nat) (q : Quad), quads[n]? = some q → q.isJump = false → quads'[n]? = some q
  old : ∀ (n : Nat) (q : Quad), n < quads.size → quads'[n]? = some q → q.isJump = true ∨
    quads[n]? = some q

namespace Repatched

variable {quads quads' : Array Quad}

theorem refl (quads : Array Quad) : Repatched quads quads :=
  ⟨Nat.le_refl _, fun _ _ hq _ => hq, fun _ _ _ hq => Or.inr hq⟩

/-- What stands where there was a jump is a jump. -/
theorem isJump_iff (h : Repatched quads quads') {q' : Quad} (hq : quads[n]? = some q)
    (hq' : quads'[n]? = some q') (hne : quads[n]? ≠ some q') :
    q.isJump = true ∧ q'.isJump = true := by
  have hn : n < quads.size := (Array.getElem?_eq_some_iff.mp hq).1
  have hold : q.isJump = true := by
    cases hjump : q.isJump with
    | true => rfl
    | false =>
      have hkept := h.kept n q hq hjump
      rw [hkept] at hq'
      cases hq'
      exact (hne hq).elim
  rcases h.old n q' hn hq' with hjump | hsame
  · exact ⟨hold, hjump⟩
  · exact (hne hsame).elim

theorem openCalls (h : Repatched quads quads') (hn : n ≤ quads.size) :
    openCalls quads' n = openCalls quads n := by
  induction n with
  | zero => rfl
  | succ n ih =>
    have hsize := h.size
    have hq : quads[n]? = some quads[n] := Array.getElem?_eq_getElem (by omega)
    have hq' : quads'[n]? = some quads'[n] := Array.getElem?_eq_getElem (by omega)
    rw [openCalls_succ hq, openCalls_succ hq', ih (by omega)]
    by_cases hsame : quads[n]? = some quads'[n]
    · have heq : quads[n] = quads'[n] := Option.some.inj (hq.symm.trans hsame)
      rw [heq]
    · obtain ⟨hjump, hjump'⟩ := h.isJump_iff hq hq' hsame
      rw [Quad.nest_of_isNeutral (Quad.isNeutral_of_isJump hjump),
        Quad.nest_of_isNeutral (Quad.isNeutral_of_isJump hjump')]

end Repatched

/-! ## Control and open calls -/

namespace Control

variable {e : Event} {c c' : Control}

theorem Acts.repatched (h : Acts e c c') : Repatched c.quads c'.quads := by
  by_cases hclaim : e = .pushCallResult
  · subst hclaim
    cases h with
    | straight hplain => cases hplain
    | claims =>
      refine ⟨by simp, fun n q hq _ => Tame.getElem?_push_of_some hq, ?_⟩
      intro n q hn hq
      rcases Tame.getElem?_push_cases hq with hq | ⟨rfl, -⟩
      · exact Or.inr hq
      · omega
  · have htame := h.tame hclaim
    exact ⟨htame.size, htame.kept, htame.old⟩

theorem marked_before (c : Control) (e : Event) (t : Nat) : (c.before e).Marked t ↔ c.Marked t := by
  unfold before
  split
  · rfl
  · rfl

theorem quads_before (c : Control) (e : Event) : (c.before e).quads = c.quads := by
  unfold before
  split
  · rfl
  · rfl

theorem currentFunction_before (c : Control) (e : Event) :
    (c.before e).currentFunction = c.currentFunction := by
  unfold before
  split
  · rfl
  · rfl

end Control

/-- An event of a conditional, of a loop or of a return. -/
def Event.transfersControl : Event → Bool
  | openConditional | elseBranch | closeConditional | saveLoopStart | setLoopCondition | closeLoop
  | returnValue
  | returnVoid => true
  | _ => false

namespace Control

variable {e : Event} {c c' : Control}

/-- No mark is made without a jump, a loop or a function. -/
theorem Marked.of_fresh {t : Nat} (h : c'.Marked t)
    (hquads : ∀ (n : Nat) (q : Quad), c'.quads[n]? = some q → q.isJump = true →
      c.quads[n]? = some q)
    (hloops : c'.loops = c.loops) (hstarts : c'.starts = c.starts) : c.Marked t := by
  rcases h with ⟨n, q, hq, htarget⟩ | ⟨l, hl, hstart⟩ | ⟨id, hid⟩
  · exact Or.inl ⟨n, q, hquads n q hq (isJump_of_jumpTarget? htarget), htarget⟩
  · exact Or.inr (Or.inl ⟨l, hloops ▸ hl, hstart⟩)
  · exact Or.inr (Or.inr ⟨id, hstarts ▸ hid⟩)

/-- Of plain quads none is a jump or ends a function. -/
theorem of_grown (h : Grown quads quads') (hq : quads'[n]? = some q) :
    quads[n]? = some q ∨ quads.size ≤ n ∧ q.isJump = false ∧ q.op ≠ .endFunc := by
  rcases Nat.lt_or_ge n quads.size with hlt | hge
  · exact Or.inl (h.kept n hlt ▸ hq)
  · have hplain := h.plain n q hge hq
    refine Or.inr ⟨hge, isJump_of_isPlain hplain, ?_⟩
    intro hop
    rw [hop] at hplain
    cases hplain

/-- An event that has nothing to do with jumps and the ends of functions changes no quad, and
appends none of these. -/
theorem Acts.quiet_quads (h : Acts e c c') (he : e.transfersControl = false)
    (hend : e ≠ .endFunction) (hq : c'.quads[n]? = some q) :
    c.quads[n]? = some q ∨ c.quads.size ≤ n ∧ q.isJump = false ∧ q.op ≠ .endFunc := by
  cases h with
  | straight _ hgrown => exact of_grown hgrown hq
  | opens => exact Or.inl hq
  | closes => exact (hend rfl).elim
  | calls _ hgrown =>
    have hsize := hgrown.size
    rcases Tame.getElem?_push_cases hq with hq | ⟨rfl, rfl⟩
    · exact of_grown hgrown hq
    · exact Or.inr ⟨hsize, rfl, Opcode.noConfusion⟩
  | claims =>
    rcases Tame.getElem?_push_cases hq with hq | ⟨rfl, rfl⟩
    · exact Or.inl hq
    · exact Or.inr ⟨Nat.le_refl _, rfl, Opcode.noConfusion⟩
  | _ => cases he

/-- Nor does it mark anything, unless it opens a function. -/
theorem Acts.quiet_marks (h : Acts e c c') (he : e.transfersControl = false)
    (hend : e ≠ .endFunction) (hopen : ∀ id, e ≠ .declareFunction id) {t : Nat} (ht : c'.Marked t) :
    c.Marked t := by
  have hjumps : ∀ (n : Nat) (q : Quad), c'.quads[n]? = some q → q.isJump = true →
      c.quads[n]? = some q := by
    intro n q hq hjump
    rcases h.quiet_quads he hend hq with hold | ⟨-, hnot, -⟩
    · exact hold
    · rw [hnot] at hjump
      cases hjump
  cases h with
  | straight | calls | claims => exact ht.of_fresh hjumps rfl rfl
  | opens => exact (hopen _ rfl).elim
  | closes => exact (hend rfl).elim
  | _ => cases he

/-- The open function stays open until its end, unless one is opened. -/
theorem Acts.currentFunction (h : Acts e c c') (hopen : ∀ id, e ≠ .declareFunction id) :
    c'.currentFunction = c.currentFunction ∨ e = .endFunction ∧ c'.currentFunction = none := by
  cases h with
  | opens => exact (hopen _ rfl).elim
  | closes => exact Or.inr ⟨rfl, rfl⟩
  | _ => exact Or.inl rfl

end Control

/-! ## Scripts that keep call sites whole -/

/-- What a script has done with its calls. -/
structure CallHistory where
  /-- How many calls are open. -/
  depth : Nat
  /-- A call was opened since the last function was declared. -/
  called : Bool
  /-- Control was transferred while a call was open, or a parameter declared after a call was opened
  in the body. -/
  broken : Bool
deriving DecidableEq

namespace CallHistory

def initial : CallHistory := ⟨0, false, false⟩

def read (h : CallHistory) : Event → CallHistory
  | .callFunction _ => { h with depth := h.depth + 1, called := true }
  | .endCall => { h with depth := h.depth - 1 }
  | .declareFunction _ => { h with called := false }
  | .declareParam _ _ => { h with broken := h.broken || h.called }
  | e => { h with broken := h.broken || (e.transfersControl && h.depth != 0) }

end CallHistory

/-- Somewhere in the script control is transferred while a call is open, or a function is given a
parameter after its body has opened a call. -/
def breaksCalls (events : List Event) : Bool := (events.foldl CallHistory.read .initial).broken

/-! ## What holds all through a compilation -/

/-- The quad is where it should be, with these calls open before it. -/
structure Quad.Nests (params : String → Option (List TypeName × List Nat)) (q : Quad)
    (calls : List Call) : Prop where
  pass : q.op = .param →
    ∃ call rest, calls = call :: rest ∧ q.result = some (.immediate call.passed)
  transfer : q.op = .goSub → ∃ call rest types addresses, calls = call :: rest ∧
    q.left = some (.function call.function) ∧ params call.function = some (types, addresses) ∧
    call.passed = types.length
  apart : q.isJump = true ∨ q.op = .endFunc → calls = []

theorem Quad.nests_of_neutral (h : q.op.isNeutral = true)
    {params : String → Option (List TypeName × List Nat)}
    (hcalls : q.isJump = true ∨ q.op = .endFunc → calls = []) : q.Nests params calls := by
  refine ⟨?_, ?_, hcalls⟩
  · intro hop
    rw [hop] at h
    cases h
  · intro hop
    rw [hop] at h
    cases h

/-- Open calls are those of the compiler, and all quads are where they should be. -/
structure Nested (k : Calling) (c : Control) : Prop where
  pool : k.pool.Valid k.sizes
  params : ∀ f types addresses, k.params f = some (types, addresses) →
    List.Forall₂ (fun ty a => Located k.sizes a .locals ty.storage) types addresses
  now : openCalls k.quads k.quads.size = k.calls
  idle : k.currentFunction = none → k.calls = []
  code : ∀ (n : Nat) (q : Quad), k.quads[n]? = some q → q.Nests k.params (openCalls k.quads n)
  marks : ∀ t, c.Marked t → t ≤ k.quads.size ∧ openCalls k.quads t = []

/-- The history counts the open calls, and says whether the open function can have been called. -/
structure CallHistory.Describes (h : CallHistory) (k : Calling) : Prop where
  depth : h.depth = k.calls.length
  unopened : h.called = false → k.calls = []
  uncalled : h.called = false → ∀ f, k.currentFunction = some f → ∀ (n : Nat) (q : Quad),
    k.quads[n]? = some q → q.op = .goSub → q.left ≠ some (.function f)

/-- What is open at the end of the code stays open while the code is padded. -/
theorem openCalls_of_padded (hrepatched : Repatched quads quads') (hpadded : Padded quads quads₁)
    (hsame : ∀ n, n < quads₁.size → quads'[n]? = quads₁[n]?) (hlo : quads.size ≤ n)
    (hhi : n ≤ quads₁.size) : openCalls quads' n = openCalls quads quads.size := by
  rw [← hrepatched.openCalls (Nat.le_refl _)]
  refine openCalls_of_neutral hlo ?_
  intro i q hi hin hq
  rw [hsame i (by omega)] at hq
  exact hpadded.fresh i q hi hq

/-- The same up to a quad that is appended after that. -/
theorem openCalls_before_push (hrepatched : Repatched quads (quads₁.push q))
    (hpadded : Padded quads quads₁) (hlo : quads.size ≤ n) (hhi : n ≤ quads₁.size) :
    openCalls (quads₁.push q) n = openCalls quads quads.size := by
  refine openCalls_of_padded hrepatched hpadded ?_ hlo hhi
  intro i hi
  rw [Array.getElem?_push_lt hi, ← Array.getElem?_eq_getElem hi]

theorem openCalls_push (hrepatched : Repatched quads (quads₁.push q))
    (hpadded : Padded quads quads₁) :
    openCalls (quads₁.push q) (quads₁.push q).size = q.nest (openCalls quads quads.size) := by
  rw [Array.size_push, openCalls_succ Array.getElem?_push_size,
    openCalls_before_push hrepatched hpadded hpadded.size (Nat.le_refl _)]

/-- While code is emitted the calls that are open at its end are those that the compiler has open.
-/
theorem Calls.now {e : Event} {k k' : Calling} (h : Calls e k k')
    (hrepatched : Repatched k.quads k'.quads) (hnow : openCalls k.quads k.quads.size = k.calls) :
    openCalls k'.quads k'.quads.size = k'.calls := by
  cases h with
  | keeps _ hkept =>
    rw [openCalls_of_padded hrepatched hkept.code (fun _ _ => rfl) hkept.code.size (Nat.le_refl _),
      hnow, hkept.calls]
  | reserves =>
    rw [openCalls_push hrepatched (.refl _), hnow]
    rfl
  | passes hcalls hkept =>
    rw [openCalls_push hrepatched hkept.code, hnow, hcalls]
    rfl
  | transfers hcalls _ _ hkept =>
    rw [openCalls_push hrepatched hkept.code, hnow, hcalls]
    rfl
  | opens => exact hnow
  | declares => exact hnow

namespace Nested

variable {k k' : Calling} {c c' : Control}

/-- The quads there were stay where they should be, as long as the parameters of functions that are
called stay. -/
theorem extend (h : Nested k c) (hsizes : k'.sizes = k.sizes) (hpool : k'.pool.Valid k.sizes)
    (hparams : ∀ f types addresses, k'.params f = some (types, addresses) →
      List.Forall₂ (fun ty a => Located k.sizes a .locals ty.storage) types addresses)
    (hquads : Repatched k.quads k'.quads)
    (hcalled : ∀ (n : Nat) (q : Quad) (f : String), k.quads[n]? = some q → q.op = .goSub →
      q.left = some (.function f) → k'.params f = k.params f)
    (hnow : openCalls k'.quads k'.quads.size = k'.calls)
    (hidle : k'.currentFunction = none → k'.calls = [])
    (hfresh : ∀ (n : Nat) (q : Quad), k.quads.size ≤ n → k'.quads[n]? = some q →
      q.Nests k'.params (openCalls k'.quads n))
    (hmarks : ∀ t, c'.Marked t → c.Marked t ∨ t ≤ k'.quads.size ∧ openCalls k'.quads t = []) :
    Nested k' c' := by
  refine ⟨hsizes ▸ hpool, ?_, hnow, hidle, ?_, ?_⟩
  · intro f types addresses hf
    rw [hsizes]
    exact hparams f types addresses hf
  · intro n q' hq'
    rcases Nat.lt_or_ge n k.quads.size with hlt | hge
    · have hq : k.quads[n]? = some k.quads[n] := Array.getElem?_eq_getElem hlt
      rw [hquads.openCalls (by omega)]
      by_cases hsame : k.quads[n]? = some q'
      · obtain ⟨hpass, htransfer, hapart⟩ := h.code n q' hsame
        refine ⟨hpass, ?_, hapart⟩
        intro hop
        obtain ⟨call, rest, types, addresses, hcalls, hleft, hknown, hpassed⟩ := htransfer hop
        exact ⟨call, rest, types, addresses, hcalls, hleft,
          (hcalled n q' call.function hsame hop hleft).trans hknown, hpassed⟩
      · -- a jump with another target
        obtain ⟨hjump, hjump'⟩ := hquads.isJump_iff hq hq' hsame
        exact Quad.nests_of_neutral (Quad.isNeutral_of_isJump hjump') fun _ =>
          (h.code n _ hq).apart (Or.inl hjump)
    · exact hfresh n q' hge hq'
  · intro t ht
    rcases hmarks t ht with hold | hnew
    · obtain ⟨hle, hopen⟩ := h.marks t hold
      have hsize := hquads.size
      exact ⟨by omega, (hquads.openCalls hle).trans hopen⟩
    · exact hnew

end Nested

/-! ## One event -/

/-- The two are parts of one state. -/
structure Calling.Beside (k : Calling) (c : Control) : Prop where
  quads : c.quads = k.quads
  currentFunction : c.currentFunction = k.currentFunction

/-- An event that has nothing to do with jumps and the ends of functions. -/
def Event.Quiet (e : Event) : Prop := e.transfersControl = false ∧ e ≠ .endFunction

/-- What such an event appends and no call site is made of may stand anywhere. -/
theorem Control.Acts.nests {e : Event} {c c' : Control} (h : Acts e c c') (he : e.Quiet)
    (hn : c.quads.size ≤ n) (hq : c'.quads[n]? = some q) (hneutral : q.op.isNeutral = true)
    (params : String → Option (List TypeName × List Nat)) (calls : List Call) :
    q.Nests params calls := by
  refine Quad.nests_of_neutral hneutral fun hends => ?_
  rcases h.quiet_quads he.1 he.2 hq with hold | ⟨-, hjump, hend⟩
  · rw [Array.getElem?_eq_none hn] at hold
    cases hold
  · rcases hends with hends | hends
    · rw [hjump] at hends
      cases hends
    · exact (hend hends).elim

namespace Nested

variable {k k₁ k' : Calling} {c c' : Control} {e : Event}

/-- An event that does nothing to open calls, and has to do with jumps or the end of the function
only where none is open. -/
theorem keeps (h : Nested k c) (hacts : Control.Acts e c c') (hbeside : k.Beside c)
    (hbeside' : k'.Beside c') (he : e.keepsCalls = true) (hclear : ¬ e.Quiet → k.calls = [])
    (hkept : k.Keeps k') : Nested k' c' := by
  have hopen : ∀ id, e ≠ .declareFunction id := by
    rintro id rfl
    cases he
  have hrepatched : Repatched k.quads k'.quads := hbeside.quads ▸ hbeside'.quads ▸ hacts.repatched
  have hflat : ∀ n, k.quads.size ≤ n → n ≤ k'.quads.size → openCalls k'.quads n = k.calls := by
    intro n hlo hhi
    exact (openCalls_of_padded hrepatched hkept.code (fun _ _ => rfl) hlo hhi).trans h.now
  refine h.extend hkept.sizes (hkept.pool h.pool) (hkept.params ▸ h.params) hrepatched
    (fun _ _ _ _ _ _ => by rw [hkept.params]) ?_ ?_ ?_ ?_
  · rw [hflat _ hkept.code.size (Nat.le_refl _), hkept.calls]
  · intro hnone
    rw [hkept.calls]
    rcases hacts.currentFunction hopen with hsame | ⟨hend, -⟩
    · exact h.idle (by rw [← hbeside.currentFunction, ← hsame, hbeside'.currentFunction, hnone])
    · exact hclear fun hquiet => hquiet.2 hend
  · intro n q hn hq
    have hlt : n < k'.quads.size := (Array.getElem?_eq_some_iff.mp hq).1
    have hneutral := hkept.code.fresh n q hn hq
    rw [hflat n hn (by omega)]
    by_cases hquiet : e.Quiet
    · exact hacts.nests hquiet (hbeside.quads ▸ hn) (hbeside'.quads ▸ hq) hneutral _ _
    · exact Quad.nests_of_neutral hneutral fun _ => hclear hquiet
  · intro t ht
    by_cases hquiet : e.Quiet
    · exact Or.inl (hacts.quiet_marks hquiet.1 hquiet.2 hopen ht)
    · have hclaim : e ≠ .pushCallResult := by
        rintro rfl
        exact hquiet ⟨rfl, Event.noConfusion⟩
      rcases (hacts.tame hclaim).marks t ht with hold | ⟨hlo, hhi⟩
      · exact Or.inl hold
      · rw [hbeside.quads] at hlo
        rw [hbeside'.quads] at hhi
        exact Or.inr ⟨hhi, (hflat t hlo hhi).trans (hclear hquiet)⟩

/-- An event that appends a quad of a call site, after quads that no call site is made of. -/
theorem appends (h : Nested k c) (hacts : Control.Acts e c c') (hbeside : k.Beside c)
    (hquiet : e.Quiet) (hopen : ∀ id, e ≠ .declareFunction id) (hkept : k.Keeps k₁)
    (hbeside' : { k₁ with quads := k₁.quads.push q, calls := calls : Calling }.Beside c')
    (hnests : q.Nests k.params k.calls) (hcalls : q.nest k.calls = calls)
    (hidle : k.currentFunction = none → calls = []) :
    Nested { k₁ with quads := k₁.quads.push q, calls := calls } c' := by
  have hrepatched : Repatched k.quads (k₁.quads.push q) := by
    have hacts := hacts.repatched
    rwa [hbeside.quads, hbeside'.quads] at hacts
  have hflat : ∀ n, k.quads.size ≤ n → n ≤ k₁.quads.size →
      openCalls (k₁.quads.push q) n = k.calls := by
    intro n hlo hhi
    exact (openCalls_before_push hrepatched hkept.code hlo hhi).trans h.now
  have hsize := hkept.code.size
  refine h.extend hkept.sizes (hkept.pool h.pool) (hkept.params ▸ h.params) hrepatched
    (fun _ _ f _ _ _ => congrFun hkept.params f) ?_ ?_ ?_ ?_
  · show openCalls (k₁.quads.push q) (k₁.quads.push q).size = calls
    rw [openCalls_push hrepatched hkept.code, h.now, hcalls]
  · intro hnone
    rcases hacts.currentFunction hopen with hsame | ⟨hend, -⟩
    · refine hidle ?_
      rw [← hbeside.currentFunction, ← hsame, hbeside'.currentFunction]
      exact hnone
    · exact (hquiet.2 hend).elim
  · intro n p hn hp
    rcases Control.Tame.getElem?_push_cases hp with hp' | ⟨rfl, rfl⟩
    · have hneutral := hkept.code.fresh n p hn hp'
      exact hacts.nests hquiet (hbeside.quads ▸ hn) (by rw [hbeside'.quads]; exact hp) hneutral _ _
    · show p.Nests k₁.params (openCalls (k₁.quads.push p) k₁.quads.size)
      have hparams : k₁.params = k.params := hkept.params
      rw [hflat _ hsize (Nat.le_refl _), hparams]
      exact hnests
  · intro t ht
    exact Or.inl (hacts.quiet_marks hquiet.1 hquiet.2 hopen ht)

/-- A function that is called has been declared. -/
theorem params_ne_none (h : Nested k c) (hq : k.quads[n]? = some q) (hop : q.op = .goSub)
    (hleft : q.left = some (.function f)) : k.params f ≠ none := by
  obtain ⟨call, rest, types, addresses, -, hcalled, hparams, -⟩ := (h.code n q hq).transfer hop
  rw [hleft] at hcalled
  cases hcalled
  rw [hparams]
  exact Option.some_ne_none _

/-- The parameters of functions that are called stay, and there is no new code. -/
theorem redeclares (h : Nested k c) {pool : Pool}
    {params : String → Option (List TypeName × List Nat)} {current : Option String}
    (hpool : pool.Valid k.sizes)
    (hparams : ∀ f types addresses, params f = some (types, addresses) →
      List.Forall₂ (fun ty a => Located k.sizes a .locals ty.storage) types addresses)
    (hcalled : ∀ (n : Nat) (q : Quad) (f : String), k.quads[n]? = some q → q.op = .goSub →
      q.left = some (.function f) → params f = k.params f)
    (hidle : current = none → k.calls = [])
    (hmarks : ∀ t, c'.Marked t → c.Marked t ∨ t = k.quads.size ∧ k.calls = []) :
    Nested { k with pool := pool, params := params, currentFunction := current } c' := by
  refine h.extend rfl hpool hparams (.refl _) hcalled h.now hidle ?_ ?_
  · intro n q hn hq
    have hlt : n < k.quads.size := (Array.getElem?_eq_some_iff.mp hq).1
    omega
  · intro t ht
    rcases hmarks t ht with hold | ⟨rfl, hnone⟩
    · exact Or.inl hold
    · exact Or.inr ⟨Nat.le_refl _, h.now.trans hnone⟩

theorem opens {id : String} (h : Nested k c) (hacts : Control.Acts (.declareFunction id) c c')
    (hbeside : k.Beside c) (hnew : k.params id = none) :
    Nested { k with
      params := fun j => if j = id then some ([], []) else k.params j
      currentFunction := some id } c' := by
  cases hacts with
  | straight hplain => cases hplain
  | opens hnone hfresh =>
    refine h.redeclares h.pool ?_ ?_ nofun ?_
    · intro f types addresses hf
      split at hf
      · cases hf
        exact .nil
      · exact h.params f types addresses hf
    · intro n q f hq hop hleft
      exact if_neg fun (hf : f = id) => h.params_ne_none hq hop hleft (hf ▸ hnew)
    · rintro t (hjump | hloop | ⟨j, hj⟩)
      · exact Or.inl (Or.inl hjump)
      · exact Or.inl (Or.inr (Or.inl hloop))
      · dsimp only at hj
        split at hj
        · cases hj
          exact Or.inr ⟨congrArg Array.size hbeside.quads, h.idle (hbeside.currentFunction ▸ hnone)⟩
        · exact Or.inl (Or.inr (Or.inr ⟨j, hj⟩))

/-- A parameter of a function that has not been called. -/
theorem declares {id : String} {ty : TypeName} {a : Nat} {pool : Pool} {types : List TypeName}
    {addresses : List Nat} (h : Nested k c) (hacts : Control.Acts (.declareParam id ty) c c')
    (hparams : k.params f = some (types, addresses))
    (htakes : k.pool.allocate ty.storage .locals = .ok (a, pool))
    (huncalled : ∀ (n : Nat) (q : Quad), k.quads[n]? = some q → q.op = .goSub →
      q.left ≠ some (.function f)) :
    Nested { k with
      pool := pool
      params := fun j => if j = f then some (types ++ [ty], addresses ++ [a])
        else k.params j } c' := by
  have hallocated := h.pool.allocate htakes
  refine h.redeclares hallocated.valid ?_ ?_ h.idle ?_
  · intro j types' addresses' hj
    split at hj
    · cases hj
      exact List.rel_append (h.params f types addresses hparams) (.cons hallocated.located .nil)
    · exact h.params j types' addresses' hj
  · intro n q j hq hop hleft
    exact if_neg fun (hj : j = f) => huncalled n q hq hop (hj ▸ hleft)
  · intro t ht
    exact Or.inl (hacts.quiet_marks rfl Event.noConfusion (fun _ => Event.noConfusion) ht)

end Nested

namespace CallHistory

variable {h : CallHistory} {k k' : Calling} {c c' : Control} {e : Event}

theorem broken_of_read (hbroken : (h.read e).broken = false) : h.broken = false := by
  cases e with
  | callFunction | endCall | declareFunction => exact hbroken
  | _ => exact (Bool.or_eq_false_iff.mp hbroken).1

theorem depth_of_read (he : e.transfersControl = true) (hbroken : (h.read e).broken = false) :
    h.depth = 0 := by
  have hread : (h.read e).broken = (h.broken || (e.transfersControl && h.depth != 0)) := by
    cases e with
    | callFunction | endCall | declareFunction | declareParam => cases he
    | _ => rfl
  rw [hread, he] at hbroken
  simpa using (Bool.or_eq_false_iff.mp hbroken).2

theorem read_of_keepsCalls (he : e.keepsCalls = true) :
    (h.read e).depth = h.depth ∧ (h.read e).called = h.called := by
  cases e with
  | callFunction | endCall | declareFunction | declareParam => cases he
  | _ => exact ⟨rfl, rfl⟩

/-- No call of a function appears among quads that no call site is made of. -/
theorem uncalled_of_padded (hrepatched : Repatched quads quads') (hpadded : Padded quads quads')
    (h : ∀ (n : Nat) (q : Quad), quads[n]? = some q → q.op = .goSub → q.left ≠ some (.function f))
    (n : Nat) (q : Quad) (hq : quads'[n]? = some q) (hop : q.op = .goSub) :
    q.left ≠ some (.function f) := by
  rcases Nat.lt_or_ge n quads.size with hlt | hge
  · rcases hrepatched.old n q hlt hq with hjump | hsame
    · have hneutral := Quad.isNeutral_of_isJump hjump
      rw [hop] at hneutral
      cases hneutral
    · exact h n q hsame hop
  · have hneutral := hpadded.fresh n q hge hq
    rw [hop] at hneutral
    cases hneutral

theorem Describes.called_ne_false (hd : h.Describes k) {call : Call} {rest : List Call}
    (hopen : k.calls = call :: rest) : h.called ≠ false := by
  intro hfalse
  cases hopen.symm.trans (hd.unopened hfalse)

/-- One event more. -/
theorem Describes.step (hd : h.Describes k) (hn : Nested k c) (hcalls : Calls e k k')
    (hacts : Control.Acts e c c') (hbeside : k.Beside c) (hbeside' : k'.Beside c') :
    (h.read e).Describes k' := by
  cases hcalls with
  | keeps he hkept =>
    have hopen : ∀ id, e ≠ .declareFunction id := by
      rintro id rfl
      cases he
    obtain ⟨hdepth, hcalled⟩ := read_of_keepsCalls (h := h) he
    refine ⟨?_, ?_, ?_⟩
    · rw [hdepth, hkept.calls, hd.depth]
    · intro hfalse
      rw [hkept.calls]
      exact hd.unopened (hcalled ▸ hfalse)
    · intro hfalse f hf
      have hrepatched : Repatched k.quads k'.quads :=
        hbeside.quads ▸ hbeside'.quads ▸ hacts.repatched
      refine uncalled_of_padded hrepatched hkept.code (hd.uncalled (hcalled ▸ hfalse) f ?_)
      rw [← hbeside'.currentFunction] at hf
      rw [← hbeside.currentFunction]
      rcases hacts.currentFunction hopen with hsame | ⟨-, hnone⟩
      · exact hsame ▸ hf
      · rw [hnone] at hf
        cases hf
  | reserves => exact ⟨congrArg (· + 1) hd.depth, nofun, nofun⟩
  | @passes _ _ _ rest _ hopen =>
    have hcalled := hd.called_ne_false hopen
    refine ⟨?_, fun hfalse => (hcalled hfalse).elim, fun hfalse => (hcalled hfalse).elim⟩
    show h.depth = rest.length + 1
    rw [hd.depth, hopen, List.length_cons]
  | @transfers _ _ _ rest _ _ hopen =>
    have hcalled := hd.called_ne_false hopen
    refine ⟨?_, fun hfalse => (hcalled hfalse).elim, fun hfalse => (hcalled hfalse).elim⟩
    show h.depth - 1 = rest.length
    rw [hd.depth, hopen, List.length_cons, Nat.add_sub_cancel]
  | opens hnew =>
    cases hacts with
    | straight hplain => cases hplain
    | opens hnone =>
      refine ⟨hd.depth, fun _ => hn.idle (hbeside.currentFunction ▸ hnone), ?_⟩
      intro _ f hf n q hq hop hleft
      cases hf
      exact hn.params_ne_none hq hop hleft hnew
  | declares => exact ⟨hd.depth, hd.unopened, hd.uncalled⟩

/-- What one event keeps, if the script is not broken by it. -/
theorem Describes.nested (hd : h.Describes k) (hn : Nested k c) (hcalls : Calls e k k')
    (hacts : Control.Acts e c c') (hbeside : k.Beside c) (hbeside' : k'.Beside c')
    (hend : e = .endFunction → k.calls = []) (hbroken : (h.read e).broken = false) :
    Nested k' c' := by
  cases hcalls with
  | keeps he hkept =>
    refine hn.keeps hacts hbeside hbeside' he (fun hloud => ?_) hkept
    by_cases htransfer : e.transfersControl = true
    · have hdepth := depth_of_read htransfer hbroken
      rw [hd.depth] at hdepth
      exact List.eq_nil_of_length_eq_zero hdepth
    · refine hend (by_contra fun hne => hloud ⟨?_, hne⟩)
      exact Bool.not_eq_true _ ▸ htransfer
  | reserves hopen =>
    refine hn.appends hacts hbeside ⟨rfl, Event.noConfusion⟩ (fun _ => Event.noConfusion) (.refl k)
      hbeside' ?_ rfl
      (fun hnone => (hopen hnone).elim)
    exact ⟨nofun, nofun, fun hends => nomatch Quad.isNeutral_of_ends hends⟩
  | passes hopen hkept =>
    refine hn.appends hacts hbeside ⟨rfl, Event.noConfusion⟩ (fun _ => Event.noConfusion) hkept
      hbeside' ?_ ?_ ?_
    · exact ⟨fun _ => ⟨_, _, hopen, rfl⟩, nofun, fun hends => nomatch Quad.isNeutral_of_ends hends⟩
    · rw [hopen]
      rfl
    · intro hnone
      cases hopen.symm.trans (hn.idle hnone)
  | transfers hopen hparams hpassed hkept =>
    refine hn.appends hacts hbeside ⟨rfl, Event.noConfusion⟩ (fun _ => Event.noConfusion) hkept
      hbeside' ?_ ?_ ?_
    · exact ⟨nofun, fun _ => ⟨_, _, _, _, hopen, rfl, hparams, hpassed⟩, fun hends =>
        nomatch Quad.isNeutral_of_ends hends⟩
    · rw [hopen]
      rfl
    · intro hnone
      cases hopen.symm.trans (hn.idle hnone)
  | opens hnew => exact hn.opens hacts hbeside hnew
  | declares hopen hparams htakes =>
    have hcalled : h.called = false := (Bool.or_eq_false_iff.mp hbroken).2
    exact hn.declares hacts hparams htakes (hd.uncalled hcalled _ hopen)

/-! ## Whole scripts -/

theorem describes_initial (sizes : Sizes) (threshold : Level) :
    initial.Describes (Generator.ofSizes sizes threshold).calling := by
  refine ⟨rfl, fun _ => rfl, ?_⟩
  intro _ f hf
  cases hf

end CallHistory

theorem nested_initial (sizes : Sizes) (threshold : Level) :
    Nested (Generator.ofSizes sizes threshold).calling
      (Generator.ofSizes sizes threshold).control := by
  refine ⟨Pool.valid_ofLayout sizes, ?_, rfl, fun _ => rfl, ?_, ?_⟩
  · intro f types addresses hf
    cases hf
  · intro n q hq
    cases hq
  · rintro t (⟨n, q, hq, -⟩ | ⟨l, hl, -⟩ | ⟨id, hid⟩)
    · cases hq
    · cases hl
    · cases hid

theorem Nested.before {k : Calling} {c : Control} (h : Nested k c) (e : Event) :
    Nested k (c.before e) :=
  { h with marks := fun t ht => h.marks t ((c.marked_before e t).mp ht) }

/-- Calls are nested after every accepted script that leaves none open where control is transferred.
-/
theorem nested_of_accepts {sizes : Sizes} {threshold : Level} {g : Generator}
    (h : Accepts (.ofSizes sizes threshold) events g) (hcalls : breaksCalls events = false) :
    Nested g.calling g.control := by
  have hwhole :=
    h.induction (P := fun done g => (done.foldl CallHistory.read .initial).broken = false →
    (done.foldl CallHistory.read .initial).Describes g.calling ∧ Nested g.calling g.control) ?_ ?_
  · exact (hwhole hcalls).2
  · exact fun _ => ⟨CallHistory.describes_initial sizes threshold, nested_initial sizes threshold⟩
  · intro done e g g' hdone happly
    rw [List.foldl_append]
    intro hbroken
    obtain ⟨hdescribes, hnested⟩ := hdone (CallHistory.broken_of_read hbroken)
    have hbeside : g.calling.Beside (g.control.before e) :=
      ⟨g.control.quads_before e, g.control.currentFunction_before e⟩
    have hbeside' : g'.calling.Beside g'.control := ⟨rfl, rfl⟩
    have hend : e = .endFunction → g.calling.calls = [] := by
      rintro rfl
      exact Compile.calls_of_closed (Compile.yields_apply_endFunction happly).1
    have hcalls := Compile.calls_apply happly
    have hacts := Compile.control_apply happly
    exact ⟨hdescribes.step (hnested.before e) hcalls hacts hbeside hbeside',
      hdescribes.nested (hnested.before e) hcalls hacts hbeside hbeside' hend hbroken⟩

/-! ## Compiled programs -/

def Program.params (p : Program) (f : String) : Option (List TypeName × List Nat) :=
  (p.functions.find? f).map Routine.params

/-- Call sites are whole: every quad is where it should be, no call is open where control may come
from elsewhere, and parameters have addresses of locals of their types. -/
structure Program.CallsNest (p : Program) : Prop where
  code : ∀ (n : Nat) (q : Quad), p.quads[n]? = some q → q.Nests p.params (openCalls p.quads n)
  targets : ∀ (n : Nat) (q : Quad) (t : Nat), p.quads[n]? = some q → q.jumpTarget? = some t →
    openCalls p.quads t = []
  starts : ∀ (f : String) (r : Routine), p.functions.find? f = some r →
    openCalls p.quads r.startQuad = []
  params : ∀ (f : String) (r : Routine), p.functions.find? f = some r →
    List.Forall₂ (fun ty a => Located p.sizes a .locals ty.storage) r.paramTypes r.paramAddresses

theorem callsNest_of_compile {threshold : Level} {sizes : Sizes} {p : Program} {names : Names}
    (h : (compile threshold sizes events).1 = .ok (p, names))
    (hcalls : breaksCalls events = false) : p.CallsNest := by
  obtain ⟨g, g', haccepts, hfinish⟩ := accepts_of_compile h
  obtain ⟨-, -, -, -, rfl⟩ := Compile.yields_finish hfinish
  have hnested := nested_of_accepts haccepts hcalls
  refine ⟨hnested.code, ?_, ?_, ?_⟩
  · intro n q t hq htarget
    exact (hnested.marks t (Or.inl ⟨n, q, hq, htarget⟩)).2
  · intro f r hr
    refine (hnested.marks r.startQuad (Or.inr (Or.inr ⟨f, ?_⟩))).2
    exact congrArg (Option.map (·.startQuad)) hr
  · intro f r hr
    exact hnested.params f r.paramTypes r.paramAddresses (Compile.params_of_find? (g := g) hr)

end Quadruple
