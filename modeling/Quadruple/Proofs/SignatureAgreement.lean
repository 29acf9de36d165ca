/-
  Compiled programs agree with their signatures, as far as their scripts do.

  A program agrees with its signatures exactly when all events of its script suit the signatures
  that functions have in the end (`agreesWithSignatures_iff`):

      p.AgreesWithSignatures  ↔  keepsSignatures start events = true

  Two things can go wrong.  The
  signature of the open function may change after the function was called, returned something or had
  its result claimed; and an operand pushed by number may be labelled with a class without being a
  pointer.  Scripts that do neither are told from their events alone (`changesSignatureLate`,
  `Event.mislabels`), and their programs agree (`keepsSignatures_of_declared_first`).
-/
import Quadruple.Proofs.Signatures

namespace Quadruple

variable {start g g' : Generator} {events : List Event} {e : Event}

/-! ## Asking all events again -/

/-- All events of a script suit the signatures that functions have at its end. -/
def keepsSignatures (start : Generator) (events : List Event) : Bool :=
  (List.range events.length).all fun i =>
    events[i]?.all fun e =>
      (start.stage events i).suits (start.feed events).declarations.signatures e

theorem keepsSignatures_eq_true_iff :
    keepsSignatures start events = true ↔ ∀ i e, events[i]? = some e →
      (start.stage events i).suits (start.feed events).declarations.signatures e = true := by
  unfold keepsSignatures
  simp only [List.all_eq_true, List.mem_range]
  constructor
  · intro hall i e he
    have hsuits := hall i (List.getElem?_eq_some_iff.mp he).1
    rwa [he] at hsuits
  · intro hall i hi
    rw [List.getElem?_eq_getElem hi]
    exact hall i _ (List.getElem?_eq_getElem hi)

section

variable {sizes : Sizes} {threshold : Level} {events : List Event} {start g : Generator}
    {p : Program} {i j : Nat}

theorem agreesWithSignatures_iff (hstart : start = .ofSizes sizes threshold)
    (h : Accepts start events g) (hquads : p.quads = g.program.quads)
    (hfunctions : p.functions = g.program.functions) (hlayout : p.layout = .ofSizes sizes) :
    p.AgreesWithSignatures ↔ keepsSignatures start events = true := by
  have hsignatures : (start.feed events).declarations.signatures = p.signature? := by
    rw [h.feed]
    unfold Generator.declarations Program.signature?
    rw [hfunctions]
  rw [keepsSignatures_eq_true_iff, hsignatures]
  constructor
  · intro hagrees i e he
    rw [suits_iff hstart h hquads hfunctions hlayout he]
    exact fun n q _ hq => hagrees n q hq
  · intro hsuits n q hq
    have hn : n < g.nextQuad := by
      rw [hquads] at hq
      exact (Array.getElem?_eq_some_iff.mp hq).1
    obtain ⟨i, e, he, hemits⟩ := h.exists_emits (by subst hstart; exact Nat.zero_le n) hn
    exact (suits_iff hstart h hquads hfunctions hlayout he).mp (hsuits i e he) n q hemits hq

end

/-! ## Labels of operands -/

/-- An event that labels a number or another value with a class. -/
def Event.mislabels : Event → Bool
  | pushOperand _ ty className => className.isSome && ty ≠ .pointer
  | _ => false

namespace Generator

/-- If classes were only given to pointers, they still are. -/
def KeepsLabels (g g' : Generator) : Prop :=
  (∀ e ∈ g.operands, e.Labelled) → ∀ e ∈ g'.operands, e.Labelled

instance : IsPreorder Generator KeepsLabels where
  refl _ := id
  trans _ _ _ h₁ h₂ := h₂ ∘ h₁

theorem Changes.keepsLabels (h : Changes g g') : KeepsLabels g g' := by
  refine h.rel (R := KeepsLabels) fun {g g'} hchange => ?_
  cases hchange with
  | same h =>
    rw [KeepsLabels, show g'.operands = g.operands from congrArg Core.operands h]
    exact id
  | push he => exact fun hall => List.forall_mem_cons.mpr ⟨he, hall⟩
  | pop h =>
    rw [KeepsLabels, h]
    exact fun hall => (List.forall_mem_cons.mp hall).2
  | _ => exact id

end Generator

namespace Compile

open Generator

theorem tolerant_keepsLabels : Tolerant KeepsLabels where
  changes := Changes.keepsLabels
  grows _ _ := id
  patches _ _ _ := id
  marks := id

theorem keepsLabels_pushOperand {address : Nat} {ty : Scalar} {className : Option String}
    (he : (Event.pushOperand address ty className).mislabels = false) :
    Moves KeepsLabels (pushOperand address ty className) := by
  refine moves_get_bind fun g => ?_
  split
  · refine (moves_push ?_).mono Changes.keepsLabels g
    intro hclass
    dsimp only [Event.mislabels] at he hclass
    rw [hclass, Bool.true_and] at he
    exact not_not.mp (of_decide_eq_false he)
  · exact moves_reject _ g

/-- Every accepted event that does not mislabel keeps classes to pointers. -/
theorem keepsLabels_dispatch (he : e.mislabels = false) {u : Unit}
    (h : Yields (dispatch e) g u g') : KeepsLabels g g' := by
  have hkeeps := tolerant_keepsLabels.branches.expressions
  have hemit : ∀ op left right result, Moves KeepsLabels (emit op left right result) :=
    fun _ _ _ _ => moves_emit_of fun _ _ _ => id
  cases hneutral : e.isNeutral with
  | true => exact (tolerant_keepsLabels.moves_dispatch hneutral).of_yields h
  | false =>
    cases e with
    | declareClass c => exact (moves_declareClass (R := KeepsLabels) id c).of_yields h
    | declareField f ty => exact (moves_declareField (R := KeepsLabels) id f ty).of_yields h
    | endClass => exact (moves_endClass (R := KeepsLabels) id).of_yields h
    | setFunctionType ty =>
      exact (moves_setFunctionType (R := KeepsLabels) ty fun _ => id).of_yields h
    | declareFunction f =>
      obtain ⟨journal, -, -, rfl⟩ := yields_declareFunction h
      exact id
    | endFunction =>
      obtain ⟨f, r, journal, -, -, -, rfl⟩ := yields_endFunction h
      exact id
    | declareParam f ty =>
      obtain ⟨f, r, a, g₁, names, -, -, hallocate, -, rfl⟩ := yields_declareParam h
      exact ((moves_allocate _ _).of_yields hallocate).keepsLabels
    | callFunction f => exact (hkeeps.callFunction id (hemit .are) f).of_yields h
    | pushCallArgument index =>
      exact (hkeeps.pushCallArgument id (hemit .param) index).of_yields h
    | endCall => exact (hkeeps.endCall id (hemit .goSub) id).of_yields h
    | pushOperand a ty c => exact (keepsLabels_pushOperand he).of_yields h
    | _ => cases hneutral

/-- Accepted events label pointers only. -/
theorem keepsLabels_apply (he : e.mislabels = false) {u : Unit} (h : Yields (apply e) g u g') :
    KeepsLabels g g' := by
  obtain ⟨finishedCall, journal, hdispatch⟩ := exists_dispatch_of_apply h
  exact keepsLabels_dispatch (g := { g with finishedCall := finishedCall, journal := journal }) he
    hdispatch

end Compile

/-- The operand that is offered has a class only if it is a pointer. -/
theorem Generator.labelled_offered (hg : ∀ e ∈ g.operands, e.Labelled) {e : Entry}
    (he : g.offered? = some e) : e.Labelled := by
  have hmoves : Moves KeepsLabels (do Compile.dropResult; Compile.reduceAll : Compile Unit) :=
    .bind (Compile.moves_dropResult id) fun _ =>
      Compile.keeps_changes.reduceAll.mono Changes.keepsLabels
  exact hmoves g hg e (List.mem_of_mem_head? he)

/-- So do scripts. -/
theorem Accepts.labelled (hstart : start.operands = []) (h : Accepts start events g)
    (hlabels : events.any Event.mislabels = false) : ∀ e ∈ g.operands, e.Labelled := by
  have hwhole := h.induction (P := fun done g => done.any Event.mislabels = false →
    ∀ e ∈ g.operands, e.Labelled) ?_ ?_
  · exact hwhole hlabels
  · intro _ e he
    rw [hstart] at he
    cases he
  · intro done e g g' hdone happly hlabels
    rw [List.any_append, Bool.or_eq_false_iff, List.any_cons, Bool.or_eq_false_iff] at hlabels
    exact Compile.keepsLabels_apply hlabels.2.1 happly (hdone hlabels.1)

/-! ## Signatures that change late -/

/-- What a script has done with the signature of the open function. -/
structure SignatureHistory where
  /-- Since the last function was declared a call was closed, a value returned or a result claimed.
  -/
  relied : Bool
  /-- A parameter or a result type was declared after that. -/
  changed : Bool
deriving DecidableEq

/-- An event that relies on the whole signature of a function. -/
def Event.relies : Event → Bool
  | endCall | returnValue | pushCallResult => true
  | _ => false

namespace SignatureHistory

def initial : SignatureHistory := ⟨false, false⟩

def read (h : SignatureHistory) : Event → SignatureHistory
  | .declareFunction _ => { h with relied := false }
  | .declareParam _ _ | .setFunctionType _ => { h with changed := h.changed || h.relied }
  | e => { h with relied := h.relied || e.relies }

theorem changed_read {h : SignatureHistory} (hchanged : h.changed = true) (e : Event) :
    (h.read e).changed = true := by
  unfold read
  split
  · exact hchanged
  · exact Bool.or_eq_true_iff.mpr (Or.inl hchanged)
  · exact Bool.or_eq_true_iff.mpr (Or.inl hchanged)
  · exact hchanged

end SignatureHistory

/-- What a script has done by its `i`th event. -/
def signatureHistory (events : List Event) (i : Nat) : SignatureHistory :=
  (events.take i).foldl SignatureHistory.read .initial

/-- Somewhere in the script the signature of the open function changes after a call was closed, a
value returned or a result claimed in its body. -/
def changesSignatureLate (events : List Event) : Bool :=
  (events.foldl SignatureHistory.read .initial).changed

theorem signatureHistory_succ {i : Nat} (he : events[i]? = some e) :
    signatureHistory events (i + 1) = (signatureHistory events i).read e := by
  rw [signatureHistory, List.take_add_one, he, List.foldl_append]
  rfl

/-- The signatures are those of the first declarations, and a function that had one by then is open
only if it has been relied on. -/
structure SignaturesStay (d : Declarations) (h : SignatureHistory) (d' : Declarations) : Prop where
  kept : ∀ (f : String) (s : Signature), d.signatures f = some s → d'.signatures f = some s
  relied : ∀ (f : String) (s : Signature), d.signatures f = some s → d'.currentFunction = some f →
    h.relied = true

namespace SignaturesStay

variable {d d' d'' : Declarations} {h : SignatureHistory} {e : Event}

/-- An event that relies on signatures changes none. -/
theorem of_relies (hdeclares : Declares e d d') (he : e.relies = true) (h : SignatureHistory) :
    SignaturesStay d (h.read e) d' := by
  have hkeeps : e.keepsDeclarations = true := by
    cases e with
    | endCall | returnValue | pushCallResult => rfl
    | _ => cases he
  rw [hdeclares.eq_of_keeps hkeeps]
  refine ⟨fun _ _ hs => hs, fun _ _ _ _ => ?_⟩
  cases e with
  | endCall | returnValue | pushCallResult => exact Bool.or_true _
  | _ => cases he

theorem mono {h' : SignatureHistory} (hstay : SignaturesStay d h d')
    (hrelied : h.relied = true → h'.relied = true) : SignaturesStay d h' d' :=
  ⟨hstay.kept, fun f s hs hf => hrelied (hstay.relied f s hs hf)⟩

/-- The signature of the open function changes, where it has not been relied on. -/
theorem set (hstay : SignaturesStay d h d') {f : String} (hopen : d'.currentFunction = some f)
    (hrelied : h.relied = false) (s' : Option Signature) :
    SignaturesStay d h
      { d' with signatures := fun j => if j = f then s' else d'.signatures j } := by
  refine ⟨?_, hstay.relied⟩
  intro j s hs
  have hne : j ≠ f := by
    rintro rfl
    rw [hstay.relied j s hs hopen] at hrelied
    cases hrelied
  exact (if_neg hne).trans (hstay.kept j s hs)

/-- One event more. -/
theorem step (hstay : SignaturesStay d h d') (hdeclares : Declares e d' d'')
    (hchanged : (h.read e).changed = false) : SignaturesStay d (h.read e) d'' := by
  cases hdeclares with
  | keeps he =>
    refine hstay.mono fun hrelied => ?_
    cases e with
    | declareFunction | declareParam | setFunctionType => cases he
    | _ => exact Bool.or_eq_true_iff.mpr (Or.inl hrelied)
  | @opensFunction _ id _ hnew =>
    have hne : ∀ f s, d.signatures f = some s → f ≠ id := by
      rintro f s hs rfl
      rw [hstay.kept f s hs] at hnew
      cases hnew
    refine ⟨fun f s hs => (if_neg (hne f s hs)).trans (hstay.kept f s hs), ?_⟩
    intro f s hs hf
    cases hf
    exact (hne id s hs rfl).elim
  | typesFunction hopen _ => exact (hstay.set hopen (Bool.or_eq_false_iff.mp hchanged).2 _).mono id
  | addsParam hopen _ => exact (hstay.set hopen (Bool.or_eq_false_iff.mp hchanged).2 _).mono id
  | closesFunction => exact ⟨hstay.kept, fun f s _ hf => nomatch hf⟩
  | opensClass | addsField | closesClass =>
    exact ⟨hstay.kept, fun f s hs hf => Bool.or_eq_true_iff.mpr (Or.inl (hstay.relied f s hs hf))⟩

end SignaturesStay

section

variable {start g : Generator} {events : List Event} {i j : Nat}
    {e : Event} (h : Accepts start events g)

include h

/-- What an event relies on stays as it is to the end. -/
theorem signature_last (hlate : changesSignatureLate events = false) (he : events[i]? = some e)
    (hrelies : e.relies = true) {f : String} {s : Signature}
    (hs : (start.stage events i).declarations.signatures f = some s) :
    g.declarations.signatures f = some s := by
  have hstay :
      ∀ j, i + 1 ≤ j → j ≤ events.length → SignaturesStay (start.stage events i).declarations
      (signatureHistory events j) (start.stage events j).declarations := by
    intro j hij
    induction j, hij using Nat.le_induction with
    | base =>
      intro _
      rw [signatureHistory_succ he]
      exact .of_relies (Compile.declares_apply (h.stage he)) hrelies _
    | succ j _ ih =>
      intro hj
      have hj' := List.getElem?_eq_getElem (l := events) (i := j) (by omega)
      rw [signatureHistory_succ hj']
      refine (ih (by omega)).step (Compile.declares_apply (h.stage hj')) ?_
      rw [← signatureHistory_succ hj']
      exact flag_take SignatureHistory.changed (fun _ e hchanged =>
        SignatureHistory.changed_read hchanged e) hlate (j + 1)
  have hi : i + 1 ≤ events.length := (List.getElem?_eq_some_iff.mp he).1
  have hlast := (hstay events.length hi (Nat.le_refl _)).kept f s hs
  rwa [h.stage_last (Nat.le_refl _)] at hlast

/-- Where signatures are complete before they are relied on and classes are only given to pointers,
all events suit the signatures in the end. -/
theorem keepsSignatures_of_declared_first (hstart : start.operands = [])
    (hlate : changesSignatureLate events = false) (hlabels : events.any Event.mislabels = false) :
    keepsSignatures start events = true := by
  rw [keepsSignatures_eq_true_iff, h.feed]
  intro i e he
  have hlabelled : ∀ e ∈ (start.stage events i).operands, e.Labelled := by
    refine (h.take i).labelled hstart ?_
    rw [← List.take_append_drop i events, List.any_append, Bool.or_eq_false_iff] at hlabels
    exact hlabels.1
  cases e with
  | pushCallArgument index =>
    obtain ⟨argument, call, rest, s, ty, n, hoffered, hcalls, -, hs, hty, hfits, -⟩ :=
      Compile.apply_pushCallArgument (h.stage he)
    have hgrows := h.last_declares i
    -- parameters are only added after those there are
    obtain ⟨s', hs', ⟨more, hmore⟩, -⟩ := hgrows.signature call.function s hs
    have hty' : s'.params[index]? = some ty := by
      rw [← hmore, List.getElem?_append_left (List.getElem?_eq_some_iff.mp hty).1]
      exact hty
    simp only [Generator.suits, hcalls, hoffered, hs', hty', List.head?_cons, Option.any_some]
    exact Entry.suits_of_fits (Generator.labelled_offered hlabelled hoffered) hfits
  | endCall =>
    obtain ⟨call, rest, s, n, hcalls, hs, hpassed, -⟩ := Compile.apply_endCall (h.stage he)
    simp only [Generator.suits, hcalls, signature_last h hlate he rfl hs, List.head?_cons,
      Option.any_some]
    exact decide_eq_true hpassed
  | returnValue =>
    obtain ⟨value, f, s, ty, n, hoffered, hf, -, hs, hty, hfits, -⟩ :=
      Compile.apply_returnValue (h.stage he)
    simp only [Generator.suits, hf, hoffered, signature_last h hlate he rfl hs, hty,
      Option.any_some]
    exact Entry.suits_of_fits (Generator.labelled_offered hlabelled hoffered) hfits
  | pushCallResult =>
    obtain ⟨f, s, ty, t, n, hfinished, hs, hty, -, -⟩ := Compile.apply_pushCallResult (h.stage he)
    simp only [Generator.suits, hfinished, signature_last h hlate he rfl hs, hs, hty,
      Option.any_some, decide_true]
  | _ => rfl

end

/-- **Code agrees with signatures exactly when all events suit the signatures in the end.** Then
every call site passes one argument for each parameter of its function, each direct argument is in a
slot for the parameter in its place, every returned value is for the result type of the function
that it is returned from, and every result is claimed in a temporary for the result type of the
function that was called.  It is so for every script in which signatures are complete before they
are relied on and no operand is pushed with a class and a type other than a pointer.  The slots that
the code names have words for addresses: a script whose sizes or blocks go past the largest word
does not compile. -/
theorem code_agrees_with_signatures_iff {threshold : Level} {sizes : Sizes} {events : List Event}
    {p : Program} {names : Names} (h : (compile threshold sizes events).1 = .ok (p, names)) :
    sizes.Addressable ∧
    (p.AgreesWithSignatures ↔ keepsSignatures (.ofSizes sizes threshold) events = true) ∧
    (changesSignatureLate events = false → events.any Event.mislabels = false →
      p.AgreesWithSignatures) := by
  obtain ⟨g, haccepts, -, hquads, hfunctions, hlayout⟩ := exists_accepts_of_compile h
  have hiff := agreesWithSignatures_iff rfl haccepts hquads hfunctions hlayout
  refine ⟨addressable_of_compile h, hiff, ?_⟩
  intro hlate hlabels
  exact hiff.mpr (keepsSignatures_of_declared_first haccepts rfl hlate hlabels)

/-- A function with a float and an object for parameters that calls itself with an integer, and
returns the integer field of the object. -/
def scaledNode : List Event :=
  [.declareClass "Node", .declareField "value" (.scalar .int), .endClass,
    .declareFunction "scale", .setFunctionType (.scalar .float),
    .declareParam "by" (.scalar .float), .declareParam "node" (.object "Node"),
    .callFunction "scale", .pushConstant (.int 3), .pushCallArgument 0, .pushVariable "node",
    .pushCallArgument 1, .endCall, .pushCallResult, .returnValue, .pushObject "node",
    .pushProperty "value", .returnValue, .endFunction,
    .declareFunction "main", .declareVariable "n" (.object "Node"), .callFunction "scale",
    .pushVariable "n", .pushConstant (.int 1), .pushCallArgument 0, .pushCallArgument 1, .endCall,
    .pushCallResult, .print, .endFunction]

def scaledNodeProgram : Program := programOf .warn (Sizes.uniform 2) scaledNode

theorem code_agrees_with_signatures_iff_scaledNode :
    ∃ names, (compile .warn (Sizes.uniform 2) scaledNode).1 = .ok (scaledNodeProgram, names) ∧
      changesSignatureLate scaledNode = false ∧ scaledNode.any Event.mislabels = false ∧
      keepsSignatures (.ofSizes (Sizes.uniform 2) .warn) scaledNode = true ∧
      (scaledNodeProgram.quads.toList.filter (·.op.followsSignature)).length = 10 ∧
      scaledNodeProgram.AgreesWithSignatures := by
  obtain ⟨names, h⟩ := compile_eq_programOf
    (show (compile .warn (Sizes.uniform 2) scaledNode).1.isOk = true by decide +kernel)
  have hlate : changesSignatureLate scaledNode = false := by decide
  have hlabels : scaledNode.any Event.mislabels = false := by decide
  obtain ⟨-, hiff, hagrees⟩ := code_agrees_with_signatures_iff h
  have hprogram := hagrees hlate hlabels
  exact ⟨names, h, hlate, hlabels, hiff.mp hprogram, by decide +kernel, hprogram⟩

/-- A number that is labelled with a class and passed as an object. -/
def numberAsObject : List Event :=
  [.declareClass "C", .declareField "v" (.scalar .int), .endClass,
    .declareFunction "f", .declareParam "o" (.object "C"), .endFunction,
    .declareFunction "main", .declareVariable "x" (.scalar .int), .pushVariable "x",
    .pushOperator "=", .pushConstant (.int 7), .executeRemaining, .callFunction "f",
    .pushOperand 10 .int (some "C"), .pushCallArgument 0,
    .endCall, .endFunction]

/-- The argument is in an integer slot, and the parameter is an object. -/
theorem number_passed_as_object :
    ∃ p names, (compile .warn (Sizes.uniform 2) numberAsObject).1 = .ok (p, names) ∧
      p.signature? "f" = some ⟨[.object "C"], none⟩ ∧ openCalls p.quads 3 = [⟨"f", 0⟩] ∧
      p.quads[3]? = some ⟨.param, some (.addr 10), none, some (.immediate 0)⟩ ∧
      p.layout.typeOf 10 = some .int ∧
      ¬ p.AgreesWithSignatures := by
  obtain ⟨names, h⟩ := compile_eq_programOf
    (show (compile .warn (Sizes.uniform 2) numberAsObject).1.isOk = true by decide +kernel)
  have hsignature :
      (programOf .warn (Sizes.uniform 2) numberAsObject).signature? "f" = some ⟨[.object "C"],
        none⟩ := by
    decide +kernel
  have hopen : openCalls (programOf .warn (Sizes.uniform 2) numberAsObject).quads 3 = [⟨"f", 0⟩] :=
    by decide +kernel
  have hquad : (programOf .warn (Sizes.uniform 2) numberAsObject).quads[3]? =
      some ⟨.param, some (.addr 10), none, some (.immediate 0)⟩ := by decide +kernel
  have hslot : (programOf .warn (Sizes.uniform 2) numberAsObject).layout.typeOf 10 = some .int := by
    decide +kernel
  refine ⟨_, names, h, hsignature, hopen, hquad, hslot, ?_⟩
  intro hagrees
  obtain ⟨call, rest, s, ty, hcall, -, hs, hty, value, slot, hvalue, hdenotes, htakes⟩ :=
    hagrees 3 _ hquad
  cases hopen.symm.trans hcall
  cases hsignature.symm.trans hs
  cases hty
  cases hvalue
  cases hslot.symm.trans hdenotes
  cases htakes

end Quadruple
