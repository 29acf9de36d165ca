/-
  What a script declares, event by event.

  Classes with their fields and functions with their parameters and result types are a part of a
  generator's state of its own (`Declarations`).  `Declares` says for each event what it does to
  that part when it is accepted: eight kinds of events do one thing each, all others leave it
  alone.

  Declarations only grow (`Grows`).  A class keeps the fields it has, and gets more at the end as
  long as it is the open class; a function keeps its parameters, and gets more at the end as long as
  it is the open function.  The compiler's steps are opened for this in one place
  (`declares_apply`):

      Yields (apply e) g () g'  →  Declares e g.declarations g'.declarations
-/
import Quadruple.Proofs.Control
import Quadruple.Proofs.Tolerance

namespace Quadruple

variable {g g' : Generator} {e : Event} {u : Unit} {ty : TypeName}

/-- The types of the parameters of a function, and the type of its result if it has one. -/
structure Signature where
  params : List TypeName
  result : Option TypeName
deriving DecidableEq

def Routine.signature (r : Routine) : Signature := ⟨r.paramTypes, r.returnType⟩

/-- What has been declared, and what is being declared. -/
structure Declarations where
  fields : String → Option Fields
  signatures : String → Option Signature
  currentClass : Option String
  currentFunction : Option String

def Generator.declarations (g : Generator) : Declarations where
  fields := g.classes.find?
  signatures id := (g.program.functions.find? id).map Routine.signature
  currentClass := g.currentClass
  currentFunction := g.currentFunction

/-- An event that declares nothing. -/
def Event.keepsDeclarations : Event → Bool
  | declareClass _ | declareField _ _ | endClass | declareFunction _ | setFunctionType _
  | declareParam _ _
  | endFunction => false
  | _ => true

/-- What an accepted event does to declarations. -/
inductive Declares : Event → Declarations → Declarations → Prop
  | keeps {e : Event} {d : Declarations} (he : e.keepsDeclarations = true) : Declares e d d
  /-- Open a class, outside of every class and function. -/
  | opensClass {d : Declarations} {id : String} (hclass : d.currentClass = none)
      (hfunction : d.currentFunction = none) (hnew : d.fields id = none) :
      Declares (.declareClass id) d { d with
        fields := fun j => if j = id then some [] else d.fields j
        currentClass := some id }
  /-- Give the open class one more field. -/
  | addsField {d : Declarations} {c id : String} {ty : TypeName} {fields : Fields}
      (hopen : d.currentClass = some c)
      (hfields : d.fields c = some fields) (hnew : fields.find? id = none) :
      Declares (.declareField id ty) d { d with
        fields := fun j => if j = c then some (fields ++ [(id, ty)]) else d.fields j }
  | closesClass {d : Declarations} : Declares .endClass d { d with currentClass := none }
  /-- Open a function, outside of every function. -/
  | opensFunction {d : Declarations} {id : String} (hfunction : d.currentFunction = none)
      (hnew : d.signatures id = none) :
      Declares (.declareFunction id) d { d with
        signatures := fun j => if j = id then some ⟨[], none⟩ else d.signatures j
        currentFunction := some id }
  /-- Give the open function a result type. -/
  | typesFunction {d : Declarations} {f : String} {ty : TypeName} {s : Signature}
      (hopen : d.currentFunction = some f) (hsignature : d.signatures f = some s) :
      Declares (.setFunctionType ty) d { d with
        signatures := fun j => if j = f then some { s with result := some ty } else d.signatures j }
  /-- Give the open function one more parameter. -/
  | addsParam {d : Declarations} {f id : String} {ty : TypeName} {s : Signature}
      (hopen : d.currentFunction = some f) (hsignature : d.signatures f = some s) :
      Declares (.declareParam id ty) d { d with
        signatures := fun j => if j = f then some { s with params := s.params ++ [ty] }
          else d.signatures j }
  | closesFunction {d : Declarations} : Declares .endFunction d { d with currentFunction := none }

/-! ## Declarations only grow -/

/-- Classes keep their fields and functions their parameters, with more of them at the end; only
what is open can get more, and what is closed stays closed. -/
structure Declarations.Grows (d d' : Declarations) : Prop where
  fields : ∀ (c : String) (fields : Fields), d.fields c = some fields →
    ∃ fields', d'.fields c = some fields' ∧
    fields <+: fields' ∧ (d.currentClass ≠ some c → fields' = fields ∧ d'.currentClass ≠ some c)
  signature : ∀ (f : String) (s : Signature), d.signatures f = some s →
    ∃ s', d'.signatures f = some s' ∧
    s.params <+: s'.params ∧ (d.currentFunction ≠ some f → s' = s ∧ d'.currentFunction ≠ some f)

/-- What was declared of each kind stays, with more parts only while it is open. -/
def Extended {α β : Type} (parts : α → List β) (entries entries' : String → Option α)
    (current current' : Option String) :
    Prop :=
  ∀ id a, entries id = some a → ∃ a', entries' id = some a' ∧ parts a <+: parts a' ∧
    (current ≠ some id → a' = a ∧ current' ≠ some id)

namespace Extended

variable {α β : Type} {parts : α → List β} {entries entries' entries'' : String → Option α}
  {current current' current'' : Option String} {id : String} {a a' : α}

theorem refl : Extended parts entries entries current current :=
  fun _ a ha => ⟨a, ha, List.prefix_rfl, fun hclosed => ⟨rfl, hclosed⟩⟩

theorem trans (h : Extended parts entries entries' current current')
    (h' : Extended parts entries' entries'' current' current'') :
    Extended parts entries entries'' current current'' := by
  intro id a ha
  obtain ⟨a', ha', hparts, hclosed⟩ := h id a ha
  obtain ⟨a'', ha'', hparts', hclosed'⟩ := h' id a' ha'
  refine ⟨a'', ha'', hparts.trans hparts', ?_⟩
  intro hid
  obtain ⟨rfl, hid'⟩ := hclosed hid
  exact hclosed' hid'

theorem opens (hnew : entries id = none) :
    Extended parts entries (fun j => if j = id then some a else entries j) current (some id) := by
  intro j b hb
  have hne : j ≠ id := by
    intro heq
    rw [heq, hnew] at hb
    cases hb
  refine ⟨b, (if_neg hne).trans hb, List.prefix_rfl, fun _ => ⟨rfl, ?_⟩⟩
  intro heq
  cases heq
  exact hne rfl

theorem adds (hopen : current = some id) (ha : entries id = some a)
    (hparts : parts a <+: parts a') :
    Extended parts entries (fun j => if j = id then some a' else entries j) current current := by
  intro j b hb
  by_cases hj : j = id
  · subst hj
    cases hb.symm.trans ha
    exact ⟨a', if_pos rfl, hparts, fun hclosed => (hclosed hopen).elim⟩
  · exact ⟨b, (if_neg hj).trans hb, List.prefix_rfl, fun hclosed => ⟨rfl, hclosed⟩⟩

theorem closes : Extended parts entries entries current none :=
  fun _ a ha => ⟨a, ha, List.prefix_rfl, fun _ => ⟨rfl, nofun⟩⟩

end Extended

instance : IsPreorder Declarations Declarations.Grows where
  refl d := by
    have hfields : Extended id d.fields d.fields d.currentClass d.currentClass := .refl
    have hsignature :
        Extended Signature.params d.signatures d.signatures d.currentFunction d.currentFunction :=
          .refl
    exact ⟨hfields, hsignature⟩
  trans d₁ d₂ d₃ h₁ h₂ := by
    have hfields : Extended id d₁.fields d₃.fields d₁.currentClass d₃.currentClass :=
      .trans h₁.fields h₂.fields
    have hsignature :
        Extended Signature.params d₁.signatures d₃.signatures d₁.currentFunction
          d₃.currentFunction :=
      .trans h₁.signature h₂.signature
    exact ⟨hfields, hsignature⟩

namespace Declares

variable {e : Event} {d d' : Declarations}

theorem fields (h : Declares e d d') :
    Extended id d.fields d'.fields d.currentClass d'.currentClass := by
  cases h with
  | opensClass _ _ hnew => exact .opens hnew
  | addsField hopen hfields _ => exact .adds hopen hfields (List.prefix_append _ _)
  | closesClass => exact .closes
  | _ => exact .refl

theorem signature (h : Declares e d d') :
    Extended Signature.params d.signatures d'.signatures d.currentFunction d'.currentFunction := by
  cases h with
  | opensFunction _ hnew => exact .opens hnew
  | typesFunction hopen hsignature => exact .adds hopen hsignature List.prefix_rfl
  | addsParam hopen hsignature => exact .adds hopen hsignature (List.prefix_append _ _)
  | closesFunction => exact .closes
  | _ => exact .refl

theorem eq_of_keeps (h : Declares e d d') (he : e.keepsDeclarations = true) : d' = d := by
  cases h with
  | keeps => rfl
  | _ => cases he

theorem grows (h : Declares e d d') : d.Grows d' := ⟨h.fields, h.signature⟩

end Declares

/-! ## Events that declare nothing -/

namespace Generator

/-- All declarations are as they were. -/
def SameDeclarations (g g' : Generator) : Prop := g'.declarations = g.declarations

instance : IsPreorder Generator SameDeclarations where
  refl _ := rfl
  trans _ _ _ h₁ h₂ := h₂.trans h₁

theorem Changes.sameDeclarations (h : Changes g g') : SameDeclarations g g' := by
  refine h.rel (R := SameDeclarations) fun {g g'} hchange => ?_
  cases hchange with
  | same h =>
    have hclasses : g'.classes = g.classes := congrArg Core.classes h
    have hfunctions : g'.program.functions = g.program.functions := congrArg Core.functions h
    have hclass : g'.currentClass = g.currentClass := congrArg Core.currentClass h
    have hfunction : g'.currentFunction = g.currentFunction := congrArg Core.currentFunction h
    unfold SameDeclarations Generator.declarations
    rw [hclasses, hfunctions, hclass, hfunction]
  | _ => rfl

end Generator

namespace Compile

open Generator

theorem tolerant_sameDeclarations : Tolerant SameDeclarations where
  changes := Changes.sameDeclarations
  grows _ _ := rfl
  patches _ _ _ := rfl
  marks := rfl

theorem sameDeclarations_emit (op : Opcode) (left right result : Option Operand) :
    Moves SameDeclarations (emit op left right result) :=
  moves_emit_of fun _ _ _ => rfl

/-- Most events declare nothing, whether they are accepted or not. -/
theorem sameDeclarations_dispatch (he : e.keepsDeclarations = true) :
    Moves SameDeclarations (dispatch e) := by
  have hkeeps := tolerant_sameDeclarations.branches.expressions
  cases hneutral : e.isNeutral with
  | true => exact tolerant_sameDeclarations.moves_dispatch hneutral
  | false =>
    cases e with
    | callFunction id => exact hkeeps.callFunction rfl (sameDeclarations_emit _) id
    | pushCallArgument index =>
      exact hkeeps.pushCallArgument rfl (sameDeclarations_emit _) index
    | endCall => exact hkeeps.endCall rfl (sameDeclarations_emit _) rfl
    | pushOperand a ty c => exact moves_pushOperand rfl a ty c
    | declareFunction | endFunction | declareParam | declareClass | declareField | endClass
    | setFunctionType => cases he
    | _ => cases hneutral

/-! ## Events that declare something -/

theorem signature_of_find? {id : String} {r : Routine}
    (hr : g.program.functions.find? id = some r) :
    g.declarations.signatures id = some r.signature := by
  show (g.program.functions.find? id).map Routine.signature = _
  rw [hr, Option.map_some]

/-- The functions with one of them inserted. -/
theorem signatures_insert (g : Generator) (id : String) (r : Routine) :
    (fun j => ((g.program.functions.insert id r).find? j).map Routine.signature) =
      fun j => if j = id then some r.signature else g.declarations.signatures j :=
        Table.map_find?_insert _ _ _ _

/-- The classes with one of them inserted. -/
theorem fields_insert (g : Generator) (c : String) (fields : Fields) :
    (g.classes.insert c fields).find? = fun j => if j = c then some fields
      else g.declarations.fields j := by
  have h := Table.map_find?_insert id g.classes c fields
  simp only [Option.map_id, id_eq] at h
  exact h

theorem declares_declareClass {id : String} (h : Yields (declareClass id) g u g') :
    Declares (.declareClass id) g.declarations g'.declarations := by
  rw [declareClass, yields_get_bind] at h
  split at h
  · cases h
  rename_i houtside
  split at h
  · cases h
  rename_i hnew
  cases h
  simp only [Bool.or_eq_true, not_or, Bool.not_eq_true, Option.isSome_eq_false_iff,
    Option.isNone_iff_eq_none] at houtside
  simp only [Table.contains, Bool.or_eq_true, not_or, Bool.not_eq_true, Option.isSome_eq_false_iff,
    Option.isNone_iff_eq_none] at hnew
  have hacts : Declares (.declareClass id) g.declarations _ :=
    .opensClass houtside.1 houtside.2 hnew.1
  rwa [← fields_insert] at hacts

theorem declares_declareField {id : String} (h : Yields (declareField id ty) g u g') :
    Declares (.declareField id ty) g.declarations g'.declarations := by
  rw [declareField, yields_get_bind] at h
  split at h
  · cases h
  rename_i c hopen
  obtain ⟨_, g₁, hrequire, h⟩ := yields_bind.mp h
  cases yields_requireType hrequire
  split at h
  · cases h
  rename_i fields hfields
  split at h
  · cases h
  rename_i hnew
  simp only [Bool.not_eq_true, Option.isSome_eq_false_iff, Option.isNone_iff_eq_none] at hnew
  cases h
  have hacts : Declares (.declareField id ty) g.declarations _ := .addsField hopen hfields hnew
  rwa [← fields_insert] at hacts

theorem declares_endClass (h : Yields endClass g u g') :
    Declares .endClass g.declarations g'.declarations := by
  rw [endClass, yields_get_bind] at h
  split at h
  · cases h
    exact .closesClass
  · cases h

theorem declares_declareFunction {id : String} (h : Yields (declareFunction id) g u g') :
    Declares (.declareFunction id) g.declarations g'.declarations := by
  obtain ⟨journal, hnone, hnew, rfl⟩ := yields_declareFunction h
  have hfresh : g.declarations.signatures id = none := by
    show (g.program.functions.find? id).map Routine.signature = none
    rw [hnew, Option.map_none]
  have hacts : Declares (.declareFunction id) g.declarations _ := .opensFunction hnone hfresh
  rwa [← show (Routine.startingAt g.nextQuad).signature = ⟨[], none⟩ from rfl,
    ← signatures_insert] at hacts

theorem declares_setFunctionType (h : Yields (setFunctionType ty) g u g') :
    Declares (.setFunctionType ty) g.declarations g'.declarations := by
  unfold setFunctionType at h
  obtain ⟨_, g₁, hrequire, h⟩ := yields_bind.mp h
  cases yields_requireType hrequire
  rw [yields_get_bind] at h
  split at h
  · cases h
  rename_i f hopen
  obtain ⟨r, hr, rfl⟩ := yields_updateRoutine h
  have hacts : Declares (.setFunctionType ty) g.declarations _ :=
    .typesFunction hopen (signature_of_find? hr)
  rw [← show ({ r with returnType := some ty } : Routine).signature =
    { r.signature with result := some ty } from rfl,
    ← signatures_insert] at hacts
  exact hacts

theorem declares_declareParam {id : String} (h : Yields (declareParam id ty) g u g') :
    Declares (.declareParam id ty) g.declarations g'.declarations := by
  obtain ⟨f, r, a, g₁, names, hopen, -, hallocate, hr, rfl⟩ := yields_declareParam h
  have hsame : SameDeclarations g g₁ := ((moves_allocate _ _).of_yields hallocate).sameDeclarations
  have hacts : Declares (.declareParam id ty) g₁.declarations _ := .addsParam
    ((congrArg Declarations.currentFunction hsame).trans hopen) (signature_of_find? hr)
  rw [← show ({ r with
      paramTypes := r.paramTypes ++ [ty], paramAddresses :=
        r.paramAddresses ++ [a] } : Routine).signature =
    { r.signature with params := r.signature.params ++ [ty] } from rfl,
    ← signatures_insert] at hacts
  rw [← hsame]
  exact hacts

theorem declares_endFunction (h : Yields endFunction g u g') :
    Declares .endFunction g.declarations g'.declarations := by
  obtain ⟨f, r, journal, -, hr, -, rfl⟩ := yields_endFunction h
  have hsignatures : (fun j => ((g.program.functions.insert f { r with
      slots := ⟨g.pool.peaks .locals, g.pool.peaks .temporaries⟩ }).find? j).map
        Routine.signature) =
      g.declarations.signatures := Table.map_find?_insert_of_eq _ hr rfl
  have hacts : Declares .endFunction g.declarations _ := .closesFunction
  rwa [← hsignatures] at hacts

/-! ## All events -/

/-- Every accepted event declares what it says. -/
theorem declares_dispatch (h : Yields (dispatch e) g u g') :
    Declares e g.declarations g'.declarations := by
  cases hkeeps : e.keepsDeclarations with
  | true =>
    have hsame : g'.declarations = g.declarations := (sameDeclarations_dispatch hkeeps).of_yields h
    rw [hsame]
    exact .keeps hkeeps
  | false =>
    cases e with
    | declareClass id => exact declares_declareClass h
    | declareField id ty => exact declares_declareField h
    | endClass => exact declares_endClass h
    | declareFunction id => exact declares_declareFunction h
    | setFunctionType ty => exact declares_setFunctionType h
    | declareParam id ty => exact declares_declareParam h
    | endFunction => exact declares_endFunction h
    | _ => cases hkeeps

/-- What an accepted event does to declarations. -/
theorem declares_apply (h : Yields (apply e) g u g') :
    Declares e g.declarations g'.declarations := by
  obtain ⟨finishedCall, journal, hdispatch⟩ := exists_dispatch_of_apply h
  exact declares_dispatch (g := { g with finishedCall := finishedCall, journal := journal })
    hdispatch

end Compile

end Quadruple
