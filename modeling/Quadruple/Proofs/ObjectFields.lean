/-
  The sizes of objects and the places of their fields, in compiled code.

  `NEW` of a class reserves as many cells as the class has fields where it stands, and a field is
  reached at the place it has in the class.  Fields are only ever added at the end, so a field keeps
  its place and no two fields share one (`Fields.find?_of_append`, `Fields.find?_injective`).  But a
  class stays open until it is closed, and a function may be opened inside it: an object made there
  can be older than a field that is reached in it (`declaresLate`).  Its block is then too small for
  that field, and otherwise it is big enough (`lt_iff_hasField`):

      place of the field < cells of the object  ↔  the class had the field when it was made

  A script that opens no function inside a class declares no field late (`declaresLate_of_apart`).
-/
import Quadruple.Proofs.Stages

namespace Quadruple

variable {g g' : Generator}

/-! ## Places of fields -/

namespace Fields

variable {fields more : Fields} {f f' : String} {k : Nat} {ty ty' : TypeName}

/-- Fields added at the end come after those there were. -/
theorem find?_append (fields more : Fields) (f : String) :
    Fields.find? (fields ++ more) f =
      (fields.find? f).or ((Fields.find? more f).map fun (k, ty) => (fields.length + k, ty)) := by
  unfold Fields.find?
  have hlater : List.zipIdx more fields.length = (List.zipIdx more).map fun (x, k) =>
      (x, fields.length + k) :=
    List.zipIdx_eq_map_add
  rw [List.zipIdx_append, List.findSome?_append, Nat.zero_add, hlater, List.findSome?_map,
    List.map_findSome?]
  congr 2
  funext ⟨⟨field, ty⟩, offset⟩
  dsimp only [Function.comp]
  split
  · rw [Option.map_some, Nat.add_comm]
  · rfl

/-- The place of a field is where it stands. -/
theorem getElem?_of_find? (h : fields.find? f = some (k, ty)) : fields[k]? = some (f, ty) := by
  unfold Fields.find? at h
  obtain ⟨⟨⟨field, ty'⟩, offset⟩, hmem, heq⟩ := List.exists_of_findSome?_eq_some h
  dsimp only at heq
  split at heq
  · rename_i hname
    cases heq
    rw [← beq_iff_eq.mp hname]
    exact List.mem_zipIdx_iff_getElem?.mp hmem
  · cases heq

theorem lt_of_find? (h : fields.find? f = some (k, ty)) : k < fields.length :=
  (List.getElem?_eq_some_iff.mp (getElem?_of_find? h)).1

/-- No two fields share a place. -/
theorem find?_injective (h : fields.find? f = some (k, ty)) (h' : fields.find? f' = some (k, ty')) :
    f = f' := by
  have heq := (getElem?_of_find? h).symm.trans (getElem?_of_find? h')
  cases heq
  rfl

/-- A field keeps its place. -/
theorem find?_of_append (h : fields.find? f = some (k, ty)) (more : Fields) :
    Fields.find? (fields ++ more) f = some (k, ty) := by
  rw [find?_append, h, Option.some_or]

/-- Whether a field is among the first ones is a matter of its place. -/
theorem lt_length_iff (h : Fields.find? (fields ++ more) f = some (k, ty)) :
    k < fields.length ↔ (fields.find? f).isSome = true := by
  cases hf : fields.find? f with
  | some place =>
    obtain ⟨k', ty'⟩ := place
    cases (find?_of_append hf more).symm.trans h
    exact ⟨fun _ => rfl, fun _ => lt_of_find? hf⟩
  | none =>
    rw [find?_append, hf, Option.none_or, Option.map_eq_some_iff] at h
    obtain ⟨⟨k', ty'⟩, -, heq⟩ := h
    cases heq
    constructor
    · intro hlt
      omega
    · intro hsome
      cases hsome

end Fields

/-! ## The quads of objects -/

/-- The class of the topmost operand. -/
def Generator.topClass? (g : Generator) : Option String := g.operands.head?.bind (·.className)

/-- Whether a class has a field by now. -/
def Generator.hasField (g : Generator) (c f : String) : Bool :=
  ((g.classes.find? c).bind (·.find? f)).isSome

/-- The `n`th quad of the program makes an object of the class, with this many cells. -/
def Makes (start : Generator) (events : List Event) (p : Program) (c : String) (n size : Nat) :
    Prop :=
  ∃ i target, events[i]? = some (.newObject c) ∧ Emits start events i n ∧
    p.quads[n]? = some ⟨.pointerAssign, some .allocHeap, some (.immediate size), target⟩

/-- The `n`th quad of the program reaches the field in an object of the class, at this place. -/
def Reaches (start : Generator) (events : List Event) (p : Program) (c f : String) (n k : Nat) :
    Prop :=
  ∃ j base field, events[j]? = some (.pushProperty f) ∧ (start.stage events j).topClass? = some c ∧
    Emits start events j n ∧ p.quads[n]? = some ⟨.pointerAdd, base, some (.immediate k), field⟩

/-- Somewhere in the script a field is reached in an object of a class that an object was made of
before the class had the field. -/
def declaresLate (start : Generator) (events : List Event) : Bool :=
  (List.range events.length).any fun i => (List.range events.length).any fun j =>
    match events[i]?, events[j]? with
    | some (.newObject c), some (.pushProperty f) =>
      (start.stage events j).topClass? == some c && !(start.stage events i).hasField c f
    | _, _ => false

theorem declaresLate_eq_true_iff {start : Generator} {events : List Event} :
    declaresLate start events = true ↔ ∃ i j c f, events[i]? = some (.newObject c) ∧
      events[j]? = some (.pushProperty f) ∧ (start.stage events j).topClass? = some c ∧
      (start.stage events i).hasField c f = false := by
  unfold declaresLate
  simp only [List.any_eq_true, List.mem_range]
  constructor
  · rintro ⟨i, -, j, -, hlate⟩
    split at hlate
    · rename_i c f hi hj
      rw [Bool.and_eq_true, beq_iff_eq, Bool.not_eq_true'] at hlate
      exact ⟨i, j, c, f, hi, hj, hlate.1, hlate.2⟩
    · cases hlate
  · rintro ⟨i, j, c, f, hi, hj, hclass, hfield⟩
    refine ⟨i, (List.getElem?_eq_some_iff.mp hi).1, j, (List.getElem?_eq_some_iff.mp hj).1, ?_⟩
    rw [hi, hj]
    dsimp only
    rw [hclass, hfield]
    simp

namespace Compile

open Generator

/-- The topmost operand is an object of a known class. -/
theorem yields_popObject {e : Entry} {c : String} (h : Yields popObject g (e, c) g') :
    ∃ rest, g.operands = e :: rest ∧ e.className = some c ∧ g' = { g with operands := rest } := by
  unfold popObject at h
  obtain ⟨e', g₁, hpop, h⟩ := yields_bind.mp h
  obtain ⟨rest, hoperands, rfl⟩ := yields_pop hpop
  split at h
  · rename_i c' hclass
    split at h
    · obtain ⟨heq, rfl⟩ := yields_pure.mp h
      cases heq
      exact ⟨rest, hoperands, hclass, rfl⟩
    · cases h
  · cases h

/-- An object is made with a cell for each field that its class has by now. -/
theorem yields_newObject {c : String} {u : Unit} (h : Yields (newObject c) g u g') :
    ∃ fields target, g.classes.find? c = some fields ∧ g.currentFunction.isSome = true ∧
      g'.program.quads = g.program.quads.push
        ⟨.pointerAssign, some .allocHeap, some (.immediate fields.length), some target⟩ := by
  rw [newObject, yields_get_bind] at h
  split at h
  · cases h
  rename_i fields hfields
  obtain ⟨⟨target, c'⟩, g₁, hpop, h⟩ := yields_bind.mp h
  obtain ⟨rest, -, -, rfl⟩ := yields_popObject hpop
  dsimp only at h
  split at h
  · cases h
  obtain ⟨_, g₂, hemit, h⟩ := yields_bind.mp h
  obtain ⟨hopen, -, rfl⟩ := yields_emit hemit
  have hcontrol := (keeps_release target).of_yields h
  exact ⟨fields, target.pointer, hfields, hopen, congrArg Control.quads hcontrol⟩

/-- A field is reached at the place that it has in the class of the object. -/
theorem yields_pushProperty {f : String} {u : Unit} (h : Yields (pushProperty f) g u g') :
    ∃ c fields k ty object field, g.topClass? = some c ∧ g.classes.find? c = some fields ∧
      fields.find? f = some (k, ty) ∧
      g'.program.quads = g.program.quads.push ⟨.pointerAdd, some object, some (.immediate k),
        some (.ref field)⟩ := by
  unfold pushProperty at h
  obtain ⟨⟨object, c⟩, g₁, hpop, h⟩ := yields_bind.mp h
  obtain ⟨rest, hoperands, hclass, rfl⟩ := yields_popObject hpop
  dsimp only at h
  rw [yields_get_bind] at h
  split at h
  · cases h
  rename_i k ty hplace
  obtain ⟨fields, hfields, hplace⟩ := Option.bind_eq_some_iff.mp hplace
  obtain ⟨field, g₂, htemporary, h⟩ := yields_bind.mp h
  have hquads₂ : g₂.control.quads = g.program.quads :=
    congrArg Control.quads ((keeps_temporary _).of_yields htemporary)
  obtain ⟨_, g₃, hemit, h⟩ := yields_bind.mp h
  obtain ⟨-, -, rfl⟩ := yields_emit hemit
  obtain ⟨_, g₄, hrelease, h⟩ := yields_bind.mp h
  have hquads₄ := congrArg Control.quads ((keeps_release object).of_yields hrelease)
  have hquads := congrArg Control.quads ((keeps_push _).of_yields h)
  refine ⟨c, fields, k, ty, object.pointer, field, ?_, hfields, hplace,
    hquads.trans (hquads₄.trans ?_)⟩
  · rw [topClass?, hoperands]
    exact hclass
  · show g₂.control.quads.push _ = _
    rw [hquads₂]

end Compile

/-! ## Objects of a script -/

section

variable {start g : Generator} {events : List Event} {p : Program} {c f f' : String}
    {i j n n' k size : Nat}

/-- A `new` reserves a block for the fields its class has by then. -/
theorem Accepts.newObject (h : Accepts start events g) (hi : events[i]? = some (.newObject c)) :
    ∃ fields target, (start.stage events i).classes.find? c = some fields ∧
      (start.stage events i).currentFunction.isSome = true ∧
      (start.stage events (i + 1)).program.quads = (start.stage events i).program.quads.push
        ⟨.pointerAssign, some .allocHeap, some (.immediate fields.length), some target⟩ := by
  obtain ⟨journal, hdispatch⟩ := Compile.dispatch_of_apply (h.stage hi) (by rintro ⟨⟩)
  exact Compile.yields_newObject
    (g := { start.stage events i with finishedCall := none, journal := journal }) hdispatch

/-- An access adds the number of the field to the object's pointer. -/
theorem Accepts.pushProperty (h : Accepts start events g)
    (hj : events[j]? = some (.pushProperty f)) :
    ∃ c fields k ty object field, (start.stage events j).topClass? = some c ∧
      (start.stage events j).classes.find? c = some fields ∧ fields.find? f = some (k, ty) ∧
      (start.stage events (j + 1)).program.quads = (start.stage events j).program.quads.push
        ⟨.pointerAdd, some object, some (.immediate k), some (.ref field)⟩ := by
  obtain ⟨journal, hdispatch⟩ := Compile.dispatch_of_apply (h.stage hj) (by rintro ⟨⟩)
  exact Compile.yields_pushProperty
    (g := { start.stage events j with finishedCall := none, journal := journal }) hdispatch

variable (h : Accepts start events g) (hp : p.quads = g.program.quads)

include h hp

theorem exists_makes (hi : events[i]? = some (.newObject c)) :
    ∃ n fields, Emits start events i n ∧ (start.stage events i).classes.find? c = some fields ∧
      Makes start events p c n fields.length := by
  obtain ⟨fields, target, hfields, -, hpush⟩ := h.newObject hi
  obtain ⟨hemits, hquad⟩ := h.emits_push rfl hpush
  exact ⟨_, fields, hemits, hfields, i, some target, hi, hemits, hp ▸ hquad _ hemits⟩

/-- Every access to a field emits one such quad. -/
theorem exists_reaches (hj : events[j]? = some (.pushProperty f)) :
    ∃ c n fields k ty, Emits start events j n ∧ (start.stage events j).topClass? = some c ∧
      (start.stage events j).classes.find? c = some fields ∧ fields.find? f = some (k, ty) ∧
      Reaches start events p c f n k := by
  obtain ⟨c, fields, k, ty, object, field, hclass, hfields, hplace, hpush⟩ := h.pushProperty hj
  obtain ⟨hemits, hquad⟩ := h.emits_push rfl hpush
  exact ⟨c, _, fields, k, ty, hemits, hclass, hfields, hplace, j, some object, some (.ref field),
    hj, hclass, hemits, hp ▸ hquad _ hemits⟩

/-- The size of an object is the number of fields that its class had when it was compiled. -/
theorem Makes.fields (hmakes : Makes start events p c n size) :
    ∃ i fields, events[i]? = some (.newObject c) ∧
      (start.stage events i).classes.find? c = some fields ∧
      size = fields.length := by
  obtain ⟨i, target, hi, hemits, hquad⟩ := hmakes
  obtain ⟨fields, target', hfields, -, hpush⟩ := h.newObject hi
  have hquad' := (h.emits_push rfl hpush).2 n hemits
  rw [hp, hquad'] at hquad
  cases hquad
  exact ⟨i, fields, hi, hfields, rfl⟩

/-- The place of a field is the one it had when it was compiled. -/
theorem Reaches.fields (hreaches : Reaches start events p c f n k) :
    ∃ j fields ty, events[j]? = some (.pushProperty f) ∧ (start.stage events j).topClass? = some c ∧
      (start.stage events j).classes.find? c = some fields ∧ fields.find? f = some (k, ty) := by
  obtain ⟨j, base, field, hj, hclass, hemits, hquad⟩ := hreaches
  obtain ⟨c', fields, k', ty, object, field', hclass', hfields, hplace, hpush⟩ := h.pushProperty hj
  have hquad' := (h.emits_push rfl hpush).2 n hemits
  rw [hp, hquad'] at hquad
  cases hquad
  cases hclass.symm.trans hclass'
  exact ⟨j, fields, ty, hj, hclass, hfields, hplace⟩

omit hp in
/-- A class has at the end the fields that it has at some stage, and maybe more after them. -/
theorem fields_last {fields : Fields}
    (hfields : (start.stage events i).classes.find? c = some fields) :
    ∃ more, g.classes.find? c = some (fields ++ more) := by
  have hgrows := h.last_declares i
  obtain ⟨fields', hfields', ⟨more, rfl⟩, -⟩ := hgrows.fields c fields hfields
  exact ⟨more, hfields'⟩

/-- A field has one place in all objects of its class, and no other field has that place. -/
theorem Reaches.place_iff {k' : Nat} (hf : Reaches start events p c f n k)
    (hf' : Reaches start events p c f' n' k') : f = f' ↔ k = k' := by
  obtain ⟨j, fields, ty, -, -, hfields, hplace⟩ := hf.fields h hp
  obtain ⟨j', fields', ty', -, -, hfields', hplace'⟩ := hf'.fields h hp
  obtain ⟨more, hlast⟩ := fields_last h hfields
  obtain ⟨more', hlast'⟩ := fields_last h hfields'
  have hplace := Fields.find?_of_append hplace more
  have hplace' := Fields.find?_of_append hplace' more'
  rw [← Option.some.inj (hlast.symm.trans hlast')] at hplace'
  constructor
  · rintro rfl
    cases hplace.symm.trans hplace'
    rfl
  · rintro rfl
    exact Fields.find?_injective hplace hplace'

omit hp in
/-- An object has room for a field exactly when its class had the field where the object was made.
-/
theorem lt_iff_hasField {fields fields' : Fields} {ty : TypeName}
    (hi : (start.stage events i).classes.find? c = some fields)
    (hj : (start.stage events j).classes.find? c = some fields')
    (hplace : fields'.find? f = some (k, ty)) :
    k < fields.length ↔ (start.stage events i).hasField c f = true := by
  obtain ⟨more, hlast⟩ := fields_last h hi
  obtain ⟨more', hlast'⟩ := fields_last h hj
  have hplace := Fields.find?_of_append hplace more'
  rw [← Option.some.inj (hlast.symm.trans hlast')] at hplace
  rw [Generator.hasField, hi, Option.bind_some]
  exact Fields.lt_length_iff hplace

/-- Objects have room for all fields that are reached in them exactly when no field is declared
late. -/
theorem sizes_suffice_iff :
    (∀ c f n n' size k, Makes start events p c n size → Reaches start events p c f n' k →
      k < size) ↔
      declaresLate start events = false := by
  rw [← Bool.not_eq_true, declaresLate_eq_true_iff]
  constructor
  · rintro hsuffice ⟨i, j, c, f, hi, hj, hclass, hfield⟩
    obtain ⟨n, fields, -, hfields, hmakes⟩ := exists_makes h hp hi
    obtain ⟨c', n', fields', k, ty, -, hclass', hfields', hplace, hreaches⟩ :=
      exists_reaches h hp hj
    cases hclass.symm.trans hclass'
    have hlt := hsuffice c f n n' fields.length k hmakes hreaches
    rw [lt_iff_hasField h hfields hfields' hplace, hfield] at hlt
    cases hlt
  · intro hlate c f n n' size k hmakes hreaches
    obtain ⟨i, fields, hi, hfields, rfl⟩ := hmakes.fields h hp
    obtain ⟨j, fields', ty, hj, hclass, hfields', hplace⟩ := hreaches.fields h hp
    rw [lt_iff_hasField h hfields hfields' hplace, ← Bool.not_eq_false]
    intro hfield
    exact hlate ⟨i, j, c, f, hi, hj, hclass, hfield⟩

end

/-! ## Functions inside classes -/

/-- What a script has done with its classes. -/
structure ClassHistory where
  /-- A class is open. -/
  inside : Bool
  /-- A function was opened inside a class. -/
  mixed : Bool
deriving DecidableEq

namespace ClassHistory

variable {h : ClassHistory}

def initial : ClassHistory := ⟨false, false⟩

def read (h : ClassHistory) : Event → ClassHistory
  | .declareClass _ => { h with inside := true }
  | .endClass => { h with inside := false }
  | .declareFunction _ => { h with mixed := h.mixed || h.inside }
  | _ => h

/-- The history knows whether a class is open; and if no function was opened inside a class, not
both are open now. -/
structure Describes (h : ClassHistory) (d : Declarations) : Prop where
  inside : h.inside = d.currentClass.isSome
  apart : h.mixed = false → d.currentClass = none ∨ d.currentFunction = none

theorem Describes.read {d d' : Declarations} {e : Event} (hd : h.Describes d)
    (hdeclares : Declares e d d') : (h.read e).Describes d' := by
  cases hdeclares with
  | keeps he =>
    cases e with
    | declareClass | declareField | endClass | declareFunction | setFunctionType | declareParam
    | endFunction => cases he
    | _ => exact hd
  | opensClass hclass hfunction _ => exact ⟨rfl, fun _ => Or.inr hfunction⟩
  | closesClass => exact ⟨rfl, fun _ => Or.inl rfl⟩
  | opensFunction _ _ =>
    refine ⟨hd.inside, ?_⟩
    intro hmixed
    have hinside := (Bool.or_eq_false_iff.mp hmixed).2
    rw [hd.inside, Option.isSome_eq_false_iff, Option.isNone_iff_eq_none] at hinside
    exact Or.inl hinside
  | closesFunction => exact ⟨hd.inside, fun _ => Or.inr rfl⟩
  | _ => exact ⟨hd.inside, hd.apart⟩

theorem mixed_read (hmixed : h.mixed = true) (e : Event) : (h.read e).mixed = true := by
  unfold read
  split
  · exact hmixed
  · exact hmixed
  · show (h.mixed || h.inside) = true
    rw [hmixed, Bool.true_or]
  · exact hmixed

end ClassHistory

/-- Somewhere in the script a function is opened inside a class. -/
def opensFunctionInClass (events : List Event) : Bool :=
  (events.foldl ClassHistory.read .initial).mixed

section

variable {start g : Generator} {events : List Event}

/-- The history of the classes describes what was declared, event by event. -/
theorem describes_of_accepts (hclass : start.currentClass = none) (h : Accepts start events g) :
    (events.foldl ClassHistory.read .initial).Describes g.declarations := by
  refine h.induction (P := fun done g =>
    (done.foldl ClassHistory.read .initial).Describes g.declarations) ?_ ?_
  · refine ⟨?_, fun _ => Or.inl hclass⟩
    show false = start.currentClass.isSome
    rw [hclass]
    rfl
  · intro done e g g' hd hstep
    rw [List.foldl_append]
    exact hd.read (Compile.declares_apply hstep)

/-- Where no function is opened inside a class, every class is complete before an object is made of
it. -/
theorem declaresLate_of_apart (hclass : start.currentClass = none) (h : Accepts start events g)
    (hapart : opensFunctionInClass events = false) : declaresLate start events = false := by
  rw [← Bool.not_eq_true, declaresLate_eq_true_iff]
  rintro ⟨i, j, c, f, hi, hj, hreached, hfield⟩
  obtain ⟨fields, target, hfields, hopen, -⟩ := h.newObject hi
  obtain ⟨c', fields', k, ty, object, field, hreached', hfields', hplace, -⟩ := h.pushProperty hj
  cases hreached.symm.trans hreached'
  -- a function is open where the object is made, so no class is
  have hclosed : (start.stage events i).currentClass = none := by
    have hnone := (describes_of_accepts hclass (h.take i)).apart
      (flag_take ClassHistory.mixed (fun _ e hmixed => ClassHistory.mixed_read hmixed e) hapart i)
    refine hnone.resolve_right fun hfunction => ?_
    have hfunction : (start.stage events i).currentFunction = none := hfunction
    rw [hfunction] at hopen
    cases hopen
  have hgrows := h.last_declares i
  obtain ⟨last, hlast, -, hsame⟩ := hgrows.fields c fields hfields
  obtain ⟨rfl, -⟩ :=
    hsame (by rw [show (start.stage events i).declarations.currentClass = none from hclosed]; nofun)
  obtain ⟨more', hlast'⟩ := fields_last h hfields'
  cases hlast.symm.trans hlast'
  have hroom := (lt_iff_hasField h hfields hfields' hplace).mp ?_
  · rw [hroom] at hfield
    cases hfield
  · exact Fields.lt_of_find? (Fields.find?_of_append hplace more')

end

end Quadruple
