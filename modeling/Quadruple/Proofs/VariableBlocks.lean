/-
  Variables do not overlap.

  A variable has one slot, or a block of them once it was laid out as an array
  (`Variable.Occupies`).  The slots of a segment that are out are those of its variables, and each
  is the slot of one variable only (`Owns`):

      isLive a  ↔  ∃! id, address id ≤ a < address id + cells id

  A declaration takes a slot that is not out; laying out
  an array gives one slot back and takes a block of slots that are not out.  Either way one variable
  gets new slots and the others keep theirs, which is one argument (`Owns.replace`).

  So the blocks of all variables are apart after every accepted script, and no request can be
  answered with a part of one (`variables_never_overlap`).
-/
import Quadruple.Proofs.OldestFirst
import Quadruple.Proofs.Placement
import Quadruple.Proofs.RowMajor

namespace Quadruple

open Compile (elementCount)

variable {sizes : Sizes}
variable {g : Generator} {segment : Segment} {v : Variable} {len a : Nat}

/-! ## Blocks -/

namespace Variable

variable {v : Variable} {a : Nat} {segment : Segment} {constants : Table Nat Constant}

/-- How many slots a variable has: one, or as many as its dimensions hold together. -/
def cells (v : Variable) : Nat := elementCount (v.dimensions.map (·.size))

/-- The slot is one of the variable. -/
def Occupies (v : Variable) (a : Nat) : Prop := v.address ≤ a ∧ a < v.address + v.cells

theorem occupies_scalar (h : v.dimensions = []) : v.Occupies a ↔ a = v.address := by
  have hcells : v.cells = 1 := by
    rw [cells, h]
    rfl
  rw [Occupies, hcells]
  omega

theorem Stocked.cells_pos (h : v.Stocked sizes constants segment) :
    0 < v.cells := h.dimensions.elementCount_pos

theorem Stocked.occupies_address (h : v.Stocked sizes constants segment) : v.Occupies v.address :=
  ⟨Nat.le_refl _, Nat.lt_add_of_pos_right h.cells_pos⟩

end Variable

/-! ## Pools -/

namespace Pool

variable {p p' : Pool} {segment : Segment} {ty : Scalar} {a : Nat}

/-- A run of which nothing is out starts over. -/
theorem Valid.rewound (hp : p.Valid sizes)
    (hnone : ∀ a, Located sizes a segment ty → p.isLive a = false) :
    (p.supply segment ty).next = ((Layout.ofSizes sizes).range segment ty).start ∧
    (p.supply segment ty).freed = [] := by
  rw [← hp.range_supply]
  refine (hp.supplies segment ty).rewound fun a ha => ?_
  rw [hp.range_supply] at ha
  have hlocated : Located sizes a segment ty := Layout.locate_eq_of_contains ha
  rw [← hp.isLive_located hlocated]
  exact hnone a hlocated

theorem Valid.allocate_first (hp : p.Valid sizes)
    (hnone : ∀ a, Located sizes a segment ty → p.isLive a = false)
    (h : p.allocate ty segment = .ok (a, p')) :
    a = ((Layout.ofSizes sizes).range segment ty).start := by
  obtain ⟨hnext, hfreed⟩ := hp.rewound hnone
  unfold Pool.allocate at h
  split at h
  · rename_i s htake
    cases h
    rw [Supply.take, hfreed] at htake
    exact (Supply.takeFresh_eq_ok_iff.mp htake).2.1.trans hnext
  · cases h

theorem next_of_allocateBlock (h : p.allocateBlock ty segment len = .ok (a, p')) :
    a = (p.supply segment ty).next := by
  unfold Pool.allocateBlock at h
  split at h
  · rename_i s htake
    cases h
    exact (Supply.takeFresh_eq_ok_iff.mp htake).2.1
  · cases h

/-- What a block adds to the slots that are out. -/
theorem Valid.isLive_allocateBlock (hp : p.Valid sizes) (hlen : 0 < len)
    (h : p.allocateBlock ty segment len = .ok (a, p')) (b : Nat) :
    p'.isLive b = true ↔ a ≤ b ∧ b < a + len ∨ p.isLive b = true := by
  have hmax : max len 1 = len := by omega
  have hlive := (hp.follows_allocateBlock h).live b
  rw [hmax] at hlive
  rw [hlive]
  exact or_congr_right (and_iff_left id)

end Pool

/-! ## Who owns which slot -/

/-- The slots of the segment that are out are those of the variables in the table, each of one
variable only.  The only variable of a type has the first slots of its run. -/
structure Owns (sizes : Sizes) (p : Pool) (segment : Segment) (t : Table String Variable) :
    Prop where
  inside : ∀ id v a, t.find? id = some v → v.Occupies a → Located sizes a segment v.ty.storage
  live : ∀ a ty, Located sizes a segment ty →
    (p.isLive a = true ↔ ∃ id v, t.find? id = some v ∧ v.Occupies a)
  apart : ∀ id v id' v' a, t.find? id = some v → t.find? id' = some v' → v.Occupies a →
    v'.Occupies a → id = id'
  first : ∀ id v, t.find? id = some v →
    (∀ id' v', t.find? id' = some v' → v'.ty.storage = v.ty.storage → id' = id) →
    v.address = ((Layout.ofSizes sizes).range segment v.ty.storage).start

namespace Owns

variable {p p' p'' : Pool} {segment : Segment} {t : Table String Variable} {id : String}
    {v w : Variable}

theorem empty (h : ∀ a ty, Located sizes a segment ty → p.isLive a = false) :
    Owns sizes p segment Table.empty where
  inside := by
    rintro id v a ⟨⟩
  live := by
    intro a ty ha
    rw [h a ty ha]
    refine iff_of_false Bool.false_ne_true ?_
    rintro ⟨id, v, ⟨⟩, -⟩
  apart := by
    rintro id v id' v' a ⟨⟩
  first := by
    rintro id v ⟨⟩

variable (h : Owns sizes p segment t)

include h

/-- Slots of other segments may come and go. -/
theorem withPool (hsame : ∀ a ty, Located sizes a segment ty → p'.isLive a = p.isLive a) :
    Owns sizes p' segment t :=
  { h with
    live := by
      intro a ty ha
      rw [hsame a ty ha]
      exact h.live a ty ha }

theorem keepsVariables (hsegment : segment.holdsVariables = true)
    (hkeeps : Pool.KeepsVariables sizes p p') : Owns sizes p' segment t :=
  h.withPool fun a ty ha => hkeeps a segment ty hsegment ha

theorem isLive (hv : t.find? id = some v) (ha : v.Occupies a) :
    p.isLive a = true := (h.live a _ (h.inside id v a hv ha)).mpr ⟨id, v, hv, ha⟩

/-- One variable gets slots that no other has, and what it had before is given back. -/
theorem replace (hinside : ∀ a, w.Occupies a → Located sizes a segment w.ty.storage)
    (hlive : ∀ a ty, Located sizes a segment ty → (p'.isLive a = true ↔ w.Occupies a ∨ ∃ id' v',
      id' ≠ id ∧ t.find? id' = some v' ∧ v'.Occupies a))
    (hfresh : ∀ id' v' a, id' ≠ id → t.find? id' = some v' → v'.Occupies a → ¬ w.Occupies a)
    (hty : ∀ v, t.find? id = some v → v.ty.storage = w.ty.storage)
    (hfirst : (∀ id' v', id' ≠ id → t.find? id' = some v' → v'.ty.storage ≠ w.ty.storage) →
      w.address = ((Layout.ofSizes sizes).range segment w.ty.storage).start) :
    Owns sizes p' segment (t.insert id w) := by
  refine ⟨?_, ?_, ?_, ?_⟩
  · intro id' v a hv ha
    rcases Table.find?_insert_eq_some_iff.mp hv with ⟨rfl, rfl⟩ | ⟨-, hv⟩
    · exact hinside a ha
    · exact h.inside id' v a hv ha
  · intro a ty ha
    rw [hlive a ty ha]
    constructor
    · rintro (hw | ⟨id', v', hne, hv', ha'⟩)
      · exact ⟨id, w, Table.find?_insert_self _ _ _, hw⟩
      · exact ⟨id', v', Table.find?_insert_eq_some_iff.mpr (Or.inr ⟨hne, hv'⟩), ha'⟩
    · rintro ⟨id', v', hv', ha'⟩
      rcases Table.find?_insert_eq_some_iff.mp hv' with ⟨rfl, rfl⟩ | ⟨hne, hv'⟩
      · exact Or.inl ha'
      · exact Or.inr ⟨id', v', hne, hv', ha'⟩
  · intro id₁ v₁ id₂ v₂ a hv₁ hv₂ ha₁ ha₂
    rcases Table.find?_insert_eq_some_iff.mp hv₁ with ⟨rfl, rfl⟩ | ⟨hne₁, hold₁⟩
    · rcases Table.find?_insert_eq_some_iff.mp hv₂ with ⟨rfl, rfl⟩ | ⟨hne₂, hold₂⟩
      · rfl
      · exact (hfresh id₂ v₂ a hne₂ hold₂ ha₂ ha₁).elim
    · rcases Table.find?_insert_eq_some_iff.mp hv₂ with ⟨rfl, rfl⟩ | ⟨hne₂, hold₂⟩
      · exact (hfresh id₁ v₁ a hne₁ hold₁ ha₁ ha₂).elim
      · exact h.apart id₁ v₁ id₂ v₂ a hold₁ hold₂ ha₁ ha₂
  · intro id' v hv honly
    rcases Table.find?_insert_eq_some_iff.mp hv with ⟨rfl, rfl⟩ | ⟨hne, hv⟩
    · refine hfirst fun id₂ v₂ hne₂ hv₂ hsame => hne₂ ?_
      exact honly id₂ v₂ (Table.find?_insert_eq_some_iff.mpr (Or.inr ⟨hne₂, hv₂⟩)) hsame
    · refine h.first id' v hv fun id₂ v₂ hv₂ hsame => ?_
      by_cases hid : id₂ = id
      · subst hid
        exact honly id₂ w (Table.find?_insert_self _ _ _) ((hty v₂ hv₂).symm.trans hsame)
      · exact honly id₂ v₂ (Table.find?_insert_eq_some_iff.mpr (Or.inr ⟨hid, hv₂⟩)) hsame

/-- A variable is declared. -/
theorem declare (hp : p.Valid sizes) {ty : TypeName}
    (hnew : t.find? id = none) (hallocate : p.allocate ty.storage segment = .ok (a, p')) :
    Owns sizes p' segment (t.insert id ⟨a, ty, [], []⟩) := by
  have htakes := hp.allocate hallocate
  have hslot : ∀ b, (⟨a, ty, [], []⟩ : Variable).Occupies b ↔ b = a :=
    fun b => Variable.occupies_scalar rfl
  have hothers : ∀ id' v', t.find? id' = some v' → id' ≠ id := by
    rintro id' v' hv' rfl
    rw [hnew] at hv'
    cases hv'
  refine h.replace ?_ ?_ ?_ ?_ ?_
  · intro b hb
    rw [(hslot b).mp hb]
    exact htakes.located
  · intro b ty' hb
    rw [htakes.live, hslot, h.live b ty' hb, or_comm]
    refine or_congr_right ⟨?_, ?_⟩
    · rintro ⟨id', v', hv', hb'⟩
      exact ⟨id', v', hothers id' v' hv', hv', hb'⟩
    · rintro ⟨id', v', -, hv', hb'⟩
      exact ⟨id', v', hv', hb'⟩
  · intro id' v' b _ hv' hb hb'
    have hlive := h.isLive hv' hb
    rw [(hslot b).mp hb', htakes.fresh] at hlive
    cases hlive
  · intro v hv
    rw [hnew] at hv
    cases hv
  · intro hnone
    refine hp.allocate_first (fun b hb => ?_) hallocate
    rw [Bool.eq_false_iff]
    intro hlive
    obtain ⟨id', v', hv', hb'⟩ := (h.live b _ hb).mp hlive
    exact hnone id' v' (hothers id' v' hv') hv' (hb.unique (h.inside id' v' b hv' hb')).2

/-- A variable gets one more dimension, which is not laid out yet. -/
theorem update (hv : t.find? id = some v) (pending : List Nat) :
    Owns sizes p segment (t.insert id { v with pendingSizes := pending }) := by
  have hsame : ∀ a, ({ v with pendingSizes := pending } : Variable).Occupies a ↔ v.Occupies a :=
    fun _ => Iff.rfl
  refine h.replace (fun a ha => h.inside id v a hv ha) ?_ ?_ ?_ ?_
  · intro a ty ha
    rw [h.live a ty ha, hsame]
    constructor
    · rintro ⟨id', v', hv', ha'⟩
      by_cases hid : id' = id
      · subst hid
        cases hv.symm.trans hv'
        exact Or.inl ha'
      · exact Or.inr ⟨id', v', hid, hv', ha'⟩
    · rintro (ha' | ⟨id', v', -, hv', ha'⟩)
      · exact ⟨id, v, hv, ha'⟩
      · exact ⟨id', v', hv', ha'⟩
  · intro id' v' a hne hv' ha' ha
    exact hne (h.apart id' v' id v a hv' hv ha' ha)
  · intro v' hv'
    cases hv.symm.trans hv'
    rfl
  · intro hnone
    refine h.first id v hv fun id' v' hv' hsame => ?_
    by_contra hne
    exact hnone id' v' hne hv' hsame

/-- When a variable has given its slot back, the slots of the others are those that are out. -/
theorem vacate (hp : p.Valid sizes) (hv : t.find? id = some v)
    (hscalar : v.dimensions = []) (hrelease : p.release v.address = .ok p') {ty : Scalar}
    (ha : Located sizes a segment ty) :
    p'.isLive a = true ↔ ∃ id' v', id' ≠ id ∧ t.find? id' = some v' ∧ v'.Occupies a := by
  rw [(hp.release hrelease).live, h.live a ty ha]
  constructor
  · rintro ⟨⟨id', v', hv', ha'⟩, hne⟩
    refine ⟨id', v', ?_, hv', ha'⟩
    rintro rfl
    cases hv.symm.trans hv'
    exact hne ((Variable.occupies_scalar hscalar).mp ha')
  · rintro ⟨id', v', hne, hv', ha'⟩
    refine ⟨⟨id', v', hv', ha'⟩, ?_⟩
    rintro rfl
    exact hne (h.apart id' v' id v _ hv' hv ha' ((Variable.occupies_scalar hscalar).mpr rfl))

/-- A variable is laid out as an array. -/
theorem move (hp : p.Valid sizes) (hv : t.find? id = some v)
    (hscalar : v.dimensions = []) (hrelease : p.release v.address = .ok p')
    (hblock : p'.allocateBlock v.ty.storage segment w.cells = .ok (w.address, p''))
    (hcells : 0 < w.cells) (hty : w.ty = v.ty) : Owns sizes p'' segment (t.insert id w) := by
  have hp' := (hp.release hrelease).valid
  have hmax : max w.cells 1 = w.cells := by omega
  refine h.replace ?_ ?_ ?_ ?_ ?_
  · rintro a ⟨hlo, hhi⟩
    rw [hty]
    exact Layout.locate_eq_of_contains
      (hp'.allocateBlock_fresh hblock hlo (by rw [hmax]; exact hhi)).1
  · intro a ty ha
    rw [hp'.isLive_allocateBlock hcells hblock, h.vacate hp hv hscalar hrelease ha]
    rfl
  · rintro id' v' a hne hv' ha' ⟨hlo, hhi⟩
    have hfree := (hp'.allocateBlock_fresh hblock hlo (by rw [hmax]; exact hhi)).2
    have hlive :=
      (h.vacate hp hv hscalar hrelease (h.inside id' v' a hv' ha')).mpr ⟨id', v', hne, hv', ha'⟩
    rw [hfree] at hlive
    cases hlive
  · intro v' hv'
    cases hv.symm.trans hv'
    rw [hty]
  · intro hnone
    rw [Pool.next_of_allocateBlock hblock, hty]
    refine (hp'.rewound fun a ha => ?_).1
    rw [Bool.eq_false_iff]
    intro hlive
    obtain ⟨id', v', hne, hv', ha'⟩ := (h.vacate hp hv hscalar hrelease ha).mp hlive
    rw [hty] at hnone
    exact hnone id' v' hne hv' (ha.unique (h.inside id' v' a hv' ha')).2

end Owns

/-! ## One event -/

theorem elementCount_pos {ns : List Nat} (h : ∀ n ∈ ns, 0 < n) : 0 < elementCount ns := by
  induction ns with
  | nil => exact Nat.one_pos
  | cons n rest ih =>
    rw [List.forall_mem_cons] at h
    exact Nat.mul_pos h.1 (ih h.2)

/-- Globals and locals own the slots that are out in their segments. -/
structure Tables.Housed (sizes : Sizes) (p : Pool) (t : Tables) : Prop where
  globals : Owns sizes p .globals t.globals
  locals : Owns sizes p .locals t.locals

namespace Inventory

variable {b b' : Inventory} {id : String} {v w : Variable}

/-- A variable in scope is a local, or a global that no local hides. -/
theorem lookup_eq_some (h : b.lookup id = some v) :
    b.locals.contains id = true ∧ b.locals.find? id = some v ∨
      b.locals.contains id = false ∧ b.globals.find? id = some v := by
  unfold lookup at h
  unfold Table.contains
  split at h
  · rename_i w hw
    cases h
    rw [hw]
    exact Or.inl ⟨rfl, rfl⟩
  · rename_i hnone
    rw [hnone]
    exact Or.inr ⟨rfl, h⟩

theorem housed_dimension (hh : b.tables.Housed sizes b.pool) (hv : b.lookup id = some v)
    (pending : List Nat) :
    (b.setVariable id { v with pendingSizes := pending }).tables.Housed sizes b.pool := by
  unfold setVariable
  rcases lookup_eq_some hv with ⟨hlocal, hv⟩ | ⟨hglobal, hv⟩
  · rw [if_pos hlocal]
    exact ⟨hh.globals, hh.locals.update hv pending⟩
  · rw [if_neg (Bool.eq_false_iff.mp hglobal)]
    exact ⟨hh.globals.update hv pending, hh.locals⟩

/-- Moving a variable of one segment is none of the slots of another. -/
theorem isLive_elsewhere_of_move {p p' p'' : Pool} {segment' : Segment} {ty ty' : Scalar}
    {base x : Nat} (hp : p.Valid sizes) (ha : Located sizes a segment ty)
    (hrelease : p.release a = .ok p') (hblock : p'.allocateBlock ty segment len = .ok (base, p''))
    (hx : Located sizes x segment' ty') (hne : segment' ≠ segment) : p''.isLive x = p.isLive x := by
  have hgives := hp.release hrelease
  have htakes := hgives.valid.allocateBlock hblock
  rw [htakes.live x fun hx' => hne (hx'.unique hx).1, hgives.isLive_elsewhere ha hx hne]

theorem housed_laysOut (hb : b.Stocked sizes) (hh : b.tables.Housed sizes b.pool) {p p' p'' : Pool}
    (hv : b.lookup id = some v) (hscalar : v.dimensions = [])
    (hcells : w.cells = elementCount v.pendingSizes) (hty : w.ty = v.ty)
    (hrelease : b.pool.release v.address = .ok p)
    (hblock : p.allocateBlock v.ty.storage (b.segmentOf id) (elementCount v.pendingSizes) =
      .ok (w.address, p'))
    (hkeeps : Pool.KeepsVariables sizes p' p'') : (b.setVariable id w).tables.Housed sizes p'' := by
  have hstocked := hb.lookup hv
  have hpos : 0 < w.cells := hcells ▸ elementCount_pos hstocked.pending
  rw [← hcells] at hblock
  unfold setVariable
  unfold segmentOf at hblock
  rcases lookup_eq_some hv with ⟨hlocal, hv⟩ | ⟨hglobal, hv⟩
  · rw [if_pos hlocal] at hblock hstocked ⊢
    refine ⟨?_, (hh.locals.move hb.pool hv hscalar hrelease hblock hpos hty).keepsVariables rfl
      hkeeps⟩
    refine (hh.globals.withPool fun x ty hx => ?_).keepsVariables rfl hkeeps
    exact isLive_elsewhere_of_move hb.pool hstocked.located hrelease hblock hx nofun
  · rw [if_neg (Bool.eq_false_iff.mp hglobal)] at hblock hstocked ⊢
    refine ⟨(hh.globals.move hb.pool hv hscalar hrelease hblock hpos hty).keepsVariables rfl hkeeps,
      ?_⟩
    refine (hh.locals.withPool fun x ty hx => ?_).keepsVariables rfl hkeeps
    exact isLive_elsewhere_of_move hb.pool hstocked.located hrelease hblock hx nofun

/-- No event puts two variables on one slot. -/
theorem Places.housed {e : Event} (h : Places sizes b b' e) (hb : b.Stocked sizes)
    (hh : b.tables.Housed sizes b.pool) : b'.tables.Housed sizes b'.pool := by
  cases h with
  | keeps _ htables hpool =>
    rw [htables]
    exact ⟨hh.globals.keepsVariables rfl hpool, hh.locals.keepsVariables rfl hpool⟩
  | opens hclosed htables hpool =>
    rw [htables, hpool]
    have hlocals := hh.locals
    rw [show b.tables.locals = Table.empty from hb.closed hclosed] at hlocals
    exact ⟨hh.globals, hlocals⟩
  | types _ _ htables hpool =>
    rw [htables, hpool]
    exact ⟨hh.globals, hh.locals⟩
  | parameter _ _ hnew hallocate htables =>
    rw [htables]
    refine ⟨hh.globals.withPool fun x ty hx => ?_, hh.locals.declare hb.pool hnew hallocate⟩
    exact (hb.pool.allocate hallocate).isLive_elsewhere hx nofun
  | localVariable _ hnew hallocate htables =>
    rw [htables]
    refine ⟨hh.globals.withPool fun x ty hx => ?_, hh.locals.declare hb.pool hnew hallocate⟩
    exact (hb.pool.allocate hallocate).isLive_elsewhere hx nofun
  | globalVariable _ hnew hallocate htables =>
    rw [htables]
    refine ⟨hh.globals.declare hb.pool hnew hallocate, hh.locals.withPool fun x ty hx => ?_⟩
    exact (hb.pool.allocate hallocate).isLive_elsewhere hx nofun
  | dimension _ hv htables hpool =>
    rw [htables, hpool]
    exact housed_dimension hh hv _
  | laysOut _ hv hscalar _ hds hrelease hblock hpool htables =>
    rw [htables]
    exact housed_laysOut hb hh hv hscalar (congrArg elementCount hds) rfl hrelease hblock hpool
  | closes _ hpool htables =>
    rw [htables, hpool]
    have hp := hb.pool.releaseSegment .locals
    refine ⟨hh.globals.withPool fun x ty hx => ?_, .empty fun x ty hx => ?_⟩
    · rw [Pool.isLive_releaseSegment_of_ne hp hx (by decide),
        Pool.isLive_releaseSegment_of_ne hb.pool hx (by decide)]
    · rw [Pool.isLive_releaseSegment_of_ne hp hx (by decide), Pool.isLive_releaseSegment hb.pool hx]

end Inventory

/-! ## Whole scripts -/

/-- Variables have blocks of their own after every accepted script. -/
theorem Accepts.housed {g' : Generator} {events : List Event} (h : Accepts g events g')
    (hb : g.inventory.Stocked sizes) (hh : g.inventory.tables.Housed sizes g.pool) :
    g'.inventory.tables.Housed sizes g'.pool := by
  induction h with
  | nil g => exact hh
  | cons hfirst _ ih =>
    exact ih (((Compile.rearranges_apply _).of_yields hfirst).stocked hb)
      ((Compile.places_apply hfirst hb).housed hb hh)

theorem housed_ofSizes (sizes : Sizes) (threshold : Level) :
    (Generator.ofSizes sizes threshold).inventory.tables.Housed sizes
    (Generator.ofSizes sizes threshold).pool :=
  ⟨.empty fun a _ _ => Pool.isLive_ofLayout _ a, .empty fun a _ _ => Pool.isLive_ofLayout _ a⟩

/-- The variables of a segment. -/
def Generator.variables (g : Generator) : Segment → Table String Variable
  | .globals => g.globals
  | .locals => g.locals
  | _ => Table.empty

/-- Each block lies in the run of its variable's type, in the segment of its table, and all its
slots are out; no two blocks have a slot in common.  What is handed out next belongs to no variable;
nor does the block that a variable gets for the slot that it gives back belong to another. -/
structure Generator.VariablesApart (sizes : Sizes) (g : Generator) : Prop where
  nonempty : ∀ segment id v, (g.variables segment).find? id = some v → v.Occupies v.address
  inside : ∀ segment id v, (g.variables segment).find? id = some v → ∀ a, v.Occupies a →
    ((Layout.ofSizes sizes).range segment v.ty.storage).contains a = true ∧ g.pool.isLive a = true
  /-- The end of a block is a word. -/
  word : ∀ segment id v, (g.variables segment).find? id = some v → IsWord (v.address + v.cells)
  apart : ∀ segment id v segment' id' v', (g.variables segment).find? id = some v →
    (g.variables segment').find? id' = some v' →
    ∀ a, v.Occupies a → v'.Occupies a → segment = segment' ∧ id = id'
  slot : ∀ ty segment a p, g.pool.allocate ty segment = .ok (a, p) →
    ∀ segment' id v, (g.variables segment').find? id = some v → ¬ v.Occupies a
  block : ∀ ty segment len base p, g.pool.allocateBlock ty segment len = .ok (base, p) →
    ∀ segment' id v, (g.variables segment').find? id = some v →
      ∀ a, v.Occupies a → ¬ (base ≤ a ∧ a < base + max len 1)
  layout : ∀ segment id v p ty len base p', (g.variables segment).find? id = some v →
    g.pool.release v.address = .ok p →
    p.allocateBlock ty segment len = .ok (base, p') →
    ∀ segment' id' v', (g.variables segment').find? id' = some v' →
      (segment', id') ≠ (segment, id) →
      ∀ a, v'.Occupies a → ¬ (base ≤ a ∧ a < base + max len 1)

theorem Generator.owns_variables (hh : g.inventory.tables.Housed sizes g.pool) {id : String}
    (hv : (g.variables segment).find? id = some v) :
    Owns sizes g.pool segment (g.variables segment) := by
  cases segment with
  | globals => exact hh.globals
  | locals => exact hh.locals
  | temporaries => cases hv
  | constants => cases hv

theorem Generator.stocked_variables (hb : g.inventory.Stocked sizes) {id : String}
    (hv : (g.variables segment).find? id = some v) :
    v.Stocked sizes g.program.constants segment := by
  cases segment with
  | globals => exact hb.globals id v hv
  | locals => exact hb.locals id v hv
  | temporaries => cases hv
  | constants => cases hv

/-- The block of a variable ends in a word. -/
theorem Generator.isWord_block (hsizes : sizes.Addressable) (hb : g.inventory.Stocked sizes)
    {id : String} (hv : (g.variables segment).find? id = some v) : IsWord (v.address + v.cells) :=
  .of_le (stocked_variables hb hv).le_heapStart hsizes

theorem Generator.variablesApart (hsizes : sizes.Addressable) (hb : g.inventory.Stocked sizes)
    (hh : g.inventory.tables.Housed sizes g.pool) : g.VariablesApart sizes := by
  have hp : g.pool.Valid sizes := hb.pool
  have hlocated : ∀ segment id v, (g.variables segment).find? id = some v → ∀ a, v.Occupies a →
      Located sizes a segment v.ty.storage :=
        fun segment id v hv a ha => (owns_variables hh hv).inside id v a hv ha
  have hlive : ∀ segment id v, (g.variables segment).find? id = some v → ∀ a,
      v.Occupies a → g.pool.isLive a = true :=
    fun segment id v hv a ha => (owns_variables hh hv).isLive hv ha
  have hapart : ∀ segment id v segment' id' v', (g.variables segment).find? id = some v →
      (g.variables segment').find? id' = some v' →
      ∀ a, v.Occupies a → v'.Occupies a → segment = segment' ∧ id = id' := by
    intro segment id v segment' id' v' hv hv' a ha ha'
    obtain ⟨rfl, -⟩ := (hlocated segment id v hv a ha).unique (hlocated segment' id' v' hv' a ha')
    exact ⟨rfl, (owns_variables hh hv).apart id v id' v' a hv hv' ha ha'⟩
  refine ⟨fun segment id v hv => (stocked_variables hb hv).occupies_address, ?_,
    fun segment id v hv => isWord_block hsizes hb hv, hapart, ?_, ?_, ?_⟩
  · intro segment id v hv a ha
    exact ⟨(Layout.locate_eq_some (hlocated segment id v hv a ha)).2, hlive segment id v hv a ha⟩
  · intro ty segment a p hallocate segment' id v hv ha
    have hout := hlive segment' id v hv a ha
    rw [(hp.allocate hallocate).fresh] at hout
    cases hout
  · rintro ty segment len base p hblock segment' id v hv a ha ⟨hlo, hhi⟩
    have hout := hlive segment' id v hv a ha
    rw [(hp.allocateBlock_fresh hblock hlo hhi).2] at hout
    cases hout
  · rintro segment id v p ty len base p' hv hrelease hblock segment' id' v' hv' hne a ha ⟨hlo, hhi⟩
    -- the slot of another variable is not the one given back, and stays out
    have hgives := hp.release hrelease
    have hout : p.isLive a = true := by
      refine (hgives.live a).mpr ⟨hlive segment' id' v' hv' a ha, ?_⟩
      rintro rfl
      obtain ⟨rfl, rfl⟩ := hapart _ _ _ _ _ _ hv' hv _ ha (stocked_variables hb hv).occupies_address
      exact hne rfl
    rw [(hgives.valid.allocateBlock_fresh hblock hlo hhi).2] at hout
    cases hout

/-- After every accepted script over sizes that a word can address, the variables of both tables are
apart, each in its own place and none past the largest word, and stay so whatever is handed out
next.  A dimension whose block would end past the largest word is an overflow, and a script with one
is not accepted. -/
theorem variables_never_overlap {sizes : Sizes} (hsizes : sizes.Addressable) {threshold : Level}
    {events : List Event} {g : Generator}
    (h : Compile.applyFrom 0 events (.ofSizes sizes threshold) = (.ok (), g)) :
    g.VariablesApart sizes := by
  have haccepts := Accepts.of_applyFrom h
  have hb := Inventory.stocked_ofSizes sizes threshold
  exact g.variablesApart hsizes (haccepts.rearranges.stocked hb)
    (haccepts.housed hb (housed_ofSizes sizes threshold))

/-- A global array is laid out and hidden by a local one, whose first slot then goes to another
local. -/
def reusedSlot : List Event :=
  [.declareVariable "x" (.scalar .int), .declareArrayDimension 2, .allocateArray,
    .declareFunction "main", .declareVariable "a" (.scalar .int),
    .declareVariable "x" (.scalar .int), .declareArrayDimension 2,
    .declareArrayDimension 2, .allocateArray, .declareVariable "b" (.scalar .int)]

theorem variables_never_overlap_reusedSlot :
    ∃ g, Compile.applyFrom 0 reusedSlot (.ofSizes (Sizes.uniform 8) .warn) = (.ok (), g) ∧
      (g.globals.find? "x").map (fun v => (v.address, v.cells)) = some (0, 2) ∧
      (g.locals.find? "x").map (fun v => (v.address, v.cells)) = some (42, 4) ∧
      (g.locals.find? "b").map (fun v => (v.address, v.cells)) = some (41, 1) ∧
      g.VariablesApart (Sizes.uniform 8) := by
  obtain ⟨g, h⟩ := exists_of_applyFrom
    (show (Compile.applyFrom 0 reusedSlot (.ofSizes (Sizes.uniform 8) .warn)).1 = .ok ()
      by decide +kernel)
  have hg : g = (Compile.applyFrom 0 reusedSlot (.ofSizes (Sizes.uniform 8) .warn)).2 := by rw [h]
  exact ⟨g, h, by rw [hg]; decide +kernel, by rw [hg]; decide +kernel, by rw [hg]; decide +kernel,
    variables_never_overlap (by decide) h⟩

end Quadruple
