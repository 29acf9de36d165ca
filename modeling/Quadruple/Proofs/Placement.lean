/-
  What accepted events do to variables and their slots.

  Most events leave all tables alone and take and give back temporaries and constants only, so no
  slot of a variable comes or goes (`Pool.KeepsVariables`).  Seven kinds of events do one thing
  each.  `Places` lists them: it says what an accepted event does to the tables and to the slots of
  variables.  The compiler's steps are opened for this in one place (`places_apply`):

      Yields (apply e) g () g'  →  Places sizes g.inventory g'.inventory e
-/
import Quadruple.Proofs.Stocktaking

namespace Quadruple

open Relation
open Compile (elementCount)

variable {sizes : Sizes}
variable {id : String}

/-! ## Slots of variables -/

def Segment.holdsVariables : Segment → Bool
  | .globals | .locals => true
  | _ => false

namespace Pool

variable {p p' p'' : Pool} {segment : Segment} {ty : Scalar} {a : Nat}

/-- The same slots of variables are out. -/
def KeepsVariables (sizes : Sizes) (p p' : Pool) : Prop :=
  ∀ (a : Nat) (segment : Segment) (ty : Scalar), segment.holdsVariables = true →
    Located sizes a segment ty →
    p'.isLive a = p.isLive a

theorem KeepsVariables.refl (sizes : Sizes) (p : Pool) :
    KeepsVariables sizes p p := fun _ _ _ _ _ => rfl

theorem KeepsVariables.trans (h : KeepsVariables sizes p p') (h' : KeepsVariables sizes p' p'') :
    KeepsVariables sizes p p'' :=
  fun a segment ty hsegment hlocated =>
    (h' a segment ty hsegment hlocated).trans (h a segment ty hsegment hlocated)

/-- Taking an address concerns its own segment only. -/
theorem Takes.isLive_elsewhere (h : Takes sizes p segment ty a p') {b : Nat}
    {segment' : Segment} {ty' : Scalar} (hb : Located sizes b segment' ty')
    (hne : segment' ≠ segment) : p'.isLive b = p.isLive b := by
  rw [Bool.eq_iff_iff, h.live]
  refine or_iff_left ?_
  rintro rfl
  exact hne (h.located.unique hb).1

theorem Gives.isLive_elsewhere (h : Gives sizes p a p') (ha : Located sizes a segment ty) {b : Nat}
    {segment' : Segment} {ty' : Scalar} (hb : Located sizes b segment' ty')
    (hne : segment' ≠ segment) : p'.isLive b = p.isLive b := by
  rw [Bool.eq_iff_iff, h.live]
  refine and_iff_left ?_
  rintro rfl
  exact hne (ha.unique hb).1

theorem Takes.keepsVariables (h : Takes sizes p segment ty a p')
    (hsegment : segment.holdsVariables = false) : KeepsVariables sizes p p' := by
  intro b segment' ty' hsegment' hb
  refine h.isLive_elsewhere hb ?_
  rintro rfl
  rw [hsegment] at hsegment'
  cases hsegment'

theorem Gives.keepsVariables (h : Gives sizes p a p') (ha : Temporary sizes a) :
    KeepsVariables sizes p p' := by
  intro b segment' ty' hsegment' hb
  rw [Bool.eq_iff_iff, h.live]
  refine and_iff_left ?_
  rintro rfl
  cases hb.segmentOf.symm.trans ha
  cases hsegment'

end Pool

namespace Inventory

variable {b b' : Inventory}

theorem pool_setVariable (b : Inventory) (id : String) (v : Variable) :
    (b.setVariable id v).pool = b.pool := by
  unfold setVariable
  split
  · rfl
  · rfl

theorem tables_setVariable (h : b'.tables = b.tables) (id : String) (v : Variable) :
    (b'.setVariable id v).tables = (b.setVariable id v).tables := by
  obtain ⟨_, _, _, _, globals, locals, last, functions, current, _⟩ := b
  obtain ⟨_, _, _, _, globals', locals', last', functions', current', _⟩ := b'
  obtain ⟨rfl, rfl, rfl, rfl, rfl⟩ := Tables.mk.injEq .. ▸ h
  unfold setVariable
  dsimp only
  split
  · rfl
  · rfl

/-- A change that declares nothing is none of the slots of variables. -/
theorem Work.keepsVariables (h : Work sizes b b') :
    Pool.KeepsVariables sizes b.pool b'.pool := by
  obtain ⟨hchange, htables⟩ := h
  cases hchange with
  | take htakes => exact htakes.keepsVariables rfl
  | give htemporary hgives => exact hgives.keepsVariables htemporary
  | literal _ _ htakes => exact htakes.keepsVariables rfl
  | code | returnType | parameter => exact .refl sizes _
  | dimension =>
    rw [pool_setVariable]
    exact .refl sizes _
  | openFunction hclosed =>
    have hopen := congrArg Tables.currentFunction htables
    cases hopen.trans hclosed
  | closeFunction hopen =>
    have hclosed := congrArg Tables.currentFunction htables
    cases hclosed.trans hopen
  | @declareLocal f id ty a p last _ hnew _ =>
    have hsame : (b.locals.insert id ⟨a, ty, [], []⟩).find? id = b.locals.find? id :=
      congrArg (fun t : Tables => t.locals.find? id) htables
    rw [Table.find?_insert_self, hnew] at hsame
    cases hsame
  | @declareGlobal id ty a p _ hnew _ =>
    have hsame : (b.globals.insert id ⟨a, ty, [], []⟩).find? id = b.globals.find? id :=
      congrArg (fun t : Tables => t.globals.find? id) htables
    rw [Table.find?_insert_self, hnew] at hsame
    cases hsame

/-- So is any number of such changes. -/
theorem keeps_of_work (h : ReflTransGen (Work sizes) b b') :
    b'.tables = b.tables ∧ Pool.KeepsVariables sizes b.pool b'.pool := by
  induction h with
  | refl => exact ⟨rfl, .refl sizes _⟩
  | tail _ hlast ih => exact ⟨hlast.tables.trans ih.1, ih.2.trans hlast.keepsVariables⟩

/-- The segment of the table that a variable in scope belongs to. -/
def segmentOf (b : Inventory) (id : String) : Segment :=
  if b.locals.contains id then .locals else .globals

/-! ## One event -/

/-- What an accepted event does to variables. -/
inductive Places (sizes : Sizes) (b b' : Inventory) : Event → Prop
  | keeps {e : Event} (he : e.keepsTables = true) (htables : b'.tables = b.tables)
      (hpool : Pool.KeepsVariables sizes b.pool b'.pool) : Places sizes b b' e
  /-- Open a function, outside of every function. -/
  | opens {id : String} {start : Nat} (hclosed : b.currentFunction = none)
      (htables : b'.tables = { b.tables with
        functions := b.functions.insert id (Routine.startingAt start), currentFunction :=
          some id, locals := Table.empty })
      (hpool : b'.pool = b.pool) : Places sizes b b' (.declareFunction id)
  /-- Give the open function a result type. -/
  | types {ty : TypeName} {f : String} {r : Routine} (hopen : b.currentFunction = some f)
      (hr : b.functions.find? f = some r)
      (htables : b'.tables = { b.tables with
        functions := b.functions.insert f { r with returnType := some ty } })
      (hpool : b'.pool = b.pool) : Places sizes b b' (.setFunctionType ty)
  /-- Give the open function one more parameter. -/
  | parameter {id : String} {ty : TypeName} {f : String} {r : Routine} {a : Nat}
      (hopen : b.currentFunction = some f)
      (hr : b.functions.find? f = some r) (hnew : b.locals.find? id = none)
      (htakes : b.pool.allocate ty.storage .locals = .ok (a, b'.pool))
      (htables : b'.tables = { b.tables with
        locals := b.locals.insert id ⟨a, ty, [], []⟩
        functions := b.functions.insert f { r with
          paramTypes := r.paramTypes ++ [ty], paramAddresses := r.paramAddresses ++ [a] } }) :
      Places sizes b b' (.declareParam id ty)
  | localVariable {id : String} {ty : TypeName} {f : String} {a : Nat}
      (hopen : b.currentFunction = some f) (hnew : b.locals.find? id = none)
      (htakes : b.pool.allocate ty.storage .locals = .ok (a, b'.pool))
      (htables : b'.tables = { b.tables with
        locals := b.locals.insert id ⟨a, ty, [], []⟩, lastDeclared := some id }) :
      Places sizes b b' (.declareVariable id ty)
  | globalVariable {id : String} {ty : TypeName} {a : Nat} (hclosed : b.currentFunction = none)
      (hnew : b.globals.find? id = none)
      (htakes : b.pool.allocate ty.storage .globals = .ok (a, b'.pool))
      (htables : b'.tables = { b.tables with
        globals := b.globals.insert id ⟨a, ty, [], []⟩, lastDeclared := some id }) :
      Places sizes b b' (.declareVariable id ty)
  | dimension {id : String} {v : Variable} {n : Nat} (hlast : b.lastDeclared = some id)
      (hv : b.lookup id = some v)
      (htables : b'.tables =
        (b.setVariable id { v with pendingSizes := v.pendingSizes ++ [n] }).tables)
      (hpool : b'.pool = b.pool) : Places sizes b b' (.declareArrayDimension n)
  /-- The variable declared last gives its slot back and moves to a block of its segment. -/
  | laysOut {id : String} {v : Variable} {ds : List Dimension} {base : Nat} {p p' : Pool}
      (hlast : b.lastDeclared = some id) (hv : b.lookup id = some v) (hscalar : v.dimensions = [])
      (hpending : v.pendingSizes ≠ []) (hds : ds.map (·.size) = v.pendingSizes)
      (hgives : b.pool.release v.address = .ok p)
      (hblock : p.allocateBlock v.ty.storage (b.segmentOf id) (elementCount v.pendingSizes) =
        .ok (base, p'))
      (hpool : Pool.KeepsVariables sizes p' b'.pool)
      (htables : b'.tables =
        (b.setVariable id { v with
          address := base, pendingSizes := [], dimensions := ds }).tables) :
      Places sizes b b' .allocateArray
  | closes {f : String} {r : Routine} {slots : SlotCounts} (hopen : b.currentFunction = some f)
      (hpool : b'.pool = (b.pool.releaseSegment .locals).releaseSegment .temporaries)
      (htables : b'.tables = { b.tables with
        functions := b.functions.insert f { r with slots := slots }
        locals := Table.empty, currentFunction := none, lastDeclared := none }) : Places sizes b b'
          .endFunction

end Inventory

namespace Compile

open Inventory (Places)

variable {g g' : Generator} {u : Unit}
variable {ty : TypeName}

theorem places_declareFunction (h : Yields (declareFunction id) g u g') :
    Places sizes g.inventory g'.inventory (.declareFunction id) := by
  obtain ⟨journal, hclosed, -, rfl⟩ := yields_declareFunction h
  exact .opens hclosed rfl rfl

theorem places_setFunctionType (h : Yields (setFunctionType ty) g u g') :
    Places sizes g.inventory g'.inventory (.setFunctionType ty) := by
  obtain ⟨f, r, hopen, hr, rfl⟩ := yields_setFunctionType h
  exact .types hopen hr rfl rfl

theorem places_declareParam (h : Yields (declareParam id ty) g u g') :
    Places sizes g.inventory g'.inventory (.declareParam id ty) := by
  obtain ⟨f, r, a, g₁, names, hopen, hnew, htaken, hr, rfl⟩ := yields_declareParam h
  obtain ⟨p, journal, hallocate, rfl⟩ := allocate_of_yields htaken
  exact .parameter hopen hr hnew hallocate rfl

theorem places_declareVariable (h : Yields (declareVariable id ty) g u g') :
    Places sizes g.inventory g'.inventory (.declareVariable id ty) := by
  obtain ⟨a, p, journal, ⟨f, hopen, hnew, hallocate, rfl⟩ | ⟨hclosed, hnew, hallocate, rfl⟩⟩ :=
    declareVariable_cases h
  · exact .localVariable hopen hnew hallocate rfl
  · exact .globalVariable hclosed hnew hallocate rfl

theorem places_declareArrayDimension {n : Nat} (h : Yields (declareArrayDimension n) g u g') :
    Places sizes g.inventory g'.inventory (.declareArrayDimension n) := by
  obtain ⟨id, v, hlast, hv, rfl⟩ := yields_declareArrayDimension h
  rw [Generator.inventory_setVariable]
  exact .dimension hlast hv rfl (Inventory.pool_setVariable _ _ _)

/-- An array is placed where its scalar slot was given up. -/
theorem places_allocateArray (h : Yields allocateArray g u g') (hb : g.inventory.Stocked sizes) :
    Places sizes g.inventory g'.inventory .allocateArray := by
  obtain ⟨id, v, p, base, p', ds, g₁, hlast, hv, hpending, hscalar, hrelease, hblock, hds,
      hplaced⟩ :=
    yields_allocateArray h
  have hlocated := (hb.lookup hv).located
  -- the variable lies in the segment of its table, and so will its block
  have hsegment : (g.pool.layout.segmentOf v.address).getD .globals = g.inventory.segmentOf id := by
    rw [show g.pool.layout = .ofSizes sizes from hb.pool.layout, hlocated.segmentOf]
    rfl
  rw [hsegment] at hblock
  have hb₁ :=
    (Inventory.Relocation.vacate (b := g.inventory) hv (hb.pool.release hrelease)).stocked hb
  have hb₂ : Inventory.Stocked sizes { g.inventory with pool := p' } := by
    refine (Inventory.Relocation.reserve (b := { g.inventory with pool := p }) ?_
      (hb₁.pool.allocateBlock hblock)).stocked hb₁
    unfold Inventory.segmentOf
    split
    · exact nofun
    · exact nofun
  -- the constants of the dimensions concern no variable
  have hworks : Generator.Works sizes { g with pool := p' } g₁ :=
    (works_dimensionConstants _).of_yields hds
  obtain ⟨hkept, hpool⟩ := Inventory.keeps_of_work (hworks hb₂)
  have htables : g₁.inventory.tables = g.inventory.tables := hkept
  rw [Generator.inventory_setVariable] at hplaced
  refine .laysOut hlast hv hscalar hpending (sizes_of_dimensionConstants hds) hrelease hblock ?_ ?_
  · rw [hplaced, Inventory.pool_setVariable]
    exact hpool
  · rw [hplaced]
    exact Inventory.tables_setVariable htables id _

theorem places_endFunction (h : Yields endFunction g u g') :
    Places sizes g.inventory g'.inventory .endFunction := by
  obtain ⟨f, r, journal, hopen, -, -, rfl⟩ := yields_endFunction h
  exact .closes (r := r) hopen rfl rfl

/-- An accepted event places what it declares, and nothing else moves. -/
theorem places_dispatch {e : Event} (h : Yields (dispatch e) g u g')
    (hb : g.inventory.Stocked sizes) : Places sizes g.inventory g'.inventory e := by
  cases hkeeps : e.keepsTables with
  | true =>
    obtain ⟨htables, hpool⟩ := Inventory.keeps_of_work ((works_dispatch hkeeps).of_yields h hb)
    exact .keeps hkeeps htables hpool
  | false =>
    cases e with
    | declareFunction id => exact places_declareFunction h
    | setFunctionType ty => exact places_setFunctionType h
    | declareParam id ty => exact places_declareParam h
    | declareVariable id ty => exact places_declareVariable h
    | declareArrayDimension n => exact places_declareArrayDimension h
    | allocateArray => exact places_allocateArray h hb
    | endFunction => exact places_endFunction h
    | _ => cases hkeeps

/-- What an accepted event does to variables. -/
theorem places_apply {e : Event} (h : Yields (apply e) g u g') (hb : g.inventory.Stocked sizes) :
    Places sizes g.inventory g'.inventory e := by
  obtain ⟨finishedCall, journal, hdispatch⟩ := exists_dispatch_of_apply h
  exact places_dispatch (g := { g with finishedCall := finishedCall, journal := journal })
    hdispatch hb

end Compile

end Quadruple
