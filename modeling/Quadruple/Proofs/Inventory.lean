/-
  What the compiler has given out: addresses, constants, variables, functions and code.

  An inventory is the part of a generator that later code relies on.  It is stocked when the slots
  it records are in the right places (`Inventory.Stocked`): constants keep their addresses and
  literals lead to them, variables lie in their own segment with their whole block, and the
  dimensions of an array are described by its constants.

  Few things ever change it.  They are listed once: `Change` for what every event does, whether it
  is accepted or refused, and `Relocation` for the parts of laying out an array, which moves a
  variable.  Each keeps the inventory stocked and takes nothing back that was promised: constants
  stay, quads other than jumps stay, and frames only grow:

      Change b b' ∨ Relocation b b'  →  Stocked b  →  Stocked b' ∧ Since b b'
-/
import Mathlib.Logic.Relation
import Quadruple.Proofs.Bookkeeping
import Quadruple.Proofs.LiveAddresses
import Quadruple.Proofs.Stages

namespace Quadruple

variable {constants constants' : Table Nat Constant} {a : Nat} {v : Variable} {segment : Segment}
  {p : Pool} {f : String}

open Compile (elementCount)

/-! ## Addresses -/

namespace Pool

variable {sizes : Sizes} {p p' : Pool} {segment : Segment} {ty : Scalar} {a : Nat}

/-- A block ends inside its run. -/
theorem Valid.block_le (hp : p.Valid sizes) {len : Nat}
    (h : p.allocateBlock ty segment len = .ok (a, p')) :
    a + len ≤ ((Layout.ofSizes sizes).range segment ty).limit := by
  unfold Pool.allocateBlock at h
  split at h
  · rename_i s htake
    cases h
    obtain ⟨⟨-, hroom⟩, rfl, -⟩ := Supply.takeFresh_eq_ok_iff.mp htake
    rw [hp.range_supply] at hroom
    omega
  · cases h

/-- Temporaries and locals can be taken back without touching constants. -/
theorem Valid.isLive_released (hp : p.Valid sizes) (hlocated : Located sizes a .constants ty) :
    ((p.releaseSegment .locals).releaseSegment .temporaries).isLive a = p.isLive a := by
  rw [isLive_releaseSegment_of_ne (hp.releaseSegment .locals) hlocated (by decide),
    isLive_releaseSegment_of_ne hp hlocated (by decide)]

end Pool

/-! ## Constants and dimensions -/

/-- The constant at the address has the value. -/
def HasValue (constants : Table Nat Constant) (a : Nat) (v : Value) : Prop :=
  ∃ c, constants.find? a = some c ∧ c.value = v

/-- The second table has every constant of the first. -/
def KeepsConstants (constants constants' : Table Nat Constant) : Prop :=
  ∀ a c, constants.find? a = some c → constants'.find? a = some c

theorem HasValue.mono {v : Value} (h : HasValue constants a v)
    (hkeeps : KeepsConstants constants constants') : HasValue constants' a v := by
  obtain ⟨c, hc, hv⟩ := h
  exact ⟨c, hkeeps a c hc, hv⟩

/-- Sizes are positive, each is held by its constant, and so is the number of elements that a step
in each dimension but the last skips. -/
inductive Describes (constants : Table Nat Constant) : List Dimension → Prop
  | nil : Describes constants []
  | last {d : Dimension} (pos : 0 < d.size)
      (size : HasValue constants d.sizeConstant (.int (Int64.ofInt d.size)))
      (stride : d.strideConstant = none) : Describes constants [d]
  | cons {d next : Dimension} {later : List Dimension} {stride : Nat} (pos : 0 < d.size)
      (size : HasValue constants d.sizeConstant (.int (Int64.ofInt d.size)))
      (stride_eq : d.strideConstant = some stride)
      (product : HasValue constants stride
        (.int (Int64.ofInt (elementCount ((next :: later).map (·.size))))))
      (rest : Describes constants (next :: later)) : Describes constants (d :: next :: later)

theorem Describes.mono {ds : List Dimension} (h : Describes constants ds)
    (hkeeps : KeepsConstants constants constants') : Describes constants' ds := by
  induction h with
  | nil => exact .nil
  | last pos size stride => exact .last pos (size.mono hkeeps) stride
  | cons pos size stride_eq product _ ih =>
    exact .cons pos (size.mono hkeeps) stride_eq (product.mono hkeeps) ih

/-- A variable of the segment: its block lies in the run of its type, and its dimensions are
described. -/
structure Variable.Stocked (sizes : Sizes) (constants : Table Nat Constant) (segment : Segment)
    (v : Variable) :
    Prop where
  located : Located sizes v.address segment v.ty.storage
  block : v.address + elementCount (v.dimensions.map (·.size)) ≤
    ((Layout.ofSizes sizes).range segment v.ty.storage).limit
  pending : ∀ n ∈ v.pendingSizes, 0 < n
  dimensions : Describes constants v.dimensions

/-- The block of a variable lies below the heap. -/
theorem Variable.Stocked.le_heapStart {sizes : Sizes} (h : v.Stocked sizes constants segment) :
    v.address + elementCount (v.dimensions.map (·.size)) ≤ (Layout.ofSizes sizes).heapStart :=
  Nat.le_trans h.block (Layout.limit_le_heapStart _ _)

theorem Variable.Stocked.mono {sizes : Sizes} (h : v.Stocked sizes constants segment)
    (hkeeps : KeepsConstants constants constants') : v.Stocked sizes constants' segment :=
  ⟨h.located, h.block, h.pending, h.dimensions.mono hkeeps⟩

/-- A variable that was just declared. -/
theorem Variable.stocked_new {sizes : Sizes} {ty : TypeName}
    (h : Located sizes a segment ty.storage) (constants : Table Nat Constant) :
    (⟨a, ty, [], []⟩ : Variable).Stocked sizes constants segment := by
  refine ⟨h, ?_, List.forall_mem_nil _, .nil⟩
  have hin := (Layout.contains_iff _ _).mp (Layout.locate_eq_some h).2
  exact hin.2

/-! ## The inventory -/

/-- What the compiler has given out. -/
structure Inventory where
  sizes : Sizes
  pool : Pool
  literals : List (Value × Nat)
  constants : Table Nat Constant
  globals : Table String Variable
  locals : Table String Variable
  lastDeclared : Option String
  functions : Table String Routine
  currentFunction : Option String
  quads : Array Quad

def Generator.inventory (g : Generator) : Inventory where
  sizes := g.program.sizes
  pool := g.pool
  literals := g.literals
  constants := g.program.constants
  globals := g.globals
  locals := g.locals
  lastDeclared := g.lastDeclared
  functions := g.program.functions
  currentFunction := g.currentFunction
  quads := g.program.quads

namespace Inventory

/-- A variable in scope; locals hide globals. -/
def lookup (b : Inventory) (id : String) : Option Variable :=
  match b.locals.find? id with
  | some v => some v
  | none => b.globals.find? id

/-- Change a variable in scope. -/
def setVariable (b : Inventory) (id : String) (v : Variable) : Inventory :=
  if b.locals.contains id then { b with locals := b.locals.insert id v }
  else { b with globals := b.globals.insert id v }

end Inventory

theorem Generator.lookup_inventory (g : Generator) (id : String) :
    g.inventory.lookup id = g.lookup id := rfl

theorem Generator.inventory_setVariable (g : Generator) (id : String) (v : Variable) :
    (g.setVariable id v).inventory = g.inventory.setVariable id v := by
  unfold Generator.setVariable Inventory.setVariable
  show Generator.inventory (if g.locals.contains id = true then _ else _) = if g.locals.contains
      id = true then _ else _
  split
  · rfl
  · rfl

namespace Inventory

/-- Constants keep their addresses, literals lead to them, variables lie in their own segment, the
open function is known, and only an open function has locals. -/
structure Stocked (sizes : Sizes) (b : Inventory) : Prop where
  sizes_eq : b.sizes = sizes
  pool : b.pool.Valid sizes
  constants : ∀ a c, b.constants.find? a = some c →
    b.pool.isLive a = true ∧ Located sizes a .constants c.value.scalar
  literals : ∀ x ∈ b.literals, ∃ c, b.constants.find? x.2 = some c ∧ c.value.canonical = x.1
  globals : ∀ id v, b.globals.find? id = some v → v.Stocked sizes b.constants .globals
  locals : ∀ id v, b.locals.find? id = some v → v.Stocked sizes b.constants .locals
  opened : ∀ f, b.currentFunction = some f → ∃ r, b.functions.find? f = some r
  closed : b.currentFunction = none → b.locals = Table.empty

variable {sizes : Sizes} {b b' b'' : Inventory}

theorem stocked_ofSizes (sizes : Sizes) (threshold : Level) :
    (Generator.ofSizes sizes threshold).inventory.Stocked sizes where
  sizes_eq := rfl
  pool := Pool.valid_ofLayout sizes
  constants := by
    rintro a c ⟨⟩
  literals := List.forall_mem_nil _
  globals := by
    rintro id v ⟨⟩
  locals := by
    rintro id v ⟨⟩
  opened := by
    rintro f ⟨⟩
  closed _ := rfl

/-- A variable in scope lies in the segment of its table. -/
theorem Stocked.lookup (h : b.Stocked sizes) {id : String} (hv : b.lookup id = some v) :
    v.Stocked sizes b.constants (if b.locals.contains id then .locals else .globals) := by
  unfold Inventory.lookup at hv
  unfold Table.contains
  split at hv
  · rename_i w hw
    cases hv
    rw [hw]
    exact h.locals id v hw
  · rename_i hnone
    rw [hnone]
    exact h.globals id v hv

/-- The pool may change as long as constants stay live. -/
theorem Stocked.withPool (h : b.Stocked sizes) (hp : p.Valid sizes)
    (hlive : ∀ {a ty}, Located sizes a .constants ty → b.pool.isLive a = true → p.isLive a = true) :
    ({ b with pool := p } : Inventory).Stocked sizes :=
  { h with
    pool := hp
    constants :=
      fun a c hc => ⟨hlive (h.constants a c hc).2 (h.constants a c hc).1, (h.constants a c hc).2⟩ }

theorem Stocked.take (h : b.Stocked sizes) {ty : Scalar}
    (htakes : Pool.Takes sizes b.pool segment ty a p) :
    ({ b with pool := p } : Inventory).Stocked sizes :=
  h.withPool htakes.valid fun _ hlive => (htakes.live _).mpr (Or.inl hlive)

/-- Only a constant's own address is one of a constant. -/
theorem Stocked.give (h : b.Stocked sizes) (hgives : Pool.Gives sizes b.pool a p)
    (ha : ∀ ty, ¬ Located sizes a .constants ty) :
    ({ b with pool := p } : Inventory).Stocked sizes := by
  refine h.withPool hgives.valid fun hlocated hlive => (hgives.live _).mpr ⟨hlive, ?_⟩
  rintro rfl
  exact ha _ hlocated

theorem Stocked.setVariable (h : b.Stocked sizes) (id : String)
    (hv : v.Stocked sizes b.constants (if b.locals.contains id then .locals else .globals)) :
    (b.setVariable id v).Stocked sizes := by
  unfold Inventory.setVariable
  split
  · rename_i hlocal
    rw [if_pos hlocal] at hv
    refine { h with locals := Table.forall_insert h.locals hv, closed := fun hnone => ?_ }
    rw [h.closed hnone] at hlocal
    exact (Bool.false_ne_true hlocal).elim
  · rename_i hlocal
    rw [if_neg hlocal] at hv
    exact { h with globals := Table.forall_insert h.globals hv }

/-- The address of a new constant is that of no other. -/
theorem Stocked.keepsConstants_insert (h : b.Stocked sizes) {ty : Scalar}
    (htakes : Pool.Takes sizes b.pool segment ty a p) (c : Constant) :
    KeepsConstants b.constants (b.constants.insert a c) := by
  intro a' c' hc'
  rw [Table.find?_insert_of_ne _ _ (htakes.ne_of_isLive (h.constants a' c' hc').1)]
  exact hc'

/-! ## Changes -/

/-- What events do to the inventory, whether they are accepted or refused.  Laying out an array is
apart. -/
inductive Change (sizes : Sizes) : Inventory → Inventory → Prop
  /-- A temporary is taken. -/
  | take {b : Inventory} {ty : Scalar} {a : Nat} {p : Pool}
      (htakes : Pool.Takes sizes b.pool .temporaries ty a p) :
      Change sizes b { b with pool := p }
  /-- A temporary is given back. -/
  | give {b : Inventory} {a : Nat} {p : Pool} (htemporary : Temporary sizes a)
      (hgives : Pool.Gives sizes b.pool a p) : Change sizes b { b with pool := p }
  /-- A literal is met for the first time. -/
  | literal {b : Inventory} {v : Value} {a : Nat} {p : Pool} (hscalar : v.scalar ≠ .pointer)
      (hnew : b.literals.find? (·.1 == v.canonical) = none)
      (htakes : Pool.Takes sizes b.pool .constants v.scalar a p) :
      Change sizes b { b with
        pool := p
        literals := (v.canonical, a) :: b.literals
        constants := b.constants.insert a ⟨v, v.scalar⟩ }
  /-- Quads are appended, or pending jumps get their targets. -/
  | code {b : Inventory} {quads : Array Quad} (hquads : Repatched b.quads quads) :
      Change sizes b { b with quads := quads }
  | openFunction {b : Inventory} {id : String} (hclosed : b.currentFunction = none)
      (hnew : b.functions.find? id = none) :
      Change sizes b { b with
        functions := b.functions.insert id (Routine.startingAt b.quads.size)
        currentFunction := some id
        locals := Table.empty }
  | returnType {b : Inventory} {f : String} {r : Routine} (ty : TypeName)
      (hopen : b.currentFunction = some f) (hr : b.functions.find? f = some r) :
      Change sizes b { b with functions := b.functions.insert f { r with returnType := some ty } }
  | declareLocal {b : Inventory} {f id : String} {ty : TypeName} {a : Nat} {p : Pool}
      (last : Option String) (hopen : b.currentFunction = some f) (hnew : b.locals.find? id = none)
      (htakes : Pool.Takes sizes b.pool .locals ty.storage a p) :
      Change sizes b { b with
        pool := p
        locals := b.locals.insert id ⟨a, ty, [], []⟩
        lastDeclared := last }
  /-- A local becomes a parameter. -/
  | parameter {b : Inventory} {f id : String} {r : Routine} {v : Variable}
      (hopen : b.currentFunction = some f)
      (hr : b.functions.find? f = some r) (hv : b.locals.find? id = some v) :
      Change sizes b { b with functions := b.functions.insert f { r with
        paramTypes := r.paramTypes ++ [v.ty], paramAddresses := r.paramAddresses ++ [v.address] } }
  | declareGlobal {b : Inventory} {id : String} {ty : TypeName} {a : Nat} {p : Pool}
      (hclosed : b.currentFunction = none) (hnew : b.globals.find? id = none)
      (htakes : Pool.Takes sizes b.pool .globals ty.storage a p) :
      Change sizes b { b with
        pool := p
        globals := b.globals.insert id ⟨a, ty, [], []⟩
        lastDeclared := some id }
  | dimension {b : Inventory} {id : String} {v : Variable} {n : Nat}
      (hlast : b.lastDeclared = some id) (hv : b.lookup id = some v) (hn : 0 < n) :
      Change sizes b (b.setVariable id { v with pendingSizes := v.pendingSizes ++ [n] })
  | closeFunction {b : Inventory} {f : String} {r : Routine} (hopen : b.currentFunction = some f)
      (hr : b.functions.find? f = some r) :
      Change sizes b { b with
        pool := (b.pool.releaseSegment .locals).releaseSegment .temporaries
        functions :=
          b.functions.insert f { r with slots := ⟨b.pool.peaks .locals, b.pool.peaks .temporaries⟩ }
        locals := Table.empty
        currentFunction := none
        lastDeclared := none }

/-- The parts of laying out an array: its slot is given back, a block is taken, and the variable
moves there. -/
inductive Relocation (sizes : Sizes) : Inventory → Inventory → Prop
  | vacate {b : Inventory} {id : String} {v : Variable} {p : Pool} (hv : b.lookup id = some v)
      (hgives : Pool.Gives sizes b.pool v.address p) : Relocation sizes b { b with pool := p }
  | reserve {b : Inventory} {segment : Segment} {ty : Scalar} {a : Nat} {p : Pool}
      (hsegment : segment ≠ .constants) (htakes : Pool.TakesBlock sizes b.pool segment ty a p) :
        Relocation sizes b { b with pool := p }
  | place {b : Inventory} {id : String} {v : Variable} {base : Nat} {ds : List Dimension}
      {segment : Segment}
      (hv : b.lookup id = some v) (hsegment : Located sizes v.address segment v.ty.storage)
      (hbase : Located sizes base segment v.ty.storage)
      (hblock : base + elementCount (ds.map (·.size)) ≤
        ((Layout.ofSizes sizes).range segment v.ty.storage).limit)
      (hds : Describes b.constants ds) :
      Relocation sizes b (b.setVariable id { v with
        address := base, pendingSizes := [], dimensions := ds })

/-- A change of what is known of the open function. -/
theorem opened_insert (hopen : b.currentFunction = some f) (r : Routine) :
    ∀ f', b.currentFunction = some f' → ∃ r', (b.functions.insert f r).find? f' = some r' := by
  intro f' hf'
  cases hopen.symm.trans hf'
  exact ⟨r, Table.find?_insert_self _ _ _⟩

/-- Every single change keeps the inventory in order. -/
theorem Change.stocked (h : Change sizes b b') (hb : b.Stocked sizes) : b'.Stocked sizes := by
  cases h with
  | take htakes => exact hb.take htakes
  | give htemporary hgives =>
    refine hb.give hgives fun ty hlocated => ?_
    exact hlocated.not_temporary (by decide) htemporary
  | @literal v a p hscalar hnew htakes =>
    have hkeeps := hb.keepsConstants_insert htakes ⟨v, v.scalar⟩
    refine ⟨hb.sizes_eq, htakes.valid, ?_, ?_, fun id w hw => (hb.globals id w hw).mono hkeeps,
      fun id w hw => (hb.locals id w hw).mono hkeeps, hb.opened, hb.closed⟩
    · refine Table.forall_insert (fun a' c hc => ?_) ⟨htakes.isLive, htakes.located⟩
      obtain ⟨hlive, hlocated⟩ := hb.constants a' c hc
      exact ⟨(htakes.live a').mpr (Or.inl hlive), hlocated⟩
    · rw [List.forall_mem_cons]
      refine ⟨⟨_, Table.find?_insert_self _ _ _, rfl⟩, ?_⟩
      intro x hx
      obtain ⟨c, hc, hcanonical⟩ := hb.literals x hx
      exact ⟨c, hkeeps x.2 c hc, hcanonical⟩
  | code hquads => exact { hb with }
  | @openFunction id hclosed hnew =>
    refine { hb with locals := ?_, opened := ?_, closed := nofun }
    · rintro id v ⟨⟩
    · rintro f ⟨⟩
      exact ⟨_, Table.find?_insert_self _ _ _⟩
  | returnType ty hopen hr => exact { hb with opened := opened_insert hopen _ }
  | declareLocal last hopen hnew htakes =>
    have hnew := Variable.stocked_new htakes.located b.constants
    refine { hb.take htakes with
      locals := Table.forall_insert hb.locals hnew, closed := fun hnone => ?_ }
    cases hopen.symm.trans hnone
  | parameter hopen hr hv => exact { hb with opened := opened_insert hopen _ }
  | declareGlobal hclosed hnew htakes =>
    have hnew := Variable.stocked_new htakes.located b.constants
    exact { hb.take htakes with globals := Table.forall_insert hb.globals hnew }
  | @dimension id v n hlast hv hn =>
    have hstocked := hb.lookup hv
    refine hb.setVariable id ⟨hstocked.located, hstocked.block, ?_, hstocked.dimensions⟩
    intro k hk
    rcases List.mem_append.mp hk with hk | hk
    · exact hstocked.pending k hk
    · rw [List.mem_singleton.mp hk]
      exact hn
  | closeFunction hopen hr =>
    have hpool := hb.pool.releaseSegment .locals
    refine { hb.withPool (hpool.releaseSegment .temporaries) ?_ with
      locals := ?_, opened := ?_, closed := fun _ => rfl }
    · intro a ty hlocated hlive
      rw [hb.pool.isLive_released hlocated]
      exact hlive
    · rintro id v ⟨⟩
    · rintro f ⟨⟩

theorem Relocation.stocked (h : Relocation sizes b b') (hb : b.Stocked sizes) :
    b'.Stocked sizes := by
  cases h with
  | @vacate id v p hv hgives =>
    refine hb.give hgives fun ty hconstant => ?_
    have hsegment := ((hb.lookup hv).located.unique hconstant).1
    split at hsegment
    · cases hsegment
    · cases hsegment
  | reserve hsegment htakes =>
    refine hb.withPool htakes.valid fun {a ty} hlocated hlive => ?_
    rwa [htakes.live a fun hlocated' => hsegment (hlocated.unique hlocated').1]
  | @place id v base ds segment hv hsegment hbase hblock hds =>
    refine hb.setVariable id ?_
    have hsame := ((hb.lookup hv).located.unique hsegment).1
    rw [← hsame]
    exact ⟨hbase, hblock, List.forall_mem_nil _, hds⟩

/-! ## What stays -/

/-- How many temporaries of a type the frames of a function have, as far as is known by now. -/
def temporaries (b : Inventory) (f : String) (ty : Scalar) : Nat :=
  if b.currentFunction = some f then b.pool.peak .temporaries ty
  else (b.functions.find? f).elim 0 (·.slots.temporaries.get ty)

theorem temporaries_of_open (h : b.currentFunction = some f) (ty : Scalar) :
    b.temporaries f ty = b.pool.peak .temporaries ty := if_pos h

theorem temporaries_of_ne (h : b.currentFunction ≠ some f) (ty : Scalar) :
    b.temporaries f ty = (b.functions.find? f).elim 0 (·.slots.temporaries.get ty) := if_neg h

/-- What was promised is kept: constants and code stay, and frames only grow. -/
structure Since (b b' : Inventory) : Prop where
  constants : KeepsConstants b.constants b'.constants
  quads : Repatched b.quads b'.quads
  temporaries : ∀ f ty, b.temporaries f ty ≤ b'.temporaries f ty

theorem Since.refl (b : Inventory) :
    Since b b := ⟨fun _ _ h => h, .refl _, fun _ _ => Nat.le_refl _⟩

theorem Since.trans (h : Since b b') (h' : Since b' b'') : Since b b'' :=
  ⟨fun a c hc => h'.constants a c (h.constants a c hc), h.quads.trans h'.quads,
    fun f ty => Nat.le_trans (h.temporaries f ty) (h'.temporaries f ty)⟩

/-- Only the pool changes, and its marks do not fall. -/
theorem Since.withPool (hpeak : ∀ segment ty, b.pool.peak segment ty ≤ p.peak segment ty) :
    Since b { b with pool := p } := by
  refine ⟨fun _ _ h => h, .refl _, fun f ty => ?_⟩
  unfold Inventory.temporaries
  split
  · exact hpeak _ _
  · exact Nat.le_refl _

/-- What is known of the open function does not count before it is closed. -/
theorem Since.insertOpen (hopen : b.currentFunction = some f) (r : Routine) :
    Since b { b with functions := b.functions.insert f r } := by
  refine ⟨fun _ _ h => h, .refl _, fun f' ty => Nat.le_of_eq ?_⟩
  by_cases hf : f' = f
  · simp only [Inventory.temporaries, hf, hopen, if_true]
  · simp only [Inventory.temporaries, Table.find?_insert_of_ne _ _ hf]

theorem since_setVariable (b : Inventory) (id : String) (v : Variable) :
    Since b (b.setVariable id v) := by
  unfold setVariable
  split
  · exact ⟨fun _ _ h => h, .refl _, fun _ _ => Nat.le_refl _⟩
  · exact ⟨fun _ _ h => h, .refl _, fun _ _ => Nat.le_refl _⟩

theorem Change.since (h : Change sizes b b') (hb : b.Stocked sizes) : Since b b' := by
  cases h with
  | take htakes => exact .withPool htakes.peak
  | give _ hgives => exact .withPool hgives.peak
  | literal _ _ htakes =>
    exact ⟨hb.keepsConstants_insert htakes _, .refl _, (Since.withPool htakes.peak).temporaries⟩
  | code hquads => exact ⟨fun _ _ h => h, hquads, fun _ _ => Nat.le_refl _⟩
  | @openFunction id hclosed hnew =>
    refine ⟨fun _ _ h => h, .refl _, fun f ty => ?_⟩
    by_cases hf : f = id
    · simp [Inventory.temporaries, hf, hclosed, hnew]
    · simp [Inventory.temporaries, hclosed, Ne.symm hf, Table.find?_insert_of_ne _ _ hf]
  | returnType _ hopen _ => exact .insertOpen hopen _
  | declareLocal _ _ _ htakes =>
    exact ⟨fun _ _ h => h, .refl _, (Since.withPool htakes.peak).temporaries⟩
  | parameter hopen _ _ => exact .insertOpen hopen _
  | declareGlobal _ _ htakes =>
    exact ⟨fun _ _ h => h, .refl _, (Since.withPool htakes.peak).temporaries⟩
  | dimension _ _ _ => exact since_setVariable _ _ _
  | @closeFunction f r hopen hr =>
    refine ⟨fun _ _ h => h, .refl _, fun f' ty => Nat.le_of_eq ?_⟩
    by_cases hf : f' = f
    · simp [Inventory.temporaries, hf, hopen, Pool.peaks]
    · simp [Inventory.temporaries, hopen, Ne.symm hf, Table.find?_insert_of_ne _ _ hf]

theorem Relocation.since (h : Relocation sizes b b') : Since b b' := by
  cases h with
  | vacate _ hgives => exact .withPool hgives.peak
  | reserve _ htakes => exact .withPool htakes.peak
  | place => exact since_setVariable _ _ _

end Inventory

end Quadruple
