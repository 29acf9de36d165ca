/-
  Where arguments arrive.

  A call stores its arguments at the addresses that are recorded with the function, one for each
  parameter, and the body finds its parameters through its local variables.  Each parameter is given
  one slot, and both are to lead there (`Generator.ArgumentsArrive`).

  They come apart in one way.  An array is laid out under the name declared last, and this name is
  neither forgotten when a function opens nor changed by a parameter.  So it may be the name of a
  global that a parameter hides; then the parameter is laid out.  It moves to a block, and what is
  recorded with the function stays.  Only if no other local has a slot of its type does the block
  begin at the slot that it had.

  All of this can be read off the events (`ParameterHistory`), and arguments arrive exactly when no
  parameter was displaced (`arguments_arrive_iff`):

      g.ArgumentsArrive params r.paramAddresses  ↔  (parameterHistory events).displaced = false
-/
import Mathlib.Data.List.Nodup
import Quadruple.Proofs.VariableBlocks

namespace Quadruple

variable {sizes : Sizes} {g g' : Generator}

/-! ## Reading events -/

/-- What is read off the events of a script about the parameters of the open function. -/
structure ParameterHistory where
  /-- The variable declared last. -/
  last : Option String
  /-- The parameters, in order. -/
  params : List String
  /-- The locals, parameters included, with the types of their slots. -/
  slots : List (String × Scalar)
  /-- A parameter was laid out as an array, and another local has a slot of its type. -/
  displaced : Bool
deriving DecidableEq

variable {h : ParameterHistory}

namespace ParameterHistory

def start : ParameterHistory := ⟨none, [], [], false⟩

/-- The variable declared last has the name of a parameter, and another local has a slot of its
type. -/
def displaces (h : ParameterHistory) : Bool :=
  h.last.any fun id => h.params.contains id && h.slots.any fun x =>
    x.1 != id && h.slots.contains (id, x.2)

/-- What an event adds.  The name declared last stays when a function opens. -/
def read (h : ParameterHistory) : Event → ParameterHistory
  | .declareFunction _ => { h with params := [], slots := [], displaced := false }
  | .declareParam id ty =>
    { h with params := h.params ++ [id], slots := (id, ty.storage) :: h.slots }
  | .declareVariable id ty => { h with last := some id, slots := (id, ty.storage) :: h.slots }
  | .allocateArray => { h with displaced := h.displaced || h.displaces }
  | .endFunction => start
  | _ => h

theorem displaces_iff : h.displaces = true ↔ ∃ id id' s, h.last = some id ∧ id ∈ h.params ∧
    id' ≠ id ∧ (id', s) ∈ h.slots ∧ (id, s) ∈ h.slots := by
  simp only [displaces, Option.any_eq_true, Bool.and_eq_true, List.contains_iff_mem,
    List.any_eq_true, bne_iff_ne, Prod.exists]
  constructor
  · rintro ⟨id, hlast, hparam, id', s, hslot, hne, hsame⟩
    exact ⟨id, id', s, hlast, hparam, hne, hslot, hsame⟩
  · rintro ⟨id, id', s, hlast, hparam, hne, hslot, hsame⟩
    exact ⟨id, hlast, hparam, id', s, hslot, hne, hsame⟩

theorem read_of_keepsTables (h : ParameterHistory) {e : Event} (he : e.keepsTables = true) :
    h.read e = h := by
  cases e with
  | declareFunction | declareParam | declareVariable | allocateArray | endFunction => cases he
  | _ => rfl

end ParameterHistory

/-- The history of a whole script. -/
def parameterHistory (events : List Event) : ParameterHistory := events.foldl .read .start

/-! ## Following the compiler -/

/-- The locals are those read off the events.  As long as no parameter was displaced each is where
its arguments go; afterwards one is not, and it is an array, which does not move again. -/
structure ParameterHistory.Follows (h : ParameterHistory) (locals : Table String Variable)
    (addresses : List Nat) :
    Prop where
  nodup : h.params.Nodup
  declared : ∀ id ∈ h.params, ∃ v, locals.find? id = some v
  slots : ∀ id s, (id, s) ∈ h.slots ↔ ∃ v, locals.find? id = some v ∧ v.ty.storage = s
  length : h.params.length = addresses.length
  kept : h.displaced = false → ∀ id a, (id, a) ∈ h.params.zip addresses → ∃ v,
    locals.find? id = some v ∧ v.address = a
  moved : h.displaced = true →
    ∃ id a v, (id, a) ∈ h.params.zip addresses ∧ locals.find? id = some v ∧
    v.dimensions ≠ [] ∧ v.address ≠ a

namespace ParameterHistory.Follows

variable {h : ParameterHistory} {locals : Table String Variable} {addresses : List Nat}
    {id : String} {v w : Variable}

theorem nil (last : Option String) : Follows ⟨last, [], [], false⟩ Table.empty [] where
  nodup := .nil
  declared := List.forall_mem_nil _
  slots := by
    intro id s
    refine iff_of_false List.not_mem_nil ?_
    rintro ⟨v, ⟨⟩, -⟩
  length := rfl
  kept := by
    rintro - id a ⟨⟩
  moved := nofun

theorem ne_of_new (hnew : locals.find? id = none) {id' : String} (hv : locals.find? id' = some v) :
    id' ≠ id := by
  rintro rfl
  rw [hnew] at hv
  cases hv

variable (hf : h.Follows locals addresses)

include hf

/-- A local that is no parameter is declared. -/
theorem declare (hnew : locals.find? id = none) (a : Nat) (ty : TypeName) (last : Option String) :
    Follows { h with last := last, slots := (id, ty.storage) :: h.slots }
      (locals.insert id ⟨a, ty, [], []⟩) addresses := by
  have hold :
      ∀ {id' v}, locals.find? id' = some v →
        (locals.insert id ⟨a, ty, [], []⟩).find? id' = some v :=
    fun hv => Table.find?_insert_eq_some_iff.mpr (Or.inr ⟨ne_of_new hnew hv, hv⟩)
  refine ⟨hf.nodup, ?_, ?_, hf.length, ?_, ?_⟩
  · intro id' hid'
    obtain ⟨v, hv⟩ := hf.declared id' hid'
    exact ⟨v, hold hv⟩
  · intro id' s
    rw [List.mem_cons, hf.slots, Prod.mk.injEq]
    constructor
    · rintro (⟨rfl, rfl⟩ | ⟨v, hv, hs⟩)
      · exact ⟨_, Table.find?_insert_self _ _ _, rfl⟩
      · exact ⟨v, hold hv, hs⟩
    · rintro ⟨v, hv, hs⟩
      rcases Table.find?_insert_eq_some_iff.mp hv with ⟨rfl, rfl⟩ | ⟨-, hv⟩
      · exact Or.inl ⟨rfl, hs.symm⟩
      · exact Or.inr ⟨v, hv, hs⟩
  · intro hkept id' a' hmem
    obtain ⟨v, hv, ha⟩ := hf.kept hkept id' a' hmem
    exact ⟨v, hold hv, ha⟩
  · intro hmoved
    obtain ⟨id', a', v, hmem, hv, hmoved⟩ := hf.moved hmoved
    exact ⟨id', a', v, hmem, hold hv, hmoved⟩

/-- The last of the locals becomes a parameter. -/
theorem parameter (hid : id ∉ h.params) (hv : locals.find? id = some v) :
    Follows { h with params := h.params ++ [id] } locals (addresses ++ [v.address]) := by
  have hzip : (h.params ++ [id]).zip (addresses ++ [v.address]) = h.params.zip addresses ++
      [(id, v.address)] :=
    List.zip_append hf.length
  refine ⟨?_, ?_, hf.slots, ?_, ?_, ?_⟩
  · rw [List.nodup_append]
    refine ⟨hf.nodup, List.nodup_singleton id, ?_⟩
    rintro id' hid' _ hsingle rfl
    rw [List.mem_singleton.mp hsingle] at hid'
    exact hid hid'
  · intro id' hid'
    rcases List.mem_append.mp hid' with hid' | hid'
    · exact hf.declared id' hid'
    · rw [List.mem_singleton.mp hid']
      exact ⟨v, hv⟩
  · rw [List.length_append, List.length_append, hf.length]
    rfl
  · intro hkept id' a hmem
    rw [hzip, List.mem_append, List.mem_singleton] at hmem
    rcases hmem with hmem | heq
    · exact hf.kept hkept id' a hmem
    · cases heq
      exact ⟨v, hv, rfl⟩
  · intro hmoved
    obtain ⟨id', a, v', hmem, hmoved⟩ := hf.moved hmoved
    refine ⟨id', a, v', ?_, hmoved⟩
    rw [hzip]
    exact List.mem_append_left _ hmem

/-- A change of an entry adds no local and takes none away. -/
theorem declared_insert (id : String) (w : Variable) :
    ∀ id' ∈ h.params, ∃ u, (locals.insert id w).find? id' = some u := by
  intro id' hid'
  by_cases heq : id' = id
  · exact ⟨w, heq ▸ Table.find?_insert_self _ _ _⟩
  · obtain ⟨u, hu⟩ := hf.declared id' hid'
    exact ⟨u, Table.find?_insert_eq_some_iff.mpr (Or.inr ⟨heq, hu⟩)⟩

theorem slots_insert (hv : locals.find? id = some v) (hty : w.ty = v.ty) :
    ∀ id' s, (id', s) ∈ h.slots ↔
      ∃ u, (locals.insert id w).find? id' = some u ∧ u.ty.storage = s := by
  intro id' s
  rw [hf.slots]
  by_cases heq : id' = id
  · subst heq
    rw [hv, Table.find?_insert_self]
    simp [hty]
  · rw [Table.find?_insert_of_ne _ _ heq]

/-- A local changes, but not its type, and if it is a parameter not its place. -/
theorem update (hv : locals.find? id = some v) (hty : w.ty = v.ty)
    (harray : v.dimensions ≠ [] → w.dimensions ≠ [])
    (haddress : id ∈ h.params → w.address = v.address) :
    h.Follows (locals.insert id w) addresses := by
  -- what a parameter becomes: itself or its new entry
  have hparam : ∀ {id' u}, id' ∈ h.params → locals.find? id' = some u → ∃ u',
      (locals.insert id w).find? id' = some u' ∧
      u'.address = u.address ∧ (u.dimensions ≠ [] → u'.dimensions ≠ []) := by
    intro id' u hid' hu
    by_cases heq : id' = id
    · subst heq
      cases hv.symm.trans hu
      exact ⟨w, Table.find?_insert_self _ _ _, haddress hid', harray⟩
    · exact ⟨u, Table.find?_insert_eq_some_iff.mpr (Or.inr ⟨heq, hu⟩), rfl, fun hdims => hdims⟩
  refine ⟨hf.nodup, hf.declared_insert id w, hf.slots_insert hv hty, hf.length, ?_, ?_⟩
  · intro hkept id' a hmem
    obtain ⟨u, hu, ha⟩ := hf.kept hkept id' a hmem
    obtain ⟨u', hu', hsame, -⟩ := hparam (List.of_mem_zip hmem).1 hu
    exact ⟨u', hu', hsame.trans ha⟩
  · intro hmoved
    obtain ⟨id', a, u, hmem, hu, hdims, hne⟩ := hf.moved hmoved
    obtain ⟨u', hu', hsame, hdims'⟩ := hparam (List.of_mem_zip hmem).1 hu
    exact ⟨id', a, u', hmem, hu', hdims' hdims, hsame ▸ hne⟩

/-- A parameter is displaced. -/
theorem displace (hid : id ∈ h.params)
    (hv : locals.find? id = some v) (hscalar : v.dimensions = []) (hty : w.ty = v.ty)
    (harray : w.dimensions ≠ []) (hne : w.address ≠ v.address) :
    Follows { h with displaced := true } (locals.insert id w) addresses := by
  have hother : ∀ {id' u}, locals.find? id' = some u → u.dimensions ≠ [] →
      (locals.insert id w).find? id' = some u := by
    intro id' u hu hdims
    refine Table.find?_insert_eq_some_iff.mpr (Or.inr ⟨?_, hu⟩)
    rintro rfl
    cases hv.symm.trans hu
    exact hdims hscalar
  refine ⟨hf.nodup, hf.declared_insert id w, hf.slots_insert hv hty, hf.length, nofun, fun _ => ?_⟩
  cases hdisplaced : h.displaced with
  | false =>
    -- it was where its arguments go, and is not any more
    rw [← List.map_fst_zip (Nat.le_of_eq hf.length)] at hid
    obtain ⟨⟨id, a⟩, hmem, rfl⟩ := List.mem_map.mp hid
    obtain ⟨u, hu, ha⟩ := hf.kept hdisplaced id a hmem
    cases hv.symm.trans hu
    exact ⟨id, a, w, hmem, Table.find?_insert_self _ _ _, harray, ha ▸ hne⟩
  | true =>
    obtain ⟨id', a, u, hmem, hu, hdims, hne'⟩ := hf.moved hdisplaced
    exact ⟨id', a, u, hmem, hother hu hdims, hdims, hne'⟩

end ParameterHistory.Follows

/-- The history has what is needed of the tables. -/
structure ParameterHistory.Tracks (h : ParameterHistory) (t : Tables) : Prop where
  last : h.last = t.lastDeclared
  opened : ∀ f, t.currentFunction = some f → ∃ r, t.functions.find? f = some r ∧
    h.Follows t.locals r.paramAddresses

/-- A slot is given back while another of its run is out; the next block of the run lies beyond it.
-/
theorem Pool.Valid.lt_block {p p' p'' : Pool} {segment : Segment} {ty : Scalar} {a c len base : Nat}
    (hp : p.Valid sizes) (ha : Located sizes a segment ty) (hrelease : p.release a = .ok p')
    (hc : Located sizes c segment ty) (hlive : p.isLive c = true) (hne : c ≠ a)
    (hblock : p'.allocateBlock ty segment len = .ok (base, p'')) : a < base := by
  rw [Pool.next_of_allocateBlock hblock]
  have hanswers : Answers (Layout.ofSizes sizes) segment ty _ _ _ _ := hp.answers (.release a)
  rw [Pool.serve, hrelease] at hanswers
  rw [hp.isLive_located hc] at hlive
  dsimp only at hanswers
  generalize p'.supply segment ty = s at hanswers
  cases hanswers with
  | spares hspares => exact (hspares.takesBack a (Layout.locate_eq_some ha).2 rfl).elim
  | queues hwas _ => exact ((Supply.isLive_iff _ a).mp hwas).2.1
  | rewinds _ halone => exact (hne (halone c hlive)).elim

namespace Inventory

variable {h : ParameterHistory} {b b' : Inventory} {id : String} {v w : Variable} {p p' p'' : Pool}

/-- The only local of its type stays where it is when it is laid out. -/
theorem address_of_only (hh : b.tables.Housed sizes b.pool)
    (hh' : Owns sizes p' .locals (b.locals.insert id w)) (hv : b.locals.find? id = some v)
    (hty : w.ty = v.ty)
    (honly : ∀ id' v', b.locals.find? id' = some v' → v'.ty.storage = v.ty.storage → id' = id) :
    w.address = v.address := by
  have hfirst := hh.locals.first id v hv honly
  have hfirst' := hh'.first id w (Table.find?_insert_self _ _ _) fun id' v' hv' hsame => by
    rcases Table.find?_insert_eq_some_iff.mp hv' with ⟨heq, -⟩ | ⟨-, hv'⟩
    · exact heq
    · exact honly id' v' hv' (hty ▸ hsame)
  rw [hfirst', hfirst, hty]

/-- Laying out an array moves the block of the last declaration only. -/
theorem tracks_laysOut (hb : b.Stocked sizes) (hh : b.tables.Housed sizes b.pool)
    (ht : h.Tracks b.tables) (hlast : b.lastDeclared = some id) (hv : b.lookup id = some v)
    (hscalar : v.dimensions = []) (harray : w.dimensions ≠ []) (hty : w.ty = v.ty) {len : Nat}
    (hrelease : b.pool.release v.address = .ok p)
    (hblock : p.allocateBlock v.ty.storage (b.segmentOf id) len = .ok (w.address, p'))
    (hh' : (b.setVariable id w).tables.Housed sizes p'') :
    ParameterHistory.Tracks { h with displaced := h.displaced || h.displaces }
      (b.setVariable id w).tables := by
  have hhistory : h.last = some id := ht.last.trans hlast
  have hstocked := hb.lookup hv
  unfold setVariable at hh' ⊢
  unfold segmentOf at hblock
  rcases lookup_eq_some hv with ⟨hlocal, hv⟩ | ⟨hglobal, hv⟩
  · rw [if_pos hlocal] at hblock hstocked hh' ⊢
    refine ⟨ht.last, fun f hopen => ?_⟩
    obtain ⟨r, hr, hf⟩ := ht.opened f hopen
    refine ⟨r, hr, ?_⟩
    cases hdisplaces : h.displaces with
    | false =>
      rw [Bool.or_false]
      refine hf.update hv hty (fun hdims => (hdims hscalar).elim) fun hid => ?_
      refine address_of_only hh hh'.locals hv hty fun id' v' hv' hsame => ?_
      by_contra hne
      rw [Bool.eq_false_iff] at hdisplaces
      exact hdisplaces (ParameterHistory.displaces_iff.mpr ⟨id, id', v.ty.storage, hhistory,
        hid, hne, (hf.slots _ _).mpr ⟨v', hv', hsame⟩, (hf.slots _ _).mpr ⟨v, hv, rfl⟩⟩)
    | true =>
      rw [Bool.or_true]
      obtain ⟨id₁, id', s, hid₁, hid, hne, hslot, hown⟩ :=
        ParameterHistory.displaces_iff.mp hdisplaces
      cases hhistory.symm.trans hid₁
      obtain ⟨v', hv', hs'⟩ := (hf.slots _ _).mp hslot
      obtain ⟨u, hu, hs⟩ := (hf.slots _ _).mp hown
      cases hv.symm.trans hu
      -- the slot of the other local is out, and so the block begins beyond it
      have hoccupies := (hb.locals id' v' hv').occupies_address
      have hother := hh.locals.inside id' v' _ hv' hoccupies
      rw [hs', ← hs] at hother
      have hapart : v'.address ≠ v.address := by
        intro heq
        have hown := (Variable.occupies_scalar hscalar).mpr heq
        exact hne (hh.locals.apart id' v' id v _ hv' hv hoccupies hown)
      have hlt :=
        hb.pool.lt_block hstocked.located hrelease hother (hh.locals.isLive hv' hoccupies) hapart
          hblock
      exact hf.displace hid hv hscalar hty harray (Nat.ne_of_gt hlt)
  · rw [if_neg (Bool.eq_false_iff.mp hglobal)]
    refine ⟨ht.last, fun f hopen => ?_⟩
    obtain ⟨r, hr, hf⟩ := ht.opened f hopen
    have hdisplaces : h.displaces = false := by
      rw [Bool.eq_false_iff]
      intro hdisplaces
      obtain ⟨id₁, id', s, hid₁, hid, -⟩ := ParameterHistory.displaces_iff.mp hdisplaces
      cases hhistory.symm.trans hid₁
      obtain ⟨u, hu⟩ := hf.declared id hid
      have hu : b.locals.find? id = some u := hu
      rw [Table.contains, hu] at hglobal
      cases hglobal
    rw [hdisplaces, Bool.or_false]
    exact ⟨r, hr, hf⟩

/-- One event: the history keeps track of the tables. -/
theorem Places.tracks {e : Event} (hplaces : Places sizes b b' e) (hb : b.Stocked sizes)
    (hh : b.tables.Housed sizes b.pool) (ht : h.Tracks b.tables) : (h.read e).Tracks b'.tables := by
  have hh' := hplaces.housed hb hh
  cases hplaces with
  | keeps he htables _ =>
    rw [h.read_of_keepsTables he, htables]
    exact ht
  | opens _ htables _ =>
    rw [htables]
    refine ⟨ht.last, ?_⟩
    rintro f ⟨⟩
    exact ⟨_, Table.find?_insert_self _ _ _, .nil h.last⟩
  | types hopen hr htables _ =>
    rw [htables]
    refine ⟨ht.last, fun f hf => ?_⟩
    obtain ⟨r, hr', hfollows⟩ := ht.opened f hf
    cases hopen.symm.trans hf
    cases hr.symm.trans hr'
    exact ⟨_, Table.find?_insert_self _ _ _, hfollows⟩
  | @parameter id ty f r a hopen hr hnew _ htables =>
    rw [htables]
    refine ⟨ht.last, fun f' hf => ?_⟩
    obtain ⟨r', hr', hfollows⟩ := ht.opened f' hf
    cases hopen.symm.trans hf
    cases hr.symm.trans hr'
    have hid : id ∉ h.params := by
      intro hid
      obtain ⟨v, hv⟩ := hfollows.declared id hid
      cases hnew.symm.trans hv
    exact ⟨_, Table.find?_insert_self _ _ _,
      (hfollows.declare hnew a ty h.last).parameter hid (Table.find?_insert_self _ _ _)⟩
  | localVariable _ hnew _ htables =>
    rw [htables]
    refine ⟨rfl, fun f hf => ?_⟩
    obtain ⟨r, hr, hfollows⟩ := ht.opened f hf
    exact ⟨r, hr, hfollows.declare hnew _ _ _⟩
  | globalVariable hclosed _ _ htables =>
    rw [htables]
    refine ⟨rfl, fun f hf => ?_⟩
    cases hclosed.symm.trans hf
  | @dimension id v n hlast hv htables _ =>
    rw [htables]
    unfold setVariable
    rcases lookup_eq_some hv with ⟨hlocal, hv⟩ | ⟨hglobal, hv⟩
    · rw [if_pos hlocal]
      refine ⟨ht.last, fun f hf => ?_⟩
      obtain ⟨r, hr, hfollows⟩ := ht.opened f hf
      exact ⟨r, hr, hfollows.update hv rfl (fun hdims => hdims) fun _ => rfl⟩
    · rw [if_neg (Bool.eq_false_iff.mp hglobal)]
      exact ⟨ht.last, ht.opened⟩
  | laysOut hlast hv hscalar hpending hds hrelease hblock _ htables =>
    rw [htables] at hh' ⊢
    refine tracks_laysOut hb hh ht hlast hv hscalar ?_ rfl hrelease hblock hh'
    intro hnil
    rw [← hds] at hpending
    exact hpending (congrArg _ hnil)
  | closes _ _ htables =>
    rw [htables]
    refine ⟨rfl, ?_⟩
    rintro f ⟨⟩

end Inventory

/-- The history tracks the tables, event by event. -/
theorem Accepts.tracks {events : List Event} (ha : Accepts g events g')
    (hb : g.inventory.Stocked sizes) (hh : g.inventory.tables.Housed sizes g.pool)
    (ht : h.Tracks g.inventory.tables) : (events.foldl .read h).Tracks g'.inventory.tables := by
  induction ha generalizing h with
  | nil g => exact ht
  | cons hfirst _ ih =>
    have hplaces := Compile.places_apply hfirst hb
    exact ih (((Compile.rearranges_apply _).of_yields hfirst).stocked hb) (hplaces.housed hb hh)
      (hplaces.tracks hb hh ht)

/-! ## Arguments -/

/-- Each argument goes to the slot of its parameter, from which the body reads it; no two go to the
same slot, and none to a slot of another local. -/
structure Generator.ArgumentsArrive (g : Generator) (params : List String) (addresses : List Nat) :
    Prop where
  own : List.Forall₂ (fun id a => ∃ v, g.locals.find? id = some v ∧ v.address = a) params addresses
  used : ∀ id a, (id, a) ∈ params.zip addresses → ∀ g' u, Yields (Compile.pushVariable id) g u g' →
    ∃ e, g'.operands = e :: g.operands ∧ e.address = a
  distinct : addresses.Nodup
  alone : ∀ id a, (id, a) ∈ params.zip addresses → ∀ id' v, g.locals.find? id' = some v →
    v.Occupies a → id' = id

theorem Compile.operand_of_pushVariable {id : String} {v : Variable} {u : Unit}
    (h : Yields (pushVariable id) g u g') (hv : g.lookup id = some v) :
    ∃ e, g'.operands = e :: g.operands ∧ e.address = v.address := by
  rw [pushVariable, yields_get_bind, hv] at h
  dsimp only at h
  split at h
  · cases h
  · cases h
    exact ⟨_, rfl, rfl⟩

theorem Generator.argumentsArrive_iff {addresses : List Nat} (hb : g.inventory.Stocked sizes)
    (howns : Owns sizes g.pool .locals g.locals) (hf : h.Follows g.locals addresses) :
    g.ArgumentsArrive h.params addresses ↔ h.displaced = false := by
  constructor
  · intro harrive
    rw [Bool.eq_false_iff]
    intro hdisplaced
    obtain ⟨id, a, v, hmem, hv, -, hne⟩ := hf.moved hdisplaced
    obtain ⟨v', hv', ha⟩ := (List.forall₂_iff_zip.mp harrive.own).2 hmem
    cases hv.symm.trans hv'
    exact hne ha
  · intro hdisplaced
    have hown : List.Forall₂ (fun id a => ∃ v, g.locals.find? id = some v ∧ v.address = a) h.params
        addresses :=
      List.forall₂_iff_zip.mpr ⟨hf.length, fun {id a} => hf.kept hdisplaced id a⟩
    have hoccupies : ∀ id v, g.locals.find? id = some v → v.Occupies v.address :=
      fun id v hv => (hb.locals id v hv).occupies_address
    -- a slot is the place of one local only
    have hunique : Relator.BiUnique fun id a => ∃ v, g.locals.find? id = some v ∧
        v.address = a := by
      constructor
      · rintro id id' a ⟨v, hv, rfl⟩ ⟨v', hv', ha⟩
        refine howns.apart id v id' v' v.address hv hv' (hoccupies id v hv) ?_
        rw [← ha]
        exact hoccupies id' v' hv'
      · rintro id a a' ⟨v, hv, rfl⟩ ⟨v', hv', rfl⟩
        cases hv.symm.trans hv'
        rfl
    refine ⟨hown, ?_, (List.rel_nodup hunique hown).mp hf.nodup, ?_⟩
    · intro id a hmem g' u hpush
      obtain ⟨v, hv, rfl⟩ := hf.kept hdisplaced id a hmem
      refine Compile.operand_of_pushVariable hpush ?_
      rw [lookup, hv]
    · intro id a hmem id' v' hv' ha
      obtain ⟨v, hv, rfl⟩ := hf.kept hdisplaced id a hmem
      exact howns.apart id' v' id v v.address hv' hv ha (hoccupies id v hv)

/-- After an accepted script that leaves a function open, over sizes that a word can address: the
blocks of all locals end in words, and the arguments of the function arrive in its parameters
exactly when none of these was displaced. -/
theorem arguments_arrive_iff {sizes : Sizes} (hsizes : sizes.Addressable) {threshold : Level}
    {events : List Event} {g : Generator} {f : String}
    (h : Compile.applyFrom 0 events (.ofSizes sizes threshold) = (.ok (), g))
    (hopen : g.currentFunction = some f) :
    (∀ id v, g.locals.find? id = some v → IsWord (v.address + v.cells)) ∧
      ∃ r, g.program.functions.find? f = some r ∧
        (g.ArgumentsArrive (parameterHistory events).params r.paramAddresses ↔
          (parameterHistory events).displaced = false) := by
  have haccepts := Accepts.of_applyFrom h
  have hb := Inventory.stocked_ofSizes sizes threshold
  have hh := housed_ofSizes sizes threshold
  have hstart :
      ParameterHistory.start.Tracks (Generator.ofSizes sizes threshold).inventory.tables :=
        ⟨rfl, nofun⟩
  obtain ⟨r, hr, hf⟩ := (haccepts.tracks hb hh hstart).opened f hopen
  have hb' := haccepts.rearranges.stocked hb
  have hh' := haccepts.housed hb hh
  have hword : ∀ id v, (g.variables .locals).find? id = some v → IsWord (v.address + v.cells) :=
    fun id v hv => Generator.isWord_block hsizes hb' hv
  exact ⟨hword, r, hr, Generator.argumentsArrive_iff hb' hh'.locals hf⟩

/-- A parameter that hides a global is laid out, and no other local is an integer; a second one is
declared afterwards. -/
def laidOutInPlace : List Event :=
  [.declareVariable "x" (.scalar .int), .declareFunction "f", .declareParam "x" (.scalar .int),
    .declareParam "y" (.scalar .float), .declareArrayDimension 2, .allocateArray,
    .declareParam "z" (.scalar .int)]

theorem arguments_arrive_iff_laidOutInPlace :
    ∃ g r, Compile.applyFrom 0 laidOutInPlace (.ofSizes (Sizes.uniform 4) .warn) = (.ok (), g) ∧
      g.currentFunction = some "f" ∧ g.program.functions.find? "f" = some r ∧
      r.paramAddresses = [20, 24, 22] ∧
      (parameterHistory laidOutInPlace).displaced = false ∧
      g.ArgumentsArrive ["x", "y", "z"] r.paramAddresses := by
  obtain ⟨g, h⟩ := exists_of_applyFrom
    (show (Compile.applyFrom 0 laidOutInPlace (.ofSizes (Sizes.uniform 4) .warn)).1 = .ok ()
      by decide +kernel)
  have hg : (Compile.applyFrom 0 laidOutInPlace (.ofSizes (Sizes.uniform 4) .warn)).2 = g := by
    rw [h]
  have hopen : g.currentFunction = some "f" := by
    rw [← hg]
    decide +kernel
  have hdisplaced : (parameterHistory laidOutInPlace).displaced = false := by decide
  obtain ⟨-, r, hr, hiff⟩ := arguments_arrive_iff (by decide) h hopen
  have haddresses : (g.program.functions.find? "f").map (·.paramAddresses) = some [20, 24, 22] := by
    rw [← hg]
    decide +kernel
  rw [hr] at haddresses
  exact ⟨g, r, h, hopen, hr, Option.some.inj haddresses, hdisplaced, hiff.mpr hdisplaced⟩

/-- A parameter that hides a global is laid out beside another one of its type. -/
def displacedParameter : List Event :=
  [.declareVariable "x" (.scalar .int), .declareFunction "f", .declareParam "a" (.scalar .int),
    .declareParam "x" (.scalar .int), .declareArrayDimension 2, .allocateArray]

/-- The second argument goes to slot 21, and the parameter is at 22. -/
theorem argument_misses_displaced_parameter :
    ∃ g r, Compile.applyFrom 0 displacedParameter (.ofSizes (Sizes.uniform 4) .warn) = (.ok (), g) ∧
      g.currentFunction = some "f" ∧ g.program.functions.find? "f" = some r ∧
      r.paramAddresses = [20, 21] ∧
      (g.locals.find? "x").map (·.address) = some 22 ∧
      ¬ g.ArgumentsArrive (parameterHistory displacedParameter).params r.paramAddresses := by
  obtain ⟨g, h⟩ := exists_of_applyFrom
    (show (Compile.applyFrom 0 displacedParameter (.ofSizes (Sizes.uniform 4) .warn)).1 = .ok ()
      by decide +kernel)
  have hg : (Compile.applyFrom 0 displacedParameter (.ofSizes (Sizes.uniform 4) .warn)).2 = g := by
    rw [h]
  have hopen : g.currentFunction = some "f" := by
    rw [← hg]
    decide +kernel
  have haddresses : (g.program.functions.find? "f").map (·.paramAddresses) = some [20, 21] := by
    rw [← hg]
    decide +kernel
  have hlocal : (g.locals.find? "x").map (·.address) = some 22 := by
    rw [← hg]
    decide +kernel
  obtain ⟨r, hr, haddresses⟩ := Option.map_eq_some_iff.mp haddresses
  refine ⟨g, r, h, hopen, hr, haddresses, hlocal, fun harrive => ?_⟩
  rw [haddresses] at harrive
  obtain ⟨v, hv, hslot⟩ := (List.forall₂_iff_zip.mp harrive.own).2
    (show ("x", 21) ∈ (parameterHistory displacedParameter).params.zip [20, 21] by decide)
  rw [hv, Option.map_some, hslot] at hlocal
  cases hlocal

end Quadruple
