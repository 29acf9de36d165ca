/-
  Literals and their slots.

  Literals come from three kinds of events: constants that are pushed, prompts of inputs, and the
  sizes of arrays with the products that a step in a dimension skips.  Where the slot of a literal
  is seen afterwards depends on the event: on the operand stack, in the `PRINT` of the prompt, in
  the dimensions of the array (`Event.literalSlots`).  Literals that count as one share a slot
  (`Value.SameLiteral`), others do not, and the program has constants for them and for nothing
  else.

  Two tables have to agree for that over the whole compilation, the one from literals to slots and
  the one from slots to constants (`Inventory.Stocked`, `Inventory.Indexed`), and no key may be in
  the first one twice:

      (k, a) ∈ literals  ↔  constants a = some c for a constant `c` with the key `k`
-/
import Quadruple.Proofs.ArrayAccess

namespace Quadruple

variable {v : Value} {e : Event}

open Compile (elementCount)

/-! ## Literals that count as one -/

/-- The two are one literal: floats when they have the same bits or are both NaNs, and other values
when they are equal. -/
def Value.SameLiteral : Value → Value → Prop
  | .float x, .float y => x.bits = y.bits ∨ x.isNaN = true ∧ y.isNaN = true
  | v, w => v = w

theorem Binary64.canonical_eq_iff {x y : Binary64} :
    x.canonical = y.canonical ↔ x.bits = y.bits ∨ x.isNaN = true ∧ y.isNaN = true := by
  have hnan : nan.isNaN = true := by decide
  have hbits : x.bits = y.bits ↔ x = y := ⟨fun h => congrArg Binary64.mk h, congrArg Binary64.bits⟩
  rw [hbits]
  unfold canonical
  grind

theorem Value.canonical_eq_iff {w : Value} : v.canonical = w.canonical ↔ v.SameLiteral w := by
  cases v with
  | float x =>
    cases w with
    | float y =>
      show Value.float x.canonical = Value.float y.canonical ↔ _
      rw [Value.float.injEq]
      exact Binary64.canonical_eq_iff
    | _ => exact ⟨nofun, nofun⟩
  | _ =>
    cases w with
    | float y => exact ⟨nofun, nofun⟩
    | _ => exact Iff.rfl

theorem Value.scalar_canonical (v : Value) : v.canonical.scalar = v.scalar := by
  cases v <;> rfl

theorem Value.SameLiteral.scalar_eq {w : Value} (h : v.SameLiteral w) : v.scalar = w.scalar := by
  rw [← v.scalar_canonical, ← w.scalar_canonical, Value.canonical_eq_iff.mpr h]

/-! ## Literals of events -/

/-- The literals of an array with these sizes: each size, followed by the number of elements that a
step in its dimension skips, except for the last. -/
def arrayLiterals : List Nat → List Value
  | [] => []
  | [n] => [.int (Int64.ofInt n)]
  | n :: later =>
    .int (Int64.ofInt n) :: .int (Int64.ofInt (elementCount later)) :: arrayLiterals later

/-- The slots of the size of a dimension and of what a step in it skips. -/
def Dimension.slots (d : Dimension) : List Nat := d.sizeConstant :: d.strideConstant.toList

/-- The literals that an event meets. -/
def Event.literals (g : Generator) : Event → List Value
  | pushConstant v => [v]
  | input (some text) => [.string text]
  | allocateArray => (g.lastDeclared.bind g.lookup).elim [] fun v => arrayLiterals v.pendingSizes
  | _ => []

/-- Their slots, as they are seen after the event. -/
def Event.literalSlots (g g' : Generator) : Event → List Nat
  | pushConstant _ => (g'.operands.head?.map (·.address)).toList
  | input (some _) => (g'.program.quads[g.nextQuad]?).elim [] Quad.addresses
  | allocateArray =>
    (g.lastDeclared.bind g'.lookup).elim [] fun v => v.dimensions.flatMap Dimension.slots
  | _ => []

/-- What the generator becomes with an event. -/
def Generator.next (g : Generator) (e : Event) : Generator := ((Compile.apply e).run.run g).2

/-- The literals that the events meet, one after another. -/
def Generator.literalsOf (g : Generator) : List Event → List Value
  | [] => []
  | e :: rest => e.literals g ++ (g.next e).literalsOf rest

/-- The literals that the events meet, one after another, with their slots. -/
def Generator.literalsMet (g : Generator) : List Event → List (Value × Nat)
  | [] => []
  | e :: rest => (e.literals g).zip (e.literalSlots g (g.next e)) ++ (g.next e).literalsMet rest

/-! ## Slots and constants -/

/-- Every constant has its key among the literals and the type of its value, and no key is there
twice. -/
structure Inventory.Indexed (b : Inventory) : Prop where
  keys : ∀ x ∈ b.literals, ∀ y ∈ b.literals, x.1 = y.1 → x = y
  constants : ∀ a c, b.constants.find? a = some c → (c.value.canonical, a) ∈ b.literals ∧
    c.ty = c.value.scalar

namespace Inventory

variable {sizes : Sizes} {b b' : Inventory}

theorem indexed_ofSizes (sizes : Sizes) (threshold : Level) :
    (Generator.ofSizes sizes threshold).inventory.Indexed where
  keys := List.forall_mem_nil _
  constants := by
    rintro a c ⟨⟩

theorem Indexed.of_same (h : b.Indexed) (hliterals : b'.literals = b.literals)
    (hconstants : b'.constants = b.constants) : b'.Indexed := by
  refine ⟨?_, ?_⟩
  · rw [hliterals]
    exact h.keys
  · rw [hliterals, hconstants]
    exact h.constants

/-- A new literal gets a key that no other has. -/
theorem Indexed.insert (h : b.Indexed) (hnew : b.literals.find? (·.1 == v.canonical) = none)
    (a : Nat) (p : Pool) :
    Indexed { b with
      pool := p, literals := (v.canonical, a) :: b.literals, constants :=
        b.constants.insert a ⟨v, v.scalar⟩ } := by
  have hfresh : ∀ x ∈ b.literals, x.1 ≠ v.canonical := by simpa using hnew
  refine ⟨?_, ?_⟩
  · intro x hx y hy hkey
    rcases List.mem_cons.mp hx with rfl | hx
    · rcases List.mem_cons.mp hy with rfl | hy
      · rfl
      · exact (hfresh y hy hkey.symm).elim
    · rcases List.mem_cons.mp hy with rfl | hy
      · exact (hfresh x hx hkey).elim
      · exact h.keys x hx y hy hkey
  · intro a' c hc
    by_cases ha : a' = a
    · subst ha
      rw [Table.find?_insert_self] at hc
      cases hc
      exact ⟨List.mem_cons_self, rfl⟩
    · rw [Table.find?_insert_of_ne _ _ ha] at hc
      obtain ⟨hmem, hty⟩ := h.constants a' c hc
      exact ⟨List.mem_cons_of_mem _ hmem, hty⟩

theorem literals_setVariable (b : Inventory) (id : String) (v : Variable) :
    (b.setVariable id v).literals = b.literals ∧ (b.setVariable id v).constants = b.constants := by
  unfold setVariable
  split
  · exact ⟨rfl, rfl⟩
  · exact ⟨rfl, rfl⟩

theorem Change.indexed (h : Change sizes b b') (hb : b.Indexed) : b'.Indexed := by
  cases h with
  | literal _ hnew _ => exact hb.insert hnew _ _
  | dimension => exact hb.of_same (literals_setVariable _ _ _).1 (literals_setVariable _ _ _).2
  | _ => exact hb.of_same rfl rfl

theorem Relocation.indexed (h : Relocation sizes b b') (hb : b.Indexed) : b'.Indexed := by
  cases h with
  | place => exact hb.of_same (literals_setVariable _ _ _).1 (literals_setVariable _ _ _).2
  | _ => exact hb.of_same rfl rfl

end Inventory

theorem Generator.indexed_of_rearrangements {sizes : Sizes} {b b' : Inventory}
    (h : Relation.ReflTransGen (Rearrangement sizes) b b') (hb : b.Indexed) : b'.Indexed := by
  induction h with
  | refl => exact hb
  | tail _ hlast ih =>
    rcases hlast with hlast | hlast
    · exact hlast.indexed ih
    · exact hlast.indexed ih

/-! ## What one event does -/

/-- From one generator to the other exactly these literals are met: they have their slots, and no
other constant is new. -/
structure Meets (g g' : Generator) (met : List (Value × Nat)) : Prop where
  kept : ∀ x ∈ g.literals, x ∈ g'.literals
  slots : ∀ x ∈ met, (x.1.canonical, x.2) ∈ g'.literals
  fresh : ∀ a c, g'.program.constants.find? a = some c → g.program.constants.find? a = some c ∨
    (c.value, a) ∈ met

namespace Meets

variable {g g' g'' : Generator} {met met' : List (Value × Nat)}

theorem nil (hliterals : g'.literals = g.literals)
    (hconstants : g'.program.constants = g.program.constants) : Meets g g' [] := by
  refine ⟨?_, List.forall_mem_nil _, ?_⟩
  · rw [hliterals]
    exact fun _ hx => hx
  · rw [hconstants]
    exact fun _ _ hc => Or.inl hc

theorem append (h : Meets g g' met) (h' : Meets g' g'' met') : Meets g g'' (met ++ met') := by
  refine ⟨fun x hx => h'.kept x (h.kept x hx), ?_, ?_⟩
  · intro x hx
    rcases List.mem_append.mp hx with hx | hx
    · exact h'.kept _ (h.slots x hx)
    · exact h'.slots x hx
  · intro a c hc
    rcases h'.fresh a c hc with hc | hmem
    · rcases h.fresh a c hc with hc | hmem
      · exact Or.inl hc
      · exact Or.inr (List.mem_append_left _ hmem)
    · exact Or.inr (List.mem_append_right _ hmem)

/-- What comes before and after and has nothing to do with literals does not matter. -/
theorem congr {g₁ g₁' : Generator} (h : Meets g g' met) (hliterals : g.literals = g₁.literals)
    (hconstants : g.program.constants = g₁.program.constants)
    (hliterals' : g₁'.literals = g'.literals)
    (hconstants' : g₁'.program.constants = g'.program.constants) : Meets g₁ g₁' met := by
  refine ⟨?_, ?_, ?_⟩
  · rw [← hliterals, hliterals']
    exact h.kept
  · rw [hliterals']
    exact h.slots
  · rw [← hconstants, hconstants']
    exact h.fresh

end Meets

namespace Compile

variable {sizes : Sizes} {g g' : Generator} {u : Unit}

theorem meets_constant {a : Nat} (h : Yields (constant v) g a g') : Meets g g' [(v, a)] := by
  obtain ⟨-, ⟨hmem, rfl⟩ | ⟨p, journal, -, -, rfl⟩⟩ := constant_cases h
  · exact ⟨fun _ hx => hx, List.forall_mem_singleton.mpr hmem, fun _ _ hc => Or.inl hc⟩
  · refine ⟨fun _ hx => List.mem_cons_of_mem _ hx, List.forall_mem_singleton.mpr List.mem_cons_self,
      ?_⟩
    intro a' c hc
    by_cases ha : a' = a
    · subst ha
      rw [Table.find?_insert_self] at hc
      cases hc
      exact Or.inr List.mem_cons_self
    · rw [Table.find?_insert_of_ne _ _ ha] at hc
      exact Or.inl hc

/-- All literals of an array get their slots, in the order of its dimensions. -/
theorem meets_dimensionConstants : ∀ {ns : List Nat} {ds : List Dimension} {g g' : Generator},
    Yields (dimensionConstants ns) g ds g' →
      Meets g g' ((arrayLiterals ns).zip (ds.flatMap Dimension.slots)) ∧
        (ds.flatMap Dimension.slots).length = (arrayLiterals ns).length
  | [], ds, g, g', h => by
    cases h
    exact ⟨.nil rfl rfl, rfl⟩
  | [n], ds, g, g', h => by
    unfold dimensionConstants at h
    obtain ⟨a, g₁, hsize, h⟩ := yields_bind.mp h
    cases h
    exact ⟨meets_constant hsize, rfl⟩
  | n :: next :: later, ds, g, g', h => by
    rw [dimensionConstants, yields_bind] at h
    · obtain ⟨a, g₁, hsize, h⟩ := h
      obtain ⟨stride, g₂, hstride, h⟩ := yields_bind.mp h
      obtain ⟨rest, g₃, hrest, h⟩ := yields_bind.mp h
      cases h
      obtain ⟨hmeets, hlength⟩ := meets_dimensionConstants hrest
      have hthree := ((meets_constant hsize).append (meets_constant hstride)).append hmeets
      refine ⟨hthree, ?_⟩
      show (rest.flatMap Dimension.slots).length + 1 + 1 = (arrayLiterals (next :: later)).length +
          1 + 1
      rw [hlength]
    · exact List.cons_ne_nil next later

/-- All literals of the event get their slots. -/
def MeetsAll (e : Event) (g g' : Generator) : Prop :=
  Meets g g' ((e.literals g).zip (e.literalSlots g g')) ∧
    (e.literalSlots g g').length = (e.literals g).length

theorem meetsAll_single {a : Nat} (hliterals : e.literals g = [v])
    (hslots : e.literalSlots g g' = [a]) (h : Meets g g' [(v, a)]) : MeetsAll e g g' := by
  rw [MeetsAll, hliterals, hslots]
  exact ⟨h, rfl⟩

theorem meetsAll_nil (he : e.literals g = []) (hslots : e.literalSlots g g' = [])
    (h : Meets g g' []) : MeetsAll e g g' := by
  rw [MeetsAll, he, hslots]
  exact ⟨h, rfl⟩

theorem meetsAll_pushConstant (h : Yields (pushConstant v) g u g') :
    MeetsAll (.pushConstant v) g g' := by
  unfold pushConstant at h
  obtain ⟨a, g₁, hconstant, h⟩ := yields_bind.mp h
  rw [yields_get_bind] at h
  cases h
  exact meetsAll_single (a := a) rfl rfl ((meets_constant hconstant).congr rfl rfl rfl rfl)

/-- The prompt is printed by one quad, which has its slot. -/
theorem yields_prompt {text : String} (h : Yields (prompt (some text)) g u g') :
    ∃ a, Meets g g' [(.string text, a)] ∧
      g'.program.quads = g.program.quads.push ⟨.print, none, none, some (.addr a)⟩ := by
  unfold prompt at h
  obtain ⟨a, g₁, hconstant, h⟩ := yields_bind.mp h
  obtain ⟨_, g₂, hprint, h⟩ := yields_bind.mp h
  cases h
  obtain ⟨-, -, rfl⟩ := yields_emit hprint
  have hquads : g₁.program.quads = g.program.quads := by
    obtain ⟨-, ⟨-, rfl⟩ | ⟨p, journal, -, -, rfl⟩⟩ := constant_cases hconstant
    · rfl
    · rfl
  refine ⟨a, (meets_constant hconstant).congr rfl rfl rfl rfl, ?_⟩
  rw [← hquads]

theorem meetsAll_input {text : Option String} (h : Yields (input text) g u g') :
    MeetsAll (.input text) g g' := by
  rw [input, yields_get_bind] at h
  split at h
  · cases h
  split at h
  · cases h
  obtain ⟨_, g₁, hprompt, h⟩ := yields_bind.mp h
  obtain ⟨t, g₂, htemporary, h⟩ := yields_bind.mp h
  obtain ⟨p, journal, -, rfl⟩ := allocate_of_yields htemporary
  obtain ⟨_, g₃, hemit, h⟩ := yields_bind.mp h
  obtain ⟨-, -, rfl⟩ := yields_emit hemit
  cases h
  clear htemporary hemit h
  cases text with
  | none =>
    cases hprompt
    exact meetsAll_nil rfl rfl (.nil rfl rfl)
  | some text =>
    obtain ⟨a, hmeets, hquads⟩ := yields_prompt hprompt
    refine meetsAll_single (a := a) rfl ?_ (hmeets.congr rfl rfl rfl rfl)
    have hprinted : (g₁.program.quads.push ⟨.input, none, none, some (.addr t)⟩)[g.nextQuad]? =
        some ⟨.print, none, none, some (.addr a)⟩ := by
      rw [hquads, Generator.nextQuad, Array.getElem?_push, if_neg (by rw [Array.size_push]; omega),
        Array.getElem?_push, if_pos rfl]
    show ((g₁.program.quads.push ⟨.input, none, none, some (.addr t)⟩)[g.nextQuad]?).elim []
        Quad.addresses = [a]
    rw [hprinted]
    rfl

theorem meetsAll_allocateArray (h : Yields allocateArray g u g') :
    MeetsAll .allocateArray g g' := by
  obtain ⟨id, v, p, base, p', ds, g₁, hlast, hv, -, -, -, -, hds, hplaced⟩ := yields_allocateArray h
  obtain ⟨hmeets, hlength⟩ := meets_dimensionConstants hds
  rw [Generator.inventory_setVariable] at hplaced
  obtain ⟨hliterals, hconstants⟩ := Inventory.literals_setVariable g₁.inventory id
    { v with address := base, pendingSizes := [], dimensions := ds }
  rw [← hplaced] at hliterals hconstants
  have hlookup :
      g'.lookup id = some { v with address := base, pendingSizes := [], dimensions := ds } := by
    rw [← Generator.lookup_inventory, hplaced, ← Generator.inventory_setVariable,
      Generator.lookup_inventory]
    exact Generator.lookup_setVariable _ _ _
  unfold MeetsAll
  have hmet : Event.allocateArray.literals g = arrayLiterals v.pendingSizes := by
    show (g.lastDeclared.bind g.lookup).elim [] _ = _
    rw [hlast, Option.bind_some, hv]
    rfl
  have hslots : Event.allocateArray.literalSlots g g' = ds.flatMap Dimension.slots := by
    show (g.lastDeclared.bind g'.lookup).elim [] _ = _
    rw [hlast, Option.bind_some, hlookup]
    rfl
  rw [hmet, hslots]
  exact ⟨hmeets.congr rfl rfl hliterals hconstants, hlength⟩

/-- Declarations meet no literal, and neither does most of what a function is made of. -/
theorem literals_of_dispatch (he : e.meetsLiterals = false) (h : Yields (dispatch e) g u g')
    (hb : g.inventory.Stocked sizes) :
    g'.literals = g.literals ∧ g'.program.constants = g.program.constants := by
  cases hkeeps : e.keepsTables with
  | true => exact Inventory.literals_of_chores ((chores_dispatch hkeeps he).of_yields h hb)
  | false =>
    cases e with
    | declareFunction id =>
      obtain ⟨journal, -, -, rfl⟩ := yields_declareFunction h
      exact ⟨rfl, rfl⟩
    | setFunctionType ty =>
      obtain ⟨f, r, -, -, rfl⟩ := yields_setFunctionType h
      exact ⟨rfl, rfl⟩
    | declareParam id ty =>
      obtain ⟨f, r, a, g₁, names, -, -, htaken, -, rfl⟩ := yields_declareParam h
      obtain ⟨p, journal, -, rfl⟩ := allocate_of_yields htaken
      exact ⟨rfl, rfl⟩
    | declareVariable id ty =>
      obtain ⟨a, p, journal, ⟨f, -, -, -, rfl⟩ | ⟨-, -, -, rfl⟩⟩ := declareVariable_cases h
      · exact ⟨rfl, rfl⟩
      · exact ⟨rfl, rfl⟩
    | declareArrayDimension n =>
      obtain ⟨id, v, -, -, rfl⟩ := yields_declareArrayDimension h
      have hset :=
        Inventory.literals_setVariable g.inventory id
          { v with pendingSizes := v.pendingSizes ++ [n] }
      rwa [← Generator.inventory_setVariable] at hset
    | endFunction =>
      obtain ⟨f, r, journal, -, -, -, rfl⟩ := yields_endFunction h
      exact ⟨rfl, rfl⟩
    | allocateArray => cases he
    | _ => cases hkeeps

/-- An accepted event meets its literals in order. -/
theorem meetsAll_apply (h : Yields (apply e) g u g') (hb : g.inventory.Stocked sizes) :
    MeetsAll e g g' := by
  obtain ⟨finishedCall, journal, hdispatch⟩ := exists_dispatch_of_apply h
  have hmeets : MeetsAll e { g with finishedCall := finishedCall, journal := journal } g' := by
    cases he : e.meetsLiterals with
    | false =>
      obtain ⟨hliterals, hconstants⟩ :=
        literals_of_dispatch he hdispatch (show Inventory.Stocked sizes _ from hb)
      cases e with
      | pushConstant | input | allocateArray => cases he
      | _ => exact meetsAll_nil rfl rfl (.nil hliterals hconstants)
    | true =>
      cases e with
      | pushConstant v => exact meetsAll_pushConstant hdispatch
      | input text => exact meetsAll_input hdispatch
      | allocateArray => exact meetsAll_allocateArray hdispatch
      | _ => cases he
  exact ⟨hmeets.1.congr rfl rfl rfl rfl, hmeets.2⟩

end Compile

/-! ## Scripts -/

/-- So does a script. -/
theorem Accepts.meets {sizes : Sizes} {g g' : Generator} {events : List Event}
    (h : Accepts g events g') (hb : g.inventory.Stocked sizes) :
    Meets g g' (g.literalsMet events) ∧
    (g.literalsMet events).map Prod.fst = g.literalsOf events := by
  induction h with
  | nil g => exact ⟨.nil rfl rfl, rfl⟩
  | @cons g g₁ g₂ e rest hfirst hrest ih =>
    have hnext : g.next e = g₁ := congrArg Prod.snd hfirst
    have hb₁ : g₁.inventory.Stocked sizes :=
      ((Compile.rearranges_apply e).of_yields hfirst).stocked hb
    obtain ⟨hmeets, hlength⟩ := Compile.meetsAll_apply hfirst hb
    obtain ⟨hlater, hnames⟩ := ih hb₁
    rw [Generator.literalsMet, Generator.literalsOf, hnext, List.map_append, hnames,
      List.map_fst_zip (Nat.le_of_eq hlength.symm)]
    exact ⟨hmeets.append hlater, rfl⟩

/-- **Literals are shared, exactly and faithfully.** In every accepted script each literal that is
met gets a slot, two of them the same slot exactly when they are the same literal, and the slot lies
among the constants of the literal's type.  The finished program has this literal there, with its
type, and it has no other constants. -/
theorem literals_are_shared {threshold : Level} {sizes : Sizes} {events : List Event}
    {g : Generator} (h : Accepts (Generator.ofSizes sizes threshold) events g) :
    ((Generator.ofSizes sizes threshold).literalsMet events).map Prod.fst =
        (Generator.ofSizes sizes threshold).literalsOf events ∧
      (∀ x ∈ (Generator.ofSizes sizes threshold).literalsMet events,
        (∀ y ∈ (Generator.ofSizes sizes threshold).literalsMet events, x.2 = y.2 ↔
          x.1.SameLiteral y.1) ∧
        Located sizes x.2 .constants x.1.scalar) ∧
      ∀ p names g', Yields Compile.finish g (p, names) g' →
        (∀ x ∈ (Generator.ofSizes sizes threshold).literalsMet events,
          ∃ c, p.constants.find? x.2 = some c ∧
          c.ty = x.1.scalar ∧ c.value.SameLiteral x.1) ∧
        ∀ a c, p.constants.find? a = some c →
          (c.value, a) ∈ (Generator.ofSizes sizes threshold).literalsMet events := by
  have hb := Inventory.stocked_ofSizes sizes threshold
  have hrearranges : (Generator.ofSizes sizes threshold).Rearranges sizes g := h.rearranges
  have hstocked : g.inventory.Stocked sizes := hrearranges.stocked hb
  have hindexed : g.inventory.Indexed :=
    Generator.indexed_of_rearrangements (hrearranges hb) (Inventory.indexed_ofSizes sizes threshold)
  obtain ⟨hmeets, hall⟩ := h.meets hb
  -- the slot of a literal has a constant with its key
  have hconstant : ∀ x ∈ (Generator.ofSizes sizes threshold).literalsMet events, ∃ c,
      g.program.constants.find? x.2 = some c ∧ c.value.SameLiteral x.1 := by
    intro x hx
    obtain ⟨c, hc, hkey⟩ := hstocked.literals _ (hmeets.slots x hx)
    exact ⟨c, hc, Value.canonical_eq_iff.mp hkey⟩
  refine ⟨hall, ?_, ?_⟩
  · intro x hx
    obtain ⟨c, hc, hsame⟩ := hconstant x hx
    refine ⟨fun y hy => ?_, hsame.scalar_eq ▸ (hstocked.constants _ c hc).2⟩
    rw [← Value.canonical_eq_iff]
    constructor
    · intro hslot
      obtain ⟨d, hd, hsame'⟩ := hconstant y hy
      rw [hslot, hd] at hc
      cases hc
      rw [← Value.canonical_eq_iff.mpr hsame, Value.canonical_eq_iff.mpr hsame']
    · intro hkey
      exact (Prod.mk.inj (hindexed.keys _ (hmeets.slots x hx) _ (hmeets.slots y hy) hkey)).2
  · intro p names g' hfinish
    obtain ⟨-, -, -, -, rfl⟩ := Compile.yields_finish hfinish
    refine ⟨fun x hx => ?_, fun a c hc => ?_⟩
    · obtain ⟨c, hc, hsame⟩ := hconstant x hx
      exact ⟨c, hc, (hindexed.constants _ c hc).2.trans hsame.scalar_eq, hsame⟩
    · rcases hmeets.fresh a c hc with hnone | hmem
      · cases hnone
      · exact hmem

/-- An array of two rows of three, a prompt that is also a string, two NaNs, and both zeros. -/
def repeatedLiterals : List Event :=
  [.declareVariable "a" (.scalar .int), .declareArrayDimension 2, .declareArrayDimension 3,
    .allocateArray, .declareFunction "main", .declareVariable "s" (.scalar .string),
    .pushVariable "s", .pushOperator "=", .input (some "name"), .executeRemaining,
    .pushConstant (.string "name"), .print, .pushConstant (.int 3), .print,
    .pushConstant (.float ⟨0x7FF8000000000001⟩), .print,
    .pushConstant (.float ⟨0xFFF0000000000002⟩), .print,
    .pushConstant (.float (Binary64.zero false)), .print,
    .pushConstant (.float (Binary64.zero true)), .print,
    .endFunction]

/-- One slot for the three threes, one for the prompt and the string, one for the NaNs; the zeros
have one each. -/
theorem literals_are_shared_repeatedLiterals :
    ∃ g p names g', Accepts (Generator.ofSizes (Sizes.uniform 8) .warn) repeatedLiterals g ∧
      Yields Compile.finish g (p, names) g' ∧
      (Generator.ofSizes (Sizes.uniform 8) .warn).literalsMet repeatedLiterals =
        [(.int 2, 120), (.int 3, 121), (.int 3, 121), (.string "name", 144), (.string "name", 144),
          (.int 3, 121), (.float ⟨0x7FF8000000000001⟩, 128), (.float ⟨0xFFF0000000000002⟩, 128),
          (.float (Binary64.zero false), 129), (.float (Binary64.zero true), 130)] ∧
      (∃ c, p.constants.find? 128 = some c ∧ c.ty = .float ∧
        c.value.SameLiteral (.float ⟨0xFFF0000000000002⟩)) ∧
      ¬ (Value.float (Binary64.zero false)).SameLiteral (.float (Binary64.zero true)) ∧
      p.constants.find? 122 = none := by
  obtain ⟨p, names, hcompile⟩ := exists_of_isOk
    (show (compile .warn (Sizes.uniform 8) repeatedLiterals).1.isOk = true by decide +kernel)
  obtain ⟨g, g', haccepts, hfinish⟩ := accepts_of_compile hcompile
  have hmet : (Generator.ofSizes (Sizes.uniform 8) .warn).literalsMet repeatedLiterals =
      [(.int 2, 120), (.int 3, 121), (.int 3, 121), (.string "name", 144), (.string "name", 144),
        (.int 3, 121), (.float ⟨0x7FF8000000000001⟩, 128), (.float ⟨0xFFF0000000000002⟩, 128),
        (.float (Binary64.zero false), 129), (.float (Binary64.zero true), 130)] := by
          decide +kernel
  obtain ⟨-, hslots, hprogram⟩ := literals_are_shared haccepts
  obtain ⟨hfound, honly⟩ := hprogram p names g' hfinish
  rw [hmet] at hslots hfound honly
  refine ⟨g, p, names, g', haccepts, hfinish, hmet, ?_, ?_, ?_⟩
  · exact hfound (.float ⟨0xFFF0000000000002⟩, 128) (by simp)
  · rw [← (hslots (.float (Binary64.zero false), 129) (by simp)).1 (.float (Binary64.zero true),
      130) (by simp)]
    exact Nat.ne_of_lt (Nat.lt_succ_self 129)
  · cases hother : p.constants.find? 122 with
    | none => rfl
    | some c => simpa using honly 122 c hother

end Quadruple
