/-
  Fields of live objects.

  A block is that of a live object of a class from the moment a quad that makes such objects takes
  it, for as long as it is taken (`IsObject`).  The block is as long as the quad says
  (`last_of_taken`), and a quad that reaches a field leaves a pointer as far behind the start of its
  object as the quad says (`pointerAt_of_pointerAdd`).  So where objects have room for the fields
  that are reached in them, that pointer leads into the block of its object:

      k < size  →  first ≤ first + k ≤ last        (last = first + max size 1 - 1)
-/
import Quadruple.Proofs.FrameSteps
import Quadruple.Proofs.HeapAllocation
import Quadruple.Proofs.ObjectFields
import Quadruple.Proofs.Run

namespace Quadruple

variable {v : Option Value} {o : Option Operand} {base : Nat}

namespace Machine

variable {m m' : Machine} {sizes : Sizes} {a k size : Nat}

/-! ## Slots of the frame -/

/-- What is written to a slot of the frame is what is read from it. -/
theorem readSlot_of_writeSlot (hlayout : m.layout = Layout.ofSizes sizes) {r : Range}
    (hr : (Layout.ofSizes sizes).locate a = some r) (hframe : r.inFrame)
    (h : m.writeSlot a v = .ok m') : ∃ w, m.stored a v = .ok w ∧ m'.readSlot a = .ok w := by
  have hplace := place_inFrame hlayout hr hframe
  rw [writeSlot, hplace] at h
  cases hstored : m.stored a v with
  | error f =>
    rw [hstored] at h
    cases h
  | ok w =>
    rw [hstored] at h
    dsimp only [bind, Except.bind] at h
    cases hframes : m.frames with
    | nil =>
      rw [hframes] at h
      cases h
    | cons f rest =>
      rw [hframes] at h
      dsimp only at h
      cases hset : f.set? r a w with
      | none =>
        rw [hset] at h
        cases h
      | some f' =>
        rw [hset] at h
        cases h
        refine ⟨w, rfl, ?_⟩
        rw [readSlot_frame (m := { m with frames := f' :: rest }) hplace rfl,
          Frame.get?_of_set? hset]
        rfl

/-- A pointer that is written to a temporary is there. -/
theorem pointerAt_of_write (hlayout : m.layout = Layout.ofSizes sizes)
    (ha : (Layout.ofSizes sizes).IsTemporary .pointer a) {target : Nat}
    (h : m.write (some (.ref a)) (.pointer target) = .ok m') : m'.pointerAt a = .ok target := by
  obtain ⟨r, hr, hsegment⟩ := Option.map_eq_some_iff.mp ha.1
  have h : m.writeSlot a (some (.pointer target)) = .ok m' := h
  obtain ⟨w, hstored, hread⟩ := readSlot_of_writeSlot hlayout hr (Or.inr hsegment) h
  have hw : w = some (.pointer target) := by
    unfold stored at hstored
    rw [hlayout, ha.2] at hstored
    cases hstored
    rfl
  unfold pointerAt
  rw [hread, hw]
  rfl

/-! ## Reaching a field -/

theorem yields_pointerBase (h : Yields (Exec.pointerBase o) m base m') : m' = m := by
  unfold Exec.pointerBase at h
  split at h
  · exact (yields_pure.mp h).2
  · exact (Exec.yields_ask.mp h).2
  · exact (Exec.yields_ask.mp h).2
  · obtain ⟨_, m₁, hfirst, h⟩ := yields_bind.mp h
    rw [(Exec.yields_ask.mp h).2, (Exec.yields_ask.mp hfirst).2]
  · cases h

/-- Looking up the base of a pointer sum changes nothing. -/
theorem pointerBase_of_toOption (h : ((Exec.pointerBase o).run.run m).1.toOption = some base) :
    Yields (Exec.pointerBase o) m base m := by
  cases hrun : (Exec.pointerBase o).run.run m with
  | mk r m' =>
    rw [hrun] at h
    cases r with
    | error f => cases h
    | ok b =>
      cases h
      have hyields : Yields (Exec.pointerBase o) m base m' := hrun
      rwa [yields_pointerBase hyields] at hyields

/-- The base of a pointer sum does not depend on what is counted and noted. -/
theorem pointerBase_reached (h : Yields (Exec.pointerBase o) m base m) (q : Quad) :
    Yields (Exec.pointerBase o) (m.reached q) base (m.reached q) := by
  unfold Exec.pointerBase at h ⊢
  split at h
  · exact yields_pure.mpr ⟨(yields_pure.mp h).1, rfl⟩
  · exact Exec.yields_ask.mpr ⟨(Exec.yields_ask.mp h).1, rfl⟩
  · exact Exec.yields_ask.mpr ⟨(Exec.yields_ask.mp h).1, rfl⟩
  · rw [yields_bind] at h ⊢
    obtain ⟨b, m₁, hfirst, h⟩ := h
    obtain ⟨hfirst, rfl⟩ := Exec.yields_ask.mp hfirst
    exact ⟨b, m₁.reached q, Exec.yields_ask.mpr ⟨hfirst, rfl⟩,
      Exec.yields_ask.mpr ⟨(Exec.yields_ask.mp h).1, rfl⟩⟩
  · cases h

/-- A place is read as a word, and is then no more than it was. -/
theorem toInt_ofInt_le (k : Nat) :
    (Int64.ofInt k).toInt ≤ k ∧ (k < 2 ^ 63 → (Int64.ofInt k).toInt = k) := by
  have hexact : k < 2 ^ 63 → (Int64.ofInt k).toInt = k := by
    intro hk
    exact Int64.toInt_ofInt_of_le (by omega) (by omega)
  refine ⟨?_, hexact⟩
  rcases Nat.lt_or_ge k (2 ^ 63) with hlt | hge
  · exact Int.le_of_eq (hexact hlt)
  · have hlt := Int64.toInt_lt (Int64.ofInt k)
    omega

/-- A pointer sum over a literal leads as far behind its base as the literal says, or less if it is
no word. -/
theorem yields_pointerAdd {flow : Flow} {t : Nat}
    (h : Yields (Exec.pointerAdd ⟨.pointerAdd, o, some (.immediate k), some (.ref t)⟩) m flow m')
    (hbase : Yields (Exec.pointerBase o) m base m) :
    ∃ target, base ≤ target ∧ target ≤ base + k ∧ (k < 2 ^ 63 → target = base + k) ∧
      m.write (some (.ref t)) (.pointer target) = .ok m' := by
  unfold Exec.pointerAdd at h
  obtain ⟨base', m₁, hbase', h⟩ := yields_bind.mp h
  cases hbase.symm.trans hbase'
  obtain ⟨offset, m₂, hoffset, h⟩ := yields_bind.mp h
  obtain ⟨hoffset, rfl⟩ := Exec.yields_ask.mp hoffset
  obtain rfl : offset = Int64.ofInt k := (Except.ok.inj hoffset).symm
  dsimp only at h
  split at h
  · cases h
  rename_i hrange
  obtain ⟨_, m₃, hwrite, h⟩ := yields_bind.mp h
  cases h
  have hwrite := Exec.yields_update.mp hwrite
  obtain ⟨hle, hexact⟩ := toInt_ofInt_le k
  refine ⟨((base : Int) + (Int64.ofInt k).toInt).toNat, by omega, by omega, ?_, hwrite⟩
  intro hk
  rw [hexact hk]
  omega

/-- The quad of a field leaves a pointer that leads as far behind the start of the object as the
quad says. -/
theorem pointerAt_of_pointerAdd (hlayout : m.layout = Layout.ofSizes sizes) {t : Nat}
    (hq : m.quads[m.ip]? = some ⟨.pointerAdd, o, some (.immediate k), some (.ref t)⟩)
    (ht : (Layout.ofSizes sizes).IsTemporary .pointer t)
    (hbase : Yields (Exec.pointerBase o) m base m) (h : m.advance = .running m') :
    ∃ target, base ≤ target ∧ target ≤ base + k ∧ (k < 2 ^ 63 → target = base + k) ∧
      m'.pointerAt t = .ok target := by
  obtain ⟨flow, m₁, hstep, hflow⟩ := yields_of_running h
  obtain ⟨q, hq', -, hexec⟩ := yields_step hstep
  cases hq.symm.trans hq'
  obtain ⟨target, hlower, hupper, hexact, hwrite⟩ :=
    yields_pointerAdd hexec (pointerBase_reached hbase _)
  refine ⟨target, hlower, hupper, hexact, ?_⟩
  have hpointer := pointerAt_of_write (m := m.reached _) hlayout ht hwrite
  obtain ⟨-, rfl⟩ | ⟨jump, -, rfl⟩ := hflow
  · exact hpointer
  · exact hpointer

/-! ## Making an object -/

theorem blocks_writeSlot (h : m.writeSlot a v = .ok m') : m'.heap.blocks = m.heap.blocks := by
  obtain ⟨_, _, _, -, -, -, rfl⟩ | ⟨_, _, _, _, _, -, -, -, -, rfl⟩ | ⟨w, heap, hwrite, rfl⟩ :=
    writeSlot_eq_ok h
  · rfl
  · rfl
  · unfold Heap.write at hwrite
    split at hwrite
    · cases hwrite
      rfl
    · cases hwrite

/-- A new block is one that the heap grants. -/
theorem yields_newBlock {s : Nat} (h : Yields (Exec.newBlock size) m s m') :
    ∃ block, m.heap.blocks.allocate size = .ok (block, m'.heap.blocks) := by
  rw [Exec.newBlock, yields_get_bind] at h
  split at h
  · cases h
  rename_i block heap hallocate
  rw [yields_set_bind, yields_bind] at h
  obtain ⟨_, m₁, hnote, h⟩ := h
  have hnote := yields_modify.mp hnote
  cases h
  subst hnote
  exact ⟨block, Heap.allocate_blocks hallocate⟩

/-- Making an object takes a block of the size that the quad says. -/
theorem yields_pointerAssign_new {flow : Flow}
    (h : Yields (Exec.pointerAssign ⟨.pointerAssign, some .allocHeap, some (.immediate size), o⟩) m
      flow m')
    : ∃ block, m.heap.blocks.allocate size = .ok (block, m'.heap.blocks) := by
  unfold Exec.pointerAssign Exec.pointerSource at h
  dsimp only at h
  rw [yields_bind] at h
  obtain ⟨v, m₁, hsource, h⟩ := h
  rw [yields_bind] at hsource
  obtain ⟨first, m₂, hblock, hsource⟩ := hsource
  cases hsource
  rw [yields_bind] at h
  obtain ⟨_, m₃, hrequire, h⟩ := h
  cases hrequire
  rw [yields_bind] at h
  obtain ⟨target, m₄, hresolve, h⟩ := h
  obtain ⟨-, rfl⟩ := Exec.yields_ask.mp hresolve
  rw [yields_bind] at h
  obtain ⟨_, m₅, hwrite, h⟩ := h
  cases h
  rw [blocks_writeSlot (Exec.yields_update.mp hwrite)]
  exact yields_newBlock hblock

/-- The block that the quad of an object takes is as long as the quad says. -/
theorem last_of_taken
    (hq : m.quads[m.ip]? = some ⟨.pointerAssign, some .allocHeap, some (.immediate size), o⟩)
    (h : m.advance = .running m') {s : Span} (hfree : s ∉ m.heap.blocks.taken)
    (htaken : s ∈ m'.heap.blocks.taken) : s.last = s.first + max size 1 - 1 := by
  obtain ⟨flow, m₁, hstep, hflow⟩ := yields_of_running h
  obtain ⟨q, hq', -, hexec⟩ := yields_step hstep
  cases hq.symm.trans hq'
  obtain ⟨block, hallocate⟩ := yields_pointerAssign_new hexec
  have hblocks : m'.heap.blocks = m₁.heap.blocks := by
    obtain ⟨-, rfl⟩ | ⟨jump, -, rfl⟩ := hflow
    · rfl
    · rfl
  obtain ⟨free, -, -, hblock, hafter⟩ := Blocks.allocate_eq_ok hallocate
  rw [hblocks, hafter] at htaken
  rcases List.mem_cons.mp ((Span.perm_insert block _).mem_iff.mp htaken) with rfl | hold
  · rw [hblock]
  · exact (hfree hold).elim

end Machine

/-! ## Live objects -/

/-- At the `n`th moment of the run the block is that of a live object of the class: a quad that
makes such objects took it, and it has been taken ever since. -/
def IsObject (start : Generator) (events : List Event) (p : Program) (m : Machine) (c : String)
    (n : Nat) (s : Span) :
    Prop :=
  ∃ a t size, a < n ∧ m.after a = some t ∧ Makes start events p c t.ip size ∧
    s ∉ t.heap.blocks.taken ∧
    ∀ b u, a < b → b ≤ n → m.after b = some u → s ∈ u.heap.blocks.taken

/-- Objects hold their fields: they have room for every field that is reached in them, and whenever
a field of a live object is reached, the pointer to it leads into the object's block. -/
structure ObjectsHoldFields (start : Generator) (events : List Event) (p : Program) : Prop where
  room : ∀ c f n n' size k, Makes start events p c n size → Reaches start events p c f n' k →
    k < size
  inside : ∀ (m m₀ t t' : Machine) (c f : String) (n k : Nat) (s : Span) (q : Quad),
    m.start p = .ok m₀ → m₀.after n = some t → IsObject start events p m₀ c n s →
    Reaches start events p c f t.ip k →
    p.quads[t.ip]? = some q → Yields (Exec.pointerBase q.left) t s.first t →
    t.advance = .running t' →
    ∃ slot target, q.result = some (.ref slot) ∧ t'.pointerAt slot = .ok target ∧ target ∈ s ∧
      (k < 2 ^ 63 → target = s.first + k)

/-- Fields below the size asked for lie in the block the heap grants. -/
theorem objectsHoldFields_of_room {sizes : Sizes} {threshold : Level} {g : Generator}
    {events : List Event} {p : Program} (h : Accepts (Generator.ofSizes sizes threshold) events g)
    (hp : p.quads = g.program.quads) (hlayout : p.layout = .ofSizes sizes)
    (hroom : ∀ c f n n' size k, Makes (Generator.ofSizes sizes threshold) events p c n size →
      Reaches (Generator.ofSizes sizes threshold) events p c f n' k → k < size)
    : ObjectsHoldFields (Generator.ofSizes sizes threshold) events p := by
  refine ⟨hroom, ?_⟩
  intro m m₀ t t' c f n k s q hstart ht hobject hreaches hq hbase hadvance
  have hloaded := Machine.loaded_after hstart ht
  -- where the object was made
  obtain ⟨a, u, size, han, hu, hmakes, hfree, htaken⟩ := hobject
  have hlt := hroom c f u.ip t.ip size k hmakes hreaches
  obtain ⟨u', hu'⟩ := Machine.exists_after_of_le ht (show a + 1 ≤ n by omega)
  have htaken := htaken (a + 1) u' (by omega) han hu'
  obtain ⟨_, hu₁, hadvance'⟩ := Machine.after_succ.mp hu'
  cases hu.symm.trans hu₁
  obtain ⟨-, target, -, -, hmake⟩ := hmakes
  rw [← (Machine.loaded_after hstart hu).quads] at hmake
  have hlast := Machine.last_of_taken hmake hadvance' hfree htaken
  -- where the field is reached
  obtain ⟨j, base, field, hj, -, hemits, hreach⟩ := hreaches
  cases hq.symm.trans hreach
  have htyped :
      (⟨.pointerAdd, base, some (.immediate k), field⟩ : Quad).Typed (.ofSizes sizes) := by
    have hg : g.Typed sizes := by
      rw [← h.stage_last (Nat.le_refl _)]
      exact (Generator.typed_ofSizes sizes threshold).stage events _
    rw [hp] at hreach
    exact hg.quads _ (Array.mem_of_getElem? hreach)
  cases htyped with
  | compute hop => cases hop
  | element _ hoffset => exact hoffset.elim
  | field _ hobject hslot =>
    rw [← hloaded.quads] at hreach
    obtain ⟨target, hlower, hupper, hexact, hpointer⟩ :=
      Machine.pointerAt_of_pointerAdd (hloaded.layout.trans hlayout) hreach hslot hbase hadvance
    refine ⟨_, target, rfl, hpointer, ?_, hexact⟩
    rw [Span.mem_iff]
    omega

/-- **Objects hold their fields exactly when none is declared late.** Every `new` of a compiled
script makes an object and every access to a field reaches it at a place; a field has the same place
wherever it is reached, and different fields of a class have different places.  Objects have room
for the fields that are reached in them, and fields of live objects are inside their blocks, unless
a field is reached that its class did not have yet where an object of it was made; and then some
object has no room for it.  That takes a function opened inside a class. -/
theorem objects_hold_fields_iff {threshold : Level} {sizes : Sizes} {events : List Event}
    {p : Program} {names : Names} (h : (compile threshold sizes events).1 = .ok (p, names)) :
    let start := Generator.ofSizes sizes threshold
    (∀ i c, events[i]? = some (.newObject c) →
      ∃ n size, Emits start events i n ∧ Makes start events p c n size) ∧
    (∀ j f, events[j]? = some (.pushProperty f) →
      ∃ c n k, Emits start events j n ∧ Reaches start events p c f n k) ∧
    (∀ c f f' n n' k k', Reaches start events p c f n k → Reaches start events p c f' n' k' →
      (f = f' ↔ k = k')) ∧
    (ObjectsHoldFields start events p ↔ declaresLate start events = false) ∧
    (opensFunctionInClass events = false → declaresLate start events = false) := by
  obtain ⟨g, haccepts, -, hp, -, hlayout⟩ := exists_accepts_of_compile h
  intro start
  refine ⟨?_, ?_, fun c f f' n n' k k' hf hf' => hf.place_iff haccepts hp hf', ?_,
    declaresLate_of_apart rfl haccepts⟩
  · intro i c hi
    obtain ⟨n, fields, hemits, -, hmakes⟩ := exists_makes haccepts hp hi
    exact ⟨n, fields.length, hemits, hmakes⟩
  · intro j f hj
    obtain ⟨c, n, fields, k, ty, hemits, -, -, -, hreaches⟩ := exists_reaches haccepts hp hj
    exact ⟨c, n, k, hemits, hreaches⟩
  · rw [← sizes_suffice_iff haccepts hp]
    exact ⟨fun hfields => hfields.room, fun hroom =>
      objectsHoldFields_of_room haccepts hp hlayout hroom⟩

/-- An object whose field is another object of the same class, and a field of that one. -/
def linkedPair : List Event :=
  [.declareClass "Node", .declareField "value" (.scalar .int),
    .declareField "next" (.object "Node"), .endClass,
    .declareFunction "main", .declareVariable "x" (.object "Node"), .pushObject "x",
    .newObject "Node", .pushObject "x", .pushProperty "next", .newObject "Node", .pushObject "x",
    .pushProperty "next", .pushProperty "value", .pushOperator "=", .pushConstant (.int 5),
    .executeRemaining, .endFunction]

def linkedPairProgram : Program := programOf .warn (Sizes.uniform 2) linkedPair

/-- The first state of its run. -/
def linkedPairStart : Machine :=
  (Machine.ofConsole ⟨8, none, 8⟩ (Console.ofInput []) .warn).startState linkedPairProgram

theorem objects_hold_fields_iff_linkedPair :
    ∃ names t t', (compile .warn (Sizes.uniform 2) linkedPair).1 = .ok (linkedPairProgram, names) ∧
      opensFunctionInClass linkedPair = false ∧
      ObjectsHoldFields (.ofSizes (Sizes.uniform 2) .warn) linkedPair linkedPairProgram ∧
      linkedPairStart.after 4 = some t ∧
      IsObject (.ofSizes (Sizes.uniform 2) .warn) linkedPair linkedPairProgram linkedPairStart
        "Node" 4 ⟨42, 43⟩ ∧
      Reaches (.ofSizes (Sizes.uniform 2) .warn) linkedPair linkedPairProgram "Node" "value"
        t.ip 0 ∧
      t.advance = .running t' ∧
      ∃ target, t'.pointerAt 29 = .ok target ∧ target ∈ (⟨42, 43⟩ : Span) := by
  obtain ⟨names, h⟩ := compile_eq_programOf
    (show (compile .warn (Sizes.uniform 2) linkedPair).1.isOk = true by decide +kernel)
  have hapart : opensFunctionInClass linkedPair = false := by decide
  obtain ⟨-, -, -, hiff, hlate⟩ := objects_hold_fields_iff h
  have hfields := hiff.mpr (hlate hapart)
  have hstart :
      (Machine.ofConsole ⟨8, none, 8⟩ (Console.ofInput []) .warn).start linkedPairProgram =
      .ok linkedPairStart := Machine.start_eq_startState (by decide +kernel)
  -- the second object is made by the third quad, and stays
  have hobject :
      IsObject (.ofSizes (Sizes.uniform 2) .warn) linkedPair linkedPairProgram linkedPairStart
        "Node" 4
      ⟨42, 43⟩ := by
    obtain ⟨u, hu, hmade⟩ := (Option.any_eq_true _ _).mp
      (show (linkedPairStart.after 2).any (fun u => u.ip = 2 ∧
        (⟨42, 43⟩ : Span) ∉ u.heap.blocks.taken) = true by
        decide +kernel)
    obtain ⟨hip, hfree⟩ := of_decide_eq_true hmade
    have hkept : ∀ b < 5, 2 < b →
        (linkedPairStart.after b).all fun u => (⟨42, 43⟩ : Span) ∈ u.heap.blocks.taken := by
          decide +kernel
    refine ⟨2, u, 2, by decide, hu, ⟨10, some (.deref 28), rfl, ?_, ?_⟩, hfree, ?_⟩
    · rw [hip]
      exact ⟨by decide +kernel, by decide +kernel⟩
    · rw [hip]
      decide +kernel
    · intro b v h2b hb4 hv
      have hb := hkept b (by omega) h2b
      rw [hv] at hb
      exact of_decide_eq_true hb
  -- its field is reached by the fifth quad
  obtain ⟨t', ht'⟩ :=
    Option.isSome_iff_exists.mp (show (linkedPairStart.after 5).isSome = true by decide +kernel)
  obtain ⟨t, ht, hadvance⟩ := Machine.after_succ.mp ht'
  have hmoment : (linkedPairStart.after 4).all (fun t =>
      t.ip = 4 ∧ ((Exec.pointerBase (some (.deref 28))).run.run t).1.toOption = some 42) = true :=
        by decide +kernel
  rw [ht] at hmoment
  obtain ⟨hip, hrun⟩ := of_decide_eq_true hmoment
  have hquad : linkedPairProgram.quads[t.ip]? =
      some ⟨.pointerAdd, some (.deref 28), some (.immediate 0), some (.ref 29)⟩ := by
    rw [hip]
    decide +kernel
  have hreaches : Reaches (.ofSizes (Sizes.uniform 2) .warn) linkedPair linkedPairProgram "Node"
      "value" t.ip 0 := by
    refine ⟨13, some (.deref 28), some (.ref 29), rfl, by decide +kernel, ?_, hquad⟩
    rw [hip]
    exact ⟨by decide +kernel, by decide +kernel⟩
  obtain ⟨slot, target, hslot, hpointer, hinside, -⟩ :=
    hfields.inside _ _ t t' "Node" "value" 4 0 ⟨42, 43⟩ _ hstart ht
    hobject hreaches hquad (Machine.pointerBase_of_toOption hrun) hadvance
  cases hslot
  exact ⟨names, t, t', h, hapart, hfields, ht, hobject, hreaches, hadvance, target, hpointer,
    hinside⟩

/-- A class that gets a field after an object of it was made, in a function opened inside the class.
-/
def lateField : List Event :=
  [.declareClass "C", .declareField "a" (.scalar .int), .declareFunction "main",
    .declareVariable "x" (.object "C"), .pushObject "x", .newObject "C",
    .declareField "b" (.scalar .int), .endClass, .pushObject "x", .pushProperty "b",
    .pushOperator "=", .pushConstant (.int 5), .executeRemaining, .endFunction]

/-- The object has one cell, and the field that is reached in it is the one at place 1. -/
theorem object_too_small_for_late_field :
    ∃ p names, (compile .warn (Sizes.uniform 2) lateField).1 = .ok (p, names) ∧
      Makes (.ofSizes (Sizes.uniform 2) .warn) lateField p "C" 0 1 ∧
      Reaches (.ofSizes (Sizes.uniform 2) .warn) lateField p "C" "b" 1 1 ∧
      ¬ ObjectsHoldFields (.ofSizes (Sizes.uniform 2) .warn) lateField p := by
  obtain ⟨names, h⟩ := compile_eq_programOf
    (show (compile .warn (Sizes.uniform 2) lateField).1.isOk = true by decide +kernel)
  have hmakes :
      Makes (.ofSizes (Sizes.uniform 2) .warn) lateField
        (programOf .warn (Sizes.uniform 2) lateField) "C" 0 1 :=
    ⟨5, some (.ref 18), rfl, ⟨by decide +kernel, by decide +kernel⟩, by decide +kernel⟩
  have hreaches :
      Reaches (.ofSizes (Sizes.uniform 2) .warn) lateField
        (programOf .warn (Sizes.uniform 2) lateField)
      "C" "b" 1 1 :=
    ⟨9, some (.ref 18), some (.ref 28), rfl,
      by decide +kernel, ⟨by decide +kernel, by decide +kernel⟩, by decide +kernel⟩
  refine ⟨_, names, h, hmakes, hreaches, ?_⟩
  intro hfields
  have hlt := hfields.room "C" "b" 0 1 1 1 hmakes hreaches
  omega

end Quadruple
