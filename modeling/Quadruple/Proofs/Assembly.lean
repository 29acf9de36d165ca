/-
  A script that compiles has an image.

  The events around the body open the entry function, declare its variables one after another, and
  close it.  A name can be declared once only, so each variable has the kind of its declaration.
  When the function is closed, its frame gets as many slots as were ever in use at once, so
  everything the code refers to is in it.

  What comes out is said in `Image.IsOf`: the finished program, as a machine loads it, is an image
  of the script in which code from quad 0 on performs the body and an `ENDFUNC` follows:

      I.Performs s.body 0 j  ∧  I.code[j]? = some ENDFUNC
-/
import Quadruple.Proofs.Loading
import Quadruple.Proofs.Statements

namespace Quadruple

variable {before after : List (String × Source.Kind)} {sizes : Sizes}
  {kinds : String → Option Source.Kind}

namespace Compile

variable {sizes : Sizes} {g g' : Generator} {u : Unit}

/-- A new local of the open function takes a slot. -/
theorem yields_declareVariable {id : String} {ty : Scalar}
    (h : Yields (declareVariable id (.scalar ty)) g u g') (hp : g.pool.Valid sizes)
    (hopen : g.currentFunction.isSome = true) :
    g.locals.contains id = false ∧ ∃ a p journal, Pool.Takes sizes g.pool .locals ty a p ∧
      g' = { g with
        pool := p
        journal := journal
        names := g.names.insert a id
        locals := g.locals.insert id ⟨a, .scalar ty, [], []⟩
        lastDeclared := some id } := by
  rw [declareVariable, yields_bind] at h
  obtain ⟨_, g₁, hknown, h⟩ := h
  unfold requireType at hknown
  rw [yields_get_bind, if_pos (show g.knowsType (.scalar ty) = true from rfl)] at hknown
  cases hknown
  rw [yields_get_bind, if_pos hopen] at h
  split at h
  · cases h
  rename_i hnew
  obtain ⟨a, g₂, ha, h⟩ := yields_bind.mp h
  obtain ⟨p, journal, htakes, rfl⟩ := yields_allocate ha hp
  obtain ⟨_, g₃, hname, h⟩ := yields_bind.mp h
  cases hname
  exact ⟨Bool.eq_false_iff.mpr hnew, a, p, _, htakes, yields_modify.mp h⟩

end Compile

theorem Table.find?_mapValues {κ ν ω : Type} [Ord κ] (f : ν → ω) (t : Table κ ν) (k : κ) :
    (t.mapValues f).find? k = (t.find? k).map f := by
  show valueIn? k (t.entries.map fun e => (e.1, f e.2)) = (valueIn? k t.entries).map f
  induction t.entries with
  | nil => rfl
  | cons e rest ih =>
    rw [List.map_cons, valueIn?, valueIn?]
    split
    · rfl
    · exact ih

namespace Source

variable {g g' : Generator}

/-! ## Declarations -/

theorem lookup_append_cons {x : String} {k : Kind} (h : ∀ d ∈ before, d.1 ≠ x) :
    (before ++ (x, k) :: after).lookup x = some k := by
  induction before with
  | nil => exact List.lookup_cons_self
  | cons d rest ih =>
    have hne : (x == d.1) = false := beq_eq_false_iff_ne.mpr (h d List.mem_cons_self).symm
    rw [List.cons_append, List.lookup_cons, hne]
    exact ih fun d hd => h d (List.mem_cons_of_mem _ hd)

/-- Variables are declared one after another; the ones before are in scope already. -/
theorem declared (hkinds : ∀ x, kinds x = (before ++ after).lookup x)
    (hbefore : ∀ d ∈ before, g.locals.contains d.1 = true) (hs : g.books.Sound sizes kinds)
    (hidle : Idle g) (hopen : g.currentFunction.isSome = true)
    (h : Accepts g (after.map fun d => .declareVariable d.1 (.scalar d.2.scalar)) g') :
    g'.books.Sound sizes kinds ∧ Idle g' ∧ g'.program = g.program ∧
    g'.currentFunction = g.currentFunction := by
  induction after generalizing before g with
  | nil =>
    cases h
    exact ⟨hs, hidle, rfl, rfl⟩
  | cons d rest ih =>
    obtain ⟨x, k⟩ := d
    cases h with
    | cons hfirst hrest =>
      rename_i g₁
      obtain ⟨hnew, a, p, journal, htakes, hg₁⟩ :=
        Compile.yields_declareVariable (Compile.yields_dispatch hfirst hs.finishedCall) hs.pool
          hopen
      have hkind : kinds x = some k := by
        rw [hkinds]
        refine lookup_append_cons ?_
        rintro d hd rfl
        rw [hbefore d hd] at hnew
        cases hnew
      have hkinds₁ : ∀ y, kinds y = ((before ++ [(x, k)]) ++ rest).lookup y := by
        intro y
        rw [hkinds, List.append_assoc]
        rfl
      have hbefore₁ : ∀ d ∈ before ++ [(x, k)], g₁.locals.contains d.1 = true := by
        intro d hd
        rw [Table.contains, hg₁]
        by_cases hdx : d.1 = x
        · rw [hdx, Table.find?_insert_self]
          rfl
        · rw [Table.find?_insert_of_ne _ _ hdx]
          rcases List.mem_append.mp hd with hd | hd
          · exact hbefore d hd
          · exact (hdx (List.mem_singleton.mp hd ▸ rfl)).elim
      have hs₁ : g₁.books.Sound sizes kinds := by
        rw [hg₁]
        exact hs.declare htakes hkind
      have hidle₁ : Idle g₁ := by
        rw [hg₁]
        exact ⟨hidle.operands, hidle.operators, hidle.fences⟩
      have hopen₁ : g₁.currentFunction.isSome = true := by
        rw [hg₁]
        exact hopen
      obtain ⟨hsound, hidle', hprogram, hfunction⟩ := ih hkinds₁ hbefore₁ hs₁ hidle₁ hopen₁ hrest
      rw [hg₁] at hprogram hfunction
      exact ⟨hsound, hidle', hprogram, hfunction⟩

/-! ## The image of a script -/

theorem sound_ofSizes (sizes : Sizes) (threshold : Level) (kinds : String → Option Kind) :
    (Generator.ofSizes sizes threshold).books.Sound sizes kinds := by
  refine ⟨Pool.valid_ofLayout sizes, rfl, rfl, ?_, ?_, ?_, ?_, List.Pairwise.nil⟩
  · intro x v hx
    cases hx
  · intro a c hc
    cases hc
  · intro v a ha
    cases ha
  · intro e he
    cases he

/-- The image is that of the script, and the program is what a machine loads for it. -/
structure Image.IsOf (I : Image) (s : Script) (p : Program) (names : Names) : Prop where
  proper : I.Proper
  kinds : I.kinds = s.kinds
  names : I.names = names
  code : I.code = p.quads
  constants : I.constants = p.constants.mapValues (·.value)
  layout : p.layout = Layout.ofSizes I.sizes
  loadable : p.Loadable
  main : ∃ r, p.main? = some r ∧ r.startQuad = 0 ∧ r.slots = I.slots
  body : ∃ j, I.Performs s.body 0 j ∧ I.code[j]? = some ⟨.endFunc, none, none, none⟩

/-- The image of the program that is finished from a generator at the end of the entry function. -/
def imageOf (sizes : Sizes) (kinds : String → Option Kind) (g : Generator) : Image where
  sizes := sizes
  slots := ⟨g.pool.peaks .locals, g.pool.peaks .temporaries⟩
  code := g.program.quads.push ⟨.endFunc, none, none, none⟩
  constants := g.program.constants.mapValues (·.value)
  names := g.names
  kinds := kinds
  address x := (g.locals.find? x).map (·.address)

theorem proper_imageOf (hs : g.books.Sound sizes kinds) : (imageOf sizes kinds g).Proper := by
  intro x a ha
  obtain ⟨v, hfind, rfl⟩ := Option.map_eq_some_iff.mp ha
  obtain ⟨k, hk⟩ := hs.locals x v hfind
  refine ⟨k, hk.kind, hk.located, ?_, hk.named⟩
  show _ < (g.pool.peaks .locals).get k.scalar
  rw [Pool.peaks, PerScalar.get_ofFn]
  exact hs.pool.offset_lt_peak hk.located hk.live

theorem covers_imageOf (sizes : Sizes) (kinds : String → Option Kind) (g : Generator) :
    (imageOf sizes kinds g).Covers 0 g.nextQuad g.draft := by
  refine ⟨?_, ?_, ?_, ?_⟩
  · intro i _ hi
    show (g.program.quads.push _)[i]? = g.program.quads[i]?
    unfold Generator.nextQuad at hi
    rw [Array.getElem?_push, if_neg (by omega)]
  · intro a c hc
    show (g.program.constants.mapValues (·.value)).find? a = some c.value
    rw [Table.find?_mapValues, show g.program.constants.find? a = some c from hc]
    rfl
  · intro ty
    show _ ≤ (g.pool.peaks .temporaries).get ty
    rw [Pool.peaks, PerScalar.get_ofFn]
    exact Nat.le_refl _
  · intro x v hx
    show (g.locals.find? x).map (·.address) = some v.address
    rw [show g.locals.find? x = some v from hx]
    rfl

/-- A script that compiles has an image. -/
theorem exists_image {threshold : Level} {s : Script} {p : Program} {names : Names}
    (h : (compile threshold sizes s.events).1 = .ok (p, names)) :
    ∃ I : Image, I.IsOf s p names := by
  obtain ⟨g₄, g', haccepts, hfinish⟩ := accepts_of_compile h
  obtain ⟨-, -, -, rfl, hp⟩ := Compile.yields_finish hfinish
  obtain ⟨g₃, haccepts, hend⟩ := Accepts.snoc_inv haccepts
  obtain ⟨g₂, haccepts, hbody⟩ := haccepts.append_inv
  obtain ⟨g₁, hopen, hdeclare⟩ := haccepts.append_inv
  -- the entry function starts at quad 0
  obtain ⟨journal, -, -, hg₁⟩ :=
    Compile.yields_declareFunction (Compile.yields_dispatch hopen.single_inv rfl)
  have hs₁ : g₁.books.Sound sizes s.kinds := by
    rw [hg₁]
    exact sound_ofSizes sizes threshold s.kinds
  have hidle₁ : Idle g₁ := by
    rw [hg₁]
    exact ⟨rfl, rfl, rfl⟩
  have hbefore : ∀ d ∈ ([] : List (String × Kind)), g₁.locals.contains d.1 = true :=
    fun d hd => by cases hd
  obtain ⟨hs₂, hidle₂, hprogram₂, hfunction₂⟩ :=
    declared (fun x => rfl) hbefore hs₁ hidle₁ (by rw [hg₁]; rfl) hdeclare
  have hbody : s.body.Compiled (imageOf sizes s.kinds g₃) g₂ g₃ := s.body.compiled hs₂ hidle₂ hbody
  obtain ⟨f, r, journal', hf, hr, -, hg₄⟩ :=
    Compile.yields_endFunction (Compile.yields_dispatch hend hbody.sound.finishedCall)
  have hprogram₃ :
      g₃.program = { g₁.program with
        quads := g₃.program.quads, constants := g₃.program.constants } := by
    have hkept := hbody.kept.program
    rw [← hprogram₂]
    exact hkept
  have hmain : f = Program.entryPoint := by
    have hkept : g₃.currentFunction = g₂.currentFunction := hbody.kept.currentFunction
    rw [hkept, hfunction₂, hg₁] at hf
    exact (Option.some.inj hf).symm
  subst hmain
  have hstart : r.startQuad = 0 := by
    rw [hprogram₃, hg₁] at hr
    dsimp only at hr
    rw [show Program.entryPoint = "main" from rfl, Table.find?_insert_self] at hr
    cases hr
    rfl
  have hnext₂ : g₂.nextQuad = 0 := by
    rw [Generator.nextQuad, hprogram₂, hg₁]
    rfl
  have hcovers := covers_imageOf sizes s.kinds g₃
  rw [← hnext₂] at hcovers
  have hperforms := hbody.performs hcovers
  rw [hnext₂] at hperforms
  have hsizes : p.sizes = sizes := by
    rw [hp, hg₄]
    show g₃.program.sizes = sizes
    rw [hprogram₃, hg₁]
    rfl
  refine ⟨imageOf sizes s.kinds g₃, ⟨proper_imageOf hbody.sound, rfl, ?_, ?_, ?_, ?_, ?_, ?_, ?_⟩⟩
  · rw [hg₄]
    rfl
  · rw [hp, hg₄]
    rfl
  · rw [hp, hg₄]
    rfl
  · rw [Program.layout, hsizes]
    rfl
  · exact loadable_of_compile h
  · refine ⟨{ r with slots := ⟨g₃.pool.peaks .locals, g₃.pool.peaks .temporaries⟩ }, ?_,
      hstart, rfl⟩
    rw [Program.main?, hp, hg₄]
    exact Table.find?_insert_self _ _ _
  · exact ⟨g₃.nextQuad, hperforms, Array.getElem?_push_size⟩

end Source

end Quadruple
