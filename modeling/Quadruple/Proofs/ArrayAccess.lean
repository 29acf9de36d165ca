/-
  Elements of arrays.

  A variable becomes an array when it is laid out with the sizes it was declared with
  (`Generator.Declared`).  An access names it and gives an index for each of its dimensions.  Each
  index adds one link to a chain of code (`Indexing.link`, `Indexing.folds`), and the end of the
  access adds the base.  For sizes d₁ … dₙ and the strides sₖ = dₖ₊₁ ⋯ dₙ:
      VERIFY iₖ dₖ      tₖ := iₖ * sₖ      oₖ := oₖ₋₁ + tₖ            base + (i₁ s₁ + ⋯ + iₙ sₙ)
  Later steps change no constant, move no code, and only add temporaries to frames.  So in a frame
  of the function the finished program finds the element, or stops at the first index that is out of
  range (`array_access_is_exact`).
-/
import Quadruple.Proofs.Assembly
import Quadruple.Proofs.FrameSizes
import Quadruple.Proofs.RowMajor
import Quadruple.Proofs.Stocktaking

namespace Quadruple

variable {sizes : Sizes} {b : Inventory} {id : String} {e : Entry} {p' : Pool} {ty : Scalar}
  {t n n' o : Nat} {pairs : List (Dimension × Nat)} {g g' : Generator}
  {constants : Table Nat Constant} {lookup : String → Option Variable} {s : Machine}
  {stride : Option Nat} {u : Unit}

open Compile (elementCount)

/-! ## Indices -/

/-- What an index is given as: a literal, a variable, or the address of a slot. -/
inductive Index where
  | literal (n : Int64)
  | named (id : String)
  | slot (a : Nat)
deriving DecidableEq

variable {i : Index} {indices : List Index}

namespace Index

/-- The event that pushes the index. -/
def event : Index → Event
  | literal n => .pushConstant (.int n)
  | named id => .pushVariable id
  | slot a => .pushOperand a .int none

/-- The slot of the index, with these variables in scope. -/
def At (lookup : String → Option Variable) (constants : Table Nat Constant) (a : Nat) : Index → Prop
  | literal n => HasValue constants a (.int n)
  | named id => ∃ v, lookup id = some v ∧ v.address = a
  | slot b => b = a

/-- The value of the index when its slot is read. -/
def Denotes (sizes : Sizes) (lookup : String → Option Variable) (s : Machine) (x : Int64) :
    Index → Prop
  | literal n => n = x
  | named id => ∃ v, lookup id = some v ∧ s.readSlot v.address = .ok (some (.int x))
  | slot a => ¬ Temporary sizes a ∧ s.readSlot a = .ok (some (.int x))

/-- The index is no intermediate result. -/
def Settled (sizes : Sizes) : Index → Prop
  | slot a => ¬ Temporary sizes a
  | _ => True

theorem At.mono {constants' : Table Nat Constant} {a : Nat} (h : i.At lookup constants a)
    (hkeeps : KeepsConstants constants constants') : i.At lookup constants' a := by
  cases i with
  | literal n => exact HasValue.mono h hkeeps
  | named id => exact h
  | slot b => exact h

theorem Denotes.settled {x : Int64} (h : i.Denotes sizes lookup s x) : i.Settled sizes := by
  cases i with
  | literal n => trivial
  | named id => trivial
  | slot a => exact h.1

theorem settled_of_denotes {values : List Int64}
    (h : List.Forall₂ (fun i x => i.Denotes sizes lookup s x) indices values) :
    ∀ i ∈ indices, i.Settled sizes := by
  induction h with
  | nil => exact List.forall_mem_nil _
  | cons hx _ ih => exact List.forall_mem_cons.mpr ⟨hx.settled, ih⟩

end Index

theorem Inventory.Stocked.not_temporary_of_hasValue (hb : b.Stocked sizes) {a : Nat} {v : Value}
    (h : HasValue b.constants a v) : ¬ Temporary sizes a := by
  obtain ⟨c, hc, -⟩ := h
  exact (hb.constants a c hc).2.not_temporary nofun

theorem Inventory.Stocked.not_temporary_of_lookup (hb : b.Stocked sizes) {v : Variable}
    (hv : b.lookup id = some v) : ¬ Temporary sizes v.address := by
  refine (hb.lookup hv).located.not_temporary ?_
  split
  · exact nofun
  · exact nofun

theorem Inventory.Stocked.not_temporary_of_at (hb : b.Stocked sizes) {a : Nat}
    (hi : i.Settled sizes) (h : i.At b.lookup b.constants a) : ¬ Temporary sizes a := by
  cases i with
  | literal n => exact hb.not_temporary_of_hasValue h
  | named id =>
    obtain ⟨v, hv, rfl⟩ := h
    exact hb.not_temporary_of_lookup hv
  | slot c =>
    obtain rfl := h
    exact hi

/-! ## Slots of intermediate results -/

section

variable {sizes : Sizes} {f : String} {b b' : Inventory}
variable {offset : Option Nat}

/-- A temporary that frames of the function have by now. -/
def Inventory.IsTemporary (sizes : Sizes) (b : Inventory) (f : String) (ty : Scalar) (t : Nat) :
    Prop :=
  TemporarySlot sizes (b.temporaries f ty) ty t

/-- So is one that was just taken. -/
theorem Pool.Takes.isTemporary {p : Pool} {a : Nat} (h : Takes sizes p .temporaries ty a p')
    (hf : b.currentFunction = some f)
    (hpeak : p'.peak .temporaries ty ≤ b.pool.peak .temporaries ty) :
    b.IsTemporary sizes f ty a := by
  refine ⟨h.located, ?_⟩
  rw [Inventory.temporaries_of_open hf]
  exact (h.valid.offset_lt_peak h.located h.isLive).trans_le hpeak

theorem Inventory.Since.isTemporary (h : b.Since b') (ht : b.IsTemporary sizes f ty t) :
    b'.IsTemporary sizes f ty t := TemporarySlot.mono ht (h.temporaries f ty)

theorem Inventory.Since.scales (h : b.Since b') {a term : Nat}
    (hcode : Scales b.quads (b.IsTemporary sizes f .int) offset a stride n term n') :
    Scales b'.quads (b'.IsTemporary sizes f .int) offset a stride n term n' :=
  hcode.mono h.quads.kept fun _ => h.isTemporary

theorem Inventory.Since.adds (h : b.Since b') {term : Nat}
    (hcode : Adds b.quads (b.IsTemporary sizes f .int) term offset n o n') :
    Adds b'.quads (b'.IsTemporary sizes f .int) term offset n o n' :=
  hcode.mono h.quads.kept fun _ => h.isTemporary

theorem Inventory.Since.folds (h : b.Since b')
    (hcode : Folds b.quads (b.IsTemporary sizes f .int) offset pairs n o n') :
    Folds b'.quads (b'.IsTemporary sizes f .int) offset pairs n o n' :=
  hcode.mono h.quads.kept fun _ => h.isTemporary

end

/-! ## Steps of an access -/

/-- The value is in the slot itself, and if that is a temporary it is still taken. -/
structure Entry.Taken (sizes : Sizes) (p : Pool) (e : Entry) : Prop where
  direct : e.through = false
  live : Temporary sizes e.address → p.isLive e.address = true

theorem Entry.value_of_direct (h : e.through = false) : e.value = .addr e.address := by
  rw [Entry.value, h]
  rfl

theorem Entry.Taken.mono {p : Pool} (h : e.Taken sizes p)
    (hlive : ∀ x, p.isLive x = true → p'.isLive x = true) : e.Taken sizes p' :=
  ⟨h.direct, fun ht => hlive _ (h.live ht)⟩

/-- A new temporary is the slot of no entry. -/
theorem Entry.Taken.ne {p : Pool} (h : e.Taken sizes p)
    (htakes : Pool.Takes sizes p .temporaries ty t p') : e.address ≠ t := by
  rintro rfl
  exact htakes.ne_of_isLive (h.live htakes.temporary) rfl

/-- Scopes, constants and stacks are as they were; addresses were taken or given back, and code was
laid down. -/
structure Generator.SameContext (g g' : Generator) : Prop where
  currentFunction : g'.currentFunction = g.currentFunction
  lookup : g'.lookup = g.lookup
  constants : g'.program.constants = g.program.constants
  operands : g'.operands = g.operands
  operators : g'.operators = g.operators
  fences : g'.fences = g.fences
  accesses : g'.accesses = g.accesses

theorem Generator.SameContext.code (g : Generator) (p : Pool) (journal : Journal)
    (quads : Array Quad) :
    g.SameContext { g with
      pool := p, journal := journal, program := { g.program with quads := quads } } :=
  ⟨rfl, rfl, rfl, rfl, rfl, rfl, rfl⟩

namespace Compile

variable {sizes : Sizes} {f : String} {g g' : Generator}
variable {offset : Option Entry}

/-- An index is pushed without code. -/
theorem yields_index (h : Yields (apply i.event) g () g') (hb : g.inventory.Stocked sizes) :
    ∃ e pool journal names constants literals, g' = { g with
        finishedCall := none
        pool := pool
        journal := journal
        names := names
        program := { g.program with constants := constants }
        literals := literals
        operands := e :: g.operands } ∧
      e.through = false ∧ i.At g.lookup constants e.address ∧
      ∀ x, g.pool.isLive x = true → pool.isLive x = true := by
  obtain ⟨journal, h⟩ := dispatch_of_apply h (by cases i <;> nofun)
  cases i with
  | literal n =>
    change Yields (pushConstant (.int n)) _ _ _ at h
    unfold pushConstant at h
    obtain ⟨a, g₁, hconstant, h⟩ := yields_bind.mp h
    obtain ⟨⟨c, hc, hcanonical⟩, hlive, pool, journal', names, constants, literals, rfl⟩ :=
      yields_constant_of_stocked hconstant hb
    rw [yields_get_bind] at h
    cases h
    exact ⟨_, _, _, _, _, _, rfl, rfl, ⟨c, hc, eq_int_of_canonical hcanonical⟩, hlive⟩
  | named id =>
    change Yields (pushVariable id) _ _ _ at h
    rw [pushVariable, yields_get_bind] at h
    split at h
    · cases h
    rename_i v hv
    split at h
    · cases h
    · cases h
      exact ⟨_, _, _, _, _, _, rfl, rfl, ⟨v, hv, rfl⟩, fun _ hx => hx⟩
  | slot a =>
    change Yields (pushOperand a .int none) _ _ _ at h
    rw [pushOperand, yields_get_bind] at h
    split at h
    · cases h
      exact ⟨_, _, _, _, _, _, rfl, rfl, rfl, fun _ hx => hx⟩
    · cases h

theorem yields_closeParenthesis_of_fence (h : Yields closeParenthesis g u g')
    (hfence : g.operators.length ≤ g.fence) : ∃ fences, g' = { g with fences := fences } := by
  rw [closeParenthesis, yields_bind] at h
  obtain ⟨_, _, hreduce, h⟩ := h
  obtain rfl := yields_reduceAll_of_fence hreduce hfence
  rw [yields_get_bind] at h
  split at h
  · exact ⟨_, yields_set.mp h⟩
  · cases h

/-- A quad that puts its result into a new temporary. -/
theorem yields_temporary_emit {α : Type} {op : Opcode} {left right : Option Operand}
    {result : Nat → Operand} {k : Nat → Compile α} {x : α}
    (h : Yields (do
      let t ← temporary ty
      let _ ← emit op left right (some (result t))
      k t) g x g')
    (hp : g.pool.Valid sizes) :
    ∃ t p journal, Pool.Takes sizes g.pool .temporaries ty t p ∧
      Yields (k t) { g with
        pool := p
        journal := journal
        program :=
          { g.program with quads := g.program.quads.push ⟨op, left, right, some (result t)⟩ } } x
            g' := by
  obtain ⟨t, g₁, htemporary, h⟩ := yields_bind.mp h
  obtain ⟨p, journal, htakes, rfl⟩ := yields_allocate htemporary hp
  obtain ⟨n, g₂, hemit, h⟩ := yields_bind.mp h
  obtain ⟨-, -, rfl⟩ := yields_emit hemit
  exact ⟨t, p, _, htakes, h⟩

/-- An index is scaled.  The product goes to a new slot, which is not that of the offset so far. -/
theorem yields_scaled {index term : Entry} (h : Yields (scaled index stride) g term g')
    (hp : g.pool.Valid sizes) (hf : g.currentFunction = some f) (hdirect : index.through = false)
    (hindex : ¬ Temporary sizes index.address)
    (hoffset : ∀ x, offset = some x → x.Taken sizes g.pool) :
    Scales g'.program.quads (g'.inventory.IsTemporary sizes f .int) (offset.map (·.address))
      index.address stride g.nextQuad term.address g'.nextQuad ∧
      term.Taken sizes g'.pool ∧ (∀ x, g.pool.isLive x = true → g'.pool.isLive x = true) ∧
      g.SameContext g' := by
  cases stride with
  | none =>
    cases h
    exact ⟨.last, ⟨hdirect, fun ht => (hindex ht).elim⟩, fun _ hx => hx, .code ..⟩
  | some c =>
    obtain ⟨t, p, journal, htakes, h⟩ := yields_temporary_emit h hp
    obtain ⟨_, g₁, hrelease, h⟩ := yields_bind.mp h
    obtain ⟨p', hkeeps, rfl⟩ := yields_release hrelease htakes.valid
    cases h
    -- the index is no temporary, so nothing was given back
    have hlive : ∀ x, p.isLive x = true → p'.isLive x = true := by
      intro x hx
      refine hkeeps.live x hx fun ht hmem => ?_
      rw [List.mem_singleton.mp hmem] at ht
      exact hindex ht
    refine ⟨?_, ⟨rfl, fun _ => hlive t htakes.isLive⟩,
      fun x hx => hlive x ((htakes.live x).mpr (Or.inl hx)), .code ..⟩
    show Scales _ _ _ _ _ _ _ (g.program.quads.push _).size
    rw [Array.size_push]
    refine .stride ?_ (htakes.isTemporary hf (hkeeps.peak _ _)) ?_
    · rw [Entry.value_of_direct hdirect]
      exact Array.getElem?_push_size
    · intro ht
      obtain ⟨x, hx, haddress⟩ := Option.map_eq_some_iff.mp ht
      exact (hoffset x hx).ne htakes haddress

/-- A term is added to the offset so far.  The sum goes to a new slot, which stays taken. -/
theorem yields_advanced {term o : Entry} (h : Yields (advanced term offset) g o g')
    (hp : g.pool.Valid sizes) (hf : g.currentFunction = some f) (hterm : term.Taken sizes g.pool)
    (hoffset : ∀ x, offset = some x → x.Taken sizes g.pool) :
    Adds g'.program.quads (g'.inventory.IsTemporary sizes f .int) term.address
      (offset.map (·.address)) g.nextQuad o.address g'.nextQuad ∧
      o.Taken sizes g'.pool ∧ g.SameContext g' := by
  cases offset with
  | none =>
    cases h
    exact ⟨.first, hterm, .code ..⟩
  | some x =>
    have hx := hoffset x rfl
    obtain ⟨t, p, journal, htakes, h⟩ := yields_temporary_emit h hp
    obtain ⟨_, g₁, hfirst, h⟩ := yields_bind.mp h
    obtain ⟨p₁, hkeeps₁, rfl⟩ := yields_release hfirst htakes.valid
    obtain ⟨_, g₂, hsecond, h⟩ := yields_bind.mp h
    obtain ⟨p₂, hkeeps₂, rfl⟩ := yields_release hsecond hkeeps₁.valid
    cases h
    have hkeeps := hkeeps₁.trans hkeeps₂
    refine ⟨?_, ⟨rfl, fun _ => hkeeps.live t htakes.isLive fun _ hmem => ?_⟩,
      .code ..⟩
    · show Adds _ _ _ _ _ _ (g.program.quads.push _).size
      rw [Array.size_push]
      refine .sum ?_ (htakes.isTemporary hf (hkeeps.peak _ _))
      rw [Entry.value_of_direct hx.direct, Entry.value_of_direct hterm.direct]
      exact Array.getElem?_push_size
    · -- what is given back are the summands, and neither is the new slot
      rcases List.mem_cons.mp hmem with heq | hmem
      · exact hx.ne htakes heq.symm
      · exact hterm.ne htakes (List.mem_singleton.mp hmem).symm

/-- An index is checked, scaled and added. -/
theorem yields_pushArrayIndex {rest : List Entry} {a : Access} {others : List Access}
    (h : Yields pushArrayIndex g u g') (hfence : g.operators.length ≤ g.fence)
    (hoperands : g.operands = e :: rest) (haccesses : g.accesses = a :: others) :
    ∃ d journal term g₁ o g₂, a.dimensions[a.seen]? = some d ∧
      Yields (scaled e d.strideConstant) { g with
        operands := rest
        journal := journal
        program := { g.program with
          quads := g.program.quads.push ⟨.verify, some e.value, none,
            some (.addr d.sizeConstant)⟩ } } term g₁ ∧
      Yields (modifyAccess fun a => { a with offset := none }) g₁ () g₂ ∧
      ∃ g₃, Yields (advanced term a.offset) g₂ o g₃ ∧
        Yields (modifyAccess fun a => { a with offset := some o, seen := a.seen + 1 }) g₃ ()
          g' := by
  rw [pushArrayIndex] at h
  obtain ⟨index, rest', hoperands', h⟩ := yields_reduceAll_pop h hfence
  rw [hoperands] at hoperands'
  obtain ⟨rfl, rfl⟩ := List.cons.inj hoperands'
  rw [yields_get_bind] at h
  split at h
  · cases h
  rename_i heq
  obtain ⟨rfl, rfl⟩ := List.cons.inj (haccesses.symm.trans heq)
  split at h
  · cases h
  split at h
  · cases h
  rename_i d hd
  obtain ⟨n, _, hemit, h⟩ := yields_bind.mp h
  obtain ⟨-, -, rfl⟩ := yields_emit hemit
  obtain ⟨term, g₁, hscaled, h⟩ := yields_bind.mp h
  obtain ⟨_, g₂, hmodify, h⟩ := yields_bind.mp h
  obtain ⟨o, g₃, hadvanced, h⟩ := yields_bind.mp h
  exact ⟨d, _, term, g₁, o, g₂, hd, hscaled, hmodify, g₃, hadvanced, h⟩

end Compile

/-! ## Code of an access -/

namespace Generator

/-- The access is the innermost one, with no operator pending inside it and these operands left on
the stack; its offset so far is still there. -/
structure Indexing (sizes : Sizes) (f : String) (scope : String → Option Variable)
    (operands : List Entry) (a : Access) (g : Generator) : Prop where
  stocked : g.inventory.Stocked sizes
  current : g.currentFunction = some f
  lookup : g.lookup = scope
  accesses : ∃ others, g.accesses = a :: others
  operands : g.operands = operands
  fence : g.operators.length ≤ g.fence
  offset : ∀ x, a.offset = some x → x.Taken sizes g.pool

variable {sizes : Sizes} {f : String} {scope : String → Option Variable} {operands : List Entry}
  {a : Access} {g g₁ g₂ : Generator}

open Compile

/-- The next index is pushed. -/
theorem Indexing.push (hg : g.Indexing sizes f scope operands a)
    (h : Yields (apply i.event) g () g₁) :
    ∃ e, g₁.Indexing sizes f scope (e :: operands) a ∧ e.through = false ∧
      i.At scope g₁.program.constants e.address ∧
      g₁.nextQuad = g.nextQuad := by
  have hstocked := ((rearranges_apply _).of_yields h).stocked hg.stocked
  obtain ⟨e, pool, journal, names, constants, literals, rfl, hdirect, hat, hlive⟩ :=
    yields_index h hg.stocked
  refine ⟨e, ⟨hstocked, hg.current, hg.lookup, hg.accesses, congrArg _ hg.operands, hg.fence, ?_⟩,
    hdirect, hg.lookup ▸ hat, rfl⟩
  exact fun x hx => (hg.offset x hx).mono hlive

/-- It lays down one link of the chain. -/
theorem Indexing.link (hg : g.Indexing sizes f scope (e :: operands) a)
    (hdirect : e.through = false) (hsettled : ¬ Temporary sizes e.address)
    (h : Yields (apply .pushArrayIndex) g () g₁) :
    ∃ d term o n, a.dimensions[a.seen]? = some d ∧
      g₁.program.quads[g.nextQuad]? = some ⟨.verify, some (.addr e.address), none,
        some (.addr d.sizeConstant)⟩ ∧
      Scales g₁.program.quads (g₁.inventory.IsTemporary sizes f .int) (a.offset.map (·.address))
        e.address d.strideConstant (g.nextQuad + 1) term n ∧
      Adds g₁.program.quads (g₁.inventory.IsTemporary sizes f .int) term (a.offset.map (·.address))
        n o.address g₁.nextQuad ∧
      g₁.Indexing sizes f scope operands { a with offset := some o, seen := a.seen + 1 } := by
  have hstocked₁ := ((rearranges_apply _).of_yields h).stocked hg.stocked
  obtain ⟨others, haccesses⟩ := hg.accesses
  obtain ⟨journal, h⟩ := dispatch_of_apply h nofun
  obtain ⟨d, journal', term, g₂, o, g₃, hd, hscaled, hdrop, g₄, hadvanced, hset⟩ :=
    yields_pushArrayIndex h hg.fence hg.operands haccesses
  -- what each part lays down stays while the next ones are laid down
  have hstocked := (Inventory.Change.code (.push g.program.quads
    ⟨.verify, some e.value, none, some (.addr d.sizeConstant)⟩)).stocked hg.stocked
  have hfirst : Rearranges sizes _ g₂ :=
    ((inherited_chores.scaled _ _).of_yields hscaled).extends.rearranges
  have hsecond : Rearranges sizes _ g₄ :=
    ((inherited_chores.advanced _ _).of_yields hadvanced).extends.rearranges
  obtain ⟨hscales, hterm, hlive, hsame₂⟩ :=
    yields_scaled hscaled hstocked.pool hg.current hdirect hsettled hg.offset
  have hstocked₂ := hfirst.stocked hstocked
  cases hdrop
  have hcurrent₂ : g₂.currentFunction = some f := hsame₂.currentFunction.trans hg.current
  obtain ⟨hadds, ho, hsame₄⟩ := yields_advanced hadvanced hstocked₂.pool hcurrent₂ hterm
    fun x hx => (hg.offset x hx).mono hlive
  have hsince := hsecond.since hstocked₂
  cases hset
  refine ⟨d, term.address, o, g₂.nextQuad, hd, ?_, ?_, hadds, ?_⟩
  · refine ((hfirst.since hstocked).trans hsince).quads.kept _ _ ?_ rfl
    rw [Entry.value_of_direct hdirect]
    exact Array.getElem?_push_size
  · have hsize :
        (g.program.quads.push ⟨.verify, some e.value, none, some (.addr d.sizeConstant)⟩).size =
      g.nextQuad + 1 := Array.size_push _
    rw [← hsize]
    exact hsince.scales hscales
  · refine ⟨hstocked₁, hsame₄.currentFunction.trans hcurrent₂,
      (hsame₄.lookup.trans hsame₂.lookup).trans hg.lookup,
      ⟨others, ?_⟩, hsame₄.operands.trans hsame₂.operands, ?_, ?_⟩
    · dsimp only
      rw [hsame₄.accesses]
      dsimp only
      rw [hsame₂.accesses.trans haccesses]
    · show g₄.operators.length ≤ g₄.fences.head?.getD 0
      rw [hsame₄.operators.trans hsame₂.operators, hsame₄.fences.trans hsame₂.fences]
      exact hg.fence
    · rintro _ ⟨⟩
      exact ho

/-- The indices lay down the whole chain. -/
theorem Indexing.folds (hg : g.Indexing sizes f scope operands a)
    (hi : ∀ i ∈ indices, i.Settled sizes)
    (h : Accepts g (indices.flatMap fun i => [i.event, .pushArrayIndex]) g₁) :
    ∃ pairs offset, pairs.map (·.1) = (a.dimensions.drop a.seen).take indices.length ∧
      List.Forall₂ (fun i pair => i.At scope g₁.program.constants pair.2) indices pairs ∧
      g₁.Indexing sizes f scope operands { a with
        offset := offset, seen := a.seen + indices.length } ∧
      ∀ o, offset = some o → Folds g₁.program.quads (g₁.inventory.IsTemporary sizes f .int)
        (a.offset.map (·.address)) pairs g.nextQuad o.address g₁.nextQuad := by
  induction indices generalizing g a with
  | nil =>
    cases h
    refine ⟨[], a.offset, rfl, .nil, hg, fun o ho => ?_⟩
    rw [ho]
    exact .nil
  | cons i rest ih =>
    obtain ⟨_, hfirst, hrest⟩ := h.append_inv
    cases hfirst with
    | cons hpush hfirst =>
      obtain ⟨e, hg', hdirect, hat, hnext⟩ := hg.push hpush
      have hsettled := hg'.stocked.not_temporary_of_at (hi i List.mem_cons_self) (hg'.lookup ▸ hat)
      obtain ⟨d, term, o, n, hd, hverify, hscales, hadds, hg₂⟩ :=
        hg'.link hdirect hsettled hfirst.single_inv
      rw [hnext] at hverify hscales
      obtain ⟨pairs, offset, hpairs, hats, hg₁, hfolds⟩ :=
        ih hg₂ (fun j hj => hi j (List.mem_cons_of_mem _ hj)) hrest
      have hsince := hrest.rearranges.since hg₂.stocked
      have hsince' := hfirst.rearranges.since hg'.stocked
      refine ⟨(d, e.address) :: pairs, offset, ?_,
        .cons (hat.mono (hsince'.trans hsince).constants) hats, ?_,
        fun o' ho' => ?_⟩
      · obtain ⟨hlt, rfl⟩ := List.getElem?_eq_some_iff.mp hd
        rw [List.map_cons, hpairs, List.drop_eq_getElem_cons hlt, List.length_cons,
          List.take_succ_cons]
      · rw [List.length_cons, Nat.add_comm rest.length, ← Nat.add_assoc]
        exact hg₁
      · exact .cons (hsince.quads.kept _ _ hverify rfl) (hsince.scales hscales) (hsince.adds hadds)
          (hfolds o' ho')

/-- An access is opened. -/
theorem indexing_of_pushArray {v : Variable} (h : Yields (apply (.pushArray id)) g () g₁)
    (hb : g.inventory.Stocked sizes) (hf : g.currentFunction = some f) (hv : g.lookup id = some v) :
    g₁.Indexing sizes f g.lookup g.operands ⟨id, v.address, v.ty, v.dimensions, 0, none⟩ ∧
    g₁.nextQuad = g.nextQuad := by
  have hstocked := ((rearranges_apply _).of_yields h).stocked hb
  obtain ⟨journal, h⟩ := dispatch_of_apply h nofun
  change Yields (pushArray id) _ _ _ at h
  rw [pushArray, yields_get_bind] at h
  split at h
  · cases h
  rename_i w hw
  obtain rfl : v = w := Option.some.inj (hv.symm.trans hw)
  split at h
  · cases h
  rw [yields_set_bind] at h
  cases h
  exact ⟨⟨hstocked, hf, rfl, ⟨_, rfl⟩, rfl, Nat.le_refl _, nofun⟩, rfl⟩

/-- An access is closed. -/
theorem Indexing.close (hg : g.Indexing sizes f scope operands a)
    (h : Yields (apply .closeArrayAccess) g () g₁) :
    ∃ o t, a.seen = a.dimensions.length ∧ a.offset = some o ∧
      g₁.program.quads[g.nextQuad]? =
        some ⟨.pointerAdd, some (.immediate a.base), some (.addr o.address), some (.ref t)⟩ ∧
      g₁.nextQuad = g.nextQuad + 1 ∧ g₁.inventory.IsTemporary sizes f .pointer t ∧
      g₁.operands = ⟨t, a.ty.storage, a.ty.class?, true, a.id ++ "[]"⟩ :: operands := by
  obtain ⟨others, haccesses⟩ := hg.accesses
  obtain ⟨journal, h⟩ := dispatch_of_apply h nofun
  change Yields closeArrayAccess _ _ _ at h
  rw [closeArrayAccess, yields_get_bind] at h
  split at h
  · cases h
  rename_i heq
  obtain ⟨rfl, rfl⟩ := List.cons.inj (haccesses.symm.trans heq)
  rw [yields_set_bind] at h
  split at h
  · cases h
  rename_i hseen
  split at h
  · cases h
  rename_i o ho
  rw [Entry.value_of_direct (hg.offset o ho).direct, yields_bind] at h
  obtain ⟨_, g₂, hclose, h⟩ := h
  obtain ⟨fences, rfl⟩ := yields_closeParenthesis_of_fence hclose hg.fence
  obtain ⟨t, p, journal', htakes, h⟩ := yields_temporary_emit h hg.stocked.pool
  obtain ⟨_, g₂, hrelease, h⟩ := yields_bind.mp h
  obtain ⟨p', hkeeps, rfl⟩ := yields_release hrelease htakes.valid
  cases h
  refine ⟨o, t, not_not.mp hseen, ho, ?_, Array.size_push _, ?_, ?_⟩
  · exact Array.getElem?_push_size
  · exact htakes.isTemporary hg.current (hkeeps.peak _ _)
  · exact congrArg _ hg.operands

end Generator

/-- The events of an access to an element of an array. -/
def accessEvents (id : String) (indices : List Index) : List Event :=
  .pushArray id :: (indices.flatMap fun i => [i.event, .pushArrayIndex]) ++ [.closeArrayAccess]

/-- The code of an access: the quads from `n` to `n'` leave the place of the element in `o`, and the
last one adds the base of the array and leaves the sum in `t`. -/
structure Inventory.Locates (sizes : Sizes) (b : Inventory) (f : String) (base : Nat)
    (pairs : List (Dimension × Nat)) (n n' o t : Nat) : Prop where
  folds : Folds b.quads (b.IsTemporary sizes f .int) none pairs n o n'
  sum : b.quads[n']? = some ⟨.pointerAdd, some (.immediate base), some (.addr o), some (.ref t)⟩
  element : b.IsTemporary sizes f .pointer t

theorem Inventory.Locates.since {b' : Inventory} {f : String} {base : Nat}
    (h : b.Locates sizes f base pairs n n' o t) (hsince : b.Since b') :
    b'.Locates sizes f base pairs n n' o t :=
  ⟨hsince.folds h.folds, hsince.quads.kept _ _ h.sum rfl, hsince.isTemporary h.element⟩

/-- The events of an access lay down its code, and the element is pushed. -/
theorem Accepts.locates {f : String} {v : Variable} (h : Accepts g (accessEvents id indices) g')
    (hb : g.inventory.Stocked sizes) (hf : g.currentFunction = some f) (hv : g.lookup id = some v)
    (hi : ∀ i ∈ indices, i.Settled sizes) :
    ∃ pairs o t n, pairs.map (·.1) = v.dimensions ∧
      List.Forall₂ (fun i pair => i.At g.lookup g'.program.constants pair.2) indices pairs ∧
      g'.inventory.Locates sizes f v.address pairs g.nextQuad n o t ∧ g'.nextQuad = n + 1 ∧
      g'.operands = ⟨t, v.ty.storage, v.ty.class?, true, id ++ "[]"⟩ :: g.operands := by
  obtain ⟨g₂, h, hclose⟩ := h.snoc_inv
  cases h with
  | cons hopen h =>
    obtain ⟨hg₁, hnext⟩ := Generator.indexing_of_pushArray hopen hb hf hv
    obtain ⟨pairs, offset, hpairs, hats, hg₂, hfolds⟩ := hg₁.folds hi h
    obtain ⟨o, t, hseen, ho, hsum, hnext', ht, hoperands⟩ := hg₂.close hclose
    have hsince := ((Compile.rearranges_apply _).of_yields hclose).since hg₂.stocked
    have hlength : v.dimensions.length ≤ indices.length := by
      rw [Nat.zero_add] at hseen
      exact Nat.le_of_eq hseen.symm
    refine ⟨pairs, o.address, t, g₂.nextQuad, ?_, ?_, ⟨?_, hsum, ht⟩, hnext', hoperands⟩
    · rw [hpairs, List.drop_zero, List.take_of_length_le hlength]
    · exact hats.imp fun _ _ hat => hat.mono hsince.constants
    · rw [← hnext]
      exact hsince.folds (hfolds o ho)

/-! ## Declarations of arrays -/

namespace Generator

open Compile

/-- The variable was declared last and has been given these sizes, one after another.  In between
there may be other steps that leave it alone, refused ones included. -/
inductive Declared (sizes : Sizes) (threshold : Level) (id : String) : List Nat → Generator → Prop
  | declare {before : List Directive} {ty : TypeName} {g : Generator}
      (h : Yields (apply (.declareVariable id ty)) ((ofSizes sizes threshold).after before) () g) :
      Declared sizes threshold id [] g
  | size {ns : List Nat} {n : Nat} {g g' : Generator} (hg : Declared sizes threshold id ns g)
      (h : Yields (apply (.declareArrayDimension n)) g () g') : Declared sizes threshold id
      (ns ++ [n]) g'
  | other {ns : List Nat} {g : Generator} {steps : List Directive}
      (hg : Declared sizes threshold id ns g)
      (hlast : (g.after steps).lastDeclared = g.lastDeclared)
      (hkept : (g.after steps).lookup id = g.lookup id) :
      Declared sizes threshold id ns (g.after steps)

/-- The entry of a variable that was declared last and has been given these sizes. -/
def IsLast (id : String) (ns : List Nat) (g : Generator) : Prop :=
  g.lastDeclared = some id ∧ ∃ a ty, g.lookup id = some ⟨a, ty, ns, []⟩

theorem lookup_of_local {v : Variable} (h : g.locals.find? id = some v) : g.lookup id = some v := by
  rw [lookup, h]

theorem lookup_of_global (h : g.locals.find? id = none) : g.lookup id = g.globals.find? id := by
  rw [lookup, h]

theorem lookup_setVariable (g : Generator) (id : String) (v : Variable) :
    (g.setVariable id v).lookup id = some v := by
  unfold setVariable
  split
  · exact lookup_of_local (Table.find?_insert_self _ _ _)
  rename_i hglobal
  refine (lookup_of_global ?_).trans (Table.find?_insert_self _ _ _)
  exact Option.not_isSome_iff_eq_none.mp hglobal

variable {sizes : Sizes} {threshold : Level} {g g' : Generator} {id : String} {ns : List Nat}

/-- A variable just declared has no sizes. -/
theorem isLast_of_declareVariable {ty : TypeName}
    (h : Yields (apply (.declareVariable id ty)) g () g') (hb : g.inventory.Stocked sizes) :
    g'.IsLast id [] := by
  obtain ⟨journal, h⟩ := dispatch_of_apply h nofun
  change Yields (declareVariable id ty) _ _ _ at h
  unfold declareVariable at h
  obtain ⟨_, _, hrequire, h⟩ := yields_bind.mp h
  cases yields_requireType hrequire
  rw [yields_get_bind] at h
  split at h
  · split at h
    · cases h
    obtain ⟨a, p, journal, -, rfl⟩ := yields_allocate_named h
    exact ⟨rfl, a, ty, lookup_of_local (Table.find?_insert_self _ _ _)⟩
  · rename_i hclosed
    split at h
    · cases h
    obtain ⟨a, p, journal, -, rfl⟩ := yields_allocate_named h
    refine ⟨rfl, a, ty, (lookup_of_global ?_).trans (Table.find?_insert_self _ _ _)⟩
    -- outside functions there are no locals that could hide the variable
    have hlocals : g.locals = Table.empty := hb.closed (Option.not_isSome_iff_eq_none.mp hclosed)
    show g.locals.find? id = none
    rw [hlocals]
    rfl

/-- A size is added to those before. -/
theorem IsLast.dimension (hg : g.IsLast id ns)
    (h : Yields (apply (.declareArrayDimension n)) g () g') : g'.IsLast id (ns ++ [n]) := by
  obtain ⟨hlast, a, ty, hv⟩ := hg
  obtain ⟨journal, h⟩ := dispatch_of_apply h nofun
  obtain ⟨id', w, hid, hw, rfl⟩ := yields_declareArrayDimension h
  obtain rfl : id = id' := Option.some.inj (hlast.symm.trans hid)
  obtain rfl := Option.some.inj (hv.symm.trans hw)
  refine ⟨?_, a, ty, lookup_setVariable _ _ _⟩
  unfold setVariable
  split
  · exact hlast
  · exact hlast

/-- Laying out an array gives it the sizes it was declared with. -/
theorem IsLast.allocate (hg : g.IsLast id ns) (h : Yields (apply .allocateArray) g () g') :
    ∃ v, g'.lookup id = some v ∧ v.dimensions.map (·.size) = ns := by
  obtain ⟨hlast, a, ty, hv⟩ := hg
  obtain ⟨journal, h⟩ := dispatch_of_apply h nofun
  obtain ⟨id', w, p, base, p', ds, g₁, hid, hw, -, -, -, -, hds, hplaced⟩ := yields_allocateArray h
  obtain rfl : id = id' := Option.some.inj (hlast.symm.trans hid)
  obtain rfl := Option.some.inj (hv.symm.trans hw)
  refine ⟨⟨base, ty, [], ds⟩, ?_, sizes_of_dimensionConstants hds⟩
  rw [← lookup_inventory, hplaced]
  exact lookup_setVariable _ _ _

theorem Declared.stocked (h : Declared sizes threshold id ns g) : g.inventory.Stocked sizes := by
  induction h with
  | declare h => exact ((rearranges_apply _).of_yields h).stocked (stocked_after sizes threshold _)
  | size _ h ih => exact ((rearranges_apply _).of_yields h).stocked ih
  | other _ _ _ ih => exact (rearranges_after _ _).stocked ih

/-- No steps break the agreement of recorded types, nor the bound on frames that comes with it. -/
theorem Typed.after (hg : g.Typed sizes) (steps : List Directive) :
    (g.after steps).Typed sizes := by
  induction steps generalizing g with
  | nil => exact hg
  | cons d rest ih => exact ih (upholds_perform d g hg).1

/-- Every event that is accepted keeps code typed. -/
theorem Typed.of_apply {e : Event} (hg : g.Typed sizes) (h : Yields (apply e) g () g') :
    g'.Typed sizes := by
  have hkept := (upholds_apply e g hg).1
  rwa [show (apply e).run.run g = (.ok (), g') from h] at hkept

theorem Declared.typed (h : Declared sizes threshold id ns g) : g.Typed sizes := by
  induction h with
  | declare h => exact ((typed_ofSizes sizes threshold).after _).of_apply h
  | size _ h ih => exact ih.of_apply h
  | other _ _ _ ih => exact ih.after _

/-- By induction on the steps of a declaration: its sizes are those given, in order. -/
theorem Declared.isLast (h : Declared sizes threshold id ns g) : g.IsLast id ns := by
  induction h with
  | declare h => exact isLast_of_declareVariable h (stocked_after sizes threshold _)
  | size _ h ih => exact ih.dimension h
  | other _ hlast hkept ih =>
    obtain ⟨hid, a, ty, hv⟩ := ih
    exact ⟨hlast.trans hid, a, ty, hkept.trans hv⟩

end Generator

/-! ## Running the code -/

namespace Machine

/-- The machine runs the program, with a frame of the function on top: one that has the slots
recorded for it. -/
structure InFrame (p : Program) (f : String) (s : Machine) : Prop where
  quads : s.quads = p.quads
  layout : s.layout = p.layout
  constants : s.constants = p.constants.mapValues (·.value)
  frame : ∃ frame rest r, s.frames = frame :: rest ∧ p.functions.find? f = some r ∧
    frame.localCounts = r.slots.locals ∧ ∀ ty, (frame.slots.get ty).size = r.slots.total ty

/-- So it does in every state of a run. -/
theorem inFrame_after {m m₀ : Machine} {p : Program} (h : m.start p = .ok m₀)
    (hs : m₀.after n = some s) {frame : Frame} {rest : List Frame}
    (htop : s.frames = frame :: rest) : s.InFrame p frame.function := by
  have hloaded := loaded_after h hs
  obtain ⟨r, hr, hsized⟩ :=
    (fits_after h hs).frames frame (List.mem_append_left _ (htop ▸ List.mem_cons_self))
  exact ⟨hloaded.quads, hloaded.layout, hloaded.constants, frame, rest, r, htop, hr, hsized.locals,
    hsized.rows⟩

/-- What becomes of an access that ends before quad `n`.  With all indices in range the machine gets
there, with the address of the element in `t`, and uses temporaries only.  Else it stops at the
first index that is out of range, before it comes to a pointer sum. -/
def Finds (sizes : Sizes) (s : Machine) (n t base : Nat) (dims : List Nat) (values : List Int64) :
    Prop :=
  match outOfRange? values dims with
  | none => ∃ s', s.after (n - s.ip) = some s' ∧ s'.ip = n ∧
      s'.readSlot t = .ok (some (.pointer (base + rowMajor dims (ordinals values)))) ∧
      ∀ a, ¬ Temporary sizes a → s'.readSlot a = s.readSlot a
  | some (i, d) => ∃ k s₁ e s', s.after k = some s₁ ∧ s₁.advance = .faulted e s' ∧
      e.fault = .indexOutOfRange i.toInt d ∧
      ∀ l m, l ≤ k → s.after l = some m → ¬ m.Executes .pointerAdd

variable {sizes : Sizes} {counts : SlotCounts} {s : Machine} {b : Inventory} {f : String}

/-- The code of an access finds the element. -/
theorem Framed.finds (hs : s.Framed sizes counts) (hquads : s.quads = b.quads)
    (hcounts : ∀ ty, b.temporaries f ty = counts.temporaries.get ty)
    (hconstants : ∀ a v, HasValue b.constants a v → s.Holds sizes a v) {base : Nat}
    (h : b.Locates sizes f base pairs s.ip n o t) (hdims : Describes b.constants (pairs.map (·.1)))
    {values : List Int64}
    (hvalues : List.Forall₂ (fun pair x => s.Holds sizes pair.2 (.int x)) pairs values)
    (hroom : s.Room (n + 1 - s.ip)) (htotal : elementCount (pairs.map (·.1.size)) < 2 ^ 63)
    (hbase : base + elementCount (pairs.map (·.1.size)) ≤ UInt64.size) :
    s.Finds sizes (n + 1) t base (pairs.map (·.1.size)) values := by
  have hfolds := h.folds
  have hsum := h.sum
  have hle := hfolds.le
  have helement := h.element
  unfold Inventory.IsTemporary at hfolds helement
  rw [hcounts] at hfolds helement
  rw [← hquads] at hfolds hsum
  have hsettles :=
    hfolds.run hconstants htotal hdims hvalues ⟨hs, rfl, fun _ _ => rfl⟩ rfl (hroom.mono (by omega))
      rfl
    (Nat.le_of_eq (Nat.zero_add _))
  unfold Settles at hsettles
  unfold Finds
  split
  · rename_i hnone
    rw [hnone] at hsettles
    obtain ⟨m, htravels, hoffset⟩ := hsettles
    have hlength : values.length = (pairs.map (·.1.size)).length := by
      rw [List.length_map]
      exact hvalues.length_eq.symm
    have hlt := rowMajor_lt (ordinals_lt hlength hnone)
    have hip := htravels.ip
    have hroom' := htravels.room (Nat.le_succ n) hroom
    rw [Nat.zero_add] at hoffset
    obtain ⟨s', hsets⟩ := htravels.kept.framed.point (by rw [htravels.kept.quads, hip]; exact hsum)
      (hroom'.mono (by omega)) hoffset (by omega) (by omega)
      (.inTemporaries helement.located helement.counted)
    have hpasses := htravels.passes.toPasses.trans hsets.passes
    rw [show n - s.ip + 1 = n + 1 - s.ip by omega] at hpasses
    exact ⟨s', hpasses.after, hip ▸ hsets.ip, hsets.written,
      (htravels.kept.sets helement.located.segmentOf hsets).kept⟩
  · rename_i i d hsome
    rw [hsome] at hsettles
    obtain ⟨m, e, m', htravels, -, hexecutes, hfaulted, hfault⟩ := hsettles
    refine ⟨_, m, e, m', htravels.passes.after, hfaulted, hfault, fun l m₁ hl hm₁ => ?_⟩
    rcases Nat.lt_or_eq_of_le hl with hlt | rfl
    · exact htravels.passes.avoids l m₁ hlt hm₁
    · obtain rfl : m = m₁ := Option.some.inj (htravels.passes.after.symm.trans hm₁)
      exact hexecutes

/-- The machine holds the constants of the program. -/
theorem holds_of_hasValue (hb : b.Stocked sizes) (hlayout : s.layout = Layout.ofSizes sizes)
    (hconstants : s.constants = b.constants.mapValues (·.value)) {a : Nat} {v : Value}
    (h : HasValue b.constants a v) : s.Holds sizes a v := by
  obtain ⟨c, hc, rfl⟩ := h
  have hlocated := (hb.constants a c hc).2
  refine ⟨hlocated.not_temporary nofun, ?_⟩
  rw [readSlot_constant hlayout hlocated, hconstants, Table.find?_mapValues, hc]
  rfl

/-- A machine that runs the finished program has what the compiler promised: its code, its
constants, and frames with all temporaries. -/
theorem InFrame.finished {p : Program} {names : Names} (hsizes : sizes.Addressable)
    (hs : s.InFrame p f) (hfinish : Yields Compile.finish g (p, names) g')
    (hb : g.inventory.Stocked sizes) (hg : g.Typed sizes) :
    ∃ counts, s.Framed sizes counts ∧ s.quads = g.inventory.quads ∧
      (∀ ty, g.inventory.temporaries f ty = counts.temporaries.get ty) ∧
      ∀ a v, HasValue g.inventory.constants a v → s.Holds sizes a v := by
  obtain ⟨hnone, -, -, -, rfl⟩ := Compile.yields_finish hfinish
  obtain ⟨frame, rest, r, htop, hr, hlocals, hrows⟩ := hs.frame
  -- the slots of a frame fit below the heap, so their number is a word
  have hsized : frame.Sized r.slots :=
    ⟨hlocals, hrows, fun ty => .of_le (hg.frames f r hr ty) hsizes⟩
  have hlayout : s.layout = Layout.ofSizes sizes :=
    hs.layout.trans (congrArg Layout.ofSizes hb.sizes_eq)
  refine ⟨r.slots, ⟨hlayout, frame, rest, htop, hsized⟩, hs.quads, fun ty => ?_,
    fun _ _ => holds_of_hasValue hb hlayout hs.constants⟩
  -- every function is closed, so the temporaries are those recorded for it
  have hne : g.inventory.currentFunction ≠ some f := by
    rw [show g.inventory.currentFunction = none from hnone]
    exact nofun
  rw [Inventory.temporaries_of_ne hne, show g.inventory.functions.find? f = some r from hr]
  rfl

/-- The slots of the indices hold their values. -/
theorem holds_of_denotes {b₀ : Inventory} (hb₀ : b₀.Stocked sizes)
    (hconstants : ∀ a v, HasValue b.constants a v → s.Holds sizes a v) {values : List Int64}
    (hats : List.Forall₂ (fun i pair => i.At b₀.lookup b.constants pair.2) indices pairs)
    (hvalues : List.Forall₂ (fun i x => i.Denotes sizes b₀.lookup s x) indices values) :
    List.Forall₂ (fun pair x => s.Holds sizes pair.2 (.int x)) pairs values := by
  induction hats generalizing values with
  | nil =>
    cases hvalues
    exact .nil
  | @cons i pair _ _ hat _ ih =>
    cases hvalues with
    | cons hx hrest =>
      refine .cons ?_ (ih hrest)
      cases i with
      | literal n =>
        obtain rfl := hx
        exact hconstants _ _ hat
      | named id =>
        obtain ⟨v, hv, hread⟩ := hx
        obtain ⟨v', hv', haddress⟩ := hat
        cases hv.symm.trans hv'
        rw [← haddress]
        exact ⟨hb₀.not_temporary_of_lookup hv, hread⟩
      | slot a =>
        obtain rfl := hat
        exact ⟨hx.1, hx.2⟩

end Machine

/-- An access to an array finds the element, or stops at the first index that is out of range.

The array was declared with the sizes `dims` and laid out as `v`, and its name still stands for it
where the function `f` accesses it.  Other steps may come before, between and after, refused ones
included.  The sizes are those that a word can address; that the slots of the frame can then be
counted is part of what is proved.  The step limit allows the quads of the access. -/
theorem array_access_is_exact {sizes : Sizes} {threshold : Level} {between after : List Directive}
    {declared placed start stop g : Generator} {id f : String} {dims : List Nat} {v : Variable}
    {indices : List Index} {p : Program} {names : Names} {s : Machine} {values : List Int64}
    (hsizes : sizes.Addressable) (htotal : elementCount dims < 2 ^ 63)
    (hdeclared : declared.Declared sizes threshold id dims)
    (hplaced : Yields (Compile.apply .allocateArray) declared () placed)
    (hv : placed.lookup id = some v) (hstart : start = placed.after between)
    (hscope : start.lookup id = some v) (hf : start.currentFunction = some f)
    (haccess : Accepts start (accessEvents id indices) stop)
    (hfinish : Yields Compile.finish (stop.after after) (p, names) g) (hs : s.InFrame p f)
    (hip : s.ip = start.nextQuad) (hroom : s.Room (stop.nextQuad - start.nextQuad))
    (hvalues : List.Forall₂ (fun i x => i.Denotes sizes start.lookup s x) indices values) :
    values.length = dims.length ∧
      ∃ t, stop.operands = ⟨t, v.ty.storage, v.ty.class?, true, id ++ "[]"⟩ :: start.operands ∧
        Temporary sizes t ∧
        s.Finds sizes stop.nextQuad t v.address dims values ∧
        (outOfRange? values dims = none →
          v.address + rowMajor dims (ordinals values) < v.address + elementCount dims ∧
          ∀ values', values'.length = dims.length → outOfRange? values' dims = none →
            values' ≠ values →
            v.address + rowMajor dims (ordinals values') ≠ v.address + rowMajor dims
              (ordinals values)) := by
  obtain ⟨v', hv', hdims⟩ := hdeclared.isLast.allocate hplaced
  obtain rfl : v = v' := Option.some.inj (hv.symm.trans hv')
  subst hdims hstart
  have hb := (Generator.rearranges_after placed between).stocked
    (((Compile.rearranges_apply _).of_yields hplaced).stocked hdeclared.stocked)
  obtain ⟨pairs, o, t, n, hpairs, hats, hlocates, hnext, hoperands⟩ :=
    haccess.locates hb hf hscope (Index.settled_of_denotes hvalues)
  -- the code, the constants and the frames that the access needs are still there in the finished
  -- program
  have hlater : stop.Rearranges sizes (stop.after after) := Generator.rearranges_after stop after
  have hb' := haccess.rearranges.stocked hb
  have hsince := hlater.since hb'
  have hstocked := hb.lookup hscope
  have hdescribes := hstocked.dimensions.mono ((haccess.rearranges.since hb).trans hsince).constants
  have htyped : stop.Typed sizes := by
    rw [← haccess.stage_last (Nat.le_refl _)]
    exact ((hdeclared.typed.of_apply hplaced).after between).stage _ _
  obtain ⟨counts, hframed, hquads, hcounts, hconstants⟩ :=
    hs.finished hsizes hfinish (hlater.stocked hb') (htyped.after after)
  have hholds :=
    Machine.holds_of_denotes hb hconstants (hats.imp fun _ _ hat => hat.mono hsince.constants)
      hvalues
  have hmap : pairs.map (·.1.size) = v.dimensions.map (·.size) := by
    rw [← hpairs, List.map_map]
    rfl
  have hlength : values.length = (v.dimensions.map (·.size)).length := by
    rw [← hmap, List.length_map]
    exact hholds.length_eq.symm
  have hbase := hstocked.le_heapStart
  refine ⟨hlength, t, hoperands, hlocates.element.located.segmentOf, ?_, fun hin => ⟨?_, ?_⟩⟩
  · rw [hnext, ← hmap]
    rw [← hip] at hlocates hroom
    refine hframed.finds hquads hcounts hconstants (hlocates.since hsince) (hpairs ▸ hdescribes)
      hholds (hnext ▸ hroom)
      ?_ ?_
    · rw [hmap]
      exact htotal
    · rw [hmap]
      exact Nat.le_trans hbase (Nat.le_of_lt hsizes)
  · exact Nat.add_lt_add_left (rowMajor_lt (ordinals_lt hlength hin)) _
  · intro values' hlength' hin' hne heq
    have hplace := Nat.add_left_cancel heq
    exact hne (ordinals_injective hlength' hlength hin' hin
      (rowMajor_injective (ordinals_lt hlength' hin') (ordinals_lt hlength hin) hplace))

section Grid

open Compile (applyFrom)

/-- A function with a variable that is 1. -/
def gridBefore : Generator :=
  (Generator.ofSizes (Sizes.uniform 8) .warn).after
    [.event (.declareFunction "main"), .event (.declareVariable "i" (.scalar .int)),
      .event (.pushVariable "i"), .event (.pushOperator "="), .event (.pushConstant (.int 1)),
      .event .executeRemaining]

/-- An array of two rows of three is declared.  A size of zero is refused. -/
def gridDeclared : Generator :=
  (((gridBefore.after [.event (.declareVariable "grid" (.scalar .int))]).after
    [.event (.declareArrayDimension 2)]).after [.event (.declareArrayDimension 0)]).after
    [.event (.declareArrayDimension 3)]

def gridPlaced : Generator := gridDeclared.after [.event .allocateArray]

/-- An access to what is no array is refused. -/
def gridStart : Generator := gridPlaced.after [.event (.pushArray "i")]

/-- The element in row `i` and column `j` is accessed. -/
def gridStop (j : Int64) : Generator :=
  (applyFrom 0 (accessEvents "grid" [.named "i", .literal j]) gridStart).2

def gridEnd (j : Int64) : Generator := (gridStop j).after [.event .print, .event .endFunction]

def gridProgram (j : Int64) : Program :=
  { (gridEnd j).program with
    globals := { (gridEnd j).program.globals with locals := (gridEnd j).pool.peaks .globals } }

def gridMachine (j : Int64) : Machine :=
  (Machine.ofConsole ⟨4, none, 0⟩ (Console.ofInput []) .warn).startState (gridProgram j)

/-- The element in the last row and column is at the last of the six addresses from 42 on; there is
no fourth column. -/
theorem array_access_is_exact_grid :
    (∃ s s', (gridMachine 2).after 1 = some s ∧ s.readSlot 40 = .ok (some (.int 1)) ∧
      s.after 5 = some s' ∧
      s'.readSlot 112 = .ok (some (.pointer 47))) ∧
    ∃ s k s₁ e s', (gridMachine 3).after 1 = some s ∧ s.readSlot 40 = .ok (some (.int 1)) ∧
      s.after k = some s₁ ∧
      s₁.advance = .faulted e s' ∧ e.fault = .indexOutOfRange 3 3 := by
  have hfinds : ∀ j : Int64, j = 2 ∨ j = 3 → ∃ s, (gridMachine j).after 1 = some s ∧ s.ip = 1 ∧
      s.readSlot 40 = .ok (some (.int 1)) ∧ s.Finds (Sizes.uniform 8) 6 112 42 [2, 3] [1, j] := by
    intro j hj
    have hdeclared : gridDeclared.Declared (Sizes.uniform 8) .warn "grid" [2, 3] := by
      refine .size
        (.other (.size (.declare (Generator.yields_after_of_isOk ?_))
          (Generator.yields_after_of_isOk ?_)) ?_ ?_)
        (Generator.yields_after_of_isOk ?_)
      all_goals decide +kernel
    have hplaced : Yields (Compile.apply .allocateArray) gridDeclared () gridPlaced :=
      Generator.yields_after_of_isOk (by decide +kernel)
    have haccess :
        Accepts gridStart (accessEvents "grid" [.named "i", .literal j]) (gridStop j) := by
      refine .of_isOk ?_
      obtain rfl | rfl := hj <;> decide +kernel
    have hlookup : gridPlaced.lookup "grid" =
        some ⟨42, .scalar .int, [], [⟨2, 121, some 122⟩, ⟨3, 122, none⟩]⟩ := by decide +kernel
    have hscope : gridStart.lookup "grid" = gridPlaced.lookup "grid" := by decide +kernel
    have hfinished : (Compile.finish.run.run (gridEnd j)).1.isOk = true := by
      obtain rfl | rfl := hj <;> decide +kernel
    obtain ⟨⟨p, names⟩, g, hfinish⟩ := exists_yields_of_isOk hfinished
    obtain ⟨-, -, -, -, hp⟩ := Compile.yields_finish hfinish
    obtain rfl : p = gridProgram j := hp
    have hstarted :
        ((Machine.ofConsole ⟨4, none, 0⟩ (Console.ofInput []) .warn).start (gridProgram j)).isOk =
          true := by
      obtain rfl | rfl := hj <;> decide +kernel
    have hreached : ((gridMachine j).after 1).any (fun s =>
        s.ip = 1 ∧ s.limits.maxSteps = none ∧ s.frames.map (·.function) = ["main"] ∧
          s.readSlot 40 = .ok (some (.int 1))) = true := by
      obtain rfl | rfl := hj <;> decide +kernel
    obtain ⟨s, hafter, hs⟩ := (Option.any_eq_true _ _).mp hreached
    obtain ⟨hip, hlimits, hframes, hread⟩ := of_decide_eq_true hs
    obtain ⟨frame, rest, htop, hmain, -⟩ := List.map_eq_cons_iff.mp hframes
    have hframe := Machine.inFrame_after (Machine.start_eq_startState hstarted) hafter htop
    rw [hmain] at hframe
    have hroom : ∀ n, s.Room n := by
      intro n limit hlimit
      cases hlimits.symm.trans hlimit
    have hrow : gridStart.lookup "i" = some ⟨40, .scalar .int, [], []⟩ := by decide +kernel
    obtain ⟨-, t, hoperands, -, hfinds, -⟩ :=
      array_access_is_exact (by decide) (by decide) hdeclared hplaced hlookup rfl
      (hscope.trans hlookup) (by decide +kernel) haccess hfinish hframe
      (hip.trans (by decide +kernel)) (hroom _)
      (.cons ⟨_, hrow, hread⟩ (.cons rfl .nil))
    obtain ⟨hnext, helement⟩ : (gridStop j).nextQuad = 6 ∧
        (gridStop j).operands.head?.map (·.address) = some 112 := by
      obtain rfl | rfl := hj <;> decide +kernel
    rw [hoperands] at helement
    cases helement
    rw [hnext] at hfinds
    exact ⟨s, hafter, hip, hread, hfinds⟩
  constructor
  · obtain ⟨s, hafter, hip, hread, s', hs', -, helement, -⟩ := hfinds 2 (.inl rfl)
    rw [hip] at hs'
    exact ⟨s, s', hafter, hread, hs', helement⟩
  · obtain ⟨s, hafter, -, hread, k, s₁, e, s', hk, hfaulted, hfault, -⟩ := hfinds 3 (.inr rfl)
    exact ⟨s, k, s₁, e, s', hafter, hread, hk, hfaulted, hfault⟩

end Grid

end Quadruple
