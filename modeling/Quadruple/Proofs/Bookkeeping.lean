/-
  The compiler's books: addresses, symbols and operands.

  While it reads a script, a generator keeps its addresses apart: variables, constants and the
  operands on its stack are all live, and no temporary is on the stack twice (`Books.Sound`).  So a
  fresh temporary is none of them, and giving back those of two operands takes nothing from others:
      Takes p t p'       live p' = live p ∪ {t},   t ∉ live p
      Keeps p given p'   live p ∖ (given ∩ temporaries) ⊆ live p'

  The steps that scripts are made of are opened here, each once: what a step that succeeds does to
  the generator is said in full, and only addresses of the pool are left open.
-/
import Quadruple.Proofs.Script
import Quadruple.Proofs.Addresses
import Quadruple.Proofs.Source

namespace Quadruple

variable {given given' : List Nat} {segment : Segment} {ty : Scalar} {a : Nat} {g g' : Generator}
  {u : Unit} {e left right : Entry} {op : Opcode} {p : Pool} {rest : List Entry} {x : String}
  {v : Value} {k : Source.Kind}

/-! ## Addresses kept and given back -/

/-- The address is that of a temporary. -/
def Temporary (sizes : Sizes) (a : Nat) : Prop :=
  (Layout.ofSizes sizes).segmentOf a = some .temporaries

theorem Located.not_temporary {sizes : Sizes} (h : Located sizes a segment ty)
    (hsegment : segment ≠ .temporaries) : ¬ Temporary sizes a := by
  intro ht
  rw [Temporary, Layout.segmentOf, h, Layout.range_ofSizes] at ht
  exact hsegment (Option.some.inj ht)

namespace Pool

variable {sizes : Sizes} {p p' p'' : Pool}

/-- What was live stays live, except temporaries given back. -/
structure Keeps (sizes : Sizes) (p : Pool) (given : List Nat) (p' : Pool) : Prop where
  valid : p'.Valid sizes
  live : ∀ b, p.isLive b = true → (Temporary sizes b → b ∉ given) → p'.isLive b = true
  peak : ∀ segment ty, p.peak segment ty ≤ p'.peak segment ty

theorem Valid.keeps (h : p.Valid sizes) : Keeps sizes p [] p :=
  ⟨h, fun _ hb _ => hb, fun _ _ => Nat.le_refl _⟩

theorem Keeps.trans (h : Keeps sizes p given p') (h' : Keeps sizes p' given' p'') :
    Keeps sizes p (given ++ given') p'' := by
  refine ⟨h'.valid, ?_, fun segment ty => Nat.le_trans (h.peak segment ty) (h'.peak segment ty)⟩
  intro b hb hnot
  refine h'.live b (h.live b hb fun ht hmem => ?_) fun ht hmem => ?_
  · exact hnot ht (List.mem_append_left _ hmem)
  · exact hnot ht (List.mem_append_right _ hmem)

theorem Keeps.mono (h : Keeps sizes p given p') (hsub : given ⊆ given') : Keeps sizes p given' p' :=
  ⟨h.valid, fun b hb hnot => h.live b hb fun ht hmem => hnot ht (hsub hmem), h.peak⟩

theorem Takes.keeps (h : Takes sizes p segment ty a p') : Keeps sizes p [] p' :=
  ⟨h.valid, fun b hb _ => (h.live b).mpr (Or.inl hb), h.peak⟩

theorem Gives.keeps (h : Gives sizes p a p') (ha : Temporary sizes a) : Keeps sizes p [a] p' := by
  refine ⟨h.valid, fun b hb hnot => (h.live b).mpr ⟨hb, ?_⟩, h.peak⟩
  rintro rfl
  exact hnot ha List.mem_cons_self

/-- Taking an address and giving it back, among others, takes nothing from what was live. -/
theorem Takes.keeps_of_given (h : Takes sizes p segment ty a p')
    (h' : Keeps sizes p' (a :: given) p'') : Keeps sizes p given p'' := by
  refine ⟨h'.valid, ?_, fun segment ty => Nat.le_trans (h.peak segment ty) (h'.peak segment ty)⟩
  intro b hb hnot
  refine h'.live b ((h.live b).mpr (Or.inl hb)) fun ht hmem => ?_
  rcases List.mem_cons.mp hmem with rfl | hmem
  · rw [h.fresh] at hb
    cases hb
  · exact hnot ht hmem

theorem Takes.ne_of_isLive {b : Nat} (h : Takes sizes p segment ty a p') (hb : p.isLive b = true) :
    b ≠ a := by
  rintro rfl
  rw [h.fresh] at hb
  cases hb

theorem Takes.temporary (h : Takes sizes p .temporaries ty a p') : Temporary sizes a :=
  h.located.segmentOf

theorem inSegment_temporaries (h : p.Valid sizes) (a : Nat) :
    p.inSegment a .temporaries = true ↔ Temporary sizes a := by
  rw [inSegment, Temporary, h.layout, beq_iff_eq]

end Pool

namespace Compile

open Generator

variable {sizes : Sizes}

/-! ## Steps that succeed -/

/-- An allocation changes the pool and the journal only. -/
theorem allocate_of_yields (h : Yields (allocate ty segment) g a g') :
    ∃ p journal, g.pool.allocate ty segment = .ok (a, p) ∧
      g' = { g with pool := p, journal := journal } := by
  rw [allocate, yields_get_bind] at h
  split at h
  · rename_i address pool hallocate
    rw [yields_set_bind, yields_bind] at h
    obtain ⟨_, g₁, hm, h⟩ := h
    have hm := yields_modify.mp hm
    cases h
    exact ⟨pool, _, hallocate, hm⟩
  · cases h

/-- One address of the segment is taken. -/
theorem yields_allocate (h : Yields (allocate ty segment) g a g') (hp : g.pool.Valid sizes) :
    ∃ p journal, Pool.Takes sizes g.pool segment ty a p ∧
      g' = { g with pool := p, journal := journal } := by
  obtain ⟨p, journal, hallocate, hg'⟩ := allocate_of_yields h
  exact ⟨p, journal, hp.allocate hallocate, hg'⟩

/-- One address is given back. -/
theorem yields_giveBack (h : Yields (giveBack a) g u g') (hp : g.pool.Valid sizes) :
    ∃ p, Pool.Gives sizes g.pool a p ∧ g' = { g with pool := p } := by
  rw [giveBack, yields_get_bind] at h
  split at h
  · rename_i pool hrelease
    exact ⟨pool, hp.release hrelease, yields_set.mp h⟩
  · cases h

/-- Only a temporary is given back. -/
theorem yields_release (h : Yields (release e) g u g') (hp : g.pool.Valid sizes) :
    ∃ p, Pool.Keeps sizes g.pool [e.address] p ∧ g' = { g with pool := p } := by
  rw [release, yields_get_bind] at h
  split at h
  · rename_i htemporary
    obtain ⟨p, hgives, rfl⟩ := yields_giveBack h hp
    exact ⟨p, hgives.keeps ((Pool.inSegment_temporaries hp _).mp htemporary), rfl⟩
  · obtain ⟨-, rfl⟩ := yields_pure.mp h
    exact ⟨g'.pool, ⟨hp, fun _ hb _ => hb, fun _ _ => Nat.le_refl _⟩, rfl⟩

/-- The topmost operand is taken off. -/
theorem yields_pop (h : Yields pop g e g') :
    ∃ rest, g.operands = e :: rest ∧ g' = { g with operands := rest } := by
  rw [pop, yields_get_bind] at h
  split at h
  · rename_i e' rest hoperands
    rw [yields_set_bind] at h
    cases h
    exact ⟨rest, hoperands, rfl⟩
  · cases h

/-- So is the topmost operator. -/
theorem yields_popOperator (h : Yields popOperator g op g') :
    ∃ rest, g.operators = op :: rest ∧ g' = { g with operators := rest } := by
  rw [popOperator, yields_get_bind] at h
  split at h
  · rename_i op' rest hoperators
    rw [yields_set_bind] at h
    cases h
    exact ⟨rest, hoperators, rfl⟩
  · cases h

theorem yields_pushOperator (h : Yields (pushOperator op) g u g') :
    g' = { g with operators := op :: g.operators } := by
  unfold pushOperator at h
  split at h
  · cases h
  · exact yields_modify.mp h

/-- An operator that computes takes a fresh temporary, emits its quad and gives its operands back.
-/
theorem yields_binary (h : Yields (binary left op right) g u g') (hp : g.pool.Valid sizes) :
    ∃ ty t p p' journal name, op.resultType? left.ty right.ty = some ty ∧
      Pool.Takes sizes g.pool .temporaries ty t p ∧
      Pool.Keeps sizes p [left.address, right.address] p' ∧
      g' = { g with
        pool := p'
        journal := journal
        program :=
          { g.program with
            quads := g.program.quads.push ⟨op, some left.value, some right.value, some (.addr t)⟩ }
        operands := ⟨t, ty, none, false, name⟩ :: g.operands } := by
  unfold binary at h
  split at h
  · cases h
  rename_i ty hty
  obtain ⟨t, g₁, ht, h⟩ := yields_bind.mp h
  obtain ⟨p, journal, htakes, rfl⟩ := yields_allocate ht hp
  obtain ⟨_, g₂, he, h⟩ := yields_bind.mp h
  obtain ⟨-, -, rfl⟩ := yields_emit he
  obtain ⟨_, g₃, hl, h⟩ := yields_bind.mp h
  obtain ⟨p₁, hkeeps₁, rfl⟩ := yields_release hl htakes.valid
  obtain ⟨_, g₄, hr, h⟩ := yields_bind.mp h
  obtain ⟨p₂, hkeeps₂, rfl⟩ := yields_release hr hkeeps₁.valid
  have hm := yields_modify.mp h
  exact ⟨ty, t, p, p₂, _, _, hty, htakes, hkeeps₁.trans hkeeps₂, hm⟩

/-- An assignment between slots emits one quad and gives its operands back. -/
theorem yields_assign (h : Yields (assign left right) g u g') (hp : g.pool.Valid sizes)
    (hdirect : left.through = false) (hleft : left.ty ≠ .pointer) (hright : right.ty ≠ .pointer) :
    (Opcode.assign.resultType? left.ty right.ty).isSome = true ∧
      ∃ p journal, Pool.Keeps sizes g.pool [right.address, left.address] p ∧
        g' = { g with
          pool := p
          journal := journal
          program := { g.program with
            quads := g.program.quads.push ⟨.assign, some right.value, none,
              some left.value⟩ } } := by
  rw [assign, if_neg (not_or.mpr ⟨hleft, hright⟩)] at h
  split at h
  · cases h
  rename_i htype
  refine ⟨?_, ?_⟩
  · rwa [Bool.not_eq_true, Option.isNone_eq_false_iff] at htype
  obtain ⟨source, g₁, hw, h⟩ := yields_bind.mp h
  -- nothing is widened, as the target is no heap cell
  rw [widened, hdirect, Bool.false_and, Bool.false_and, if_neg Bool.false_ne_true] at hw
  cases hw
  obtain ⟨_, g₂, he, h⟩ := yields_bind.mp h
  obtain ⟨-, -, rfl⟩ := yields_emit he
  obtain ⟨_, g₃, hr, h⟩ := yields_bind.mp h
  obtain ⟨p₁, hkeeps₁, rfl⟩ := yields_release hr hp
  obtain ⟨p₂, hkeeps₂, rfl⟩ := yields_release h hkeeps₁.valid
  exact ⟨p₂, _, hkeeps₁.trans hkeeps₂, rfl⟩

/-- `left op= right` emits two quads, with a temporary between them that is given back. -/
theorem yields_compoundAssign {base : Opcode}
    (h : Yields (compoundAssign left op base right) g u g') (hp : g.pool.Valid sizes) :
    ∃ ty t p p' journal, op.resultType? left.ty right.ty = some ty ∧
      (Opcode.assign.resultType? left.ty ty).isSome = true ∧
      Pool.Takes sizes g.pool .temporaries ty t p ∧
      Pool.Keeps sizes p [t, right.address, left.address] p' ∧
      g' = { g with
        pool := p'
        journal := journal
        program := { g.program with
          quads := (g.program.quads.push ⟨base, some left.value, some right.value,
            some (.addr t)⟩).push
            ⟨.assign, some (.addr t), none, some left.value⟩ } } := by
  unfold compoundAssign at h
  split at h
  · cases h
  rename_i ty hty
  split at h
  · cases h
  rename_i hstore
  rw [Bool.not_eq_true, Option.isNone_eq_false_iff] at hstore
  obtain ⟨t, g₁, ht, h⟩ := yields_bind.mp h
  obtain ⟨p, journal, htakes, rfl⟩ := yields_allocate ht hp
  obtain ⟨_, g₂, he, h⟩ := yields_bind.mp h
  obtain ⟨-, -, rfl⟩ := yields_emit he
  obtain ⟨_, g₃, he, h⟩ := yields_bind.mp h
  obtain ⟨-, -, rfl⟩ := yields_emit he
  obtain ⟨_, g₄, hg, h⟩ := yields_bind.mp h
  obtain ⟨p₁, hgives, rfl⟩ := yields_giveBack hg htakes.valid
  have hkeeps₁ := hgives.keeps htakes.temporary
  obtain ⟨_, g₅, hr, h⟩ := yields_bind.mp h
  obtain ⟨p₂, hkeeps₂, rfl⟩ := yields_release hr hkeeps₁.valid
  obtain ⟨p₃, hkeeps₃, rfl⟩ := yields_release h hkeeps₂.valid
  exact ⟨ty, t, p, p₃, _, hty, hstore, htakes, hkeeps₁.trans (hkeeps₂.trans hkeeps₃), rfl⟩

end Compile

/-! ## Sound books -/

/-- What addresses are used for while one function without calls is compiled. -/
structure Books where
  pool : Pool
  finishedCall : Option String
  globals : Table String Variable
  locals : Table String Variable
  names : Names
  constants : Table Nat Constant
  literals : List (Value × Nat)
  operands : List Entry

def Generator.books (g : Generator) : Books where
  pool := g.pool
  finishedCall := g.finishedCall
  globals := g.globals
  locals := g.locals
  names := g.names
  constants := g.program.constants
  literals := g.literals
  operands := g.operands

theorem Source.Kind.scalar_ne_pointer (k : Source.Kind) : k.scalar ≠ .pointer := by
  cases k <;> exact Scalar.noConfusion

namespace Books

/-- An operand whose slot holds its value. -/
structure Usable (p : Pool) (e : Entry) : Prop where
  direct : e.through = false
  scalar : e.ty ≠ .pointer
  live : p.isLive e.address = true

/-- A scalar variable, in a slot of its own kind and under its own name. -/
structure IsLocal (sizes : Sizes) (kinds : String → Option Source.Kind) (p : Pool) (names : Names)
    (x : String) (v : Variable) (k : Source.Kind) : Prop where
  variable_eq : v = ⟨v.address, .scalar k.scalar, [], []⟩
  kind : kinds x = some k
  located :
    (Layout.ofSizes sizes).locate v.address = some ((Layout.ofSizes sizes).range .locals k.scalar)
  live : p.isLive v.address = true
  named : names.find? v.address = some x

/-- All addresses in use are live and used for one thing. -/
structure Sound (sizes : Sizes) (kinds : String → Option Source.Kind) (b : Books) : Prop where
  pool : b.pool.Valid sizes
  finishedCall : b.finishedCall = none
  globals : b.globals = Table.empty
  locals : ∀ x v, b.locals.find? x = some v → ∃ k, IsLocal sizes kinds b.pool b.names x v k
  constants : ∀ a c, b.constants.find? a = some c → b.pool.isLive a = true ∧
    (Layout.ofSizes sizes).locate a = some ((Layout.ofSizes sizes).range .constants c.value.scalar)
  literals : ∀ v a, (v, a) ∈ b.literals → ∃ c, b.constants.find? a = some c ∧ c.value = v
  operands : ∀ e ∈ b.operands, Usable b.pool e
  apart : b.operands.Pairwise fun e e' => Temporary sizes e.address → e.address ≠ e'.address

theorem Usable.value (h : Usable p e) : e.value = .addr e.address := by
  rw [Entry.value, h.direct, if_neg Bool.false_ne_true]

variable {sizes : Sizes} {kinds : String → Option Source.Kind} {b : Books}

variable (h : Sound sizes kinds b)

include h

/-- Operands taken off the stack may be given back. -/
theorem Sound.consume {taken : List Entry} (hoperands : b.operands = taken ++ rest)
    (hkeeps : Pool.Keeps sizes b.pool (taken.map (·.address)) p) :
    Sound sizes kinds { b with pool := p, operands := rest } := by
  have hkept : ∀ {a segment ty}, Located sizes a segment ty → segment ≠ .temporaries →
      b.pool.isLive a = true → p.isLive a = true := by
    intro a segment ty hlocated hsegment hlive
    exact hkeeps.live a hlive fun ht => (hlocated.not_temporary hsegment ht).elim
  have hapart := h.apart
  rw [hoperands, List.pairwise_append] at hapart
  refine ⟨hkeeps.valid, h.finishedCall, h.globals, ?_, ?_, h.literals, ?_, hapart.2.1⟩
  · intro x v hx
    obtain ⟨k, hk⟩ := h.locals x v hx
    exact ⟨k, hk.variable_eq, hk.kind, hk.located, hkept hk.located (by decide) hk.live, hk.named⟩
  · intro a c hc
    obtain ⟨hlive, hlocated⟩ := h.constants a c hc
    exact ⟨hkept hlocated (by decide) hlive, hlocated⟩
  · intro e he
    have husable := h.operands e (hoperands ▸ List.mem_append_right _ he)
    refine ⟨husable.direct, husable.scalar, hkeeps.live _ husable.live ?_⟩
    intro ht hmem
    obtain ⟨e', he', heq⟩ := List.mem_map.mp hmem
    exact hapart.2.2 e' he' e he (heq ▸ ht) heq

/-- An operand may be pushed unless it is a temporary that is on the stack already. -/
theorem Sound.push (he : Usable b.pool e)
    (hapart : ∀ e' ∈ b.operands, Temporary sizes e.address → e.address ≠ e'.address) :
    Sound sizes kinds { b with operands := e :: b.operands } :=
  { h with
    operands := List.forall_mem_cons.mpr ⟨he, h.operands⟩
    apart := List.pairwise_cons.mpr ⟨hapart, h.apart⟩ }

theorem Sound.pushLocal {v : Variable} (hk : IsLocal sizes kinds b.pool b.names x v k) :
    Sound sizes kinds
      { b with operands := ⟨v.address, k.scalar, none, false, x⟩ :: b.operands } :=
  h.push ⟨rfl, k.scalar_ne_pointer, hk.live⟩
    fun _ _ ht => (Located.not_temporary hk.located (by decide) ht).elim

/-- Two operands become the temporary with their result. -/
theorem Sound.combine {t : Nat} {name : String} {p' : Pool}
    (hoperands : b.operands = right :: left :: rest) (hty : ty ≠ .pointer)
    (htakes : Pool.Takes sizes b.pool .temporaries ty t p)
    (hkeeps : Pool.Keeps sizes p [left.address, right.address] p') :
    Sound sizes kinds { b with pool := p', operands := ⟨t, ty, none, false, name⟩ :: rest } := by
  have hne : ∀ e ∈ b.operands, e.address ≠ t :=
    fun e he => htakes.ne_of_isLive (h.operands e he).live
  have hleft : left.address ≠ t := hne left (hoperands ▸ by simp)
  have hright : right.address ≠ t := hne right (hoperands ▸ by simp)
  have hgiven : Pool.Keeps sizes b.pool ([right, left].map (·.address)) p' :=
    (htakes.keeps.trans hkeeps).mono (List.Perm.swap _ _ _).subset
  have hstack : b.operands = [right, left] ++ rest := hoperands
  refine (h.consume hstack hgiven).push ⟨rfl, hty, ?_⟩ ?_
  · refine hkeeps.live t htakes.isLive fun _ hmem => ?_
    simp only [List.mem_cons, List.not_mem_nil, or_false] at hmem
    rcases hmem with rfl | rfl
    · exact hleft rfl
    · exact hright rfl
  · intro e he _ heq
    exact hne e (hoperands ▸ by simp [show e ∈ rest from he]) heq.symm

/-- A slot in which nothing was live may be taken and named. -/
theorem Sound.take (name : String) (htakes : Pool.Takes sizes b.pool segment ty a p) :
    Sound sizes kinds { b with pool := p, names := b.names.insert a name } := by
  have hlive : ∀ {c}, b.pool.isLive c = true → p.isLive c = true :=
    fun hc => (htakes.live _).mpr (Or.inl hc)
  refine ⟨htakes.valid, h.finishedCall, h.globals, ?_, ?_, h.literals, ?_, h.apart⟩
  · intro x v hx
    obtain ⟨k, hk⟩ := h.locals x v hx
    refine ⟨k, hk.variable_eq, hk.kind, hk.located, hlive hk.live, ?_⟩
    exact (Table.find?_insert_of_ne _ _ (htakes.ne_of_isLive hk.live)).trans hk.named
  · intro c d hd
    obtain ⟨hc, hlocated⟩ := h.constants c d hd
    exact ⟨hlive hc, hlocated⟩
  · intro e he
    have husable := h.operands e he
    exact ⟨husable.direct, husable.scalar, hlive husable.live⟩

/-- Such a slot may hold a literal. -/
theorem Sound.constant (name : String) (htakes : Pool.Takes sizes b.pool .constants v.scalar a p) :
    Sound sizes kinds { b with
      pool := p
      names := b.names.insert a name
      constants := b.constants.insert a ⟨v, v.scalar⟩
      literals := (v, a) :: b.literals } := by
  have hs := h.take name htakes
  refine { hs with
    constants := Table.forall_insert hs.constants ⟨htakes.isLive, htakes.located⟩, literals := ?_ }
  · intro w c hc
    rcases List.mem_cons.mp hc with heq | hc
    · cases heq
      exact ⟨_, Table.find?_insert_self _ _ _, rfl⟩
    · obtain ⟨d, hd, hvalue⟩ := h.literals w c hc
      refine ⟨d, ?_, hvalue⟩
      exact (Table.find?_insert_of_ne _ _ (htakes.ne_of_isLive (h.constants c d hd).1)).trans hd

/-- Such a slot may become a variable that is not declared yet. -/
theorem Sound.declare
    (htakes : Pool.Takes sizes b.pool .locals k.scalar a p) (hkind : kinds x = some k) :
    Sound sizes kinds { b with
      pool := p
      names := b.names.insert a x
      locals := b.locals.insert x ⟨a, .scalar k.scalar, [], []⟩ } := by
  have hs := h.take x htakes
  exact { hs with
    locals := Table.forall_insert hs.locals
      ⟨k, rfl, hkind, htakes.located, htakes.isLive, Table.find?_insert_self _ _ _⟩ }

end Books

namespace Compile

variable {sizes : Sizes} {kinds : String → Option Source.Kind}

/-- A literal is found where it was put before, or gets a slot of its own. -/
theorem constant_cases (h : Yields (constant v) g a g') :
    v.scalar ≠ .pointer ∧ ((v.canonical, a) ∈ g.literals ∧ g' = g ∨
      ∃ p journal, g.literals.find? (·.1 == v.canonical) = none ∧
        g.pool.allocate v.scalar .constants = .ok (a, p) ∧
        g' = { g with
          pool := p
          journal := journal
          names := g.names.insert a (literalName v)
          program := { g.program with constants := g.program.constants.insert a ⟨v, v.scalar⟩ }
          literals := (v.canonical, a) :: g.literals }) := by
  unfold constant at h
  dsimp only at h
  split at h
  · cases h
  rename_i hpointer
  refine ⟨hpointer, ?_⟩
  rw [yields_get_bind] at h
  split at h
  · rename_i key found hfind
    cases h
    have hkey := List.find?_some hfind
    rw [beq_iff_eq] at hkey
    dsimp only at hkey
    subst hkey
    exact Or.inl ⟨List.mem_of_find?_eq_some hfind, rfl⟩
  · rename_i hnew
    obtain ⟨address, g₁, ha, h⟩ := yields_bind.mp h
    obtain ⟨p, journal, hallocate, rfl⟩ := allocate_of_yields ha
    obtain ⟨_, g₂, hn, h⟩ := yields_bind.mp h
    cases hn
    obtain ⟨_, g₃, hm, h⟩ := yields_bind.mp h
    cases hm
    cases h
    exact Or.inr ⟨p, _, hnew, hallocate, rfl⟩

/-- The slot of a literal holds it, and the books stay sound. -/
theorem yields_constant (h : Yields (constant v) g a g') (hs : g.books.Sound sizes kinds)
    (hv : v.canonical = v) :
    g'.books.Sound sizes kinds ∧ (∃ c, g'.program.constants.find? a = some c ∧ c.value = v) ∧
    v.scalar ≠ .pointer ∧
      ∃ p journal names constants literals,
        (∀ c d, g.program.constants.find? c = some d → constants.find? c = some d) ∧
        Pool.Keeps sizes g.pool [] p ∧
        g' = { g with
          pool := p
          journal := journal
          names := names
          program := { g.program with constants := constants }
          literals := literals } := by
  obtain ⟨hpointer, hcases⟩ := constant_cases h
  rw [hv] at hcases
  obtain ⟨hmem, rfl⟩ | ⟨p, journal, -, hallocate, rfl⟩ := hcases
  · exact ⟨hs, hs.literals v a hmem, hpointer, g'.pool, g'.journal, g'.names, _, _, fun _ _ hd =>
      hd, hs.pool.keeps, rfl⟩
  · have htakes := hs.pool.allocate hallocate
    refine ⟨hs.constant _ htakes, ⟨_, Table.find?_insert_self _ _ _, rfl⟩, hpointer, p, _, _, _, _,
      ?_, htakes.keeps, rfl⟩
    intro c d hd
    exact (Table.find?_insert_of_ne _ _ (htakes.ne_of_isLive (hs.constants c d hd).1)).trans hd

/-- A variable in scope is pushed as it is. -/
theorem yields_pushVariable (h : Yields (pushVariable x) g u g') (hs : g.books.Sound sizes kinds) :
    ∃ v k, g.locals.find? x = some v ∧ Books.IsLocal sizes kinds g.pool g.names x v k ∧
      g' = { g with operands := ⟨v.address, k.scalar, none, false, x⟩ :: g.operands } := by
  rw [pushVariable, yields_get_bind] at h
  split at h
  · cases h
  rename_i v hlookup
  have hfind : g.locals.find? x = some v := by
    unfold Generator.lookup at hlookup
    split at hlookup
    · rename_i w hw
      rw [hw]
      exact hlookup
    · rw [show g.globals = Table.empty from hs.globals] at hlookup
      cases hlookup
  obtain ⟨k, hk⟩ := hs.locals x v hfind
  split at h
  · cases h
  have hpush := yields_modify.mp h
  rw [hk.variable_eq] at hpush
  exact ⟨v, k, hfind, hk, hpush⟩

end Compile

end Quadruple
