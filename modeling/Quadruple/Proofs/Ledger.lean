/-
  The compiler's ledger: every address is in somebody's hands, and has a slot.

  A temporary that is handed out lies on the operand stack, is the offset of an open array access,
  or is in the hands of the step just running.  A step takes operands off the stack, takes fresh
  temporaries, emits quads over what it has in hand, and gives back or puts on the stack each thing
  it holds.  The ledger keeps the account: the addresses in hand are listed (`held`), and each
  temporary occurs among them and on the stacks as often as it is handed out (`balance`):

      (held ++ pending).count a  =  if isLive a then 1 else 0

  It also keeps track of slots.  How many slots of each kind a frame needs is known when its
  function is closed, from the highest marks of the pool since it was opened; these marks never fall
  before that.  So every address that has a slot now (`Covers`) has one until the function is
  closed, and the quads emitted meanwhile name only such addresses.  `since` is the first quad of
  the open function; the quads before it belong to closed functions, whose frames have the slots
  that were recorded for them (`Extents`).

  This module states the ledger and shows what each primitive change does to it.
-/
import Quadruple.Proofs.Bookkeeping
import Quadruple.Proofs.CallShape
import Quadruple.Proofs.QuadTyping

namespace Quadruple

variable {sizes : Sizes} {a since : Nat} {segment : Segment} {ty : Scalar} {f : String}
  {r : Routine} {counts : SlotCounts} {p : Pool}

/-! ## Slots -/

/-- The address has a slot: a constant has one if it is in the table with the type of its run, any
other address if it is among the first so many of its run. -/
def Covered (sizes : Sizes) (constants : Table Nat Constant) (count : Segment → Scalar → Nat)
    (a : Nat) : Prop :=
  ∃ segment ty, Located sizes a segment ty ∧
    (segment ≠ .constants → ((Layout.ofSizes sizes).range segment ty).offset a < count segment ty) ∧
    (segment = .constants → ∃ c, constants.find? a = some c ∧ c.ty = ty)

theorem Covered.mono {constants constants' : Table Nat Constant}
    {count count' : Segment → Scalar → Nat} (h : Covered sizes constants count a)
    (hconstants : ∀ ty, Located sizes a .constants ty →
      (∃ c, constants.find? a = some c ∧ c.ty = ty) → ∃ c, constants'.find? a = some c ∧ c.ty = ty)
    (hcount : ∀ segment ty, count segment ty ≤ count' segment ty) :
    Covered sizes constants' count' a := by
  obtain ⟨segment, ty, hlocated, hslot, hconstant⟩ := h
  refine ⟨segment, ty, hlocated, fun hne => Nat.lt_of_lt_of_le (hslot hne) (hcount segment ty), ?_⟩
  intro heq
  subst heq
  exact hconstants ty hlocated (hconstant rfl)

namespace Program

/-- How many slots of each run there are for a frame with these counts. -/
def slotCount (p : Program) (counts : SlotCounts) : Segment → Scalar → Nat
  | .globals => p.globals.locals.get
  | .locals => counts.locals.get
  | .temporaries => counts.temporaries.get
  | .constants => fun _ => 0

/-- The address has a slot where a frame has these counts. -/
def HasSlot (p : Program) (counts : SlotCounts) (a : Nat) : Prop :=
  Covered p.sizes p.constants (p.slotCount counts) a

end Program

/-! ## The account -/

/-- The part of a generator that its ledger is about. -/
structure Account where
  pool : Pool
  program : Program
  currentFunction : Option String
  globals : Table String Variable
  locals : Table String Variable
  literals : List (Value × Nat)
  operands : List Entry
  accesses : List Access

variable {b : Account}

def Generator.account (g : Generator) : Account where
  pool := g.pool
  program := g.program
  currentFunction := g.currentFunction
  globals := g.globals
  locals := g.locals
  literals := g.literals
  operands := g.operands
  accesses := g.accesses

namespace Account

/-- The addresses of the operands on the stack and of the offsets of open array accesses. -/
def pending (b : Account) : List Nat :=
  b.operands.map (·.address) ++ (b.accesses.filterMap (·.offset)).map (·.address)

/-- The program as it would be if it ended here. -/
def draft (b : Account) : Program :=
  { b.program with globals := { b.program.globals with locals := b.pool.peaks .globals } }

/-- The slots of the open function, as they would be recorded here. -/
def slots (b : Account) : SlotCounts := ⟨b.pool.peaks .locals, b.pool.peaks .temporaries⟩

/-- The address has a slot as things stand, where a frame has these counts. -/
def Covers (sizes : Sizes) (b : Account) (counts : SlotCounts) (a : Nat) : Prop :=
  Covered sizes b.program.constants (b.draft.slotCount counts) a

/-- Constants of the types of their runs stay that, and marks do not fall. -/
structure Grows (sizes : Sizes) (b b' : Account) : Prop where
  constants : ∀ a ty, Located sizes a .constants ty →
    (∃ c, b.program.constants.find? a = some c ∧ c.ty = ty) →
    ∃ c, b'.program.constants.find? a = some c ∧ c.ty = ty
  peak : ∀ segment ty, b.pool.peak segment ty ≤ b'.pool.peak segment ty

variable {sizes : Sizes} {b b' : Account} {a : Nat}

theorem Grows.of_pool (hprogram : b'.program = b.program)
    (hpeak : ∀ segment ty, b.pool.peak segment ty ≤ b'.pool.peak segment ty) :
    Grows sizes b b' := by
  refine ⟨?_, hpeak⟩
  intro a ty _ hc
  rw [hprogram]
  exact hc

theorem slotCount_slots (b : Account) (h : segment ≠ .constants) (ty : Scalar) :
    b.draft.slotCount b.slots segment ty = b.pool.peak segment ty := by
  cases segment with
  | constants => exact (h rfl).elim
  | _ => simp [Program.slotCount, draft, slots, Pool.peaks]

theorem Covers.grow (h : b.Covers sizes counts a) (hgrows : Grows sizes b b') :
    b'.Covers sizes counts a := by
  refine Covered.mono h (hgrows.constants a) ?_
  intro segment ty
  cases segment with
  | globals => simpa [Program.slotCount, draft, Pool.peaks] using hgrows.peak .globals ty
  | _ => exact Nat.le_refl _

theorem Covers.grow_slots (h : b.Covers sizes b.slots a) (hgrows : Grows sizes b b') :
    b'.Covers sizes b'.slots a := by
  refine Covered.mono h (hgrows.constants a) ?_
  intro segment ty
  by_cases hconstants : segment = .constants
  · subst hconstants
    exact Nat.le_refl _
  · rw [slotCount_slots b hconstants, slotCount_slots b' hconstants]
    exact hgrows.peak segment ty

/-- What is live and no constant has a slot. -/
theorem covers_of_isLive (hp : b.pool.Valid sizes) (hlive : b.pool.isLive a = true)
    (hlocated : Located sizes a segment ty) (hsegment : segment ≠ .constants) :
    b.Covers sizes b.slots a := by
  refine ⟨segment, ty, hlocated, fun _ => ?_, fun heq => (hsegment heq).elim⟩
  rw [slotCount_slots b hsegment]
  exact hp.offset_lt_peak hlocated hlive

end Account

/-! ## Symbols -/

/-- The address is that of a constant with a slot. -/
def IsConstant (sizes : Sizes) (C : Nat → Prop) (a : Nat) : Prop :=
  C a ∧ ∃ ty, Located sizes a .constants ty

/-- Size and stride of the dimension are constants with slots. -/
structure IsDimension (sizes : Sizes) (C : Nat → Prop) (d : Dimension) : Prop where
  size : IsConstant sizes C d.sizeConstant
  stride : ∀ s, d.strideConstant = some s → IsConstant sizes C s

/-- The variable has a slot in the segment, and so have the constants of its dimensions. -/
structure IsVariableIn (sizes : Sizes) (C : Nat → Prop) (segment : Segment) (v : Variable) :
    Prop where
  located : ∃ ty, Located sizes v.address segment ty
  covered : C v.address
  dimensions : ∀ d ∈ v.dimensions, IsDimension sizes C d

/-- All symbols have slots, in the segments where they belong. -/
structure Symbols (sizes : Sizes) (C : Nat → Prop) (b : Account) : Prop where
  globals : ∀ id v, b.globals.find? id = some v → IsVariableIn sizes C .globals v
  locals : ∀ id v, b.locals.find? id = some v → IsVariableIn sizes C .locals v
  literals : ∀ l ∈ b.literals, IsConstant sizes C l.2
  accesses : ∀ x ∈ b.accesses, ∀ d ∈ x.dimensions, IsDimension sizes C d

section

variable {sizes : Sizes} {C C' : Nat → Prop} {b b' : Account}
variable {v : Variable}

theorem IsConstant.mono (h : IsConstant sizes C a) (hC : ∀ a, C a → C' a) : IsConstant sizes C' a :=
  ⟨hC a h.1, h.2⟩

theorem IsConstant.not_temporary (h : IsConstant sizes C a) : ¬ Temporary sizes a := by
  obtain ⟨-, ty, hlocated⟩ := h
  exact hlocated.not_temporary Segment.noConfusion

theorem IsDimension.mono {d : Dimension} (h : IsDimension sizes C d) (hC : ∀ a, C a → C' a) :
    IsDimension sizes C' d :=
  ⟨h.size.mono hC, fun s hs => (h.stride s hs).mono hC⟩

theorem IsVariableIn.mono (h : IsVariableIn sizes C segment v) (hC : ∀ a, C a → C' a) :
    IsVariableIn sizes C' segment v :=
  ⟨h.located, hC _ h.covered, fun d hd => (h.dimensions d hd).mono hC⟩

theorem IsVariableIn.not_temporary (h : IsVariableIn sizes C segment v)
    (hsegment : segment = .globals ∨ segment = .locals) : ¬ Temporary sizes v.address := by
  obtain ⟨ty, hlocated⟩ := h.located
  rcases hsegment with rfl | rfl
  · exact hlocated.not_temporary (by decide)
  · exact hlocated.not_temporary (by decide)

theorem Symbols.mono (h : Symbols sizes C b) (hC : ∀ a, C a → C' a) : Symbols sizes C' b :=
  ⟨fun id v hv => (h.globals id v hv).mono hC, fun id v hv => (h.locals id v hv).mono hC,
    fun l hl => (h.literals l hl).mono hC, fun x hx d hd => (h.accesses x hx d hd).mono hC⟩

end

/-! ## Bodies -/

/-- Function starts at or before the quad, and no other function starts between. -/
def Program.StartsLast (p : Program) (start n : Nat) : Prop :=
  start ≤ n ∧ ∀ f r, p.functions.find? f = some r → r.startQuad ≤ n → r.startQuad ≤ start

/-- The addresses that functions use have slots: those of a closed function the slots recorded for
it, those of the open function the slots there are so far.  Its quads are the ones from `since` on.
-/
structure Extents (sizes : Sizes) (since : Nat) (b : Account) : Prop where
  bounded : since ≤ b.program.quads.size
  idle : b.currentFunction = none → since = b.program.quads.size
  current : ∀ f, b.currentFunction = some f → ∃ r, b.program.functions.find? f = some r ∧
    r.startQuad = since ∧
    ∀ a ∈ r.paramAddresses, b.Covers sizes b.slots a
  code : ∀ (n : Nat) (q : Quad), since ≤ n → b.program.quads[n]? = some q →
    ∀ a ∈ q.addresses, b.Covers sizes b.slots a
  closed : ∀ f r, b.program.functions.find? f = some r → b.currentFunction ≠ some f →
    r.startQuad < since ∧
    (∀ a ∈ r.paramAddresses, b.Covers sizes r.slots a) ∧
    ∀ (n : Nat) (q : Quad), n < since → b.program.StartsLast r.startQuad n →
      b.program.quads[n]? = some q →
      ∀ a ∈ q.addresses, b.Covers sizes r.slots a

/-- Quads are those there were, with some addresses left out perhaps, or are emitted into the open
function over addresses with slots. -/
theorem Extents.step {b' : Account} (h : Extents sizes since b) (hgrows : Account.Grows sizes b b')
    (hfunctions : b'.program.functions = b.program.functions)
    (hcurrent : b'.currentFunction = b.currentFunction)
    (hsize : b.program.quads.size ≤ b'.program.quads.size)
    (hidle : b.currentFunction = none → b'.program.quads.size = b.program.quads.size)
    (hquads : ∀ (n : Nat) (q' : Quad), b'.program.quads[n]? = some q' →
      (∃ q, b.program.quads[n]? = some q ∧ q'.addresses ⊆ q.addresses) ∨
      (b.program.quads.size ≤ n ∧ ∀ a ∈ q'.addresses, b'.Covers sizes b'.slots a)) :
    Extents sizes since b' := by
  refine ⟨Nat.le_trans h.bounded hsize, ?_, ?_, ?_, ?_⟩
  · intro hnone
    rw [hcurrent] at hnone
    rw [hidle hnone]
    exact h.idle hnone
  · intro f hf
    rw [hcurrent] at hf
    obtain ⟨r, hr, hstart, hparams⟩ := h.current f hf
    exact ⟨r, hfunctions ▸ hr, hstart, fun a ha => (hparams a ha).grow_slots hgrows⟩
  · intro n q' hn hq' a ha
    rcases hquads n q' hq' with ⟨q, hq, hsub⟩ | ⟨-, hnew⟩
    · exact (h.code n q hn hq a (hsub ha)).grow_slots hgrows
    · exact hnew a ha
  · intro f r hr hne
    rw [hfunctions] at hr
    rw [hcurrent] at hne
    obtain ⟨hstart, hparams, hbody⟩ := h.closed f r hr hne
    refine ⟨hstart, fun a ha => (hparams a ha).grow hgrows, ?_⟩
    intro n q' hn hlast hq' a ha
    have hlast : b.program.StartsLast r.startQuad n := by
      unfold Program.StartsLast at hlast ⊢
      rwa [hfunctions] at hlast
    rcases hquads n q' hq' with ⟨q, hq, hsub⟩ | ⟨hge, -⟩
    · exact (hbody n q hn hlast hq a (hsub ha)).grow hgrows
    · have hbounded := h.bounded
      omega

/-! ## The ledger -/

/-- The account is in order while the step that runs has the addresses in hand. -/
structure Ledger (sizes : Sizes) (since : Nat) (held : List Nat) (b : Account) : Prop where
  pool : b.pool.Valid sizes
  sizes_eq : b.program.sizes = sizes
  heapStart_eq : b.program.heapStart = (Layout.ofSizes sizes).heapStart
  /-- A temporary is in hand or pending once if it is handed out, and else not at all. -/
  balance : ∀ a, Temporary sizes a → (held ++ b.pending).count a = (b.pool.isLive a).toNat
  covered : ∀ a ∈ held ++ b.pending, b.Covers sizes b.slots a
  symbols : Symbols sizes (b.Covers sizes b.slots) b
  extents : Extents sizes since b
  /-- No quad has a temporary twice. -/
  apart : ∀ (n : Nat) (q : Quad), b.program.quads[n]? = some q → ∀ a, Temporary sizes a →
    q.addresses.count a ≤ 1

namespace Ledger

variable {sizes : Sizes} {since : Nat} {held held' : List Nat} {b : Account}
variable (h : Ledger sizes since held b)

include h

/-! ### What is in hand -/

theorem perm (hperm : held.Perm held') : Ledger sizes since held' b := by
  have hall := hperm.append_right b.pending
  refine { h with balance := ?_, covered := ?_ }
  · intro a ha
    rw [← hall.count_eq]
    exact h.balance a ha
  · intro a ha
    exact h.covered a (hall.mem_iff.mpr ha)

/-- An address that is no temporary may be taken in hand. -/
theorem hold (hnot : ¬ Temporary sizes a)
    (hcovers : b.Covers sizes b.slots a) : Ledger sizes since (a :: held) b := by
  refine { h with balance := ?_, covered := ?_ }
  · intro c hc
    have hne : a ≠ c := fun heq => hnot (heq ▸ hc)
    rw [List.cons_append, List.count_cons_of_ne hne]
    exact h.balance c hc
  · intro c hc
    rcases List.mem_cons.mp hc with rfl | hc
    · exact hcovers
    · exact h.covered c hc

omit h in
theorem drop (h : Ledger sizes since (a :: held) b) (hnot : ¬ Temporary sizes a) :
    Ledger sizes since held b := by
  refine { h with balance := ?_, covered := fun c hc => h.covered c (List.mem_cons_of_mem _ hc) }
  intro c hc
  have hne : a ≠ c := fun heq => hnot (heq ▸ hc)
  rw [← h.balance c hc, List.cons_append, List.count_cons_of_ne hne]

/-- A temporary is nowhere twice. -/
theorem count_le_one (ha : Temporary sizes a) : held.count a ≤ 1 := by
  have hbalance := h.balance a ha
  rw [List.count_append] at hbalance
  have hle := Bool.toNat_le (b.pool.isLive a)
  omega

/-- Addresses go from hand to the stacks and back. -/
theorem regroup {operands : List Entry} {accesses : List Access}
    (hperm : (held' ++
      ({ b with operands := operands, accesses := accesses } : Account).pending).Perm
        (held ++ b.pending))
    (haccesses : ∀ x ∈ accesses, ∀ d ∈ x.dimensions, IsDimension sizes (b.Covers sizes b.slots) d) :
    Ledger sizes since held' { b with operands := operands, accesses := accesses } where
  pool := h.pool
  sizes_eq := h.sizes_eq
  heapStart_eq := h.heapStart_eq
  balance a ha := hperm.count_eq a ▸ h.balance a ha
  covered a ha := h.covered a (hperm.mem_iff.mp ha)
  symbols := ⟨h.symbols.globals, h.symbols.locals, h.symbols.literals, haccesses⟩
  extents :=
    h.extents.step (.of_pool rfl fun _ _ => Nat.le_refl _) rfl rfl (Nat.le_refl _) (fun _ => rfl)
    fun _ q hq => Or.inl ⟨q, hq, fun _ ha => ha⟩
  apart := h.apart

theorem pop {e : Entry} {rest : List Entry} (hoperands : b.operands = e :: rest) :
    Ledger sizes since (e.address :: held) { b with operands := rest } := by
  refine h.regroup ?_ h.symbols.accesses
  simp only [Account.pending, hoperands, List.map_cons, List.cons_append]
  exact List.perm_middle.symm

omit h in
theorem push {e : Entry} (h : Ledger sizes since (e.address :: held) b) :
    Ledger sizes since held { b with operands := e :: b.operands } := by
  refine h.regroup ?_ h.symbols.accesses
  simp only [Account.pending, List.map_cons, List.cons_append]
  exact List.perm_middle

/-! ### The pool -/

theorem setPool (hvalid : p.Valid sizes)
    (hpeak : ∀ segment ty, b.pool.peak segment ty ≤ p.peak segment ty)
    (hbalance : ∀ a, Temporary sizes a → (held' ++ b.pending).count a = (p.isLive a).toNat)
    (hcovered : ∀ a ∈ held',
      a ∈ held ∨
        ({ b with pool := p } : Account).Covers sizes ({ b with pool := p } : Account).slots a)
    : Ledger sizes since held' { b with pool := p } := by
  have hgrows : Account.Grows sizes b { b with pool := p } := .of_pool rfl hpeak
  refine ⟨hvalid, h.sizes_eq, h.heapStart_eq, hbalance, ?_, ?_, ?_, h.apart⟩
  · intro a ha
    rcases List.mem_append.mp ha with ha | ha
    · rcases hcovered a ha with ha | ha
      · exact (h.covered a (List.mem_append_left _ ha)).grow_slots hgrows
      · exact ha
    · exact (h.covered a (List.mem_append_right _ ha)).grow_slots hgrows
  · obtain ⟨hglobals, hlocals, hliterals, haccesses⟩ :=
      h.symbols.mono fun a ha => ha.grow_slots hgrows
    exact ⟨hglobals, hlocals, hliterals, haccesses⟩
  · exact h.extents.step hgrows rfl rfl (Nat.le_refl _) (fun _ => rfl) fun _ q hq =>
      Or.inl ⟨q, hq, fun _ ha => ha⟩

/-- A temporary is handed out. -/
theorem takeTemporary {t : Nat} (htakes : Pool.Takes sizes b.pool .temporaries ty t p) :
    Ledger sizes since (t :: held) { b with pool := p } := by
  have hlive : p.isLive t = true := htakes.isLive
  refine h.setPool htakes.valid htakes.peak ?_ ?_
  · intro a ha
    rw [List.cons_append, List.count_cons, h.balance a ha]
    by_cases hat : t = a
    · subst hat
      simp [hlive, htakes.fresh]
    · have hsame : p.isLive a = b.pool.isLive a := by
        rw [Bool.eq_iff_iff, htakes.live]
        exact or_iff_left (Ne.symm hat)
      simp [hat, hsame]
  · intro a ha
    rcases List.mem_cons.mp ha with rfl | ha
    · exact Or.inr (Account.covers_of_isLive htakes.valid hlive htakes.located (by decide))
    · exact Or.inl ha

/-- Another address is handed out. -/
theorem takeOther (hsegment : segment ≠ .temporaries)
    (htakes : Pool.Takes sizes b.pool segment ty a p) :
    Ledger sizes since held { b with pool := p } := by
  refine h.setPool htakes.valid htakes.peak ?_ fun _ ha => Or.inl ha
  intro c hc
  have hne : c ≠ a := fun heq => htakes.located.not_temporary hsegment (heq ▸ hc)
  have hsame : p.isLive c = b.pool.isLive c := by
    rw [Bool.eq_iff_iff, htakes.live]
    exact or_iff_left hne
  rw [hsame]
  exact h.balance c hc

omit h in
/-- What is in hand is given back. -/
theorem give (h : Ledger sizes since (a :: held) b) (hgives : Pool.Gives sizes b.pool a p) :
    Ledger sizes since held { b with pool := p } := by
  refine h.setPool hgives.valid hgives.peak ?_ fun _ hc => Or.inl (List.mem_cons_of_mem _ hc)
  intro c hc
  have hbalance := h.balance c hc
  rw [List.cons_append, List.count_cons] at hbalance
  by_cases hca : c = a
  · subst hca
    have hlive : p.isLive c = false := by
      rw [Bool.eq_false_iff, ne_eq, hgives.live]
      exact fun hlive => hlive.2 rfl
    simp [hgives.wasLive] at hbalance
    simp [hlive, hbalance]
  · have hsame : p.isLive c = b.pool.isLive c := by
      rw [Bool.eq_iff_iff, hgives.live]
      exact and_iff_left hca
    simpa [hsame, Ne.symm hca] using hbalance

/-- A block outside the temporaries is handed out; its first address has a slot. -/
theorem takeBlock (htemporaries : segment ≠ .temporaries)
    (hconstants : segment ≠ .constants) (htakes : Pool.TakesBlock sizes b.pool segment ty a p) :
    Ledger sizes since held { b with pool := p } ∧
      ({ b with pool := p } : Account).Covers sizes ({ b with pool := p } : Account).slots a := by
  refine ⟨h.setPool htakes.valid htakes.peak ?_ fun _ ha => Or.inl ha, ?_⟩
  · intro c hc
    rw [h.balance c hc, htakes.live c fun hlocated => hlocated.not_temporary htemporaries hc]
  · refine ⟨segment, ty, htakes.located, fun _ => ?_, fun heq => (hconstants heq).elim⟩
    rw [Account.slotCount_slots _ hconstants]
    exact htakes.room

/-! ### The program -/

/-- A literal gets a slot that lies among the constants of its type. -/
theorem insertConstant {v : Value} (key : Value)
    (hlocated : Located sizes a .constants v.scalar) : let b' : Account := { b with
      program := { b.program with constants := b.program.constants.insert a ⟨v, v.scalar⟩ }
      literals := (key, a) :: b.literals }
    Ledger sizes since held b' ∧ IsConstant sizes (b'.Covers sizes b'.slots) a := by
  intro b'
  have hentry : b'.program.constants.find? a = some ⟨v, v.scalar⟩ := Table.find?_insert_self _ _ _
  have hgrows : Account.Grows sizes b b' := by
    refine ⟨?_, fun _ _ => Nat.le_refl _⟩
    rintro c ty hc ⟨d, hd, hty⟩
    by_cases hca : c = a
    · -- the slot is taken by a constant of the same type
      subst hca
      exact ⟨_, hentry, (hc.unique hlocated).2⟩
    · exact ⟨d, (Table.find?_insert_of_ne _ _ hca).trans hd, hty⟩
  have hconstant : IsConstant sizes (b'.Covers sizes b'.slots) a :=
    ⟨⟨.constants, v.scalar, hlocated, fun hne => (hne rfl).elim, fun _ => ⟨_, hentry, rfl⟩⟩,
      v.scalar, hlocated⟩
  refine ⟨⟨h.pool, h.sizes_eq, h.heapStart_eq, h.balance, fun c hc =>
    (h.covered c hc).grow_slots hgrows, ?_, ?_, h.apart⟩,
    hconstant⟩
  · obtain ⟨hglobals, hlocals, hliterals, haccesses⟩ :=
      h.symbols.mono fun a ha => ha.grow_slots hgrows
    refine ⟨hglobals, hlocals, ?_, haccesses⟩
    intro l hl
    rcases List.mem_cons.mp hl with rfl | hl
    · exact hconstant
    · exact hliterals l hl
  · exact h.extents.step hgrows rfl rfl (Nat.le_refl _) (fun _ => rfl) fun _ q hq =>
      Or.inl ⟨q, hq, fun _ ha => ha⟩

/-- Other code, whose quads name no more than those there were, or are new and name addresses in
hand. -/
theorem setQuads {quads : Array Quad} (hsize : b.program.quads.size ≤ quads.size)
    (hidle : b.currentFunction = none → quads.size = b.program.quads.size)
    (hquads : ∀ (n : Nat) (q' : Quad), quads[n]? = some q' →
      (∃ q, b.program.quads[n]? = some q ∧ q'.addresses.Sublist q.addresses) ∨
      b.program.quads.size ≤ n ∧ ∀ a, q'.addresses.count a ≤ held.count a) :
    Ledger sizes since held { b with program := { b.program with quads := quads } } := by
  have hmem : ∀ {addresses : List Nat}, (∀ a, addresses.count a ≤ held.count a) →
      ∀ a ∈ addresses, a ∈ held ++ b.pending := by
    intro addresses hcount a ha
    have hle := hcount a
    have hpos := List.count_pos_iff.mpr ha
    exact List.mem_append_left _ (List.count_pos_iff.mp (by omega))
  refine ⟨h.pool, h.sizes_eq, h.heapStart_eq, h.balance, h.covered, ?_, ?_, ?_⟩
  · exact ⟨h.symbols.globals, h.symbols.locals, h.symbols.literals, h.symbols.accesses⟩
  · refine h.extents.step ⟨fun _ _ _ hc => hc, fun _ _ => Nat.le_refl _⟩ rfl rfl hsize hidle ?_
    intro n q' hq'
    rcases hquads n q' hq' with ⟨q, hq, hsub⟩ | ⟨hn, hcount⟩
    · exact Or.inl ⟨q, hq, hsub.subset⟩
    · exact Or.inr ⟨hn, fun a ha => h.covered a (hmem hcount a ha)⟩
  · intro n q' hq' a ha
    rcases hquads n q' hq' with ⟨q, hq, hsub⟩ | ⟨-, hcount⟩
    · exact Nat.le_trans (hsub.count_le a) (h.apart n q hq a ha)
    · exact Nat.le_trans (hcount a) (h.count_le_one ha)

/-- A quad is emitted into the open function over addresses in hand. -/
theorem emit {q : Quad} (hopen : b.currentFunction.isSome = true)
    (hq : ∀ a, q.addresses.count a ≤ held.count a) :
    Ledger sizes since held
      { b with program := { b.program with quads := b.program.quads.push q } } := by
  refine h.setQuads ?_ ?_ ?_
  · rw [Array.size_push]
    omega
  · intro hnone
    rw [hnone] at hopen
    cases hopen
  · intro n q' hq'
    rcases Control.Tame.getElem?_push_cases hq' with hq' | ⟨rfl, rfl⟩
    · exact Or.inl ⟨q', hq', .refl _⟩
    · exact Or.inr ⟨Nat.le_refl _, hq⟩

/-- A jump gets its target. -/
theorem patch (index target : Nat) : Ledger sizes since held { b with
      program := { b.program with quads := Control.patched b.program.quads index target } } := by
  refine h.setQuads (Nat.le_of_eq (Control.size_patched _ _ _).symm)
    (fun _ => Control.size_patched _ _ _) fun n q' hq' => Or.inl ?_
  rcases Control.getElem?_patched hq' with hq | ⟨-, q, hq, -, rfl⟩
  · exact ⟨q', hq, .refl _⟩
  · refine ⟨q, hq, ?_⟩
    simp [Quad.addresses]

/-! ### Symbols -/

theorem setSymbols {locals globals : Table String Variable}
    (hlocals : ∀ id v, locals.find? id = some v →
      IsVariableIn sizes (b.Covers sizes b.slots) .locals v)
    (hglobals : ∀ id v, globals.find? id = some v →
      IsVariableIn sizes (b.Covers sizes b.slots) .globals v)
    : Ledger sizes since held { b with locals := locals, globals := globals } :=
  ⟨h.pool, h.sizes_eq, h.heapStart_eq, h.balance, h.covered,
    ⟨hglobals, hlocals, h.symbols.literals, h.symbols.accesses⟩,
    h.extents.step ⟨fun _ _ _ hc => hc, fun _ _ => Nat.le_refl _⟩ rfl rfl (Nat.le_refl _)
      (fun _ => rfl)
      fun _ q hq => Or.inl ⟨q, hq, fun _ ha => ha⟩, h.apart⟩

/-! ### Functions -/

/-- What is known of the open function changes, but not where it starts. -/
theorem setRoutine {r' : Routine}
    (hopen : b.currentFunction = some f) (hr : b.program.functions.find? f = some r)
    (hstart : r'.startQuad = r.startQuad)
    (hparams : ∀ a ∈ r'.paramAddresses, b.Covers sizes b.slots a) :
    Ledger sizes since held { b with
      program := { b.program with functions := b.program.functions.insert f r' } } := by
  refine ⟨h.pool, h.sizes_eq, h.heapStart_eq, h.balance, h.covered, ?_, ?_, h.apart⟩
  · exact ⟨h.symbols.globals, h.symbols.locals, h.symbols.literals, h.symbols.accesses⟩
  have hstarts :
      ∀ start n,
        ({ b.program with functions := b.program.functions.insert f r' } : Program).StartsLast
          start n →
      b.program.StartsLast start n := by
    rintro start n ⟨hle, hlast⟩
    refine ⟨hle, fun f' r'' hr'' hle' => ?_⟩
    by_cases hf : f' = f
    · subst hf
      rw [hr] at hr''
      cases hr''
      rw [← hstart] at hle' ⊢
      exact hlast f' r' (Table.find?_insert_self _ _ _) hle'
    · exact hlast f' r'' ((Table.find?_insert_of_ne _ _ hf).trans hr'') hle'
  obtain ⟨hbounded, hidle, hcurrent, hcode, hclosed⟩ := h.extents
  refine ⟨hbounded, hidle, ?_, hcode, ?_⟩
  · intro f' hf'
    obtain rfl : f' = f := Option.some.inj (hf'.symm.trans hopen)
    obtain ⟨r₀, hr₀, hsince, -⟩ := hcurrent f' hopen
    rw [hr] at hr₀
    cases hr₀
    exact ⟨r', Table.find?_insert_self _ _ _, hstart.trans hsince, hparams⟩
  · intro f' r'' hr'' hne
    have hf : f' ≠ f := fun heq => hne (heq ▸ hopen)
    obtain ⟨hlt, hparams', hbody⟩ :=
      hclosed f' r'' ((Table.find?_insert_of_ne _ _ hf).symm.trans hr'') hne
    exact ⟨hlt, hparams', fun n q hn hlast hq => hbody n q hn (hstarts _ _ hlast) hq⟩

/-- A function is opened. -/
theorem openFunction (hclosed : b.currentFunction = none)
    (hnew : b.program.functions.find? f = none) :
    Ledger sizes since held { b with
      program := { b.program with
        functions := b.program.functions.insert f (Routine.startingAt b.program.quads.size) }
      currentFunction := some f
      locals := Table.empty } := by
  have hsince := h.extents.idle hclosed
  refine ⟨h.pool, h.sizes_eq, h.heapStart_eq, h.balance, h.covered, ?_, ?_, h.apart⟩
  · exact ⟨h.symbols.globals, fun _ _ hv => (by cases hv), h.symbols.literals, h.symbols.accesses⟩
  refine ⟨h.extents.bounded, fun hnone => (by cases hnone), ?_, h.extents.code, ?_⟩
  · intro f' hf'
    cases hf'
    exact ⟨_, Table.find?_insert_self _ _ _, hsince.symm, fun _ ha => by cases ha⟩
  · intro f' r hr hne
    have hf : f' ≠ f := fun heq => hne (heq ▸ rfl)
    rw [Table.find?_insert_of_ne _ _ hf] at hr
    obtain ⟨hlt, hparams, hbody⟩ := h.extents.closed f' r hr (by simp [hclosed])
    refine ⟨hlt, hparams, fun n q hn hlast hq => hbody n q hn ⟨hlast.1, fun f'' r'' hr'' => ?_⟩ hq⟩
    refine hlast.2 f'' r'' ?_
    have hf' : f'' ≠ f := by
      rintro rfl
      rw [hnew] at hr''
      cases hr''
    exact (Table.find?_insert_of_ne _ _ hf').trans hr''

end Ledger

/-! ## The end of a function -/

namespace Account

/-- The account after the open function is closed: its slots are recorded, and those of its frame
are free. -/
def close (b : Account) (f : String) (r : Routine) : Account :=
  { b with
    pool := (b.pool.releaseSegment .locals).releaseSegment .temporaries
    program := { b.program with
      quads := b.program.quads.push ⟨.endFunc, none, none, none⟩
      functions := b.program.functions.insert f { r with slots := b.slots } }
    currentFunction := none
    locals := Table.empty }

variable {sizes : Sizes} {b : Account} {f : String} {r : Routine} {a : Nat}

theorem peak_close_globals (ty : Scalar) :
    (b.close f r).pool.peak .globals ty = b.pool.peak .globals ty := by
  rw [close, Pool.peak_releaseSegment_of_ne _ _ (by decide),
    Pool.peak_releaseSegment_of_ne _ _ (by decide)]

/-- Slots that were recorded are there as before. -/
theorem Covers.close (h : b.Covers sizes counts a) : (b.close f r).Covers sizes counts a := by
  refine Covered.mono h (fun _ _ hc => hc) fun segment ty => ?_
  cases segment with
  | globals => simp [Program.slotCount, draft, Pool.peaks, peak_close_globals]
  | _ => exact Nat.le_refl _

/-- Globals and constants have slots whatever is recorded for frames. -/
theorem Covers.close_shared {counts' : SlotCounts} (h : b.Covers sizes counts a)
    (hlocated : Located sizes a segment ty) (hlocals : segment ≠ .locals)
    (htemporaries : segment ≠ .temporaries) : (b.close f r).Covers sizes counts' a := by
  obtain ⟨segment', ty', hlocated', hslot, hconstant⟩ := Covers.close (f := f) (r := r) h
  obtain ⟨rfl, rfl⟩ := hlocated.unique hlocated'
  refine ⟨segment', ty', hlocated', ?_, hconstant⟩
  intro hne
  cases segment' with
  | globals => exact hslot hne
  | locals => exact (hlocals rfl).elim
  | temporaries => exact (htemporaries rfl).elim
  | constants => exact (hne rfl).elim

theorem isLive_close (hp : b.pool.Valid sizes) (ha : Temporary sizes a) :
    (b.close f r).pool.isLive a = false := by
  unfold Temporary Layout.segmentOf at ha
  obtain ⟨range, hrange, hsegment⟩ := Option.map_eq_some_iff.mp ha
  obtain ⟨heq, -⟩ := Layout.locate_eq_some hrange
  rw [hsegment] at heq
  exact Pool.isLive_releaseSegment (hp.releaseSegment .locals)
    (hrange.trans (congrArg some heq))

end Account

/-- The quads of a closed function name only addresses with recorded slots. -/
theorem Extents.close (h : Extents sizes since b) (hopen : b.currentFunction = some f)
    (hr : b.program.functions.find? f = some r) :
    Extents sizes (b.program.quads.size + 1) (b.close f r) := by
  have hsize : (b.close f r).program.quads.size = b.program.quads.size + 1 := Array.size_push _
  have hbounded := h.bounded
  obtain ⟨r₀, hr₀, hsince, hparams⟩ := h.current f hopen
  obtain rfl : r₀ = r := Option.some.inj (hr₀.symm.trans hr)
  refine ⟨Nat.le_of_eq hsize.symm, fun _ => hsize.symm, fun f' hf' => (by cases hf'), ?_, ?_⟩
  · intro n q hn hq
    rw [Array.getElem?_eq_none (by omega)] at hq
    cases hq
  · intro f' r' hr' _
    -- the starts of functions are those there were
    have hlast : ∀ start n, (b.close f r₀).program.StartsLast start n →
        b.program.StartsLast start n := by
      rintro start n ⟨hle, hlast⟩
      refine ⟨hle, fun f'' r'' hr'' hle' => ?_⟩
      by_cases hf : f'' = f
      · subst hf
        rw [hr] at hr''
        cases hr''
        have hfound :
            (b.close f'' r₀).program.functions.find? f'' = some { r₀ with slots := b.slots } :=
          Table.find?_insert_self _ _ _
        exact hlast f'' { r₀ with slots := b.slots } hfound hle'
      · exact hlast f'' r'' ((Table.find?_insert_of_ne _ _ hf).trans hr'') hle'
    by_cases hf : f' = f
    · subst hf
      have hfound :
          (b.close f' r₀).program.functions.find? f' = some { r₀ with slots := b.slots } :=
        Table.find?_insert_self _ _ _
      rw [hfound] at hr'
      cases hr'
      refine ⟨show r₀.startQuad < _ by omega, fun a ha => (hparams a ha).close, ?_⟩
      intro n q _ hstarts hq a ha
      have hle := hstarts.1
      rcases Control.Tame.getElem?_push_cases hq with hq | ⟨-, rfl⟩
      · exact (h.code n q (hsince ▸ hle) hq a ha).close
      · cases ha
    · have hfound : (b.close f r₀).program.functions.find? f' = b.program.functions.find? f' :=
        Table.find?_insert_of_ne _ _ hf
      rw [hfound] at hr'
      have hne : b.currentFunction ≠ some f' := by
        rw [hopen]
        exact fun heq => hf (Option.some.inj heq).symm
      obtain ⟨hlt, hparams', hbody⟩ := h.closed f' r' hr' hne
      refine ⟨by omega, fun a ha => (hparams' a ha).close, ?_⟩
      intro n q _ hstarts hq a ha
      have hlt' : n < since := by
        rcases Nat.lt_or_ge n since with hlt' | hge
        · exact hlt'
        · have hle := (hlast _ _ hstarts).2 f r₀ hr (by omega)
          omega
      rcases Control.Tame.getElem?_push_cases hq with hq | ⟨-, rfl⟩
      · exact (hbody n q hlt' (hlast _ _ hstarts) hq a ha).close
      · cases ha

/-- A function closed with nothing pending starts a new, empty ledger. -/
theorem Ledger.close (h : Ledger sizes since [] b) (hopen : b.currentFunction = some f)
    (hr : b.program.functions.find? f = some r) (hoperands : b.operands = [])
    (haccesses : b.accesses = []) : Ledger sizes (b.program.quads.size + 1) [] (b.close f r) := by
  have hpending : (b.close f r).pending = [] := by
    simp [Account.pending, Account.close, hoperands, haccesses]
  have hconstant : ∀ {a}, IsConstant sizes (b.Covers sizes b.slots) a →
      IsConstant sizes ((b.close f r).Covers sizes (b.close f r).slots) a := by
    rintro a ⟨hcovers, ty, hlocated⟩
    exact ⟨hcovers.close_shared hlocated (by decide) (by decide), ty, hlocated⟩
  refine ⟨(h.pool.releaseSegment _).releaseSegment _, h.sizes_eq, h.heapStart_eq, ?_, ?_,
    ⟨?_, ?_, ?_, ?_⟩, h.extents.close hopen hr, ?_⟩
  · intro a ha
    rw [hpending, Account.isLive_close h.pool ha]
    rfl
  · intro a ha
    rw [hpending] at ha
    cases ha
  · intro id v hv
    obtain ⟨⟨ty, hlocated⟩, hcovers, hdimensions⟩ := h.symbols.globals id v hv
    refine ⟨⟨ty, hlocated⟩, hcovers.close_shared hlocated (by decide) (by decide), ?_⟩
    intro d hd
    exact ⟨hconstant (hdimensions d hd).size, fun s hs =>
      hconstant ((hdimensions d hd).stride s hs)⟩
  · intro id v hv
    cases hv
  · intro l hl
    exact hconstant (h.symbols.literals l hl)
  · intro x hx
    have hx : x ∈ b.accesses := hx
    rw [haccesses] at hx
    cases hx
  · intro n q hq a ha
    rcases Control.Tame.getElem?_push_cases hq with hq | ⟨-, rfl⟩
    · exact h.apart n q hq a ha
    · exact Nat.zero_le _

end Quadruple
