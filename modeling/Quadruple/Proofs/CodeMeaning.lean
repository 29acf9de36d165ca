/-
  What the code of a script does.

  `Image.Computes` and `Image.Performs` say which quads stand for an expression and for a statement,
  and where; how a compiler comes to put them there is no part of it.  Such code does what the
  source says: it passes through to its end with the variables that the source leaves, it stops with
  the fault that is the source's failure, or it goes on for as long as the source does
  (`Image.Performs.follows`).

      Computes held e i j a ty     quads `i` to `j` leave the value of `e` in slot `a`
      Performs s i j               quads `i` to `j` do what `s` does

  An expression's code may write to temporaries, but never to one that holds an operand of an
  expression around it (`held`).  A variable as an operand has no code at all: the quad of its
  operator reads it.
-/
import Quadruple.Proofs.Memory
import Quadruple.Proofs.Operators
import Quadruple.Proofs.Progress

namespace Quadruple

variable {m : Machine} {a t i : Nat} {ty : Scalar} {σ : Source.Store} {o : Source.Atom}
  {q : Quad} {held : List Nat}

/-! ## Effects of single quads -/

namespace Exec

/-- The computation leads to the next quad with this change of the machine, or faults and changes
nothing. -/
def Does (c : Exec Flow) (m : Machine) (change : Except Fault Machine) : Prop :=
  c.run.run m = match change with
    | .ok m' => (.ok .next, m')
    | .error f => (.error f, m)

theorem does_ask {α : Type} {f : Machine → Except Fault α} {g : α → Exec Flow}
    {change : α → Except Fault Machine} (h : ∀ a, f m = .ok a → Does (g a) m (change a)) :
    Does (ask f >>= g) m (f m >>= change) := by
  unfold Does
  cases hf : f m with
  | ok a =>
    rw [(yields_ask.mpr ⟨hf, rfl⟩).run_bind]
    exact h a hf
  | error e =>
    rw [(fails_ask.mpr ⟨hf, rfl⟩).run_bind]
    rfl

theorem does_update (f : Machine → Except Fault Machine) (m : Machine) :
    Does (do update f; return .next) m (f m) := by
  unfold Does
  cases hf : f m with
  | ok m' =>
    have hupdate : Yields (update f) m () m' := yields_update.mpr hf
    rw [hupdate.run_bind]
    rfl
  | error e => rw [(fails_update.mpr ⟨hf, rfl⟩).run_bind]

theorem does_assign (m : Machine) (a b : Nat) :
    Does (execute ⟨.assign, some (.addr a), none, some (.addr b)⟩) m (do
      let v ← m.readValue a
      m.writeSlot b (some v)) :=
  does_ask fun v _ => does_update (·.write (some (.addr b)) v) m

theorem does_arithmetic (op : Opcode) (m : Machine) (a b t : Nat) :
    Does (arithmetic ⟨op, some (.addr a), some (.addr b), some (.addr t)⟩) m (do
      let v ← m.readValue a
      let w ← m.readValue b
      let r ← Quadruple.arithmetic op (m.layout.typeOf t) v w
      m.writeSlot t (some r)) := by
  refine does_ask fun v _ => does_ask fun w _ => ?_
  show Does _ m (m.resolve (some (.addr t)) >>= fun t => do
    let r ← Quadruple.arithmetic op (m.layout.typeOf t) v w
    m.writeSlot t (some r))
  exact does_ask fun t _ => does_ask fun r _ => does_update (·.writeSlot t (some r)) m

theorem does_boolean (op : Opcode) (m : Machine) (a b t : Nat) :
    Does (boolean ⟨op, some (.addr a), some (.addr b), some (.addr t)⟩) m (do
      let v ← m.readValue a
      let w ← m.readValue b
      let r ← Value.bool <$> Quadruple.boolean op v w
      m.writeSlot t (some r)) := by
  refine does_ask fun v _ => does_ask fun w _ => ?_
  have hmap : (do let r ← Value.bool <$> Quadruple.boolean op v w; m.writeSlot t (some r)) =
      (do let c ← Quadruple.boolean op v w; m.writeSlot t (some (.bool c))) := by
    cases Quadruple.boolean op v w <;> rfl
  rw [hmap]
  exact does_ask fun c _ => does_update (·.write (some (.addr t)) (.bool c)) m

theorem does_operator (op : Source.Operator) (m : Machine) (a b t : Nat) :
    Does (execute ⟨op.opcode, some (.addr a), some (.addr b), some (.addr t)⟩) m (do
      let v ← m.readValue a
      let w ← m.readValue b
      let r ← op.onMachine (m.layout.typeOf t) v w
      m.writeSlot t (some r)) := by
  cases op with
  | arithmetic op => cases op <;> exact does_arithmetic _ m a b t
  | comparison op => cases op <;> exact does_boolean _ m a b t
  | logic op => cases op <;> exact does_boolean _ m a b t

end Exec

namespace Source

/-! ## Code for a script -/

/-- All that the code of a script refers to. -/
structure Image where
  sizes : Sizes
  slots : SlotCounts
  code : Array Quad
  constants : Table Nat Value
  names : Names
  kinds : String → Option Kind
  /-- Where each variable lives. -/
  address : String → Option Nat

namespace Image

/-- A temporary slot of the frame. -/
structure IsTemporary (I : Image) (a : Nat) (ty : Scalar) : Prop where
  located :
    (Layout.ofSizes I.sizes).locate a = some ((Layout.ofSizes I.sizes).range .temporaries ty)
  counted : ((Layout.ofSizes I.sizes).range .temporaries ty).offset a < I.slots.temporaries.get ty

/-- The slot of a variable: a local slot of the frame, of the type of the variable and with its
name. -/
structure IsVariable (I : Image) (x : String) (k : Kind) (a : Nat) : Prop where
  kind : I.kinds x = some k
  located :
    (Layout.ofSizes I.sizes).locate a = some ((Layout.ofSizes I.sizes).range .locals k.scalar)
  counted : ((Layout.ofSizes I.sizes).range .locals k.scalar).offset a < I.slots.locals.get k.scalar
  named : I.names.find? a = some x

/-- Every variable has a slot. -/
def Proper (I : Image) : Prop := ∀ x a, I.address x = some a → ∃ k, I.IsVariable x k a

/-- The code from `i` to `j` computes the expression into the slot `a` of type `ty`, and spares the
slots `held`. -/
inductive Computes (I : Image) : List Nat → Expr → Nat → Nat → Nat → Scalar → Prop
  | literal {held : List Nat} {l : Literal} {i a : Nat}
      (located : (Layout.ofSizes I.sizes).locate a =
        some ((Layout.ofSizes I.sizes).range .constants l.value.scalar))
      (constant : I.constants.find? a = some l.value) :
      Computes I held (.literal l) i i a l.value.scalar
  | var {held : List Nat} {x : String} {k : Kind} {i a : Nat} (address : I.address x = some a)
      (kind : I.kinds x = some k) : Computes I held (.var x) i i a k.scalar
  | binary {held : List Nat} {left right : Expr} {op : Operator} {i j k a b t : Nat}
      {tl tr ty : Scalar}
      (hleft : Computes I held left i j a tl) (hright : Computes I (a :: held) right j k b tr)
      (type : op.opcode.resultType? tl tr = some ty) (target : I.IsTemporary t ty) (free : t ∉ held)
      (quad : I.code[k]? = some ⟨op.opcode, some (.addr a), some (.addr b), some (.addr t)⟩) :
      Computes I held (.binary left op right) i (k + 1) t ty

/-- The code from `i` to `j` performs the statement. -/
inductive Performs (I : Image) : Stmt → Nat → Nat → Prop
  | skip {i : Nat} : Performs I .skip i i
  | assign {x : String} {e : Expr} {k : Kind} {i j a b : Nat} {ty : Scalar}
      (value : Computes I [] e i j b ty)
      (address : I.address x = some a) (kind : I.kinds x = some k)
      (type : (Opcode.assign.resultType? k.scalar ty).isSome = true)
      (quad : I.code[j]? = some ⟨.assign, some (.addr b), none, some (.addr a)⟩) :
      Performs I (.assign x e) i (j + 1)
  /-- `x op= e` as `t = x op e; x = t`. -/
  | compound {x : String} {op : Arithmetic} {e : Expr} {k : Kind} {i j a b t : Nat} {tr ty : Scalar}
      (value : Computes I [] e i j b tr) (address : I.address x = some a)
      (kind : I.kinds x = some k) (type : op.opcode.resultType? k.scalar tr = some ty)
      (store : (Opcode.assign.resultType? k.scalar ty).isSome = true) (target : I.IsTemporary t ty)
      (quad : I.code[j]? = some ⟨op.opcode, some (.addr a), some (.addr b), some (.addr t)⟩)
      (last : I.code[j + 1]? = some ⟨.assign, some (.addr t), none, some (.addr a)⟩) :
      Performs I (.compound x op e) i (j + 2)
  | print {e : Expr} {i j a : Nat} {ty : Scalar} (value : Computes I [] e i j a ty)
      (quad : I.code[j]? = some ⟨.print, none, none, some (.addr a)⟩) : Performs I (.print e) i
      (j + 1)
  | ifThen {e : Expr} {body : Stmt} {i j k a : Nat} (condition : Computes I [] e i j a .bool)
      (quad : I.code[j]? = some ⟨.gotoFalse, some (.addr a), none, some (.jump k)⟩)
      (branch : Performs I body (j + 1) k) : Performs I (.ifThen e body) i k
  | ifElse {e : Expr} {body other : Stmt} {i j k l a : Nat}
      (condition : Computes I [] e i j a .bool)
      (quad : I.code[j]? = some ⟨.gotoFalse, some (.addr a), none, some (.jump (k + 1))⟩)
      (branch : Performs I body (j + 1) k)
      (exit : I.code[k]? = some ⟨.goto, none, none, some (.jump l)⟩)
      (otherwise : Performs I other (k + 1) l) : Performs I (.ifElse e body other) i l
  | loop {e : Expr} {body : Stmt} {i j k a : Nat} (condition : Computes I [] e i j a .bool)
      (quad : I.code[j]? = some ⟨.gotoFalse, some (.addr a), none, some (.jump (k + 1))⟩)
      (turn : Performs I body (j + 1) k)
      (back : I.code[k]? = some ⟨.goto, none, none, some (.jump i)⟩) :
      Performs I (.loop e body) i (k + 1)
  | seq {first second : Stmt} {i j k : Nat} (hfirst : Performs I first i j)
      (hsecond : Performs I second j k) :
      Performs I (.seq first second) i k

/-! ## States between two quads -/

/-- The machine is about to execute quad `i`, and its variables hold what the store says. -/
structure At (I : Image) (i : Nat) (σ : Store) (m : Machine) : Prop where
  framed : m.Framed I.sizes I.slots
  quads : m.quads = I.code
  constants : m.constants = I.constants
  holds : ∀ x a, I.address x = some a → m.readSlot a = .ok (σ x)
  typed : ∀ x k v, I.kinds x = some k → σ x = some v → v.scalar = k.scalar
  returns : m.returns = []
  ip : m.ip = i

/-- A slot of type `ty` stands for what an expression is computed to: it holds the value, or is the
variable's. -/
def Denotes (I : Image) (m : Machine) (a : Nat) (ty : Scalar) : Atom → Prop
  | .value v => m.readSlot a = .ok (some v) ∧ v.scalar = ty
  | .var x => I.address x = some a ∧ ∃ k, I.kinds x = some k ∧ ty = k.scalar

variable {I : Image}

theorem IsTemporary.isSlot (h : I.IsTemporary a ty) : IsSlot I.sizes I.slots a ty :=
  .inTemporaries h.located h.counted

theorem IsVariable.isSlot {x : String} {k : Kind} (h : I.IsVariable x k a) :
    IsSlot I.sizes I.slots a k.scalar :=
  .inLocals h.located h.counted

theorem IsVariable.ne_temporary {x : String} {k : Kind} (h : I.IsVariable x k a)
    (ht : I.IsTemporary t ty) : a ≠ t := by
  rintro rfl
  have hrange := h.located.symm.trans ht.located
  rw [Layout.range_ofSizes, Layout.range_ofSizes] at hrange
  cases hrange

/-! ## Single quads -/

theorem readValue_of_readSlot {v : Value} (h : m.readSlot a = .ok (some v)) :
    m.readValue a = .ok v := by
  rw [Machine.readValue, h]
  rfl

theorem readValue_of_empty (h : m.readSlot a = .ok none) :
    m.readValue a = .error (.uninitialized a) := by
  rw [Machine.readValue, h]
  rfl

/-- Reading a slot gives what it stands for, or finds the variable unassigned. -/
theorem At.read (hI : I.Proper) (h : I.At i σ m) (ho : I.Denotes m a ty o) :
    Corresponds I.names (o.read σ) (m.readValue a) ∧ ∀ v, o.read σ = .ok v → v.scalar = ty := by
  cases o with
  | value v =>
    obtain ⟨hread, hty⟩ := ho
    rw [readValue_of_readSlot hread]
    refine ⟨rfl, ?_⟩
    intro w hw
    cases hw
    exact hty
  | var x =>
    obtain ⟨haddress, k, hk, rfl⟩ := ho
    have hread := h.holds x a haddress
    cases hx : σ x with
    | some v =>
      rw [hx] at hread
      have hatom : (Atom.var x).read σ = .ok v := by simp only [Atom.read, hx]
      rw [readValue_of_readSlot hread, hatom]
      refine ⟨rfl, ?_⟩
      intro w hw
      cases hw
      exact h.typed x k v hk hx
    | none =>
      rw [hx] at hread
      have hatom : (Atom.var x).read σ = .error (.unassigned x) := by simp only [Atom.read, hx]
      rw [readValue_of_empty hread, hatom]
      obtain ⟨k', hvariable⟩ := hI x a haddress
      refine ⟨hvariable.named, ?_⟩
      intro w hw
      cases hw

theorem At.quad (h : I.At i σ m) (hq : I.code[i]? = some q) : m.quads[m.ip]? = some q := by
  rw [h.quads, h.ip]
  exact hq

/-- A quad that writes a value to a slot passes to the next quad; other slots keep what they held.
-/
theorem At.write {v w : Value} (h : I.At i σ m) (hq : I.code[i]? = some q) (hroom : m.Room 1)
    (ht : IsSlot I.sizes I.slots t ty) (hw : v.coerce? ty = some w)
    (hdoes : Exec.Does (Exec.execute q) (m.reached q) ((m.reached q).writeSlot t (some v))) :
    ∃ m', m.Passes 1 m' ∧ m'.console = m.console ∧ m'.readSlot t = .ok (some w) ∧
      (∀ b, b ≠ t → m'.readSlot b = m.readSlot b) ∧
      ∀ σ', (∀ x a, I.address x = some a → m'.readSlot a = .ok (σ' x)) →
        (∀ x k u, I.kinds x = some k → σ' x = some u → u.scalar = k.scalar) →
          I.At (i + 1) σ' m' := by
  have hframed : (m.reached q).Framed I.sizes I.slots := ⟨h.framed.layout, h.framed.frame⟩
  obtain ⟨m₁, hwrite, hwrites⟩ := hframed.write ht hw
  rw [hwrite] at hdoes
  obtain ⟨frames, rfl⟩ := hwrites.frames
  have hpass := (Machine.passes_of_execute (h.quad hq) hroom hdoes rfl rfl).1 rfl
  refine ⟨_, hpass, rfl, hwrites.written, hwrites.others, ?_⟩
  intro σ' hσ' htyped
  refine ⟨⟨h.framed.layout, hwrites.framed.frame⟩, h.quads, h.constants, hσ', htyped, h.returns, ?_⟩
  show m.ip + 1 = i + 1
  rw [h.ip]

/-- The machine stops at a quad that faults and changes nothing. -/
theorem At.fault {f : Fault} (h : I.At i σ m) (hq : I.code[i]? = some q) (hroom : m.Room 1)
    (hdoes : Exec.Does (Exec.execute q) (m.reached q) (.error f)) :
    ∃ e m', m.advance = .faulted e m' ∧ e.fault = f ∧ m'.console = m.console :=
  ⟨_, _, Machine.faulted_of_execute (h.quad hq) hroom hdoes, rfl, rfl⟩

theorem Denotes.mono {m' : Machine} (h : I.Denotes m a ty o)
    (hread : m'.readSlot a = m.readSlot a) : I.Denotes m' a ty o := by
  cases o with
  | value v => exact ⟨hread.trans h.1, h.2⟩
  | var x => exact h

/-- The store is as it was after a write to a temporary. -/
theorem At.holds_of_others (hI : I.Proper) {m' : Machine} (h : I.At i σ m) (ht : I.IsTemporary t ty)
    (hothers : ∀ b, b ≠ t → m'.readSlot b = m.readSlot b) (x : String) (a : Nat)
    (ha : I.address x = some a) : m'.readSlot a = .ok (σ x) := by
  obtain ⟨k, hvariable⟩ := hI x a ha
  rw [hothers a (hvariable.ne_temporary ht)]
  exact h.holds x a ha

/-- Read both operands, then apply the operator. -/
def combined (σ : Store) (op : Operator) (left right : Atom) : Except Failure Value := do
  let v ← left.read σ
  let w ← right.read σ
  op.apply v w

theorem combined_eq_ok {op : Operator} {left right : Atom} {r : Value}
    (h : combined σ op left right = .ok r) :
    ∃ v w, left.read σ = .ok v ∧ right.read σ = .ok w ∧ op.apply v w = .ok r := by
  obtain ⟨v, hv, h⟩ := bind_eq_ok h
  obtain ⟨w, hw, h⟩ := bind_eq_ok h
  exact ⟨v, w, hv, hw, h⟩

/-- About to execute quad `i`, with two operands in place. -/
def WithOperands (I : Image) (i : Nat) (σ : Store) (a : Nat) (tl : Scalar) (left : Atom) (b : Nat)
    (tr : Scalar) (right : Atom) (m : Machine) : Prop :=
  I.At i σ m ∧ I.Denotes m a tl left ∧ I.Denotes m b tr right

section

variable {op : Operator} {σ : Store} {i a b t : Nat} {tl tr ty : Scalar} {left right : Atom}

/-- The quad of an operator computes on the machine what the operator means in the source. -/
theorem WithOperands.corresponds (hI : I.Proper) (type : op.opcode.resultType? tl tr = some ty)
    (h : I.WithOperands i σ a tl left b tr right m) :
    Corresponds I.names (combined σ op left right) (do
      let v ← m.readValue a
      let w ← m.readValue b
      op.onMachine (some ty) v w) := by
  obtain ⟨hm, hleft, hright⟩ := h
  obtain ⟨hv, hvty⟩ := hm.read hI hleft
  obtain ⟨hw, hwty⟩ := hm.read hI hright
  refine hv.bind fun v hv => hw.bind fun w hw => ?_
  rw [← hvty v hv, ← hwty w hw] at type
  exact op.corresponds type

theorem WithOperands.does (op : Operator) (target : I.IsTemporary t ty)
    (h : I.WithOperands i σ a tl left b tr right m)
    (hq : q = ⟨op.opcode, some (.addr a), some (.addr b), some (.addr t)⟩) :
    Exec.Does (Exec.execute q) (m.reached q) ((do
      let v ← m.readValue a
      let w ← m.readValue b
      op.onMachine (some ty) v w) >>= fun r => (m.reached q).writeSlot t (some r)) := by
  have hdoes := Exec.does_operator op (m.reached q) a b t
  have htype : (m.reached q).layout.typeOf t = some ty := by
    show (m.layout.locate t).map (·.ty) = some ty
    rw [h.1.framed.layout, target.located, Layout.range_ofSizes]
    rfl
  rw [htype] at hdoes
  rw [hq] at hdoes ⊢
  simp only [bind_assoc]
  exact hdoes

/-- The quad of an operator leaves the result in its temporary, and nothing else changes. -/
theorem reaches_operator (hI : I.Proper) (op : Operator)
    (type : op.opcode.resultType? tl tr = some ty) (target : I.IsTemporary t ty)
    (quad : I.code[i]? = some ⟨op.opcode, some (.addr a), some (.addr b), some (.addr t)⟩)
    {r : Value} (hr : combined σ op left right = .ok r) :
    Machine.Reaches (I.WithOperands i σ a tl left b tr right) (fun m m' =>
      I.At (i + 1) σ m' ∧ m'.readSlot t = .ok (some r) ∧ r.scalar = ty ∧ m'.console = m.console ∧
        ∀ c, c ≠ t → m'.readSlot c = m.readSlot c) := by
  refine ⟨1, fun m hm hroom => ?_⟩
  have hvalue := hm.corresponds hI type
  have hdoes := hm.does op target rfl
  rw [hr] at hvalue
  rw [hvalue.ok] at hdoes
  have hscalar : r.scalar = ty := by
    obtain ⟨v, w, hv, hw, happly⟩ := combined_eq_ok hr
    have hvty := (hm.1.read hI hm.2.1).2 v hv
    have hwty := (hm.1.read hI hm.2.2).2 w hw
    rw [← hvty, ← hwty] at type
    exact op.scalar_of_apply type happly
  have hcoerce : r.coerce? ty = some r := by
    subst hscalar
    cases r <;> rfl
  obtain ⟨m', hpass, hconsole, hread, hothers, hat⟩ :=
    hm.1.write quad hroom target.isSlot hcoerce hdoes
  exact ⟨m', hpass, hat σ (hm.1.holds_of_others hI target hothers) hm.1.typed, hread, hscalar,
    hconsole, hothers⟩

theorem stops_operator (hI : I.Proper) (op : Operator)
    (type : op.opcode.resultType? tl tr = some ty) (target : I.IsTemporary t ty)
    (quad : I.code[i]? = some ⟨op.opcode, some (.addr a), some (.addr b), some (.addr t)⟩)
    {f : Failure} (hf : combined σ op left right = .error f) :
    Machine.Stops (I.WithOperands i σ a tl left b tr right) (fun m fault m' =>
      f.Is I.names fault ∧ m'.console = m.console) := by
  refine ⟨0, fun m hm hroom => ?_⟩
  have hvalue := hm.corresponds hI type
  have hdoes := hm.does op target rfl
  rw [hf] at hvalue
  obtain ⟨fault, hfault, his⟩ := hvalue.error
  rw [hfault] at hdoes
  obtain ⟨e, m', hadvance, he, hconsole⟩ := hm.1.fault quad hroom hdoes
  exact ⟨m, e, m', .refl m, hadvance, he ▸ his, hconsole⟩

end

/-! ## Expressions -/

theorem atom_binary (σ : Store) (left : Expr) (op : Operator) (right : Expr) :
    (Expr.binary left op right).atom σ = (do
      let a ← left.atom σ
      let b ← right.atom σ
      Atom.value <$> combined σ op a b) := by
  simp only [Expr.atom, combined, map_bind, bind_pure_comp]

/-- The code of an expression passes to its end, with the value of the expression in its slot. -/
theorem Computes.reaches (hI : I.Proper) {e : Expr} {j : Nat} (h : I.Computes held e i j a ty)
    (ho : e.atom σ = .ok o) :
    Machine.Reaches (I.At i σ) (fun m m' =>
      I.At j σ m' ∧ I.Denotes m' a ty o ∧ m'.console = m.console ∧
      ∀ c ∈ held, m'.readSlot c = m.readSlot c) := by
  induction h generalizing o with
  | literal located constant =>
    cases ho
    refine Machine.reaches_refl fun m hm => ⟨hm, ⟨?_, rfl⟩, rfl, fun _ _ => rfl⟩
    rw [Machine.readSlot_constant hm.framed.layout located, hm.constants, constant]
  | var address kind =>
    cases ho
    exact Machine.reaches_refl fun m hm => ⟨hm, ⟨address, _, kind, rfl⟩, rfl, fun _ _ => rfl⟩
  | binary hleft hright type target free quad ihleft ihright =>
    rw [atom_binary] at ho
    obtain ⟨oa, hoa, ho⟩ := bind_eq_ok ho
    obtain ⟨ob, hob, ho⟩ := bind_eq_ok ho
    cases hr : combined σ _ oa ob with
    | error f =>
      rw [hr] at ho
      cases ho
    | ok r =>
      rw [hr] at ho
      cases ho
      -- the left operand is held while the right one is computed
      have hboth := (ihleft hoa).trans (fun _ _ _ h => h.1) (ihright hob)
      refine (hboth.trans ?_ (reaches_operator hI _ type target quad hr)).mono (fun _ h => h) ?_
      · rintro m m₂ - ⟨m₁, ⟨-, hleft, -, -⟩, hat, hright, -, hkept⟩
        exact ⟨hat, hleft.mono (hkept _ List.mem_cons_self), hright⟩
      · rintro m m₃ - ⟨m₂, ⟨m₁, ⟨-, -, hconsole₁, hheld₁⟩, -, -, hconsole₂, hheld₂⟩, hat, hread,
          hty, hconsole₃, hothers⟩
        refine ⟨hat, ⟨hread, hty⟩, hconsole₃.trans (hconsole₂.trans hconsole₁), fun c hc => ?_⟩
        rw [hothers c (by rintro rfl; exact free hc), hheld₂ c (List.mem_cons_of_mem _ hc),
          hheld₁ c hc]

/-- The code of an expression that fails stops with its failure. -/
theorem Computes.stops (hI : I.Proper) {e : Expr} {j : Nat} (h : I.Computes held e i j a ty)
    {f : Failure} (hf : e.atom σ = .error f) :
    Machine.Stops (I.At i σ) (fun m fault m' => f.Is I.names fault ∧ m'.console = m.console) := by
  induction h with
  | literal located constant => cases hf
  | var address kind => cases hf
  | binary hleft hright type target free quad ihleft ihright =>
    rw [atom_binary] at hf
    rcases bind_eq_error hf with hf | ⟨oa, hoa, hf⟩
    · exact ihleft hf
    rcases bind_eq_error hf with hf | ⟨ob, hob, hf⟩
    · refine ((hleft.reaches hI hoa).stops (fun _ _ _ h => h.1) (ihright hf)).mono (fun _ h => h) ?_
      rintro m fault m' - ⟨m₁, ⟨-, -, hconsole₁, -⟩, hfault, hconsole₂⟩
      exact ⟨hfault, hconsole₂.trans hconsole₁⟩
    · cases hr : combined σ _ oa ob with
      | ok r =>
        rw [hr] at hf
        cases hf
      | error f' =>
        rw [hr] at hf
        cases hf
        have hboth := (hleft.reaches hI hoa).trans (fun _ _ _ h => h.1) (hright.reaches hI hob)
        refine (hboth.stops ?_ (stops_operator hI _ type target quad hr)).mono (fun _ h => h) ?_
        · rintro m m₂ - ⟨m₁, ⟨-, hleft, -, -⟩, hat, hright, -, hkept⟩
          exact ⟨hat, hleft.mono (hkept _ List.mem_cons_self), hright⟩
        · rintro m fault m' - ⟨m₂, ⟨m₁, ⟨-, -, hconsole₁, -⟩, -, -, hconsole₂, -⟩, hfault,
            hconsole₃⟩
          exact ⟨hfault, hconsole₃.trans (hconsole₂.trans hconsole₁)⟩

end Image

end Source

end Quadruple
