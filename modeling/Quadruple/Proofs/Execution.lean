/-
  What the code of statements does.

  Code that performs a statement follows the interpreter for any amount of fuel
  (`Image.Performs.follows`): where the interpreter ends normally, the machine passes to the end of
  the code with the same store and console; where it fails, the machine stops with the same failure;
  where the fuel runs out, the machine has executed about as many quads as there was fuel.  The
  induction is on the fuel, since a loop is its own remainder:

      loop e s  =  if e then (s; loop e s)
-/
import Quadruple.Proofs.CodeMeaning

namespace Quadruple

variable {m : Machine} {a n j : Nat} {v : Value} {kinds : String → Option Source.Kind} {x : String}
  {f : Source.Failure} {r : Option (Except Source.Failure Source.Store × Console)}

namespace Exec

/-! ## Quads with one operand -/

/-- The quad reads a slot before it does anything else. -/
def ReadsFirst (q : Quad) (a : Nat) : Prop :=
  ∀ (m : Machine) (f : Fault), m.readValue a = .error f → Fails (execute q) m f m

theorem readsFirst_assign (a b : Nat) :
    ReadsFirst ⟨.assign, some (.addr a), none, some (.addr b)⟩ a := by
  intro m f h
  have hdoes := does_assign m a b
  rwa [h] at hdoes

theorem readsFirst_print (a : Nat) : ReadsFirst ⟨.print, none, none, some (.addr a)⟩ a := by
  intro m f h
  exact fails_bind.mpr (Or.inl (fails_ask.mpr ⟨h, rfl⟩))

/-- The condition of a jump is a truth value. -/
theorem readBool_of_readValue {b : Bool} (h : m.readValue a = .ok (.bool b)) :
    m.readBool (some (.addr a)) = .ok b := by
  show (m.readValue a >>= _) = _
  rw [h]
  rfl

/-- The jump is taken if the slot holds no truth. -/
theorem yields_gotoFalse {k : Nat} {b : Bool} (h : m.readValue a = .ok (.bool b)) :
    Yields (execute ⟨.gotoFalse, some (.addr a), none, some (.jump k)⟩) m
      (if b then .next else .jump k) m := by
  refine yields_bind.mpr ⟨b, m, yields_ask.mpr ⟨readBool_of_readValue h, rfl⟩, ?_⟩
  cases b with
  | true => exact yields_pure.mpr ⟨rfl, rfl⟩
  | false => exact yields_pure.mpr ⟨rfl, rfl⟩

theorem readsFirst_gotoFalse (a k : Nat) :
    ReadsFirst ⟨.gotoFalse, some (.addr a), none, some (.jump k)⟩ a := by
  intro m f h
  refine fails_bind.mpr (Or.inl (fails_ask.mpr ⟨?_, rfl⟩))
  show (m.readValue a >>= _) = _
  rw [h]
  rfl

theorem yields_goto (m : Machine) (k : Nat) :
    Yields (execute ⟨.goto, none, none, some (.jump k)⟩) m (.jump k) m := yields_pure.mpr ⟨rfl, rfl⟩

/-- The text of the value and a line feed are written. -/
theorem yields_print {c : Console} (h : m.readValue a = .ok v)
    (hw : m.console.write (Bytes.utf8 v.text ++ [10]) = (.ok (), c)) :
    Yields (execute ⟨.print, none, none, some (.addr a)⟩) m .next { m with console := c } := by
  refine yields_bind.mpr ⟨v, m, yields_ask.mpr ⟨h, rfl⟩,
    yields_bind.mpr ⟨(), { m with console := c }, ?_, ?_⟩⟩
  · rw [writeLine, yields_get_bind]
    dsimp only
    rw [hw, yields_set_bind]
    exact yields_pure.mpr ⟨rfl, rfl⟩
  · exact yields_pure.mpr ⟨rfl, rfl⟩

theorem fails_print {c : Console} {e : ConsoleError} (h : m.readValue a = .ok v)
    (hw : m.console.write (Bytes.utf8 v.text ++ [10]) = (.error e, c)) :
    Fails (execute ⟨.print, none, none, some (.addr a)⟩) m (.console e)
      { m with console := c } := by
  refine fails_bind.mpr (Or.inr ⟨v, m, yields_ask.mpr ⟨h, rfl⟩, fails_bind.mpr (Or.inl ?_)⟩)
  rw [writeLine, fails_get_bind]
  dsimp only
  rw [hw, fails_set_bind]
  exact fails_throw.mpr ⟨rfl, rfl⟩

end Exec

namespace Source

variable {b : Nat}

/-! ## Stores -/

/-- A value fits a slot when the type rules allow the assignment. -/
theorem coerce?_of_resultType {ty : Scalar}
    (h : (Opcode.assign.resultType? ty v.scalar).isSome = true) : ∃ w, v.coerce? ty = some w := by
  cases ty <;> cases v <;> first
    | exact ⟨_, rfl⟩
    | cases h

theorem put_eq_ok {σ σ' : Store} {k : Kind} (hk : kinds x = some k) (h : σ.put kinds x v = .ok σ') :
    ∃ w, v.coerce? k.scalar = some w ∧ σ' = σ.assign x w := by
  rw [Store.put, hk] at h
  dsimp only at h
  rw [Kind.stored_eq] at h
  cases hw : v.coerce? k.scalar with
  | none =>
    rw [hw] at h
    cases h
  | some w =>
    rw [hw] at h
    cases h
    exact ⟨w, rfl, rfl⟩

theorem put_eq_error {σ : Store} {k : Kind} (hk : kinds x = some k)
    (h : σ.put kinds x v = .error f) : v.coerce? k.scalar = none := by
  rw [Store.put, hk] at h
  dsimp only at h
  rw [Kind.stored_eq] at h
  cases hw : v.coerce? k.scalar with
  | none => rfl
  | some w =>
    rw [hw] at h
    cases h

namespace Image

variable {I : Image} {σ : Store} {c : Console} {e : Expr} {i j a : Nat} {ty : Scalar}

/-- About to execute quad `i`, with this console. -/
def Ready (I : Image) (i : Nat) (σ : Store) (c : Console) (m : Machine) : Prop :=
  I.At i σ m ∧ m.console = c

/-- The fault is this failure, and this is the console at that moment. -/
def Ended (I : Image) (f : Failure) (c : Console) : Machine → Fault → Machine → Prop :=
  fun _ fault m' =>
  f.Is I.names fault ∧ m'.console = c

/-! ## An expression and the quad that reads it -/

/-- Code of an expression reaches its value in the slot. -/
theorem Computes.reaches_value (hI : I.Proper) (h : I.Computes [] e i j a ty)
    (hv : e.eval σ = .ok v) :
    Machine.Reaches (I.Ready i σ c) (fun _ m' => I.Ready j σ c m' ∧ m'.readValue a = .ok v ∧
      v.scalar = ty) := by
  obtain ⟨o, ho, hread⟩ := bind_eq_ok hv
  refine (h.reaches hI ho).mono (fun m hm => hm.1) ?_
  rintro m m' ⟨-, hconsole⟩ ⟨hat, hdenotes, hsame, -⟩
  obtain ⟨hcorresponds, hty⟩ := hat.read hI hdenotes
  rw [hread] at hcorresponds
  exact ⟨⟨hat, hsame.trans hconsole⟩, hcorresponds.ok, hty v hread⟩

/-- The failure of an expression is met in its code, or by the quad that reads its value. -/
theorem Computes.stops_value (hI : I.Proper) (h : I.Computes [] e i j a ty) {q : Quad}
    (hq : I.code[j]? = some q) (hreads : Exec.ReadsFirst q a) (hf : e.eval σ = .error f) :
    Machine.Stops (I.Ready i σ c) (I.Ended f c) := by
  rcases bind_eq_error hf with hf | ⟨o, ho, hread⟩
  · refine (h.stops hI hf).mono (fun m hm => hm.1) ?_
    rintro m fault m' ⟨-, hconsole⟩ ⟨hfault, hsame⟩
    exact ⟨hfault, hsame.trans hconsole⟩
  · have hstops : Machine.Stops (fun m => I.At j σ m ∧ I.Denotes m a ty o)
        (fun m fault m' => f.Is I.names fault ∧ m'.console = m.console) := by
      refine ⟨0, fun m hm hroom => ?_⟩
      obtain ⟨hcorresponds, -⟩ := hm.1.read hI hm.2
      rw [hread] at hcorresponds
      obtain ⟨fault, hfault, his⟩ := hcorresponds.error
      exact ⟨m, _, _, .refl m,
        Machine.faulted_of_execute (hm.1.quad hq) hroom (hreads (m.reached q) fault hfault),
        his, rfl⟩
    refine ((h.reaches hI ho).stops (fun _ _ _ h => ⟨h.1, h.2.1⟩) hstops).mono (fun m hm => hm.1) ?_
    rintro m fault m' ⟨-, hconsole⟩ ⟨m₁, ⟨-, -, hsame, -⟩, hfault, hsame'⟩
    exact ⟨hfault, hsame'.trans (hsame.trans hconsole)⟩

/-! ## Jumps -/

/-- A quad that only moves the instruction pointer. -/
theorem At.moves (h : I.At i σ m) (q : Quad) (j : Nat) : I.At j σ { m.reached q with ip := j } :=
  ⟨⟨h.framed.layout, h.framed.frame⟩, h.quads, h.constants, h.holds, h.typed, h.returns, rfl⟩

theorem passes_goto (hq : I.code[i]? = some ⟨.goto, none, none, some (.jump j)⟩) (m : Machine)
    (hm : I.Ready i σ c m) (hroom : m.Room 1) : ∃ m', m.Passes 1 m' ∧ I.Ready j σ c m' := by
  have hpass :=
    (Machine.passes_of_execute (hm.1.quad hq) hroom (Exec.yields_goto _ j) rfl rfl).2 j rfl
  exact ⟨_, hpass, hm.1.moves _ j, hm.2⟩

theorem reaches_goto (hq : I.code[i]? = some ⟨.goto, none, none, some (.jump j)⟩) :
    Machine.Reaches (I.Ready i σ c) (fun _ m' => I.Ready j σ c m') := ⟨1, passes_goto hq⟩

/-- The code of a condition and its jump lead into the branch or past it. -/
theorem Computes.reaches_branch (hI : I.Proper) (h : I.Computes [] e i j a .bool) {k : Nat}
    (hq : I.code[j]? = some ⟨.gotoFalse, some (.addr a), none, some (.jump k)⟩) {b : Bool}
    (hb : e.test σ = .ok b) :
    Machine.Reaches (I.Ready i σ c) (fun _ m' => I.Ready (if b then j + 1 else k) σ c m') := by
  obtain ⟨v, hv, hb⟩ := bind_eq_ok hb
  have hbool : v = .bool b := by
    cases v with
    | bool b' =>
      cases hb
      rfl
    | _ => cases hb
  subst hbool
  have hjump : Machine.Reaches (fun m => I.Ready j σ c m ∧ m.readValue a = .ok (.bool b))
      (fun _ m' => I.Ready (if b then j + 1 else k) σ c m') := by
    refine ⟨1, fun m hm hroom => ?_⟩
    have hpass :=
      Machine.passes_of_execute (hm.1.1.quad hq) hroom (Exec.yields_gotoFalse hm.2) rfl rfl
    cases b with
    | true =>
      refine ⟨_, hpass.1 rfl, ?_, hm.1.2⟩
      have hat := hm.1.1.moves ⟨.gotoFalse, some (.addr a), none, some (.jump k)⟩ (j + 1)
      rw [← hm.1.1.ip] at hat ⊢
      exact hat
    | false => exact ⟨_, hpass.2 k rfl, hm.1.1.moves _ k, hm.1.2⟩
  exact ((h.reaches_value hI hv).trans (fun _ _ _ h => ⟨h.1, h.2.1⟩) hjump).mono (fun _ h => h)
    fun _ _ _ ⟨_, _, h⟩ => h

theorem Computes.stops_branch (hI : I.Proper) (h : I.Computes [] e i j a .bool) {k : Nat}
    (hq : I.code[j]? = some ⟨.gotoFalse, some (.addr a), none, some (.jump k)⟩)
    (hf : e.test σ = .error f) : Machine.Stops (I.Ready i σ c) (I.Ended f c) := by
  rcases bind_eq_error hf with hf | ⟨v, hv, hf⟩
  · exact h.stops_value hI hq (Exec.readsFirst_gotoFalse a k) hf
  · -- a condition is a truth value
    refine (h.reaches_value hI hv).absurd (fun m m' hm => ?_)
    obtain ⟨-, -, hty⟩ := hm
    cases v with
    | bool b => cases hf
    | _ => cases hty

/-! ## Assignments and output -/

/-- The store after a write to the slot of a variable. -/
theorem At.assigned (hI : I.Proper) {m' : Machine} {w : Value} (h : I.At i σ m)
    (ha : I.address x = some a) (hw : m'.readSlot a = .ok (some w))
    (hothers : ∀ b, b ≠ a → m'.readSlot b = m.readSlot b) (y : String) (b : Nat)
    (hb : I.address y = some b) : m'.readSlot b = .ok (σ.assign x w y) := by
  obtain ⟨k, hx⟩ := hI x a ha
  obtain ⟨k', hy⟩ := hI y b hb
  unfold Store.assign
  by_cases hyx : y = x
  · subst hyx
    rw [ha] at hb
    cases hb
    rw [if_pos rfl]
    exact hw
  · have hne : b ≠ a := by
      rintro rfl
      have hname := hx.named.symm.trans hy.named
      exact hyx (Option.some.inj hname).symm
    rw [if_neg hyx, hothers b hne]
    exact h.holds y b hb

/-- An assignment stores what the variable can hold. -/
theorem reaches_store (hI : I.Proper) {k : Kind} {w : Value} (ha : I.address x = some a)
    (hk : I.kinds x = some k) (hw : v.coerce? k.scalar = some w)
    (hq : I.code[j]? = some ⟨.assign, some (.addr b), none, some (.addr a)⟩) :
    Machine.Reaches (fun m => I.Ready j σ c m ∧ m.readValue b = .ok v)
      (fun _ m' => I.Ready (j + 1) (σ.assign x w) c m') := by
  refine ⟨1, fun m hm hroom => ?_⟩
  obtain ⟨⟨hat, hconsole⟩, hread⟩ := hm
  obtain ⟨k', hvariable⟩ := hI x a ha
  obtain rfl : k' = k := Option.some.inj (hvariable.kind.symm.trans hk)
  have hdoes := Exec.does_assign (m.reached ⟨.assign, some (.addr b), none, some (.addr a)⟩) b a
  have hread' : (m.reached ⟨.assign, some (.addr b), none, some (.addr a)⟩).readValue b = .ok v :=
    hread
  rw [hread'] at hdoes
  obtain ⟨m', hpass, hsame, hwritten, hothers, hnext⟩ :=
    hat.write hq hroom hvariable.isSlot hw hdoes
  refine ⟨m', hpass, hnext _ (hat.assigned hI ha hwritten hothers) ?_, hsame.trans hconsole⟩
  intro y l u hl hu
  unfold Store.assign at hu
  split at hu
  · rename_i hyx
    subst hyx
    cases hu
    rw [hk] at hl
    cases hl
    exact Value.scalar_of_coerce? hw
  · exact hat.typed y l u hl hu

/-- From quad `i` on, the machine does what a run of the interpreter did: it gets to quad `j`,
stops, or goes on for at least `n` steps when the fuel ran out. -/
def Follows (I : Image) (i : Nat) (σ : Store) (c : Console) (j n : Nat) :
    Option (Except Failure Store × Console) → Prop
  | some (.ok σ', c') => Machine.Reaches (I.Ready i σ c) (fun _ m' => I.Ready j σ' c' m')
  | some (.error f, c') => Machine.Stops (I.Ready i σ c) (I.Ended f c')
  | none => Machine.Lasts n (I.Ready i σ c)

/-- The code of an assignment follows it. -/
theorem follows_assign (hI : I.Proper) {k : Kind} (value : I.Computes [] e i j b ty)
    (address : I.address x = some a) (kind : I.kinds x = some k)
    (type : (Opcode.assign.resultType? k.scalar ty).isSome = true)
    (quad : I.code[j]? = some ⟨.assign, some (.addr b), none, some (.addr a)⟩) :
    I.Follows i σ c (j + 1) n (some (e.eval σ >>= σ.put I.kinds x, c)) := by
  cases hresult : e.eval σ >>= σ.put I.kinds x with
  | error f =>
    rcases bind_eq_error hresult with hf | ⟨v, hv, hf⟩
    · exact value.stops_value hI quad (Exec.readsFirst_assign b a) hf
    · -- a value of a type that can be assigned can be stored
      refine (value.reaches_value hI hv).absurd (fun m m' hm => ?_)
      obtain ⟨-, -, rfl⟩ := hm
      obtain ⟨w, hw⟩ := coerce?_of_resultType type
      rw [put_eq_error kind hf] at hw
      cases hw
  | ok σ' =>
    obtain ⟨v, hv, hput⟩ := bind_eq_ok hresult
    obtain ⟨w, hw, rfl⟩ := put_eq_ok kind hput
    exact ((value.reaches_value hI hv).trans (fun _ _ _ h => ⟨h.1, h.2.1⟩)
      (reaches_store hI address kind hw quad)).mono
      (fun _ h => h) fun _ _ _ ⟨_, _, h⟩ => h

theorem eval_compound (σ : Store) (x : String) (op : Arithmetic) (e : Expr) :
    (Expr.binary (.var x) (.arithmetic op) e).eval σ = (do
      let b ← e.atom σ
      combined σ (.arithmetic op) (.var x) b) := by
  rw [Expr.eval, atom_binary]
  show ((e.atom σ >>= fun b => Atom.value <$> combined σ (.arithmetic op) (.var x) b) >>= fun o =>
      o.read σ) = _
  cases e.atom σ with
  | error f => rfl
  | ok b =>
    show (Atom.value <$> combined σ (.arithmetic op) (.var x) b >>= fun o => o.read σ) =
      combined σ (.arithmetic op) (.var x) b
    cases combined σ (.arithmetic op) (.var x) b with
    | error f => rfl
    | ok r => rfl

/-- A variable and the value of an expression, in place for an operator. -/
theorem Computes.reaches_operands (hI : I.Proper) {k : Kind} (value : I.Computes [] e i j b ty)
    (address : I.address x = some a) (kind : I.kinds x = some k) {o : Atom}
    (ho : e.atom σ = .ok o) :
    Machine.Reaches (I.Ready i σ c) (fun _ m' => I.WithOperands j σ a k.scalar (.var x) b ty o m' ∧
      m'.console = c) := by
  refine (value.reaches hI ho).mono (fun m hm => hm.1) ?_
  rintro m m' ⟨-, hconsole⟩ ⟨hat, hdenotes, hsame, -⟩
  exact ⟨⟨hat, ⟨address, k, kind, rfl⟩, hdenotes⟩, hsame.trans hconsole⟩

/-- So does that of a compound assignment, by way of a temporary. -/
theorem follows_compound (hI : I.Proper) {op : Arithmetic} {k : Kind} {t : Nat} {tr : Scalar}
    (value : I.Computes [] e i j b tr) (address : I.address x = some a) (kind : I.kinds x = some k)
    (type : op.opcode.resultType? k.scalar tr = some ty)
    (store : (Opcode.assign.resultType? k.scalar ty).isSome = true) (target : I.IsTemporary t ty)
    (quad : I.code[j]? = some ⟨op.opcode, some (.addr a), some (.addr b), some (.addr t)⟩)
    (last : I.code[j + 1]? = some ⟨.assign, some (.addr t), none, some (.addr a)⟩) :
    I.Follows i σ c (j + 2) n
      (some ((Expr.binary (.var x) (.arithmetic op) e).eval σ >>= σ.put I.kinds x, c)) := by
  rw [eval_compound]
  -- the result of the operator, in its temporary
  have hcomputed : ∀ o r, e.atom σ = .ok o → combined σ (.arithmetic op) (.var x) o = .ok r →
      Machine.Reaches (I.Ready i σ c)
        (fun _ m' => (I.Ready (j + 1) σ c m' ∧ m'.readValue t = .ok r) ∧ r.scalar = ty) := by
    intro o r ho hr
    refine ((value.reaches_operands hI address kind ho).trans (fun _ _ _ h => h.1)
      (reaches_operator hI (.arithmetic op) type target quad hr)).mono (fun _ h => h) ?_
    rintro m m' - ⟨m₁, ⟨-, hconsole⟩, hat, hread, hty, hsame, -⟩
    exact ⟨⟨⟨hat, hsame.trans hconsole⟩, readValue_of_readSlot hread⟩, hty⟩
  cases hresult : (do let o ← e.atom σ; combined σ (.arithmetic op) (.var x) o) >>= σ.put I.kinds
    x with
  | error f =>
    rcases bind_eq_error hresult with hf | ⟨r, hr, hf⟩
    · rcases bind_eq_error hf with hf | ⟨o, ho, hf⟩
      · refine (value.stops hI hf).mono (fun m hm => hm.1) ?_
        rintro m fault m' ⟨-, hconsole⟩ ⟨hfault, hsame⟩
        exact ⟨hfault, hsame.trans hconsole⟩
      · refine ((value.reaches_operands hI address kind ho).stops (fun _ _ _ h => h.1)
          (stops_operator hI (.arithmetic op) type target quad hf)).mono (fun _ h => h) ?_
        rintro m fault m' - ⟨m₁, ⟨-, hconsole⟩, hfault, hsame⟩
        exact ⟨hfault, hsame.trans hconsole⟩
    · obtain ⟨o, ho, hr⟩ := bind_eq_ok hr
      refine (hcomputed o r ho hr).absurd (fun m m' hm => ?_)
      obtain ⟨-, rfl⟩ := hm
      obtain ⟨w, hw⟩ := coerce?_of_resultType store
      rw [put_eq_error kind hf] at hw
      cases hw
  | ok σ' =>
    obtain ⟨r, hr, hput⟩ := bind_eq_ok hresult
    obtain ⟨o, ho, hr⟩ := bind_eq_ok hr
    obtain ⟨w, hw, rfl⟩ := put_eq_ok kind hput
    exact ((hcomputed o r ho hr).trans (fun _ _ _ h => h.1)
      (reaches_store hI address kind hw last)).mono
      (fun _ h => h) fun _ _ _ ⟨_, _, h⟩ => h

/-- The code of `print` follows it on the console. -/
theorem follows_print (hI : I.Proper) (value : I.Computes [] e i j a ty)
    (quad : I.code[j]? = some ⟨.print, none, none, some (.addr a)⟩) (hv : e.eval σ = .ok v) :
    I.Follows i σ c (j + 1) n (some ((fun _ => σ) <$> (printed c v).1, (printed c v).2)) := by
  have hvalue := value.reaches_value (c := c) hI hv
  unfold printed
  cases hwrite : c.write (Bytes.utf8 v.text ++ [10]) with
  | mk result c' =>
    cases result with
    | ok u =>
      have hprint : Machine.Reaches (fun m => I.Ready j σ c m ∧ m.readValue a = .ok v)
          (fun _ m' => I.Ready (j + 1) σ c' m') := by
        refine ⟨1, fun m hm hroom => ?_⟩
        obtain ⟨⟨hat, hconsole⟩, hread⟩ := hm
        subst hconsole
        have hyields :=
          Exec.yields_print (m := m.reached ⟨.print, none, none, some (.addr a)⟩) hread hwrite
        have hpass := (Machine.passes_of_execute (hat.quad quad) hroom hyields rfl rfl).1 rfl
        refine ⟨_, hpass, ⟨⟨hat.framed.layout, hat.framed.frame⟩, hat.quads, hat.constants,
          hat.holds, hat.typed, hat.returns, ?_⟩, rfl⟩
        show m.ip + 1 = j + 1
        rw [hat.ip]
      exact (hvalue.trans (fun _ _ _ h => ⟨h.1, h.2.1⟩) hprint).mono (fun _ h => h)
        fun _ _ _ ⟨_, _, h⟩ => h
    | error d =>
      have hprint :
          Machine.Stops (fun m => I.Ready j σ c m ∧ m.readValue a = .ok v)
            (I.Ended (.output d) c') := by
        refine ⟨0, fun m hm hroom => ?_⟩
        obtain ⟨⟨hat, hconsole⟩, hread⟩ := hm
        subst hconsole
        have hfails :=
          Exec.fails_print (m := m.reached ⟨.print, none, none, some (.addr a)⟩) hread hwrite
        exact ⟨m, _, _, .refl m, Machine.faulted_of_execute (hat.quad quad) hroom hfails, rfl, rfl⟩
      exact (hvalue.stops (fun _ _ _ h => ⟨h.1, h.2.1⟩) hprint).mono (fun _ h => h)
        fun _ _ _ _ ⟨_, _, h⟩ => h

/-! ## Statements -/

/-- How deep statements are nested. -/
def depth : Stmt → Nat
  | .ifThen _ body => depth body + 1
  | .ifElse _ body other => max (depth body) (depth other) + 1
  | .loop _ body => depth body + 1
  | .seq first second => max (depth first) (depth second) + 1
  | _ => 0

/-- Code that leads to code that follows a run follows the run. -/
theorem Follows.after {i₀ n₀ : Nat} {σ₀ : Store} {c₀ : Console}
    (h : Machine.Reaches (I.Ready i₀ σ₀ c₀) (fun _ m' => I.Ready i σ c m'))
    (hr : I.Follows i σ c j n r) (hn : n₀ ≤ n) : I.Follows i₀ σ₀ c₀ j n₀ r := by
  match r with
  | some (.ok σ', c') =>
    exact (h.trans (fun _ _ _ h => h) hr).mono (fun _ h => h) fun _ _ _ ⟨_, _, h⟩ => h
  | some (.error f, c') =>
    exact (h.stops (fun _ _ _ h => h) hr).mono (fun _ h => h) fun _ _ _ _ ⟨_, _, h⟩ => h
  | none => exact (h.lasts (fun _ _ _ h => h) hr).mono hn

/-- A run that did not end normally is followed to wherever. -/
theorem Follows.ended {j' n' : Nat} (h : I.Follows i σ c j n r)
    (hr : ∀ σ' c', r ≠ some (.ok σ', c')) (hn : n' ≤ n) : I.Follows i σ c j' n' r := by
  match r with
  | some (.ok σ', c') => exact (hr σ' c' rfl).elim
  | some (.error f, c') => exact h
  | none => exact Machine.Lasts.mono h hn

/-- A jump at the end of the code moves the end. -/
theorem Follows.goto {k : Nat} (h : I.Follows i σ c j n r)
    (hq : I.code[j]? = some ⟨.goto, none, none, some (.jump k)⟩) : I.Follows i σ c k n r := by
  match r with
  | some (.ok σ', c') =>
    exact (Machine.Reaches.trans h (fun _ _ _ h => h) (reaches_goto hq)).mono (fun _ h => h)
      fun _ _ _ ⟨_, _, h⟩ => h
  | some (.error f, c') => exact h
  | none => exact h

/-- A jump in front of the code is one more step. -/
theorem Follows.after_goto {i₀ : Nat} (hq : I.code[i₀]? = some ⟨.goto, none, none, some (.jump i)⟩)
    (h : I.Follows i σ c j n r) : I.Follows i₀ σ c j (n + 1) r := by
  match r with
  | some (.ok σ', c') => exact Follows.after (n := n + 1) (reaches_goto hq) h (Nat.le_refl _)
  | some (.error f, c') => exact Follows.after (n := n + 1) (reaches_goto hq) h (Nat.le_refl _)
  | none => exact Machine.lasts_succ (passes_goto hq) h

/-- **Code follows the source.** The machine does what the interpreter did, however much fuel that
had. -/
theorem Performs.follows (hI : I.Proper) (fuel : Nat) {s : Stmt} {i : Nat} (h : I.Performs s i j)
    (σ : Store) (c : Console) : I.Follows i σ c j (fuel - depth s) (s.exec I.kinds fuel σ c) := by
  induction fuel generalizing s i j σ c with
  | zero => exact ⟨0, by omega, fun m _ _ => ⟨m, .refl m⟩⟩
  | succ fuel ih =>
    cases h with
    | skip => exact Machine.reaches_refl fun m hm => hm
    | assign value address kind type quad => exact follows_assign hI value address kind type quad
    | compound value address kind type store target quad last =>
      exact follows_compound hI value address kind type store target quad last
    | print value quad =>
      unfold Stmt.exec
      dsimp only
      split
      · rename_i f hf
        exact value.stops_value hI quad (Exec.readsFirst_print _) hf
      · rename_i v hv
        exact follows_print hI value quad hv
    | ifThen condition quad branch =>
      unfold Stmt.exec
      dsimp only
      split
      · rename_i f hf
        exact condition.stops_branch hI quad hf
      · rename_i hb
        exact (ih branch σ c).after (condition.reaches_branch hI quad hb)
          (by simp only [depth]; omega)
      · rename_i hb
        exact condition.reaches_branch hI quad hb
    | ifElse condition quad branch exit otherwise =>
      unfold Stmt.exec
      dsimp only
      split
      · rename_i f hf
        exact condition.stops_branch hI quad hf
      · rename_i hb
        exact ((ih branch σ c).goto exit).after (condition.reaches_branch hI quad hb)
          (by simp only [depth]; omega)
      · rename_i hb
        exact (ih otherwise σ c).after (condition.reaches_branch hI quad hb)
          (by simp only [depth]; omega)
    | loop condition quad turn back =>
      unfold Stmt.exec
      dsimp only
      split
      · rename_i f hf
        exact condition.stops_branch hI quad hf
      · rename_i hb
        exact condition.reaches_branch hI quad hb
      · rename_i hb
        have henter := condition.reaches_branch (c := c) hI quad hb
        have hturn := ih turn σ c
        split
        · -- one turn, and the loop again with what it left
          rename_i σ' c' hbody
          rw [hbody] at hturn
          have hagain := (ih (.loop condition quad turn back) σ' c').after_goto back
          have hthrough : Machine.Reaches (I.Ready _ σ c) (fun _ m' => I.Ready _ σ' c' m') :=
            (henter.trans (fun _ _ _ h => h) hturn).mono (fun _ h => h) fun _ _ _ ⟨_, _, h⟩ => h
          exact hagain.after hthrough (by simp only [depth]; omega)
        · rename_i hended
          exact (hturn.ended (fun σ' c' h => hended σ' c' h) (Nat.le_refl _)).after henter
            (by simp only [depth]; omega)
    | seq hfirst hsecond =>
      unfold Stmt.exec
      dsimp only
      have hstart := ih hfirst σ c
      split
      · rename_i σ' c' hdone
        rw [hdone] at hstart
        exact (ih hsecond σ' c').after hstart (by simp only [depth]; omega)
      · rename_i hended
        exact hstart.ended (fun σ' c' h => hended σ' c' h) (by simp only [depth]; omega)

end Image

end Source

end Quadruple
