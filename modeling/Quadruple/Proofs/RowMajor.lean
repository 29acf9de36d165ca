/-
  Code that finds the element of an array.

  The elements of an array follow one another row by row, so the place of an element is a sum with
  one term for each index (`rowMajor`):

      place  =  Σₖ iₖ · dₖ₊₁ · dₖ₊₂ · … · dₙ

  Different elements have different places, and all places lie below the number of
  elements.

  `Folds` says which quads compute that place: for each index a check against the size of its
  dimension, a product with the constant for its stride, and a sum with the terms before it.  Such
  code does what it says (`Folds.run`): it passes through with the place in a slot when every index
  is in range, and else stops at the check of the first one that is not.  What carries the induction
  is that the terms so far and all elements behind them together stay within the number of elements,
  so no product and no sum overflows.
-/
import Quadruple.Proofs.CodeMeaning
import Quadruple.Proofs.Inventory
import Quadruple.Proofs.ObjectBlocks

namespace Quadruple

variable {dims indices : List Nat} {d t n o n' x a y c n₁ term : Nat}
  {constants : Table Nat Constant} {s m m₁ m' : Machine} {offset stride : Option Nat}
  {pairs : List (Dimension × Nat)} {op : Opcode} {q : Quad} {v : Value}

open Compile (elementCount)

/-! ## Places of elements -/

/-- The place of an element among all elements of an array. -/
def rowMajor : List Nat → List Nat → Nat
  | _ :: later, i :: rest => i * elementCount later + rowMajor later rest
  | _, _ => 0

theorem rowMajor_lt (h : List.Forall₂ (· < ·) indices dims) :
    rowMajor dims indices < elementCount dims := by
  induction h with
  | nil => exact Nat.one_pos
  | @cons i d rest later hi _ ih =>
    calc i * elementCount later + rowMajor later rest
        < i * elementCount later + elementCount later := Nat.add_lt_add_left ih _
      _ = (i + 1) * elementCount later := (Nat.succ_mul _ _).symm
      _ ≤ d * elementCount later := Nat.mul_le_mul_right _ hi

theorem rowMajor_injective {indices' : List Nat} (h : List.Forall₂ (· < ·) indices dims)
    (h' : List.Forall₂ (· < ·) indices' dims)
    (heq : rowMajor dims indices = rowMajor dims indices') : indices = indices' := by
  induction h generalizing indices' with
  | nil =>
    cases h'
    rfl
  | @cons i d rest later _ hrest ih =>
    cases h' with
    | @cons i' _ rest' _ _ hrest' =>
      have hlt := rowMajor_lt hrest
      have hlt' := rowMajor_lt hrest'
      simp only [rowMajor] at heq
      -- the index is the quotient and the rest the remainder by the number of elements skipped
      have hpos : 0 < elementCount later := Nat.lt_of_le_of_lt (Nat.zero_le _) hlt
      have hdiv := congrArg (· / elementCount later) heq
      have hmod := congrArg (· % elementCount later) heq
      simp only [Nat.mul_comm _ (elementCount later), Nat.mul_add_div hpos, Nat.div_eq_of_lt hlt,
        Nat.div_eq_of_lt hlt', Nat.mul_add_mod, Nat.mod_eq_of_lt hlt,
        Nat.mod_eq_of_lt hlt'] at hdiv hmod
      rw [ih hrest' hmod]
      congr 1

/-- The index is one of a dimension of this size. -/
def InRange (i : Int64) (size : Nat) : Prop := 0 ≤ i.toInt ∧ i.toInt < size

instance (i : Int64) (size : Nat) : Decidable (InRange i size) :=
  inferInstanceAs (Decidable (_ ∧ _))

theorem lt_of_inRange {i : Int64} (h : InRange i d) : i.toInt.toNat < d := by
  have hlo := h.1
  have hhi := h.2
  omega

/-- The elements before a row and in it are no more than those of all rows. -/
theorem mul_add_le {i : Int64} (h : InRange i d) (y : Nat) : i.toInt.toNat * y + y ≤ d * y := by
  rw [← Nat.succ_mul]
  exact Nat.mul_le_mul_right y (lt_of_inRange h)

/-- The first index that is out of range, with the size of its dimension. -/
def outOfRange? (values : List Int64) (dims : List Nat) : Option (Int64 × Nat) :=
  (values.zip dims).find? fun x => !decide (InRange x.1 x.2)

/-- Indices as numbers. -/
def ordinals (values : List Int64) : List Nat := values.map fun i => i.toInt.toNat

theorem outOfRange?_cons_of_inRange {i : Int64} (h : InRange i d) (values : List Int64)
    (dims : List Nat) : outOfRange? (i :: values) (d :: dims) = outOfRange? values dims := by
  unfold outOfRange?
  rw [List.zip_cons_cons, List.find?_cons_of_neg (by simpa using h)]

theorem outOfRange?_cons_of_not {i : Int64} (h : ¬ InRange i d) (values : List Int64)
    (dims : List Nat) : outOfRange? (i :: values) (d :: dims) = some (i, d) := by
  rw [outOfRange?, List.zip_cons_cons, List.find?_cons_of_pos (by simpa using h)]

/-- With an index for each dimension and none out of range, they are the indices of an element. -/
theorem ordinals_lt {values : List Int64} (hlength : values.length = dims.length)
    (h : outOfRange? values dims = none) : List.Forall₂ (· < ·) (ordinals values) dims := by
  induction values generalizing dims with
  | nil =>
    rw [List.eq_nil_of_length_eq_zero hlength.symm]
    exact .nil
  | cons i rest ih =>
    cases dims with
    | nil => cases hlength
    | cons d later =>
      by_cases hi : InRange i d
      · rw [outOfRange?_cons_of_inRange hi] at h
        exact .cons (lt_of_inRange hi) (ih (Nat.succ.inj hlength) h)
      · rw [outOfRange?_cons_of_not hi] at h
        cases h

/-- Indices in range are told apart by their numbers. -/
theorem ordinals_injective {values values' : List Int64} (hlength : values.length = dims.length)
    (hlength' : values'.length = dims.length) (h : outOfRange? values dims = none)
    (h' : outOfRange? values' dims = none) (heq : ordinals values = ordinals values') :
    values = values' := by
  induction values generalizing values' dims with
  | nil =>
    cases values' with
    | nil => rfl
    | cons => cases heq
  | cons i rest ih =>
    cases values' with
    | nil => cases heq
    | cons i' rest' =>
      cases dims with
      | nil => cases hlength
      | cons d later =>
        by_cases hi : InRange i d
        · by_cases hi' : InRange i' d
          · rw [outOfRange?_cons_of_inRange hi] at h
            rw [outOfRange?_cons_of_inRange hi'] at h'
            obtain ⟨hhead, htail⟩ := List.cons.inj heq
            have hsame : i.toInt = i'.toInt := by
              have hlo := hi.1
              have hlo' := hi'.1
              dsimp only at hhead
              omega
            rw [Int64.toInt_inj.mp hsame,
              ih (Nat.succ.inj hlength) (Nat.succ.inj hlength') h h' htail]
          · rw [outOfRange?_cons_of_not hi'] at h'
            cases h'
        · rw [outOfRange?_cons_of_not hi] at h
          cases h

/-! ## Dimensions -/

/-- Behind every dimension there is at least one element. -/
theorem Describes.elementCount_pos {ds : List Dimension} (h : Describes constants ds) :
    0 < elementCount (ds.map (·.size)) := by
  induction h with
  | nil => exact Nat.one_pos
  | last pos _ _ => exact Nat.mul_pos pos Nat.one_pos
  | cons pos _ _ _ _ ih => exact Nat.mul_pos pos ih

/-- What the constants say of the first dimension. -/
theorem Describes.first {d : Dimension} {later : List Dimension}
    (h : Describes constants (d :: later)) :
    0 < d.size ∧ HasValue constants d.sizeConstant (.int (Int64.ofInt d.size)) ∧
      (∀ c, d.strideConstant = some c →
        HasValue constants c (.int (Int64.ofInt (elementCount (later.map (·.size)))))) ∧
      (d.strideConstant = none → elementCount (later.map (·.size)) = 1) ∧
      Describes constants later := by
  cases h with
  | last pos size stride =>
    refine ⟨pos, size, ?_, fun _ => rfl, .nil⟩
    intro c hc
    rw [stride] at hc
    cases hc
  | cons pos size stride_eq product rest =>
    refine ⟨pos, size, ?_, ?_, rest⟩
    · intro c hc
      cases stride_eq.symm.trans hc
      exact product
    · intro hnone
      rw [stride_eq] at hnone
      cases hnone

/-! ## Single quads -/

namespace Machine

/-- The slot holds the value, and it is no temporary. -/
structure Holds (sizes : Sizes) (s : Machine) (a : Nat) (v : Value) : Prop where
  settled : ¬ Temporary sizes a
  read : s.readSlot a = .ok (some v)

/-- So many steps lead from one state to another, and none of them executes a quad with the opcode.
-/
structure PassesWithout (op : Opcode) (m : Machine) (k : Nat) (m' : Machine) :
    Prop extends Passes m k m' where
  avoids : ∀ l t, l < k → m.after l = some t → ¬ t.Executes op

theorem PassesWithout.refl (op : Opcode) (m : Machine) : m.PassesWithout op 0 m :=
  ⟨.refl m, fun _ _ h => (Nat.not_lt_zero _ h).elim⟩

/-- Passages add up. -/
theorem PassesWithout.trans {m₂ m₃ : Machine} {k : Nat} (h₁ : m₁.PassesWithout op k m₂)
    (h₂ : m₂.PassesWithout op n m₃) : m₁.PassesWithout op (k + n) m₃ := by
  refine ⟨h₁.toPasses.trans h₂.toPasses, ?_⟩
  intro l t hl ht
  rcases Nat.lt_or_ge l k with hlt | hge
  · exact h₁.avoids l t hlt ht
  · obtain ⟨r, rfl⟩ := Nat.exists_eq_add_of_le hge
    rw [after_add h₁.after] at ht
    exact h₂.avoids r t (by omega) ht

theorem not_executes (hq : m.quads[m.ip]? = some q) (hop : q.op ≠ op) : ¬ m.Executes op := by
  rintro ⟨q', hq', hop'⟩
  cases hq.symm.trans hq'
  exact hop hop'

/-- A single step that executes another opcode. -/
theorem Passes.without (h : m.Passes 1 m') (hq : m.quads[m.ip]? = some q) (hop : q.op ≠ op) :
    m.PassesWithout op 1 m' := by
  refine ⟨h, ?_⟩
  intro l t hl ht
  obtain rfl : l = 0 := by omega
  cases ht
  exact not_executes hq hop

variable {sizes : Sizes} {counts : SlotCounts} {m : Machine}

/-- One step to the next quad that fills a slot and leaves the others alone. -/
structure Sets (sizes : Sizes) (counts : SlotCounts) (m : Machine) (t : Nat) (v : Value)
    (m' : Machine) : Prop where
  passes : m.Passes 1 m'
  ip : m'.ip = m.ip + 1
  quads : m'.quads = m.quads
  framed : m'.Framed sizes counts
  written : m'.readSlot t = .ok (some v)
  others : ∀ b, b ≠ t → m'.readSlot b = m.readSlot b

/-- A quad that writes a value to a slot of the frame. -/
theorem Framed.exists_sets (hm : m.Framed sizes counts) (hq : m.quads[m.ip]? = some q)
    (hroom : m.Room 1) (ht : IsSlot sizes counts t v.scalar) (hcoerce : v.coerce? v.scalar = some v)
    (hdoes : Exec.Does (Exec.execute q) (m.reached q) ((m.reached q).writeSlot t (some v))) :
    ∃ m', m.Sets sizes counts t v m' := by
  have hframed : (m.reached q).Framed sizes counts := ⟨hm.layout, hm.frame⟩
  obtain ⟨m₁, hwrite, hwrites⟩ := hframed.write ht hcoerce
  rw [hwrite] at hdoes
  obtain ⟨frames, rfl⟩ := hwrites.frames
  exact ⟨_, (passes_of_execute hq hroom hdoes rfl rfl).1 rfl, rfl, rfl,
    ⟨hm.layout, hwrites.framed.frame⟩, hwrites.written, hwrites.others⟩

theorem readInt_of_readSlot {n : Int64} (h : m.readSlot a = .ok (some (.int n))) :
    m.readInt (some (.addr a)) = .ok n := by
  unfold readInt read resolve
  simp only [bind, Except.bind, Source.Image.readValue_of_readSlot h]
  rfl

/-- Numbers below `2 ^ 63` are words. -/
theorem toInt_ofNat (h : n < 2 ^ 63) : (Int64.ofInt n).toInt = n := (toInt_ofInt_le n).2 h

/-- An exact sum or product of words goes to a slot. -/
theorem Framed.compute (hm : m.Framed sizes counts) {b z : Nat}
    (hop : op = .add ∧ z = x + y ∨ op = .multiply ∧ z = x * y)
    (hq : m.quads[m.ip]? = some ⟨op, some (.addr a), some (.addr b), some (.addr t)⟩)
    (hroom : m.Room 1) (ha : m.readSlot a = .ok (some (.int (Int64.ofInt x))))
    (hb : m.readSlot b = .ok (some (.int (Int64.ofInt y)))) (hx : x < 2 ^ 63) (hy : y < 2 ^ 63)
    (hz : z < 2 ^ 63) (ht : IsSlot sizes counts t .int) :
    ∃ m', m.Sets sizes counts t (.int (Int64.ofInt z)) m' := by
  refine hm.exists_sets hq hroom ht rfl ?_
  have hfits : Decimal.fitsInt64 (z : Int) = true := by
    rw [Source.fitsInt64_iff]
    omega
  have htype : m.layout.typeOf t = some .int := by
    rw [hm.layout]
    cases ht with
    | inLocals located _ => exact Located.typeOf located
    | inTemporaries located _ => exact Located.typeOf located
  have hexact : integerOperation op (Int64.ofInt x) (Int64.ofInt y) = .ok (Int64.ofInt z) := by
    rw [integerOperation, toInt_ofNat hx, toInt_ofNat hy]
    obtain ⟨rfl, rfl⟩ | ⟨rfl, rfl⟩ := hop
    · simp only [exactOperation, ← Int.natCast_add, hfits, if_true]
    · simp only [exactOperation, ← Int.natCast_mul, hfits, if_true]
  have hdoes :=
    Exec.does_arithmetic op (m.reached ⟨op, some (.addr a), some (.addr b), some (.addr t)⟩) a b t
  have hleft : (m.reached ⟨op, some (.addr a), some (.addr b), some (.addr t)⟩).readValue a =
      .ok (.int (Int64.ofInt x)) :=
    Source.Image.readValue_of_readSlot ha
  have hright : (m.reached ⟨op, some (.addr a), some (.addr b), some (.addr t)⟩).readValue b =
      .ok (.int (Int64.ofInt y)) := Source.Image.readValue_of_readSlot hb
  have hlayout : (m.reached ⟨op, some (.addr a), some (.addr b), some (.addr t)⟩).layout.typeOf t =
      some .int := htype
  simp only [hleft, hright, hlayout, bind, Except.bind, Quadruple.arithmetic, hexact, Functor.map,
    Except.map] at hdoes
  obtain ⟨rfl, -⟩ | ⟨rfl, -⟩ := hop
  · exact hdoes
  · exact hdoes

/-- The check of an index. -/
theorem run_verify {i : Int64} (ha : m.readSlot a = .ok (some (.int i)))
    (hc : m.readSlot c = .ok (some (.int (Int64.ofInt d)))) (hd : d < 2 ^ 63) :
    (Exec.verify ⟨.verify, some (.addr a), none, some (.addr c)⟩).run.run m =
      if InRange i d then (.ok .next, m) else (.error (.indexOutOfRange i.toInt d), m) := by
  rw [Exec.verify, (Exec.yields_ask.mpr ⟨readInt_of_readSlot ha, rfl⟩).run_bind]
  rw [(Exec.yields_ask.mpr ⟨readInt_of_readSlot hc, rfl⟩).run_bind]
  dsimp only
  rw [toInt_ofNat hd]
  by_cases hi : InRange i d
  · obtain ⟨hlo, hhi⟩ := id hi
    rw [if_pos hi, if_neg (by omega)]
    rfl
  · rw [if_neg hi, if_pos (by unfold InRange at hi; omega)]
    rfl

/-- An index in range passes its check. -/
theorem exists_passes_verify {i : Int64}
    (hq : m.quads[m.ip]? = some ⟨.verify, some (.addr a), none, some (.addr c)⟩) (hroom : m.Room 1)
    (ha : m.readSlot a = .ok (some (.int i)))
    (hc : m.readSlot c = .ok (some (.int (Int64.ofInt d)))) (hd : d < 2 ^ 63) (hi : InRange i d) :
    ∃ m', m.Passes 1 m' ∧ m'.ip = m.ip + 1 ∧ m'.quads = m.quads ∧ m'.layout = m.layout ∧
      m'.frames = m.frames ∧
      ∀ b, m'.readSlot b = m.readSlot b := by
  have hverify :=
    run_verify (m := m.reached ⟨.verify, some (.addr a), none, some (.addr c)⟩) ha hc hd
  rw [if_pos hi] at hverify
  exact ⟨_, (passes_of_execute hq hroom hverify rfl rfl).1 rfl, rfl, rfl, rfl, rfl, fun _ => rfl⟩

/-- The check of an index out of range stops the machine. -/
theorem exists_faulted_verify {i : Int64}
    (hq : m.quads[m.ip]? = some ⟨.verify, some (.addr a), none, some (.addr c)⟩) (hroom : m.Room 1)
    (ha : m.readSlot a = .ok (some (.int i)))
    (hc : m.readSlot c = .ok (some (.int (Int64.ofInt d)))) (hd : d < 2 ^ 63) (hi : ¬ InRange i d) :
    ∃ e m', m.advance = .faulted e m' ∧ e.fault = .indexOutOfRange i.toInt d := by
  have hverify :=
    run_verify (m := m.reached ⟨.verify, some (.addr a), none, some (.addr c)⟩) ha hc hd
  rw [if_neg hi] at hverify
  exact ⟨_, _, faulted_of_execute hq hroom hverify, rfl⟩

/-- The sum of a base and an offset goes to a pointer slot, if it is an address. -/
theorem Framed.point (hm : m.Framed sizes counts) {base : Nat}
    (hq : m.quads[m.ip]? = some ⟨.pointerAdd, some (.immediate base), some (.addr o),
      some (.ref t)⟩)
    (hroom : m.Room 1) (ho : m.readSlot o = .ok (some (.int (Int64.ofInt x)))) (hx : x < 2 ^ 63)
    (hfits : base + x < UInt64.size) (ht : IsSlot sizes counts t .pointer) :
    ∃ m', m.Sets sizes counts t (.pointer (base + x)) m' := by
  refine hm.exists_sets hq hroom ht rfl ?_
  have hread :
      (m.reached ⟨.pointerAdd, some (.immediate base), some (.addr o), some (.ref t)⟩).readInt
      (some (.addr o)) =
      .ok (Int64.ofInt x) := readInt_of_readSlot ho
  unfold Exec.Does
  show (Exec.pointerAdd _).run.run _ = _
  unfold Exec.pointerAdd Exec.pointerBase
  have hbase : Yields (pure base : Exec Nat)
      (m.reached ⟨.pointerAdd, some (.immediate base), some (.addr o), some (.ref t)⟩) base
      (m.reached ⟨.pointerAdd, some (.immediate base), some (.addr o), some (.ref t)⟩) :=
        yields_pure.mpr ⟨rfl, rfl⟩
  rw [hbase.run_bind, (Exec.yields_ask.mpr ⟨hread, rfl⟩).run_bind]
  dsimp only
  rw [toInt_ofNat hx, if_neg (by omega), ← Int.natCast_add, Int.toNat_natCast]
  exact Exec.does_update (·.write (some (.ref t)) (.pointer (base + x))) _

/-! ## The code of an access -/

/-- The machine may have used temporaries since, and nothing else of its memory has changed. -/
structure Kept (sizes : Sizes) (counts : SlotCounts) (s m : Machine) : Prop where
  framed : m.Framed sizes counts
  quads : m.quads = s.quads
  kept : ∀ a, ¬ Temporary sizes a → m.readSlot a = s.readSlot a

theorem Kept.read (h : Kept sizes counts s m) (ha : s.Holds sizes a v) :
    m.readSlot a = .ok (some v) := (h.kept a ha.settled).trans ha.read

theorem Kept.sets (h : Kept sizes counts s m) (ht : Temporary sizes t)
    (hsets : m.Sets sizes counts t v m') : Kept sizes counts s m' := by
  refine ⟨hsets.framed, hsets.quads.trans h.quads, fun a ha => ?_⟩
  rw [hsets.others a fun h => ha (h ▸ ht), h.kept a ha]

/-- The machine passes from quad to quad up to `n`, with no pointer sum on the way, and uses
temporaries only. -/
structure Travels (sizes : Sizes) (counts : SlotCounts) (s m : Machine) (n : Nat) (m' : Machine) :
    Prop where
  le : m.ip ≤ n
  passes : m.PassesWithout .pointerAdd (n - m.ip) m'
  kept : Kept sizes counts s m'
  ip : m'.ip = n

theorem Kept.travels (h : Kept sizes counts s m) : Travels sizes counts s m m.ip m := by
  refine ⟨Nat.le_refl _, ?_, h, rfl⟩
  rw [Nat.sub_self]
  exact .refl _ m

theorem Travels.trans {m₂ : Machine} {n₂ : Nat} (h₁ : Travels sizes counts s m n₁ m₁)
    (h₂ : Travels sizes counts s m₁ n₂ m₂) : Travels sizes counts s m n₂ m₂ := by
  have hle₁ := h₁.le
  have hle₂ := h₂.le
  have hip := h₁.ip
  have hpasses := h₁.passes.trans h₂.passes
  rw [show n₁ - m.ip + (n₂ - m₁.ip) = n₂ - m.ip by omega] at hpasses
  exact ⟨by omega, hpasses, h₂.kept, h₂.ip⟩

/-- One step. -/
theorem Passes.travels (h : m.Passes 1 m') (hq : m.quads[m.ip]? = some q) (hop : q.op ≠ .pointerAdd)
    (hip : m'.ip = m.ip + 1) (hkept : Kept sizes counts s m') :
    Travels sizes counts s m (m.ip + 1) m' := by
  refine ⟨Nat.le_succ _, ?_, hkept, hip⟩
  rw [Nat.add_sub_cancel_left]
  exact h.without hq hop

theorem Travels.room (h : Travels sizes counts s m n m') (hle : n ≤ n')
    (hroom : m.Room (n' - m.ip)) : m'.Room (n' - m'.ip) := by
  have hle' := h.le
  have hip := h.ip
  exact h.passes.room (hroom.mono (by omega))

end Machine

section

variable (code : Array Quad) (slot : Nat → Prop)

/-- The quads from `n` on leave in `term` what is in `a` times the number in the constant `stride`,
if there is one; the offset so far is spared. -/
inductive Scales (offset : Option Nat) (a : Nat) : Option Nat → Nat → Nat → Nat → Prop
  | last {n : Nat} : Scales offset a none n a n
  | stride {c n t : Nat}
      (quad : code[n]? = some ⟨.multiply, some (.addr a), some (.addr c), some (.addr t)⟩)
      (ht : slot t) (free : offset ≠ some t) : Scales offset a (some c) n t (n + 1)

/-- The quads from `n` on leave in `o` the sum of the offset so far, if there is one, and `term`. -/
inductive Adds (term : Nat) : Option Nat → Nat → Nat → Nat → Prop
  | first {n : Nat} : Adds term none n term n
  | sum {offset n t : Nat}
      (quad : code[n]? = some ⟨.add, some (.addr offset), some (.addr term), some (.addr t)⟩)
      (ht : slot t) : Adds term (some offset) n t (n + 1)

/-- The quads from `n` to `n'` check the indices in the slots against their dimensions, and leave in
`o` the offset so far with their terms added. -/
inductive Folds : Option Nat → List (Dimension × Nat) → Nat → Nat → Nat → Prop
  | nil {o n : Nat} : Folds (some o) [] n o n
  | cons {offset : Option Nat} {d : Dimension} {a n n₁ n₂ n' term o o' : Nat}
      {rest : List (Dimension × Nat)}
      (verify : code[n]? = some ⟨.verify, some (.addr a), none, some (.addr d.sizeConstant)⟩)
      (scales : Scales code slot offset a d.strideConstant (n + 1) term n₁)
      (adds : Adds code slot term offset n₁ o n₂)
      (later : Folds (some o) rest n₂ o' n') : Folds offset ((d, a) :: rest) n o' n'

end

section

variable {code code' : Array Quad} {slot slot' : Nat → Prop}

section

variable (hcode : ∀ (n : Nat) (q : Quad), code[n]? = some q → q.isJump = false → code'[n]? = some q)
  (hslot : ∀ t, slot t → slot' t)

include hcode hslot

theorem Scales.mono (h : Scales code slot offset a stride n term n') :
    Scales code' slot' offset a stride n term n' := by
  cases h with
  | last => exact .last
  | stride quad ht free => exact .stride (hcode _ _ quad rfl) (hslot _ ht) free

theorem Adds.mono (h : Adds code slot term offset n o n') :
    Adds code' slot' term offset n o n' := by
  cases h with
  | first => exact .first
  | sum quad ht => exact .sum (hcode _ _ quad rfl) (hslot _ ht)

theorem Folds.mono (h : Folds code slot offset pairs n o n') :
    Folds code' slot' offset pairs n o n' := by
  induction h with
  | nil => exact .nil
  | cons verify scales adds _ ih =>
    exact .cons (hcode _ _ verify rfl) (scales.mono hcode hslot) (adds.mono hcode hslot) ih

end

theorem Scales.le (h : Scales code slot offset a stride n term n') : n ≤ n' := by
  cases h with
  | last => exact Nat.le_refl _
  | stride => exact Nat.le_succ _

theorem Adds.le (h : Adds code slot term offset n o n') : n ≤ n' := by
  cases h with
  | first => exact Nat.le_refl _
  | sum => exact Nat.le_succ _

theorem Folds.le (h : Folds code slot offset pairs n o n') : n ≤ n' := by
  induction h with
  | nil => exact Nat.le_refl _
  | cons _ scales adds _ ih =>
    have hscales := scales.le
    have hadds := adds.le
    omega

end

/-! ## What the code does -/

/-- A temporary among the first so many of its type. -/
structure TemporarySlot (sizes : Sizes) (count : Nat) (ty : Scalar) (t : Nat) : Prop where
  located : Located sizes t .temporaries ty
  counted : ((Layout.ofSizes sizes).range .temporaries ty).offset t < count

theorem TemporarySlot.mono {sizes : Sizes} {count count' : Nat} {ty : Scalar}
    (h : TemporarySlot sizes count ty t) (hle : count ≤ count') : TemporarySlot sizes count' ty t :=
  ⟨h.located, Nat.lt_of_lt_of_le h.counted hle⟩

namespace Machine

variable {sizes : Sizes} {counts : SlotCounts} {s m : Machine}

/-- The offset so far is in its slot; without one it is zero. -/
def HasOffset (m : Machine) : Option Nat → Nat → Prop
  | none, x => x = 0
  | some o, x => m.readSlot o = .ok (some (.int (Int64.ofInt x)))

/-- An index is scaled. -/
theorem Kept.scale (hm : Kept sizes counts s m)
    (h : Scales s.quads (TemporarySlot sizes (counts.temporaries.get .int) .int) offset a stride n
      term n')
    (hip : m.ip = n) (hroom : m.Room (n' - n))
    (ha : m.readSlot a = .ok (some (.int (Int64.ofInt x))))
    (hstride : ∀ c, stride = some c → s.Holds sizes c (.int (Int64.ofInt y)))
    (hone : stride = none → y = 1) (hx : x < 2 ^ 63) (hy : y < 2 ^ 63) (hxy : x * y < 2 ^ 63) :
    ∃ m', Travels sizes counts s m n' m' ∧
      m'.readSlot term = .ok (some (.int (Int64.ofInt (x * y : Nat)))) ∧
      ∀ z, m.HasOffset offset z → m'.HasOffset offset z := by
  subst hip
  cases h with
  | last =>
    refine ⟨m, hm.travels, ?_, fun _ hz => hz⟩
    rw [hone rfl, Nat.mul_one]
    exact ha
  | @stride c _ _ quad ht free =>
    have hq :
        m.quads[m.ip]? = some ⟨.multiply, some (.addr a), some (.addr c), some (.addr term)⟩ := by
      rw [hm.quads]
      exact quad
    obtain ⟨m', hsets⟩ := hm.framed.compute (Or.inr ⟨rfl, rfl⟩) hq (hroom.mono (by omega)) ha
      (hm.read (hstride c rfl)) hx hy hxy (.inTemporaries ht.located ht.counted)
    refine ⟨m', hsets.passes.travels hq nofun hsets.ip (hm.sets ht.located.segmentOf hsets),
      hsets.written, ?_⟩
    intro z hz
    cases offset with
    | none => exact hz
    | some o => exact (hsets.others o fun h => free (congrArg some h)).trans hz

/-- A term is added to the offset so far. -/
theorem Kept.add (hm : Kept sizes counts s m)
    (h : Adds s.quads (TemporarySlot sizes (counts.temporaries.get .int) .int) term offset n o n')
    (hip : m.ip = n) (hroom : m.Room (n' - n)) (hoffset : m.HasOffset offset x)
    (hterm : m.readSlot term = .ok (some (.int (Int64.ofInt y)))) (hxy : x + y < 2 ^ 63) :
    ∃ m', Travels sizes counts s m n' m' ∧
      m'.readSlot o = .ok (some (.int (Int64.ofInt (x + y : Nat)))) := by
  subst hip
  cases h with
  | first =>
    refine ⟨m, hm.travels, ?_⟩
    rw [show x = 0 from hoffset, Nat.zero_add]
    exact hterm
  | @sum p _ _ quad ht =>
    have hq : m.quads[m.ip]? = some ⟨.add, some (.addr p), some (.addr term), some (.addr o)⟩ := by
      rw [hm.quads]
      exact quad
    obtain ⟨m', hsets⟩ :=
      hm.framed.compute (Or.inl ⟨rfl, rfl⟩) hq (hroom.mono (by omega)) hoffset hterm
      (by omega) (by omega) hxy (.inTemporaries ht.located ht.counted)
    exact ⟨m', hsets.passes.travels hq nofun hsets.ip (hm.sets ht.located.segmentOf hsets),
      hsets.written⟩

/-- An index in range is checked, scaled and added. -/
theorem Kept.index {d : Dimension} {n₂ : Nat} {i : Int64} (hm : Kept sizes counts s m)
    (verify : s.quads[n]? = some ⟨.verify, some (.addr a), none, some (.addr d.sizeConstant)⟩)
    (scales : Scales s.quads (TemporarySlot sizes (counts.temporaries.get .int) .int) offset a
      d.strideConstant (n + 1) term n₁)
    (adds : Adds s.quads (TemporarySlot sizes (counts.temporaries.get .int) .int) term offset n₁
      o n₂)
    (hip : m.ip = n) (hroom : m.Room (n₂ - n)) (hindex : s.Holds sizes a (.int i))
    (hsize : s.Holds sizes d.sizeConstant (.int (Int64.ofInt d.size)))
    (hstride : ∀ c, d.strideConstant = some c → s.Holds sizes c (.int (Int64.ofInt y)))
    (hlast : d.strideConstant = none → y = 1) (hi : InRange i d.size)
    (hoffset : m.HasOffset offset x) (hy : 0 < y) (htotal : x + d.size * y < 2 ^ 63) :
    ∃ m', Travels sizes counts s m n₂ m' ∧
      m'.readSlot o = .ok (some (.int (Int64.ofInt (x + i.toInt.toNat * y : Nat)))) := by
  subst hip
  have hle := scales.le
  have hle' := adds.le
  have hky := mul_add_le hi y
  have hd := Nat.le_mul_of_pos_right d.size hy
  have hk := lt_of_inRange hi
  have hik : i = Int64.ofInt i.toInt.toNat := by rw [Int.toNat_of_nonneg hi.1, Int64.ofInt_toInt]
  have hq : m.quads[m.ip]? = some ⟨.verify, some (.addr a), none, some (.addr d.sizeConstant)⟩ := by
    rw [hm.quads]
    exact verify
  obtain ⟨m₁, hpass, hip₁, hquads₁, hlayout₁, hframes₁, hread₁⟩ :=
    exists_passes_verify hq (hroom.mono (by omega))
    (hm.read hindex) (hm.read hsize) (by omega) hi
  have hm₁ : Kept sizes counts s m₁ := by
    refine ⟨⟨hlayout₁.trans hm.framed.layout, hframes₁ ▸ hm.framed.frame⟩, hquads₁.trans hm.quads,
      fun b hb => ?_⟩
    rw [hread₁, hm.kept b hb]
  have hoffset₁ : m₁.HasOffset offset x := by
    cases offset with
    | none => exact hoffset
    | some o => exact (hread₁ o).trans hoffset
  have htravels₁ := hpass.travels hq nofun hip₁ hm₁
  have hroom₁ := htravels₁.room (Nat.le_trans hle hle') hroom
  obtain ⟨m₂, hfirst, hterm, hkeeps⟩ :=
    hm₁.scale scales hip₁ (hroom₁.mono (by omega)) (hik ▸ hm₁.read hindex) hstride
    hlast (by omega) (by omega) (by omega)
  have htravels₂ := htravels₁.trans hfirst
  have hroom₂ := htravels₂.room hle' hroom
  rw [htravels₂.ip] at hroom₂
  obtain ⟨m₃, hsecond, hsum⟩ :=
    htravels₂.kept.add adds htravels₂.ip hroom₂ (hkeeps x hoffset₁) hterm (by omega)
  exact ⟨m₃, htravels₂.trans hsecond, hsum⟩

/-- How the code of an access goes on from the offset so far: past all indices with their place in
the slot `o`, or up to the check of the first one that is out of range. -/
def Settles (sizes : Sizes) (counts : SlotCounts) (s m : Machine) (n' o x : Nat) (dims : List Nat)
    (values : List Int64) :
    Prop :=
  match outOfRange? values dims with
  | none => ∃ m', Travels sizes counts s m n' m' ∧
      m'.readSlot o = .ok (some (.int (Int64.ofInt (x + rowMajor dims (ordinals values) : Nat))))
  | some (i, d) =>
    ∃ m₁ e m', Travels sizes counts s m m₁.ip m₁ ∧ m₁.ip < n' ∧ ¬ m₁.Executes .pointerAdd ∧
      m₁.advance = .faulted e m' ∧ e.fault = .indexOutOfRange i.toInt d

/-- One index more, in front. -/
theorem Settles.after {values : List Int64} {i : Int64} (hfirst : Travels sizes counts s m n₁ m₁)
    (hi : InRange i d) (hy : y = x + i.toInt.toNat * elementCount dims)
    (h : Settles sizes counts s m₁ n' o y dims values) :
    Settles sizes counts s m n' o x (d :: dims) (i :: values) := by
  unfold Settles at h ⊢
  rw [outOfRange?_cons_of_inRange hi]
  split
  · rename_i hnone
    rw [hnone] at h
    obtain ⟨m', htravels, hread⟩ := h
    have hplace :
        x + rowMajor (d :: dims) (ordinals (i :: values)) = y + rowMajor dims
          (ordinals values) := by
      rw [hy]
      exact (Nat.add_assoc _ _ _).symm
    rw [← hplace] at hread
    exact ⟨m', hfirst.trans htravels, hread⟩
  · rename_i hsome
    rw [hsome] at h
    obtain ⟨m₂, e, m', htravels, hrest⟩ := h
    exact ⟨m₂, e, m', hfirst.trans htravels, hrest⟩

end Machine

/-- The code of an access checks each index and adds its term.  The terms so far and the elements
behind them stay within the number `total` of all elements. -/
theorem Folds.run {sizes : Sizes} {counts : SlotCounts} {total : Nat}
    (hconstants : ∀ a v, HasValue constants a v → s.Holds sizes a v) (htotal : total < 2 ^ 63)
    (h : Folds s.quads (TemporarySlot sizes (counts.temporaries.get .int) .int) offset pairs n o n')
    (hdims : Describes constants (pairs.map (·.1))) {values : List Int64}
    (hvalues : List.Forall₂ (fun pair i => s.Holds sizes pair.2 (.int i)) pairs values)
    (hm : Machine.Kept sizes counts s m) (hip : m.ip = n) (hroom : m.Room (n' - n))
    (hoffset : m.HasOffset offset x) (hx : x + elementCount (pairs.map (·.1.size)) ≤ total) :
    Machine.Settles sizes counts s m n' o x (pairs.map (·.1.size)) values := by
  induction h generalizing values m x with
  | @nil o n =>
    cases hvalues
    refine ⟨m, ?_, hoffset⟩
    rw [← hip]
    exact hm.travels
  | @cons offset d a n n₁ n₂ n' term o o' rest verify scales adds later ih =>
    cases hvalues with
    | @cons _ i _ values hindex hvalues =>
      obtain ⟨hpos, hsize, hstride, hlast, hlater⟩ := hdims.first
      simp only [List.map_map, Function.comp_def] at hstride hlast
      have hcount : 0 < elementCount (rest.map (·.1.size)) := by
        have := hlater.elementCount_pos
        rwa [List.map_map] at this
      generalize hy : elementCount (rest.map (·.1.size)) = y at *
      have hdy : x + d.size * y ≤ total := by
        rw [← hy]
        exact hx
      have hle := scales.le
      have hle' := adds.le
      have hle'' := later.le
      have hd : d.size < 2 ^ 63 := by
        have := Nat.le_mul_of_pos_right d.size hcount
        omega
      subst hip
      have hq :
          m.quads[m.ip]? = some ⟨.verify, some (.addr a), none, some (.addr d.sizeConstant)⟩ := by
        rw [hm.quads]
        exact verify
      by_cases hi : InRange i d.size
      · obtain ⟨m', htravels, hsum⟩ :=
          hm.index verify scales adds rfl (hroom.mono (by omega)) hindex
          (hconstants _ _ hsize) (fun c hc => hconstants _ _ (hstride c hc)) hlast hi hoffset hcount
          (by omega)
        have hky := mul_add_le hi y
        refine .after htravels hi (by rw [hy])
          (ih hlater hvalues htravels.kept htravels.ip ?_ hsum (by omega))
        exact (htravels.room hle'' hroom).mono (by rw [htravels.ip])
      · obtain ⟨e, m', hfault, he⟩ :=
          Machine.exists_faulted_verify hq (hroom.mono (by omega)) (hm.read hindex)
          (hm.read (hconstants _ _ hsize)) hd hi
        rw [Machine.Settles, List.map_cons, outOfRange?_cons_of_not hi]
        exact ⟨m, e, m', hm.travels, by omega, Machine.not_executes hq nofun, hfault, he⟩

end Quadruple
