/-
  Programs read back from their bytes.

  The encoding has no marks and no padding, so whether a program comes back rests on each part being
  read to its end and not beyond, whatever follows it.  That is `Reads`, and this module carries it
  from the numbers and texts up to whole programs, with one statement per type that follows the
  fields of its encoder (`Program.reads_decode`):

      InWords p.words  →  Reads Program.decode p.toBytes p.canonical

  Two things stand between a program and its image.  Its numbers, among them the lengths of its
  texts and lists, must be numbers of sixty-four bits (`Program.words`); the encoder has no more
  than ten groups for each.  And a type is written as a word: a class that has the name of a scalar
  comes back as that scalar (`TypeName.canonical`), and nothing else is lost.  Truncation is
  detected in every case, also where a type would change.
-/
import Quadruple.Program.Bytes
import Quadruple.Proofs.Reading
import Quadruple.Proofs.Straight

namespace Quadruple

open Bytes

/-! ## The numbers of a program -/

/-- Numbers of sixty-four bits. -/
abbrev InWords (ns : List Nat) : Prop := ∀ n ∈ ns, n < UInt64.size

theorem InWords.of_flatMap {α : Type} {f : α → List Nat} {l : List α} (h : InWords (l.flatMap f))
    {a : α} (ha : a ∈ l) : InWords (f a) :=
  fun n hn => h n (List.mem_flatMap_of_mem ha hn)

/-- The number that precedes a text. -/
def textWord (s : String) : Nat := (utf8 s).length

def Value.words : Value → List Nat
  | string s => [textWord s]
  | pointer a => [a]
  | _ => []

def Operand.words : Operand → List Nat
  | addr a => [a]
  | ref a => [a]
  | deref a => [a]
  | jump i => [i]
  | immediate n => [n]
  | function id => [textWord id]
  | allocHeap => []

def Quad.words (q : Quad) : List Nat :=
  (q.left.toList ++ q.right.toList ++ q.result.toList).flatMap Operand.words

def SlotCounts.words (c : SlotCounts) : List Nat := c.locals.toList ++ c.temporaries.toList

/-- The types a function mentions. -/
def Routine.typeNames (r : Routine) : List TypeName := r.returnType.toList ++ r.paramTypes

def Routine.words (r : Routine) : List Nat :=
  [r.startQuad, r.paramTypes.length, r.paramAddresses.length] ++ r.paramAddresses ++
    r.typeNames.map (fun ty => textWord ty.word) ++ r.slots.words

/-- The types a program mentions. -/
def Program.typeNames (p : Program) : List TypeName :=
  p.functions.entries.flatMap fun e => e.2.typeNames

/-- Every number of a program, the lengths of its texts and lists included. -/
def Program.words (p : Program) : List Nat :=
  [p.constants.size, p.functions.size, p.quads.size, p.heapStart] ++ p.sizes.toList.flatMap
    PerScalar.toList ++
    p.constants.entries.flatMap (fun e => e.1 :: e.2.value.words) ++
    p.functions.entries.flatMap (fun e => textWord e.1 :: e.2.words) ++ p.globals.words ++
    p.quads.toList.flatMap Quad.words

/-! ## Types that come back as they were -/

/-- No class with the name of a scalar. -/
def TypeName.Proper (ty : TypeName) : Prop := ∀ c ∈ ty.class?, Scalar.ofName? c = none

instance (ty : TypeName) : Decidable ty.Proper :=
  inferInstanceAs (Decidable (∀ c ∈ ty.class?, Scalar.ofName? c = none))

/-- The type that the word of a type stands for. -/
def TypeName.canonical (ty : TypeName) : TypeName := TypeName.ofWord ty.word

def Routine.canonical (r : Routine) : Routine :=
  { r with
    returnType := r.returnType.map TypeName.canonical, paramTypes :=
      r.paramTypes.map TypeName.canonical }

/-- A program with every type as its word is read. -/
def Program.canonical (p : Program) : Program :=
  { p with functions := p.functions.mapValues Routine.canonical }

/-- Only a class with the name of a scalar is read as something else. -/
theorem TypeName.canonical_eq_self_iff (ty : TypeName) : ty.canonical = ty ↔ ty.Proper := by
  cases ty with
  | scalar s => simp [canonical, ofWord, word, Proper, class?]
  | object name =>
    cases h : Scalar.ofName? name <;> simp [canonical, ofWord, word, Proper, class?, h]

/-- A word is never read as a class with the name of a scalar. -/
theorem TypeName.proper_ofWord (w : String) : (ofWord w).Proper := by
  rw [← canonical_eq_self_iff, canonical, word_ofWord]

/-- No class with the name of a scalar is ever declared. -/
theorem Compile.proper_of_declareClass {id : String} {g g' : Generator}
    (h : Yields (declareClass id) g () g') : (TypeName.object id).Proper := by
  rw [declareClass, yields_get_bind] at h
  split at h
  · cases h
  split at h
  · cases h
  rename_i hfree
  rintro _ ⟨rfl⟩
  cases hname : Scalar.ofName? id with
  | none => rfl
  | some ty => simp [hname] at hfree

theorem Routine.canonical_eq_self_iff (r : Routine) :
    r.canonical = r ↔ ∀ ty ∈ r.typeNames, ty.canonical = ty := by
  have hreturn : r.returnType.map TypeName.canonical = r.returnType ↔
      ∀ ty ∈ r.returnType.toList, ty.canonical = ty := by
    cases r.returnType <;> simp
  have hparams : r.paramTypes.map TypeName.canonical = r.paramTypes ↔
      ∀ ty ∈ r.paramTypes, ty.canonical = ty := by
    simpa using List.map_inj_left (l := r.paramTypes) (f := TypeName.canonical) (g := id)
  rw [typeNames, List.forall_mem_append, ← hreturn, ← hparams]
  cases r
  simp [canonical]

theorem Program.canonical_eq_self_iff (p : Program) :
    p.canonical = p ↔ ∀ ty ∈ p.typeNames, ty.canonical = ty := by
  have hentries : p.functions.mapValues Routine.canonical = p.functions ↔
      ∀ e ∈ p.functions.entries, (e.1, e.2.canonical) = e := by
    have h :=
      List.map_inj_left (l := p.functions.entries) (f := fun e => (e.1, e.2.canonical)) (g := id)
    rw [List.map_id] at h
    exact ⟨fun heq => h.mp (congrArg Table.entries heq), fun hall => Table.ext_entries (h.mpr hall)⟩
  have hprogram : p.canonical = p ↔ p.functions.mapValues Routine.canonical = p.functions := by
    cases p
    simp [canonical]
  rw [hprogram, hentries]
  simp only [typeNames, List.mem_flatMap, Prod.ext_iff, true_and, Routine.canonical_eq_self_iff]
  exact ⟨fun h ty ⟨e, he, hty⟩ => h e he ty hty, fun h e he ty hty => h ty ⟨e, he, hty⟩⟩

/-! ## Values, operands and quads -/

theorem Scalar.reads_decode (ty : Scalar) : Reads Scalar.decode ty.toBytes ty := by
  refine (reads_takeTag (by cases ty <;> decide)).bind_nil ?_
  cases ty <;> exact reads_pure _

theorem Opcode.reads_decode (op : Opcode) : Reads Opcode.decode op.toBytes op := by
  refine (reads_takeTag (by cases op <;> decide)).bind_nil ?_
  rw [Opcode.ofIndex?_index]
  exact reads_pure op

theorem TypeName.reads_decode {ty : TypeName} (h : textWord ty.word < UInt64.size) :
    Reads TypeName.decode ty.toBytes ty.canonical :=
  (reads_takeText h).map TypeName.ofWord

theorem Value.reads_decode {v : Value} (h : InWords v.words) : Reads Value.decode v.toBytes v := by
  cases v with
  | int n => exact (reads_takeTag (by decide)).bind ((reads_takeInt64 n).map Value.int)
  | float x => exact (reads_takeTag (by decide)).bind ((reads_takeFloat x).map Value.float)
  | bool b => exact (reads_takeTag (by decide)).bind ((reads_takeBool b).map Value.bool)
  | string s =>
    exact (reads_takeTag (by decide)).bind
      ((reads_takeText (h _ List.mem_cons_self)).map Value.string)
  | pointer a =>
    exact (reads_takeTag (by decide)).bind
      ((reads_takeWord (h _ List.mem_cons_self)).map Value.pointer)

theorem Operand.reads_decode {o : Operand} (h : InWords o.words) :
    Reads Operand.decode o.toBytes o := by
  cases o with
  | addr a =>
    exact (reads_takeTag (by decide)).bind
      ((reads_takeWord (h _ List.mem_cons_self)).map Operand.addr)
  | ref a =>
    exact (reads_takeTag (by decide)).bind
      ((reads_takeWord (h _ List.mem_cons_self)).map Operand.ref)
  | deref a =>
    exact (reads_takeTag (by decide)).bind
      ((reads_takeWord (h _ List.mem_cons_self)).map Operand.deref)
  | jump i =>
    exact (reads_takeTag (by decide)).bind
      ((reads_takeWord (h _ List.mem_cons_self)).map Operand.jump)
  | immediate n =>
    exact (reads_takeTag (by decide)).bind
      ((reads_takeWord (h _ List.mem_cons_self)).map Operand.immediate)
  | function id =>
    exact (reads_takeTag (by decide)).bind
      ((reads_takeText (h _ List.mem_cons_self)).map Operand.function)
  | allocHeap => exact (reads_takeTag (by decide)).bind_nil (reads_pure Operand.allocHeap)

theorem Quad.reads_decode {q : Quad} (h : InWords q.words) : Reads Quad.decode q.toBytes q := by
  have hoperand : ∀ o ∈ q.left.toList ++ q.right.toList ++ q.result.toList,
      Reads Operand.decode o.toBytes o :=
    fun o ho => Operand.reads_decode (h.of_flatMap ho)
  simp only [List.forall_mem_append, Option.mem_toList] at hoperand
  obtain ⟨⟨hleft, hright⟩, hresult⟩ := hoperand
  rw [Quad.toBytes, List.append_assoc, List.append_assoc]
  exact q.op.reads_decode.bind
    ((reads_takeOption_self hleft).bind ((reads_takeOption_self hright).bind
    ((reads_takeOption_self hresult).map _)))

/-! ## Counts, constants and functions -/

theorem PerScalar.reads_decode {r : PerScalar Nat} (h : InWords r.toList) :
    Reads PerScalar.decode r.toBytes r := by
  simp only [InWords, PerScalar.toList, List.forall_mem_cons] at h
  obtain ⟨hint, hfloat, hbool, hstring, hpointer, -⟩ := h
  simp only [PerScalar.toBytes, PerScalar.toList, List.flatMap_cons, List.flatMap_nil]
  exact (reads_takeWord hint).bind ((reads_takeWord hfloat).bind ((reads_takeWord hbool).bind
    ((reads_takeWord hstring).bind ((reads_takeWord hpointer).bind (reads_pure _)))))

theorem Sizes.reads_decode {sizes : Sizes} (h : InWords (sizes.toList.flatMap PerScalar.toList)) :
    Reads Sizes.decode (Sizes.toBytes sizes) sizes := by
  have hsegment : ∀ r ∈ sizes.toList, Reads PerScalar.decode r.toBytes r := fun r hr =>
    PerScalar.reads_decode (h.of_flatMap hr)
  simp only [PerSegment.toList, List.forall_mem_cons] at hsegment
  obtain ⟨hglobals, hlocals, htemporaries, hconstants, -⟩ := hsegment
  simp only [Sizes.toBytes, PerSegment.toList, List.flatMap_cons, List.flatMap_nil]
  exact hglobals.bind (hlocals.bind (htemporaries.bind (hconstants.bind (reads_pure _))))

theorem SlotCounts.reads_decode {c : SlotCounts} (h : InWords c.words) :
    Reads SlotCounts.decode c.toBytes c := by
  obtain ⟨hlocals, htemporaries⟩ := List.forall_mem_append.mp h
  exact (PerScalar.reads_decode hlocals).bind ((PerScalar.reads_decode htemporaries).map _)

theorem Constant.reads_decode {c : Constant} (h : InWords c.value.words) :
    Reads Constant.decode c.toBytes c :=
  (Value.reads_decode h).bind (c.ty.reads_decode.map _)

/-- A function comes back with its types as their words are read. -/
theorem Routine.reads_decode {r : Routine} (h : InWords r.words) :
    Reads Routine.decode r.toBytes r.canonical := by
  simp only [InWords, Routine.words, List.forall_mem_append, List.forall_mem_cons,
    List.forall_mem_map, Routine.typeNames, Option.mem_toList] at h
  obtain ⟨⟨⟨⟨hstart, htypes, haddresses, -⟩, haddress⟩, hreturn, hparams⟩, hslots⟩ := h
  unfold Routine.toBytes
  simp only [List.append_assoc]
  exact (reads_takeWord hstart).bind
    ((reads_takeOption fun ty hty => TypeName.reads_decode (hreturn ty hty)).bind
    ((reads_takeList htypes fun ty hty => TypeName.reads_decode (hparams ty hty)).bind
    ((reads_takeList_self haddresses fun a ha => reads_takeWord (haddress a ha)).bind
    ((SlotCounts.reads_decode hslots).map _))))

/-! ## Programs -/

namespace Program

/-- The entries of a table are ascending, so the table made of them is the one they come from. -/
theorem canonical_eq_ofList (p : Program) :
    p.canonical = ⟨p.sizes, Table.ofList p.constants.entries,
      Table.ofList (p.functions.entries.map fun e => (e.1, e.2.canonical)), p.globals,
      p.quads.toList.toArray, p.heapStart⟩ := by
  have hmapped := Table.ofList_entries (p.functions.mapValues Routine.canonical)
  rw [Table.ofList_entries, Array.toArray_toList]
  exact congrArg (fun functions => { p with functions := functions }) hmapped.symm

/-- A program is read to its end and comes back with its types as their words are read. -/
theorem reads_decode {p : Program} (h : InWords p.words) :
    Reads Program.decode p.toBytes p.canonical := by
  simp only [InWords, words, List.forall_mem_append, List.forall_mem_cons] at h
  obtain ⟨⟨⟨⟨⟨hcounts, hsizes⟩, hconstants⟩, hfunctions⟩, hglobals⟩, hquads⟩ := h
  obtain ⟨hconstantCount, hfunctionCount, hquadCount, hheap, -⟩ := hcounts
  have hconstant : ∀ e ∈ p.constants.entries,
      Reads (takePair takeWord Constant.decode) (ofWord e.1 ++ e.2.toBytes) e := by
    intro e he
    obtain ⟨haddress, hvalue⟩ := List.forall_mem_cons.mp (InWords.of_flatMap hconstants he)
    exact reads_takePair (reads_takeWord haddress) (Constant.reads_decode hvalue)
  have hfunction : ∀ e ∈ p.functions.entries,
      Reads (takePair takeText Routine.decode) (ofText e.1 ++ e.2.toBytes) (e.1,
        e.2.canonical) := by
    intro e he
    obtain ⟨hname, hroutine⟩ := List.forall_mem_cons.mp (InWords.of_flatMap hfunctions he)
    exact reads_takePair (reads_takeText hname) (Routine.reads_decode hroutine)
  have hquad : ∀ q ∈ p.quads.toList, Reads Quad.decode q.toBytes q := fun q hq =>
    Quad.reads_decode (InWords.of_flatMap hquads hq)
  rw [canonical_eq_ofList]
  unfold toBytes
  simp only [List.append_assoc]
  exact (Sizes.reads_decode hsizes).bind
    ((reads_takeList_self hconstantCount hconstant).bind
    ((reads_takeList hfunctionCount hfunction).bind
    ((SlotCounts.reads_decode hglobals).bind
    ((reads_takeList_self hquadCount hquad).bind
    ((reads_takeWord hheap).map _)))))

/-- Whatever follows the bytes of a program, it is read back exactly, unless it mentions a class
with the name of a scalar; reading a type and declaring a class never make one. -/
theorem ofBytes_toBytes_append {p : Program} (hwords : InWords p.words) (t : Bytes) :
    (ofBytes (p.toBytes ++ t) = .ok p ↔ ∀ ty ∈ p.typeNames, ty.Proper) ∧
      (∀ w, (TypeName.ofWord w).Proper) ∧
      ∀ id g g', Yields (Compile.declareClass id) g () g' → (TypeName.object id).Proper := by
  have hread : ofBytes (p.toBytes ++ t) = .ok p.canonical := by
    rw [ofBytes, (reads_decode hwords).whole t]
  refine ⟨?_, TypeName.proper_ofWord, fun _ _ _ => Compile.proper_of_declareClass⟩
  rw [hread, Except.ok.injEq, canonical_eq_self_iff]
  simp only [TypeName.canonical_eq_self_iff]

/-- A program with a value, an operand or a type of every shape, the least integer, a NaN, the
largest number and texts beyond ASCII. -/
def everyShape : Program where
  sizes := Sizes.standard
  constants :=
    Table.ofList [(15000, ⟨.int Int64.minValue, .int⟩),
      (16000, ⟨.float ⟨0x7FF8000000000001⟩, .float⟩),
    (17000, ⟨.bool true, .bool⟩), (18000, ⟨.string "año €", .string⟩),
    (19000, ⟨.pointer 128, .pointer⟩)]
  functions :=
    Table.ofList
      [("área", ⟨3, some (.object "Círculo"), [.object "Punto", .scalar .float], [9000, 6000],
    ⟨PerScalar.const 2, PerScalar.const 300⟩⟩)]
  globals := ⟨PerScalar.const 1, PerScalar.const 0⟩
  quads := #[⟨.assign, some (.addr 15000), none, some (.deref 14000)⟩,
    ⟨.pointerAssign, some .allocHeap, some (.immediate 16384), some (.ref 4000)⟩,
    ⟨.are, some (.function "área"), none, none⟩, ⟨.goto, none, none, some (.jump 2)⟩]
  heapStart := UInt64.size - 1

theorem ofBytes_toBytes_append_everyShape :
    InWords everyShape.words ∧ ofBytes (everyShape.toBytes ++ [255, 0, 7]) = .ok everyShape := by
  have hwords : InWords everyShape.words := by decide +kernel
  have hnames : ∀ ty ∈ everyShape.typeNames, ty.Proper := by decide +kernel
  exact ⟨hwords, (ofBytes_toBytes_append hwords [255, 0, 7]).1.mpr hnames⟩

/-- Bytes of a program that end too early are no program, wherever they end, and the error says so.
-/
theorem ofBytes_of_truncated {p : Program} (hwords : InWords p.words) {b : Bytes}
    (hb : b <+: p.toBytes) (hne : b ≠ p.toBytes) :
    ofBytes b = .error .endOfInput ∧
    DecodeError.endOfInput.message = "Hit the end of buffer, expected more data" := by
  obtain ⟨missing, hmissing⟩ := hb
  have hsome : missing ≠ [] := by
    rintro rfl
    exact hne (by rw [← hmissing, List.append_nil])
  refine ⟨?_, rfl⟩
  rw [ofBytes, (reads_decode hwords).cut b missing hmissing hsome]

/-- An input that ends inside the NaN of `everyShape`. -/
theorem ofBytes_of_truncated_everyShape :
    InWords everyShape.words ∧ everyShape.toBytes.take 65 ≠ everyShape.toBytes ∧
      ofBytes (everyShape.toBytes.take 65) = .error .endOfInput := by
  have hwords : InWords everyShape.words := by decide +kernel
  have hne : everyShape.toBytes.take 65 ≠ everyShape.toBytes := by decide +kernel
  exact ⟨hwords, hne, (ofBytes_of_truncated hwords (List.take_prefix 65 _) hne).1⟩

end Program

end Quadruple
