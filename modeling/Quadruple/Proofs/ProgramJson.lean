/-
  Programs read back from their text.

  The text of structured data is divided into the tree it was written from (`Raw.Scans`); what is
  left is that the readers of typed data take from the tree what the writers put into it.
  `Recovers` joins the two, so that each writer needs one statement: first for the numbers, texts,
  lists, tables, choices and records of structured data, then, following the members, for each type
  of a program up to whole programs (`Program.recovers_ofRaw`):

      Recovers read j a   =   the text of `j` scans to its tree  ∧  read tree = ok a

  A record is read member by member, each put into what the members before it have made; `Fills`
  follows them.  A repeated key would be refused and a missing one too: the writer has every key
  once, in declared order.

  As with bytes, the numbers of a program are numbers of sixty-four bits; of the lengths of its
  texts and lists, which are not written here, this says no more than that they fit into memory.
  And a class that has the name of a scalar comes back as that scalar.  Floats are set aside: an
  infinite one has no text at all.
-/
import Quadruple.Program.Json
import Quadruple.Proofs.JsonText
import Quadruple.Proofs.ProgramBytes

namespace Quadruple

variable {n : Nat}

namespace Json

theorem rawItems_eq_map (items : List Json) : rawItems items = items.map toRaw := by
  induction items with
  | nil => rfl
  | cons j items ih => rw [rawItems, ih, List.map_cons]

theorem rawMembers_eq_map (members : List (String × Json)) :
    rawMembers members = members.map fun m => (escapedText m.1, m.2.toRaw) := by
  induction members with
  | nil => rfl
  | cons m members ih => rw [rawMembers, ih, List.map_cons]

/-! ## Data that is read back -/

/-- The text of the data is divided into its tree, and `read` takes `a` from the tree. -/
structure Recovers {α : Type} (read : Raw → Except JsonError α) (j : Json) (a : α) : Prop where
  scans : j.toRaw.Scans
  value : read j.toRaw = .ok a

section

variable {α β κ ν : Type} {f : Raw → Except JsonError α} {j : Json} {a : α}

theorem Recovers.bind (h : Recovers f j a) {g : α → Except JsonError β} {b : β} (hg : g a = .ok b) :
    Recovers (fun r => f r >>= g) j b := by
  refine ⟨h.scans, ?_⟩
  rw [h.value]
  exact hg

theorem Recovers.map (h : Recovers f j a) (g : α → β) : Recovers (fun r => g <$> f r) j (g a) := by
  refine ⟨h.scans, ?_⟩
  rw [h.value]
  rfl

/-! ### Leaves -/

theorem recovers_getNumber {n : Int} (h : Fits n) : Recovers Raw.getNumber (int n) (int n) :=
  ⟨Raw.scans_int n, numberOf_intText h⟩

theorem fits_natCast (h : n < UInt64.size) : Fits n :=
  ⟨Int.le_trans (by decide) (Int.natCast_nonneg n), Int.ofNat_lt.mpr h⟩

theorem getWord_natCast (h : n < UInt64.size) : getWord (int n) = .ok n := by
  rw [getWord, getNat, if_pos ⟨Int.natCast_nonneg n, Int.ofNat_lt.mpr h⟩, Int.toNat_natCast]

theorem recovers_getWord (h : n < UInt64.size) : Recovers Raw.getWord (nat n) n :=
  (recovers_getNumber (fits_natCast h)).bind (getWord_natCast h)

theorem recovers_getInt64 (n : Int64) : Recovers Raw.getInt64 (int n.toInt) n := by
  have hfits : Decimal.fitsInt64 n.toInt = true :=
    fitsInt64_iff.mpr ⟨n.minValue_le_toInt, n.toInt_le⟩
  refine (recovers_getNumber (fits_of_fitsInt64 hfits)).bind ?_
  rw [getInt64, if_pos hfits, Int64.ofInt_toInt]

theorem recovers_getBool (b : Bool) : Recovers Raw.getBool (bool b) b := ⟨Raw.scans_bool b, rfl⟩

theorem recovers_getString (s : String) :
    Recovers Raw.getString (str s) s := ⟨Raw.scans_string s, stringOf_escapedText s⟩

/-! ### Options, lists and tables -/

/-- What may be absent comes back if its reader refuses `null`. -/
theorem recovers_getOption {g : α → Json} {u : α → β} {f : Raw → Except JsonError β} {o : Option α}
    (hnull : ∀ b, f .null ≠ .ok b) (h : ∀ a ∈ o, Recovers f (g a) (u a)) :
    Recovers (Raw.getOption f) (orNull g o) (o.map u) := by
  cases o with
  | none => exact ⟨Raw.scans_null, rfl⟩
  | some a =>
    obtain ⟨hscans, hvalue⟩ := h a rfl
    refine ⟨hscans, ?_⟩
    show Raw.getOption f (g a).toRaw = .ok (some (u a))
    unfold Raw.getOption
    split
    · rename_i hraw
      rw [hraw] at hvalue
      exact (hnull _ hvalue).elim
    · rw [hvalue]
      rfl

theorem mapM_map_ok {g : α → κ} {f : κ → Except JsonError β} {u : α → β} {l : List α}
    (h : ∀ a ∈ l, f (g a) = .ok (u a)) : (l.map g).mapM f = .ok (l.map u) := by
  induction l with
  | nil => rfl
  | cons a l ih =>
    obtain ⟨ha, hl⟩ := List.forall_mem_cons.mp h
    rw [List.map_cons, List.mapM_cons, ha, ih hl]
    rfl

theorem scans_arr_map {g : α → Json} {l : List α} (h : ∀ a ∈ l, (g a).toRaw.Scans) :
    (arr (l.map g)).toRaw.Scans := by
  rw [toRaw, rawItems_eq_map, List.map_map]
  exact Raw.scans_arr (List.forall_mem_map.mpr h)

theorem recovers_getList {g : α → Json} {u : α → β} {f : Raw → Except JsonError β} {l : List α}
    (h : ∀ a ∈ l, Recovers f (g a) (u a)) : Recovers (Raw.getList f) (arr (l.map g)) (l.map u) := by
  refine ⟨scans_arr_map fun a ha => (h a ha).scans, ?_⟩
  rw [toRaw, rawItems_eq_map, List.map_map]
  exact mapM_map_ok fun a ha => (h a ha).value

theorem recovers_getList_self {g : α → Json} {l : List α} (h : ∀ a ∈ l, Recovers f (g a) a) :
    Recovers (Raw.getList f) (arr (l.map g)) l := by
  have hlist := recovers_getList (u := id) h
  rwa [List.map_id] at hlist

theorem takeItems_map {g : α → Json} {l : List α} (h : ∀ a ∈ l, Recovers f (g a) a) :
    Raw.takeItems f l.length (l.map fun a => (g a).toRaw) = .ok l := by
  induction l with
  | nil => rfl
  | cons a l ih =>
    obtain ⟨ha, hl⟩ := List.forall_mem_cons.mp h
    rw [List.map_cons, List.length_cons, Raw.takeItems, ha.value, ih hl]
    rfl

theorem recovers_getRow {g : α → Json} {l : List α} (h : ∀ a ∈ l, Recovers f (g a) a) :
    Recovers (Raw.getRow l.length f) (arr (l.map g)) l := by
  refine ⟨scans_arr_map fun a ha => (h a ha).scans, ?_⟩
  rw [toRaw, rawItems_eq_map, List.map_map]
  exact takeItems_map h

theorem scans_obj_of_forall {members : List (String × Json)} (h : ∀ m ∈ members, m.2.toRaw.Scans) :
    (obj members).toRaw.Scans := by
  rw [toRaw, rawMembers_eq_map]
  exact Raw.scans_obj (List.forall_mem_map.mpr fun m hm => ⟨quotable_flatMap _, h m hm⟩)

theorem recovers_getEntries {key : List Char → Except JsonError κ} {f : Raw → Except JsonError ν}
    {name : α → String} {g : α → Json} {k : α → κ} {u : α → ν} {l : List α}
    (hkey : ∀ a ∈ l, key (escapedText (name a)) = .ok (k a)) (h : ∀ a ∈ l, Recovers f (g a) (u a)) :
    Recovers (Raw.getEntries key f) (obj (l.map fun a => (name a, g a))) (l.map fun a =>
      (k a, u a)) := by
  refine ⟨scans_obj_of_forall (List.forall_mem_map.mpr fun a ha => (h a ha).scans), ?_⟩
  rw [toRaw, rawMembers_eq_map, List.map_map]
  refine mapM_map_ok fun a ha => ?_
  show (key (escapedText (name a)) >>= fun k => f (g a).toRaw >>= fun v => pure (k, v)) = _
  rw [hkey a ha, (h a ha).value]
  rfl

/-! ### Choices -/

variable {alternative : String → Option Raw → Except JsonError α} {name : String}

/-- An alternative that has something. -/
theorem recovers_getChoice (halternative : ∀ r, alternative name (some r) = f r)
    (h : Recovers f j a) : Recovers (Raw.getChoice alternative) (obj [(name, j)]) a := by
  refine ⟨scans_obj_of_forall (List.forall_mem_singleton.mpr h.scans), ?_⟩
  show (stringOf (escapedText name) >>= fun name => alternative name (some j.toRaw) >>= fun a =>
      pure a) = _
  rw [stringOf_escapedText]
  show (alternative name (some j.toRaw) >>= fun a => pure a) = _
  rw [halternative, h.value]
  rfl

/-- An alternative that is nothing but its name. -/
theorem recovers_getChoice_name (halternative : alternative name none = .ok a) :
    Recovers (Raw.getChoice alternative) (str name) a := by
  refine ⟨Raw.scans_string name, ?_⟩
  show (stringOf (escapedText name) >>= fun name => alternative name none) = _
  rw [stringOf_escapedText]
  exact halternative

end

/-! ### Records -/

/-- Put into the record `a` one after another, the members make `b`. -/
inductive Fills {α : Type} (put : α → String → Raw → Except JsonError α) : α →
    List (String × Json) → α → Prop
  | nil {a : α} : Fills put a [] a
  | cons {a a₁ b : α} {k : String} {j : Json} {members : List (String × Json)}
      (hscans : j.toRaw.Scans) (hput : put a k j.toRaw = .ok a₁) (hrest : Fills put a₁ members b) :
        Fills put a ((k, j) :: members) b

section

variable {α β : Type} {put : α → String → Raw → Except JsonError α} {a b : α}
    {members : List (String × Json)}

/-- A member that sets a part of the record. -/
theorem Fills.part {f : Raw → Except JsonError β} {k : String} {j : Json} {x : β} {set : β → α}
    (hput : ∀ r, put a k r = f r >>= fun x => pure (set x)) (hpart : Recovers f j x)
    (hrest : Fills put (set x) members b) : Fills put a ((k, j) :: members) b := by
  refine .cons hpart.scans ?_ hrest
  rw [hput, hpart.value]
  rfl

theorem Fills.scans (h : Fills put a members b) : ∀ m ∈ members, m.2.toRaw.Scans := by
  induction h with
  | nil => exact nofun
  | cons hscans _ _ ih => exact List.forall_mem_cons.mpr ⟨hscans, ih⟩

/-- Nothing is refused if the members have, after the keys seen so far, the other keys of the record
in declared order. -/
theorem Fills.putMembers_eq (h : Fills put a members b) {keys : Raw.Keys} {seen : List String}
    (hkeys : keys.map Prod.fst = seen.reverse ++ members.map Prod.fst)
    (hdistinct : (keys.map Prod.fst).Nodup) :
    Raw.putMembers keys put (rawMembers members) seen a = .ok b := by
  induction h generalizing seen with
  | nil =>
    have hall : (keys.all fun key => key.2 || seen.contains key.1) = true := by
      rw [List.all_eq_true]
      intro key hkey
      have hseen : key.1 ∈ seen := by
        have hmem := List.mem_map_of_mem (f := Prod.fst) hkey
        rwa [hkeys, List.map_nil, List.append_nil, List.mem_reverse] at hmem
      rw [List.contains_iff_mem.mpr hseen, Bool.or_true]
    exact if_pos hall
  | @cons a a₁ b k j members hscans hput _ ih =>
    have hknown : (keys.any (·.1 == k)) = true := by
      have hmem : k ∈ keys.map Prod.fst := by simp [hkeys]
      obtain ⟨key, hkey, rfl⟩ := List.mem_map.mp hmem
      exact List.any_eq_true.mpr ⟨key, hkey, BEq.rfl⟩
    have hnew : k ∉ seen := by
      rw [hkeys, List.nodup_append] at hdistinct
      intro hseen
      exact hdistinct.2.2 k (List.mem_reverse.mpr hseen) k List.mem_cons_self rfl
    have hrest : keys.map Prod.fst = (k :: seen).reverse ++ members.map Prod.fst := by
      rw [hkeys, List.map_cons, List.reverse_cons, List.append_assoc, List.singleton_append]
    rw [rawMembers, Raw.putMembers, stringOf_escapedText]
    dsimp only [bind, Except.bind]
    rw [hknown, hput]
    simp only [Bool.not_true, Bool.false_eq_true, if_false, List.contains_iff_mem, hnew]
    exact ih hrest

theorem recovers_getRecord {keys : Raw.Keys} (hkeys : keys.map Prod.fst = members.map Prod.fst)
    (hdistinct : (keys.map Prod.fst).Nodup) (h : Fills put a members b) :
    Recovers (Raw.getRecord keys put a) (obj members) b :=
  ⟨scans_obj_of_forall h.scans, h.putMembers_eq hkeys hdistinct⟩

end

end Json

open Json

/-! ## Values, operands and quads -/

theorem Scalar.recovers_ofRaw (ty : Scalar) : Recovers Scalar.ofRaw (.str ty.name) ty := by
  refine recovers_getChoice_name ?_
  rw [Scalar.ofName?_name]
  rfl

theorem Opcode.recovers_ofRaw (op : Opcode) : Recovers Opcode.ofRaw (.str op.name) op := by
  refine recovers_getChoice_name ?_
  rw [Opcode.ofName?_name]
  rfl

theorem TypeName.ofRaw_null (ty : TypeName) : TypeName.ofRaw .null ≠ .ok ty := by
  intro h
  cases h

theorem TypeName.recovers_ofRaw (ty : TypeName) :
    Recovers TypeName.ofRaw (.str ty.word) ty.canonical :=
  (recovers_getString ty.word).map TypeName.ofWord

theorem Value.recovers_ofRaw {v : Value} (hwords : InWords v.words) (hfloat : v.scalar ≠ .float) :
    Recovers Value.ofRaw v.toJson v := by
  cases v with
  | int n => exact recovers_getChoice (fun _ => rfl) ((recovers_getInt64 n).map Value.int)
  | float x => exact (hfloat rfl).elim
  | bool b => exact recovers_getChoice (fun _ => rfl) ((recovers_getBool b).map Value.bool)
  | string s => exact recovers_getChoice (fun _ => rfl) ((recovers_getString s).map Value.string)
  | pointer a =>
    exact recovers_getChoice (fun _ => rfl)
      ((recovers_getWord (hwords _ List.mem_cons_self)).map Value.pointer)

theorem Operand.recovers_ofRaw {o : Operand} (h : InWords o.words) :
    Recovers Operand.ofRaw o.toJson o := by
  cases o with
  | addr a =>
    exact recovers_getChoice (fun _ => rfl)
      ((recovers_getWord (h _ List.mem_cons_self)).map Operand.addr)
  | ref a =>
    exact recovers_getChoice (fun _ => rfl)
      ((recovers_getWord (h _ List.mem_cons_self)).map Operand.ref)
  | deref a =>
    exact recovers_getChoice (fun _ => rfl)
      ((recovers_getWord (h _ List.mem_cons_self)).map Operand.deref)
  | jump i =>
    exact recovers_getChoice (fun _ => rfl)
      ((recovers_getWord (h _ List.mem_cons_self)).map Operand.jump)
  | immediate n =>
    exact recovers_getChoice (fun _ => rfl)
      ((recovers_getWord (h _ List.mem_cons_self)).map Operand.immediate)
  | function id =>
    exact recovers_getChoice (fun _ => rfl) ((recovers_getString id).map Operand.function)
  | allocHeap => exact recovers_getChoice_name rfl

theorem Operand.ofRaw_null (o : Operand) : Operand.ofRaw .null ≠ .ok o := by
  intro h
  cases h

theorem Operand.recovers_getOption {o : Option Operand} (h : ∀ x ∈ o, InWords x.words) :
    Recovers (Raw.getOption Operand.ofRaw) (orNull Operand.toJson o) o := by
  have hoption := Json.recovers_getOption (u := id) Operand.ofRaw_null fun x hx =>
    Operand.recovers_ofRaw (h x hx)
  rwa [Option.map_id] at hoption

theorem Quad.recovers_ofRaw {q : Quad} (h : InWords q.words) : Recovers Quad.ofRaw q.toJson q := by
  have hoperand : ∀ o ∈ q.left.toList ++ q.right.toList ++ q.result.toList, InWords o.words :=
    fun o ho => h.of_flatMap ho
  simp only [List.forall_mem_append, Option.mem_toList] at hoperand
  obtain ⟨⟨hleft, hright⟩, hresult⟩ := hoperand
  exact recovers_getRecord rfl (by decide)
    (.part (fun _ => rfl) q.op.recovers_ofRaw
    (.part (fun _ => rfl) (Operand.recovers_getOption hleft)
    (.part (fun _ => rfl) (Operand.recovers_getOption hright)
    (.part (fun _ => rfl) (Operand.recovers_getOption hresult) .nil))))

/-! ## Counts, constants and functions -/

theorem PerScalar.recovers_ofRaw {r : PerScalar Nat} (h : InWords r.toList) :
    Recovers PerScalar.ofRaw r.toJson r := by
  refine (recovers_getRow fun n hn => recovers_getWord (h n hn)).bind ?_
  rw [PerScalar.ofList?_toList]
  rfl

theorem PerSegment.recovers_ofRaw {sizes : Sizes}
    (h : InWords (sizes.toList.flatMap PerScalar.toList)) :
    Recovers PerSegment.ofRaw (.arr (sizes.toList.map PerScalar.toJson)) sizes := by
  refine (recovers_getRow fun r hr => PerScalar.recovers_ofRaw (h.of_flatMap hr)).bind ?_
  rw [PerSegment.ofList?_toList]
  rfl

theorem Sizes.recovers_ofRaw {sizes : Sizes} (h : InWords (sizes.toList.flatMap PerScalar.toList)) :
    Recovers Sizes.ofRaw (Sizes.toJson sizes) sizes := by
  have hrows := PerSegment.recovers_ofRaw h
  exact recovers_getRecord rfl (by decide) (.cons hrows.scans hrows.value .nil)

theorem SlotCounts.recovers_ofRaw {c : SlotCounts} (h : InWords c.words) :
    Recovers SlotCounts.ofRaw c.toJson c := by
  obtain ⟨hlocals, htemporaries⟩ := List.forall_mem_append.mp h
  exact recovers_getRecord rfl (by decide)
    (.part (fun _ => rfl) (PerScalar.recovers_ofRaw hlocals)
    (.part (fun _ => rfl) (PerScalar.recovers_ofRaw htemporaries) .nil))

theorem Constant.recovers_ofRaw {c : Constant} (hwords : InWords c.value.words)
    (hfloat : c.value.scalar ≠ .float) : Recovers Constant.ofRaw c.toJson c :=
  recovers_getRecord rfl (by decide)
    (.part (fun _ => rfl) (Value.recovers_ofRaw hwords hfloat)
    (.part (fun _ => rfl) c.ty.recovers_ofRaw .nil))

/-- A function comes back with its types as their words are read. -/
theorem Routine.recovers_ofRaw {r : Routine} (h : InWords r.words) :
    Recovers Routine.ofRaw r.toJson r.canonical := by
  simp only [InWords, Routine.words, List.forall_mem_append, List.forall_mem_cons] at h
  obtain ⟨⟨⟨⟨hstart, -⟩, haddress⟩, -⟩, hslots⟩ := h
  exact recovers_getRecord rfl (by decide)
    (.part (fun _ => rfl) (recovers_getWord hstart)
    (.part (fun _ => rfl) (recovers_getOption TypeName.ofRaw_null fun ty _ => ty.recovers_ofRaw)
    (.part (fun _ => rfl) (recovers_getList fun ty _ => ty.recovers_ofRaw)
    (.part (fun _ => rfl) (recovers_getList_self fun a ha => recovers_getWord (haddress a ha))
    (.part (fun _ => rfl) (SlotCounts.recovers_ofRaw hslots) .nil)))))

/-! ## Programs -/

theorem escaped_digitChar : ∀ d < 10, escaped (Nat.digitChar d) = [Nat.digitChar d] := by decide

theorem flatMap_escaped_toDigits (n : Nat) :
    (Nat.toDigits 10 n).flatMap escaped = Nat.toDigits 10 n := by
  induction n using Nat.strongRecOn with
  | _ n ih =>
    by_cases hn : n < 10
    · rw [Nat.toDigits_of_lt_base hn, List.flatMap_singleton, escaped_digitChar n hn]
    · rw [Nat.toDigits_of_base_le (by decide) (by omega), List.flatMap_append,
        List.flatMap_singleton, ih (n / 10) (by omega), escaped_digitChar (n % 10) (by omega)]

/-- The key of an address is its decimal text. -/
theorem escapedText_repr (n : Nat) : escapedText n.repr = (Decimal.intText n).toList := by
  rw [Numeral.toList_intText, Numeral.text_ofInt, if_neg (by omega), Int.natAbs_natCast,
    List.nil_append, escapedText, Nat.toList_repr, flatMap_escaped_toDigits]

theorem addressOfKey_of_readNumber {key : List Char} {j : Json} {a : Nat}
    (hnumber : readNumber key = .ok (j, [])) (hword : getWord j = .ok a) :
    addressOfKey key = .ok a := by
  rw [addressOfKey, hnumber]
  dsimp only [bind, Except.bind]
  rw [hword]
  rfl

theorem addressOfKey_repr {a : Nat} (h : a < UInt64.size) :
    addressOfKey (escapedText a.repr) = .ok a := by
  refine addressOfKey_of_readNumber ?_ (getWord_natCast h)
  rw [escapedText_repr, ← List.append_nil (Decimal.intText a).toList,
    readNumber_intText (fits_natCast h) ends_nil]

namespace Program

/-- A program comes back with its types as their words are read. -/
theorem recovers_ofRaw {p : Program} (hwords : InWords p.words)
    (hfloat : ∀ e ∈ p.constants.entries, e.2.value.scalar ≠ .float) :
    Recovers ofRaw p.toJson p.canonical := by
  simp only [InWords, words, List.forall_mem_append, List.forall_mem_cons] at hwords
  obtain ⟨⟨⟨⟨⟨hcounts, hsizes⟩, hconstants⟩, hfunctions⟩, hglobals⟩, hquads⟩ := hwords
  obtain ⟨-, -, -, hheap, -⟩ := hcounts
  have haddress : ∀ e ∈ p.constants.entries, addressOfKey (escapedText e.1.repr) = .ok e.1 :=
    fun e he =>
    addressOfKey_repr (List.forall_mem_cons.mp (InWords.of_flatMap hconstants he)).1
  have hconstant : ∀ e ∈ p.constants.entries, Recovers Constant.ofRaw e.2.toJson e.2 := fun e he =>
    Constant.recovers_ofRaw (List.forall_mem_cons.mp (InWords.of_flatMap hconstants he)).2
      (hfloat e he)
  have hconstantTable := recovers_getEntries haddress hconstant
  rw [show (p.constants.entries.map fun e => (e.1, e.2)) = p.constants.entries from List.map_id
    _] at hconstantTable
  have hfunction : ∀ e ∈ p.functions.entries, Recovers Routine.ofRaw e.2.toJson e.2.canonical :=
    fun e he =>
    Routine.recovers_ofRaw (List.forall_mem_cons.mp (InWords.of_flatMap hfunctions he)).2
  have hquad : ∀ q ∈ p.quads.toList, Recovers Quad.ofRaw q.toJson q := fun q hq =>
    Quad.recovers_ofRaw (InWords.of_flatMap hquads hq)
  rw [canonical_eq_ofList]
  exact recovers_getRecord rfl (by decide)
    (.part (fun _ => rfl) (Sizes.recovers_ofRaw hsizes)
    (.part (fun _ => rfl) hconstantTable
    (.part (fun _ => rfl) (recovers_getEntries (fun e _ => stringOf_escapedText e.1) hfunction)
    (.part (fun _ => rfl) (SlotCounts.recovers_ofRaw hglobals)
    (.part (fun _ => rfl) (recovers_getList_self hquad)
    (.part (fun _ => rfl) (recovers_getWord hheap) .nil))))))

/-- A program without float constants is read back exactly from its text, unless it mentions a class
with the name of a scalar. -/
theorem parse_jsonText {p : Program} (hwords : InWords p.words)
    (hfloat : ∀ e ∈ p.constants.entries, e.2.value.scalar ≠ .float) :
    parse p.jsonText = .ok p ↔ ∀ ty ∈ p.typeNames, ty.Proper := by
  obtain ⟨hscans, hvalue⟩ := recovers_ofRaw hwords hfloat
  have hread : parse p.jsonText = .ok p.canonical := by
    rw [parse, jsonText, Json.pretty, hscans.parse_pretty]
    exact hvalue
  rw [hread, Except.ok.injEq, canonical_eq_self_iff]
  simp only [TypeName.canonical_eq_self_iff]

/-- A program with an operand of every shape, a value of every shape but floats, the least integer,
the largest address as a key, and names and texts that need escapes. -/
def everyEscape : Program where
  sizes := Sizes.standard
  constants := Table.ofList [(0, ⟨.int Int64.minValue, .int⟩), (17000, ⟨.bool false, .float⟩),
    (18000, ⟨.string "\"\\/\x08\x0c\n\r\t\x00\x1f\x7f año € 𝄞", .string⟩),
    (18001, ⟨.string "", .string⟩), (UInt64.size - 1, ⟨.pointer (UInt64.size - 1), .pointer⟩)]
  functions := Table.ofList [("", ⟨0, none, [], [], SlotCounts.zero⟩),
    ("\"área\"\n", ⟨3, some (.object "C\\írculo"), [.object "\x01", .scalar .float],
      [9000, UInt64.size - 1], ⟨PerScalar.const 2, PerScalar.const 300⟩⟩)]
  globals := ⟨PerScalar.const 1, PerScalar.const 0⟩
  quads := #[⟨.assign, some (.addr 15000), none, some (.deref 14000)⟩,
    ⟨.pointerAssign, some .allocHeap, some (.immediate 16384), some (.ref 4000)⟩,
    ⟨.are, some (.function "\"área\"\n"), none, none⟩, ⟨.goto, none, none, some (.jump 2)⟩]
  heapStart := UInt64.size - 1

theorem parse_jsonText_everyEscape :
    InWords everyEscape.words ∧ (∀ e ∈ everyEscape.constants.entries, e.2.value.scalar ≠ .float) ∧
      (∀ ty ∈ everyEscape.typeNames, ty.Proper) ∧ parse everyEscape.jsonText = .ok everyEscape := by
  have hwords : InWords everyEscape.words := by decide +kernel
  have hfloat : ∀ e ∈ everyEscape.constants.entries, e.2.value.scalar ≠ .float := by decide +kernel
  have hnames : ∀ ty ∈ everyEscape.typeNames, ty.Proper := by decide +kernel
  exact ⟨hwords, hfloat, hnames, (parse_jsonText hwords hfloat).mpr hnames⟩

end Program

end Quadruple
