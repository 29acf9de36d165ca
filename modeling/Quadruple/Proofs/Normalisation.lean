/-
  Decoding normalises.

  A decoder accepts more than the encoder writes: numbers padded with empty groups, the entries of a
  table in any order and with repeated keys, and whatever follows a program.  So the bytes of a
  program that was read need not be the bytes it was read from.  They are no longer, and they are
  read as the same program.

  `Spends d R` is the account that is kept of a decoder: whenever it accepts, what it gives and the
  number of bytes that it took off the input are related by `R`.  Accounts add up along a sequence
  (`Spends.bind`).  `Shrinks` is the account that matters here:

      d input = ok (a, rest)  →  (encode a).length + rest.length ≤ input.length

  Each leniency is a lemma: padding makes a number longer and not
  larger (`shrinks_takeGroups`), and a table has no entries besides those that were listed
  (`Table.subperm_ofList`).  Every number, length and type that is read is one that the encoder can
  write, so the round trip applies to what was decoded.
-/
import Mathlib.Data.List.Flatten
import Mathlib.Data.List.Perm.Subperm
import Quadruple.Proofs.ProgramBytes

namespace Quadruple

variable {α β : Type}

/-! ## Accounts -/

/-- Whenever the decoder accepts, its result and the number of bytes it took are related. -/
def Spends (d : Decoder α) (R : α → Nat → Prop) : Prop :=
  ∀ input a rest, d input = .ok (a, rest) → ∃ n, input.length = n + rest.length ∧ R a n

/-- Whenever the decoder accepts, its result has a property and is written in no more bytes than
were taken. -/
def Shrinks (d : Decoder α) (f : α → Bytes) (P : α → Prop) : Prop :=
  Spends d fun a n => P a ∧ (f a).length ≤ n

theorem spends_pure {a : α} {R : α → Nat → Prop} (h : R a 0) : Spends (pure a) R := by
  rintro input _ _ ⟨rfl⟩
  exact ⟨0, (Nat.zero_add _).symm, h⟩

theorem spends_throw (e : DecodeError) (R : α → Nat → Prop) : Spends (throw e) R := by
  rintro input _ _ ⟨⟩

theorem Spends.bind {d : Decoder α} {f : α → Decoder β} {R : α → Nat → Prop} {S : β → Nat → Prop}
    (hd : Spends d R) (hf : ∀ a n, R a n → Spends (f a) fun b m => S b (n + m)) :
    Spends (d >>= f) S := by
  intro input b rest h
  cases hfirst : d input with
  | error e =>
    rw [Decoder.bind_of_error hfirst] at h
    cases h
  | ok result =>
    obtain ⟨a, middle⟩ := result
    rw [Decoder.bind_of_ok hfirst] at h
    obtain ⟨n, hn, ha⟩ := hd input a middle hfirst
    obtain ⟨m, hm, hb⟩ := hf a n ha middle b rest h
    exact ⟨n + m, by omega, hb⟩

theorem Spends.map {d : Decoder α} {R : α → Nat → Prop} {S : β → Nat → Prop} (hd : Spends d R)
    (f : α → β) (h : ∀ a n, R a n → S (f a) n) : Spends (d >>= fun a => pure (f a)) S :=
  hd.bind fun a n ha => spends_pure (h a n ha)

namespace Bytes

/-! ## Numbers -/

theorem spends_takeByte : Spends takeByte fun _ n => n = 1 := by
  intro input b rest h
  cases input with
  | nil => cases h
  | cons c input =>
    cases h
    exact ⟨1, by rw [List.length_cons]; omega, rfl⟩

theorem spends_takeBytes (k : Nat) :
    Spends (takeBytes k) fun bytes n => bytes.length = k ∧ n = k := by
  intro input bytes rest h
  unfold takeBytes at h
  split at h
  · cases h
  rename_i henough
  cases h
  refine ⟨k, ?_, ?_, rfl⟩
  · rw [List.length_drop]
    omega
  · rw [List.length_take]
    omega

/-- Groups that are read are as many as the number needs, or more.  By induction on the groups
before the last: a group that says that more follow is one that the encoder may not need, namely
when all that follow are empty. -/
theorem shrinks_takeGroups {top : Nat} (htop : top < 128) : ∀ more : Nat,
    Shrinks (takeGroups top more) (groups more) fun n => n < (top + 1) * Nat.pow 128 more
  | 0 => by
    refine spends_takeByte.bind fun b k hk => ?_
    subst hk
    split
    · rename_i hb
      refine spends_pure ⟨?_, Nat.le_refl _⟩
      show b.toNat < (top + 1) * 1
      omega
    · exact spends_throw _ _
  | more + 1 => by
    have hpow : Nat.pow 128 (more + 1) = Nat.pow 128 more * 128 := rfl
    have hpos : 0 < Nat.pow 128 more := Nat.pow_pos (by decide)
    refine spends_takeByte.bind fun b k hk => ?_
    subst hk
    split
    · rename_i hlast
      refine spends_pure ⟨?_, ?_⟩
      · have hle : 1 * 1 ≤ (top + 1) * Nat.pow 128 more := Nat.mul_le_mul (by omega) hpos
        rw [hpow, ← Nat.mul_assoc]
        omega
      · rw [groups, if_pos hlast]
        exact Nat.le_refl 1
    · refine (shrinks_takeGroups htop more).map _ ?_
      rintro n k ⟨hn, hk⟩
      have hb : b.toNat < 256 := b.toNat_lt
      refine ⟨?_, ?_⟩
      · rw [hpow, ← Nat.mul_assoc]
        omega
      · rw [groups]
        split
        · exact Nat.le_add_right 1 k
        · have hrest : (b.toNat - 128 + 128 * n) / 128 = n := by omega
          rw [hrest, List.length_cons]
          omega

theorem shrinks_takeWord :
    Shrinks takeWord ofWord (· < UInt64.size) := shrinks_takeGroups (by decide) 9

theorem shrinks_takeTag :
    Shrinks takeTag ofTag (· < UInt32.size) := shrinks_takeGroups (by decide) 4

/-- A larger number has no fewer groups. -/
theorem length_groups_mono :
    ∀ (more : Nat) {m n : Nat}, m ≤ n → (groups more m).length ≤ (groups more n).length
  | 0, _, _, _ => Nat.le_refl 1
  | more + 1, m, n, h => by
    have hrest := length_groups_mono more (Nat.div_le_div_right (c := 128) h)
    rw [groups, groups]
    split
    · split
      · exact Nat.le_refl 1
      · show 1 ≤ (groups more (n / 128)).length + 1
        omega
    · rw [if_neg (by omega), List.length_cons, List.length_cons]
      omega

theorem zigzag_unzigzag (n : Nat) : zigzag (unzigzag n) = n := by
  unfold zigzag unzigzag
  split
  · rw [if_pos (by omega)]
    omega
  · rw [if_neg (by omega)]
    omega

theorem shrinks_takeInt64 : Shrinks takeInt64 ofInt64 fun _ => True := by
  refine shrinks_takeWord.map _ ?_
  rintro n k ⟨hn, hk⟩
  have hn : n < 18446744073709551616 := hn
  have hrange : -2 ^ 63 ≤ unzigzag n ∧ unzigzag n < 2 ^ 63 := by
    unfold unzigzag
    split
    · omega
    · omega
  refine ⟨trivial, ?_⟩
  rw [ofInt64, Int64.toInt_ofInt_of_le hrange.1 hrange.2, zigzag_unzigzag]
  exact hk

/-! ## Doubles, truth values and texts -/

theorem shrinks_takeFloat : Shrinks takeFloat ofFloat fun _ => True := by
  refine (spends_takeBytes 8).map _ ?_
  rintro bytes k ⟨-, rfl⟩
  exact ⟨trivial, Nat.le_of_eq (length_littleEndian 8 _)⟩

theorem shrinks_takeBool : Shrinks takeBool ofBool fun _ => True := by
  refine spends_takeByte.bind fun b k hk => ?_
  subst hk
  split
  · exact spends_pure ⟨trivial, Nat.le_refl 1⟩
  split
  · exact spends_pure ⟨trivial, Nat.le_refl 1⟩
  · exact spends_throw _ _

/-- A text has the bytes it was read from. -/
theorem utf8_of_text? {bytes : Bytes} {s : String} (h : text? bytes = some s) : utf8 s = bytes := by
  unfold text? String.fromUTF8? at h
  split at h
  · cases h
    rfl
  · cases h

theorem shrinks_takeText : Shrinks takeText ofText fun s => textWord s < UInt64.size := by
  refine shrinks_takeWord.bind fun length k hlength => ?_
  refine (spends_takeBytes length).bind fun bytes k' hbytes => ?_
  obtain ⟨hword, hk⟩ := hlength
  obtain ⟨rfl, rfl⟩ := hbytes
  split
  · rename_i s hs
    have hutf8 := utf8_of_text? hs
    refine spends_pure ⟨?_, ?_⟩
    · show (utf8 s).length < UInt64.size
      rw [hutf8]
      exact hword
    · rw [ofText, hutf8, List.length_append]
      omega
  · exact spends_throw _ _

/-! ## Options, pairs and sequences -/

theorem shrinks_takeOption {d : Decoder α} {f : α → Bytes} {P : α → Prop} (hd : Shrinks d f P) :
    Shrinks (takeOption d) (ofOption f) fun o => ∀ a ∈ o, P a := by
  refine spends_takeByte.bind fun b k hk => ?_
  subst hk
  split
  · refine spends_pure ⟨?_, Nat.le_refl 1⟩
    rintro _ ⟨⟩
  · split
    · refine hd.map some ?_
      rintro a k ⟨ha, hk⟩
      refine ⟨?_, ?_⟩
      · rintro _ ⟨rfl⟩
        exact ha
      · rw [ofOption, List.length_cons]
        omega
    · exact spends_throw _ _

theorem shrinks_takePair {d : Decoder α} {d' : Decoder β} {f : α → Bytes} {g : β → Bytes}
    {P : α → Prop} {Q : β → Prop} (hd : Shrinks d f P) (hd' : Shrinks d' g Q) :
    Shrinks (takePair d d') (fun e => f e.1 ++ g e.2) fun e => P e.1 ∧ Q e.2 := by
  refine hd.bind fun a k ha => hd'.map _ fun b k' hb => ?_
  obtain ⟨ha, hk⟩ := ha
  obtain ⟨hb, hk'⟩ := hb
  refine ⟨⟨ha, hb⟩, ?_⟩
  show (f a ++ g b).length ≤ k + k'
  rw [List.length_append]
  omega

/-- By induction on the number of items, each read after those before it. -/
theorem spends_takeMany {d : Decoder α} {f : α → Bytes} {P : α → Prop} (hd : Shrinks d f P) :
    ∀ count : Nat,
    Spends (takeMany d count) fun l k => l.length = count ∧ (∀ a ∈ l, P a) ∧
    (l.flatMap f).length ≤ k
  | 0 => by
    refine spends_pure ⟨rfl, ?_, Nat.le_refl 0⟩
    rintro _ ⟨⟩
  | count + 1 => by
    refine hd.bind fun a k ha => (spends_takeMany hd count).map _ fun l k' hl => ?_
    obtain ⟨ha, hk⟩ := ha
    obtain ⟨hcount, hl, hk'⟩ := hl
    refine ⟨?_, List.forall_mem_cons.mpr ⟨ha, hl⟩, ?_⟩
    · rw [List.length_cons, hcount]
    · rw [List.flatMap_cons, List.length_append]
      omega

theorem shrinks_takeList {d : Decoder α} {f : α → Bytes} {P : α → Prop} (hd : Shrinks d f P) :
    Shrinks (takeList d) (ofList f) fun l => l.length < UInt64.size ∧ ∀ a ∈ l, P a := by
  refine shrinks_takeWord.bind fun count k hcount => ?_
  obtain ⟨hword, hk⟩ := hcount
  rintro input l rest h
  obtain ⟨k', hk', hlength, hl, hitems⟩ := spends_takeMany hd count input l rest h
  subst hlength
  refine ⟨k', hk', ⟨hword, hl⟩, ?_⟩
  rw [ofList, List.length_append]
  omega

/-- Some of the items, in whatever order, take no more bytes than all of them. -/
theorem length_ofList_le (f : α → Bytes) {l l' : List α} (h : l.Subperm l') :
    (ofList f l).length ≤ (ofList f l').length := by
  obtain ⟨m, hperm, hsub⟩ := h
  have hcount : (ofWord l.length).length ≤ (ofWord l'.length).length :=
    length_groups_mono 9 (hperm.length_eq ▸ hsub.length_le)
  have hitems : (l.flatMap f).length ≤ (l'.flatMap f).length :=
    (hperm.flatMap_right f).length_eq ▸ (hsub.flatMap f).length_le
  rw [ofList, ofList, List.length_append, List.length_append]
  omega

end Bytes

/-! ## Tables -/

namespace Table

variable {κ ν : Type} [Ord κ]

/-- An entry that is put at its place is added, or takes the place of another. -/
theorem subperm_insertEntry (k : κ) (v : ν) :
    ∀ l : List (κ × ν), (insertEntry k v l).Subperm ((k, v) :: l)
  | [] => List.Subperm.refl _
  | (k', v') :: rest => by
    rw [insertEntry]
    split
    · exact List.Subperm.refl _
    · exact ((List.sublist_cons_self _ _).cons_cons _).subperm
    · have hrest := (List.subperm_cons (k', v')).mpr (subperm_insertEntry k v rest)
      exact hrest.trans (List.Perm.swap _ _ _).subperm

variable [Std.TransOrd κ] [Std.LawfulEqOrd κ]

/-- A table has no entries besides those it was made of, and none of them twice. -/
theorem subperm_ofList (l : List (κ × ν)) : (ofList l).entries.Subperm l := by
  have hfold : ∀ (l : List (κ × ν)) (t : Table κ ν),
      (l.foldl (fun t e => t.insert e.1 e.2) t).entries.Subperm (t.entries ++ l) := by
    intro l
    induction l with
    | nil =>
      intro t
      rw [List.append_nil]
      exact List.Subperm.refl _
    | cons e rest ih =>
      intro t
      have hstep : ((t.insert e.1 e.2).entries ++ rest).Subperm ((e :: t.entries) ++ rest) :=
        (List.subperm_append_right rest).mpr (subperm_insertEntry e.1 e.2 t.entries)
      exact ((ih (t.insert e.1 e.2)).trans hstep).trans List.perm_middle.symm.subperm
  exact hfold l empty

end Table

open Bytes

/-! ## The parts of a program -/

/-- Alternatives listed in the order of their numbers have their places for numbers. -/
theorem number_of_getElem? {number : α → Nat} {all : List α} {count i : Nat} {a : α}
    (hall : all.map number = List.range count) (h : all[i]? = some a) : number a = i := by
  have hi : (all.map number)[i]? = some (number a) := by rw [List.getElem?_map, h]; rfl
  rw [hall, List.getElem?_eq_some_iff] at hi
  obtain ⟨_, hi⟩ := hi
  rw [← hi, List.getElem_range]

theorem Scalar.shrinks_decode : Shrinks Scalar.decode Scalar.toBytes fun _ => True := by
  refine shrinks_takeTag.bind fun tag k htag => ?_
  split
  · rename_i ty hty
    have hall : Scalar.all.map Scalar.index = List.range 5 := by decide
    have hindex : ty.index = tag := number_of_getElem? hall hty
    refine spends_pure ⟨trivial, ?_⟩
    rw [Scalar.toBytes, hindex]
    exact htag.2
  · exact spends_throw _ _

theorem Opcode.shrinks_decode : Shrinks Opcode.decode Opcode.toBytes fun _ => True := by
  refine shrinks_takeTag.bind fun tag k htag => ?_
  split
  · rename_i op hop
    have hall : Opcode.all.map Opcode.index = List.range 31 := by decide
    have hindex : op.index = tag := number_of_getElem? hall hop
    refine spends_pure ⟨trivial, ?_⟩
    rw [Opcode.toBytes, hindex]
    exact htag.2
  · exact spends_throw _ _

/-- A type is read from a word, so it is written as that word, and it is never a class with the name
of a scalar. -/
theorem TypeName.shrinks_decode :
    Shrinks TypeName.decode TypeName.toBytes fun ty => textWord ty.word < UInt64.size ∧
    ty.Proper := by
  refine shrinks_takeText.map TypeName.ofWord ?_
  rintro w k ⟨hw, hk⟩
  have hword : (TypeName.ofWord w).word = w := word_ofWord w
  refine ⟨⟨?_, proper_ofWord w⟩, ?_⟩
  · rw [hword]
    exact hw
  · rw [TypeName.toBytes, hword]
    exact hk

/-- An alternative with one part: its number, then the part. -/
theorem Shrinks.tagged {d : Decoder α} {f : α → Bytes} {P : α → Prop} (hd : Shrinks d f P)
    {make : α → β} {g : β → Bytes} {Q : β → Prop} {tag k : Nat} (htag : (ofTag tag).length ≤ k)
    (hg : ∀ a, g (make a) = ofTag tag ++ f a) (hQ : ∀ a, P a → Q (make a)) :
    Spends (d >>= fun a => pure (make a)) fun b n => Q b ∧ (g b).length ≤ k + n := by
  refine hd.map make ?_
  rintro a n ⟨ha, hn⟩
  refine ⟨hQ a ha, ?_⟩
  rw [hg, List.length_append]
  omega

theorem inWords_nil : InWords [] := List.forall_mem_nil _

theorem inWords_singleton {n : Nat} (h : n < UInt64.size) :
    InWords [n] := List.forall_mem_singleton.mpr h

theorem Value.shrinks_decode : Shrinks Value.decode Value.toBytes fun v => InWords v.words := by
  refine shrinks_takeTag.bind fun tag k htag => ?_
  obtain ⟨-, htag⟩ := htag
  split
  · exact shrinks_takeInt64.tagged htag (fun _ => rfl) fun _ _ => inWords_nil
  · exact shrinks_takeFloat.tagged htag (fun _ => rfl) fun _ _ => inWords_nil
  · exact shrinks_takeBool.tagged htag (fun _ => rfl) fun _ _ => inWords_nil
  · exact shrinks_takeText.tagged htag (fun _ => rfl) fun _ => inWords_singleton
  · exact shrinks_takeWord.tagged htag (fun _ => rfl) fun _ => inWords_singleton
  · exact spends_throw _ _

theorem Operand.shrinks_decode :
    Shrinks Operand.decode Operand.toBytes fun o => InWords o.words := by
  refine shrinks_takeTag.bind fun tag k htag => ?_
  obtain ⟨-, htag⟩ := htag
  split
  · exact shrinks_takeWord.tagged htag (fun _ => rfl) fun _ => inWords_singleton
  · exact shrinks_takeWord.tagged htag (fun _ => rfl) fun _ => inWords_singleton
  · exact shrinks_takeWord.tagged htag (fun _ => rfl) fun _ => inWords_singleton
  · exact shrinks_takeWord.tagged htag (fun _ => rfl) fun _ => inWords_singleton
  · exact shrinks_takeWord.tagged htag (fun _ => rfl) fun _ => inWords_singleton
  · exact shrinks_takeText.tagged htag (fun _ => rfl) fun _ => inWords_singleton
  · exact spends_pure ⟨inWords_nil, htag⟩
  · exact spends_throw _ _

theorem Quad.shrinks_decode : Shrinks Quad.decode Quad.toBytes fun q => InWords q.words := by
  have hoperand := shrinks_takeOption Operand.shrinks_decode
  refine Opcode.shrinks_decode.bind fun op k₁ hop => ?_
  refine hoperand.bind fun left k₂ hleft => hoperand.bind fun right k₃ hright =>
    hoperand.map _ fun result k₄ hresult => ?_
  obtain ⟨-, hop⟩ := hop
  obtain ⟨hleft, hk₂⟩ := hleft
  obtain ⟨hright, hk₃⟩ := hright
  obtain ⟨hresult, hk₄⟩ := hresult
  refine ⟨?_, ?_⟩
  · intro n hn
    obtain ⟨o, ho, hn⟩ := List.mem_flatMap.mp hn
    simp only [List.mem_append, Option.mem_toList] at ho
    rcases ho with (ho | ho) | ho
    · exact hleft o ho n hn
    · exact hright o ho n hn
    · exact hresult o ho n hn
  · simp only [Quad.toBytes, List.length_append]
    omega

/-! ## Counts, constants and functions -/

theorem PerScalar.shrinks_decode :
    Shrinks PerScalar.decode PerScalar.toBytes fun r => InWords r.toList := by
  refine shrinks_takeWord.bind fun int k₁ hint => ?_
  refine shrinks_takeWord.bind fun float k₂ hfloat => ?_
  refine shrinks_takeWord.bind fun bool k₃ hbool => ?_
  refine shrinks_takeWord.bind fun string k₄ hstring => ?_
  refine shrinks_takeWord.map _ fun pointer k₅ hpointer => ?_
  refine ⟨?_, ?_⟩
  · simp only [InWords, PerScalar.toList, List.forall_mem_cons]
    exact ⟨hint.1, hfloat.1, hbool.1, hstring.1, hpointer.1, List.forall_mem_nil _⟩
  · have hk₁ := hint.2
    have hk₂ := hfloat.2
    have hk₃ := hbool.2
    have hk₄ := hstring.2
    have hk₅ := hpointer.2
    simp only [PerScalar.toBytes, PerScalar.toList, List.flatMap_cons, List.flatMap_nil,
      List.length_append, List.length_nil]
    omega

theorem Sizes.shrinks_decode :
    Shrinks Sizes.decode Sizes.toBytes fun sizes =>
      InWords (sizes.toList.flatMap PerScalar.toList) := by
  refine PerScalar.shrinks_decode.bind fun globals k₁ hglobals => ?_
  refine PerScalar.shrinks_decode.bind fun locals k₂ hlocals => ?_
  refine PerScalar.shrinks_decode.bind fun temporaries k₃ htemporaries => ?_
  refine PerScalar.shrinks_decode.map _ fun constants k₄ hconstants => ?_
  refine ⟨?_, ?_⟩
  · simp only [InWords, PerSegment.toList, List.flatMap_cons, List.flatMap_nil,
      List.forall_mem_append]
    exact ⟨hglobals.1, hlocals.1, htemporaries.1, hconstants.1, List.forall_mem_nil _⟩
  · have hk₁ := hglobals.2
    have hk₂ := hlocals.2
    have hk₃ := htemporaries.2
    have hk₄ := hconstants.2
    simp only [Sizes.toBytes, PerSegment.toList, List.flatMap_cons, List.flatMap_nil,
      List.length_append, List.length_nil]
    omega

theorem SlotCounts.shrinks_decode :
    Shrinks SlotCounts.decode SlotCounts.toBytes fun c => InWords c.words := by
  refine PerScalar.shrinks_decode.bind fun locals k₁ hlocals => ?_
  refine PerScalar.shrinks_decode.map _ fun temporaries k₂ htemporaries => ?_
  obtain ⟨hlocals, hk₁⟩ := hlocals
  obtain ⟨htemporaries, hk₂⟩ := htemporaries
  refine ⟨List.forall_mem_append.mpr ⟨hlocals, htemporaries⟩, ?_⟩
  simp only [SlotCounts.toBytes, List.length_append]
  omega

theorem Constant.shrinks_decode :
    Shrinks Constant.decode Constant.toBytes fun c => InWords c.value.words := by
  refine Value.shrinks_decode.bind fun value k₁ hvalue => Scalar.shrinks_decode.map _
    fun ty k₂ hty => ?_
  obtain ⟨hvalue, hk₁⟩ := hvalue
  obtain ⟨-, hk₂⟩ := hty
  refine ⟨hvalue, ?_⟩
  simp only [Constant.toBytes, List.length_append]
  omega

theorem Routine.shrinks_decode :
    Shrinks Routine.decode Routine.toBytes fun r => InWords r.words ∧
    ∀ ty ∈ r.typeNames, ty.Proper := by
  refine shrinks_takeWord.bind fun startQuad k₁ hstart => ?_
  refine (shrinks_takeOption TypeName.shrinks_decode).bind fun returnType k₂ hreturn => ?_
  refine (shrinks_takeList TypeName.shrinks_decode).bind fun paramTypes k₃ hparams => ?_
  refine (shrinks_takeList shrinks_takeWord).bind fun paramAddresses k₄ haddresses => ?_
  refine SlotCounts.shrinks_decode.map _ fun slots k₅ hslots => ?_
  obtain ⟨hstart, hk₁⟩ := hstart
  obtain ⟨hreturn, hk₂⟩ := hreturn
  obtain ⟨⟨hcount, hparams⟩, hk₃⟩ := hparams
  obtain ⟨⟨hcount', haddresses⟩, hk₄⟩ := haddresses
  obtain ⟨hslots, hk₅⟩ := hslots
  refine ⟨⟨?_, ?_⟩, ?_⟩
  · simp only [InWords, Routine.words, List.forall_mem_append, List.forall_mem_cons,
      List.forall_mem_map, Routine.typeNames, Option.mem_toList]
    exact ⟨⟨⟨⟨hstart, hcount, hcount', List.forall_mem_nil _⟩, haddresses⟩, fun ty hty =>
      (hreturn ty hty).1, fun ty hty => (hparams ty hty).1⟩, hslots⟩
  · simp only [Routine.typeNames, List.forall_mem_append, Option.mem_toList]
    exact ⟨fun ty hty => (hreturn ty hty).2, fun ty hty => (hparams ty hty).2⟩
  · simp only [Routine.toBytes, List.length_append]
    omega

/-! ## Programs -/

namespace Program

/-- What is read as a program can be written and read again, and is written in no more bytes than
were taken.  The entries of its tables are some of those that were listed. -/
theorem shrinks_decode :
    Shrinks Program.decode Program.toBytes fun p => InWords p.words ∧
    ∀ ty ∈ p.typeNames, ty.Proper := by
  refine Sizes.shrinks_decode.bind fun sizes k₁ hsizes => ?_
  refine (shrinks_takeList (shrinks_takePair shrinks_takeWord Constant.shrinks_decode)).bind
    fun constants k₂ hconstants => ?_
  refine (shrinks_takeList (shrinks_takePair shrinks_takeText Routine.shrinks_decode)).bind
    fun functions k₃ hfunctions => ?_
  refine SlotCounts.shrinks_decode.bind fun globals k₄ hglobals => ?_
  refine (shrinks_takeList Quad.shrinks_decode).bind fun quads k₅ hquads => ?_
  refine shrinks_takeWord.map _ fun heapStart k₆ hheap => ?_
  obtain ⟨hsizes, hk₁⟩ := hsizes
  obtain ⟨⟨hconstantCount, hconstants⟩, hk₂⟩ := hconstants
  obtain ⟨⟨hfunctionCount, hfunctions⟩, hk₃⟩ := hfunctions
  obtain ⟨hglobals, hk₄⟩ := hglobals
  obtain ⟨⟨hquadCount, hquads⟩, hk₅⟩ := hquads
  obtain ⟨hheap, hk₆⟩ := hheap
  have hconstantEntries := Table.subperm_ofList constants
  have hfunctionEntries := Table.subperm_ofList functions
  refine ⟨⟨?_, ?_⟩, ?_⟩
  · simp only [InWords, words, List.forall_mem_append, List.forall_mem_cons]
    refine ⟨⟨⟨⟨⟨⟨?_, ?_, ?_, hheap, List.forall_mem_nil _⟩, hsizes⟩, ?_⟩, ?_⟩, hglobals⟩, ?_⟩
    · exact Nat.lt_of_le_of_lt hconstantEntries.length_le hconstantCount
    · exact Nat.lt_of_le_of_lt hfunctionEntries.length_le hfunctionCount
    · exact hquadCount
    · intro n hn
      obtain ⟨e, he, hn⟩ := List.mem_flatMap.mp hn
      obtain ⟨haddress, hvalue⟩ := hconstants e (hconstantEntries.subset he)
      have hentry : InWords (e.1 :: e.2.value.words) := List.forall_mem_cons.mpr ⟨haddress, hvalue⟩
      exact hentry n hn
    · intro n hn
      obtain ⟨e, he, hn⟩ := List.mem_flatMap.mp hn
      obtain ⟨hname, hroutine, -⟩ := hfunctions e (hfunctionEntries.subset he)
      have hentry : InWords (textWord e.1 :: e.2.words) :=
        List.forall_mem_cons.mpr ⟨hname, hroutine⟩
      exact hentry n hn
    · intro n hn
      obtain ⟨q, hq, hn⟩ := List.mem_flatMap.mp hn
      exact hquads q hq n hn
  · intro ty hty
    obtain ⟨e, he, hty⟩ := List.mem_flatMap.mp hty
    obtain ⟨-, -, htypes⟩ := hfunctions e (hfunctionEntries.subset he)
    exact htypes ty hty
  · have hconstantBytes := length_ofList_le (fun e => ofWord e.1 ++ e.2.toBytes) hconstantEntries
    have hfunctionBytes := length_ofList_le (fun e => ofText e.1 ++ e.2.toBytes) hfunctionEntries
    simp only [toBytes, List.length_append]
    omega

/-- Whatever bytes are read as a program, the program is written in no more bytes and read from
these again. -/
theorem ofBytes_normalises {b : Bytes} {p : Program} (h : ofBytes b = .ok p) :
    p.toBytes.length ≤ b.length ∧ ofBytes p.toBytes = .ok p := by
  unfold ofBytes at h
  split at h
  · rename_i q rest hdecode
    cases h
    obtain ⟨n, hn, ⟨hwords, hproper⟩, hlength⟩ := shrinks_decode b p rest hdecode
    have hcanonical : p.canonical = p :=
      (canonical_eq_self_iff p).mpr fun ty hty =>
      (TypeName.canonical_eq_self_iff ty).mpr (hproper ty hty)
    have hread := (reads_decode hwords).whole []
    rw [List.append_nil, hcanonical] at hread
    refine ⟨by omega, ?_⟩
    rw [ofBytes, hread]
  · cases h

/-- Bytes that no encoder writes: padded numbers, constants out of order with a key listed twice,
and a tail. -/
def untidy : Bytes :=
  [0x81, 0x80, 0x00] ++ List.replicate 19 0x01 ++ [0x83, 0x00, 7, 0x80, 0x00, 0x85, 0x80, 0x00, 0,
    3, 2, 1, 0x82, 0x00, 0x87, 0x00, 3, 2, 0xC3, 0xA9, 3, 1, 4, 109, 97, 105, 110, 0, 0, 1, 3, 73,
    110, 116, 1, 5] ++ List.replicate 10 0x00 ++
    List.replicate 10 0x01 ++ [1, 29, 0, 0, 0, 20, 255, 255]

/-- The program that `untidy` is read as. -/
def tidied : Program where
  sizes := Sizes.uniform 1
  constants := Table.ofList [(3, ⟨.bool true, .bool⟩), (7, ⟨.string "é", .string⟩)]
  functions := Table.ofList [("main", ⟨0, none, [.scalar .int], [5], SlotCounts.zero⟩)]
  globals := ⟨PerScalar.const 1, PerScalar.const 1⟩
  quads := #[⟨.endFunc, none, none, none⟩]
  heapStart := 20

theorem ofBytes_normalises_untidy :
    ofBytes untidy = .ok tidied ∧ tidied.toBytes.length < untidy.length ∧
    ofBytes tidied.toBytes = .ok tidied := by
  have hread : ofBytes untidy = .ok tidied := by decide +kernel
  exact ⟨hread, by decide +kernel, (ofBytes_normalises hread).2⟩

end Program

end Quadruple
