/-
  Bytes that a decoder reads to their end and not beyond.

  `Reads d bytes a` says two things of a decoder:

      d (bytes ++ rest) = ok (a, rest)                  for every rest
      d input = error endOfInput                        for every input that ends inside the bytes

  Both are stated of the same bytes, since each carries the
  other through a sequence (`Reads.bind`): when the first decoder has taken its bytes, the second
  starts right after them, so an input that ends inside the second part fails there.

  So the statement about a record follows from those about its fields, and only the leaves need an
  argument of their own: the groups of a number all say that more follow but the last
  (`reads_takeGroups`), and a text is preceded by its length (`reads_takeText`).
-/
import Quadruple.Bytes

namespace Quadruple

variable {α β : Type}
variable {xs : Bytes}

/-! ## One after another -/

namespace Decoder

theorem bind_of_ok {d : Decoder α} {f : α → Decoder β} {input rest : Bytes} {a : α}
    (h : d input = .ok (a, rest)) : (d >>= f) input = f a rest := by
  show (d input >>= fun x => f x.1 x.2) = _
  rw [h]
  rfl

theorem bind_of_error {d : Decoder α} {f : α → Decoder β} {input : Bytes} {e : DecodeError}
    (h : d input = .error e) : (d >>= f) input = .error e := by
  show (d input >>= fun x => f x.1 x.2) = _
  rw [h]
  rfl

end Decoder

/-- The decoder takes these bytes off the front of any input and gives `a`; an input that ends
inside them ended too early. -/
structure Reads (d : Decoder α) (bytes : Bytes) (a : α) : Prop where
  whole : ∀ rest, d (bytes ++ rest) = .ok (a, rest)
  cut : ∀ input missing, input ++ missing = bytes → missing ≠ [] → d input = .error .endOfInput

theorem reads_pure (a : α) : Reads (pure a) [] a := by
  refine ⟨fun _ => rfl, ?_⟩
  intro input missing h hne
  exact (hne (List.append_eq_nil_iff.mp h).2).elim

theorem Reads.bind {d : Decoder α} {f : α → Decoder β} {ys : Bytes} {a : α} {b : β}
    (hd : Reads d xs a) (hf : Reads (f a) ys b) : Reads (d >>= f) (xs ++ ys) b := by
  -- an input that reaches beyond the first part ends inside the second
  have hsecond : ∀ input missing, input ++ missing = ys → missing ≠ [] →
      (d >>= f) (xs ++ input) = .error .endOfInput := by
    intro input missing h hne
    rw [Decoder.bind_of_ok (hd.whole input)]
    exact hf.cut input missing h hne
  refine ⟨?_, ?_⟩
  · intro rest
    rw [List.append_assoc, Decoder.bind_of_ok (hd.whole _)]
    exact hf.whole rest
  · intro input missing h hne
    rcases List.append_eq_append_iff.mp h with ⟨more, rfl, rfl⟩ | ⟨taken, rfl, rfl⟩
    · cases more with
      | nil => simpa using hsecond [] ys rfl hne
      | cons byte more =>
        exact Decoder.bind_of_error (hd.cut input (byte :: more) rfl (List.cons_ne_nil _ _))
    · exact hsecond taken missing rfl hne

/-- The second part takes no further bytes. -/
theorem Reads.bind_nil {d : Decoder α} {f : α → Decoder β} {a : α} {b : β} (hd : Reads d xs a)
    (hf : Reads (f a) [] b) : Reads (d >>= f) xs b := by
  have h := hd.bind hf
  rwa [List.append_nil] at h

theorem Reads.map {d : Decoder α} {a : α} (hd : Reads d xs a) (f : α → β) :
    Reads (d >>= fun a => pure (f a)) xs (f a) :=
  hd.bind_nil (reads_pure (f a))

namespace Bytes

/-! ## Bytes -/

theorem reads_takeByte (b : UInt8) : Reads takeByte [b] b := by
  refine ⟨fun _ => rfl, ?_⟩
  intro input missing h hne
  rcases List.append_eq_singleton_iff.mp h with ⟨rfl, -⟩ | ⟨-, rfl⟩
  · rfl
  · exact (hne rfl).elim

theorem reads_takeBytes (bytes : Bytes) : Reads (takeBytes bytes.length) bytes bytes := by
  refine ⟨?_, ?_⟩
  · intro rest
    rw [takeBytes, List.length_append, if_neg (by omega), List.take_left, List.drop_left]
  · rintro input missing rfl hne
    have hlength := List.length_pos_iff.mpr hne
    rw [takeBytes, List.length_append, if_pos (by omega)]

/-! ## Numbers -/

/-- A number is read back from its groups if the last of them, when all are needed, is within the
limit.  By induction on the number of groups before the last: a group that says that more follow
leaves the number divided by 128 to the others, and only the last of them is taken for the last. -/
theorem reads_takeGroups {top : Nat} (htop : top < 128) :
    ∀ more n : Nat, n < (top + 1) * Nat.pow 128 more →
    Reads (takeGroups top more) (groups more n) n
  | 0, n, h => by
    have hn : n < top + 1 := by
      rwa [show (top + 1) * Nat.pow 128 0 = top + 1 from Nat.mul_one _] at h
    have hbyte : (UInt8.ofNat n).toNat = n := UInt8.toNat_ofNat_of_lt' (by show n < 256; omega)
    rw [takeGroups, groups]
    refine (reads_takeByte _).bind_nil ?_
    rw [hbyte, if_pos (by omega)]
    exact reads_pure n
  | more + 1, n, h => by
    rw [takeGroups, groups]
    split
    · rename_i hlast
      have hbyte : (UInt8.ofNat n).toNat = n := UInt8.toNat_ofNat_of_lt' (by show n < 256; omega)
      refine (reads_takeByte _).bind_nil ?_
      rw [hbyte, if_pos hlast]
      exact reads_pure n
    · have hbyte : (UInt8.ofNat (n % 128 + 128)).toNat = n % 128 + 128 :=
        UInt8.toNat_ofNat_of_lt' (by show n % 128 + 128 < 256; omega)
      have hrest : n / 128 < (top + 1) * Nat.pow 128 more := by
        rw [show Nat.pow 128 (more + 1) = Nat.pow 128 more * 128 from rfl, ← Nat.mul_assoc,
          Nat.mul_comm] at h
        exact Nat.div_lt_of_lt_mul h
      have hnumber : n % 128 + 128 - 128 + 128 * (n / 128) = n := by omega
      have hothers := (reads_takeGroups htop more (n / 128) hrest).map fun m =>
        n % 128 + 128 - 128 + 128 * m
      rw [hnumber] at hothers
      refine (reads_takeByte _).bind ?_
      rw [hbyte, if_neg (by omega)]
      exact hothers

theorem reads_takeWord {n : Nat} (h : n < UInt64.size) : Reads takeWord (ofWord n) n :=
  reads_takeGroups (by decide) 9 n h

theorem reads_takeTag {n : Nat} (h : n < UInt32.size) : Reads takeTag (ofTag n) n :=
  reads_takeGroups (by decide) 4 n h

/-! ## Signed integers and doubles -/

theorem unzigzag_zigzag (n : Int) : unzigzag (zigzag n) = n := by
  unfold zigzag unzigzag
  split
  · rw [if_pos (by omega)]
    omega
  · rw [if_neg (by omega)]
    omega

theorem zigzag_toInt_lt (n : Int64) : zigzag n.toInt < UInt64.size := by
  have hlo := n.le_toInt
  have hhi := n.toInt_lt
  unfold zigzag
  show _ < 18446744073709551616
  split
  · omega
  · omega

theorem reads_takeInt64 (n : Int64) : Reads takeInt64 (ofInt64 n) n := by
  have h := (reads_takeWord (zigzag_toInt_lt n)).map fun m => Int64.ofInt (unzigzag m)
  rwa [unzigzag_zigzag, Int64.ofInt_toInt] at h

theorem length_littleEndian : ∀ count n : Nat, (littleEndian count n).length = count
  | 0, _ => rfl
  | count + 1, n => congrArg (· + 1) (length_littleEndian count (n / 256))

theorem ofLittleEndian_littleEndian : ∀ count n : Nat, n < Nat.pow 256 count →
    ofLittleEndian (littleEndian count n) = n
  | 0, n, h => by
    have hzero : n < 1 := h
    show 0 = n
    omega
  | count + 1, n, h => by
    have hrest : n / 256 < Nat.pow 256 count := by
      rw [show Nat.pow 256 (count + 1) = Nat.pow 256 count * 256 from rfl, Nat.mul_comm] at h
      exact Nat.div_lt_of_lt_mul h
    have hbyte : (UInt8.ofNat (n % 256)).toNat = n % 256 :=
      UInt8.toNat_ofNat_of_lt' (by show n % 256 < 256; omega)
    show (UInt8.ofNat (n % 256)).toNat + 256 * ofLittleEndian (littleEndian count (n / 256)) = n
    rw [ofLittleEndian_littleEndian count (n / 256) hrest, hbyte]
    omega

/-- All sixty-four bits of a double come back, those of a NaN included. -/
theorem reads_takeFloat (x : Binary64) : Reads takeFloat (ofFloat x) x := by
  have hbits : x.bits.toNat < Nat.pow 256 8 := x.bits.toNat_lt
  have h := (reads_takeBytes (littleEndian 8 x.bits.toNat)).map fun bytes =>
    (⟨UInt64.ofNat (ofLittleEndian bytes)⟩ : Binary64)
  rwa [length_littleEndian, ofLittleEndian_littleEndian 8 _ hbits, UInt64.ofNat_toNat] at h

/-! ## Truth values and texts -/

theorem reads_takeBool (b : Bool) : Reads takeBool (ofBool b) b := by
  cases b with
  | false => exact (reads_takeByte 0).bind (reads_pure false)
  | true => exact (reads_takeByte 1).bind (reads_pure true)

/-- The bytes of a text are that text. -/
theorem text?_utf8 (s : String) : text? (utf8 s) = some s := by
  unfold text? utf8 String.toUTF8
  rw [Array.toArray_toList]
  exact dif_pos s.isValidUTF8

/-- An input that ends inside a text is too short for its length, so no part of a text is ever
decoded. -/
theorem reads_takeText {s : String} (h : (utf8 s).length < UInt64.size) :
    Reads takeText (ofText s) s := by
  refine (reads_takeWord h).bind ((reads_takeBytes (utf8 s)).bind_nil ?_)
  rw [text?_utf8]
  exact reads_pure s

/-! ## Options and sequences -/

theorem reads_takeOption {f : α → Bytes} {d : Decoder α} {g : α → α} {o : Option α}
    (h : ∀ a, o = some a → Reads d (f a) (g a)) :
    Reads (takeOption d) (ofOption f o) (o.map g) := by
  cases o with
  | none => exact (reads_takeByte 0).bind (reads_pure none)
  | some a => exact (reads_takeByte 1).bind ((h a rfl).map some)

theorem reads_takeOption_self {f : α → Bytes} {d : Decoder α} {o : Option α}
    (h : ∀ a, o = some a → Reads d (f a) a) : Reads (takeOption d) (ofOption f o) o := by
  have hread := reads_takeOption (g := id) h
  rwa [Option.map_id_apply] at hread

/-- By induction on the items, each read after those before it. -/
theorem reads_takeMany {f : α → Bytes} {d : Decoder β} {g : α → β} : ∀ l : List α,
    (∀ a ∈ l, Reads d (f a) (g a)) → Reads (takeMany d l.length) (l.flatMap f) (l.map g)
  | [], _ => reads_pure []
  | a :: rest, h => by
    obtain ⟨ha, hrest⟩ := List.forall_mem_cons.mp h
    exact ha.bind ((reads_takeMany rest hrest).map (g a :: ·))

theorem reads_takeList {f : α → Bytes} {d : Decoder β} {g : α → β} {l : List α}
    (hlength : l.length < UInt64.size) (h : ∀ a ∈ l, Reads d (f a) (g a)) :
    Reads (takeList d) (ofList f l) (l.map g) :=
  (reads_takeWord hlength).bind (reads_takeMany l h)

theorem reads_takeList_self {f : α → Bytes} {d : Decoder α} {l : List α}
    (hlength : l.length < UInt64.size) (h : ∀ a ∈ l, Reads d (f a) a) :
    Reads (takeList d) (ofList f l) l := by
  have hread := reads_takeList (g := id) hlength h
  rwa [List.map_id] at hread

theorem reads_takePair {d : Decoder α} {d' : Decoder β} {ys : Bytes} {a : α} {b : β}
    (hd : Reads d xs a) (hd' : Reads d' ys b) : Reads (takePair d d') (xs ++ ys) (a, b) :=
  hd.bind (hd'.map (a, ·))

end Bytes

end Quadruple
