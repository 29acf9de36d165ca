/-
  The text of structured data is divided into the tree it was written from.

  A scanner stops where it cannot go on, so whether a tree comes back depends on what follows its
  text: a number must not be followed by anything that could be part of it (`Ends`).  Inside a text
  a comma, a new line or the end follows.  For a tree, `Raw.Scans` says that it comes back whatever
  its depth and whatever blanks precede it; it is shown for each kind of leaf first, and carried
  from the parts of a tree to the tree:

      skipSpace cs = prettyText depth r ++ rest  →  scan budget cs = ok (r, rest)

  Scanners recurse on a budget.  Each call looks at one character at least, apart from the items and
  members of a tree, which have a new line of their own; so the length of the text is enough.
-/
import Mathlib.Data.List.DropRight
import Mathlib.Data.List.TakeDrop
import Quadruple.Json.Leaf

namespace Quadruple.Json

variable {n : Int} {rest : List Char} {members : List (List Char × Raw)}

/-! ## Strings -/

theorem hexValue4?_hexDigit :
    ∀ n < 32, hexValue4? '0' '0' (hexDigit (n / 16)) (hexDigit (n % 16)) = some n := by decide

/-- How a character is written inside a string: with a letter after a backslash, by its number, or
as it is. -/
inductive Escape (c : Char) : List Char → Prop
  | letter {e : Char} (hletter : e ≠ 'u') (hmeans : unescape? e = some c) : Escape c ['\\', e]
  | number (hcontrol : c.toNat < 0x20) :
      Escape c ['\\', 'u', '0', '0', hexDigit (c.toNat / 16), hexDigit (c.toNat % 16)]
  | plain (hquote : c ≠ '"') (hbackslash : c ≠ '\\') (hprintable : ¬ c.toNat < 0x20) : Escape c [c]

theorem escape_escaped (c : Char) : Escape c (escaped c) := by
  unfold escaped
  split
  any_goals exact .letter (by decide) rfl
  rename_i hquote hbackslash _ _ _ _ _
  split
  · rename_i hcontrol
    exact .number hcontrol
  · rename_i hprintable
    exact .plain hquote hbackslash hprintable

variable {c : Char} {text : List Char}

theorem Escape.scanString (h : Escape c text) (rest : List Char) :
    scanString (text ++ rest) = prepend text (Json.scanString rest) := by
  cases h with
  | letter hletter hmeans =>
    rw [List.cons_append, List.singleton_append, Json.scanString, hmeans]
    · rfl
    · exact fun _ _ _ _ _ hu _ => hletter hu
  | number hcontrol =>
    show Json.scanString ('\\' :: 'u' :: _ :: _ :: _ :: _ :: rest) = _
    rw [Json.scanString, hexValue4?_hexDigit _ hcontrol]
    rfl
  | plain hquote hbackslash hprintable =>
    have hplain : ¬ (c == '\\' || decide (c.toNat < 0x20)) = true := by
      simp [hbackslash, hprintable]
    rw [List.singleton_append, Json.scanString, if_neg hplain]
    · exact hquote
    · exact fun _ _ _ _ _ h => (hbackslash h).elim
    · exact fun _ _ h => (hbackslash h).elim

theorem Escape.unescaped? (h : Escape c text) (rest : List Char) :
    unescaped? (text ++ rest) = push c (Json.unescaped? rest) := by
  cases h with
  | letter hletter hmeans =>
    rw [List.cons_append, List.singleton_append, Json.unescaped?, hmeans]
    exact fun _ _ _ _ _ hu _ => hletter hu
  | number hcontrol =>
    have hlow : ¬ (0xdc00 ≤ c.toNat ∧ c.toNat ≤ 0xdfff) := by omega
    have hhigh : ¬ (0xd800 ≤ c.toNat ∧ c.toNat ≤ 0xdbff) := by omega
    show Json.unescaped? ('\\' :: 'u' :: _ :: _ :: _ :: _ :: rest) = _
    rw [Json.unescaped?, hexValue4?_hexDigit _ hcontrol]
    dsimp only
    rw [if_neg hlow, if_neg hhigh, Char.ofNat_toNat]
  | plain hquote hbackslash hprintable =>
    rw [List.singleton_append, Json.unescaped?]
    · exact fun _ _ _ _ _ h => (hbackslash h).elim
    · exact fun _ _ h => (hbackslash h).elim

/-- Between quotes, the text is scanned up to the closing one. -/
def Quotable (text : List Char) : Prop :=
  ∀ rest, scanString (text ++ '"' :: rest) = .ok (text, rest)

theorem quotable_flatMap (cs : List Char) : Quotable (cs.flatMap escaped) := by
  intro rest
  induction cs with
  | nil => rfl
  | cons c cs ih =>
    rw [List.flatMap_cons, List.append_assoc, (escape_escaped c).scanString, ih]
    rfl

theorem unescaped?_flatMap (cs : List Char) : unescaped? (cs.flatMap escaped) = some cs := by
  induction cs with
  | nil => rfl
  | cons c cs ih =>
    rw [List.flatMap_cons, (escape_escaped c).unescaped?, ih]
    rfl

theorem stringOf_escapedText (s : String) : stringOf (escapedText s) = .ok s := by
  rw [stringOf, escapedText, unescaped?_flatMap]
  exact congrArg Except.ok String.ofList_toList

/-! ## Numbers -/

/-- What follows cannot be part of a number. -/
def Ends (rest : List Char) : Prop :=
  ∀ c ∈ rest.head?, Decimal.isDigit c = false ∧ c ≠ '.' ∧ c ≠ 'e' ∧ c ≠ 'E'

theorem ends_nil : Ends [] := by
  rintro c ⟨⟩

theorem ends_cons {c : Char} (h : Decimal.isDigit c = false ∧ c ≠ '.' ∧ c ≠ 'e' ∧ c ≠ 'E')
    (rest : List Char) : Ends (c :: rest) := by
  rintro _ ⟨rfl⟩
  exact h

theorem isDigit_of_mem_toDigits {n : Nat} {c : Char} (h : c ∈ Nat.toDigits 10 n) :
    Decimal.isDigit c = true := by
  have hdigit := Nat.isDigit_of_mem_toDigits (by decide) (by decide) h
  rwa [Char.isDigit] at hdigit

theorem ofDigits_toDigits (n : Nat) : Decimal.ofDigits (Nat.toDigits 10 n) = n :=
  Nat.ofDigitChars_eq_foldl.symm.trans Nat.ofDigitChars_ten_toDigits

/-- A number is written with digits, and only zero begins with a zero. -/
theorem toDigits_eq_cons (n : Nat) : ∃ c cs, Nat.toDigits 10 n = c :: cs ∧ (c = '0' → n = 0) := by
  induction n using Nat.strongRecOn with
  | _ n ih =>
    by_cases hn : n < 10
    · exact ⟨_, _, Nat.toDigits_of_lt_base hn, Nat.digitChar_eq_zero.mp⟩
    · obtain ⟨c, cs, hdigits, hzero⟩ := ih (n / 10) (by omega)
      refine ⟨c, cs ++ [(n % 10).digitChar], ?_, fun hc => ?_⟩
      · rw [Nat.toDigits_of_base_le (by decide) (by omega), hdigits, List.cons_append]
      · have hquotient := hzero hc
        omega

namespace Numeral

variable {rest : List Char}

theorem scanDigits_append {ds : List Char} (hds : ∀ c ∈ ds, Decimal.isDigit c = true)
    (hne : ds ≠ []) (hrest : Ends rest) : scanDigits (ds ++ rest) = .ok (ds, rest) := by
  have htake : rest.takeWhile Decimal.isDigit = [] := by
    cases rest with
    | nil => rfl
    | cons c rest => rw [List.takeWhile_cons, (hrest c rfl).1, if_neg Bool.false_ne_true]
  have hdrop : rest.dropWhile Decimal.isDigit = rest := by
    cases rest with
    | nil => rfl
    | cons c rest => rw [List.dropWhile_cons, (hrest c rfl).1, if_neg Bool.false_ne_true]
  rw [scanDigits, List.span_eq_takeWhile_dropWhile, List.takeWhile_append_of_pos hds,
    List.dropWhile_append_of_pos hds, htake, hdrop,
    List.append_nil]
  exact if_neg (mt List.isEmpty_iff.mp hne)

theorem scanWhole_toDigits (n : Nat) (hrest : Ends rest) :
    scanWhole (Nat.toDigits 10 n ++ rest) = .ok (Nat.toDigits 10 n, rest) := by
  unfold scanWhole
  split
  · rename_i c rest' htext
    -- a leading zero is the whole number
    obtain ⟨d, ds, hdigits, hzero⟩ := toDigits_eq_cons n
    rw [hdigits] at htext
    obtain rfl := hzero (List.cons.inj htext).1
    rw [Nat.toDigits_zero] at hdigits ⊢
    cases hdigits
    cases htext
    rw [(hrest c rfl).1, if_neg Bool.false_ne_true]
  · exact scanDigits_append (fun c => isDigit_of_mem_toDigits) Nat.toDigits_ne_nil hrest

theorem scanFraction_of_ends (hrest : Ends rest) : scanFraction rest = .ok ([], rest) := by
  unfold scanFraction
  split
  · exact ((hrest '.' rfl).2.1 rfl).elim
  · rfl

theorem scanPower_of_ends (hrest : Ends rest) : scanPower rest = .ok ([], rest) := by
  unfold scanPower
  split
  · rename_i c rest
    obtain ⟨-, -, hlower, hupper⟩ := hrest c rfl
    exact if_neg (by simp [hlower, hupper])
  · rfl

theorem scanUnsigned_toDigits (negative : Bool) (n : Nat) (hrest : Ends rest) :
    scanUnsigned negative (Nat.toDigits 10 n ++ rest) = .ok (⟨negative, Nat.toDigits 10 n, [], []⟩,
      rest) := by
  rw [scanUnsigned, scanWhole_toDigits n hrest]
  dsimp only [bind, Except.bind]
  rw [scanFraction_of_ends hrest]
  dsimp only
  rw [scanPower_of_ends hrest]
  rfl

/-- The number that an integer is written as. -/
def ofInt (n : Int) : Numeral := ⟨decide (n < 0), Nat.toDigits 10 n.natAbs, [], []⟩

theorem text_ofInt (n : Int) :
    (ofInt n).text = (if n < 0 then ['-'] else []) ++ Nat.toDigits 10 n.natAbs := by
  simp [text, ofInt]

theorem toList_intText (n : Int) : (Decimal.intText n).toList = (ofInt n).text := by
  rw [text_ofInt]
  unfold Decimal.intText
  split
  · simp
  · simp

/-- The first character of an integer is a minus or a digit. -/
theorem text_ofInt_eq_cons (n : Int) :
    ∃ c cs, (ofInt n).text = c :: cs ∧ (c = '-' ∧ n < 0 ∨ Decimal.isDigit c = true ∧ ¬ n < 0) := by
  rw [text_ofInt]
  by_cases hn : n < 0
  · rw [if_pos hn]
    exact ⟨_, _, rfl, Or.inl ⟨rfl, hn⟩⟩
  · obtain ⟨c, cs, hdigits, -⟩ := toDigits_eq_cons n.natAbs
    rw [if_neg hn, List.nil_append]
    refine ⟨c, cs, hdigits, Or.inr ⟨isDigit_of_mem_toDigits (n := n.natAbs) ?_, hn⟩⟩
    rw [hdigits]
    exact List.mem_cons_self

theorem scan_ofInt (n : Int) (hrest : Ends rest) :
    scan ((ofInt n).text ++ rest) = .ok (ofInt n, rest) := by
  unfold scan
  split
  · rename_i rest' htext
    obtain ⟨c, cs, hcons, ⟨-, hn⟩ | ⟨hdigit, -⟩⟩ := text_ofInt_eq_cons n
    · rw [text_ofInt, if_pos hn] at htext
      cases htext
      rw [ofInt, decide_eq_true hn]
      exact scanUnsigned_toDigits true n.natAbs hrest
    · rw [hcons] at htext
      obtain rfl := (List.cons.inj htext).1
      exact (Bool.false_ne_true hdigit).elim
  · rename_i hminus
    have hn : ¬ n < 0 := by
      intro hn
      rw [text_ofInt, if_pos hn] at hminus
      exact hminus _ rfl
    rw [text_ofInt, if_neg hn, ofInt, decide_eq_false hn]
    exact scanUnsigned_toDigits false n.natAbs hrest

end Numeral

/-- An integer of sixty-four bits, signed or not. -/
def Fits (n : Int) : Prop := Int64.minValue.toInt ≤ n ∧ n < UInt64.size

theorem fitsInt64_iff :
    Decimal.fitsInt64 n = true ↔ Int64.minValue.toInt ≤ n ∧ n ≤ Int64.maxValue.toInt := by
  unfold Decimal.fitsInt64
  rw [Bool.and_eq_true, decide_eq_true_eq, decide_eq_true_eq]

theorem fits_of_fitsInt64 (h : Decimal.fitsInt64 n = true) : Fits n := by
  obtain ⟨hlower, hupper⟩ := fitsInt64_iff.mp h
  exact ⟨hlower, Int.lt_of_le_of_lt hupper (by decide)⟩

theorem ofInteger_natAbs (h : Fits n) : ofInteger (decide (n < 0)) n.natAbs = some (int n) := by
  obtain ⟨hlower, hupper⟩ := h
  unfold ofInteger
  by_cases hn : n < 0
  · have hvalue : -(n.natAbs : Int) = n := by omega
    have hpos : 0 < n.natAbs := by omega
    have hfits : Decimal.fitsInt64 n = true :=
      fitsInt64_iff.mpr ⟨hlower, Int.le_trans (Int.le_of_lt hn) (by decide)⟩
    simp only [hn, hvalue, hpos, hfits, decide_true, Bool.not_true, Bool.false_and,
      Bool.false_eq_true, if_false, Bool.and_true, if_true]
  · have hvalue : (n.natAbs : Int) = n := by omega
    have hlimit : n.natAbs < UInt64.size := by omega
    simp only [hn, hvalue, hlimit, decide_false, decide_true, Bool.not_false, Bool.and_true,
      if_true]

theorem value?_ofInt (h : Fits n) : (Numeral.ofInt n).value? = some (int n) := by
  rw [Numeral.value?, if_pos (show (Numeral.ofInt n).isInteger = true from rfl)]
  show ofInteger (decide (n < 0)) (Decimal.ofDigits (Nat.toDigits 10 n.natAbs)) = _
  rw [ofDigits_toDigits, ofInteger_natAbs h]

theorem readNumber_intText (h : Fits n) (hrest : Ends rest) :
    readNumber ((Decimal.intText n).toList ++ rest) = .ok (int n, rest) := by
  rw [readNumber, Numeral.toList_intText, Numeral.scan_ofInt n hrest]
  dsimp only
  rw [value?_ofInt h]

theorem numberOf_intText (h : Fits n) : numberOf (Decimal.intText n).toList = .ok (int n) := by
  rw [numberOf, ← List.append_nil (Decimal.intText n).toList, readNumber_intText h ends_nil]
  rfl

/-! ## Blanks -/

theorem skipSpace_lineBreak (depth : Nat) (cs : List Char) :
    skipSpace (Raw.lineBreak depth ++ cs) = skipSpace cs := by
  refine List.dropWhile_append_of_pos ?_
  rw [Raw.lineBreak, List.forall_mem_cons]
  refine ⟨rfl, fun c hc => ?_⟩
  rw [(List.mem_replicate.mp hc).2]
  rfl

theorem skipSpace_of_not {c : Char} (h : isSpace c = false) (cs : List Char) :
    skipSpace (c :: cs) = c :: cs :=
  List.dropWhile_cons_of_neg (by rw [h]; exact Bool.false_ne_true)

theorem ends_comma (rest : List Char) : Ends (',' :: rest) := ends_cons (by decide) rest

theorem ends_lineBreak (depth : Nat) (rest : List Char) : Ends (Raw.lineBreak depth ++ rest) :=
  ends_cons (by decide) _

/-! ## Trees -/

namespace Raw

/-- The tree comes back from its text, whatever its depth and the blanks before it, and nothing else
is consumed. -/
structure Scans (r : Raw) : Prop where
  starts : ∀ depth, ∃ c cs, prettyText depth r = c :: cs ∧ isSpace c = false ∧ c ≠ ']'
  scans : ∀ {depth budget : Nat} {cs rest : List Char}, Ends rest →
    (prettyText depth r).length ≤ budget →
    skipSpace cs = prettyText depth r ++ rest → scan budget cs = .ok (r, rest)

theorem Scans.skipSpace_eq {r : Raw} (h : r.Scans) (depth : Nat) (rest : List Char) :
    skipSpace (prettyText depth r ++ rest) = prettyText depth r ++ rest := by
  obtain ⟨c, cs, htext, hspace, -⟩ := h.starts depth
  rw [htext]
  exact skipSpace_of_not hspace _

/-- A leaf comes back if its text is one that is scanned as a leaf. -/
theorem scans_leaf {r : Raw} {c : Char} {cs : List Char}
    (htext : ∀ depth, prettyText depth r = c :: cs)
    (hspace : isSpace c = false) (hbracket : c ≠ ']' ∧ c ≠ '[' ∧ c ≠ '\x7b')
    (hleaf : ∀ rest, Ends rest → scanLeaf (c :: cs ++ rest) = .ok (r, rest)) : r.Scans := by
  refine ⟨fun depth => ⟨c, cs, htext depth, hspace, hbracket.1⟩, ?_⟩
  intro depth budget text rest hrest hbudget hskip
  rw [htext] at hbudget hskip
  cases budget with
  | zero => exact (Nat.not_succ_le_zero _ hbudget).elim
  | succ budget =>
    rw [scan, hskip]
    split
    · rename_i h
      exact (hbracket.2.1 (List.cons.inj h).1).elim
    · rename_i h
      exact (hbracket.2.2 (List.cons.inj h).1).elim
    · exact hleaf rest hrest

/-- What stands between brackets comes back if it is scanned after the first of them. -/
theorem scans_between {r : Raw} {first last : Char} {b : Nat → List Char}
    (htext : ∀ depth, prettyText depth r = first :: (b depth ++ [last]))
    (hspace : isSpace first = false) (hbracket : first ≠ ']')
    (hscan : ∀ {depth budget : Nat} {cs rest : List Char}, (b depth).length ≤ budget →
      skipSpace cs = first :: (b depth ++ last :: rest) →
        scan (budget + 1) cs = .ok (r, rest)) : r.Scans := by
  refine ⟨fun depth => ⟨_, _, htext depth, hspace, hbracket⟩, ?_⟩
  intro depth budget cs rest _ hbudget hskip
  rw [htext, List.length_cons, List.length_append] at hbudget
  rw [htext, List.cons_append, List.append_assoc, List.singleton_append] at hskip
  obtain ⟨budget, rfl⟩ := Nat.exists_eq_add_one.mpr (show 0 < budget by omega)
  exact hscan (by omega) hskip

theorem scanWord_append (word : String) (r : Raw) (rest : List Char) :
    scanWord word r (word.toList ++ rest) = .ok (r, rest) := by
  unfold scanWord
  rw [if_pos (List.isPrefixOf_iff_prefix.mpr (List.prefix_append _ _)), ← String.length_toList,
    List.drop_left]

theorem scans_null : null.Scans :=
  scans_leaf (fun _ => rfl) rfl (by decide) fun rest _ => scanWord_append "null" null rest

theorem scans_bool (b : Bool) : (bool b).Scans := by
  cases b with
  | true =>
    exact scans_leaf (fun _ => rfl) rfl (by decide) fun rest _ =>
      scanWord_append "true" (bool true) rest
  | false =>
    exact scans_leaf (fun _ => rfl) rfl (by decide) fun rest _ =>
      scanWord_append "false" (bool false) rest

theorem scans_string (s : String) : (string (escapedText s)).Scans := by
  refine scans_leaf (fun _ => rfl) rfl (by decide) fun rest _ => ?_
  show (scanString
      (escapedText s ++ ['"'] ++ rest) >>= fun found => pure (string found.1, found.2)) = _
  rw [List.append_assoc, List.singleton_append, escapedText, quotable_flatMap]
  rfl

theorem scans_int (n : Int) : (number (Decimal.intText n).toList).Scans := by
  obtain ⟨c, cs, htext, hkind⟩ := Numeral.text_ofInt_eq_cons n
  rw [Numeral.toList_intText]
  have hfirst : (c == '-' || Decimal.isDigit c) = true := by
    rcases hkind with ⟨rfl, -⟩ | ⟨hdigit, -⟩
    · rfl
    · rw [hdigit, Bool.or_true]
  -- a number begins like nothing else
  have hne : ∀ d : Char, (d == '-' || Decimal.isDigit d) = false → c ≠ d := by
    rintro d hd rfl
    exact Bool.false_ne_true (hd.symm.trans hfirst)
  have hspace : isSpace c = false := by
    simp [isSpace, hne ' ' rfl, hne '\n' rfl, hne '\t' rfl, hne '\r' rfl]
  refine scans_leaf (fun _ => htext) hspace ⟨hne ']' rfl,
    hne '[' rfl, hne '\x7b' rfl⟩ fun rest hrest => ?_
  unfold scanLeaf
  split
  · rename_i h
    exact (hne 'n' rfl (List.cons.inj h).1).elim
  · rename_i h
    exact (hne 't' rfl (List.cons.inj h).1).elim
  · rename_i h
    exact (hne 'f' rfl (List.cons.inj h).1).elim
  · rename_i h
    exact (hne '"' rfl (List.cons.inj h).1).elim
  · rename_i h
    cases h
    rw [if_pos hfirst, ← htext, Numeral.scan_ofInt n hrest]
    rfl
  · rename_i h
    cases h

/-! ### Items -/

theorem length_lineBreak_pos (depth : Nat) : 0 < (lineBreak depth).length := Nat.succ_pos _

theorem prettyItems_cons_cons (depth : Nat) (r next : Raw) (later : List Raw) :
    prettyItems depth (r :: next :: later) =
      lineBreak depth ++ (prettyText depth r ++ ',' :: prettyItems depth (next :: later)) := by
  rw [prettyItems, List.append_assoc]
  exact nofun

theorem prettyItems_eq_append (depth : Nat) (r : Raw) (later : List Raw) :
    ∃ tail, prettyItems depth (r :: later) = lineBreak depth ++ (prettyText depth r ++ tail) := by
  cases later with
  | nil => exact ⟨[], by rw [prettyItems, List.append_nil]⟩
  | cons next later => exact ⟨_, prettyItems_cons_cons depth r next later⟩

section

variable {budget : Nat} {cs after rest : List Char} {r : Raw} {c : Char}

theorem scanItems_comma (h : scan budget cs = .ok (r, ',' :: rest)) :
    scanItems (budget + 1) cs = scanItems budget rest >>= fun found =>
      pure (r :: found.1, found.2) := by
  rw [scanItems, h]
  rfl

theorem scanItems_close (h : scan budget cs = .ok (r, after))
    (hclose : skipSpace after = ']' :: rest) :
    scanItems (budget + 1) cs = .ok ([r], rest) := by
  rw [scanItems, h]
  dsimp only [bind, Except.bind]
  rw [hclose]
  rfl

theorem scan_items
    (h : skipSpace cs = '[' :: after) (hfirst : skipSpace after = c :: rest) (hc : c ≠ ']') :
    scan (budget + 1) cs = scanItems budget (c :: rest) >>= fun found =>
      pure (arr found.1, found.2) := by
  rw [scan, h]
  split
  · rename_i heq
    cases heq
    rw [hfirst]
    split
    · rename_i hclose
      exact (hc (List.cons.inj hclose).1).elim
    · rfl
  · rename_i heq
    cases heq
  · rename_i hnone _
    exact (hnone after rfl).elim

end

theorem scanItems_prettyItems {items : List Raw} (depth outer : Nat) {budget : Nat}
    {cs rest : List Char} (h : ∀ r ∈ items, r.Scans) (hne : items ≠ [])
    (hbudget : (prettyItems depth items).length ≤ budget)
    (hskip : skipSpace cs = skipSpace (prettyItems depth items ++ (lineBreak outer ++ ']' ::
      rest))) :
    scanItems budget cs = .ok (items, rest) := by
  induction items generalizing budget cs with
  | nil => exact (hne rfl).elim
  | cons r later ih =>
    obtain ⟨hr, hlater⟩ := List.forall_mem_cons.mp h
    -- the new line before an item pays for the call
    have hline := length_lineBreak_pos depth
    cases later with
    | nil =>
      rw [prettyItems, List.append_assoc, skipSpace_lineBreak, hr.skipSpace_eq] at hskip
      rw [prettyItems, List.length_append] at hbudget
      obtain ⟨budget, rfl⟩ := Nat.exists_eq_add_one.mpr (show 0 < budget by omega)
      refine scanItems_close (hr.scans (ends_lineBreak outer _) (by omega) hskip) ?_
      rw [skipSpace_lineBreak]
      rfl
    | cons next later =>
      rw [prettyItems_cons_cons, List.append_assoc, List.append_assoc, List.cons_append,
        skipSpace_lineBreak, hr.skipSpace_eq] at hskip
      rw [prettyItems_cons_cons, List.length_append, List.length_append,
        List.length_cons] at hbudget
      obtain ⟨budget, rfl⟩ := Nat.exists_eq_add_one.mpr (show 0 < budget by omega)
      have hafter :
          scanItems budget (prettyItems depth (next :: later) ++ (lineBreak outer ++ ']' :: rest)) =
          .ok (next :: later, rest) := ih hlater nofun (by omega) rfl
      rw [scanItems_comma (hr.scans (ends_comma _) (by omega) hskip), hafter]
      rfl

theorem scans_arr {items : List Raw} (h : ∀ r ∈ items, r.Scans) : (arr items).Scans := by
  cases items with
  | nil =>
    refine scans_between (b := fun _ => []) (fun _ => rfl) rfl (by decide) fun _ hskip => ?_
    rw [scan, hskip]
    rfl
  | cons r later =>
    refine scans_between
      (b := fun depth => prettyItems (depth + 1) (r :: later) ++ lineBreak depth)
      (fun depth => by rw [prettyText, List.cons_append, List.cons_append]) rfl (by decide) ?_
    intro depth budget cs rest hbudget hskip
    rw [List.length_append] at hbudget
    rw [List.append_assoc] at hskip
    -- the text of an item does not begin with the closing bracket
    obtain ⟨c, tail, hfirst, hc⟩ : ∃ c tail,
        skipSpace (prettyItems (depth + 1) (r :: later) ++ (lineBreak depth ++ ']' :: rest)) = c ::
          tail ∧ c ≠ ']' := by
      obtain ⟨c, cs, hstart, hspace, hc⟩ := (h r List.mem_cons_self).starts (depth + 1)
      obtain ⟨tail, hitems⟩ := prettyItems_eq_append (depth + 1) r later
      rw [hitems, hstart, List.append_assoc, skipSpace_lineBreak]
      exact ⟨c, _, skipSpace_of_not hspace _, hc⟩
    have hitems : scanItems budget (c :: tail) = .ok (r :: later, rest) := by
      refine scanItems_prettyItems (depth + 1) depth h nofun (by omega) ?_
      rw [← hfirst]
      exact List.dropWhile_idempotent _ _
    rw [scan_items hskip hfirst hc, hitems]
    rfl

/-! ### Members -/

theorem prettyMembers_singleton (depth : Nat) (k : List Char) (r : Raw) :
    prettyMembers depth [(k, r)] = lineBreak depth ++
      (quotedText k ++ ':' :: ' ' :: prettyText depth r) := by
  rw [prettyMembers, List.append_assoc]

theorem prettyMembers_cons_cons (depth : Nat) (k : List Char) (r : Raw) (next : List Char × Raw)
    (later : List (List Char × Raw)) :
    prettyMembers depth ((k, r) :: next :: later) = lineBreak depth ++
      (quotedText k ++ ':' :: ' ' ::
        (prettyText depth r ++ ',' :: prettyMembers depth (next :: later))) := by
  rw [prettyMembers, List.append_assoc, List.append_assoc, List.cons_append, List.cons_append]
  exact nofun

theorem prettyMembers_eq_append (depth : Nat) (m : List Char × Raw)
    (later : List (List Char × Raw)) :
    ∃ tail, prettyMembers depth (m :: later) = lineBreak depth ++ '"' :: tail := by
  cases later with
  | nil => exact ⟨_, prettyMembers_singleton depth m.1 m.2⟩
  | cons next later => exact ⟨_, prettyMembers_cons_cons depth m.1 m.2 next later⟩

section

variable {budget : Nat} {cs value after rest k : List Char} {r : Raw}

theorem scanKey_quotedText (hk : Quotable k) (h : skipSpace cs = quotedText k ++ ':' :: rest) :
    scanKey cs = .ok (k, rest) := by
  have hquoted : quotedText k ++ ':' :: rest = '"' :: (k ++ '"' :: ':' :: rest) := by
    rw [quotedText, List.cons_append, List.cons_append, List.append_assoc, List.singleton_append]
  rw [scanKey, h, hquoted]
  split
  · rename_i heq
    cases heq
    rw [hk]
    rfl
  · rename_i hnone
    exact (hnone _ rfl).elim

theorem scanMembers_comma (hkey : scanKey cs = .ok (k, value))
    (h : scan budget value = .ok (r, ',' :: rest)) :
    scanMembers (budget + 1) cs =
      scanMembers budget rest >>= fun found => pure ((k, r) :: found.1, found.2) := by
  rw [scanMembers, hkey]
  dsimp only [bind, Except.bind]
  rw [h]
  rfl

theorem scanMembers_close (hkey : scanKey cs = .ok (k, value))
    (h : scan budget value = .ok (r, after)) (hclose : skipSpace after = '\x7d' :: rest) :
    scanMembers (budget + 1) cs = .ok ([(k, r)], rest) := by
  rw [scanMembers, hkey]
  dsimp only [bind, Except.bind]
  rw [h]
  dsimp only
  rw [hclose]
  rfl

theorem scan_members (h : skipSpace cs = '\x7b' :: after) (hfirst : skipSpace after = '"' :: rest) :
    scan (budget + 1) cs = scanMembers budget
      ('"' :: rest) >>= fun found => pure (obj found.1, found.2) := by
  rw [scan, h]
  split
  · rename_i heq
    cases heq
  · rename_i heq
    cases heq
    rw [hfirst]
    rfl
  · rename_i hnone
    exact (hnone after rfl).elim

end

theorem scanMembers_prettyMembers (depth outer : Nat) {budget : Nat} {cs : List Char}
    (h : ∀ m ∈ members, Quotable m.1 ∧ m.2.Scans) (hne : members ≠ [])
    (hbudget : (prettyMembers depth members).length ≤ budget)
    (hskip : skipSpace cs = skipSpace
      (prettyMembers depth members ++ (lineBreak outer ++ '\x7d' :: rest)))
    : scanMembers budget cs = .ok (members, rest) := by
  induction members generalizing budget cs with
  | nil => exact (hne rfl).elim
  | cons m later ih =>
    obtain ⟨k, r⟩ := m
    obtain ⟨⟨hk : Quotable k, hr : r.Scans⟩, hlater⟩ := List.forall_mem_cons.mp h
    have hline := length_lineBreak_pos depth
    -- a blank stands between the colon and the value
    have hvalue : ∀ text, skipSpace (' ' :: (prettyText depth r ++ text)) = prettyText depth r ++
        text :=
      fun text => hr.skipSpace_eq depth text
    cases later with
    | nil =>
      rw [prettyMembers_singleton, List.append_assoc, skipSpace_lineBreak,
        List.append_assoc] at hskip
      rw [prettyMembers_singleton, List.length_append, List.length_append, List.length_cons,
        List.length_cons] at hbudget
      obtain ⟨budget, rfl⟩ := Nat.exists_eq_add_one.mpr (show 0 < budget by omega)
      refine scanMembers_close (scanKey_quotedText hk hskip)
        (hr.scans (ends_lineBreak outer _) (by omega) (hvalue _)) ?_
      rw [skipSpace_lineBreak]
      rfl
    | cons next later =>
      rw [prettyMembers_cons_cons, List.append_assoc, skipSpace_lineBreak, List.append_assoc,
        List.cons_append, List.cons_append, List.append_assoc, List.cons_append] at hskip
      rw [prettyMembers_cons_cons, List.length_append, List.length_append, List.length_cons,
        List.length_cons, List.length_append, List.length_cons] at hbudget
      obtain ⟨budget, rfl⟩ := Nat.exists_eq_add_one.mpr (show 0 < budget by omega)
      have hafter :
          scanMembers budget
            (prettyMembers depth (next :: later) ++ (lineBreak outer ++ '\x7d' :: rest)) =
          .ok (next :: later, rest) := ih hlater nofun (by omega) rfl
      rw [scanMembers_comma (scanKey_quotedText hk hskip)
        (hr.scans (ends_comma _) (by omega) (hvalue _)), hafter]
      rfl

theorem scans_obj (h : ∀ m ∈ members, Quotable m.1 ∧ m.2.Scans) : (obj members).Scans := by
  cases members with
  | nil =>
    refine scans_between (b := fun _ => []) (fun _ => rfl) rfl (by decide) fun _ hskip => ?_
    rw [scan, hskip]
    rfl
  | cons m later =>
    refine scans_between
      (b := fun depth => prettyMembers (depth + 1) (m :: later) ++ lineBreak depth)
      (fun depth => by rw [prettyText, List.cons_append, List.cons_append]) rfl (by decide) ?_
    intro depth budget cs rest hbudget hskip
    rw [List.length_append] at hbudget
    rw [List.append_assoc] at hskip
    -- a member begins with the quote of its key
    obtain ⟨tail, hfirst⟩ : ∃ tail,
        skipSpace (prettyMembers (depth + 1) (m :: later) ++ (lineBreak depth ++ '\x7d' :: rest)) =
          '"' :: tail := by
      obtain ⟨tail, hmembers⟩ := prettyMembers_eq_append (depth + 1) m later
      rw [hmembers, List.append_assoc, skipSpace_lineBreak]
      exact ⟨_, rfl⟩
    have hmembers : scanMembers budget ('"' :: tail) = .ok (m :: later, rest) := by
      refine scanMembers_prettyMembers (depth + 1) depth h nofun (by omega) ?_
      rw [← hfirst]
      exact List.dropWhile_idempotent _ _
    rw [scan_members hskip hfirst, hmembers]
    rfl

/-- The text of a whole tree is divided into that tree. -/
theorem Scans.parse_pretty {r : Raw} (h : r.Scans) : parse r.pretty = .ok r := by
  have hskip : skipSpace (prettyText 0 r) = prettyText 0 r ++ [] := by
    have hstart := h.skipSpace_eq 0 []
    rwa [List.append_nil] at hstart ⊢
  have hscan : scan (budgetFor (prettyText 0 r)) (prettyText 0 r) = .ok (r, []) :=
    h.scans ends_nil (by unfold budgetFor; omega) hskip
  unfold parse pretty
  rw [String.toList_ofList]
  dsimp only
  rw [hscan]
  rfl

end Raw

end Quadruple.Json
