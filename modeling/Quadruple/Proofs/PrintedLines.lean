/-
  What is printed can be read back.

  Printing writes the text of a value and a line feed; reading takes the input up to the first line
  feed, drops the end of the line and, unless a string is wanted, the blanks around the rest.  For
  an integer, a truth value and a string that fits on a line the second undoes the first.

  Which texts are integers is said without the reader.  `Text.Trimmed` relates a text to what is
  left of it when the line feeds and carriage returns behind it and then the blanks around it are
  gone; `Decimal.Writes` relates digits with a sign or none to the number they write, however many
  zeros lead them.  Reading accepts a text exactly when what is left of it writes a number of
  sixty-four bits:

      read text = ok n  ↔  ∃ core, Trimmed text core ∧ Writes core n      (-2 ^ 63 ≤ n < 2 ^ 63)
-/
import Quadruple.Proofs.JsonText
import Quadruple.Proofs.Transition
import Quadruple.Proofs.Reading

namespace Quadruple

variable {ds cs : List Char} {v : Value}

/-! ## Cutting off -/

namespace Text

variable {p : Char → Bool} {cs before after core : List Char}

theorem isBlank_of_isLineEnd {c : Char} (h : isLineEnd c = true) : isBlank c = true := by
  unfold isLineEnd at h
  rcases Bool.or_eq_true_iff.mp h with h | h
  · rw [eq_of_beq h]
    rfl
  · rw [eq_of_beq h]
    rfl

theorem dropEndWhile_append (h : ∀ c ∈ after, p c = true) :
    dropEndWhile p (cs ++ after) = dropEndWhile p cs := by
  unfold dropEndWhile
  rw [List.reverse_append, List.dropWhile_append_of_pos (by simpa using h)]

theorem dropEndWhile_eq_self (h : ∀ c ∈ cs.getLast?, p c = false) : dropEndWhile p cs = cs := by
  unfold dropEndWhile
  rw [List.getLast?_eq_head?_reverse] at h
  cases hreverse : cs.reverse with
  | nil =>
    rw [List.reverse_eq_nil_iff] at hreverse
    rw [hreverse]
    rfl
  | cons c rest =>
    rw [hreverse] at h
    rw [List.dropWhile_cons_of_neg (by simp [h c rfl]), ← hreverse, List.reverse_reverse]

theorem exists_dropEndWhile_append (p : Char → Bool) (cs : List Char) :
    ∃ after, cs = dropEndWhile p cs ++ after ∧ ∀ c ∈ after, p c = true := by
  refine ⟨(cs.reverse.takeWhile p).reverse, ?_, ?_⟩
  · rw [dropEndWhile, ← List.reverse_append, List.takeWhile_append_dropWhile, List.reverse_reverse]
  · intro c hc
    exact List.mem_takeWhile_imp (List.mem_reverse.mp hc)

theorem getLast?_dropEndWhile {c : Char} (h : c ∈ (dropEndWhile p cs).getLast?) : p c = false := by
  rw [dropEndWhile, List.getLast?_reverse] at h
  have hnot := List.head?_dropWhile_not p cs.reverse
  rwa [h] at hnot

/-- Blanks around a text do not count. -/
theorem trim_append (hbefore : ∀ c ∈ before, isBlank c = true)
    (hafter : ∀ c ∈ after, isBlank c = true) : trim (before ++ cs ++ after) = trim cs := by
  unfold trim trimEnd
  rw [List.append_assoc, List.dropWhile_append_of_pos hbefore, List.dropWhile_append]
  split
  · rename_i hempty
    have hnone : after.dropWhile isBlank = [] := List.dropWhile_eq_nil_iff.mpr hafter
    rw [hnone, List.isEmpty_iff.mp hempty]
  · exact dropEndWhile_append hafter

/-- What is left of a text when the line ends behind it and then the blanks around it are gone. -/
structure Trimmed (text core : List Char) : Prop where
  parts : ∃ before after ends, text = before ++ core ++ after ++ ends ∧
    (∀ c ∈ before, isBlank c = true) ∧
    (∀ c ∈ after, isBlank c = true) ∧ ∀ c ∈ ends, isLineEnd c = true
  first : ∀ c ∈ core.head?, isBlank c = false
  last : ∀ c ∈ core.getLast?, isBlank c = false

theorem trim_eq_self (hfirst : ∀ c ∈ core.head?, isBlank c = false)
    (hlast : ∀ c ∈ core.getLast?, isBlank c = false) : trim core = core := by
  have hstart : core.dropWhile isBlank = core := by
    cases core with
    | nil => rfl
    | cons c rest => exact List.dropWhile_cons_of_neg (by simp [hfirst c rfl])
  rw [trim, trimEnd, hstart]
  exact dropEndWhile_eq_self hlast

theorem trimmed_iff {text core : List Char} :
    Trimmed text core ↔ trim (dropLineEnd text) = core := by
  obtain ⟨ends, htext, hends⟩ := exists_dropEndWhile_append isLineEnd text
  constructor
  · rintro ⟨⟨before, after, ends', hparts, hbefore, hafter, hends'⟩, hfirst, hlast⟩
    have hblank : ∀ c ∈ after ++ ends', isBlank c = true := by
      intro c hc
      rcases List.mem_append.mp hc with hc | hc
      · exact hafter c hc
      · exact isBlank_of_isLineEnd (hends' c hc)
    -- a line end is a blank, so trimming alone would do
    calc trim (dropLineEnd text) = trim ([] ++ dropLineEnd text ++ ends) :=
          (trim_append (by simp) fun c hc => isBlank_of_isLineEnd (hends c hc)).symm
      _ = trim text := congrArg trim htext.symm
      _ = trim (before ++ core ++ (after ++ ends')) := by
        rw [hparts, List.append_assoc (before ++ core)]
      _ = trim core := trim_append hbefore hblank
      _ = core := trim_eq_self hfirst hlast
  · rintro rfl
    obtain ⟨after, hline, hafter⟩ :=
      exists_dropEndWhile_append isBlank ((dropLineEnd text).dropWhile isBlank)
    refine ⟨⟨(dropLineEnd text).takeWhile isBlank, after, ends, ?_, fun c => List.mem_takeWhile_imp,
      hafter, hends⟩, ?_, fun c => getLast?_dropEndWhile⟩
    · rw [trim, trimEnd, List.append_assoc _ _ after, ← hline, List.takeWhile_append_dropWhile]
      exact htext
    · intro c hc
      have hnot := List.head?_dropWhile_not isBlank (dropLineEnd text)
      unfold trim trimEnd at hc
      rwa [hline, List.head?_append, hc] at hnot

end Text

/-! ## Numbers -/

namespace Decimal

/-- One or more digits. -/
def IsDigits (ds : List Char) : Prop := ds ≠ [] ∧ ∀ c ∈ ds, '0' ≤ c ∧ c ≤ '9'

/-- Digits with at most one sign in front, and the number they write. -/
inductive Writes : List Char → Int → Prop
  | unsigned {ds : List Char} (h : IsDigits ds) : Writes ds (Nat.ofDigitChars 10 ds 0)
  | plus {ds : List Char} (h : IsDigits ds) : Writes ('+' :: ds) (Nat.ofDigitChars 10 ds 0)
  | minus {ds : List Char} (h : IsDigits ds) :
      Writes ('-' :: ds) (-(Nat.ofDigitChars 10 ds 0 : Int))

theorem isDigits_iff (ds : List Char) : IsDigits ds ↔ (ds.isEmpty || !ds.all isDigit) = false := by
  simp [IsDigits, isDigit]

theorem ofDigits_eq (ds : List Char) :
    ofDigits ds = Nat.ofDigitChars 10 ds 0 := Nat.ofDigitChars_eq_foldl.symm

theorem takeSign_cases (cs : List Char) : (∃ ds, cs = '+' :: ds ∧ takeSign cs = (false, ds)) ∨
    (∃ ds, cs = '-' :: ds ∧ takeSign cs = (true, ds)) ∨ takeSign cs = (false, cs) := by
  unfold takeSign
  split
  · exact Or.inl ⟨_, rfl, rfl⟩
  · exact Or.inr (Or.inl ⟨_, rfl, rfl⟩)
  · exact Or.inr (Or.inr rfl)

theorem takeSign_of_isDigits (h : IsDigits ds) : takeSign ds = (false, ds) := by
  rcases takeSign_cases ds with ⟨rest, rfl, -⟩ | ⟨rest, rfl, -⟩ | hsign
  · exact absurd (h.2 '+' List.mem_cons_self) (by decide)
  · exact absurd (h.2 '-' List.mem_cons_self) (by decide)
  · exact hsign

/-- The sign only decides which of two numbers the digits write. -/
theorem readInt?_of_takeSign {negative : Bool} (h : takeSign cs = (negative, ds)) (n : Int) :
    readInt? cs = some n ↔ IsDigits ds ∧
      n = if negative then -(Nat.ofDigitChars 10 ds 0 : Int)
        else (Nat.ofDigitChars 10 ds 0 : Int) := by
  rw [readInt?, h, isDigits_iff, ← ofDigits_eq]
  cases hdigits : ds.isEmpty || !ds.all isDigit with
  | true => simp [hdigits]
  | false => cases negative <;> simp [hdigits, eq_comm]

theorem readInt?_eq_some_iff (cs : List Char) (n : Int) : readInt? cs = some n ↔ Writes cs n := by
  constructor
  · intro h
    rcases takeSign_cases cs with ⟨ds, rfl, hsign⟩ | ⟨ds, rfl, hsign⟩ | hsign
    · obtain ⟨hdigits, rfl⟩ := (readInt?_of_takeSign hsign n).mp h
      exact .plus hdigits
    · obtain ⟨hdigits, rfl⟩ := (readInt?_of_takeSign hsign n).mp h
      exact .minus hdigits
    · obtain ⟨hdigits, rfl⟩ := (readInt?_of_takeSign hsign n).mp h
      exact .unsigned hdigits
  · rintro (hdigits | hdigits | hdigits)
    · exact (readInt?_of_takeSign (takeSign_of_isDigits hdigits) _).mpr ⟨hdigits, rfl⟩
    · exact (readInt?_of_takeSign rfl _).mpr ⟨hdigits, rfl⟩
    · exact (readInt?_of_takeSign rfl _).mpr ⟨hdigits, rfl⟩

theorem fitsInt64_iff (n : Int) :
    fitsInt64 n = true ↔ -9223372036854775808 ≤ n ∧ n ≤ 9223372036854775807 := by
  unfold fitsInt64
  rw [Bool.and_eq_true, decide_eq_true_eq, decide_eq_true_eq]
  exact Iff.rfl

theorem readInt64?_eq_some_iff (cs : List Char) (k : Int64) : readInt64? cs = some k ↔
    ∃ n, Writes cs n ∧ -9223372036854775808 ≤ n ∧ n ≤ 9223372036854775807 ∧ k = Int64.ofInt n := by
  unfold readInt64?
  constructor
  · intro h
    split at h
    · rename_i n hread
      split at h
      · rename_i hfits
        cases h
        obtain ⟨hlow, hhigh⟩ := (fitsInt64_iff n).mp hfits
        exact ⟨n, (readInt?_eq_some_iff cs n).mp hread, hlow, hhigh, rfl⟩
      · cases h
    · cases h
  · rintro ⟨n, hwrites, hlow, hhigh, rfl⟩
    rw [(readInt?_eq_some_iff cs n).mpr hwrites]
    exact if_pos ((fitsInt64_iff n).mpr ⟨hlow, hhigh⟩)

/-- The text of a number writes it. -/
theorem writes_intText (n : Int) : Writes (intText n).toList n := by
  have hdigits : IsDigits (Nat.toDigits 10 n.natAbs) := by
    rw [isDigits_iff, Bool.or_eq_false_iff]
    refine ⟨List.isEmpty_eq_false_iff.mpr Nat.toDigits_ne_nil, ?_⟩
    rw [Bool.not_eq_false', List.all_eq_true]
    exact fun c => Json.isDigit_of_mem_toDigits
  have hvalue : Nat.ofDigitChars 10 (Nat.toDigits 10 n.natAbs) 0 = n.natAbs :=
    Nat.ofDigitChars_ten_toDigits
  rw [Json.Numeral.toList_intText, Json.Numeral.text_ofInt]
  by_cases hn : n < 0
  · have hwrites := Writes.minus hdigits
    rw [hvalue, show -(n.natAbs : Int) = n by omega] at hwrites
    rw [if_pos hn, List.singleton_append]
    exact hwrites
  · have hwrites := Writes.unsigned hdigits
    rw [hvalue, show (n.natAbs : Int) = n by omega] at hwrites
    rw [if_neg hn, List.nil_append]
    exact hwrites

/-- There are no blanks in a number. -/
theorem Writes.isBlank_eq_false {n : Int} (h : Writes cs n) {c : Char} (hc : c ∈ cs) :
    Text.isBlank c = false := by
  have hdigit : '0' ≤ c ∧ c ≤ '9' → Text.isBlank c = false := by
    rintro ⟨hlow, hhigh⟩
    have hlow : 48 ≤ c.toNat := hlow
    have hhigh : c.toNat ≤ 57 := hhigh
    simp only [Text.isBlank, Bool.or_eq_false_iff, Bool.and_eq_false_iff, decide_eq_false_iff_not,
      beq_eq_false_iff_ne]
    omega
  cases h with
  | unsigned h => exact hdigit (h.2 c hc)
  | plus h =>
    rcases List.mem_cons.mp hc with rfl | hc
    · rfl
    · exact hdigit (h.2 c hc)
  | minus h =>
    rcases List.mem_cons.mp hc with rfl | hc
    · rfl
    · exact hdigit (h.2 c hc)

end Decimal

/-! ## Lines -/

namespace Bytes

theorem utf8_eq_flatMap (s : String) : utf8 s = s.toList.flatMap String.utf8EncodeChar := by
  unfold utf8
  rw [String.toUTF8_eq_toByteArray, ← String.utf8Encode_toList, List.utf8Encode,
    List.toList_data_toByteArray]

theorem utf8_append (s t : String) : utf8 (s ++ t) = utf8 s ++ utf8 t := by
  rw [utf8_eq_flatMap, utf8_eq_flatMap, utf8_eq_flatMap, String.toList_append, List.flatMap_append]

/-- The byte of a line feed is part of no other character. -/
theorem eq_lineFeed_of_mem {c : Char} (h : (10 : UInt8) ∈ String.utf8EncodeChar c) : c = '\n' := by
  have hbyte : ∀ n : Nat, (10 : UInt8) = UInt8.ofNat n → n % 256 = 10 := by
    intro n hn
    have hnat := congrArg UInt8.toNat hn
    rw [UInt8.toNat_ofNat'] at hnat
    exact hnat.symm
  unfold String.utf8EncodeChar at h
  dsimp only at h
  split at h
  · have hcode := hbyte _ (List.mem_singleton.mp h)
    refine Char.ext (UInt32.toNat_inj.mp ?_)
    show c.val.toNat = 10
    omega
  · -- the bytes of any other character are 128 or more
    split at h
    · simp only [List.mem_cons, List.not_mem_nil, or_false] at h
      rcases h with h | h <;> have hcode := hbyte _ h <;> omega
    · split at h
      · simp only [List.mem_cons, List.not_mem_nil, or_false] at h
        rcases h with h | h | h <;> have hcode := hbyte _ h <;> omega
      · simp only [List.mem_cons, List.not_mem_nil, or_false] at h
        rcases h with h | h | h | h <;> have hcode := hbyte _ h <;> omega

theorem lineFeed_not_mem_utf8 {s : String} (h : '\n' ∉ s.toList) : (10 : UInt8) ∉ utf8 s := by
  rw [utf8_eq_flatMap, List.mem_flatMap]
  rintro ⟨c, hc, hbyte⟩
  obtain rfl := eq_lineFeed_of_mem hbyte
  exact h hc

end Bytes

theorem Console.splitLine_append {line : Bytes} (h : (10 : UInt8) ∉ line) (rest : Bytes) :
    splitLine (line ++ 10 :: rest) = (line ++ [10], rest) := by
  induction line with
  | nil => rfl
  | cons b line ih =>
    obtain ⟨hb, hline⟩ := not_or.mp (mt List.mem_cons.mpr h)
    rw [List.cons_append, splitLine, if_neg (Ne.symm hb), ih hline]
    rfl

namespace Value

/-- The line that is printed for a value. -/
def line (v : Value) : String := v.text ++ "\n"

/-- An integer, a truth value, or a string without a line feed in it or a carriage return at its
end. -/
def FitsLine : Value → Prop
  | int _ => True
  | bool _ => True
  | string s => '\n' ∉ s.toList ∧ s.toList.getLast? ≠ some '\r'
  | _ => False

theorem toList_line (v : Value) : v.line.toList = v.text.toList ++ ['\n'] := by
  rw [line, String.toList_append]
  rfl

theorem utf8_line (v : Value) : Bytes.utf8 v.line = Bytes.utf8 v.text ++ [10] := by
  rw [line, Bytes.utf8_append]
  rfl

theorem lineFeed_not_mem_text (h : v.FitsLine) : '\n' ∉ v.text.toList := by
  cases v with
  | int n =>
    intro hmem
    exact absurd ((Decimal.writes_intText n.toInt).isBlank_eq_false hmem) (by decide)
  | bool b => cases b <;> decide
  | string s => exact h.1
  | float x => exact h.elim
  | pointer a => exact h.elim

/-- A printed line is read as one line, and what follows it stays. -/
theorem readLine_line (h : v.FitsLine) {c : Console} {rest : Bytes}
    (hinput : c.input = Bytes.utf8 v.line ++ rest) :
    c.readLine = (.ok v.line, { c with input := rest }) := by
  have hsplit : Console.splitLine c.input = (Bytes.utf8 v.line, rest) := by
    rw [hinput, utf8_line, List.append_assoc, List.singleton_append,
      Console.splitLine_append (Bytes.lineFeed_not_mem_utf8 (lineFeed_not_mem_text h))]
  have hnonempty : (Bytes.utf8 v.line).isEmpty = false := by
    rw [utf8_line]
    simp
  rw [Console.readLine, hsplit]
  dsimp only
  rw [hnonempty, if_neg Bool.false_ne_true, Bytes.text?_utf8]

/-- Which texts are integers, and which ones they are. -/
theorem read?_int_eq_some_iff (text : String) (v : Value) : read? .int text = some v ↔
    ∃ core n, Text.Trimmed text.toList core ∧ Decimal.Writes core n ∧ -9223372036854775808 ≤ n ∧
      n ≤ 9223372036854775807 ∧ v = int (Int64.ofInt n) := by
  show (Decimal.readInt64? (Text.trim (Text.dropLineEnd text.toList))).map int = some v ↔ _
  rw [Option.map_eq_some_iff]
  constructor
  · rintro ⟨k, hread, rfl⟩
    obtain ⟨n, hwrites, hlow, hhigh, rfl⟩ := (Decimal.readInt64?_eq_some_iff _ k).mp hread
    exact ⟨_, n, Text.trimmed_iff.mpr rfl, hwrites, hlow, hhigh, rfl⟩
  · rintro ⟨core, n, htrimmed, hwrites, hlow, hhigh, rfl⟩
    rw [Text.trimmed_iff.mp htrimmed]
    exact ⟨_, (Decimal.readInt64?_eq_some_iff core _).mpr ⟨n, hwrites, hlow, hhigh, rfl⟩, rfl⟩

/-- A printed line is read as the value it was printed for. -/
theorem read?_line (h : v.FitsLine) : read? v.scalar v.line = some v := by
  cases v with
  | int n =>
    have hwrites := Decimal.writes_intText n.toInt
    have htrimmed : Text.Trimmed (line (int n)).toList (Decimal.intText n.toInt).toList := by
      refine ⟨⟨[], [], ['\n'], ?_, by simp, by simp, by simp [Text.isLineEnd]⟩, ?_, ?_⟩
      · rw [toList_line, List.nil_append, List.append_nil]
        rfl
      · intro c hc
        exact hwrites.isBlank_eq_false (List.mem_of_mem_head? hc)
      · intro c hc
        exact hwrites.isBlank_eq_false (List.mem_of_getLast? hc)
    have hlow := n.le_toInt
    have hhigh := n.toInt_lt
    refine (read?_int_eq_some_iff _ _).mpr ⟨_, n.toInt, htrimmed, hwrites, by omega, by omega, ?_⟩
    rw [Int64.ofInt_toInt]
  | bool b => cases b <;> decide
  | string s =>
    obtain ⟨hfeed, hreturn⟩ := h
    have hlast : ∀ c ∈ s.toList.getLast?, Text.isLineEnd c = false := by
      intro c hc
      have hne : c ≠ '\n' := by
        rintro rfl
        exact hfeed (List.mem_of_getLast? hc)
      have hne' : c ≠ '\r' := by
        rintro rfl
        exact hreturn hc
      simp [Text.isLineEnd, hne, hne']
    have hcut : Text.dropLineEnd (line (string s)).toList = s.toList := by
      rw [toList_line]
      rw [Text.dropLineEnd, Text.dropEndWhile_append (by simp [Text.isLineEnd])]
      exact Text.dropEndWhile_eq_self hlast
    show some (string (String.ofList (Text.dropLineEnd (line (string s)).toList))) = _
    rw [hcut, String.ofList_toList]
  | float x => exact h.elim
  | pointer a => exact h.elim

end Value

/-! ## Printing and reading -/

namespace Machine

variable {m m' : Machine} {q : Quad} {v : Value}

/-- A write that succeeds adds all its bytes. -/
theorem output_of_write {c c' : Console} {bytes : Bytes} (h : c.write bytes = (.ok (), c')) :
    c'.output = c.output ++ bytes.toArray := by
  unfold Console.write at h
  split at h
  · cases h
    rfl
  · rename_i n hn
    split at h
    · rename_i hle
      cases h
      rw [List.take_of_length_le hle]
    · cases h

/-- Printing a value adds its line to the output. -/
theorem output_of_print {flow : Flow} (hop : q.op = .print) (hread : m.read q.result = .ok v)
    (h : Yields (Exec.execute q) m flow m') :
    m'.console.output = m.console.output ++ (Bytes.utf8 v.line).toArray := by
  have hexecute : Exec.execute q = Exec.print q := by
    rw [Exec.execute, hop]
  rw [hexecute] at h
  obtain ⟨w, m₁, hask, h⟩ := yields_bind.mp h
  obtain ⟨hw, rfl⟩ := Exec.yields_ask.mp hask
  rw [hread] at hw
  cases hw
  obtain ⟨u, m₂, hwrite, h⟩ := yields_bind.mp h
  cases h
  rw [Exec.writeLine, yields_get_bind] at hwrite
  dsimp only at hwrite
  cases hconsole : m₁.console.write (Bytes.utf8 v.text ++ [10]) with
  | mk result c =>
    rw [hconsole, yields_set_bind] at hwrite
    cases result with
    | error e => cases hwrite
    | ok u =>
      cases hwrite
      rw [Value.utf8_line]
      exact output_of_write hconsole

/-- Reading into a slot of the type of a printed value stores that value. -/
theorem yields_input {target : Nat} {rest : Bytes} (hop : q.op = .input)
    (hresolve : m.resolve q.result = .ok target) (hty : m.layout.typeOf target = some v.scalar)
    (hflush : m.console.flushFails = false) (hfits : v.FitsLine)
    (hinput : m.console.input = Bytes.utf8 v.line ++ rest)
    (hstore : { m with console := { m.console with input := rest } }.writeSlot target (some v) =
      .ok m')
    : Yields (Exec.execute q) m .next m' := by
  have hflushed : Yields Exec.flush m () m := by
    rw [Exec.flush, yields_get_bind]
    rw [Console.flush, hflush, if_neg Bool.false_ne_true]
    rfl
  have hline :
      Yields Exec.readLine m v.line { m with console := { m.console with input := rest } } := by
    rw [Exec.readLine, yields_get_bind]
    dsimp only
    rw [Value.readLine_line hfits hinput]
    rfl
  have hexecute : Exec.execute q = Exec.input q := by
    rw [Exec.execute, hop]
  rw [hexecute]
  refine yields_bind.mpr ⟨target, m, Exec.yields_ask.mpr ⟨hresolve, rfl⟩, ?_⟩
  rw [yields_get_bind, hty]
  refine yields_bind.mpr ⟨(), m, hflushed, yields_bind.mpr ⟨v.line, _, hline, ?_⟩⟩
  rw [Value.read?_line hfits]
  exact yields_bind.mpr ⟨(), m', Exec.yields_update.mpr hstore, yields_pure.mpr ⟨rfl, rfl⟩⟩

/-- **What is printed is read back.** For every integer, every truth value and every string without
a line feed in it or a carriage return at its end: a print that succeeds adds a line to the output,
which, at the front of any input, is taken from it as one line and read, at the type of the value,
as exactly that value; and an input into a slot of the type stores it.  And a text is read as an
integer exactly when what is left of it, without the line ends behind it and then the blanks around
it, is one or more digits with at most one sign in front that write a number of sixty-four bits, and
then as that number. -/
theorem printed_lines_are_read_back :
    (∀ v : Value, v.FitsLine →
      (∀ (q : Quad) (m m' : Machine) (flow : Flow), q.op = .print → m.read q.result = .ok v →
        Yields (Exec.execute q) m flow m' →
        m'.console.output = m.console.output ++ (Bytes.utf8 v.line).toArray) ∧
      (∀ (c : Console) (rest : Bytes), c.input = Bytes.utf8 v.line ++ rest →
        c.readLine = (.ok v.line, { c with input := rest })) ∧
      Value.read? v.scalar v.line = some v ∧
      ∀ (q : Quad) (m m' : Machine) (target : Nat) (rest : Bytes), q.op = .input →
        m.resolve q.result = .ok target →
        m.layout.typeOf target = some v.scalar → m.console.flushFails = false →
        m.console.input = Bytes.utf8 v.line ++ rest →
        { m with console := { m.console with input := rest } }.writeSlot target (some v) = .ok m' →
        Yields (Exec.execute q) m .next m') ∧
    ∀ (text : String) (v : Value), Value.read? .int text = some v ↔
      ∃ core n, Text.Trimmed text.toList core ∧ Decimal.Writes core n ∧ -9223372036854775808 ≤ n ∧
        n ≤ 9223372036854775807 ∧ v = .int (Int64.ofInt n) := by
  refine ⟨?_, Value.read?_int_eq_some_iff⟩
  intro v hfits
  refine ⟨?_, ?_, Value.read?_line hfits, ?_⟩
  · intro q m m' flow hop hread h
    exact output_of_print hop hread h
  · intro c rest hinput
    exact Value.readLine_line hfits hinput
  · intro q m m' target rest hop hresolve hty hflush hinput hstore
    exact yields_input hop hresolve hty hflush hfits hinput hstore

/-- A machine with one slot for a number and this input. -/
def withSlot (v : Option Value) (input : Bytes) : Machine :=
  { ofConsole ⟨2, none, 0⟩ (Console.ofInput input) .warn with
    globals := ⟨globalScope, ⟨1, 0, 0, 0, 0⟩, ⟨#[v], #[], #[], #[], #[]⟩⟩ }

/-- The least number is printed and read back; the greatest is read with zeros in front of it and
blanks around it. -/
theorem printed_lines_are_read_back_extremes :
    (Value.int Int64.minValue).FitsLine ∧
      (∃ m', Yields (Exec.execute ⟨.print, none, none, some (.addr 0)⟩)
        (withSlot (some (.int Int64.minValue)) []) .next m' ∧
        m'.console.output = #[] ++ (Bytes.utf8 (Value.int Int64.minValue).line).toArray) ∧
      Yields (Exec.execute ⟨.input, none, none, some (.addr 0)⟩)
        (withSlot none (Bytes.utf8 (Value.int Int64.minValue).line ++ [97])) .next
        (withSlot (some (.int Int64.minValue)) [97]) ∧
      Value.read? .int "\t+0009223372036854775807 \r\n" = some (.int Int64.maxValue) := by
  obtain ⟨hvalues, htexts⟩ := printed_lines_are_read_back
  obtain ⟨hprint, -, -, hinput⟩ := hvalues (.int Int64.minValue) trivial
  have hprinted : ((Exec.execute ⟨.print, none, none, some (.addr 0)⟩).run.run
      (withSlot (some (.int Int64.minValue)) [])).1 = .ok .next := by decide +kernel
  refine ⟨trivial, ⟨_, Prod.ext hprinted rfl, ?_⟩, ?_, ?_⟩
  · exact hprint _ (withSlot (some (.int Int64.minValue)) []) _ .next rfl (by decide +kernel)
      (Prod.ext hprinted rfl)
  · exact hinput _ _ _ 0 [97] rfl rfl (by decide +kernel) rfl rfl (by decide +kernel)
  · have hdigits : Decimal.IsDigits "0009223372036854775807".toList := by
      have hall : ("0009223372036854775807".toList.all fun c => '0' ≤ c ∧ c ≤ '9') = true := by
        decide +kernel
      exact ⟨by decide +kernel, fun c hc => of_decide_eq_true (List.all_eq_true.mp hall c hc)⟩
    have hcore :
        Text.Trimmed "\t+0009223372036854775807 \r\n".toList "+0009223372036854775807".toList := by
      refine ⟨⟨['\t'], [' '], ['\r', '\n'],
        by decide +kernel, List.all_eq_true.mp rfl, List.all_eq_true.mp rfl,
        List.all_eq_true.mp rfl⟩, ?_, ?_⟩
      · rintro c ⟨⟩
        rfl
      · rintro c ⟨⟩
        rfl
    exact (htexts _ _).mpr ⟨_, 9223372036854775807, hcore, .plus hdigits,
      by decide, by decide, by decide +kernel⟩

end Machine

end Quadruple
