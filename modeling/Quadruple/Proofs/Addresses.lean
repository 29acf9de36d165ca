/-
  Addresses are handed out to one user at a time.

  The runs of a layout follow one another, so no two of them share an address and `locate` finds the
  run of an address (`locate_eq_of_contains`).  A supply hands out an address that is not live, and
  from then on that address is live until it is given back; giving one back touches no other
  (`Supply.Valid.take`, `Supply.Valid.give`):

      s.take = ok (a, s')   →  (s'.isLive b  ↔  s.isLive b ∨ b = a)
      s.give? a = some s'   →  (s'.isLive b  ↔  s.isLive b ∧ b ≠ a)

  All addresses change at once only in a rewind: as many are back as were handed out, and none is
  live.
-/
import Mathlib.Order.Interval.Finset.Nat
import Quadruple.Pool

namespace Quadruple

variable {sizes : Sizes} {a len : Nat} {segment segment' : Segment} {ty t : Scalar}
  {s s' : Supply}

/-! ## The runs of a layout -/

theorem mem_places (s : Segment) (t : Scalar) : (s, t) ∈ places := by
  cases s <;> cases t <;> decide

/-- Of two places one comes first, and its run ends before the other one starts. -/
theorem total_takeWhile_le (sizes : Sizes) {p q : Segment × Scalar} (hne : p ≠ q) :
    ∀ ps : List (Segment × Scalar), p ∈ ps → q ∈ ps →
      sizes.total (ps.takeWhile (· ≠ p)) + sizes.slots p.1 p.2 ≤ sizes.total
        (ps.takeWhile (· ≠ q)) ∨
      sizes.total (ps.takeWhile (· ≠ q)) + sizes.slots q.1 q.2 ≤ sizes.total (ps.takeWhile (· ≠ p))
  | [], hp, _ => by cases hp
  | x :: rest, hp, hq => by
    have hcons : ∀ ps, sizes.total (x :: ps) = sizes.slots x.1 x.2 + sizes.total ps := fun _ => rfl
    by_cases hxp : x = p
    · subst hxp
      left
      rw [List.takeWhile_cons_of_neg (by simp), List.takeWhile_cons_of_pos (by simpa using hne),
        hcons]
      show 0 + _ ≤ _
      omega
    · by_cases hxq : x = q
      · subst hxq
        right
        rw [List.takeWhile_cons_of_neg (by simp), List.takeWhile_cons_of_pos (by simpa using hxp),
          hcons]
        show 0 + _ ≤ _
        omega
      · have hp' : p ∈ rest := (List.mem_cons.mp hp).resolve_left (Ne.symm hxp)
        have hq' : q ∈ rest := (List.mem_cons.mp hq).resolve_left (Ne.symm hxq)
        rw [List.takeWhile_cons_of_pos (by simpa using hxp),
          List.takeWhile_cons_of_pos (by simpa using hxq),
          hcons, hcons]
        have ih := total_takeWhile_le sizes hne rest hp' hq'
        omega

theorem total_takeWhile_le_total (sizes : Sizes) {p : Segment × Scalar} :
    ∀ ps : List (Segment × Scalar), p ∈ ps →
      sizes.total (ps.takeWhile (· ≠ p)) + sizes.slots p.1 p.2 ≤ sizes.total ps
  | [], hp => by cases hp
  | x :: rest, hp => by
    have hcons : ∀ ps, sizes.total (x :: ps) = sizes.slots x.1 x.2 + sizes.total ps := fun _ => rfl
    by_cases hxp : x = p
    · subst hxp
      rw [List.takeWhile_cons_of_neg (by simp), hcons]
      show 0 + _ ≤ _
      omega
    · have hp' : p ∈ rest := (List.mem_cons.mp hp).resolve_left (Ne.symm hxp)
      rw [List.takeWhile_cons_of_pos (by simpa using hxp), hcons, hcons]
      have ih := total_takeWhile_le_total sizes rest hp'
      omega

/-- The runs of places leave no gap. -/
theorem exists_place_of_lt_total (sizes : Sizes) {a : Nat} :
    ∀ ps : List (Segment × Scalar), ps.Nodup → a < sizes.total ps →
      ∃ p ∈ ps, sizes.total (ps.takeWhile (· ≠ p)) ≤ a ∧
        a < sizes.total (ps.takeWhile (· ≠ p)) + sizes.slots p.1 p.2
  | [], _, ha => (Nat.not_lt_zero a ha).elim
  | x :: rest, hnodup, ha => by
    have hcons : ∀ ps, sizes.total (x :: ps) = sizes.slots x.1 x.2 + sizes.total ps := fun _ => rfl
    obtain ⟨hx, hrest⟩ := List.nodup_cons.mp hnodup
    rw [hcons] at ha
    rcases Nat.lt_or_ge a (sizes.slots x.1 x.2) with hfirst | hlater
    · refine ⟨x, List.mem_cons_self, ?_⟩
      rw [List.takeWhile_cons_of_neg (by simp)]
      show 0 ≤ a ∧ a < 0 + _
      omega
    · have hlt : a - sizes.slots x.1 x.2 < sizes.total rest := by omega
      obtain ⟨p, hp, hlo, hhi⟩ := exists_place_of_lt_total sizes rest hrest hlt
      have hne : x ≠ p := by
        rintro rfl
        exact hx hp
      refine ⟨p, List.mem_cons_of_mem _ hp, ?_⟩
      rw [List.takeWhile_cons_of_pos (by simpa using hne), hcons]
      omega

namespace Layout

variable (sizes : Sizes)

theorem range_ofSizes (s : Segment) (t : Scalar) :
    (ofSizes sizes).range s t = ⟨s, t, sizes.startOf s t, sizes.slots s t⟩ := by
  rw [range, ofSizes, PerSegment.get_ofFn, PerScalar.get_ofFn]

theorem contains_iff (r : Range) (a : Nat) :
    r.contains a = true ↔ r.start ≤ a ∧ a < r.start + r.len := by
  rw [Range.contains, Range.limit, Bool.and_eq_true, decide_eq_true_eq, decide_eq_true_eq]

variable {sizes}

/-- An address lies in one run only. -/
theorem place_eq_of_contains {s s' : Segment} {t' : Scalar}
    (h : ((ofSizes sizes).range s t).contains a = true)
    (h' : ((ofSizes sizes).range s' t').contains a = true) : (s, t) = (s', t') := by
  by_contra hne
  rw [range_ofSizes, contains_iff] at h h'
  dsimp only at h h'
  unfold Sizes.startOf at h h'
  have hapart := total_takeWhile_le sizes hne places (mem_places s t) (mem_places s' t')
  dsimp only at hapart
  omega

/-- The run of an address is the one that contains it. -/
theorem locate_eq_of_contains {s : Segment} (h : ((ofSizes sizes).range s t).contains a = true) :
    (ofSizes sizes).locate a = some ((ofSizes sizes).range s t) := by
  unfold locate
  cases hfind : (ofSizes sizes).rangeList.find? (·.contains a) with
  | none =>
    have hmem : (ofSizes sizes).range s t ∈ (ofSizes sizes).rangeList :=
      List.mem_map.mpr ⟨(s, t), mem_places s t, rfl⟩
    have hnot := List.find?_eq_none.mp hfind _ hmem
    exact (hnot h).elim
  | some r =>
    obtain ⟨⟨s', t'⟩, -, rfl⟩ := List.mem_map.mp (List.mem_of_find?_eq_some hfind)
    have hr := List.find?_some hfind
    have hplace := place_eq_of_contains h hr
    rw [Prod.mk.injEq] at hplace
    rw [hplace.1, hplace.2]

theorem locate_eq_some {r : Range} (h : (ofSizes sizes).locate a = some r) :
    r = (ofSizes sizes).range r.segment r.ty ∧ r.contains a = true := by
  unfold locate at h
  have hcontains := List.find?_some h
  obtain ⟨⟨s, t⟩, -, rfl⟩ := List.mem_map.mp (List.mem_of_find?_eq_some h)
  refine ⟨?_, hcontains⟩
  rw [range_ofSizes, range_ofSizes]

/-- Every run ends where the heap starts or before. -/
theorem limit_le_heapStart (s : Segment) (t : Scalar) :
    ((ofSizes sizes).range s t).limit ≤ (ofSizes sizes).heapStart := by
  rw [range_ofSizes]
  exact total_takeWhile_le_total sizes places (mem_places s t)

theorem lt_heapStart {s : Segment} (h : ((ofSizes sizes).range s t).contains a = true) :
    a < (ofSizes sizes).heapStart :=
  Nat.lt_of_lt_of_le ((contains_iff _ a).mp h).2 (limit_le_heapStart s t)

/-- The addresses that belong to no run are those of the heap. -/
theorem locate_eq_none_iff : (ofSizes sizes).locate a = none ↔ (ofSizes sizes).heapStart ≤ a := by
  constructor
  · intro hnone
    by_contra hlow
    have hlt : a < sizes.total places := Nat.lt_of_not_le hlow
    obtain ⟨⟨s, t⟩, -, hlo, hhi⟩ := exists_place_of_lt_total sizes places (by decide) hlt
    have hcontains : ((ofSizes sizes).range s t).contains a = true := by
      rw [range_ofSizes, contains_iff]
      exact ⟨hlo, hhi⟩
    rw [locate_eq_of_contains hcontains] at hnone
    cases hnone
  · intro hheap
    cases hlocate : (ofSizes sizes).locate a with
    | none => rfl
    | some r =>
      obtain ⟨hr, hcontains⟩ := locate_eq_some hlocate
      rw [hr] at hcontains
      have hlt := lt_heapStart hcontains
      omega

end Layout

/-- The address lies in the run of the segment and the type. -/
def Located (sizes : Sizes) (a : Nat) (segment : Segment) (ty : Scalar) : Prop :=
  (Layout.ofSizes sizes).locate a = some ((Layout.ofSizes sizes).range segment ty)

theorem Located.unique {ty' : Scalar} (h : Located sizes a segment ty)
    (h' : Located sizes a segment' ty') : segment' = segment ∧ ty' = ty := by
  have heq : (Layout.ofSizes sizes).range segment ty = (Layout.ofSizes sizes).range segment' ty' :=
    Option.some.inj (h.symm.trans h')
  rw [Layout.range_ofSizes, Layout.range_ofSizes] at heq
  exact ⟨(congrArg Range.segment heq).symm, (congrArg Range.ty heq).symm⟩

theorem Located.typeOf (h : Located sizes a segment ty) :
    (Layout.ofSizes sizes).typeOf a = some ty := by
  rw [Layout.typeOf, h, Layout.range_ofSizes, Option.map_some]

theorem Located.segmentOf (h : Located sizes a segment ty) :
    (Layout.ofSizes sizes).segmentOf a = some segment := by
  rw [Layout.segmentOf, h, Layout.range_ofSizes, Option.map_some]

/-! ## Supplies -/

namespace Supply

/-- The addresses handed out and given back are consistent, within the run and below the peak, which
is within the run too, and not all that were handed out are back. -/
structure Valid (s : Supply) : Prop where
  start_le : s.range.start ≤ s.next
  next_le : s.next ≤ s.range.limit
  freed_lt : ∀ a ∈ s.freed, s.range.start ≤ a ∧ a < s.next
  nodup : s.freed.Nodup
  idle_nodup : s.idle.Nodup
  mem_idle : ∀ a, a ∈ s.idle ↔ a ∈ s.freed
  some_out : s.range.start < s.next → s.freed.length < s.next - s.range.start
  peak : s.next - s.range.start ≤ s.peak
  peak_le : s.peak ≤ s.range.len

theorem isLive_iff (s : Supply) (a : Nat) :
    s.isLive a = true ↔ s.range.start ≤ a ∧ a < s.next ∧ a ∉ s.freed := by
  unfold isLive
  simp [and_assoc]

theorem isLive_rewind (s : Supply) (a : Nat) : s.rewind.isLive a = false := by
  rw [Bool.eq_false_iff]
  intro h
  obtain ⟨hlo, hhi, -⟩ := (isLive_iff _ a).mp h
  exact Nat.not_lt_of_le hlo hhi

theorem valid_ofRange (r : Range) : (ofRange r).Valid := by
  refine ⟨Nat.le_refl _, ?_, ?_, List.nodup_nil, List.nodup_nil, fun _ => Iff.rfl, ?_, ?_,
    Nat.zero_le _⟩
  · show r.start ≤ r.start + r.len
    omega
  · intro a ha
    cases ha
  · intro hout
    exact (Nat.lt_irrefl _ hout).elim
  · show r.start - r.start ≤ 0
    omega

/-- No more addresses are given back than were handed out. -/
theorem Valid.length_freed_le (hs : s.Valid) : s.freed.length ≤ s.next - s.range.start := by
  rcases Nat.eq_or_lt_of_le hs.start_le with heq | hlt
  · have hnone : s.freed = [] := by
      rw [List.eq_nil_iff_forall_not_mem]
      intro a ha
      have hinside := hs.freed_lt a ha
      omega
    rw [hnone, List.length_nil]
    omega
  · have hlength := hs.some_out hlt
    omega

/-- Fresh addresses are handed out exactly when the end of the request is a word and inside the run.
-/
theorem takeFresh_eq_ok_iff :
    s.takeFresh len = .ok (a, s') ↔
      (IsWord (s.next + len) ∧ s.next + len ≤ s.range.limit) ∧ a = s.next ∧
        s' = { s with
          next := s.next + len
          peak := max s.peak (s.next + len - s.range.start) } := by
  unfold takeFresh
  dsimp only
  split
  · rename_i hword
    exact iff_of_false nofun fun h => hword h.1.1
  split
  · rename_i hfull
    exact iff_of_false nofun fun h => Nat.not_lt_of_le h.1.2 hfull
  · rename_i hword hroom
    rw [Except.ok.injEq, Prod.mk.injEq, eq_comm, eq_comm (b := s')]
    exact ⟨fun h => ⟨⟨not_not.mp hword, Nat.le_of_not_lt hroom⟩, h⟩, And.right⟩

/-- A request overflows exactly when its end is no word, and runs out exactly when its end is one
but past the run. -/
theorem takeFresh_eq_error_iff {shortage : Shortage} :
    s.takeFresh len = .error shortage ↔
      ¬ IsWord (s.next + len) ∧ shortage = .overflow ∨
        IsWord (s.next + len) ∧ s.range.limit < s.next + len ∧ shortage = .exhausted := by
  unfold takeFresh
  dsimp only
  split
  · rename_i hword
    rw [Except.error.injEq]
    exact ⟨fun h => Or.inl ⟨hword, h.symm⟩, fun h => (h.resolve_right fun h => hword h.1).2.symm⟩
  rename_i hword
  split
  · rename_i hfull
    rw [Except.error.injEq]
    exact ⟨fun h => Or.inr ⟨not_not.mp hword, hfull, h.symm⟩,
      fun h => (h.resolve_left fun h => hword h.1).2.2.symm⟩
  · rename_i hroom
    exact iff_of_false nofun fun h => h.elim (fun h => hword h.1) fun h => hroom h.2.1

/-- What taking consecutive addresses does to the rest of a supply. -/
theorem Valid.takeFresh (hs : s.Valid) (hlen : 0 < len) (h : s.takeFresh len = .ok (a, s')) :
    a = s.next ∧ s'.Valid ∧ s'.range = s.range ∧ s.peak ≤ s'.peak ∧ s.range.contains a = true ∧
      s.range.offset a < s'.peak := by
  obtain ⟨⟨-, hroom⟩, rfl, rfl⟩ := takeFresh_eq_ok_iff.mp h
  have hlo := hs.start_le
  have hpeak := hs.peak
  refine ⟨rfl, ⟨?_, ?_, ?_, hs.nodup, hs.idle_nodup, hs.mem_idle, ?_, ?_, ?_⟩, rfl,
    Nat.le_max_left _ _, ?_, ?_⟩
  · show s.range.start ≤ s.next + len
    omega
  · show s.next + len ≤ s.range.limit
    omega
  · intro b hb
    have hb := hs.freed_lt b hb
    exact ⟨hb.1, Nat.lt_of_lt_of_le hb.2 (Nat.le_add_right _ _)⟩
  · intro _
    show s.freed.length < s.next + len - s.range.start
    have hlength := hs.length_freed_le
    omega
  · exact Nat.le_max_right _ _
  · refine Nat.max_le.mpr ⟨hs.peak_le, ?_⟩
    unfold Range.limit at hroom
    show s.next + len - s.range.start ≤ s.range.len
    omega
  · rw [Range.contains, Bool.and_eq_true, decide_eq_true_eq, decide_eq_true_eq]
    omega
  · unfold Range.offset
    show s.next - s.range.start < max s.peak (s.next + len - s.range.start)
    omega

/-- Consecutive fresh addresses are what a block adds to those that are out. -/
theorem Valid.isLive_takeFresh (hs : s.Valid) (h : s.takeFresh len = .ok (a, s')) (b : Nat) :
    s'.isLive b = true ↔ s.isLive b = true ∨ a ≤ b ∧ b < a + len := by
  have hlo := hs.start_le
  obtain ⟨-, rfl, rfl⟩ := takeFresh_eq_ok_iff.mp h
  rw [isLive_iff, isLive_iff]
  constructor
  · rintro ⟨hstart, hlt, hb⟩
    have hlt : b < s.next + len := hlt
    rcases Nat.lt_or_ge b s.next with hold | hnew
    · exact Or.inl ⟨hstart, hold, hb⟩
    · exact Or.inr ⟨hnew, hlt⟩
  · rintro (⟨hstart, hlt, hb⟩ | ⟨hge, hlt⟩)
    · refine ⟨hstart, ?_, hb⟩
      show b < s.next + len
      omega
    · refine ⟨?_, hlt, ?_⟩
      · show s.range.start ≤ b
        omega
      · intro hb
        have hbelow := (hs.freed_lt b hb).2
        omega

/-- What taking one address does: it was not live and now is, in its run and below the peak. -/
structure Takes (s : Supply) (a : Nat) (s' : Supply) : Prop where
  valid : s'.Valid
  range : s'.range = s.range
  fresh : s.isLive a = false
  live : ∀ b, s'.isLive b = true ↔ s.isLive b = true ∨ b = a
  peak : s.peak ≤ s'.peak

/-- The address taken was free, and is the only one to become live. -/
theorem Valid.take (hs : s.Valid) (h : s.take = .ok (a, s')) : Takes s a s' := by
  unfold Supply.take at h
  split at h
  · -- the oldest address given back
    rename_i rest hfreed
    cases h
    have hmem : a ∈ s.freed := hfreed ▸ List.mem_cons_self
    have hnodup := hs.nodup
    rw [hfreed, List.nodup_cons] at hnodup
    obtain ⟨hlo, hhi⟩ := hs.freed_lt a hmem
    refine ⟨⟨hs.start_le, hs.next_le, ?_, hnodup.2, hs.idle_nodup.erase a, ?_, ?_, hs.peak,
      hs.peak_le⟩, rfl, ?_, ?_, Nat.le_refl _⟩
    · intro b hb
      exact hs.freed_lt b (hfreed ▸ List.mem_cons_of_mem _ hb)
    · -- what leaves the queue leaves the set
      intro b
      rw [hs.idle_nodup.mem_erase_iff, hs.mem_idle, hfreed, List.mem_cons]
      constructor
      · rintro ⟨hba, hb⟩
        exact hb.resolve_left hba
      · intro hb
        exact ⟨fun hba => hnodup.1 (hba ▸ hb), Or.inr hb⟩
    · intro hout
      have hlength := hs.some_out hout
      rw [hfreed, List.length_cons] at hlength
      exact Nat.lt_of_succ_lt hlength
    · rw [Bool.eq_false_iff]
      intro hlive
      exact ((isLive_iff s a).mp hlive).2.2 hmem
    · intro b
      rw [isLive_iff, isLive_iff, hfreed, List.mem_cons]
      dsimp only
      constructor
      · rintro ⟨hblo, hbhi, hb⟩
        by_cases hba : b = a
        · exact Or.inr hba
        · exact Or.inl ⟨hblo, hbhi, fun h => h.elim hba hb⟩
      · rintro (⟨hblo, hbhi, hb⟩ | rfl)
        · exact ⟨hblo, hbhi, fun h => hb (Or.inr h)⟩
        · exact ⟨hlo, hhi, hnodup.1⟩
  · -- the next one never handed out
    obtain ⟨ha, hvalid, hrange, hpeak, -⟩ := hs.takeFresh Nat.one_pos h
    refine ⟨hvalid, hrange, ?_, fun b => ?_, hpeak⟩
    · rw [Bool.eq_false_iff]
      intro hlive
      exact Nat.lt_irrefl _ (ha ▸ ((isLive_iff s a).mp hlive).2.1)
    · rw [hs.isLive_takeFresh h]
      refine or_congr_right ?_
      omega

/-- A supply with everything back and its peak forgotten is as good as new. -/
theorem valid_rewound (s : Supply) :
    ({ s.rewind with peak := 0 } : Supply).Valid := valid_ofRange s.range

/-- What giving one address back does: it was live and now is not. -/
structure Gives (s : Supply) (a : Nat) (s' : Supply) : Prop where
  valid : s'.Valid
  range : s'.range = s.range
  wasLive : s.isLive a = true
  live : ∀ b, s'.isLive b = true ↔ s.isLive b = true ∧ b ≠ a
  peak : s'.peak = s.peak

/-- As many addresses given back as were handed out are all that were handed out. -/
theorem mem_of_length {l : List Nat} {lo hi : Nat} (hnodup : l.Nodup)
    (hinside : ∀ a ∈ l, lo ≤ a ∧ a < hi) (hlength : l.length = hi - lo) {b : Nat} (hlo : lo ≤ b)
    (hhi : b < hi) : b ∈ l := by
  have hsub : l.toFinset ⊆ Finset.Ico lo hi := by
    intro a ha
    rw [Finset.mem_Ico]
    exact hinside a (List.mem_toFinset.mp ha)
  have hcard : (Finset.Ico lo hi).card ≤ l.toFinset.card := by
    rw [Nat.card_Ico, List.toFinset_card_of_nodup hnodup]
    omega
  have heq := Finset.eq_of_subset_of_card_le hsub hcard
  rw [← List.mem_toFinset, heq, Finset.mem_Ico]
  exact ⟨hlo, hhi⟩

/-- The address given back was live, and no other stops being so. -/
theorem Valid.give (hs : s.Valid) (hstart : s.range.start ≤ a) (h : s.give? a = some s') :
    Gives s a s' := by
  unfold give? at h
  split at h
  · cases h
  rename_i hheld
  rw [Bool.or_eq_true, decide_eq_true_eq, List.contains_iff_mem, hs.mem_idle, not_or] at hheld
  obtain ⟨hlt, hnot⟩ := hheld
  have hlt : a < s.next := by omega
  have hinside : ∀ b ∈ s.freed ++ [a], s.range.start ≤ b ∧ b < s.next := by
    intro b hb
    rcases List.mem_append.mp hb with hb | hb
    · exact hs.freed_lt b hb
    · rw [List.mem_singleton.mp hb]
      exact ⟨hstart, hlt⟩
  have hnodup : (s.freed ++ [a]).Nodup := by
    rw [List.nodup_append]
    refine ⟨hs.nodup, List.nodup_singleton a, ?_⟩
    intro b hb c hc heq
    rw [List.mem_singleton.mp hc] at heq
    exact hnot (heq ▸ hb)
  have hidle : ∀ b, b ∈ s.idle.insert a ↔ b ∈ s.freed ++ [a] := by
    intro b
    rw [List.mem_insert_iff, hs.mem_idle, List.mem_append, List.mem_singleton, or_comm]
  have hwas : s.isLive a = true := (isLive_iff s a).mpr ⟨hstart, hlt, hnot⟩
  dsimp only at h
  split at h
  · -- everything is back, so nothing is live before or after
    rename_i hlength
    cases h
    refine ⟨⟨Nat.le_refl _, ?_, ?_, List.nodup_nil, List.nodup_nil, fun _ => Iff.rfl, ?_, ?_,
      hs.peak_le⟩, rfl, hwas, ?_, rfl⟩
    · show s.range.start ≤ s.range.start + s.range.len
      omega
    · intro b hb
      cases hb
    · intro hout
      exact (Nat.lt_irrefl _ hout).elim
    · show s.range.start - s.range.start ≤ s.peak
      omega
    · intro b
      rw [isLive_iff, isLive_iff]
      constructor
      · rintro ⟨hblo, hbhi, -⟩
        have hblo : s.range.start ≤ b := hblo
        have hbhi : b < s.range.start := hbhi
        omega
      · rintro ⟨⟨hblo, hbhi, hb⟩, hba⟩
        have hmem := mem_of_length hnodup hinside hlength hblo hbhi
        rcases List.mem_append.mp hmem with hmem | hmem
        · exact (hb hmem).elim
        · exact (hba (List.mem_singleton.mp hmem)).elim
  · rename_i hlength
    cases h
    refine ⟨⟨hs.start_le, hs.next_le, hinside, hnodup, hs.idle_nodup.insert, hidle, ?_, hs.peak,
      hs.peak_le⟩, rfl, hwas, ?_, rfl⟩
    · intro hout
      have hbefore := hs.some_out hout
      show (s.freed ++ [a]).length < s.next - s.range.start
      rw [List.length_append, List.length_singleton] at hlength ⊢
      omega
    intro b
    rw [isLive_iff, isLive_iff]
    dsimp only
    rw [List.mem_append, List.mem_singleton, not_or]
    constructor
    · rintro ⟨hblo, hbhi, hb, hba⟩
      exact ⟨⟨hblo, hbhi, hb⟩, hba⟩
    · rintro ⟨⟨hblo, hbhi, hb⟩, hba⟩
      exact ⟨hblo, hbhi, hb, hba⟩

/-- A live address lies in the run, below the peak. -/
theorem Valid.lt_peak (hs : s.Valid) (h : s.isLive a = true) :
    s.range.contains a = true ∧ s.range.offset a < s.peak := by
  obtain ⟨hlo, hhi, -⟩ := (isLive_iff s a).mp h
  have hnext := hs.next_le
  have hpeak := hs.peak
  rw [Range.contains, Range.offset, Bool.and_eq_true, decide_eq_true_eq, decide_eq_true_eq]
  omega

end Supply

/-! ## The pool -/

namespace Pool

/-- Every supply is valid and that of its own run. -/
structure Valid (sizes : Sizes) (p : Pool) : Prop where
  layout : p.layout = Layout.ofSizes sizes
  supplies : ∀ segment ty, (p.supply segment ty).Valid
  ranges : ∀ segment ty, (p.supply segment ty).range = p.layout.range segment ty

variable {sizes : Sizes} {p p' : Pool}

theorem Valid.range_supply (hp : p.Valid sizes) (segment : Segment) (ty : Scalar) :
    (p.supply segment ty).range = (Layout.ofSizes sizes).range segment ty := by
  rw [hp.ranges, hp.layout]

/-- No more slots of a run are in use at a time than the run has. -/
theorem Valid.peak_le_slots (hp : p.Valid sizes) (segment : Segment) (ty : Scalar) :
    p.peak segment ty ≤ sizes.slots segment ty := by
  have hpeak := (hp.supplies segment ty).peak_le
  rwa [hp.range_supply, Layout.range_ofSizes] at hpeak

theorem Valid.peak_le_heapStart (hp : p.Valid sizes) (segment : Segment) (ty : Scalar) :
    p.peak segment ty ≤ (Layout.ofSizes sizes).heapStart := by
  have hlimit : _ ≤ (Layout.ofSizes sizes).heapStart := Layout.limit_le_heapStart segment ty
  rw [Layout.range_ofSizes] at hlimit
  exact Nat.le_trans (hp.peak_le_slots segment ty) (Nat.le_trans (Nat.le_add_left _ _) hlimit)

/-- The slots of one type that are in use in two segments at a time fit below the heap. -/
theorem Valid.peak_add_peak_le (hp : p.Valid sizes) (hne : segment ≠ segment') (ty : Scalar) :
    p.peak segment ty + p.peak segment' ty ≤ (Layout.ofSizes sizes).heapStart := by
  have hpeak := hp.peak_le_slots segment ty
  have hpeak' := hp.peak_le_slots segment' ty
  have hplaces : (segment, ty) ≠ (segment', ty) := fun heq => hne (congrArg Prod.fst heq)
  have hapart := total_takeWhile_le sizes hplaces places (mem_places _ _) (mem_places _ _)
  have hlimit := total_takeWhile_le_total sizes places (mem_places segment ty)
  have hlimit' := total_takeWhile_le_total sizes places (mem_places segment' ty)
  show _ ≤ sizes.total places
  dsimp only at hapart hlimit hlimit'
  omega

theorem supply_ofLayout (l : Layout) (segment : Segment) (ty : Scalar) :
    (ofLayout l).supply segment ty = .ofRange (l.range segment ty) := by
  rw [supply, ofLayout, PerSegment.get_ofFn, PerScalar.get_ofFn]

theorem valid_ofLayout (sizes : Sizes) : (ofLayout (Layout.ofSizes sizes)).Valid sizes := by
  refine ⟨rfl, ?_, ?_⟩
  · intro segment ty
    rw [supply_ofLayout]
    exact Supply.valid_ofRange _
  · intro segment ty
    rw [supply_ofLayout]
    rfl

/-- Nothing is live at the start. -/
theorem isLive_ofLayout (l : Layout) (a : Nat) : (ofLayout l).isLive a = false := by
  unfold isLive
  split
  · rw [supply_ofLayout]
    exact (Supply.ofRange _).isLive_rewind a
  · rfl

/-- The supply that an address belongs to says whether it is live. -/
theorem Valid.isLive_located (hp : p.Valid sizes) (ha : Located sizes a segment ty) :
    p.isLive a = (p.supply segment ty).isLive a := by
  rw [isLive, hp.layout, ha, Layout.range_ofSizes]

/-- A live address belongs to some run. -/
theorem Valid.located (hp : p.Valid sizes) (h : p.isLive a = true) :
    ∃ segment ty, Located sizes a segment ty := by
  rw [isLive, hp.layout] at h
  cases hlocate : (Layout.ofSizes sizes).locate a with
  | none =>
    rw [hlocate] at h
    cases h
  | some r =>
    exact ⟨r.segment, r.ty, hlocate.trans (congrArg some (Layout.locate_eq_some hlocate).1)⟩

/-- A live address lies below the peak of its run. -/
theorem Valid.offset_lt_peak (hp : p.Valid sizes) (ha : Located sizes a segment ty)
    (h : p.isLive a = true) :
    ((Layout.ofSizes sizes).range segment ty).offset a < p.peak segment ty := by
  rw [hp.isLive_located ha] at h
  rw [← hp.range_supply]
  exact ((hp.supplies segment ty).lt_peak h).2

/-- What handing out one address of a run does. -/
structure Takes (sizes : Sizes) (p : Pool) (segment : Segment) (ty : Scalar) (a : Nat) (p' : Pool) :
    Prop where
  valid : p'.Valid sizes
  layout : p'.layout = p.layout
  located : Located sizes a segment ty
  fresh : p.isLive a = false
  live : ∀ b, p'.isLive b = true ↔ p.isLive b = true ∨ b = a
  peak : ∀ segment ty, p.peak segment ty ≤ p'.peak segment ty

theorem Takes.isLive (h : Takes sizes p segment ty a p') : p'.isLive a = true :=
  (h.live a).mpr (Or.inr rfl)

/-- What taking one address back does. -/
structure Gives (sizes : Sizes) (p : Pool) (a : Nat) (p' : Pool) : Prop where
  valid : p'.Valid sizes
  layout : p'.layout = p.layout
  wasLive : p.isLive a = true
  live : ∀ b, p'.isLive b = true ↔ p.isLive b = true ∧ b ≠ a
  peak : ∀ segment ty, p.peak segment ty ≤ p'.peak segment ty

theorem Valid.setSupply (hp : p.Valid sizes) (hs : s.Valid)
    (hrange : s.range = (p.supply segment ty).range) : (p.setSupply segment ty s).Valid sizes := by
  refine ⟨hp.layout, ?_, ?_⟩
  · intro segment' ty'
    by_cases h : (segment', ty') = (segment, ty)
    · cases h
      rw [supply_setSupply_self]
      exact hs
    · rw [supply_setSupply_of_ne p s h]
      exact hp.supplies segment' ty'
  · intro segment' ty'
    by_cases h : (segment', ty') = (segment, ty)
    · cases h
      rw [supply_setSupply_self, hrange]
      exact hp.ranges segment ty
    · rw [supply_setSupply_of_ne p s h]
      exact hp.ranges segment' ty'

theorem peak_setSupply_le (hpeak : (p.supply segment ty).peak ≤ s.peak) (segment' : Segment)
    (ty' : Scalar) : p.peak segment' ty' ≤ (p.setSupply segment ty s).peak segment' ty' := by
  unfold peak
  by_cases h : (segment', ty') = (segment, ty)
  · cases h
    rw [supply_setSupply_self]
    exact hpeak
  · rw [supply_setSupply_of_ne p s h]

/-- A change of one supply is seen in its own run. -/
theorem isLive_setSupply_self (hp : p.Valid sizes) (s : Supply) (ha : Located sizes a segment ty) :
    (p.setSupply segment ty s).isLive a = s.isLive a := by
  rw [isLive, show (p.setSupply segment ty s).layout = _ from hp.layout, ha, Layout.range_ofSizes]
  exact congrArg (·.isLive a) (supply_setSupply_self p segment ty s)

/-- It is seen nowhere else. -/
theorem isLive_setSupply_of_ne (hp : p.Valid sizes) (s : Supply)
    (ha : ¬ Located sizes a segment ty) : (p.setSupply segment ty s).isLive a = p.isLive a := by
  rw [isLive, isLive, show (p.setSupply segment ty s).layout = p.layout from rfl, hp.layout]
  cases hlocate : (Layout.ofSizes sizes).locate a with
  | none => rfl
  | some r =>
    have hne : (r.segment, r.ty) ≠ (segment, ty) := by
      intro h
      cases h
      exact ha (hlocate.trans (congrArg some (Layout.locate_eq_some hlocate).1))
    exact congrArg (·.isLive a) (supply_setSupply_of_ne p s hne)

theorem Valid.allocate (hp : p.Valid sizes) (h : p.allocate ty segment = .ok (a, p')) :
    Takes sizes p segment ty a p' := by
  unfold Pool.allocate at h
  split at h
  · rename_i s htake
    cases h
    have htakes := (hp.supplies segment ty).take htake
    have hlocated : Located sizes a segment ty := by
      obtain ⟨hcontains, -⟩ := htakes.valid.lt_peak ((htakes.live a).mpr (Or.inr rfl))
      rw [htakes.range, hp.range_supply] at hcontains
      exact Layout.locate_eq_of_contains hcontains
    refine ⟨hp.setSupply htakes.valid htakes.range, rfl, hlocated, ?_, ?_,
      peak_setSupply_le htakes.peak⟩
    · rw [hp.isLive_located hlocated]
      exact htakes.fresh
    · intro b
      by_cases hb : Located sizes b segment ty
      · rw [isLive_setSupply_self hp s hb, htakes.live, hp.isLive_located hb]
      · rw [isLive_setSupply_of_ne hp s hb]
        refine (or_iff_left ?_).symm
        rintro rfl
        exact hb hlocated
  · cases h

theorem Valid.release (hp : p.Valid sizes) (h : p.release a = .ok p') : Gives sizes p a p' := by
  unfold Pool.release at h
  split at h
  · cases h
  rename_i r hlocate
  split at h
  · rename_i s hgive
    cases h
    rw [hp.layout] at hlocate
    obtain ⟨hrange, hcontains⟩ := Layout.locate_eq_some hlocate
    have hlocated : Located sizes a r.segment r.ty := hlocate.trans (congrArg some hrange)
    have hstart : (p.supply r.segment r.ty).range.start ≤ a := by
      rw [hp.range_supply, ← hrange]
      exact ((Layout.contains_iff r a).mp hcontains).1
    have hgives := (hp.supplies r.segment r.ty).give hstart hgive
    refine ⟨hp.setSupply hgives.valid hgives.range, rfl, ?_, ?_,
      peak_setSupply_le (Nat.le_of_eq hgives.peak.symm)⟩
    · rw [hp.isLive_located hlocated]
      exact hgives.wasLive
    · intro b
      by_cases hb : Located sizes b r.segment r.ty
      · rw [isLive_setSupply_self hp s hb, hgives.live, hp.isLive_located hb]
      · rw [isLive_setSupply_of_ne hp s hb]
        refine (and_iff_left ?_).symm
        rintro rfl
        exact hb hlocated
  · cases h

/-- What handing out a block of a run does: only addresses of that run become live. -/
structure TakesBlock (sizes : Sizes) (p : Pool) (segment : Segment) (ty : Scalar) (a : Nat)
    (p' : Pool) : Prop where
  valid : p'.Valid sizes
  layout : p'.layout = p.layout
  located : Located sizes a segment ty
  live : ∀ b, ¬ Located sizes b segment ty → p'.isLive b = p.isLive b
  room : ((Layout.ofSizes sizes).range segment ty).offset a < p'.peak segment ty
  peak : ∀ segment ty, p.peak segment ty ≤ p'.peak segment ty

theorem Valid.allocateBlock (hp : p.Valid sizes)
    (h : p.allocateBlock ty segment len = .ok (a, p')) : TakesBlock sizes p segment ty a p' := by
  unfold Pool.allocateBlock at h
  split at h
  · rename_i s htake
    cases h
    obtain ⟨ha, hvalid, hrange, hpeak, hinside, hroom⟩ :=
      (hp.supplies segment ty).takeFresh (by omega) htake
    rw [hp.range_supply] at hinside hroom
    refine ⟨hp.setSupply hvalid hrange, rfl, Layout.locate_eq_of_contains hinside,
      fun b hb => isLive_setSupply_of_ne hp s hb, ?_, peak_setSupply_le hpeak⟩
    rw [peak, supply_setSupply_self]
    exact hroom
  · cases h

/-- Taking back a whole segment leaves the others alone. -/
theorem supply_releaseSegment_of_ne (p : Pool) (ty : Scalar) (h : segment' ≠ segment) :
    (p.releaseSegment segment).supply segment' ty = p.supply segment' ty := by
  simp [supply, releaseSegment, PerSegment.get_set_of_ne _ _ h]

theorem supply_releaseSegment_self (p : Pool) (segment : Segment) (ty : Scalar) :
    (p.releaseSegment segment).supply segment ty =
    { (p.supply segment ty).rewind with peak := 0 } := by
  simp [supply, releaseSegment]

theorem Valid.releaseSegment (hp : p.Valid sizes) (segment : Segment) :
    (p.releaseSegment segment).Valid sizes := by
  refine ⟨hp.layout, ?_, ?_⟩
  · intro segment' ty
    by_cases h : segment' = segment
    · subst h
      rw [supply_releaseSegment_self]
      exact Supply.valid_rewound _
    · rw [supply_releaseSegment_of_ne p ty h]
      exact hp.supplies segment' ty
  · intro segment' ty
    by_cases h : segment' = segment
    · subst h
      rw [supply_releaseSegment_self]
      exact hp.ranges segment' ty
    · rw [supply_releaseSegment_of_ne p ty h]
      exact hp.ranges segment' ty

theorem peak_releaseSegment_of_ne (p : Pool) (ty : Scalar) (h : segment' ≠ segment) :
    (p.releaseSegment segment).peak segment' ty = p.peak segment' ty := by
  unfold peak
  rw [supply_releaseSegment_of_ne p ty h]

/-- Nothing in a segment is live when all of it was taken back. -/
theorem isLive_releaseSegment (hp : p.Valid sizes) (h : Located sizes a segment ty) :
    (p.releaseSegment segment).isLive a = false := by
  rw [(hp.releaseSegment segment).isLive_located h, supply_releaseSegment_self]
  exact (p.supply segment ty).isLive_rewind a

end Pool

end Quadruple
