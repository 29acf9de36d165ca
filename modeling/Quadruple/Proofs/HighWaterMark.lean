/-
  What the peak of a supply says about its history.

  A supply raises its peak when it hands out fresh addresses, keeps it when it rewinds, and forgets
  it with its segment.  So the peak is how far into the run any address reached that was handed out
  since then (`Reached`).  Fresh addresses are handed out one at a time only when none is waiting,
  that is, when all the lower ones are out; without blocks the peak is therefore also the largest
  number of addresses that were out at the same time (`Loads`):

      peak  =  max {offset a + 1 | a was handed out}  =  max {number out after h' | h' ≤ h}

  Both go request by request (`Answers.reached`, `Answers.loads`): a request that leaves the peak
  alone hands out nothing beyond it, and one that raises it reaches what it is raised to.
-/
import Mathlib.Data.Set.Card
import Quadruple.Proofs.OldestFirst

namespace Quadruple.Pool

variable {l : Layout} {sizes : Sizes} {segment : Segment} {ty : Scalar} {h : List Outcome}
    {o : Outcome}
variable {s : Supply}

/-! ## How far a history reaches -/

/-- The address was handed out, and its segment was not taken back as a whole since then. -/
def HandedSince (segment : Segment) (history : List Outcome) (a : Nat) : Prop :=
  ∃ before o after, history = before ++ o :: after ∧ o.Hands a ∧ ∀ o' ∈ after, o' ≠ .cleared segment

/-- The places in a run, counted from one, of its addresses that were handed out since its segment
was last taken back; and zero, in case none was. -/
def Reached (l : Layout) (segment : Segment) (ty : Scalar) (history : List Outcome) : Set Nat :=
  insert 0 {n | ∃ a, (l.range segment ty).contains a = true ∧ HandedSince segment history a ∧
    n = (l.range segment ty).offset a + 1}

theorem not_handedSince_nil (segment : Segment) (a : Nat) : ¬ HandedSince segment [] a := by
  rintro ⟨before, o, after, h, -⟩
  exact List.append_ne_nil_of_right_ne_nil before (List.cons_ne_nil o after) h.symm

theorem handedSince_concat (segment : Segment) (history : List Outcome) (o : Outcome) (a : Nat) :
    HandedSince segment (history ++ [o]) a ↔ o.Hands a ∨ HandedSince segment history a ∧
    o ≠ .cleared segment :=
  since_concat

theorem reached_of_none (hnone : ∀ a, ¬ HandedSince segment h a) :
    IsGreatest (Reached l segment ty h) 0 := by
  refine ⟨Or.inl rfl, ?_⟩
  rintro n (rfl | ⟨a, -, ha, -⟩)
  · exact Nat.le_refl 0
  · exact (hnone a ha).elim

/-- The segment is not taken back, nothing is handed out beyond the new mark, and if that is above
the old one then it is reached. -/
theorem reached_concat {m m' : Nat} (hm : IsGreatest (Reached l segment ty h) m)
    (ho : o ≠ .cleared segment) (hle : m ≤ m')
    (hbeyond : ∀ a, (l.range segment ty).contains a = true → o.Hands a →
      (l.range segment ty).offset a + 1 ≤ m')
    (hreached : m' = m ∨ ∃ a, (l.range segment ty).contains a = true ∧ o.Hands a ∧
      m' = (l.range segment ty).offset a + 1)
    : IsGreatest (Reached l segment ty (h ++ [o])) m' := by
  refine ⟨?_, ?_⟩
  · rcases hreached with rfl | ⟨a, ha, hhands, rfl⟩
    · rcases hm.1 with hzero | ⟨a, ha, hhanded, heq⟩
      · exact Or.inl hzero
      · exact Or.inr ⟨a, ha, (handedSince_concat _ _ _ _).mpr (Or.inr ⟨hhanded, ho⟩), heq⟩
    · exact Or.inr ⟨a, ha, (handedSince_concat _ _ _ _).mpr (Or.inl hhands), rfl⟩
  · rintro n (rfl | ⟨a, ha, hhanded, rfl⟩)
    · exact Nat.zero_le _
    · rcases (handedSince_concat _ _ _ _).mp hhanded with hhands | ⟨hhanded, -⟩
      · exact hbeyond a ha hhands
      · exact Nat.le_trans (hm.2 (Or.inr ⟨a, ha, hhanded, rfl⟩)) hle

/-- One request: the peak stays the farthest place reached. -/
theorem Answers.reached {s' : Supply} {r : Request} (hs : s.Valid)
    (hrange : s.range = l.range segment ty) (hanswers : Answers l segment ty s r o s')
    (hpeak : IsGreatest (Reached l segment ty h) s.peak) :
    IsGreatest (Reached l segment ty (h ++ [o])) s'.peak := by
  have hstart := hs.start_le
  have hnext := hs.peak
  cases hanswers with
  | spares hspares =>
    exact reached_concat hpeak hspares.cleared (Nat.le_refl _) (fun a ha hhands =>
      (hspares.hands a ha hhands).elim)
      (Or.inl rfl)
  | @reuses a rest hfreed =>
    refine reached_concat hpeak nofun (Nat.le_refl _) ?_ (Or.inl rfl)
    rintro b hb ⟨hlo, hhi⟩
    have hinside := hs.freed_lt a (hfreed ▸ List.mem_cons_self)
    rw [← hrange]
    show b - s.range.start + 1 ≤ s.peak
    omega
  | @extend _ len hr hroom =>
    have hlen : 0 < len := by
      rcases hr with ⟨-, rfl, -⟩ | ⟨n, -, rfl⟩
      · exact Nat.one_pos
      · exact Nat.lt_of_lt_of_le Nat.one_pos (Nat.le_max_right n 1)
    refine reached_concat hpeak nofun (Nat.le_max_left _ _) ?_ ?_
    · rintro b hb ⟨hlo, hhi⟩
      rw [← hrange]
      show b - s.range.start + 1 ≤ max s.peak (s.next + len - s.range.start)
      omega
    · rw [← hrange]
      rcases Nat.le_total (s.next + len - s.range.start) s.peak with hbelow | habove
      · exact Or.inl (Nat.max_eq_left hbelow)
      · refine Or.inr ⟨s.next + len - 1, (Layout.contains_iff _ _).mpr ?_, ?_, ?_⟩
        · unfold Range.limit at hroom
          omega
        · show s.next ≤ s.next + len - 1 ∧ s.next + len - 1 < s.next + len
          omega
        · show max s.peak (s.next + len - s.range.start) = s.next + len - 1 - s.range.start + 1
          omega
  | queues | rewinds =>
    exact reached_concat hpeak nofun (Nat.le_refl _) (fun _ _ => False.elim) (Or.inl rfl)
  | clears =>
    refine reached_of_none fun a ha => ?_
    rcases (handedSince_concat _ _ _ _).mp ha with hhands | ⟨-, hkept⟩
    · exact hhands
    · exact hkept rfl

/-! ## How many addresses are out at the same time -/

/-- How many addresses of a run are out. -/
noncomputable def load (l : Layout) (segment : Segment) (ty : Scalar) (history : List Outcome) :
    Nat :=
  {a | (l.range segment ty).contains a = true ∧ Outstanding l history a}.ncard

/-- How many addresses of a run were out, at each moment since its segment was last taken back. -/
def Loads (l : Layout) (segment : Segment) (ty : Scalar) (history : List Outcome) : Set Nat :=
  {n | ∃ before after, history = before ++ after ∧ Outcome.cleared segment ∉ after ∧
    n = load l segment ty before}

theorem isGreatest_loads_nil : IsGreatest (Loads l segment ty []) 0 := by
  have hempty : {a | (l.range segment ty).contains a = true ∧ Outstanding l [] a} = ∅ :=
    Set.eq_empty_of_forall_notMem fun a ha => not_outstanding_nil l a ha.2
  have hload : load l segment ty [] = 0 := by
    rw [load, hempty, Set.ncard_empty]
  refine ⟨⟨[], [], rfl, List.not_mem_nil, hload.symm⟩, ?_⟩
  rintro n ⟨before, after, h, -, rfl⟩
  rw [(List.append_eq_nil_iff.mp h.symm).1]
  exact Nat.le_of_eq hload

/-- One more moment. -/
theorem loads_concat {n : Nat} : n ∈ Loads l segment ty (h ++ [o]) ↔
    n = load l segment ty (h ++ [o]) ∨ n ∈ Loads l segment ty h ∧ o ≠ .cleared segment := by
  constructor
  · rintro ⟨before, after, heq, hkept, rfl⟩
    rcases List.eq_nil_or_concat after with rfl | ⟨after, last, rfl⟩
    · rw [List.append_nil] at heq
      exact Or.inl (heq ▸ rfl)
    · rw [List.concat_eq_append, ← List.append_assoc] at heq
      obtain ⟨rfl, hlast⟩ := List.append_inj' heq rfl
      cases hlast
      rw [List.concat_eq_append, List.mem_append, not_or, List.mem_singleton] at hkept
      exact Or.inr ⟨⟨before, after, rfl, hkept.1, rfl⟩, Ne.symm hkept.2⟩
  · rintro (rfl | ⟨⟨before, after, rfl, hkept, rfl⟩, ho⟩)
    · exact ⟨h ++ [o], [], (List.append_nil _).symm, List.not_mem_nil, rfl⟩
    · refine ⟨before, after ++ [o], List.append_assoc _ _ _, ?_, rfl⟩
      rw [List.mem_append, not_or, List.mem_singleton]
      exact ⟨hkept, Ne.symm ho⟩

/-- The segment is not taken back, no more are out than the new mark says, and if that is above the
old one then so many are. -/
theorem isGreatest_loads_concat {m m' : Nat} (hm : IsGreatest (Loads l segment ty h) m)
    (ho : o ≠ .cleared segment) (hle : m ≤ m') (hload : load l segment ty (h ++ [o]) ≤ m')
    (hreached : m' = m ∨ m' = load l segment ty (h ++ [o])) :
    IsGreatest (Loads l segment ty (h ++ [o])) m' := by
  refine ⟨?_, fun n hn => ?_⟩
  · rcases hreached with rfl | rfl
    · exact loads_concat.mpr (Or.inr ⟨hm.1, ho⟩)
    · exact loads_concat.mpr (Or.inl rfl)
  · rcases loads_concat.mp hn with rfl | ⟨hn, -⟩
    · exact hload
    · exact Nat.le_trans (hm.2 hn) hle

/-- Only addresses below the lowest fresh one are out. -/
theorem load_le
    (hlive : ∀ a, (l.range segment ty).contains a = true → (Outstanding l h a ↔ s.isLive a = true))
    : load l segment ty h ≤ s.next - s.range.start := by
  have hsub : {a | (l.range segment ty).contains a = true ∧ Outstanding l h a} ⊆
      (Finset.Ico s.range.start s.next : Set Nat) := by
    rintro a ⟨ha, hout⟩
    obtain ⟨hlo, hhi, -⟩ := (Supply.isLive_iff s a).mp ((hlive a ha).mp hout)
    exact Finset.mem_coe.mpr (Finset.mem_Ico.mpr ⟨hlo, hhi⟩)
  have hcard := Set.ncard_le_ncard hsub (Finset.finite_toSet _)
  rwa [Set.ncard_coe_finset, Nat.card_Ico] at hcard

/-- All of them are when none is waiting. -/
theorem load_eq (hs : s.Valid) (hrange : s.range = l.range segment ty)
    (hlive : ∀ a, (l.range segment ty).contains a = true → (Outstanding l h a ↔ s.isLive a = true))
    (hfreed : s.freed = []) : load l segment ty h = s.next - s.range.start := by
  refine Nat.le_antisymm (load_le hlive) ?_
  have hsub : (Finset.Ico s.range.start s.next : Set Nat) ⊆
      {a | (l.range segment ty).contains a = true ∧ Outstanding l h a} := by
    intro a ha
    obtain ⟨hlo, hhi⟩ := Finset.mem_Ico.mp (Finset.mem_coe.mp ha)
    have hinside : (l.range segment ty).contains a = true := by
      rw [← hrange, Layout.contains_iff]
      exact ⟨hlo, Nat.lt_of_lt_of_le hhi hs.next_le⟩
    refine ⟨hinside, (hlive a hinside).mpr ((Supply.isLive_iff s a).mpr ⟨hlo, hhi, ?_⟩)⟩
    rw [hfreed]
    exact List.not_mem_nil
  have hfinite : {a | (l.range segment ty).contains a = true ∧ Outstanding l h a}.Finite := by
    refine (Finset.finite_toSet (Finset.range (l.range segment ty).limit)).subset fun a ha => ?_
    exact Finset.mem_coe.mpr (Finset.mem_range.mpr ((Layout.contains_iff _ a).mp ha.1).2)
  have hcard := Set.ncard_le_ncard hsub hfinite
  rwa [Set.ncard_coe_finset, Nat.card_Ico] at hcard

/-- One request other than for a block: the peak stays the largest number that were out at the same
time. -/
theorem Answers.loads {s' : Supply} {r : Request} (hs' : s'.Valid)
    (hrange : s'.range = l.range segment ty)
    (hlive : ∀ a, (l.range segment ty).contains a = true →
      (Outstanding l (h ++ [o]) a ↔ s'.isLive a = true))
    (hanswers : Answers l segment ty s r o s') (hblock : ∀ n, r ≠ .allocateBlock ty segment n)
    (hpeak : o ≠ .cleared segment → IsGreatest (Loads l segment ty h) s.peak) :
    IsGreatest (Loads l segment ty (h ++ [o])) s'.peak := by
  have hload : load l segment ty (h ++ [o]) ≤ s'.peak := Nat.le_trans (load_le hlive) hs'.peak
  -- as long as the peak stays, nothing is to be found that reaches it
  have hsame : o ≠ .cleared segment → s'.peak = s.peak →
      IsGreatest (Loads l segment ty (h ++ [o])) s'.peak :=
    fun ho heq => isGreatest_loads_concat (hpeak ho) ho (Nat.le_of_eq heq.symm) hload (Or.inl heq)
  cases hanswers with
  | spares hspares => exact hsame hspares.cleared rfl
  | reuses hfreed => exact hsame nofun rfl
  | extend hr hroom =>
    rcases hr with ⟨-, rfl, hfreed⟩ | ⟨n, rfl, -⟩
    · refine isGreatest_loads_concat (hpeak nofun) nofun (Nat.le_max_left _ _) hload ?_
      rw [load_eq hs' hrange hlive hfreed]
      exact (Nat.le_total (s.next + 1 - s.range.start) s.peak).imp Nat.max_eq_left Nat.max_eq_right
    · exact (hblock n rfl).elim
  | queues _ _ => exact hsame nofun rfl
  | rewinds _ _ => exact hsame nofun rfl
  | clears =>
    have hzero := Nat.le_zero.mp hload
    refine ⟨loads_concat.mpr (Or.inl hzero.symm), fun n hn => ?_⟩
    rcases loads_concat.mp hn with rfl | ⟨-, hkept⟩
    · exact hload
    · exact (hkept rfl).elim

/-! ## Whole histories -/

theorem reached_after (sizes : Sizes) (requests : List Request) (segment : Segment) (ty : Scalar) :
    let l := Layout.ofSizes sizes
    IsGreatest (Reached l segment ty ((ofLayout l).history requests))
      (((ofLayout l).after requests).supply segment ty).peak := by
  induction requests using List.reverseRecOn with
  | nil =>
    intro l
    rw [after.eq_def, supply_ofLayout]
    exact reached_of_none (not_handedSince_nil segment)
  | append_singleton requests r ih =>
    have hp := (valid_ofLayout sizes).after requests
    intro l
    rw [after_concat, history_concat]
    exact (hp.answers r).reached (hp.supplies segment ty) (hp.range_supply segment ty) ih

/-- The peak is the greatest load of the history. -/
theorem loads_after (sizes : Sizes) (requests : List Request) (segment : Segment) (ty : Scalar)
    (hblocks : ∀ earlier len later, requests = earlier ++ .allocateBlock ty segment len :: later →
      .releaseSegment segment ∈ later) :
    let l := Layout.ofSizes sizes
    IsGreatest (Loads l segment ty ((ofLayout l).history requests))
      (((ofLayout l).after requests).supply segment ty).peak := by
  induction requests using List.reverseRecOn with
  | nil =>
    intro l
    rw [after.eq_def, supply_ofLayout]
    exact isGreatest_loads_nil
  | append_singleton requests r ih =>
    have hp := (valid_ofLayout sizes).after requests
    have hp' := (hp.serve r).valid
    intro l
    have hlive : ∀ a, (l.range segment ty).contains a = true → _ :=
      fun a ha => outstanding_iff_supply sizes (requests ++ [r]) ha
    rw [after_concat, history_concat] at hlive ⊢
    refine (hp.answers r).loads (hp'.supplies segment ty) (hp'.range_supply segment ty) hlive ?_
      fun hkept => ih ?_
    · rintro n rfl
      exact List.not_mem_nil (hblocks requests n [] rfl)
    · intro earlier len later heq
      have hmem :=
        hblocks earlier len (later ++ [r]) (by rw [heq, List.append_assoc, List.cons_append])
      rcases List.mem_append.mp hmem with hmem | hlast
      · exact hmem
      · rw [← List.mem_singleton.mp hlast] at hkept
        exact (hkept rfl).elim

/-- After every history over sizes that a word can address, the peak of a supply is the farthest
place in its run that any address reached that was handed out since the segment was last taken back,
and a word.  A request whose end is no word hands out nothing and leaves the peak alone.  If no
block of the run was asked for since then, the peak is also the largest number of its addresses that
were out at the same time. -/
theorem peak_isGreatest (sizes : Sizes) (hsizes : sizes.Addressable) (requests : List Request)
    (segment : Segment) (ty : Scalar) :
    let l := Layout.ofSizes sizes
    let p := (ofLayout l).after requests
    let h := (ofLayout l).history requests
    IsGreatest (Reached l segment ty h) (p.peak segment ty) ∧ IsWord (p.peak segment ty) ∧
      (∀ len, ¬ IsWord ((p.supply segment ty).next + max len 1) →
        p.serve (.allocateBlock ty segment len) = (.refused .overflow, p)) ∧
      ((∀ earlier len later, requests = earlier ++ .allocateBlock ty segment len :: later →
          .releaseSegment segment ∈ later) →
        IsGreatest (Loads l segment ty h) (p.peak segment ty)) := by
  have hp := (valid_ofLayout sizes).after requests
  exact ⟨reached_after sizes requests segment ty, .of_le (hp.peak_le_heapStart segment ty) hsizes,
    fun _ => hp.serve_overflow, loads_after sizes requests segment ty⟩

/-- In runs of four addresses: a block, which goes with its segment; then two are taken and given
back, which rewinds, and one is taken once more. -/
def twoAtOnce : List Request :=
  [.allocateBlock .int .globals 4, .releaseSegment .globals, .allocate .int .globals,
    .allocate .int .globals, .release 0, .release 1, .allocate .int .globals]

theorem peak_isGreatest_twoAtOnce :
    let l := Layout.ofSizes (Sizes.uniform 4)
    let h := (ofLayout l).history twoAtOnce
    IsGreatest (Reached l .globals .int h) 2 ∧ IsGreatest (Loads l .globals .int h) 2 := by
  intro l h
  obtain ⟨hreached, -, -, hloads⟩ :=
    peak_isGreatest (Sizes.uniform 4) (by decide) twoAtOnce .globals .int
  have hpeak : ((ofLayout l).after twoAtOnce).peak .globals .int = 2 := by decide
  rw [hpeak] at hreached hloads
  refine ⟨hreached, hloads ?_⟩
  intro earlier len later heq
  cases earlier with
  | nil =>
    cases heq
    exact List.mem_cons_self
  | cons first earlier =>
    -- the only block is the first request
    have hmem : Request.allocateBlock .int .globals len ∈ twoAtOnce.tail := by
      rw [heq]
      exact List.mem_append_right _ List.mem_cons_self
    simp [twoAtOnce] at hmem

end Quadruple.Pool
