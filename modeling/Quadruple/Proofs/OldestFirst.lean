/-
  Which address a request gets, and which requests are refused.

  Whoever has followed the history of a pool can tell what the next request will get.  An address
  that was given back waits from then on, until it is handed out again or none of its run is out any
  more (`Waiting`).  A request for one address gets the one that has waited longest, and if none
  waits the lowest that is not out (`IsNext`); it is refused only when all of the run are out:

      next  =  argmin {i | a waits since the outcome i},  or  min {a | a is not out}  if none waits

  The queue of a supply holds the waiting addresses in the order in which they were given back
  (`Queued`).  What one request can do to one supply is said once (`Answers`), and by cases on it
  the queue follows the history (`queued_after`).
-/
import Quadruple.Compiler.Generator
import Quadruple.Proofs.Effect
import Quadruple.Proofs.LiveAddresses

namespace Quadruple

variable {a : Nat} {s : Supply} {h : List Pool.Outcome} {rest : List Nat}

/-! ## Supplies -/

namespace Supply

variable {s : Supply} {a : Nat}

theorem Valid.contains_of_mem (hs : s.Valid) (h : a ∈ s.freed) : s.range.contains a = true := by
  have hinside := hs.freed_lt a h
  exact (Layout.contains_iff _ a).mpr ⟨hinside.1, Nat.lt_of_lt_of_le hinside.2 hs.next_le⟩

/-- An address waits in the queue only while another of its run is out. -/
theorem Valid.exists_live_of_mem (hs : s.Valid) (h : a ∈ s.freed) : ∃ b, s.isLive b = true := by
  have hinside := hs.freed_lt a h
  exact hs.exists_live (by omega)

theorem Valid.give?_eq_none_iff (hs : s.Valid) (hstart : s.range.start ≤ a) :
    s.give? a = none ↔ s.isLive a = false := by
  have hlive : s.isLive a = true ↔ ¬ (s.next ≤ a ∨ a ∈ s.freed) := by
    rw [isLive_iff, not_or, Nat.not_le]
    exact and_iff_right hstart
  have hheld : (decide (s.next ≤ a) || s.idle.contains a) = true ↔ s.isLive a = false := by
    rw [Bool.or_eq_true, decide_eq_true_eq, List.contains_iff_mem, hs.mem_idle, ← Bool.not_eq_true,
      hlive, Classical.not_not]
  unfold give?
  split
  · rename_i h
    exact iff_of_true rfl (hheld.mp h)
  · rename_i h
    refine iff_of_false ?_ (mt hheld.mpr h)
    dsimp only
    split
    · exact nofun
    · exact nofun

end Supply

namespace Pool

variable {l : Layout} {sizes : Sizes} {p p' : Pool} {segment : Segment} {ty : Scalar}

/-! ## One request and one supply -/

/-- What came of the request has nothing to do with the run of the segment and the type. -/
structure Outcome.Spares (l : Layout) (segment : Segment) (ty : Scalar) (o : Outcome) : Prop where
  hands : ∀ a, (l.range segment ty).contains a = true → ¬ o.Hands a
  takesBack : ∀ a, (l.range segment ty).contains a = true → ¬ o.TakesBack l a
  cleared : o ≠ .cleared segment

/-- What a request can do to the supply of a run, and what then comes of it. -/
inductive Answers (l : Layout) (segment : Segment) (ty : Scalar) (s : Supply) : Request → Outcome →
    Supply → Prop
  /-- The request is refused, or is about other runs. -/
  | spares {r : Request} {o : Outcome} (h : o.Spares l segment ty) : Answers l segment ty s r o s
  /-- The address in front of the queue is handed out again. -/
  | reuses {a : Nat} {rest : List Nat} (hfreed : s.freed = a :: rest) :
      Answers l segment ty s (.allocate ty segment) (.handed a 1)
        { s with freed := rest, idle := s.idle.erase a }
  /-- Fresh addresses are handed out, one only when nothing is in the queue. -/
  | extend {r : Request} {len : Nat}
      (hr : r = .allocate ty segment ∧ len = 1 ∧ s.freed = [] ∨
        ∃ n, r = .allocateBlock ty segment n ∧ len = max n 1)
      (hroom : s.next + len ≤ s.range.limit) :
      Answers l segment ty s r (.handed s.next len)
        { s with next := s.next + len, peak := max s.peak (s.next + len - s.range.start) }
  /-- An address is given back while others are out. -/
  | queues {a : Nat} (hlive : s.isLive a = true) (hother : ∃ b, b ≠ a ∧ s.isLive b = true) :
      Answers l segment ty s (.release a) (.tookBack a) { s with
        freed := s.freed ++ [a], idle := s.idle.insert a }
  /-- The last address that is out is given back. -/
  | rewinds {a : Nat} (hlive : s.isLive a = true) (halone : ∀ b, s.isLive b = true → b = a) :
      Answers l segment ty s (.release a) (.tookBack a) s.rewind
  | clears : Answers l segment ty s (.releaseSegment segment) (.cleared segment)
      { s.rewind with peak := 0 }

theorem Outcome.spares_refused (l : Layout) (segment : Segment) (ty : Scalar) (e : PoolError) :
    (Outcome.refused e).Spares l segment ty := ⟨fun _ _ => id, fun _ _ => id, nofun⟩

/-- Addresses of another run. -/
theorem Outcome.spares_handed {segment' : Segment} {ty' : Scalar} {first count : Nat}
    (hne : (segment, ty) ≠ (segment', ty'))
    (hinside : ∀ a, first ≤ a → a < first + count →
      ((Layout.ofSizes sizes).range segment' ty').contains a = true)
    : (Outcome.handed first count).Spares (Layout.ofSizes sizes) segment ty := by
  refine ⟨?_, fun _ _ => id, nofun⟩
  rintro a ha ⟨hlo, hhi⟩
  exact hne (Layout.place_eq_of_contains ha (hinside a hlo hhi))

theorem Outcome.spares_tookBack (ha : ¬ (l.range segment ty).contains a = true) :
    (Outcome.tookBack a).Spares l segment ty := by
  refine ⟨fun _ _ => id, ?_, nofun⟩
  rintro b hb rfl
  exact ha hb

/-- A block lies in its run. -/
theorem Valid.contains_of_takeFresh (hp : p.Valid sizes) {len : Nat}
    (h : (p.supply segment ty).takeFresh len = .ok (a, s)) {b : Nat} (hlo : a ≤ b)
    (hhi : b < a + len) : ((Layout.ofSizes sizes).range segment ty).contains b = true := by
  obtain ⟨⟨-, hroom⟩, rfl, -⟩ := Supply.takeFresh_eq_ok_iff.mp h
  have hstart := (hp.supplies segment ty).start_le
  rw [hp.range_supply] at hroom hstart
  rw [Layout.contains_iff]
  exact ⟨Nat.le_trans hstart hlo, Nat.lt_of_lt_of_le hhi hroom⟩

theorem Valid.answers_allocate (hp : p.Valid sizes) (ty' : Scalar) (segment' : Segment) :
    Answers (Layout.ofSizes sizes) segment ty (p.supply segment ty) (.allocate ty' segment')
      (p.serve (.allocate ty' segment')).1
      ((p.serve (.allocate ty' segment')).2.supply segment ty) := by
  rw [Pool.serve]
  cases h : p.allocate ty' segment' with
  | error e => exact .spares (Outcome.spares_refused _ _ _ e)
  | ok result =>
    obtain ⟨a, p'⟩ := result
    dsimp only
    have htakes := hp.allocate h
    by_cases hsame : (segment, ty) = (segment', ty')
    · cases hsame
      unfold Pool.allocate at h
      split at h
      · rename_i s htake
        cases h
        rw [supply_setSupply_self]
        unfold Supply.take at htake
        split at htake
        · rename_i rest hfreed
          cases htake
          exact .reuses hfreed
        · rename_i hfreed
          obtain ⟨⟨-, hroom⟩, rfl, rfl⟩ := Supply.takeFresh_eq_ok_iff.mp htake
          exact .extend (Or.inl ⟨rfl, rfl, hfreed⟩) hroom
      · cases h
    · have hsupply := hp.supply_serve (r := .allocate ty' segment') hsame
      rw [Pool.serve, h] at hsupply
      rw [hsupply]
      refine .spares (Outcome.spares_handed hsame fun b hlo hhi => ?_)
      have hb : b = a := by omega
      rw [hb]
      exact (Layout.locate_eq_some htakes.located).2

theorem Valid.answers_allocateBlock (hp : p.Valid sizes) (ty' : Scalar) (segment' : Segment)
    (len : Nat) :
    Answers (Layout.ofSizes sizes) segment ty (p.supply segment ty)
      (.allocateBlock ty' segment' len)
      (p.serve (.allocateBlock ty' segment' len)).1
      ((p.serve (.allocateBlock ty' segment' len)).2.supply segment ty) := by
  rw [Pool.serve]
  unfold Pool.allocateBlock
  cases htake : (p.supply segment' ty').takeFresh (max len 1) with
  | error shortage => exact .spares (Outcome.spares_refused _ _ _ _)
  | ok taken =>
    obtain ⟨a, s⟩ := taken
    dsimp only
    by_cases hsame : (segment, ty) = (segment', ty')
    · cases hsame
      rw [supply_setSupply_self]
      obtain ⟨⟨-, hroom⟩, rfl, rfl⟩ := Supply.takeFresh_eq_ok_iff.mp htake
      exact .extend (Or.inr ⟨len, rfl, rfl⟩) hroom
    · rw [supply_setSupply_of_ne p s hsame]
      exact .spares (Outcome.spares_handed hsame fun b hlo hhi =>
        hp.contains_of_takeFresh htake hlo hhi)

/-- What giving back an address does to its own supply. -/
theorem answers_give {s' : Supply} (hs : s.Valid) (hstart : s.range.start ≤ a)
    (h : s.give? a = some s') : Answers l segment ty s (.release a) (.tookBack a) s' := by
  have hgives := hs.give hstart h
  have hinside := (Supply.isLive_iff s a).mp hgives.wasLive
  unfold Supply.give? at h
  split at h
  · cases h
  dsimp only at h
  split at h
  · cases h
    refine .rewinds hgives.wasLive fun b hb => ?_
    by_contra hne
    have hleft := (Supply.isLive_iff _ b).mp ((hgives.live b).mpr ⟨hb, hne⟩)
    exact Nat.not_lt_of_le hleft.1 hleft.2.1
  · cases h
    refine .queues hgives.wasLive ?_
    obtain ⟨b, hb⟩ := hgives.valid.exists_live (show s.range.start < s.next by omega)
    obtain ⟨hb, hne⟩ := (hgives.live b).mp hb
    exact ⟨b, hne, hb⟩

theorem Valid.answers_release (hp : p.Valid sizes) (a : Nat) :
    Answers (Layout.ofSizes sizes) segment ty (p.supply segment ty) (.release a)
      (p.serve (.release a)).1
      ((p.serve (.release a)).2.supply segment ty) := by
  by_cases hown : (Layout.ofSizes sizes).locate a = some ((Layout.ofSizes sizes).range segment ty)
  · have hstart : (p.supply segment ty).range.start ≤ a := by
      rw [hp.range_supply]
      exact ((Layout.contains_iff _ a).mp (Layout.locate_eq_some hown).2).1
    rw [Pool.serve, Pool.release, hp.layout, hown]
    simp only [Layout.range_ofSizes]
    cases hgive : (p.supply segment ty).give? a with
    | none => exact .spares (Outcome.spares_refused _ _ _ _)
    | some s =>
      rw [supply_setSupply_self]
      exact answers_give (hp.supplies segment ty) hstart hgive
  · rw [hp.supply_serve (r := .release a) hown, Pool.serve]
    cases p.release a with
    | error e => exact .spares (Outcome.spares_refused _ _ _ e)
    | ok p' =>
      exact .spares (Outcome.spares_tookBack fun ha => hown (Layout.locate_eq_of_contains ha))

theorem Valid.answers (hp : p.Valid sizes) (r : Request) :
    Answers (Layout.ofSizes sizes) segment ty (p.supply segment ty) r (p.serve r).1
      ((p.serve r).2.supply segment ty) := by
  cases r with
  | allocate ty' segment' => exact hp.answers_allocate ty' segment'
  | allocateBlock ty' segment' len => exact hp.answers_allocateBlock ty' segment' len
  | release a => exact hp.answers_release a
  | releaseSegment segment' =>
    rw [Pool.serve]
    by_cases hsame : segment = segment'
    · subst hsame
      rw [supply_releaseSegment_self]
      exact .clears
    · rw [supply_releaseSegment_of_ne p ty hsame]
      refine .spares ⟨fun _ _ => id, ?_, ?_⟩
      · intro b hb hcleared
        have hlocated : Located sizes b segment ty := Layout.locate_eq_of_contains hb
        exact hsame (Option.some.inj (hlocated.segmentOf.symm.trans hcleared))
      · rintro ⟨⟩
        exact hsame rfl

/-! ## Histories, from their ends -/

/-- The last of several requests, split off. -/
theorem after_concat (p : Pool) (requests : List Request) (r : Request) :
    p.after (requests ++ [r]) = ((p.after requests).serve r).2 := by
  induction requests generalizing p with
  | nil => rfl
  | cons first rest ih => exact ih _

theorem history_concat (p : Pool) (requests : List Request) (r : Request) :
    p.history (requests ++ [r]) = p.history requests ++ [((p.after requests).serve r).1] := by
  induction requests generalizing p with
  | nil => rfl
  | cons first rest ih => exact congrArg _ (ih _)

/-- An address is live in the pool exactly when the history says that it is out. -/
theorem isLive_after_iff (sizes : Sizes) (requests : List Request) (a : Nat) :
    ((ofLayout (Layout.ofSizes sizes)).after requests).isLive a = true ↔
      Outstanding (Layout.ofSizes sizes) ((ofLayout (Layout.ofSizes sizes)).history requests)
        a := by
  have hstart : ∀ a, (ofLayout (Layout.ofSizes sizes)).isLive a = true ↔
      Outstanding (Layout.ofSizes sizes) [] a := by
    intro a
    rw [isLive_ofLayout]
    exact iff_of_false Bool.false_ne_true (not_outstanding_nil _ a)
  exact (valid_ofLayout sizes).live_after hstart requests a

theorem outstanding_iff_supply (sizes : Sizes) (requests : List Request)
    (ha : ((Layout.ofSizes sizes).range segment ty).contains a = true) :
    Outstanding (Layout.ofSizes sizes) ((ofLayout (Layout.ofSizes sizes)).history requests) a ↔
      (((ofLayout (Layout.ofSizes sizes)).after requests).supply segment ty).isLive a = true := by
  have hp := (valid_ofLayout sizes).after requests
  rw [← isLive_after_iff, hp.isLive_located (Layout.locate_eq_of_contains ha)]

/-! ## Waiting addresses -/

/-- The address was given back as outcome number `i` of the history; at no time since then was it
out, and at every time some other address of its run was. -/
structure Waiting (l : Layout) (r : Range) (history : List Outcome) (i a : Nat) : Prop where
  inside : r.contains a = true
  given : history[i]? = some (.tookBack a)
  since : ∀ n, i < n → n ≤ history.length → ¬ Outstanding l (history.take n) a ∧
    ∃ b, r.contains b = true ∧ Outstanding l (history.take n) b

/-- The waiting addresses of a run, in the order in which they were given back. -/
def Queued (l : Layout) (r : Range) (history : List Outcome) (queue : List Nat) : Prop :=
  ∃ entries : List (Nat × Nat), entries.map (·.2) = queue ∧
    entries.Pairwise (fun x y => x.1 < y.1) ∧
    ∀ i a, (i, a) ∈ entries ↔ Waiting l r history i a

section

variable {r : Range} {h : List Outcome} {o : Outcome} {i a : Nat} {queue : List Nat}

theorem Waiting.lt_length (hw : Waiting l r h i a) :
    i < h.length := (List.getElem?_eq_some_iff.mp hw.given).1

/-- An address waits on after one more request unless that handed it out or left none of its run
out. -/
theorem waiting_concat : Waiting l r (h ++ [o]) i a ↔
    (Waiting l r h i a ∨ i = h.length ∧ o = .tookBack a ∧ r.contains a = true) ∧
      ¬ Outstanding l (h ++ [o]) a ∧ ∃ b, r.contains b = true ∧ Outstanding l (h ++ [o]) b := by
  have hlength : (h ++ [o]).length = h.length + 1 := List.length_append
  have hold : ∀ n, n ≤ h.length → (h ++ [o]).take n = h.take n :=
    fun n hn => List.take_append_of_le_length hn
  have hwhole : (h ++ [o]).take (h.length + 1) = h ++ [o] :=
    List.take_of_length_le (Nat.le_of_eq hlength)
  constructor
  · intro hw
    have hi := hw.lt_length
    have hnow := hw.since (h.length + 1) (by omega) (Nat.le_of_eq hlength.symm)
    rw [hwhole] at hnow
    refine ⟨?_, hnow⟩
    have hgiven := hw.given
    rcases Nat.lt_or_ge i h.length with hlt | hge
    · rw [List.getElem?_append_left hlt] at hgiven
      refine Or.inl ⟨hw.inside, hgiven, fun n hin hn => ?_⟩
      have hthen := hw.since n hin (by omega)
      rwa [hold n hn] at hthen
    · have heq : i = h.length := by omega
      rw [heq, List.getElem?_concat_length] at hgiven
      exact Or.inr ⟨heq, Option.some.inj hgiven, hw.inside⟩
  · rintro ⟨hw | ⟨rfl, rfl, ha⟩, hnow⟩
    · have hi := hw.lt_length
      refine ⟨hw.inside, ?_, fun n hin hn => ?_⟩
      · rw [List.getElem?_append_left hi]
        exact hw.given
      · rcases Nat.lt_or_ge h.length n with hlast | hearlier
        · have hn : n = h.length + 1 := by omega
          rw [hn, hwhole]
          exact hnow
        · rw [hold n hearlier]
          exact hw.since n hin hearlier
    · refine ⟨ha, List.getElem?_concat_length, fun n hin hn => ?_⟩
      have hn : n = h.length + 1 := by omega
      rw [hn, hwhole]
      exact hnow

/-- Nothing waits when nothing is out. -/
theorem queued_nil (hnone : ∀ b, r.contains b = true → ¬ Outstanding l h b) : Queued l r h [] := by
  refine ⟨[], rfl, .nil, fun i a => iff_of_false List.not_mem_nil fun hw => ?_⟩
  obtain ⟨-, b, hb, hout⟩ := hw.since h.length hw.lt_length (Nat.le_refl _)
  rw [List.take_length] at hout
  exact hnone b hb hout

/-- A request that takes back no address of the run may hand out addresses from the front of the
queue. -/
theorem Queued.advance (gone : List Nat) (hq : Queued l r h (gone ++ rest))
    (ho : ∀ a, r.contains a = true → o ≠ .tookBack a)
    (hgone : ∀ b ∈ gone, Outstanding l (h ++ [o]) b)
    (hrest : ∀ b ∈ rest, ¬ Outstanding l (h ++ [o]) b ∧ ∃ c,
      r.contains c = true ∧ Outstanding l (h ++ [o]) c)
    : Queued l r (h ++ [o]) rest := by
  obtain ⟨entries, hmap, hordered, hmem⟩ := hq
  obtain ⟨first, later, rfl, rfl, rfl⟩ := List.map_eq_append_iff.mp hmap
  refine ⟨later, rfl, (List.pairwise_append.mp hordered).2.1, fun i a => ?_⟩
  have hnew : ¬ (i = h.length ∧ o = .tookBack a ∧ r.contains a = true) :=
    fun hgiven => ho a hgiven.2.2 hgiven.2.1
  rw [waiting_concat, or_iff_left hnew, ← hmem, List.mem_append]
  constructor
  · intro hlater
    exact ⟨Or.inr hlater, hrest a (List.mem_map_of_mem hlater)⟩
  · rintro ⟨hfirst | hlater, hnot, -⟩
    · exact (hnot (hgone a (List.mem_map_of_mem hfirst))).elim
    · exact hlater

/-- An address that is given back goes to the end of the queue. -/
theorem Queued.enqueue (hq : Queued l r h queue) (ha : r.contains a = true)
    (hrest : ∀ b ∈ queue ++ [a], ¬ Outstanding l (h ++ [.tookBack a]) b)
    (hsome : ∃ c, r.contains c = true ∧ Outstanding l (h ++ [.tookBack a]) c) :
    Queued l r (h ++ [.tookBack a]) (queue ++ [a]) := by
  obtain ⟨entries, rfl, hordered, hmem⟩ := hq
  refine ⟨entries ++ [(h.length, a)], by rw [List.map_append]; rfl, ?_, fun i b => ?_⟩
  · refine List.pairwise_append.mpr ⟨hordered, List.pairwise_singleton _ _, fun x hx y hy => ?_⟩
    rw [List.mem_singleton.mp hy]
    exact ((hmem x.1 x.2).mp hx).lt_length
  · rw [waiting_concat, List.mem_append, hmem, List.mem_singleton, Prod.mk.injEq]
    constructor
    · rintro (hw | ⟨rfl, rfl⟩)
      · exact ⟨Or.inl hw,
          hrest b (List.mem_append_left _ (List.mem_map_of_mem ((hmem i b).mpr hw))), hsome⟩
      · exact ⟨Or.inr ⟨rfl, rfl, ha⟩, hrest b (List.mem_append_right _ (List.mem_singleton_self b)),
          hsome⟩
    · rintro ⟨hw | ⟨rfl, hgiven, -⟩, -⟩
      · exact Or.inl hw
      · cases hgiven
        exact Or.inr ⟨rfl, rfl⟩

end

/-- One request: the queue of a supply follows what came of it. -/
theorem Answers.queued {s' : Supply} {r : Request} {o : Outcome} (hs : s.Valid) (hs' : s'.Valid)
    (hrange : s.range = l.range segment ty)
    (hlive : ∀ a, (l.range segment ty).contains a = true →
      (Outstanding l (h ++ [o]) a ↔ s'.isLive a = true))
    (hanswers : Answers l segment ty s r o s') (hq : Queued l (l.range segment ty) h s.freed) :
    Queued l (l.range segment ty) (h ++ [o]) s'.freed := by
  rw [← hrange] at hlive hq ⊢
  -- what is in the queue afterwards is not out, and something else is
  have hrest : ∀ b ∈ s'.freed, s'.range = s.range → ¬ Outstanding l (h ++ [o]) b ∧
      ∃ c, s.range.contains c = true ∧ Outstanding l (h ++ [o]) c := by
    intro b hb hsame
    obtain ⟨c, hc⟩ := hs'.exists_live_of_mem hb
    have hcontains : s.range.contains c = true := hsame ▸ (hs'.lt_peak hc).1
    refine ⟨fun hout => ?_, c, hcontains, (hlive c hcontains).mpr hc⟩
    have hb' : s.range.contains b = true := hsame ▸ hs'.contains_of_mem hb
    exact ((Supply.isLive_iff s' b).mp ((hlive b hb').mp hout)).2.2 hb
  -- a supply that was rewound has nothing out
  have hrewound : (∀ a, s'.isLive a = false) → Queued l s.range (h ++ [o]) [] := by
    intro hnone
    refine queued_nil fun b hb hout => ?_
    rw [hlive b hb, hnone b] at hout
    cases hout
  cases hanswers with
  | spares hspares =>
    rw [hrange] at hq hrest ⊢
    refine Queued.advance [] hq ?_ (List.forall_mem_nil _) fun b hb => hrest b hb rfl
    rintro a ha rfl
    exact hspares.takesBack a ha rfl
  | @reuses a rest hfreed =>
    have hmem : a ∈ s.freed := hfreed ▸ List.mem_cons_self
    rw [hfreed] at hq
    refine Queued.advance [a] hq nofun ?_ fun b hb => hrest b hb rfl
    intro b hb
    rw [List.mem_singleton.mp hb]
    have hinside := hs.freed_lt a hmem
    refine (hlive a (hs.contains_of_mem hmem)).mpr
      ((Supply.isLive_iff _ a).mpr ⟨hinside.1, hinside.2, ?_⟩)
    have hnodup := hs.nodup
    rw [hfreed] at hnodup
    exact (List.nodup_cons.mp hnodup).1
  | extend _ _ =>
    exact Queued.advance [] hq nofun (List.forall_mem_nil _) fun b hb => hrest b hb rfl
  | @queues a hwas hother =>
    have hback : ∀ b ∈ s.freed ++ [a], _ := fun b hb => hrest b hb rfl
    have ha := hback a (List.mem_append_right _ (List.mem_singleton_self a))
    exact Queued.enqueue hq (hs.lt_peak hwas).1 (fun b hb => (hback b hb).1) ha.2
  | rewinds _ _ => exact hrewound s.isLive_rewind
  | clears => exact hrewound s.isLive_rewind

/-- After every history the queue of each supply holds the waiting addresses of its run, oldest
first. -/
theorem queued_after (sizes : Sizes) (requests : List Request) (segment : Segment) (ty : Scalar) :
    Queued (Layout.ofSizes sizes) ((Layout.ofSizes sizes).range segment ty)
      ((ofLayout (Layout.ofSizes sizes)).history requests)
      (((ofLayout (Layout.ofSizes sizes)).after requests).supply segment ty).freed := by
  induction requests using List.reverseRecOn with
  | nil =>
    rw [after, supply_ofLayout]
    exact queued_nil fun b _ => not_outstanding_nil _ b
  | append_singleton requests r ih =>
    have hp := (valid_ofLayout sizes).after requests
    have hp' := (hp.serve r).valid
    have hlive : ∀ a, ((Layout.ofSizes sizes).range segment ty).contains a = true → _ :=
      fun a ha => outstanding_iff_supply sizes (requests ++ [r]) ha
    rw [after_concat, history_concat] at hlive ⊢
    exact (hp.answers r).queued (hp.supplies segment ty) (hp'.supplies segment ty)
      (hp.range_supply segment ty) hlive ih

/-! ## What requests come to -/

/-- The address of the run that a request for one is to get: the one that has waited longest, or the
lowest that is not out when none waits. -/
structure IsNext (l : Layout) (r : Range) (history : List Outcome) (a : Nat) : Prop where
  inside : r.contains a = true
  fresh : ¬ Outstanding l history a
  oldest : (∃ i b, Waiting l r history i b) →
    ∃ i, Waiting l r history i a ∧ ∀ j b, Waiting l r history j b → i ≤ j
  lowest : (¬ ∃ i b, Waiting l r history i b) →
    ∀ b, r.contains b = true → ¬ Outstanding l history b → a ≤ b

theorem Queued.isNext_head {r : Range} (hq : Queued l r h (a :: rest)) : IsNext l r h a := by
  obtain ⟨entries, hmap, hordered, hmem⟩ := hq
  obtain ⟨⟨i, b⟩, later, rfl, rfl, -⟩ := List.map_eq_cons_iff.mp hmap
  have hw := (hmem i b).mp List.mem_cons_self
  have hnow := hw.since h.length hw.lt_length (Nat.le_refl _)
  rw [List.take_length] at hnow
  refine ⟨hw.inside, hnow.1, fun _ => ⟨i, hw, fun j c hc => ?_⟩, fun hnone =>
    (hnone ⟨i, b, hw⟩).elim⟩
  rcases List.mem_cons.mp ((hmem j c).mpr hc) with heq | hlater
  · cases heq
    exact Nat.le_refl _
  · exact Nat.le_of_lt ((List.pairwise_cons.mp hordered).1 (j, c) hlater)

theorem Queued.not_waiting {r : Range} (hq : Queued l r h []) : ¬ ∃ i b, Waiting l r h i b := by
  rintro ⟨i, b, hw⟩
  obtain ⟨entries, hmap, -, hmem⟩ := hq
  rw [List.map_eq_nil_iff.mp hmap] at hmem
  exact List.not_mem_nil ((hmem i b).mpr hw)

/-- What a request for one more address of a run fails with when all of the run are out: the address
past the run is compared with its end, and so has to be a word. -/
def shortageOf (r : Range) : Shortage := if IsWord (r.limit + 1) then .exhausted else .overflow

/-- A request for one address of a supply whose queue tells what waits. -/
theorem take_of_queued {r : Range} (hs : s.Valid) (hrange : s.range = r) (hword : IsWord r.limit)
    (hlive : ∀ a, r.contains a = true → (Outstanding l h a ↔ s.isLive a = true))
    (hq : Queued l r h s.freed) :
    ((∃ e, s.take = .error e) ↔ ∀ a, r.contains a = true → Outstanding l h a) ∧
      (∀ e, s.take = .error e → e = shortageOf r) ∧
        ∀ a s', s.take = .ok (a, s') → IsNext l r h a := by
  subst hrange
  have hstart := hs.start_le
  have hnext := hs.next_le
  unfold Supply.take
  cases hfreed : s.freed with
  | cons a rest =>
    rw [hfreed] at hq
    have hisNext := hq.isNext_head
    refine ⟨iff_of_false nofun fun hall => hisNext.fresh (hall a hisNext.inside), nofun, ?_⟩
    intro a' s' h
    cases h
    exact hisNext
  | nil =>
    rw [hfreed] at hq
    -- what was handed out since the last rewind is all out
    have hout : ∀ a, s.range.contains a = true → (Outstanding l h a ↔ a < s.next) := by
      intro a ha
      have hlo := ((Layout.contains_iff _ a).mp ha).1
      rw [hlive a ha, Supply.isLive_iff, hfreed]
      exact ⟨fun h => h.2.1, fun h => ⟨hlo, h, List.not_mem_nil⟩⟩
    -- a request for a fresh address fails exactly when none of the run is left
    have hfull : ∀ e, s.takeFresh 1 = .error e ↔
        s.next = s.range.limit ∧ e = shortageOf s.range := by
      intro e
      rw [Supply.takeFresh_eq_error_iff]
      unfold shortageOf
      constructor
      · rintro (⟨hnot, rfl⟩ | ⟨hnext', hpast, rfl⟩)
        · have heq : s.next = s.range.limit :=
            Nat.le_antisymm hnext (Nat.le_of_not_lt fun hroom => hnot (.of_le hroom hword))
          rw [← heq]
          exact ⟨rfl, (if_neg hnot).symm⟩
        · have heq : s.next = s.range.limit := by omega
          rw [← heq]
          exact ⟨rfl, (if_pos hnext').symm⟩
      · rintro ⟨heq, rfl⟩
        rw [← heq]
        by_cases hnext' : IsWord (s.next + 1)
        · exact Or.inr ⟨hnext', Nat.lt_succ_self _, if_pos hnext'⟩
        · exact Or.inl ⟨hnext', if_neg hnext'⟩
    refine ⟨?_, fun e he => ((hfull e).mp he).2, ?_⟩
    · constructor
      · rintro ⟨e, he⟩ a ha
        rw [hout a ha, ((hfull e).mp he).1]
        exact ((Layout.contains_iff _ a).mp ha).2
      · intro hall
        refine ⟨_, (hfull _).mpr ⟨Nat.le_antisymm hnext (Nat.le_of_not_lt fun hroom => ?_), rfl⟩⟩
        have hinside : s.range.contains s.next = true :=
          (Layout.contains_iff _ _).mpr ⟨hstart, hroom⟩
        exact Nat.lt_irrefl _ ((hout _ hinside).mp (hall _ hinside))
    · intro a s' h
      obtain ⟨⟨-, hroom⟩, rfl, -⟩ := Supply.takeFresh_eq_ok_iff.mp h
      have hinside : s.range.contains s.next = true :=
        (Layout.contains_iff _ _).mpr ⟨hstart, Nat.lt_of_lt_of_le (Nat.lt_succ_self _) hroom⟩
      refine ⟨hinside, ?_, fun hsome => (hq.not_waiting hsome).elim, fun _ b hb hnot => ?_⟩
      · rw [hout _ hinside]
        exact Nat.lt_irrefl _
      · rw [hout b hb] at hnot
        exact Nat.le_of_not_lt hnot

/-- Giving an address back is refused unless it is out, and heap addresses are refused for what they
are. -/
theorem Valid.release_iff (hp : p.Valid sizes) (a : Nat) :
    ((∃ p', p.release a = .ok p') ↔ p.isLive a = true) ∧
      (p.release a = .error (.outOfRange a) ↔ (Layout.ofSizes sizes).heapStart ≤ a) ∧
      (p.release a = .error (.notAllocated a) ↔ a < (Layout.ofSizes sizes).heapStart ∧
        p.isLive a = false) := by
  unfold Pool.release isLive
  rw [← Layout.locate_eq_none_iff, ← Nat.not_le, ← Layout.locate_eq_none_iff, hp.layout]
  cases hlocate : (Layout.ofSizes sizes).locate a with
  | none => simp
  | some r =>
    obtain ⟨hr, hcontains⟩ := Layout.locate_eq_some hlocate
    have hstart : (p.supply r.segment r.ty).range.start ≤ a := by
      rw [hp.range_supply, ← hr]
      exact ((Layout.contains_iff r a).mp hcontains).1
    have hgive := (hp.supplies r.segment r.ty).give?_eq_none_iff hstart
    dsimp only
    cases hgiven : (p.supply r.segment r.ty).give? a with
    | none => simp [hgive.mp hgiven]
    | some s =>
      have hlive : (p.supply r.segment r.ty).isLive a = true := by
        rw [← Bool.not_eq_false, ← hgive, hgiven]
        exact nofun
      simp [hlive]

/-- A refused request leaves the pool as it was. -/
theorem serve_refused {r : Request} {e : PoolError} (h : (p.serve r).1 = .refused e) :
    (p.serve r).2 = p := by
  cases r with
  | allocate ty segment =>
    rw [serve] at h ⊢
    split at h
    · cases h
    · rfl
  | allocateBlock ty segment len =>
    rw [serve] at h ⊢
    split at h
    · cases h
    · rfl
  | release a =>
    rw [serve] at h ⊢
    split at h
    · cases h
    · rfl
  | releaseSegment segment => cases h

end Pool

/-- A request that the pool refuses leaves the whole compiler as it was. -/
structure Generator.Unharmed (g : Generator) : Prop where
  allocate : ∀ ty segment e g', Fails (Compile.allocate ty segment) g e g' → g' = g
  allocateBlock : ∀ ty segment len e g', Fails (Compile.allocateBlock ty segment len) g e g' →
    g' = g
  giveBack : ∀ a e g', Fails (Compile.giveBack a) g e g' → g' = g

theorem Compile.fails_refuse {α : Type} {cause : Cause} {g g' : Generator} {e : CompileError}
    (h : Fails (refuse cause : Compile α) g e g') : g' = g := by
  rw [refuse, fails_get_bind, fails_throw] at h
  exact h.2

theorem Generator.unharmed (g : Generator) : g.Unharmed := by
  refine ⟨fun ty segment e g' h => ?_, fun ty segment len e g' h => ?_, fun a e g' h => ?_⟩
  · rw [Compile.allocate, fails_get_bind] at h
    split at h
    · rcases fails_bind.mp (fails_set_bind.mp h) with h | ⟨_, _, _, h⟩
      · exact (not_fails_modify h).elim
      · exact (not_fails_pure h).elim
    · exact Compile.fails_refuse h
  · rw [Compile.allocateBlock, fails_get_bind] at h
    split at h
    · rw [fails_set_bind] at h
      exact (not_fails_pure h).elim
    · exact Compile.fails_refuse h
  · rw [Compile.giveBack, fails_get_bind] at h
    split at h
    · exact (not_fails_set h).elim
    · exact Compile.fails_refuse h

namespace Pool

variable {sizes : Sizes} {p : Pool}

theorem Valid.allocateBlock_fresh (hp : p.Valid sizes) {segment : Segment} {ty : Scalar} {len : Nat}
    {p' : Pool} (h : p.allocateBlock ty segment len = .ok (a, p')) {b : Nat} (hlo : a ≤ b)
    (hhi : b < a + max len 1) :
    ((Layout.ofSizes sizes).range segment ty).contains b = true ∧ p.isLive b = false := by
  unfold Pool.allocateBlock at h
  split at h
  · rename_i s htake
    cases h
    have hcontains := hp.contains_of_takeFresh htake hlo hhi
    refine ⟨hcontains, ?_⟩
    rw [hp.isLive_located (Layout.locate_eq_of_contains hcontains), Bool.eq_false_iff]
    intro hlive
    obtain ⟨-, rfl, -⟩ := Supply.takeFresh_eq_ok_iff.mp htake
    exact Nat.not_lt_of_le hlo ((Supply.isLive_iff _ b).mp hlive).2.1
  · cases h

/-- A request for one address after a history. -/
theorem allocate_after {sizes : Sizes} (hsizes : sizes.Addressable) (requests : List Request)
    (segment : Segment) (ty : Scalar) : let l := Layout.ofSizes sizes
    let p := (ofLayout l).after requests
    let h := (ofLayout l).history requests
    ((∃ e, p.allocate ty segment = .error e) ↔
      ∀ a, (l.range segment ty).contains a = true → Outstanding l h a) ∧
      (∀ e, p.allocate ty segment = .error e →
        e = (shortageOf (l.range segment ty)).error segment ty) ∧
      ((∃ a, (l.range segment ty).contains a = true ∧ ¬ Outstanding l h a) →
        ∃ a p', p.allocate ty segment = .ok (a, p') ∧ IsNext l (l.range segment ty) h a) := by
  intro l p h
  have hp : p.Valid sizes := (valid_ofLayout sizes).after requests
  obtain ⟨hfails, hshortage, hgets⟩ :=
    take_of_queued (hp.supplies segment ty) (hp.range_supply segment ty)
    (.of_le (Layout.limit_le_heapStart segment ty) hsizes)
    (fun a ha => outstanding_iff_supply sizes requests ha) (queued_after sizes requests segment ty)
  unfold Pool.allocate
  cases htake : (p.supply segment ty).take with
  | error shortage =>
    have hall := hfails.mp ⟨shortage, htake⟩
    refine ⟨iff_of_true ⟨_, rfl⟩ hall, ?_, fun ⟨a, ha, hnot⟩ => (hnot (hall a ha)).elim⟩
    rintro e ⟨⟩
    rw [hshortage shortage htake]
  | ok taken =>
    obtain ⟨a, s⟩ := taken
    have hisNext := hgets a s htake
    exact ⟨iff_of_false nofun fun hall => hisNext.fresh (hall a hisNext.inside), nofun,
      fun _ => ⟨a, _, rfl, hisNext⟩⟩

/-- After every history over sizes that an address can span: a request for one address fails exactly
when all of its run are out, and otherwise gets the address that is next.  A request for a block
fails exactly when its end is no word (overflow) or lies past its run (exhausted), and otherwise
gets addresses that are not out.  An address can be given back exactly while it is out, and the
refusal tells heap addresses from the others.  A failing request changes nothing. -/
theorem requests_answered_from_history (sizes : Sizes) (hsizes : sizes.Addressable)
    (requests : List Request) : let l := Layout.ofSizes sizes
    let p := (ofLayout l).after requests
    let h := (ofLayout l).history requests
    (∀ segment ty,
      ((∃ e, p.allocate ty segment = .error e) ↔
        ∀ a, (l.range segment ty).contains a = true → Outstanding l h a) ∧
        (∀ e, p.allocate ty segment = .error e →
          e = (shortageOf (l.range segment ty)).error segment ty) ∧
        ((∃ a, (l.range segment ty).contains a = true ∧ ¬ Outstanding l h a) →
          ∃ a p', p.allocate ty segment = .ok (a, p') ∧ IsNext l (l.range segment ty) h a)) ∧
    (∀ segment ty len,
      let stop := (p.supply segment ty).next + max len 1
      (p.allocateBlock ty segment len = .error .overflow ↔ ¬ IsWord stop) ∧
        (p.allocateBlock ty segment len = .error (.exhausted segment ty) ↔
          IsWord stop ∧ (l.range segment ty).limit < stop) ∧
        ((∃ a p', p.allocateBlock ty segment len = .ok (a, p')) ↔
          IsWord stop ∧ stop ≤ (l.range segment ty).limit)) ∧
    (∀ segment ty len a p', p.allocateBlock ty segment len = .ok (a, p') →
      ∀ b, a ≤ b → b < a + max len 1 → (l.range segment ty).contains b = true ∧
        ¬ Outstanding l h b) ∧
    (∀ a, ((∃ p', p.release a = .ok p') ↔ Outstanding l h a) ∧
      (p.release a = .error (.outOfRange a) ↔ l.heapStart ≤ a) ∧
      (p.release a = .error (.notAllocated a) ↔ a < l.heapStart ∧ ¬ Outstanding l h a)) ∧
    (∀ r e, (p.serve r).1 = .refused e → (p.serve r).2 = p) ∧
    ∀ g : Generator, g.pool = p → g.Unharmed := by
  intro l p h
  have hp : p.Valid sizes := (valid_ofLayout sizes).after requests
  have hlive : ∀ a, p.isLive a = true ↔ Outstanding l h a := isLive_after_iff sizes requests
  refine ⟨allocate_after hsizes requests, hp.allocateBlock_iff, ?_, ?_, fun _ _ => serve_refused,
    fun g _ => g.unharmed⟩
  · intro segment ty len a p' hblock b hlo hhi
    obtain ⟨hcontains, hfree⟩ := hp.allocateBlock_fresh hblock hlo hhi
    refine ⟨hcontains, ?_⟩
    rw [← hlive, hfree]
    exact Bool.false_ne_true
  · intro a
    have hrelease := hp.release_iff a
    rwa [← Bool.not_eq_true, hlive] at hrelease

/-- In runs of four addresses: two of three are given back, the higher one first, and a block of one
is taken. -/
def higherFirst : List Request :=
  [.allocate .int .globals, .allocate .int .globals, .allocate .int .globals, .release 1,
    .release 0, .allocateBlock .int .globals 1]

theorem requests_answered_from_history_higherFirst :
    let l := Layout.ofSizes (Sizes.uniform 4)
    let p := (ofLayout l).after higherFirst
    let h := (ofLayout l).history higherFirst
    (∃ p', p.allocate .int .globals = .ok (1, p')) ∧ IsNext l (l.range .globals .int) h 1 ∧
      ¬ Outstanding l h 0 ∧
      Outstanding l h 3 ∧ p.release 0 = .error (.notAllocated 0) ∧ ∃ p', p.release 3 = .ok p' := by
  intro l p h
  obtain ⟨hallocate, -, -, hrelease, -⟩ :=
    requests_answered_from_history (Sizes.uniform 4) (by decide) higherFirst
  have hback : ¬ Outstanding l h 0 := by
    rw [← (hrelease 0).1]
    rintro ⟨p', heq⟩
    have hfails : (p.release 0).isOk = false := by decide
    rw [heq] at hfails
    cases hfails
  have hout : ∃ p', p.release 3 = .ok p' := by
    have hok : (p.release 3).isOk = true := by decide
    cases heq : p.release 3 with
    | ok p' => exact ⟨p', rfl⟩
    | error e =>
      rw [heq] at hok
      cases hok
  obtain ⟨a, p', heq, hnext⟩ := (hallocate .globals .int).2.2 ⟨0, by decide, hback⟩
  have hone : (p.allocate .int .globals).toOption.map (·.1) = some 1 := by decide
  rw [heq] at hone
  cases hone
  exact ⟨⟨p', heq⟩, hnext, hback, (hrelease 3).1.mp hout, (hrelease 0).2.2.mpr ⟨by decide, hback⟩,
    hout⟩

end Pool

end Quadruple
