/-
  Supplies keep account of what is handed out.

  Which addresses are out can be read off the history of a pool, without looking into it: those that
  were handed out and since then neither given back nor taken back together with their segment
  (`Outstanding`).  A supply keeps three things instead, the lowest address never handed out, a
  queue and a set of addresses given back, and changes each of them at places of its own.  After
  every history they agree with it (`supplies_follow_history`):

      supply.isLive a  ↔  ∃ h₁ o h₂, h = h₁ ++ o :: h₂ ∧ o hands out a ∧ nothing in h₂ takes it back

  One request hands out some addresses or takes some back (`Valid.serve`), so what is out after a
  history follows by going through it request by request (`Valid.live_after`).  The rewind needs a
  count: it happens when as many addresses are back as were handed out, and a supply that did not
  rewind has an address that is out (`Supply.Valid.exists_live`).
-/
import Quadruple.Proofs.Addresses

namespace Quadruple

variable {segment : Segment} {ty : Scalar} {a : Nat}

/-! ## Supplies -/

namespace Supply

variable {s s' : Supply}

/-- Whenever addresses were handed out since the last rewind, one of them is out: fewer are back
than were handed out. -/
theorem Valid.exists_live (hs : s.Valid) (h : s.range.start < s.next) : ∃ a, s.isLive a = true := by
  by_contra hnone
  have hback : Finset.Ico s.range.start s.next ⊆ s.freed.toFinset := by
    intro a ha
    rw [Finset.mem_Ico] at ha
    rw [List.mem_toFinset]
    by_contra hout
    exact hnone ⟨a, (isLive_iff s a).mpr ⟨ha.1, ha.2, hout⟩⟩
  have hcard := Finset.card_le_card hback
  have hlength := s.freed.toFinset_card_le
  have hsome := hs.some_out h
  rw [Nat.card_Ico] at hcard
  omega

/-- A supply of which nothing is out starts over. -/
theorem Valid.rewound (hs : s.Valid) (hnone : ∀ a, s.range.contains a = true → s.isLive a = false) :
    s.next = s.range.start ∧ s.freed = [] := by
  have hnext : s.next = s.range.start := by
    rcases Nat.eq_or_lt_of_le hs.start_le with heq | hlt
    · exact heq.symm
    · obtain ⟨a, ha⟩ := hs.exists_live hlt
      have hnot := hnone a (hs.lt_peak ha).1
      rw [ha] at hnot
      cases hnot
  refine ⟨hnext, ?_⟩
  have hlength := hs.length_freed_le
  rw [hnext, Nat.sub_self] at hlength
  exact List.length_eq_zero_iff.mp (Nat.le_zero.mp hlength)

end Supply

namespace Pool

/-! ## Histories -/

/-- What can be asked of a pool. -/
inductive Request where
  | allocate (ty : Scalar) (segment : Segment)
  | allocateBlock (ty : Scalar) (segment : Segment) (len : Nat)
  | release (address : Nat)
  | releaseSegment (segment : Segment)

/-- What a request comes to, as whoever made it can tell. -/
inductive Outcome where
  /-- Consecutive addresses were handed out. -/
  | handed (first count : Nat)
  | tookBack (address : Nat)
  | cleared (segment : Segment)
  | refused (e : PoolError)

/-- Carry a request out.  One that fails makes no new pool, since all its checks come before its
first change, and so the pool stays the one it was. -/
def serve (p : Pool) : Request → Outcome × Pool
  | .allocate ty segment =>
    match p.allocate ty segment with
    | .ok (a, p') => (.handed a 1, p')
    | .error e => (.refused e, p)
  | .allocateBlock ty segment len =>
    match p.allocateBlock ty segment len with
    | .ok (a, p') => (.handed a (max len 1), p')
    | .error e => (.refused e, p)
  | .release address =>
    match p.release address with
    | .ok p' => (.tookBack address, p')
    | .error e => (.refused e, p)
  | .releaseSegment segment => (.cleared segment, p.releaseSegment segment)

/-- The pool after requests. -/
def after (p : Pool) : List Request → Pool
  | [] => p
  | r :: rest => (p.serve r).2.after rest

/-- What requests come to, in order. -/
def history (p : Pool) : List Request → List Outcome
  | [] => []
  | r :: rest => (p.serve r).1 :: (p.serve r).2.history rest

/-- The address was handed out. -/
def Outcome.Hands : Outcome → Nat → Prop
  | handed first count, a => first ≤ a ∧ a < first + count
  | _, _ => False

/-- The address was given back, or its whole segment was. -/
def Outcome.TakesBack (l : Layout) : Outcome → Nat → Prop
  | tookBack b, a => a = b
  | cleared segment, a => l.segmentOf a = some segment
  | _, _ => False

/-- The address was handed out and since then neither given back nor taken back with its segment. -/
def Outstanding (l : Layout) (history : List Outcome) (a : Nat) : Prop :=
  ∃ before o after, history = before ++ o :: after ∧ o.Hands a ∧ ∀ o' ∈ after, ¬ o'.TakesBack l a

theorem not_outstanding_nil (l : Layout) (a : Nat) : ¬ Outstanding l [] a := by
  rintro ⟨before, o, after, h, -⟩
  exact List.append_ne_nil_of_right_ne_nil before (List.cons_ne_nil o after) h.symm

/-- What came about in a history and was not undone since: the last outcome brought it about, or it
had come about before and the last outcome does not undo it. -/
theorem since_concat {P Q : Outcome → Prop} {history : List Outcome} {o : Outcome} :
    (∃ before o' after, history ++ [o] = before ++ o' :: after ∧ P o' ∧ ∀ x ∈ after, ¬ Q x) ↔
      P o ∨ (∃ before o' after, history = before ++ o' :: after ∧ P o' ∧ ∀ x ∈ after, ¬ Q x) ∧
      ¬ Q o := by
  constructor
  · rintro ⟨before, o', after, h, hcame, hkept⟩
    -- it came about in the last outcome or in an earlier one
    rcases List.eq_nil_or_concat after with rfl | ⟨after, last, rfl⟩
    · obtain ⟨-, hlast⟩ := List.append_inj' h rfl
      cases hlast
      exact Or.inl hcame
    · rw [List.concat_eq_append, ← List.cons_append, ← List.append_assoc] at h
      obtain ⟨rfl, hlast⟩ := List.append_inj' h rfl
      cases hlast
      rw [List.concat_eq_append] at hkept
      exact Or.inr
        ⟨⟨before, o', after, rfl, hcame, fun x hx => hkept x (List.mem_append_left _ hx)⟩,
        hkept o (List.mem_append_right _ (List.mem_singleton_self o))⟩
  · rintro (hcame | ⟨⟨before, o', after, rfl, hcame, hkept⟩, hlast⟩)
    · exact ⟨history, o, [], rfl, hcame, List.forall_mem_nil _⟩
    · refine ⟨before, o', after ++ [o], by rw [List.append_assoc, List.cons_append], hcame, ?_⟩
      intro x hx
      rcases List.mem_append.mp hx with hx | hx
      · exact hkept x hx
      · rw [List.mem_singleton.mp hx]
        exact hlast

/-- What is out after one more request is what it handed out, and what was out before unless the
request took it back. -/
theorem outstanding_concat (l : Layout) (history : List Outcome) (o : Outcome) (a : Nat) :
    Outstanding l (history ++ [o]) a ↔ o.Hands a ∨ Outstanding l history a ∧ ¬ o.TakesBack l a :=
      since_concat

/-! ## One request -/

variable {sizes : Sizes} {p p' : Pool}

/-- What a request does to the addresses that are out. -/
structure Follows (sizes : Sizes) (p : Pool) (o : Outcome) (p' : Pool) : Prop where
  valid : p'.Valid sizes
  live : ∀ a, p'.isLive a = true ↔ o.Hands a ∨ p.isLive a = true ∧
    ¬ o.TakesBack (Layout.ofSizes sizes) a

/-- A refused request changes nothing. -/
theorem Valid.follows_refused (hp : p.Valid sizes) (e : PoolError) :
    Follows sizes p (.refused e) p := by
  refine ⟨hp, ?_⟩
  intro a
  simp [Outcome.Hands, Outcome.TakesBack]

/-- A request that hands out addresses takes none back. -/
theorem follows_handed (hvalid : p'.Valid sizes) {first count : Nat}
    (hlive : ∀ a, p'.isLive a = true ↔ (first ≤ a ∧ a < first + count) ∨ p.isLive a = true) :
    Follows sizes p (.handed first count) p' := by
  refine ⟨hvalid, ?_⟩
  intro a
  rw [hlive]
  simp [Outcome.Hands, Outcome.TakesBack]

/-- One address more is out. -/
theorem Takes.follows (h : Takes sizes p segment ty a p') : Follows sizes p (.handed a 1) p' := by
  apply follows_handed h.valid
  intro b
  rw [h.live, or_comm]
  apply or_congr_left
  omega

/-- One address less is out. -/
theorem Gives.follows (h : Gives sizes p a p') : Follows sizes p (.tookBack a) p' := by
  refine ⟨h.valid, ?_⟩
  intro b
  rw [h.live]
  constructor
  · exact Or.inr
  · rintro (hhands | hkept)
    · exact hhands.elim
    · exact hkept

/-- A block lies in its run as a whole. -/
theorem Valid.follows_allocateBlock (hp : p.Valid sizes) {len : Nat}
    (h : p.allocateBlock ty segment len = .ok (a, p')) :
    Follows sizes p (.handed a (max len 1)) p' := by
  apply follows_handed (hp.allocateBlock h).valid
  unfold Pool.allocateBlock at h
  split at h
  · rename_i s htake
    cases h
    have hs := hp.supplies segment ty
    obtain ⟨rfl, hvalid, hrange, -⟩ := hs.takeFresh (by omega) htake
    have hnew := hs.isLive_takeFresh htake
    have hinside : ∀ b, s.isLive b = true → Located sizes b segment ty := by
      intro b hlive
      have hcontains := (hvalid.lt_peak hlive).1
      rw [hrange, hp.range_supply] at hcontains
      exact Layout.locate_eq_of_contains hcontains
    intro b
    by_cases hb : Located sizes b segment ty
    · rw [isLive_setSupply_self hp s hb, hnew, hp.isLive_located hb, or_comm]
    · rw [isLive_setSupply_of_ne hp s hb]
      refine (or_iff_right ?_).symm
      intro hblock
      exact hb (hinside b ((hnew b).mpr (Or.inr hblock)))
  · cases h

theorem isLive_releaseSegment_of_ne (hp : p.Valid sizes) {segment' : Segment}
    (h : Located sizes a segment' ty) (hne : segment' ≠ segment) :
    (p.releaseSegment segment).isLive a = p.isLive a := by
  rw [(hp.releaseSegment segment).isLive_located h, supply_releaseSegment_of_ne p ty hne,
    hp.isLive_located h]

/-- A cleared segment has nothing out. -/
theorem Valid.follows_releaseSegment (hp : p.Valid sizes) (segment : Segment) :
    Follows sizes p (.cleared segment) (p.releaseSegment segment) := by
  refine ⟨hp.releaseSegment segment, ?_⟩
  intro a
  constructor
  · intro hlive
    obtain ⟨segment', ty, hlocated⟩ := (hp.releaseSegment segment).located hlive
    have hne : segment' ≠ segment := by
      rintro rfl
      rw [isLive_releaseSegment hp hlocated] at hlive
      cases hlive
    rw [isLive_releaseSegment_of_ne hp hlocated hne] at hlive
    refine Or.inr ⟨hlive, ?_⟩
    intro hcleared
    exact hne (Option.some.inj (hlocated.segmentOf.symm.trans hcleared))
  · rintro (hhands | ⟨hlive, hkept⟩)
    · exact hhands.elim
    · obtain ⟨segment', ty, hlocated⟩ := hp.located hlive
      have hne : segment' ≠ segment := by
        rintro rfl
        exact hkept hlocated.segmentOf
      rw [isLive_releaseSegment_of_ne hp hlocated hne]
      exact hlive

/-- What is out after a request is what it hands out, and what was out before unless it takes that
back. -/
theorem Valid.serve (hp : p.Valid sizes) (r : Request) :
    Follows sizes p (p.serve r).1 (p.serve r).2 := by
  cases r with
  | allocate ty segment =>
    rw [Pool.serve]
    split
    · rename_i h
      exact (hp.allocate h).follows
    · exact hp.follows_refused _
  | allocateBlock ty segment len =>
    rw [Pool.serve]
    split
    · rename_i h
      exact hp.follows_allocateBlock h
    · exact hp.follows_refused _
  | release address =>
    rw [Pool.serve]
    split
    · rename_i h
      exact (hp.release h).follows
    · exact hp.follows_refused _
  | releaseSegment segment => exact hp.follows_releaseSegment segment

/-- The supplies that a request is about: one, or those of a segment. -/
def Request.Concerns (l : Layout) : Request → Segment → Scalar → Prop
  | allocate ty segment, segment', ty' => (segment', ty') = (segment, ty)
  | allocateBlock ty segment _, segment', ty' => (segment', ty') = (segment, ty)
  | release a, segment', ty' => l.locate a = some (l.range segment' ty')
  | releaseSegment segment, segment', _ => segment' = segment

/-- A request changes no supply but those it is about. -/
theorem Valid.supply_serve (hp : p.Valid sizes) {r : Request}
    (h : ¬ r.Concerns (Layout.ofSizes sizes) segment ty) :
    (p.serve r).2.supply segment ty = p.supply segment ty := by
  cases r with
  | allocate ty' segment' =>
    rw [Pool.serve, Pool.allocate]
    cases (p.supply segment' ty').take with
    | error shortage => rfl
    | ok taken => exact supply_setSupply_of_ne p taken.2 h
  | allocateBlock ty' segment' len =>
    rw [Pool.serve, Pool.allocateBlock]
    cases (p.supply segment' ty').takeFresh (max len 1) with
    | error shortage => rfl
    | ok taken => exact supply_setSupply_of_ne p taken.2 h
  | release address =>
    rw [Pool.serve, Pool.release]
    cases hlocate : p.layout.locate address with
    | none => rfl
    | some r =>
      have hne : (segment, ty) ≠ (r.segment, r.ty) := by
        intro heq
        cases heq
        have hr := hp.layout ▸ hlocate
        exact h (hr.trans (congrArg some (Layout.locate_eq_some hr).1))
      dsimp only
      cases (p.supply r.segment r.ty).give? address with
      | none => rfl
      | some s => exact supply_setSupply_of_ne p s hne
  | releaseSegment segment' => exact supply_releaseSegment_of_ne p ty h

/-! ## Whole histories -/

/-- Requests lead from one valid pool to another. -/
theorem Valid.after (hp : p.Valid sizes) (requests : List Request) :
    (p.after requests).Valid sizes := by
  induction requests generalizing p with
  | nil => exact hp
  | cons r rest ih => exact ih (hp.serve r).valid

/-- A pool that agrees with the history so far agrees with it after more requests. -/
theorem Valid.live_after (hp : p.Valid sizes) {earlier : List Outcome}
    (h : ∀ a, p.isLive a = true ↔ Outstanding (Layout.ofSizes sizes) earlier a)
    (requests : List Request) (a : Nat) :
    (p.after requests).isLive a = true ↔
      Outstanding (Layout.ofSizes sizes) (earlier ++ p.history requests) a := by
  induction requests generalizing p earlier with
  | nil =>
    rw [history, List.append_nil]
    exact h a
  | cons r rest ih =>
    have hstep : ∀ b, (p.serve r).2.isLive b = true ↔
        Outstanding (Layout.ofSizes sizes) (earlier ++ [(p.serve r).1]) b := by
      intro b
      rw [(hp.serve r).live, outstanding_concat, h]
    rw [history, List.append_cons]
    exact ih (hp.serve r).valid hstep

/-- A request for a block overflows when its end is no word, runs out when its end is a word past
the run, and is granted otherwise. -/
theorem Valid.allocateBlock_iff (hp : p.Valid sizes) (segment : Segment) (ty : Scalar) (len : Nat) :
    let stop := (p.supply segment ty).next + max len 1
    (p.allocateBlock ty segment len = .error .overflow ↔ ¬ IsWord stop) ∧
      (p.allocateBlock ty segment len = .error (.exhausted segment ty) ↔
        IsWord stop ∧ ((Layout.ofSizes sizes).range segment ty).limit < stop) ∧
      ((∃ a p', p.allocateBlock ty segment len = .ok (a, p')) ↔
        IsWord stop ∧ stop ≤ ((Layout.ofSizes sizes).range segment ty).limit) := by
  rw [← hp.range_supply]
  unfold Pool.allocateBlock Supply.takeFresh
  dsimp only
  generalize (p.supply segment ty).next + max len 1 = stop
  by_cases hword : IsWord stop
  · by_cases hpast : (p.supply segment ty).range.limit < stop
    · simp [hword, hpast, Nat.not_le.mpr hpast, Shortage.error]
    · simp [hword, hpast, Nat.le_of_not_lt hpast]
  · simp [hword, Shortage.error]

/-- A request whose end is no word is an overflow, and the pool stays as it was. -/
theorem Valid.serve_overflow (hp : p.Valid sizes) {len : Nat}
    (h : ¬ IsWord ((p.supply segment ty).next + max len 1)) :
    p.serve (.allocateBlock ty segment len) = (.refused .overflow, p) := by
  have hfails := (hp.allocateBlock_iff segment ty len).1.mpr h
  rw [Pool.serve, hfails]

/-- What a supply keeps of its run when the addresses `out` are handed out. -/
structure Accounts (r : Range) (out : Nat → Prop) (s : Supply) : Prop where
  range : s.range = r
  /-- Whatever the supply compares is a word. -/
  word : IsWord r.limit
  start_le : r.start ≤ s.next
  next_le : s.next ≤ r.limit
  nodup : s.freed.Nodup
  mem_idle : ∀ a, a ∈ s.idle ↔ a ∈ s.freed
  inside : ∀ a ∈ s.freed, r.start ≤ a ∧ a < s.next
  out_iff : ∀ a, r.contains a = true → (out a ↔ (r.start ≤ a ∧ a < s.next) ∧ a ∉ s.freed)
  rewound : (∀ a, r.contains a = true → ¬ out a) → s.next = r.start ∧ s.freed = []

theorem Valid.accounts (hp : p.Valid sizes) (hsizes : sizes.Addressable) {out : Nat → Prop}
    (hout : ∀ a, p.isLive a = true ↔ out a) (segment : Segment) (ty : Scalar) :
    Accounts ((Layout.ofSizes sizes).range segment ty) out (p.supply segment ty) := by
  have hs := hp.supplies segment ty
  have hword : IsWord ((Layout.ofSizes sizes).range segment ty).limit :=
    .of_le (Layout.limit_le_heapStart segment ty) hsizes
  have hlive : ∀ a, ((Layout.ofSizes sizes).range segment ty).contains a = true →
      (out a ↔ (p.supply segment ty).isLive a = true) := by
    intro a ha
    rw [← hout, hp.isLive_located (Layout.locate_eq_of_contains ha)]
  rw [← hp.range_supply] at hlive hword ⊢
  refine ⟨rfl, hword, hs.start_le, hs.next_le, hs.nodup, hs.mem_idle, hs.freed_lt, ?_, ?_⟩
  · intro a ha
    rw [hlive a ha, Supply.isLive_iff, and_assoc]
  · intro hnone
    apply hs.rewound
    intro a ha
    rw [Bool.eq_false_iff]
    intro h
    exact hnone a ha ((hlive a ha).mpr h)

/-- After every history over sizes that a word can address, failing requests included: each supply
accounts for the addresses of its run that are out; a request for a block whose end is no word
overflows, is not granted by a sum that went past the largest word, and changes nothing; and a
request changes no supply but the one it is about. -/
theorem supplies_follow_history (sizes : Sizes) (hsizes : sizes.Addressable)
    (requests : List Request) (segment : Segment) (ty : Scalar) :
    let l := Layout.ofSizes sizes
    let p := (ofLayout l).after requests
    Accounts (l.range segment ty) (Outstanding l ((ofLayout l).history requests))
      (p.supply segment ty) ∧
      (∀ len, ¬ IsWord ((p.supply segment ty).next + max len 1) →
        p.serve (.allocateBlock ty segment len) = (.refused .overflow, p)) ∧
      ∀ r : Request, ¬ r.Concerns l segment ty →
        (p.serve r).2.supply segment ty = p.supply segment ty := by
  have hp := (valid_ofLayout sizes).after requests
  have hstart : ∀ a, (ofLayout (Layout.ofSizes sizes)).isLive a = true ↔
      Outstanding (Layout.ofSizes sizes) [] a := by
    intro a
    rw [isLive_ofLayout]
    exact iff_of_false Bool.false_ne_true (not_outstanding_nil _ a)
  have hlive := (valid_ofLayout sizes).live_after hstart requests
  exact ⟨hp.accounts hsizes hlive segment ty, fun _ => hp.serve_overflow,
    fun _ h => hp.supply_serve h⟩

/-- In runs of four addresses: one is given back, a block is taken over it, and it is given back
once more in vain; the only address taken of another run is given back. -/
def blockOverGap : List Request :=
  [.allocate .int .globals, .allocate .int .globals, .release 0, .allocateBlock .int .globals 2,
    .release 0, .allocate .float .globals, .release 4]

theorem supplies_follow_history_blockOverGap :
    let l := Layout.ofSizes (Sizes.uniform 4)
    let p := (ofLayout l).after blockOverGap
    let out := Outstanding l ((ofLayout l).history blockOverGap)
    (p.supply .globals .int).freed = [0] ∧ ¬ out 0 ∧ out 1 ∧ out 3 ∧ ¬ out 4 ∧
      (p.supply .globals .float).next = 4 ∧
      p.serve (.allocateBlock .int .globals (2 ^ 64 - 1)) = (.refused .overflow, p) ∧
      (p.serve (.release 3)).2.supply .globals .float = p.supply .globals .float := by
  intro l p out
  obtain ⟨hint, hoverflow, -⟩ :=
    supplies_follow_history (Sizes.uniform 4) (by decide) blockOverGap .globals .int
  obtain ⟨hfloat, -, hframe⟩ :=
    supplies_follow_history (Sizes.uniform 4) (by decide) blockOverGap .globals .float
  refine ⟨by decide, ?_, ?_, ?_, ?_, by decide, hoverflow _ (by decide), hframe (.release 3) ?_⟩
  · exact mt (hint.out_iff 0 (by decide)).mp (by decide)
  · exact (hint.out_iff 1 (by decide)).mpr (by decide)
  · exact (hint.out_iff 3 (by decide)).mpr (by decide)
  · exact mt (hfloat.out_iff 4 (by decide)).mp (by decide)
  · show ¬ l.locate 3 = some (l.range .globals .float)
    decide

end Pool

end Quadruple
