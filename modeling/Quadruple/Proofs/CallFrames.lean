/-
  Calls give their caller's frame back as they found it.

  Two stacks belong to the calls of a run: the frames and the return addresses.  They are pushed and
  popped together, and the depth limit bounds both (`Balanced`):

      frames.length = returns.length + 1  ≤  max 1 maxCallDepth

  Isolation is about the states between a call and its return.  All that time the caller's frames
  lie below those of the calls made since, and its return address below theirs (`Above`):

      s.frames = tops ++ frames      s.returns = later ++ back :: returns

  A step cannot reach that part: it changes the frame on top, puts one on it or takes it off.
  Taking the last one off is the return, and what comes to light is what was there when the call was
  made.  Nothing is assumed of the program: its quads may be malformed, its functions may share
  bodies, and pointers may lead anywhere.
-/
import Quadruple.Proofs.Run

namespace Quadruple.Machine

variable {m s s' : Machine} {frames : List Frame} {returns : List Nat}

/-! ## One frame more than return addresses -/

/-- One frame for each return address and one for the entry point, within the depth limit. -/
structure Balanced (s : Machine) : Prop where
  paired : s.frames.length = s.returns.length + 1
  bounded : s.frames.length ≤ max 1 s.limits.maxCallDepth

/-- A run starts with one frame and no return address. -/
theorem balanced_start {m₀ : Machine} {p : Program} (h : m.start p = .ok m₀) : Balanced m₀ := by
  obtain ⟨main, h₀⟩ := exists_started h
  refine ⟨?_, ?_⟩
  · rw [h₀.frames, h₀.returns]
    rfl
  · rw [h₀.frames]
    exact Nat.le_max_left _ _

/-- Each of the three kinds of steps keeps the two stacks in step. -/
theorem balanced_advance (hs : Balanced s) (h : s.advance = .running s') : Balanced s' := by
  obtain ⟨q, -, hsame, hstay | henter | hleave⟩ := advance_running h
  · refine ⟨?_, ?_⟩
    · rw [hstay.height, hstay.returns]
      exact hs.paired
    · rw [hstay.height, hsame.limits]
      exact hs.bounded
  · obtain ⟨frame, hframe⟩ := henter.frames
    have hroom := henter.room
    refine ⟨?_, ?_⟩
    · rw [hframe, henter.returns, List.length_cons, List.length_cons, hs.paired]
    · rw [hframe, List.length_cons, hsame.limits]
      omega
  · have hpaired := hs.paired
    have hbounded := hs.bounded
    rw [hleave.returns, List.length_cons] at hpaired
    refine ⟨?_, ?_⟩
    · rw [hleave.frames, List.length_tail]
      omega
    · rw [hleave.frames, List.length_tail, hsame.limits]
      omega

/-- So they are in step in every state of a run. -/
theorem balanced_after {m₀ : Machine} {p : Program} {n : Nat} (h : m.start p = .ok m₀)
    (hs : m₀.after n = some s) : Balanced s :=
  after_induction (balanced_start h) balanced_advance hs

/-! ## Between a call and its return -/

/-- The frames and return addresses of a caller lie untouched below those of the calls made since,
the first of which returns to `back`. -/
def Above (frames : List Frame) (returns : List Nat) (back : Nat) (s : Machine) : Prop :=
  ∃ tops later, s.frames = tops ++ frames ∧ s.returns = later ++ back :: returns ∧
    tops.length = later.length + 1

theorem Above.lt_height {back : Nat} (h : Above frames returns back s) :
    frames.length < s.frames.length := by
  obtain ⟨tops, later, hframes, -, hlen⟩ := h
  rw [hframes, List.length_append]
  omega

/-- Entering a function puts everything the caller has below. -/
theorem above_of_enters {q : Quad} (h : Enters q s s') :
    Above s.frames s.returns (s.ip + 1) s' := by
  obtain ⟨frame, hframe⟩ := h.frames
  exact ⟨[frame], [], hframe, h.returns, rfl⟩

/-- The step lemma: the caller's part stays below, or it comes to light as it was. -/
theorem above_advance {back : Nat} (hs : Above frames returns back s)
    (h : s.advance = .running s') :
    Above frames returns back s' ∨ (s'.frames = frames ∧ s'.returns = returns ∧ s'.ip = back) := by
  obtain ⟨tops, later, hframes, hreturns, hlen⟩ := hs
  cases tops with
  | nil => exact absurd hlen (by simp)
  | cons top tops =>
    obtain ⟨q, -, -, hstay | henter | hleave⟩ := advance_running h
    · -- at most the frame on top has changed
      have htail := hstay.callers
      have hheight := hstay.height
      rw [hframes] at htail hheight
      cases hs' : s'.frames with
      | nil =>
        rw [hs'] at hheight
        cases hheight
      | cons top' rest =>
        rw [hs'] at htail
        refine Or.inl ⟨top' :: tops, later, ?_, ?_, hlen⟩
        · rw [hs', List.cons_append, show rest = tops ++ frames from htail]
        · rw [hstay.returns, hreturns]
    · obtain ⟨frame, hframe⟩ := henter.frames
      refine Or.inl ⟨frame :: top :: tops, (s.ip + 1) :: later, ?_, ?_, ?_⟩
      · rw [hframe, hframes]
        rfl
      · rw [henter.returns, hreturns]
        rfl
      · rw [List.length_cons, hlen, List.length_cons]
    · have htail := hleave.frames
      have hback := hleave.returns
      rw [hframes] at htail
      rw [hreturns] at hback
      cases later with
      | nil =>
        -- the return of the call itself
        have hnil : tops = [] := by
          rw [List.length_cons] at hlen
          exact List.eq_nil_of_length_eq_zero (by rw [List.length_nil] at hlen; omega)
        subst hnil
        have hcons : back :: returns = s'.ip :: s'.returns := hback
        cases hcons
        exact Or.inr ⟨htail, rfl, rfl⟩
      | cons r later =>
        have hcons : r :: (later ++ back :: returns) = s'.ip :: s'.returns := hback
        injection hcons with _ hrest
        refine Or.inl ⟨tops, later, htail, hrest.symm, ?_⟩
        rw [List.length_cons, List.length_cons] at hlen
        omega

theorem enters_of_goSub (hgo : s.Executes .goSub) (h : s.advance = .running s') :
    ∃ q, Enters q s s' := by
  obtain ⟨q, hq, hop⟩ := hgo
  obtain ⟨q', hq', -, hstay | henter | hleave⟩ := advance_running h
  · rw [hq] at hq'
    cases hq'
    exact absurd hop hstay.op_ne_goSub
  · exact ⟨q', henter⟩
  · rw [hq] at hq'
    cases hq'
    rw [hleave.op] at hop
    cases hop

/-- The run lemma: until the stack comes back to the caller's height, the caller's part lies
untouched below, and when it does, the caller's part has come to light as it was. -/
theorem above_or_back {c : Machine} {i : Nat} (hc : m.after i = some c) (hgo : c.Executes .goSub) :
    ∀ (d : Nat) (s : Machine), m.after (i + 1 + d) = some s →
      (∀ k t, i < k → k < i + 1 + d → m.after k = some t → t.frames.length ≠ c.frames.length) →
      Above c.frames c.returns (c.ip + 1) s ∨
        (s.frames = c.frames ∧ s.returns = c.returns ∧ s.ip = c.ip + 1) := by
  intro d
  induction d with
  | zero =>
    intro s hs _
    obtain ⟨c', hc', hstep⟩ := after_succ.mp hs
    rw [hc] at hc'
    cases hc'
    obtain ⟨q, henter⟩ := enters_of_goSub hgo hstep
    exact Or.inl (above_of_enters henter)
  | succ d ih =>
    intro s hs hfar
    obtain ⟨t, ht, hstep⟩ := after_succ.mp hs
    obtain habove | ⟨hframes, -, -⟩ := ih t ht fun k t' hik hk hkt => hfar k t' hik (by omega) hkt
    · exact above_advance habove hstep
    · exact absurd (congrArg List.length hframes) (hfar (i + 1 + d) t (by omega) (by omega) ht)

/-! ## Isolation -/

/-- **Calls are isolated.** For every program, machine and input: at every moment of a run the
frames number one more than the return addresses and at most as many as the depth limit allows, also
where a step fails; and when a call made at step `i` is followed by a first moment `j` at which the
stack is back to the caller's height, then all its frames are as they were with all their slots, the
return addresses are as they were, and execution goes on at the quad after the call. -/
theorem calls_are_isolated {m m₀ : Machine} {p : Program} (hstart : m.start p = .ok m₀) :
    (∀ n s, m₀.after n = some s →
      s.frames.length = s.returns.length + 1 ∧ s.frames.length ≤ max 1 m.limits.maxCallDepth) ∧
    (∀ n s f s', m₀.after n = some s → Fails Exec.step s f s' →
      s'.frames.length = s'.returns.length + 1 ∧ s'.frames.length ≤ max 1 m.limits.maxCallDepth) ∧
    (∀ i j c s, m₀.after i = some c → c.Executes .goSub → i < j → m₀.after j = some s →
      s.frames.length = c.frames.length →
      (∀ k t, i < k → k < j → m₀.after k = some t → t.frames.length ≠ c.frames.length) →
      s.frames = c.frames ∧ s.returns = c.returns ∧ s.ip = c.ip + 1) := by
  obtain ⟨main, h₀⟩ := exists_started hstart
  have hbalanced : ∀ n s, m₀.after n = some s →
      s.frames.length = s.returns.length + 1 ∧ s.frames.length ≤ max 1 m.limits.maxCallDepth := by
    intro n s hs
    have hb := balanced_after hstart hs
    have hbounded := hb.bounded
    rw [(sameProgram_after hs).limits, h₀.limits] at hbounded
    exact ⟨hb.paired, hbounded⟩
  refine ⟨hbalanced, ?_, ?_⟩
  · intro n s f s' hs hfail
    have hw := within_of_fails hfail
    rw [hw.height, hw.returns]
    exact hbalanced n s hs
  · intro i j c s hc hgo hij hs hheight hfirst
    have hj : j = i + 1 + (j - i - 1) := by omega
    rw [hj] at hs hfirst
    obtain habove | hback := above_or_back hc hgo _ s hs hfirst
    · exact absurd hheight (Nat.ne_of_gt habove.lt_height)
    · exact hback

/-- A function called from `main` that calls another one: written by hand, with no compiler behind
it. -/
def nestedCalls : Program :=
  { Program.ofSizes (Sizes.uniform 1) with
    functions := Table.ofList [("main", Routine.startingAt 0), ("outer", Routine.startingAt 3),
        ("inner", Routine.startingAt 6)]
    quads := #[
      ⟨.are, some (.function "outer"), none, none⟩, ⟨.goSub, some (.function "outer"), none, none⟩,
      ⟨.endFunc, none, none, none⟩,
      ⟨.are, some (.function "inner"), none, none⟩, ⟨.goSub, some (.function "inner"), none, none⟩,
      ⟨.endFunc, none, none, none⟩,
      ⟨.endFunc, none, none, none⟩] }

/-- The first state of `nestedCalls` on a machine with room for three frames. -/
def nestedCallsStart : Machine :=
  (ofConsole ⟨3, none, 0⟩ (Console.ofInput []) .warn).startState nestedCalls

theorem calls_are_isolated_nestedCalls :
    (ofConsole ⟨3, none, 0⟩ (Console.ofInput []) .warn).start nestedCalls = .ok nestedCallsStart ∧
    ∃ c s, nestedCallsStart.after 1 = some c ∧ c.Executes .goSub ∧
      nestedCallsStart.after 6 = some s ∧
      s.frames = c.frames ∧ s.returns = c.returns ∧ s.ip = c.ip + 1 := by
  have hstart :
      (ofConsole ⟨3, none, 0⟩ (Console.ofInput []) .warn).start nestedCalls =
        .ok nestedCallsStart :=
    start_eq_startState (by decide +kernel)
  have hfar : ∀ k < 6, 1 < k → (nestedCallsStart.after k).all fun t => t.frames.length != 1 := by
    decide +kernel
  obtain ⟨c, hc, hip, hheight⟩ : ∃ c, nestedCallsStart.after 1 = some c ∧ c.ip = 1 ∧
      c.frames.length = 1 :=
    ⟨(nestedCallsStart.after 1).get (by decide +kernel),
      by decide +kernel, by decide +kernel, by decide +kernel⟩
  obtain ⟨s, hs, hback⟩ : ∃ s, nestedCallsStart.after 6 = some s ∧ s.frames.length = 1 :=
    ⟨(nestedCallsStart.after 6).get (by decide +kernel), by decide +kernel, by decide +kernel⟩
  have hgo : c.Executes .goSub := by
    refine ⟨⟨.goSub, some (.function "outer"), none, none⟩, ?_, rfl⟩
    rw [hip, (sameProgram_after hc).quads]
    decide +kernel
  refine ⟨hstart, c, s, hc, hgo, hs, ?_⟩
  refine (calls_are_isolated hstart).2.2 1 6 c s hc hgo (by decide) hs (by rw [hback, hheight]) ?_
  intro k t hk1 hk6 ht
  have h := hfar k hk6 hk1
  rw [ht] at h
  rw [hheight]
  exact bne_iff_ne.mp h

end Quadruple.Machine
