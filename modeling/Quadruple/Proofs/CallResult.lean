/-
  Whose result a call claims.

  The value to be claimed is one field of the machine, shared by all calls.  `RETURN` sets it,
  `GOSUB` and `CALL_ASSIGN` empty it, and nothing else touches it; so it holds what the last of
  these quads left in it (`returned_eq_some_iff`):

      m₀.after n = some s  →  (s.returned = some v  ↔  ∃ k, LeftOver m₀ k n v)

  In a compiled program a claim follows at once on
  the end of an activation of its function (`activation_of_claim`), and an activation that executes
  a `RETURN` ends with the next quad (`Returns.leftOver`).  So a claim after an activation that
  returned a value gets that value.

  An activation that ends without a `RETURN` of its own should leave nothing to claim.  It does
  unless a call inside it returned a value that was neither claimed nor dropped by another call:
  that value is left over, and the claim gets it.
-/
import Quadruple.Proofs.CallShape
import Quadruple.Proofs.CallFrames

namespace Quadruple.Machine

variable {s m₀ t : Machine} {q : Quad} {k n : Nat} {v : Value} {f : String}

/-! ## The value to be claimed -/

/-- At step `k` a `RETURN` read the value `v`, and no step from there up to `n` set, claimed or
dropped one. -/
structure LeftOver (m₀ : Machine) (k n : Nat) (v : Value) : Prop where
  before : k < n
  returned : ∃ u q, m₀.after k = some u ∧ u.quads[u.ip]? = some q ∧ q.op = .returnValue ∧
    u.read q.result = .ok v
  untouched : ∀ i w op, k < i → i < n → m₀.after i = some w → w.Executes op →
    op ≠ .goSub ∧ op ≠ .callAssign ∧ op ≠ .returnValue

theorem Executes.unique {op : Opcode} (h : s.Executes op) (hq : s.quads[s.ip]? = some q) :
    op = q.op := by
  obtain ⟨q', hq', rfl⟩ := h
  rw [hq] at hq'
  cases hq'
  rfl

/-- The quad of that step is a `RETURN`. -/
theorem LeftOver.of_after (h : LeftOver m₀ k n v) (ht : m₀.after k = some t)
    (hq : t.quads[t.ip]? = some q) : q.op = .returnValue ∧ t.read q.result = .ok v := by
  obtain ⟨u, q', hu, hq', hop, hread⟩ := h.returned
  cases ht.symm.trans hu
  cases hq.symm.trans hq'
  exact ⟨hop, hread⟩

/-- A step that has nothing to do with the value to be claimed changes nothing about what is left
over. -/
theorem leftOver_succ_iff (ht : m₀.after n = some t) (hq : t.quads[t.ip]? = some q)
    (hop : q.op ≠ .goSub ∧ q.op ≠ .callAssign ∧ q.op ≠ .returnValue) :
    LeftOver m₀ k (n + 1) v ↔ LeftOver m₀ k n v := by
  constructor
  · intro h
    have hlt := h.before
    have hne : k ≠ n := by
      rintro rfl
      exact hop.2.2 (h.of_after ht hq).1
    exact ⟨by omega, h.returned, fun i w op hki hin => h.untouched i w op hki (by omega)⟩
  · intro h
    have hlt := h.before
    refine ⟨by omega, h.returned, ?_⟩
    intro i w op hki hin hw hexec
    by_cases hi : i = n
    · subst hi
      rw [ht] at hw
      cases hw
      rw [hexec.unique hq]
      exact hop
    · exact h.untouched i w op hki (by omega) hw hexec

/-- Right after a step that emptied the field nothing is left over. -/
theorem not_leftOver_succ (ht : m₀.after n = some t) (hq : t.quads[t.ip]? = some q)
    (hop : q.op = .goSub ∨ q.op = .callAssign) : ¬ LeftOver m₀ k (n + 1) v := by
  intro h
  have hlt := h.before
  by_cases hk : k = n
  · subst hk
    obtain ⟨hreturn, -⟩ := h.of_after ht hq
    rcases hop with hop | hop
    · cases hreturn.symm.trans hop
    · cases hreturn.symm.trans hop
  · obtain ⟨hgo, hclaim, -⟩ := h.untouched n t q.op (by omega) (by omega) ht ⟨q, hq, rfl⟩
    rcases hop with hop | hop
    · exact hgo hop
    · exact hclaim hop

/-- Right after a `RETURN` the value it read is left over, and no other. -/
theorem leftOver_return_iff {w : Value} (ht : m₀.after n = some t) (hq : t.quads[t.ip]? = some q)
    (hop : q.op = .returnValue) (hread : t.read q.result = .ok w) :
    LeftOver m₀ k (n + 1) v ↔ k = n ∧ v = w := by
  constructor
  · intro h
    have hlt := h.before
    by_cases hk : k = n
    · subst hk
      cases hread.symm.trans (h.of_after ht hq).2
      exact ⟨rfl, rfl⟩
    · obtain ⟨-, -, hreturn⟩ := h.untouched n t q.op (by omega) (by omega) ht ⟨q, hq, rfl⟩
      exact (hreturn hop).elim
  · rintro ⟨rfl, rfl⟩
    refine ⟨by omega, ⟨t, q, ht, hq, hop, hread⟩, ?_⟩
    intro i w op hki hin
    omega

/-- The value to be claimed is what is left over. -/
theorem returned_eq_some_iff (hnone : m₀.returned = none) (hs : m₀.after n = some s) :
    s.returned = some v ↔ ∃ k, LeftOver m₀ k n v := by
  induction n generalizing s v with
  | zero =>
    cases hs
    constructor
    · intro h
      rw [hnone] at h
      cases h
    · rintro ⟨k, hk⟩
      exact absurd hk.before (Nat.not_lt_zero k)
  | succ n ih =>
    obtain ⟨t, ht, hstep⟩ := after_succ.mp hs
    obtain ⟨q, hq, -, hkind⟩ := advance_running hstep
    -- the step empties the field, sets it, or leaves it alone
    have hempty : q.op = .goSub ∨ q.op = .callAssign → s.returned = none →
        (s.returned = some v ↔ ∃ k, LeftOver m₀ k (n + 1) v) := by
      intro hop hreturned
      rw [hreturned]
      constructor
      · intro h
        cases h
      · rintro ⟨k, hk⟩
        exact (not_leftOver_succ ht hq hop hk).elim
    have hkeeps : q.op ≠ .goSub ∧ q.op ≠ .callAssign ∧ q.op ≠ .returnValue →
        s.returned = t.returned →
        (s.returned = some v ↔ ∃ k, LeftOver m₀ k (n + 1) v) := by
      intro hop hreturned
      rw [hreturned, ih ht]
      exact exists_congr fun k => (leftOver_succ_iff ht hq hop).symm
    rcases hkind with hstays | henters | hleaves
    · rcases hstays.returned with ⟨hop, w, hread, hreturned⟩ | ⟨hop, hreturned⟩ | ⟨hreturn, hclaim,
        hreturned⟩
      · rw [hreturned]
        constructor
        · intro h
          cases h
          exact ⟨n, (leftOver_return_iff ht hq hop hread).mpr ⟨rfl, rfl⟩⟩
        · rintro ⟨k, hk⟩
          rw [((leftOver_return_iff ht hq hop hread).mp hk).2]
      · exact hempty (Or.inr hop) hreturned
      · exact hkeeps ⟨hstays.op_ne_goSub, hclaim, hreturn⟩ hreturned
    · exact hempty (Or.inl henters.op) henters.returned
    · refine hkeeps ?_ hleaves.returned
      rw [hleaves.op]
      exact ⟨Opcode.noConfusion, Opcode.noConfusion, Opcode.noConfusion⟩

/-! ## Activations -/

/-- Every return address was left by a call, and until now the stack has been higher than it was
then. -/
theorem call_of_pending (hempty : m₀.returns = []) (hs : m₀.after n = some s)
    {later rest : List Nat} {back : Nat} (hback : s.returns = later ++ back :: rest) :
    ∃ a c, a < n ∧ m₀.after a = some c ∧ c.Executes .goSub ∧ back = c.ip + 1 ∧ rest = c.returns ∧
      ∀ k u, a < k → k ≤ n → m₀.after k = some u → c.returns.length < u.returns.length := by
  induction n generalizing s later with
  | zero =>
    cases hs
    rw [hempty] at hback
    have hlength := congrArg List.length hback
    simp at hlength
  | succ n ih =>
    obtain ⟨t, ht, hstep⟩ := after_succ.mp hs
    obtain ⟨q, hq, -, hkind⟩ := advance_running hstep
    have hlonger : rest.length < s.returns.length := by
      rw [hback, List.length_append, List.length_cons]
      omega
    -- the call is an earlier one, or this step
    have hearlier : ∀ later', t.returns = later' ++ back :: rest → ∃ a c,
        a < n + 1 ∧ m₀.after a = some c ∧
        c.Executes .goSub ∧ back = c.ip + 1 ∧ rest = c.returns ∧
        ∀ k u, a < k → k ≤ n + 1 → m₀.after k = some u → c.returns.length < u.returns.length := by
      intro later' hlater'
      obtain ⟨a, c, ha, hc, hgo, hip, hrest, hhigh⟩ := ih ht hlater'
      refine ⟨a, c, by omega, hc, hgo, hip, hrest, ?_⟩
      intro k u hak hk hu
      by_cases hkn : k = n + 1
      · subst hkn
        rw [hs] at hu
        cases hu
        rw [← hrest]
        exact hlonger
      · exact hhigh k u hak (by omega) hu
    rcases hkind with hstays | henters | hleaves
    · rw [hstays.returns] at hback
      exact hearlier later hback
    · rw [henters.returns] at hback
      cases later with
      | nil =>
        cases hback
        refine ⟨n, t, by omega, ht, ⟨q, hq, henters.op⟩, rfl, rfl, ?_⟩
        intro k u hnk hk hu
        obtain rfl : k = n + 1 := by omega
        rw [hs] at hu
        cases hu
        exact hlonger
      | cons r later =>
        have htail : t.returns = later ++ back :: rest := (List.cons.inj hback).2
        exact hearlier later htail
    · refine hearlier (s.ip :: later) ?_
      rw [hleaves.returns, hback]
      rfl

/-- The call of `f` made in the state `c` at step `a` returned with the step before `n`. -/
structure Activation (m₀ c : Machine) (f : String) (a n : Nat) : Prop where
  caller : m₀.after a = some c
  call : c.quads[c.ip]? = some ⟨.goSub, some (.function f), none, none⟩
  before : a < n
  inside : ∀ k u, a < k → k < n → m₀.after k = some u → c.frames.length < u.frames.length
  ended : ∃ s, m₀.after n = some s ∧ s.frames.length = c.frames.length ∧ s.ip = c.ip + 1

/-- At step `k` the activation itself, and not a call inside it, executed a `RETURN` that read `v`.
-/
structure Returns (m₀ c : Machine) (a n k : Nat) (v : Value) : Prop where
  after : a < k
  before : k < n
  own : ∃ u q, m₀.after k = some u ∧ u.frames.length = c.frames.length + 1 ∧
    u.quads[u.ip]? = some q ∧
    q.op = .returnValue ∧ u.read q.result = .ok v

section

variable {m m₀ : Machine} {p : Program}

/-- In a compiled program a claim follows at once on the end of an activation of its function. -/
theorem activation_of_claim (hp : p.CallsShaped) (hstart : m.start p = .ok m₀)
    (hs : m₀.after n = some s) (hq : s.quads[s.ip]? = some q) (hop : q.op = .callAssign) :
    ∃ f c a, q.left = some (.function f) ∧ Activation m₀ c f a n := by
  obtain ⟨main, h₀⟩ := exists_started hstart
  rw [(loaded_after hstart hs).quads] at hq
  obtain ⟨f, target, rfl, i, hi, hcall⟩ := hp.claims s.ip q hq hop
  refine ⟨f, ?_⟩
  cases n with
  | zero =>
    -- a run does not start at a claim
    cases hs
    exact (hp.starts _ _ _ main hq rfl h₀.entry h₀.ip.symm).elim
  | succ n =>
    obtain ⟨t, ht, hstep⟩ := after_succ.mp hs
    obtain ⟨q', hq', -, hkind⟩ := advance_running hstep
    have hloaded := loaded_after hstart ht
    rw [hloaded.quads] at hq'
    rcases hkind with hstays | henters | hleaves
    · -- nothing but the call stands before it, and no jump leads to it
      rcases hstays.ip with hnext | hjump
      · have hti : t.ip = i := by omega
        rw [hti, hcall] at hq'
        cases hq'
        exact (hstays.op_ne_goSub rfl).elim
      · exact (hp.targets _ _ _ q' hq rfl hq' hjump).elim
    · obtain ⟨id, r, -, hr, hr'⟩ := henters.callee
      rw [hloaded.functions] at hr
      exact (hp.starts _ _ id r hq rfl hr hr'.symm).elim
    · have hback : t.returns = [] ++ s.ip :: s.returns := hleaves.returns
      obtain ⟨a, c, ha, hc, hgo, hback, hrest, hhigh⟩ := call_of_pending h₀.returns ht hback
      have hpaired := (balanced_after hstart hc).paired
      refine ⟨c, a, rfl, hc, ?_, by omega, ?_, s, hs, ?_, hback⟩
      · have hci : c.ip = i := by omega
        rw [(loaded_after hstart hc).quads, hci]
        exact hcall
      · intro k u hak hkn hu
        have hlonger := hhigh k u hak (by omega) hu
        have hpaired' := (balanced_after hstart hu).paired
        omega
      · have hpaired' := (balanced_after hstart hs).paired
        rw [hpaired', hpaired, hrest]

/-- The last step before a state that is reached went on to it. -/
theorem exists_step {u : Machine} (hs : m₀.after n = some s) (hk : k < n)
    (hu : m₀.after k = some u) : ∃ u', m₀.after (k + 1) = some u' ∧ u.advance = .running u' := by
  obtain ⟨u', hu'⟩ := exists_after_of_le hs (show k + 1 ≤ n by omega)
  obtain ⟨t, ht, hstep⟩ := after_succ.mp hu'
  rw [hu] at ht
  cases ht
  exact ⟨u', hu', hstep⟩

/-- An activation ends right after its own `RETURN`, so what that read is left over. -/
theorem Returns.leftOver (hp : p.CallsShaped) (hstart : m.start p = .ok m₀) {c : Machine} {a : Nat}
    (hact : Activation m₀ c f a n) (h : Returns m₀ c a n k v) : LeftOver m₀ k n v := by
  obtain ⟨s, hs, hheight, -⟩ := hact.ended
  obtain ⟨u, q, hu, hown, hq, hop, hread⟩ := h.own
  have hak := h.after
  have hkn := h.before
  -- the step after it is the `ENDFUNC` of the activation
  obtain ⟨u₁, hu₁, hstep₁⟩ := exists_step hs hkn hu
  obtain ⟨q₁, hq₁, -, hstays | henters | hleaves⟩ := advance_running hstep₁
  · rw [hq] at hq₁
    cases hq₁
    have hip : u₁.ip = u.ip + 1 := by
      rcases hstays.ip with hnext | hjump
      · exact hnext
      · rw [jumpTarget?_of_not_jump (Control.isJump_of_op (by rw [hop]; exact Opcode.noConfusion)
          (by rw [hop]; exact Opcode.noConfusion))] at hjump
        cases hjump
    have hheight₁ := hstays.height
    have hk1 : k + 1 < n := by
      rcases Nat.lt_or_ge (k + 1) n with hlt | hge
      · exact hlt
      · obtain rfl : k + 1 = n := by omega
        rw [hs] at hu₁
        cases hu₁
        omega
    have hend : ∃ r, u₁.quads[u₁.ip]? = some r ∧ r.op = .endFunc := by
      rw [hip, (loaded_after hstart hu₁).quads]
      rw [(loaded_after hstart hu).quads] at hq
      exact hp.returns _ q hq hop
    obtain ⟨r, hr, hrop⟩ := hend
    obtain ⟨u₂, hu₂, hstep₂⟩ := exists_step hs hk1 hu₁
    have hk2 : k + 2 = n := by
      obtain ⟨q₂, hq₂, -, hkind⟩ := advance_running hstep₂
      rw [hr] at hq₂
      cases hq₂
      rcases hkind with hstays₂ | henters₂ | hleaves₂
      · exact (hstays₂.op_ne_endFunc hrop).elim
      · rw [henters₂.op] at hrop
        cases hrop
      · have hheight₂ : u₂.frames.length = c.frames.length := by
          rw [hleaves₂.frames, List.length_tail]
          omega
        rcases Nat.lt_or_ge (k + 2) n with hlt | hge
        · have hhigher := hact.inside (k + 2) u₂ (by omega) hlt hu₂
          omega
        · omega
    refine ⟨hkn, ⟨u, q, hu, hq, hop, hread⟩, ?_⟩
    intro i w op hki hin hw hexec
    obtain rfl : i = k + 1 := by omega
    rw [hu₁] at hw
    cases hw
    rw [hexec.unique hr, hrop]
    exact ⟨Opcode.noConfusion, Opcode.noConfusion, Opcode.noConfusion⟩
  · cases hq.symm.trans hq₁
    cases henters.op.symm.trans hop
  · cases hq.symm.trans hq₁
    cases hleaves.op.symm.trans hop

end

/-! ## Claims -/

/-- The step at a claim stores the value: it writes it to the operand of the claim and goes on, or
fails because it cannot be written there. -/
def Stores (s : Machine) (q : Quad) (v : Value) : Prop :=
  (∃ s', { s.reached q with returned := none }.write q.result v = .ok s' ∧
    s.advance = .running { s' with ip := s'.ip + 1 }) ∨
  ∃ fault, { s.reached q with returned := none }.write q.result v = .error fault ∧
    s.advance = .faulted ((s.reached q).errorOf fault) { s.reached q with returned := none }

/-- A claim stores the value that is there. -/
theorem advance_claim_of_some (hq : s.quads[s.ip]? = some q) (hop : q.op = .callAssign)
    (hmay : s.MayStep) (hv : s.returned = some v) : Stores s q v := by
  have hstep : Exec.step.run.run s = (Exec.callAssign q).run.run (s.reached q) := by
    rw [step_eq_execute hq hmay]
    rw [Exec.execute, hop]
  have hv' : (s.reached q).returned = some v := hv
  cases hw : { s.reached q with returned := none }.write q.result v with
  | ok s' =>
    have hyields : Yields Exec.step s .next s' := by
      rw [Yields, hstep]
      refine yields_get_bind.mpr ?_
      rw [hv']
      exact yields_set_bind.mpr
        (yields_bind.mpr ⟨(), s', Exec.yields_update.mpr hw, yields_pure.mpr ⟨rfl, rfl⟩⟩)
    exact Or.inl ⟨s', hw, advance_of_yields hyields⟩
  | error fault =>
    have hfails : Fails Exec.step s fault { s.reached q with returned := none } := by
      rw [Fails, hstep]
      refine fails_get_bind.mpr ?_
      rw [hv']
      exact fails_set_bind.mpr (fails_bind.mpr (Or.inl (Exec.fails_update.mpr ⟨hw, rfl⟩)))
    exact Or.inr ⟨fault, hw, advance_of_fails hfails⟩

/-- Without one it faults. -/
theorem advance_claim_of_none (hq : s.quads[s.ip]? = some q) (hop : q.op = .callAssign)
    (hleft : q.left = some (.function f)) (hmay : s.MayStep) (hnone : s.returned = none) :
    s.advance = .faulted ((s.reached q).errorOf (.missingReturn f)) (s.reached q) := by
  apply advance_of_fails
  rw [Fails, step_eq_execute hq hmay]
  rw [Exec.execute, hop]
  refine fails_get_bind.mpr ?_
  have hnone' : (s.reached q).returned = none := hnone
  rw [hnone', hleft]
  exact fails_throw.mpr ⟨rfl, rfl⟩

/-- What a claim should do: store the value that the activation itself returned, and stop the run
when it returned none. -/
def ClaimsOwn (m₀ c s : Machine) (q : Quad) (f : String) (a n : Nat) : Prop :=
  (∀ k v, Returns m₀ c a n k v → Stores s q v) ∧
  ((∀ k v, ¬ Returns m₀ c a n k v) →
    s.advance = .faulted ((s.reached q).errorOf (.missingReturn f)) (s.reached q))

/-- What was left over by a call inside an activation, or by the activation itself, came after its
call. -/
theorem LeftOver.after_call {c : Machine} {a : Nat} (hact : Activation m₀ c f a n)
    (h : LeftOver m₀ k n v) : a < k := by
  have hcall : c.Executes .goSub := ⟨_, hact.call, rfl⟩
  rcases Nat.lt_trichotomy a k with hlt | heq | hgt
  · exact hlt
  · subst heq
    cases (h.of_after hact.caller hact.call).1
  · obtain ⟨hgo, -⟩ := h.untouched a c .goSub hgt hact.before hact.caller hcall
    exact (hgo rfl).elim

/-- A claim that stores something does not stop the run for want of a value. -/
theorem Stores.advance_ne {w : Value} {e : RuntimeError} (h : Stores s q v)
    (hw : s.returned = some w) : s.advance ≠ .faulted e (s.reached q) := by
  intro hfaulted
  rcases h with ⟨s', -, hrunning⟩ | ⟨fault, -, hfault⟩
  · rw [hfaulted] at hrunning
    cases hrunning
  · rw [hfaulted] at hfault
    injection hfault with _ hstate
    have hreturned := congrArg Machine.returned hstate
    have hkept : (s.reached q).returned = some w := hw
    rw [hkept] at hreturned
    cases hreturned

/-- **Whose result a claim gets.** In every run of a compiled program, a claim that is executed
follows on an activation of its function.  It does what it should, to store the value which that
activation returned and to stop the run when it returned none, exactly when the activation returned
a value or nothing is left over from the calls inside it; what is left over from these it stores. -/
theorem claim_is_own_iff {threshold : Level} {sizes : Sizes} {events : List Event} {p : Program}
    {names : Names} (h : (compile threshold sizes events).1 = .ok (p, names)) {m m₀ s : Machine}
    {n : Nat} {q : Quad} (hstart : m.start p = .ok m₀) (hs : m₀.after n = some s)
    (hq : s.quads[s.ip]? = some q) (hop : q.op = .callAssign) (hmay : s.MayStep) :
    ∃ f c a, q.left = some (.function f) ∧ Activation m₀ c f a n ∧
      (ClaimsOwn m₀ c s q f a n ↔ (∃ k v, Returns m₀ c a n k v) ∨ ∀ k v, ¬ LeftOver m₀ k n v) ∧
      ∀ k v, LeftOver m₀ k n v → a < k ∧ Stores s q v := by
  have hp := callsShaped_of_compile h
  obtain ⟨main, h₀⟩ := exists_started hstart
  obtain ⟨f, c, a, hleft, hact⟩ := activation_of_claim hp hstart hs hq hop
  have hstores : ∀ k v, LeftOver m₀ k n v → Stores s q v := fun k v hk =>
    advance_claim_of_some hq hop hmay ((returned_eq_some_iff h₀.returned hs).mpr ⟨k, hk⟩)
  refine ⟨f, c, a, hleft, hact, ?_, fun k v hk => ⟨hk.after_call hact, hstores k v hk⟩⟩
  constructor
  · rintro ⟨-, hmissing⟩
    by_cases hreturns : ∃ k v, Returns m₀ c a n k v
    · exact Or.inl hreturns
    · refine Or.inr fun k v hk => ?_
      have hfaulted := hmissing fun k v hr => hreturns ⟨k, v, hr⟩
      have hreturned : s.returned = some v := (returned_eq_some_iff h₀.returned hs).mpr ⟨k, hk⟩
      exact (hstores k v hk).advance_ne hreturned hfaulted
  · intro hwhen
    refine ⟨fun k v hr => hstores k v (hr.leftOver hp hstart hact), fun hnever => ?_⟩
    rcases hwhen with ⟨k, v, hr⟩ | hempty
    · exact (hnever k v hr).elim
    · refine advance_claim_of_none hq hop hleft hmay ?_
      cases hreturned : s.returned with
      | none => rfl
      | some v =>
        obtain ⟨k, hk⟩ := (returned_eq_some_iff h₀.returned hs).mp hreturned
        exact (hempty k v hk).elim

/-- `f` calls `g`, drops its result and ends without returning a value of its own; `main` prints
what `f` returned. -/
def discardedResult : List Event :=
  [.declareFunction "g", .setFunctionType (.scalar .int), .pushConstant (.int 7), .returnValue,
    .endFunction, .declareFunction "f", .setFunctionType (.scalar .int), .callFunction "g",
    .endCall, .pushConstant (.bool false), .openConditional, .pushConstant (.int 1), .returnValue,
    .closeConditional, .endFunction,
    .declareFunction "main", .callFunction "f", .endCall, .pushCallResult, .print, .endFunction]

/-- The program of `discardedResult`. -/
def discardedProgram : Program :=
  match (compile .warn (Sizes.uniform 2) discardedResult).1 with
  | .ok (p, _) => p
  | .error _ => Program.ofSizes (Sizes.uniform 2)

theorem compile_discardedResult :
    ∃ names, (compile .warn (Sizes.uniform 2) discardedResult).1 = .ok (discardedProgram,
      names) := by
  obtain ⟨p, names, h⟩ := exists_of_isOk
    (show (compile .warn (Sizes.uniform 2) discardedResult).1.isOk = true by decide +kernel)
  have hp : discardedProgram = p := by
    rw [discardedProgram, h]
  exact ⟨names, hp ▸ h⟩

/-- The first state of `discardedProgram`. -/
def discardedStart : Machine :=
  (ofConsole ⟨9, none, 0⟩ (Console.ofInput []) .warn).startState discardedProgram

theorem start_discardedProgram :
    (ofConsole ⟨9, none, 0⟩ (Console.ofInput []) .warn).start discardedProgram =
      .ok discardedStart :=
  start_eq_startState (by decide +kernel)

/-- The eighth step of that run claims the result of `f`, and does not stop. -/
theorem discarded_claim :
    ∃ s q, discardedStart.after 8 = some s ∧ s.quads[s.ip]? = some q ∧ q.op = .callAssign ∧
    q.left = some (.function "f") ∧ s.MayStep ∧ ∃ s', s.advance = .running s' := by
  obtain ⟨s, hs, hlimit⟩ : ∃ s, discardedStart.after 8 = some s ∧ s.limits.maxSteps = none :=
    ⟨(discardedStart.after 8).get (by decide +kernel), by decide +kernel, by decide +kernel⟩
  have hq : (discardedStart.after 8).bind (fun s => s.quads[s.ip]?.map fun q => (q.op, q.left)) =
      some (.callAssign, some (.function "f")) := by decide +kernel
  have hgoes : (discardedStart.after 9).isSome = true := by decide +kernel
  rw [hs, Option.bind_some, Option.map_eq_some_iff] at hq
  obtain ⟨q, hq, hop⟩ := hq
  obtain ⟨s', hs'⟩ := Option.isSome_iff_exists.mp hgoes
  obtain ⟨t, ht, hstep⟩ := after_succ.mp hs'
  rw [hs] at ht
  cases ht
  refine ⟨s, q, hs, hq, (Prod.mk.inj hop).1, (Prod.mk.inj hop).2, ?_, s', hstep⟩
  intro limit hsome
  rw [hlimit] at hsome
  cases hsome

/-- It follows on an activation of `f` that returned nothing. -/
theorem discarded_activation : ∃ c, Activation discardedStart c "f" 1 8 ∧
    ∀ k v, ¬ Returns discardedStart c 1 8 k v := by
  obtain ⟨c, hc, hheight, hip⟩ : ∃ c, discardedStart.after 1 = some c ∧ c.frames.length = 1 ∧
      c.ip = 10 :=
    ⟨(discardedStart.after 1).get (by decide +kernel),
      by decide +kernel, by decide +kernel, by decide +kernel⟩
  obtain ⟨s, hs, hheight', hip'⟩ : ∃ s, discardedStart.after 8 = some s ∧ s.frames.length = 1 ∧
      s.ip = 11 :=
    ⟨(discardedStart.after 8).get (by decide +kernel),
      by decide +kernel, by decide +kernel, by decide +kernel⟩
  have hinside : ∀ k < 8, 1 < k → (discardedStart.after k).all fun u => 1 < u.frames.length := by
    decide +kernel
  -- on the way only `g` executes a `RETURN`, one frame higher
  have hreturns : ∀ k < 8, 1 < k → (discardedStart.after k).all fun u =>
      u.frames.length = 2 → u.quads[u.ip]?.all fun q => q.op ≠ .returnValue := by decide +kernel
  refine ⟨c, ⟨hc, ?_, by decide, ?_, s, hs, ?_, ?_⟩, ?_⟩
  · rw [hip, (sameProgram_after hc).quads]
    decide +kernel
  · intro k u h1k hk8 hu
    have h := hinside k hk8 h1k
    rw [hu] at h
    rw [hheight]
    exact of_decide_eq_true h
  · rw [hheight, hheight']
  · rw [hip, hip']
  · rintro k v ⟨h1k, hk8, u, q, hu, hown, hq, hop, -⟩
    have h := hreturns k hk8 h1k
    rw [hu] at h
    have h := of_decide_eq_true h (by rw [hown, hheight])
    rw [hq] at h
    exact of_decide_eq_true h hop

theorem claim_is_own_iff_discardedResult :
    ∃ names m₀ s q, (compile .warn (Sizes.uniform 2) discardedResult).1 = .ok (discardedProgram,
      names) ∧
      (ofConsole ⟨9, none, 0⟩ (Console.ofInput []) .warn).start discardedProgram = .ok m₀ ∧
      m₀.after 8 = some s ∧
      s.quads[s.ip]? = some q ∧ q.op = .callAssign ∧ s.MayStep ∧
      ∃ f c a, q.left = some (.function f) ∧ Activation m₀ c f a 8 ∧
        (ClaimsOwn m₀ c s q f a 8 ↔ (∃ k v, Returns m₀ c a 8 k v) ∨ ∀ k v, ¬ LeftOver m₀ k 8 v) ∧
        ∀ k v, LeftOver m₀ k 8 v → a < k ∧ Stores s q v := by
  obtain ⟨names, h⟩ := compile_discardedResult
  obtain ⟨s, q, hs, hq, hop, -, hmay, -⟩ := discarded_claim
  exact ⟨names, discardedStart, s, q, h, start_discardedProgram, hs, hq, hop, hmay,
    claim_is_own_iff h start_discardedProgram hs hq hop hmay⟩

/-- The activation of `f` returned nothing, and still its result is claimed: it is what `g`
returned. -/
theorem claim_of_discarded_result :
    ∃ names m₀ c s q, (compile .warn (Sizes.uniform 2) discardedResult).1 = .ok (discardedProgram,
      names) ∧
      (ofConsole ⟨9, none, 0⟩ (Console.ofInput []) .warn).start discardedProgram = .ok m₀ ∧
      m₀.after 8 = some s ∧
      s.quads[s.ip]? = some q ∧ q.op = .callAssign ∧ q.left = some (.function "f") ∧ s.MayStep ∧
      Activation m₀ c "f" 1 8 ∧ (∀ k v, ¬ Returns m₀ c 1 8 k v) ∧ ¬ ClaimsOwn m₀ c s q "f" 1 8 := by
  obtain ⟨names, h⟩ := compile_discardedResult
  obtain ⟨s, q, hs, hq, hop, hleft, hmay, s', hgoes⟩ := discarded_claim
  obtain ⟨c, hact, hnever⟩ := discarded_activation
  refine ⟨names, discardedStart, c, s, q, h, start_discardedProgram, hs, hq, hop, hleft, hmay, hact,
    hnever, ?_⟩
  rintro ⟨-, hmissing⟩
  rw [hgoes] at hmissing
  cases hmissing hnever

/-- **The way to a claim.** In a compiled program a claim of a result stands right after a call of
its function; no jump leads to it and no function starts at it.  So a run comes to it in one way
only, when an activation ends that was called by the quad before it. -/
theorem claims_are_reached_by_return {threshold : Level} {sizes : Sizes} {events : List Event}
    {p : Program} {names : Names} (h : (compile threshold sizes events).1 = .ok (p, names))
    {j : Nat} {q : Quad} (hq : p.quads[j]? = some q) (hop : q.op = .callAssign) :
    ∃ f t i, j = i + 1 ∧ q = ⟨.callAssign, some (.function f), none, some (.addr t)⟩ ∧
      p.quads[i]? = some ⟨.goSub, some (.function f), none, none⟩ ∧
      (∀ (n : Nat) (q' : Quad), p.quads[n]? = some q' → q'.op = .goto ∨ q'.op = .gotoFalse →
        q'.result ≠ some (.jump j)) ∧
      (∀ id r, p.functions.find? id = some r → r.startQuad ≠ j) ∧
      ∀ (m m₀ : Machine) (n : Nat) (s : Machine), m.start p = .ok m₀ → m₀.after n = some s →
        s.ip = j →
        ∃ c a, c.ip = i ∧ Activation m₀ c f a n := by
  have hp := callsShaped_of_compile h
  obtain ⟨f, t, rfl, i, hi, hcall⟩ := hp.claims j q hq hop
  refine ⟨f, t, i, hi, rfl, hcall, ?_, fun id r => hp.starts j _ id r hq rfl, ?_⟩
  · intro n q' hq' hjump hresult
    refine hp.targets j n _ q' hq rfl hq' ?_
    have hisJump : q'.isJump = true := by simpa [Quad.isJump] using hjump
    rw [Quad.jumpTarget?, hisJump, hresult]
  · intro m m₀ n s hstart hs hip
    have hat : s.quads[s.ip]? = some ⟨.callAssign, some (.function f), none, some (.addr t)⟩ := by
      rw [(loaded_after hstart hs).quads, hip]
      exact hq
    obtain ⟨f', c, a, hleft, hact⟩ := activation_of_claim hp hstart hs hat rfl
    cases hleft
    obtain ⟨s', hs', -, hback⟩ := hact.ended
    rw [hs] at hs'
    cases hs'
    exact ⟨c, a, by omega, hact⟩

/-- `main` of `discardedResult` claims the result of `f` at its second quad, where the eighth step
of the run begins. -/
theorem claims_are_reached_by_return_discardedResult :
    ∃ names q m₀ s c a, (compile .warn (Sizes.uniform 2) discardedResult).1 = .ok (discardedProgram,
      names) ∧
      discardedProgram.quads[11]? = some q ∧ q.op = .callAssign ∧
      (ofConsole ⟨9, none, 0⟩ (Console.ofInput []) .warn).start discardedProgram = .ok m₀ ∧
      m₀.after 8 = some s ∧
      s.ip = 11 ∧ c.ip = 10 ∧ Activation m₀ c "f" a 8 := by
  obtain ⟨names, h⟩ := compile_discardedResult
  obtain ⟨s, q, hs, hq, hop, hleft, -⟩ := discarded_claim
  have hip : (discardedStart.after 8).all (fun s => s.ip = 11) = true := by decide +kernel
  rw [hs] at hip
  have hip : s.ip = 11 := of_decide_eq_true hip
  rw [(loaded_after start_discardedProgram hs).quads, hip] at hq
  obtain ⟨f, t, i, hi, rfl, -, -, -, hreached⟩ := claims_are_reached_by_return h hq hop
  obtain ⟨c, a, hc, hact⟩ := hreached _ _ 8 s start_discardedProgram hs hip
  cases hleft
  exact ⟨names, _, discardedStart, s, c, a, h, hq, rfl, start_discardedProgram, hs, hip,
    by omega, hact⟩

end Quadruple.Machine
