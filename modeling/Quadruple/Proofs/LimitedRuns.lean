/-
  Limits cut runs short and do nothing else.

  With `m₀` for the machine that is ready to run and `m₀.after k` for its state after `k` steps, a
  step limit of `n` means three things:
      m₀.after k = some s  →  k ≤ n                      (no more than `n` quads are executed)
      m₀.after n = some s  →  s.advance is refused       (the next quad has no effect)
      resume (n + 1) m₀ ≠ none                           (so every run ends)
  All three come from one step lemma: a step that goes on found room below the limit and counts one
  (`steps_of_running`, `refused_of_le`).  A run that ends for any other reason than a limit of steps
  or calls ends in the same way under wider limits: that is `resume_alike` for one machine under two
  limits.
-/
import Quadruple.Proofs.Faults
import Quadruple.Proofs.Lockstep
import Quadruple.Proofs.Script

namespace Quadruple.Machine

variable {m m' : Machine} {n : Nat} {e : RuntimeError}

/-! ## The count of steps -/

/-- Neither the count of steps nor the limits change. -/
def KeepsCount (m m' : Machine) : Prop := m'.steps = m.steps ∧ m'.limits = m.limits

instance : IsPreorder Machine KeepsCount where
  refl _ := ⟨rfl, rfl⟩
  trans _ _ _ h₁ h₂ := ⟨h₂.1.trans h₁.1, h₂.2.trans h₁.2⟩

theorem keepsCount_writeSlot {address : Nat} {v : Option Value}
    (h : m.writeSlot address v = .ok m') : KeepsCount m m' := by
  obtain ⟨_, _, _, -, -, -, rfl⟩ | ⟨_, _, _, _, _, -, -, -, -, rfl⟩ | ⟨_, _, -, rfl⟩ :=
    writeSlot_eq_ok h
  · exact ⟨rfl, rfl⟩
  · exact ⟨rfl, rfl⟩
  · exact ⟨rfl, rfl⟩

theorem Touch.keepsCount (h : Touch m m') : KeepsCount m m' := by
  cases h with
  | write hw => exact keepsCount_writeSlot hw
  | _ => exact ⟨rfl, rfl⟩

/-- No quad counts steps. -/
theorem keepsCount_execute (q : Quad) : Moves KeepsCount (Exec.execute q) :=
  Exec.moves_execute_of_touch Touch.keepsCount (fun _ _ _ _ _ => ⟨rfl, rfl⟩) q

/-- A step that goes on found a quad and room for it below the limit, and counts one. -/
theorem steps_of_running (h : m.advance = .running m') :
    m.MayStep ∧ m'.steps = m.steps + 1 ∧ m'.limits = m.limits := by
  obtain ⟨flow, m₁, hstep, hgoes⟩ := yields_of_running h
  obtain ⟨q, -, hmay, hexec⟩ := yields_step hstep
  obtain ⟨hsteps, hlimits⟩ : KeepsCount (m.reached q) m₁ := (keepsCount_execute q).of_yields hexec
  refine ⟨hmay, ?_⟩
  obtain ⟨-, rfl⟩ | ⟨target, -, rfl⟩ := hgoes
  · exact ⟨hsteps, hlimits⟩
  · exact ⟨hsteps, hlimits⟩

/-- After `n` steps the count is `n` more. -/
theorem steps_after {s : Machine} (hs : m.after n = some s) : s.steps = m.steps + n := by
  induction n generalizing s with
  | zero =>
    cases hs
    rfl
  | succ n ih =>
    obtain ⟨t, ht, hstep⟩ := after_succ.mp hs
    obtain ⟨-, hsteps, -⟩ := steps_of_running hstep
    have := ih ht
    omega

/-- The steps that a run takes fit below its limit: the last of them found room. -/
theorem steps_le_of_after {k : Nat} {s : Machine} (hlimit : m.limits.maxSteps = some n)
    (hle : m.steps ≤ n) (hs : m.after k = some s) : m.steps + k ≤ n := by
  cases k with
  | zero => exact hle
  | succ k =>
    obtain ⟨t, ht, hstep⟩ := after_succ.mp hs
    have hroom := (steps_of_running hstep).1 n (by rw [(sameProgram_after ht).limits, hlimit])
    rw [steps_after ht] at hroom
    omega

/-- Without room below the limit a quad is refused: only the count changes. -/
theorem refused_of_le {q : Quad} (hlimit : m.limits.maxSteps = some n) (hle : n ≤ m.steps)
    (hq : m.quads[m.ip]? = some q) :
    ∃ e, m.advance = .faulted e { m with steps := m.steps + 1 } ∧ e.fault = .stepLimit n :=
  ⟨_, advance_of_fails (step_eq_limit hq hlimit hle), rfl⟩

/-- A run with a step limit ends. -/
theorem exists_resume (hlimit : m.limits.maxSteps = some n) :
    ∃ result m₁, resume (n - m.steps + 1) m = some (result, m₁) := by
  -- by induction on the room that is left, which a step that goes on uses up by one
  induction hroom : n - m.steps generalizing m with
  | zero =>
    rw [resume]
    split
    · rename_i hrunning
      have := (steps_of_running hrunning).1 n hlimit
      omega
    · exact ⟨_, _, rfl⟩
    · exact ⟨_, _, rfl⟩
  | succ room ih =>
    rw [resume]
    split
    · rename_i m' hrunning
      obtain ⟨-, hsteps, hlimits⟩ := steps_of_running hrunning
      exact ih (m := m') (by rw [hlimits, hlimit]) (by omega)
    · exact ⟨_, _, rfl⟩
    · exact ⟨_, _, rfl⟩

/-- Only the count makes a step stop at the step limit, and then the step does nothing else. -/
theorem advance_stepLimit (h : m.advance = .faulted e m') (he : e.fault = .stepLimit n) :
    m.limits.maxSteps = some n ∧ n ≤ m.steps ∧ m' = { m with steps := m.steps + 1 } := by
  obtain ⟨-, hfault⟩ | ⟨q, hq, -⟩ := faulted_cases h
  · rw [he] at hfault
    cases hfault
  · by_cases hmay : m.MayStep
    · obtain ⟨-, hfault⟩ | hfault := faulted_of_mayStep hq hmay h
      · rw [he] at hfault
        cases hfault
      · rw [he] at hfault
        cases hfault
    · rw [MayStep, Classical.not_forall] at hmay
      obtain ⟨limit, hmay⟩ := hmay
      rw [Classical.not_imp] at hmay
      obtain ⟨hlimit, hle⟩ := hmay
      have hle := Nat.le_of_not_lt hle
      obtain ⟨e', hadvance, he'⟩ := refused_of_le hlimit hle hq
      rw [hadvance] at h
      cases h
      rw [he'] at he
      cases he
      exact ⟨hlimit, hle, rfl⟩

/-- A run that the step limit stops took as many steps as the limit allows, and is left as they made
it, with the refused step counted. -/
theorem resume_stepLimit {m₀ m₁ : Machine} {budget : Nat} (hzero : m₀.steps = 0)
    (h : resume budget m₀ = some (.error e, m₁)) (he : e.fault = .stepLimit n) :
    m₀.limits.maxSteps = some n ∧ ∃ s, m₀.after n = some s ∧ m₁ = { s with steps := n + 1 } := by
  obtain ⟨k, s, -, hs, ⟨-, hok⟩ | ⟨e', hfaulted, heq⟩⟩ := resume_eq_some h
  · cases hok
  · cases heq
    obtain ⟨hlimit, hle, rfl⟩ := advance_stepLimit hfaulted he
    rw [(sameProgram_after hs).limits] at hlimit
    -- the steps so far are at most `n` by the limit, and at least `n` since the next one is refused
    have hsteps := steps_after hs
    have hbound := steps_le_of_after hlimit (by omega) hs
    obtain rfl : k = n := by omega
    refine ⟨hlimit, s, hs, ?_⟩
    rw [hsteps, hzero, Nat.zero_add]

/-! ## Wider limits -/

/-- A larger budget does not change an answer. -/
theorem run_of_le {p : Program} {budget budget' : Nat} {r : Except RuntimeError Unit × Machine}
    (h : m.run budget p = some r) (hle : budget ≤ budget') : m.run budget' p = some r := by
  unfold run at h ⊢
  split at h
  · exact h
  rename_i m₀ _
  obtain ⟨result, m₁⟩ := r
  obtain ⟨n, s, hn, hs, hends⟩ := resume_eq_some h
  rw [show budget' = n + ((budget' - n - 1) + 1) by omega, resume_of_after hs]
  exact resume_of_ends hends _

/-- For every machine and program.  Under a step limit of `n` a run takes at most `n` steps that go
on, the quad that stands next after `n` of them is refused and changes nothing but the count, and
every run ends.  A run that ends by the step limit took exactly as many steps as that limit says.  A
run that ends other than by a limit of steps or calls ends in the same way under wider limits, with
the same output, count of steps, frames and heap. -/
theorem limits_only_cut_short (m : Machine) (p : Program) :
    (∀ n m₀, m.limits.maxSteps = some n → m.start p = .ok m₀ →
      (∀ k s, m₀.after k = some s → k ≤ n) ∧
      (∀ s q, m₀.after n = some s → s.quads[s.ip]? = some q →
        ∃ e, s.advance = .faulted e { s with steps := n + 1 } ∧ e.fault = .stepLimit n) ∧
      ∃ result m₁, m.run (n + 1) p = some (result, m₁)) ∧
    (∀ n m₀ budget e m₁, m.start p = .ok m₀ → m.run budget p = some (.error e, m₁) →
      e.fault = .stepLimit n →
      m.limits.maxSteps = some n ∧ ∃ s, m₀.after n = some s ∧ m₁ = { s with steps := n + 1 }) ∧
    ∀ limits budget budget' result m₁, m.limits.Widens limits → m.run budget p = some (result, m₁) →
      (∀ e, result = .error e → e.fault.isLimit = false) → budget ≤ budget' →
      ∃ m₂, { m with limits := limits }.run budget' p = some (result, m₂) ∧
        m₂.console = m₁.console ∧
        m₂.steps = m₁.steps ∧ m₂.frames = m₁.frames ∧ m₂.heap = m₁.heap := by
  refine ⟨?_, ?_, ?_⟩
  · intro n m₀ hlimit hstart
    obtain ⟨main, h₀⟩ := exists_started hstart
    have hlimit₀ : m₀.limits.maxSteps = some n := by rw [h₀.limits, hlimit]
    refine ⟨?_, ?_, ?_⟩
    · intro k s hs
      have hzero := h₀.steps
      have := steps_le_of_after hlimit₀ (by omega) hs
      omega
    · intro s q hs hq
      have hsteps : s.steps = n := by rw [steps_after hs, h₀.steps, Nat.zero_add]
      have hrefused := refused_of_le (m := s) (by rw [(sameProgram_after hs).limits, hlimit₀])
        (Nat.le_of_eq hsteps.symm) hq
      rwa [hsteps] at hrefused
    · have hends := exists_resume hlimit₀
      rw [h₀.steps, Nat.sub_zero] at hends
      rw [run, hstart]
      exact hends
  · intro n m₀ budget e m₁ hstart hrun he
    obtain ⟨main, h₀⟩ := exists_started hstart
    rw [run, hstart] at hrun
    rw [← h₀.limits]
    exact resume_stepLimit h₀.steps hrun he
  · intro limits budget budget' result m₁ hwiden hrun hother hle
    suffices h : ∃ m₂, { m with limits := limits }.run budget p = some (result, m₂) ∧
      m₂.console = m₁.console ∧
        m₂.steps = m₁.steps ∧ m₂.frames = m₁.frames ∧ m₂.heap = m₁.heap by
      obtain ⟨m₂, hrun', hsame⟩ := h
      exact ⟨m₂, run_of_le hrun' hle, hsame⟩
    have hconsole :
        { m with limits := limits }.console = { m.console with output := m.console.output } := rfl
    cases hstart : m.start p with
    | error f =>
      -- a program that is refused is refused in the same way
      obtain ⟨f', hf, hf'⟩ | ⟨m₀, m₀', hm₀, -⟩ := start_alike p hwiden.heapSize hconsole
      · rw [hstart] at hf
        cases hf
        unfold run at hrun ⊢
        rw [hstart] at hrun
        rw [hf']
        cases hrun
        exact ⟨_, rfl, rfl, rfl, rfl, rfl⟩
      · rw [hstart] at hm₀
        cases hm₀
    | ok m₀ =>
      obtain ⟨e, s, hcut, hlimit, -⟩ | hsame := run_alike budget hwiden hconsole hstart
      · rw [hrun] at hcut
        cases hcut
        rw [hother e rfl] at hlimit
        cases hlimit
      · rw [hrun] at hsame
        obtain ⟨m₂, hrun', halike⟩ := hsame.of_some
        refine ⟨m₂, hrun', ?_⟩
        obtain ⟨k, journal, journal', written⟩ := halike
        exact ⟨rfl, rfl, rfl, rfl⟩

/-- `f` calls itself once, and `main` prints what it returns. -/
def callTwice : List Event :=
  [.declareFunction "f", .setFunctionType (.scalar .int), .declareParam "n" (.scalar .bool),
    .pushVariable "n", .openConditional, .callFunction "f", .pushConstant (.bool false),
    .pushCallArgument 0, .endCall, .pushCallResult,
    .returnValue, .closeConditional, .pushConstant (.int 7), .returnValue, .endFunction,
    .declareFunction "main", .callFunction "f", .pushConstant (.bool true), .pushCallArgument 0,
    .endCall, .pushCallResult, .print, .endFunction]

/-- The program of `callTwice`. -/
def callTwiceProgram : Program := programOf .warn (Sizes.uniform 2) callTwice

theorem limits_only_cut_short_callTwice :
    (∃ m₀ e m₁, (ofConsole ⟨3, some 15, 0⟩ (Console.ofInput []) .warn).start callTwiceProgram =
      .ok m₀ ∧
      (ofConsole ⟨3, some 15, 0⟩ (Console.ofInput []) .warn).run 20 callTwiceProgram =
        some (.error e, m₁) ∧
      e.fault = .stepLimit 15 ∧ (∀ k s, m₀.after k = some s → k ≤ 15) ∧
      ∃ s, m₀.after 15 = some s ∧ m₁ = { s with steps := 16 }) ∧
    ∃ m₁ m₂, (ofConsole ⟨3, some 16, 0⟩ (Console.ofInput []) .warn).run 20 callTwiceProgram =
      some (.ok (), m₁) ∧
      Limits.Widens ⟨3, some 16, 0⟩ ⟨9, none, 0⟩ ∧
      (ofConsole ⟨9, none, 0⟩ (Console.ofInput []) .warn).run 25 callTwiceProgram = some (.ok (),
        m₂) ∧
      m₂.console = m₁.console ∧ m₂.steps = m₁.steps ∧ m₂.frames = m₁.frames ∧
      m₂.heap = m₁.heap := by
  constructor
  · obtain ⟨e, m₁, hrun, hfault⟩ := stoppedBy?_eq_some (f := .stepLimit 15)
      (r := (ofConsole ⟨3, some 15, 0⟩ (Console.ofInput []) .warn).run 20 callTwiceProgram)
      (by decide +kernel)
    have hstart := start_eq_startState (m := ofConsole ⟨3, some 15, 0⟩ (Console.ofInput []) .warn)
      (p := callTwiceProgram) (by decide +kernel)
    obtain ⟨hfew, hstops, -⟩ :=
      limits_only_cut_short (ofConsole ⟨3, some 15, 0⟩ (Console.ofInput []) .warn) callTwiceProgram
    exact ⟨_, e, m₁, hstart, hrun, hfault, (hfew 15 _ rfl hstart).1,
      (hstops 15 _ 20 e m₁ hstart hrun hfault).2⟩
  · obtain ⟨m₁, hrun⟩ := endedNormally_eq_true
      (r := (ofConsole ⟨3, some 16, 0⟩ (Console.ofInput []) .warn).run 20 callTwiceProgram)
      (by decide +kernel)
    have hwiden : Limits.Widens ⟨3, some 16, 0⟩ ⟨9, none, 0⟩ :=
      ⟨rfl, by decide, fun _ h => by cases h⟩
    obtain ⟨-, -, hwider⟩ :=
      limits_only_cut_short (ofConsole ⟨3, some 16, 0⟩ (Console.ofInput []) .warn) callTwiceProgram
    obtain ⟨m₂, hrun', hsame⟩ :=
      hwider ⟨9, none, 0⟩ 20 25 (.ok ()) m₁ hwiden hrun (fun _ h => by cases h) (by decide)
    exact ⟨m₁, m₂, hrun, hwiden, hrun', hsame⟩

end Quadruple.Machine
