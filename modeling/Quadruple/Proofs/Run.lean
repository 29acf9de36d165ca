/-
  Runs as sequences of states.

  `m.after n` is the state after `n` steps, as long as the run goes on that far.  These are the
  states that `resume` passes through (`resume_of_after`), and a run that ends does so from the last
  of them (`resume_eq_some`).  What every step keeps holds at every moment (`after_induction`):

      m.after n = some s  →  resume (n + k) m = resume k s
      P m  →  (∀ s s', P s → s.advance = running s' → P s')  →  m.after n = some s  →  P s
-/
import Quadruple.Proofs.Transition

namespace Quadruple.Machine

variable {m s m' : Machine} {n : Nat} {result : Except RuntimeError Unit} {p : Program}
  {r : Option (Except RuntimeError Unit × Machine)}

/-- The state after `n` steps, if the run goes on that far. -/
def after (m : Machine) : Nat → Option Machine
  | 0 => some m
  | n + 1 =>
    match m.after n with
    | none => none
    | some s =>
      match s.advance with
      | .running s' => some s'
      | _ => none

/-- One step more is a step of the state before. -/
theorem after_succ {s' : Machine} :
    m.after (n + 1) = some s' ↔ ∃ s, m.after n = some s ∧ s.advance = .running s' := by
  rw [after]
  constructor
  · intro h
    split at h
    · cases h
    · rename_i s hs
      split at h
      · rename_i t ht
        cases h
        exact ⟨s, hs, ht⟩
      · cases h
  · rintro ⟨s, hs, ht⟩
    rw [hs]
    dsimp only
    rw [ht]

/-- Steps add up. -/
theorem after_add {m s : Machine} {n : Nat} (hs : m.after n = some s) :
    ∀ k, m.after (n + k) = s.after k
  | 0 => hs
  | k + 1 => by
    rw [← Nat.add_assoc, after, after, after_add hs k]

/-- Every moment before one that is reached is reached. -/
theorem exists_after_of_le {k : Nat} (hs : m.after n = some s) (hk : k ≤ n) :
    ∃ t, m.after k = some t := by
  induction n generalizing s with
  | zero =>
    obtain rfl : k = 0 := by omega
    exact ⟨s, hs⟩
  | succ n ih =>
    rcases Nat.lt_or_eq_of_le hk with hlt | heq
    · obtain ⟨t, ht, -⟩ := after_succ.mp hs
      exact ih ht (by omega)
    · subst heq
      exact ⟨s, hs⟩

/-- What the first state has and every step keeps, every state of the run has. -/
theorem after_induction {P : Machine → Prop} (hm : P m)
    (hstep : ∀ {s s' : Machine}, P s → s.advance = .running s' → P s') (hs : m.after n = some s) :
    P s := by
  induction n generalizing s with
  | zero =>
    cases hs
    exact hm
  | succ n ih =>
    obtain ⟨t, ht, hts⟩ := after_succ.mp hs
    exact hstep (ih ht) hts

/-- The program, the limits and the constants stay what they were when the run began. -/
theorem sameProgram_after (hs : m.after n = some s) : SameProgram m s := by
  refine after_induction (P := SameProgram m) (refl_of SameProgram m) ?_ hs
  intro s s' h hstep
  obtain ⟨-, -, hsame, -⟩ := advance_running hstep
  exact trans_of SameProgram h hsame

/-! ## The states of `resume` -/

/-- A run may be taken up from every state on its way. -/
theorem resume_of_after (hs : m.after n = some s) (k : Nat) : resume (n + k) m = resume k s := by
  induction n generalizing m with
  | zero =>
    cases hs
    rw [Nat.zero_add]
  | succ n ih =>
    have hfirst : ∃ t, m.after 1 = some t := exists_after_of_le hs (by omega)
    obtain ⟨t, ht⟩ := hfirst
    have hadv : m.advance = .running t := by
      obtain ⟨m', hm', hadv⟩ := after_succ.mp ht
      cases hm'
      exact hadv
    have hts : t.after n = some s := by
      rw [← after_add ht n, Nat.add_comm]
      exact hs
    rw [show n + 1 + k = (n + k) + 1 by omega, resume, hadv]
    exact ih hts

/-- How a run ends: normally with the last step, or with an error. -/
def Ends (s : Machine) (result : Except RuntimeError Unit) (m' : Machine) : Prop :=
  (s.advance = .halted m' ∧ result = .ok ()) ∨ ∃ e, s.advance = .faulted e m' ∧ result = .error e

/-- A state that ends needs one unit more of the budget. -/
theorem resume_of_ends (h : s.Ends result m') (k : Nat) : resume (k + 1) s = some (result, m') := by
  rw [resume]
  obtain ⟨hadv, rfl⟩ | ⟨e, hadv, rfl⟩ := h
  · rw [hadv]
  · rw [hadv]

/-- A run that ends within a budget ends from a state that it reached. -/
theorem resume_eq_some {budget : Nat} (h : resume budget m = some (result, m')) :
    ∃ n s, n < budget ∧ m.after n = some s ∧ s.Ends result m' := by
  induction budget generalizing m with
  | zero => cases h
  | succ budget ih =>
    rw [resume] at h
    split at h
    · rename_i t ht
      obtain ⟨n, s, hn, hs, hends⟩ := ih h
      refine ⟨n + 1, s, by omega, ?_, hends⟩
      have h1 : m.after 1 = some t := after_succ.mpr ⟨m, rfl, ht⟩
      rw [Nat.add_comm, after_add h1 n]
      exact hs
    · rename_i t ht
      cases h
      exact ⟨0, m, by omega, rfl, Or.inl ⟨ht, rfl⟩⟩
    · rename_i e t ht
      cases h
      exact ⟨0, m, by omega, rfl, Or.inr ⟨e, ht, rfl⟩⟩

/-- A run that has gone on for as many steps as its budget has no answer yet. -/
theorem resume_eq_none (hs : m.after n = some s) : resume n m = none := by
  have h := resume_of_after hs 0
  rw [Nat.add_zero] at h
  rw [h, resume]

/-! ## The first state -/

/-- The machine has the program in it. -/
structure Loaded (p : Program) (s : Machine) : Prop where
  quads : s.quads = p.quads
  functions : s.functions = p.functions
  layout : s.layout = p.layout
  constants : s.constants = p.constants.mapValues (·.value)

/-- A run starts at the entry point, in a frame of its own, with no step taken and nothing to claim.
The sizes and the rows of both frames can then be counted in words. -/
structure Started (m : Machine) (p : Program) (main : Routine) (m₀ : Machine) : Prop
    extends Loaded p m₀ where
  entry : p.main? = some main
  ip : m₀.ip = main.startQuad
  limits : m₀.limits = m.limits
  console : m₀.console = m.console
  frames : m₀.frames = [Frame.ofCounts Program.entryPoint main.slots]
  returns : m₀.returns = []
  returned : m₀.returned = none
  steps : m₀.steps = 0
  pending : m₀.pending = []
  globals : m₀.globals = Frame.ofCounts globalScope p.globals
  addressable : p.sizes.Addressable
  countable : p.globals.countable = true ∧ main.slots.countable = true

theorem exists_started {m₀ : Machine} (h : m.start p = .ok m₀) : ∃ main, Started m p main m₀ := by
  unfold start at h
  split at h
  · cases h
  rename_i ip m₁ hload
  cases h
  unfold load at hload
  dsimp only at hload
  split at hload
  · cases hload
  rename_i hsizes
  split at hload
  · cases hload
  split at hload
  · cases hload
  rename_i main hmain
  split at hload
  · cases hload
  rename_i hcounts
  cases hload
  rw [Bool.not_eq_true, Bool.not_eq_false', Bool.and_eq_true] at hcounts
  exact ⟨main, ⟨rfl, rfl, rfl, rfl⟩, hmain, rfl, rfl, rfl, rfl, rfl, rfl, rfl, rfl, rfl,
    Decidable.not_not.mp hsizes, hcounts⟩

/-- What was loaded stays loaded. -/
theorem loaded_after {m₀ : Machine} (hstart : m.start p = .ok m₀) (hs : m₀.after n = some s) :
    s.Loaded p := by
  obtain ⟨main, h₀⟩ := exists_started hstart
  have hsame := sameProgram_after hs
  exact ⟨hsame.quads.trans h₀.quads, hsame.functions.trans h₀.functions,
    hsame.layout.trans h₀.layout, hsame.constants.trans h₀.constants⟩

/-- A run that cannot start has no entry point, the wrong layout, or more slots than a word counts.
-/
theorem start_eq_error {f : Fault} (h : m.start p = .error f) :
    f = .internal .noEntryPoint ∨
      f = .internal (.heapStartMismatch p.heapStart p.layout.heapStart) ∨
      f = .overflow := by
  unfold start load at h
  dsimp only at h
  split at h
  · rename_i f' hload
    cases h
    split at hload
    · cases hload
      exact Or.inr (Or.inr rfl)
    · split at hload
      · cases hload
        exact Or.inr (Or.inl rfl)
      · split at hload
        · cases hload
          exact Or.inl rfl
        · split at hload
          · cases hload
            exact Or.inr (Or.inr rfl)
          · cases hload
  · cases h

/-- A run that stops with an error could not start, or stops from a state that it reached. -/
theorem run_eq_error {budget : Nat} {e : RuntimeError} (h : m.run budget p = some (.error e, m')) :
    m.start p = .error e.fault ∨
      ∃ m₀ n s, m.start p = .ok m₀ ∧ m₀.after n = some s ∧ s.advance = .faulted e m' := by
  unfold run at h
  split at h
  · rename_i f hf
    cases h
    exact Or.inl hf
  · rename_i m₀ hstart
    obtain ⟨n, s, -, hs, ⟨-, hok⟩ | ⟨e', hfaulted, he⟩⟩ := resume_eq_some h
    · cases hok
    · cases he
      exact Or.inr ⟨m₀, n, s, hstart, hs, hfaulted⟩

/-- The first state of a run, for a program that can be loaded. -/
def startState (m : Machine) (p : Program) : Machine :=
  match m.start p with
  | .ok m₀ => m₀
  | .error _ => m

/-- A start that succeeds ends in the start state. -/
theorem start_eq_startState (h : (m.start p).isOk = true) : m.start p = .ok (m.startState p) := by
  unfold startState
  split
  · rename_i m₀ hm₀
    exact hm₀
  · rename_i f hf
    rw [hf] at h
    cases h

/-- The quad that the next step executes has this opcode. -/
def Executes (s : Machine) (op : Opcode) : Prop := ∃ q, s.quads[s.ip]? = some q ∧ q.op = op

/-! ## Answers -/

/-- The fault that an answer reports, if it is the answer of a run that stopped. -/
def stoppedBy? : Option (Except RuntimeError Unit × Machine) → Option Fault
  | some (.error e, _) => some e.fault
  | _ => none

theorem stoppedBy?_eq_some {f : Fault} (h : stoppedBy? r = some f) :
    ∃ e m, r = some (.error e, m) ∧ e.fault = f := by
  unfold stoppedBy? at h
  split at h
  · rename_i e m
    cases h
    exact ⟨e, m, rfl, rfl⟩
  · cases h

/-- Whether an answer is that of a run that ended normally. -/
def endedNormally : Option (Except RuntimeError Unit × Machine) → Bool
  | some (.ok (), _) => true
  | _ => false

theorem endedNormally_eq_true (h : endedNormally r = true) : ∃ m, r = some (.ok (), m) := by
  unfold endedNormally at h
  split at h
  · rename_i m
    exact ⟨m, rfl⟩
  · cases h

end Quadruple.Machine
