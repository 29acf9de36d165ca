/-
  Pieces of a run, put together.

  Code that does its work in a number of steps that does not depend on the machine it runs on is
  described by where it leads (`Reaches`), how it stops (`Stops`) or how long it goes on at least
  (`Lasts`).  Pieces of code that follow one another compose, and so do these descriptions:

      Reaches P Q  =  ∃ k, ∀ m, P m → m.Room k → ∃ m', m.Passes k m' ∧ Q m m'

  The number of steps matters only for the step limit: a machine must have room for them.
-/
import Quadruple.Proofs.Run

namespace Quadruple.Machine

variable {m m₁ : Machine} {k n : Nat} {F : Machine → Fault → Machine → Prop}

/-! ## Passing from state to state -/

/-- The step limit, if there is one, allows so many steps more. -/
def Room (m : Machine) (k : Nat) : Prop :=
  ∀ limit, m.limits.maxSteps = some limit → m.steps + k ≤ limit

theorem Room.mono (h : m.Room n) (hk : k ≤ n) : m.Room k := by
  intro limit hlimit
  have := h limit hlimit
  omega

/-- So many steps lead from one state to another, and are counted. -/
structure Passes (m : Machine) (k : Nat) (m' : Machine) : Prop where
  after : m.after k = some m'
  steps : m'.steps = m.steps + k
  limits : m'.limits = m.limits

theorem Passes.refl (m : Machine) : m.Passes 0 m := ⟨rfl, rfl, rfl⟩

/-- Passages add up. -/
theorem Passes.trans {m₂ m₃ : Machine} (h₁ : m₁.Passes k m₂) (h₂ : m₂.Passes n m₃) :
    m₁.Passes (k + n) m₃ := by
  refine ⟨?_, ?_, h₂.limits.trans h₁.limits⟩
  · rw [after_add h₁.after]
    exact h₂.after
  · rw [h₂.steps, h₁.steps]
    omega

/-- A passage uses up its own steps of the room. -/
theorem Passes.room {m' : Machine} (h : m.Passes k m') (hm : m.Room (k + n)) : m'.Room n := by
  intro limit hlimit
  rw [h.limits] at hlimit
  have := hm limit hlimit
  rw [h.steps]
  omega

/-- From every state with `P`, the same number of steps leads to one with `Q`, given room for them.
-/
def Reaches (P : Machine → Prop) (Q : Machine → Machine → Prop) : Prop :=
  ∃ k, ∀ m, P m → m.Room k → ∃ m', m.Passes k m' ∧ Q m m'

/-- From every state with `P`, the step after the same number of steps faults, given room for them.
-/
def Stops (P : Machine → Prop) (Q : Machine → Fault → Machine → Prop) : Prop :=
  ∃ k, ∀ m, P m → m.Room (k + 1) → ∃ m₁ e m', m.Passes k m₁ ∧ m₁.advance = .faulted e m' ∧
    Q m e.fault m'

/-- From every state with `P`, execution goes on for at least `n` steps, given room for them. -/
def Lasts (n : Nat) (P : Machine → Prop) : Prop :=
  ∃ k, n ≤ k ∧ ∀ m, P m → m.Room k → ∃ m', m.Passes k m'

variable {P P' : Machine → Prop} {Q Q' : Machine → Machine → Prop}

/-- What is reached from what was reached is reached. -/
theorem Reaches.trans (h : Reaches P Q) (hP : ∀ m m', P m → Q m m' → P' m') (h' : Reaches P' Q') :
    Reaches P (fun m m'' => ∃ m', Q m m' ∧ Q' m' m'') := by
  obtain ⟨k, h⟩ := h
  obtain ⟨n, h'⟩ := h'
  refine ⟨k + n, fun m hm hroom => ?_⟩
  obtain ⟨m₁, hpass, hQ⟩ := h m hm (hroom.mono (by omega))
  obtain ⟨m₂, hpass', hQ'⟩ := h' m₁ (hP m m₁ hm hQ) (hpass.room hroom)
  exact ⟨m₂, hpass.trans hpass', m₁, hQ, hQ'⟩

/-- A run that reaches a stop stops. -/
theorem Reaches.stops (h : Reaches P Q) (hP : ∀ m m', P m → Q m m' → P' m') (h' : Stops P' F) :
    Stops P (fun m f m'' => ∃ m', Q m m' ∧ F m' f m'') := by
  obtain ⟨k, h⟩ := h
  obtain ⟨n, h'⟩ := h'
  refine ⟨k + n, fun m hm hroom => ?_⟩
  obtain ⟨m₁, hpass, hQ⟩ := h m hm (hroom.mono (by omega))
  have hroom' : m₁.Room (n + 1) := hpass.room (by rw [← Nat.add_assoc]; exact hroom)
  obtain ⟨m₂, e, m', hpass', hfault, hF⟩ := h' m₁ (hP m m₁ hm hQ) hroom'
  exact ⟨m₂, e, m', hpass.trans hpass', hfault, m₁, hQ, hF⟩

/-- A run that reaches one that lasts, lasts. -/
theorem Reaches.lasts (h : Reaches P Q) (hP : ∀ m m', P m → Q m m' → P' m') (h' : Lasts n P') :
    Lasts n P := by
  obtain ⟨k, h⟩ := h
  obtain ⟨l, hl, h'⟩ := h'
  refine ⟨k + l, by omega, fun m hm hroom => ?_⟩
  obtain ⟨m₁, hpass, hQ⟩ := h m hm (hroom.mono (by omega))
  obtain ⟨m₂, hpass'⟩ := h' m₁ (hP m m₁ hm hQ) (hpass.room hroom)
  exact ⟨m₂, hpass.trans hpass'⟩

theorem Reaches.mono (h : Reaches P Q) (hP : ∀ m, P' m → P m)
    (hQ : ∀ m m', P' m → Q m m' → Q' m m') : Reaches P' Q' := by
  obtain ⟨k, h⟩ := h
  refine ⟨k, fun m hm hroom => ?_⟩
  obtain ⟨m', hpass, hQm⟩ := h m (hP m hm) hroom
  exact ⟨m', hpass, hQ m m' hm hQm⟩

theorem Stops.mono {F' : Machine → Fault → Machine → Prop} (h : Stops P F) (hP : ∀ m, P' m → P m)
    (hF : ∀ m f m', P' m → F m f m' → F' m f m') : Stops P' F' := by
  obtain ⟨k, h⟩ := h
  refine ⟨k, fun m hm hroom => ?_⟩
  obtain ⟨m₁, e, m', hpass, hfault, hFm⟩ := h m (hP m hm) hroom
  exact ⟨m₁, e, m', hpass, hfault, hF m e.fault m' hm hFm⟩

/-- Where no state can be reached, anything may be said of how execution stops. -/
theorem Reaches.absurd (h : Reaches P Q) (hQ : ∀ m m', Q m m' → False) : Stops P F := by
  obtain ⟨k, h⟩ := h
  refine ⟨k, fun m hm hroom => ?_⟩
  obtain ⟨m', -, hQm⟩ := h m hm (hroom.mono (by omega))
  exact (hQ m m' hQm).elim

theorem Lasts.mono {l : Nat} (h : Lasts l P) (hn : n ≤ l) : Lasts n P := by
  obtain ⟨k, hk, h⟩ := h
  exact ⟨k, by omega, h⟩

/-- A step taken first is one more. -/
theorem lasts_succ (h : ∀ m, P m → m.Room 1 → ∃ m', m.Passes 1 m' ∧ P' m') (h' : Lasts n P') :
    Lasts (n + 1) P := by
  obtain ⟨l, hl, h'⟩ := h'
  refine ⟨1 + l, by omega, fun m hm hroom => ?_⟩
  obtain ⟨m₁, hpass, hP'⟩ := h m hm (hroom.mono (by omega))
  obtain ⟨m₂, hpass'⟩ := h' m₁ hP' (hpass.room hroom)
  exact ⟨m₂, hpass.trans hpass'⟩

theorem reaches_refl (h : ∀ m, P m → Q m m) : Reaches P Q := ⟨0, fun m hm _ => ⟨m, .refl m, h m hm⟩⟩

/-! ## Single quads -/

/-- Room for a step is leave to take it. -/
theorem mayStep_of_room (h : m.Room 1) : m.MayStep := by
  intro limit hlimit
  have := h limit hlimit
  omega

/-- A quad that succeeds and does not touch the counting passes to where its flow leads. -/
theorem passes_of_execute {q : Quad} {flow : Flow} (hq : m.quads[m.ip]? = some q) (hroom : m.Room 1)
    (h : Yields (Exec.execute q) (m.reached q) flow m₁) (hsteps : m₁.steps = m.steps + 1)
    (hlimits : m₁.limits = m.limits) :
    (flow = .next → m.Passes 1 { m₁ with ip := m₁.ip + 1 }) ∧
      ∀ target, flow = .jump target → m.Passes 1 { m₁ with ip := target } := by
  have hstep : Yields Exec.step m flow m₁ := (step_eq_execute hq (mayStep_of_room hroom)).trans h
  have hadvance := advance_of_yields hstep
  refine ⟨?_, ?_⟩
  · rintro rfl
    exact ⟨after_succ.mpr ⟨m, rfl, hadvance⟩, hsteps, hlimits⟩
  · rintro target rfl
    exact ⟨after_succ.mpr ⟨m, rfl, hadvance⟩, hsteps, hlimits⟩

/-- A quad that fails ends the run with its fault. -/
theorem faulted_of_execute {q : Quad} {f : Fault} (hq : m.quads[m.ip]? = some q) (hroom : m.Room 1)
    (h : Fails (Exec.execute q) (m.reached q) f m₁) : m.advance = .faulted (m₁.errorOf f) m₁ :=
  advance_of_fails ((step_eq_execute hq (mayStep_of_room hroom)).trans h)

end Quadruple.Machine
