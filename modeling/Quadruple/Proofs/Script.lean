/-
  Scripts that are accepted.

  A compilation that gives a program accepted every event, one after another (`Accepts`), and then
  its end.  What the first generator has and every accepted event keeps, the last generator has
  (`Accepts.induction`); this is the induction behind every property of compiled programs:

      P [] g  →  (P done g → Yields (apply e) g () g' → P (done ++ [e]) g')  →  P events g'
-/
import Quadruple.Proofs.Control

namespace Quadruple

variable {events before : List Event} {g g' g'' : Generator} {threshold : Level} {sizes : Sizes}

/-- The events are accepted one after another, from the first generator to the last. -/
inductive Accepts : Generator → List Event → Generator → Prop
  | nil (g : Generator) : Accepts g [] g
  | cons {g g' g'' : Generator} {e : Event} {rest : List Event}
      (hfirst : Yields (Compile.apply e) g () g')
      (hrest : Accepts g' rest g'') : Accepts g (e :: rest) g''

namespace Accepts

/-- A script that is applied is accepted, event by event. -/
theorem of_applyFrom {i : Nat} {u : Unit} (h : Compile.applyFrom i events g = (.ok u, g')) :
    Accepts g events g' := by
  induction events generalizing g i with
  | nil =>
    cases h
    exact .nil _
  | cons e rest ih =>
    rw [Compile.applyFrom] at h
    split at h
    · rename_i g₁ hfirst
      exact .cons hfirst (ih h)
    · cases h

theorem of_isOk (h : (Compile.applyFrom 0 events g).1.isOk = true) :
    Accepts g events (Compile.applyFrom 0 events g).2 := by
  cases hresult : Compile.applyFrom 0 events g with
  | mk result g' =>
    cases result with
    | ok u => exact .of_applyFrom hresult
    | error e =>
      rw [hresult] at h
      cases h

/-- An accepted script is applied. -/
theorem applyFrom (h : Accepts g events g') (i : Nat) :
    Compile.applyFrom i events g = (.ok (), g') := by
  induction h generalizing i with
  | nil g => rfl
  | cons hfirst _ ih =>
    have hfirst : (Compile.apply _).run.run _ = (.ok (), _) := hfirst
    rw [Compile.applyFrom, hfirst]
    exact ih (i + 1)

/-- An accepted script is accepted in two parts. -/
theorem append_inv {after : List Event} (h : Accepts g (before ++ after) g'') :
    ∃ g', Accepts g before g' ∧ Accepts g' after g'' := by
  induction before generalizing g with
  | nil => exact ⟨g, .nil g, h⟩
  | cons e rest ih =>
    cases h with
    | cons hfirst hrest =>
      obtain ⟨g', hbefore, hafter⟩ := ih hrest
      exact ⟨g', .cons hfirst hbefore, hafter⟩

theorem single_inv {e : Event} (h : Accepts g [e] g') : Yields (Compile.apply e) g () g' := by
  cases h with
  | cons hfirst hrest =>
    cases hrest
    exact hfirst

theorem snoc_inv {e : Event} (h : Accepts g (before ++ [e]) g'') :
    ∃ g', Accepts g before g' ∧ Yields (Compile.apply e) g' () g'' := by
  obtain ⟨g', hbefore, hlast⟩ := h.append_inv
  exact ⟨g', hbefore, hlast.single_inv⟩

/-- What holds before the first event and is kept by every event holds after the last. -/
theorem induction {P : List Event → Generator → Prop} {events : List Event} {g g' : Generator}
    (h : Accepts g events g') (hnil : P [] g)
    (hstep : ∀ done e g g', P done g → Yields (Compile.apply e) g () g' → P (done ++ [e]) g') :
    P events g' := by
  -- the events already accepted are carried along
  suffices hgeneral : ∀ {rest g}, Accepts g rest g' → ∀ done, P done g → P (done ++ rest) g' from
    hgeneral h [] hnil
  clear h hnil
  intro rest g h
  induction h with
  | nil g =>
    intro done hdone
    rw [List.append_nil]
    exact hdone
  | cons hfirst hrest ih =>
    intro done hdone
    have hnext := ih (done ++ [_]) (hstep done _ _ _ hdone hfirst)
    rwa [List.append_assoc] at hnext

end Accepts

/-- A script that is accepted leaves a generator. -/
theorem exists_of_applyFrom {i : Nat} (h : (Compile.applyFrom i events g).1 = .ok ()) :
    ∃ g', Compile.applyFrom i events g = (.ok (), g') := by
  generalize Compile.applyFrom i events g = result at h
  obtain ⟨r, g'⟩ := result
  exact ⟨g', congrArg (·, g') h⟩

/-- The end of a script is accepted when no function and nothing else is open and there is an entry
point; the program is then the one under construction, with the size of the global segment. -/
theorem Compile.yields_finish {p : Program} {names : Names}
    (h : Yields Compile.finish g (p, names) g') :
    g.currentFunction = none ∧ (∀ x ∈ Compile.openConstructs g, x.2 = 0) ∧
      g.program.functions.contains Program.entryPoint = true ∧ names = g.names ∧
      p = { g.program with
        globals := { g.program.globals with locals := g.pool.peaks .globals } } := by
  rw [Compile.finish, yields_get_bind] at h
  split at h
  · cases h
  rename_i hnone
  obtain ⟨_, g₁, hclosed, h⟩ := yields_bind.mp h
  obtain ⟨hnothing, rfl⟩ := yields_ensureClosed hclosed
  split at h
  · cases h
  rename_i hmain
  obtain ⟨_, g₂, -, h⟩ := yields_bind.mp h
  obtain ⟨hresult, -⟩ := yields_pure.mp h
  cases hresult
  refine ⟨hnone, hnothing, ?_, rfl, rfl⟩
  rwa [Bool.not_eq_true', Bool.not_eq_false] at hmain

/-- A script that compiles was accepted event by event, and so was its end. -/
theorem accepts_of_compile {p : Program} {names : Names}
    (h : (compile threshold sizes events).1 = .ok (p, names)) :
    ∃ g g', Accepts (Generator.ofSizes sizes threshold) events g ∧
      Yields Compile.finish g (p, names) g' := by
  unfold compile at h
  dsimp only at h
  split at h
  · cases h
  split at h
  · cases h
  rename_i g happlied
  split at h
  · rename_i result g' hfinish
    cases h
    exact ⟨g, g', .of_applyFrom happlied, hfinish⟩
  · cases h

/-- A script is compiled only for sizes that an address can span. -/
theorem addressable_of_compile {result : Program × Names}
    (h : (compile threshold sizes events).1 = .ok result) : sizes.Addressable := by
  unfold compile at h
  dsimp only at h
  split at h
  · cases h
  · rename_i hsizes
    exact Decidable.not_not.mp hsizes

theorem exists_of_isOk (h : (compile threshold sizes events).1.isOk = true) :
    ∃ p names, (compile threshold sizes events).1 = .ok (p, names) := by
  cases hresult : (compile threshold sizes events).1 with
  | ok result => exact ⟨result.1, result.2, rfl⟩
  | error e =>
    rw [hresult] at h
    cases h

/-- The program of a script; one without code for a script that does not compile. -/
def programOf (threshold : Level) (sizes : Sizes) (events : List Event) : Program :=
  match (compile threshold sizes events).1 with
  | .ok (p, _) => p
  | .error _ => Program.ofSizes sizes

theorem compile_eq_programOf (h : (compile threshold sizes events).1.isOk = true) :
    ∃ names, (compile threshold sizes events).1 = .ok (programOf threshold sizes events,
      names) := by
  obtain ⟨p, names, hcompile⟩ := exists_of_isOk h
  have hp : programOf threshold sizes events = p := by
    rw [programOf, hcompile]
  exact ⟨names, hp ▸ hcompile⟩

end Quadruple
