/-
  Machines that have run before.

  A run that can start sets everything that steps read, except the limits, the console and the
  journal, and of these it asks for limits, input and the room left for output (`Proofs/Lockstep`).
  So whatever earlier runs left behind, frames of a run stopped halfway, a heap full of blocks, a
  value that nobody claimed, the next program runs as on a machine just made:

      SameRun old old' (m.run budget p) ((ofConsole limits console threshold).run budget p)

  A program that cannot be loaded changes nothing at all.
-/
import Quadruple.Proofs.Lockstep
import Quadruple.Proofs.Script

namespace Quadruple.Machine

variable {m : Machine}

/-- The machine was made with these limits and this console, and has run any number of programs
since; each run ended normally, by an error, or because its program could not be loaded. -/
inductive Reused (limits : Limits) (console : Console) (threshold : Level) : Machine → Prop
  | fresh : Reused limits console threshold (ofConsole limits console threshold)
  | ran {m m' : Machine} {p : Program} {budget : Nat} {result : Except RuntimeError Unit}
    (h : Reused limits console threshold m) (hrun : m.run budget p = some (result, m')) :
    Reused limits console threshold m'

/-- Both runs go on, or both have ended: with the same result, the same bytes written to what was
there before, the same input left, and the same count of steps, frames and heap. -/
inductive SameRun (old old' : Array UInt8) :
    Option (Except RuntimeError Unit × Machine) → Option (Except RuntimeError Unit × Machine) → Prop
  | unfinished : SameRun old old' none none
  | finished (result : Except RuntimeError Unit) {m m' : Machine} (written : Array UInt8)
    (output : m.console.output = old ++ written) (output' : m'.console.output = old' ++ written)
    (input : m'.console.input = m.console.input) (steps : m'.steps = m.steps)
    (frames : m'.frames = m.frames)
    (heap : m'.heap = m.heap) : SameRun old old' (some (result, m)) (some (result, m'))

theorem SameEnd.sameRun {l l' : Limits} {old old' : Array UInt8}
    {r r' : Option (Except RuntimeError Unit × Machine)} (h : SameEnd l l' old old' r r') :
    SameRun old old' r r' := by
  cases h with
  | unfinished => exact .unfinished
  | finished result hend =>
    obtain ⟨k, journal, journal', written⟩ := hend
    exact .finished result written rfl rfl rfl rfl rfl rfl

/-- No run changes the limits. -/
theorem limits_run {m' : Machine} {p : Program} {budget : Nat} {result : Except RuntimeError Unit}
    (h : m.run budget p = some (result, m')) : m'.limits = m.limits := by
  cases hstart : m.start p with
  | error f =>
    rw [run, hstart] at h
    cases h
    rfl
  | ok m₀ =>
    -- the machine runs in lockstep with itself
    obtain ⟨e, s, -, -, hne⟩ | hsame := run_alike budget (Limits.widens_refl m.limits) rfl hstart
    · exact (hne rfl).elim
    · rw [h] at hsame
      obtain ⟨_, -, ⟨k, journal, journal', written⟩⟩ := hsame.of_some
      rfl

theorem Reused.limits_eq {limits : Limits} {console : Console} {threshold : Level}
    (h : Reused limits console threshold m) : m.limits = limits := by
  induction h with
  | fresh => rfl
  | ran _ hrun ih => rw [limits_run hrun, ih]

/-- A program that cannot be loaded does not run. -/
theorem run_of_load_error {p : Program} {f : Fault} (h : m.load p = .error f) (budget : Nat) :
    m.run budget p = some (.error (m.errorOf f), m) := by
  rw [run, start, h]

/-- Whatever it ran before, a machine runs a program that it can load as a machine just made, with
the same limits, the same input left and the same output, whatever that already holds; and a program
that it cannot load leaves it as it was. -/
theorem reused_runs_as_fresh {limits : Limits} {console : Console} {threshold : Level} {m : Machine}
    (h : Reused limits console threshold m) (p : Program) :
    (∀ f, m.load p = .error f → ∀ budget, m.run budget p = some (.error (m.errorOf f), m)) ∧
    ∀ ip loaded, m.load p = .ok (ip, loaded) → ∀ budget output threshold',
      SameRun m.console.output output (m.run budget p)
        ((ofConsole limits { m.console with output := output } threshold').run budget p) := by
  refine ⟨fun f hload budget => run_of_load_error hload budget, ?_⟩
  intro ip loaded hload budget output threshold'
  obtain rfl := h.limits_eq
  have hstart : ∃ m₀, m.start p = .ok m₀ := by
    rw [start, hload]
    exact ⟨_, rfl⟩
  obtain ⟨m₀, hstart⟩ := hstart
  generalize hfresh : ofConsole m.limits { m.console with output := output } threshold' = fresh
  have hwiden : m.limits.Widens fresh.limits := by
    rw [← hfresh]
    exact m.limits.widens_refl
  have hconsole : fresh.console = { m.console with output := output } := by
    rw [← hfresh]
    rfl
  obtain ⟨e, s, -, -, hne⟩ | hsame := run_alike budget hwiden hconsole hstart
  · rw [← hfresh] at hne
    exact (hne rfl).elim
  · exact hsame.sameRun

/-- `main` makes an object, prints and calls `f`, which divides by zero. -/
def stopsInside : List Event :=
  [.declareClass "C", .declareField "a" (.scalar .int), .endClass,
    .declareFunction "f", .pushConstant (.int 1), .pushOperator "/", .pushConstant (.int 0), .print,
    .endFunction, .declareFunction "main", .declareVariable "x" (.object "C"), .pushObject "x",
    .newObject "C", .pushConstant (.int 1), .print, .callFunction "f", .endCall, .endFunction]

/-- `main` makes an object, reads a number and prints it. -/
def echoes : List Event :=
  [.declareClass "C", .declareField "a" (.scalar .int), .endClass,
    .declareFunction "main", .declareVariable "x" (.object "C"),
    .declareVariable "n" (.scalar .int), .pushObject "x", .newObject "C", .pushVariable "n",
    .pushOperator "=", .input none, .executeRemaining,
    .pushVariable "n", .print, .endFunction]

/-- The machine that a run of `stopsInside` leaves. -/
def stoppedInside : Machine :=
  match (ofConsole ⟨9, none, 4⟩ (Console.ofInput [53, 10]) .warn).run 9
      (programOf .warn (Sizes.uniform 2) stopsInside) with
  | some (_, m) => m
  | none => ofConsole ⟨9, none, 4⟩ (Console.ofInput [53, 10]) .warn

/-- A machine left with two frames, a block on its heap and something written: it keeps all of that
when it cannot load a program without code, and runs the next program as if it had none of it. -/
theorem reused_runs_as_fresh_stoppedInside :
    Reused ⟨9, none, 4⟩ (Console.ofInput [53, 10]) .warn stoppedInside ∧
      stoppedInside.frames.length = 2 ∧ stoppedInside.heap ≠ Heap.ofSize 40 4 ∧
      (∃ f, stoppedInside.load (Program.ofSizes (Sizes.uniform 2)) = .error f ∧
        stoppedInside.run 9 (Program.ofSizes (Sizes.uniform 2)) =
          some (.error (stoppedInside.errorOf f), stoppedInside)) ∧
      endedNormally (stoppedInside.run 9 (programOf .warn (Sizes.uniform 2) echoes)) = true ∧
      SameRun #[49, 10] #[] (stoppedInside.run 9 (programOf .warn (Sizes.uniform 2) echoes))
        ((ofConsole ⟨9, none, 4⟩ (Console.ofInput [53, 10]) .debug).run 9
          (programOf .warn (Sizes.uniform 2) echoes)) := by
  have hreused : Reused ⟨9, none, 4⟩ (Console.ofInput [53, 10]) .warn stoppedInside := by
    obtain ⟨e, m, hrun, -⟩ := stoppedBy?_eq_some (f := .divisionByZero)
      (r := (ofConsole ⟨9, none, 4⟩ (Console.ofInput [53, 10]) .warn).run 9
        (programOf .warn (Sizes.uniform 2) stopsInside)) (by decide +kernel)
    have hm : stoppedInside = m := by
      rw [stoppedInside, hrun]
    exact hm ▸ .ran .fresh hrun
  have hrefused :
      stoppedInside.load (Program.ofSizes (Sizes.uniform 2)) = .error (.internal .noEntryPoint) :=
        rfl
  have haccepted :
      ∃ loaded, stoppedInside.load (programOf .warn (Sizes.uniform 2) echoes) = .ok loaded := by
    have hok : (stoppedInside.load (programOf .warn (Sizes.uniform 2) echoes)).isOk = true := by
      decide +kernel
    cases hload : stoppedInside.load (programOf .warn (Sizes.uniform 2) echoes) with
    | ok loaded => exact ⟨loaded, rfl⟩
    | error f =>
      rw [hload] at hok
      cases hok
  obtain ⟨⟨ip, loaded⟩, haccepted⟩ := haccepted
  have hconsole : { stoppedInside.console with output := #[] } = Console.ofInput [53, 10] := by
    decide +kernel
  have houtput : stoppedInside.console.output = #[49, 10] := by decide +kernel
  refine ⟨hreused, by decide +kernel, by decide +kernel, ⟨_, hrefused, ?_⟩, by decide +kernel, ?_⟩
  · exact (reused_runs_as_fresh hreused _).1 _ hrefused 9
  · have hsame := (reused_runs_as_fresh hreused _).2 ip loaded haccepted 9 #[] .debug
    rwa [hconsole, houtput] at hsame

end Quadruple.Machine
