/-
  Running programs.

  `load` puts a program into the machine and forgets all of an earlier run but the console and the
  limits.  All that can go wrong is checked before anything is assigned, which is why its fault
  comes without a machine and `run` answers it with the machine it was given.  `run` then steps
  until the entry function ends or a step faults.  A run need not end, so `run` takes a budget of
  steps and has no answer when it is used up; a larger budget never changes an answer.
-/
import Quadruple.Machine.Step

namespace Quadruple

namespace Machine

/-- Put a program into the machine, ready at its entry point; the result is the quad to start from.
-/
def load (m : Machine) (p : Program) : Except Fault (Nat × Machine) :=
  let layout := p.layout
  if ¬ p.sizes.Addressable then .error .overflow
  else if layout.heapStart ≠ p.heapStart then
    .error (.internal (.heapStartMismatch p.heapStart layout.heapStart))
  else match p.main? with
    | none => .error (.internal .noEntryPoint)
    | some main =>
      if !(p.globals.countable && main.slots.countable) then .error .overflow
      else .ok (main.startQuad, { m with
        heap := Heap.ofSize layout.heapStart m.limits.heapSize
        layout := layout
        quads := p.quads
        functions := p.functions
        constants := p.constants.mapValues (·.value)
        globals := Frame.ofCounts globalScope p.globals
        frames := [Frame.ofCounts Program.entryPoint main.slots]
        pending := []
        returns := []
        returned := none
        steps := 0 })

/-- The machine ready to execute its first quad. -/
def start (m : Machine) (p : Program) : Except Fault Machine :=
  match m.load p with
  | .error f => .error f
  | .ok (ip, m) => .ok { m with ip := ip, journal := m.journal.write (.runStarted m.quads.size ip) }

/-- How a run stands after a step. -/
inductive Status where
  | running (m : Machine)
  | halted (m : Machine)
  | faulted (e : RuntimeError) (m : Machine)

/-- Whether the next step reads a line. -/
def awaitsInput (m : Machine) : Bool :=
  match m.quads[m.ip]? with
  | some q => q.op = .input
  | none => false

/-- After the last quad: make sure that the output arrives. -/
def conclude (m : Machine) : Status :=
  match Exec.flush.run.run m with
  | (.ok (), m) => .halted { m with journal := m.journal.write (.runHalted m.steps) }
  | (.error f, m) => .faulted (m.errorOf f) m

/-- One step, and where execution goes on. -/
def advance (m : Machine) : Status :=
  match Exec.step.run.run m with
  | (.error f, m) => .faulted (m.errorOf f) m
  | (.ok .next, m) => .running { m with ip := m.ip + 1 }
  | (.ok (.jump target), m) => .running { m with ip := target }
  | (.ok .halt, m) => m.conclude

/-- Steps until the run ends, within a budget. -/
def resume : Nat → Machine → Option (Except RuntimeError Unit × Machine)
  | 0, _ => none
  | budget + 1, m =>
    match m.advance with
    | .running m => resume budget m
    | .halted m => some (.ok (), m)
    | .faulted e m => some (.error e, m)

/-- Run a program within a budget of steps. -/
def run (budget : Nat) (m : Machine) (p : Program) : Option (Except RuntimeError Unit × Machine) :=
  match m.start p with
  | .error f => some (.error (m.errorOf f), m)
  | .ok m => resume budget m

end Machine

end Quadruple
