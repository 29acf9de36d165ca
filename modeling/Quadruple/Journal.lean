/-
  What the compiler and the machine note down while they work.

  A note records what happened, not its wording; `Note.text` gives the line for a reader and
  `Note.level` how important it is.  A journal keeps the notes that are at least as important as its
  threshold and forgets the others.
-/
import Quadruple.Quad
import Quadruple.Scalar
import Quadruple.Text.Column

namespace Quadruple

/-- Importance, most important first. -/
inductive Level where
  | off
  | error
  | warn
  | info
  | debug
  | trace
deriving DecidableEq, Inhabited

namespace Level

/-- Every level, most important first. -/
def all : List Level := [off, error, warn, info, debug, trace]

/-- The name of a level. -/
def name : Level → String
  | off => "OFF"
  | error => "ERROR"
  | warn => "WARN"
  | info => "INFO"
  | debug => "DEBUG"
  | trace => "TRACE"

/-- Rank by importance. -/
def rank (l : Level) : Nat := l.ctorIdx

/-- The level with a name, in capitals or not. -/
def ofName? (word : String) : Option Level :=
  all.find? fun l => l.name.toList == word.toList.map Char.toUpper

end Level

/-- Something worth noting. -/
inductive Note where
  | addressReused (segment : Segment) (ty : Scalar) (address : Nat)
  | quadEmitted (index : Nat) (quad : Quad)
  | functionOpened (id : String) (quad : Nat)
  | functionClosed (id : String)
  | arrayPlaced (id : String) (base total : Nat)
  | resultDiscarded (ty : TypeName) (function : String)
  | programFinished (quads functions constants : Nat)
  | runStarted (quads start : Nat)
  | quadReached (index : Nat) (quad : Quad)
  | functionEntered (id : String) (caller : Nat)
  | blockAllocated (first last : Nat)
  | blockFreed (first last : Nat)
  | blocksReleased (count reference : Nat)
  | runHalted (steps : Nat)
deriving DecidableEq

namespace Note

/-- How important a note is. -/
def level : Note → Level
  | resultDiscarded .. => .warn
  | addressReused .. | quadReached .. | functionEntered .. => .trace
  | _ => .debug

/-- The line for a reader. -/
def text : Note → String
  | addressReused segment ty a =>
    "reuse " ++ segment.name ++ " " ++ ty.name ++ " address " ++ a.repr
  | quadEmitted i q => Text.zeroPadded 4 i ++ " " ++ q.text
  | functionOpened id quad => "function '" ++ id ++ "' starts at quad " ++ quad.repr
  | functionClosed id => "function '" ++ id ++ "' closed"
  | arrayPlaced id base total =>
    "array '" ++ id ++ "' at " ++ base.repr ++ " with " ++ total.repr ++ " cells"
  | resultDiscarded ty f => ty.word ++ " result of '" ++ f ++ "' is discarded"
  | programFinished q f c =>
    "compiled " ++ q.repr ++ " quads, " ++ f.repr ++ " functions, " ++ c.repr ++ " constants"
  | runStarted n start => "running " ++ n.repr ++ " quads from " ++ start.repr
  | quadReached i q => Text.zeroPadded 4 i ++ " " ++ q.text
  | functionEntered id caller => "call " ++ id ++ " from " ++ caller.repr
  | blockAllocated first last => "heap: allocated [" ++ first.repr ++ ", " ++ last.repr ++ "]"
  | blockFreed first last => "heap: freed [" ++ first.repr ++ ", " ++ last.repr ++ "]"
  | blocksReleased n reference => "released " ++ n.repr ++ " block(s) from " ++ reference.repr
  | runHalted steps => "halted after " ++ steps.repr ++ " steps"

end Note

/-- Notes at or above a threshold, latest first. -/
structure Journal where
  threshold : Level
  latest : List Note
deriving DecidableEq

namespace Journal

/-- A journal with nothing in it. -/
def ofLevel (threshold : Level) : Journal := ⟨threshold, []⟩

/-- Only warnings and worse are kept unless more is asked for. -/
instance : Inhabited Journal := ⟨ofLevel .warn⟩

/-- Write a note, if it is important enough. -/
def write (j : Journal) (n : Note) : Journal :=
  if n.level.rank ≤ j.threshold.rank then { j with latest := n :: j.latest } else j

/-- The notes in the order in which they were written. -/
def notes (j : Journal) : List Note := j.latest.reverse

end Journal

end Quadruple
