/-
  The program: arguments, files and streams of the process.

  Everything is decided in `Quadruple.CommandLine` and `Quadruple.Machine`; here a plan is carried
  out.  A running program is stepped one quad at a time, so that its output appears as it is written
  and its input is asked for only when it is needed.
-/
import Quadruple.CommandLine

namespace Quadruple

/-- The error of an operation on files.  The number of a system error may come with its sign
reversed. -/
def FileError.ofSystem : IO.Error → FileError
  | .noFileOrDirectory .. => .notFound
  | .inappropriateType _ number _ => if number = 21 ∨ 0 - number = 21 then .isFolder else .notFolder
  | .invalidArgument file number details =>
    if number = 36 ∨ 0 - number = 36 then .nameTooLong
    else .other (toString (IO.Error.invalidArgument file number details))
  | e => .other (toString e)

/-- The content of a file. -/
def readFile (path : String) : IO (Except FileError Bytes) := do
  try
    return .ok (← IO.FS.readBinFile path).toList
  catch e => return .error (.ofSystem e)

/-- Make a file, or replace its content. -/
def writeFile (path : String) (content : Bytes) : IO (Except FileError Unit) := do
  try
    IO.FS.writeBinFile path ⟨content.toArray⟩
    return .ok ()
  catch e => return .error (.ofSystem e)

/-- Show what a report holds. -/
def Report.show (r : Report) : IO UInt32 := do
  let out ← IO.getStdout
  out.write ⟨r.output.toArray⟩
  out.flush
  for m in r.messages do IO.eprintln m
  return r.code.toUInt32

/-- Show what a machine wrote and noted, and forget it. -/
def Machine.drain (m : Machine) : IO Machine := do
  let _ ← ({ Report.empty with output := m.console.output.toList }.addNotes m.journal.notes).show
  let console := { m.console with output := #[] }
  return { m with console := console, journal := Journal.ofLevel m.journal.threshold }

/-- Read until a whole line is at hand or the input ends. -/
partial def Machine.supply (m : Machine) : IO Machine := do
  if m.console.input.contains 10 then return m
  let chunk ← (← IO.getStdin).read 4096
  if chunk.isEmpty then return m
  let console := { m.console with input := m.console.input ++ chunk.toList }
  supply { m with console := console }

/-- Step to the end of the run. -/
partial def Machine.drive (m : Machine) : IO UInt32 := do
  let m ← if m.awaitsInput then m.supply else pure m
  match m.advance with
  | .running m => drive (← m.drain)
  | .halted m =>
    let _ ← m.drain
    return 0
  | .faulted e m =>
    let _ ← m.drain
    (Report.empty.ended (.error e)).show

/-- Run a program on the streams of the process. -/
def launch (threshold : Level) (p : Program) : IO UInt32 := do
  let m := Machine.ofConsole Limits.standard (Console.ofInput []) threshold
  match m.start p with
  | .error f => (Report.empty.ended (.error (m.errorOf f))).show
  | .ok m => m.drive

end Quadruple

open Quadruple in
/-- Carry out what the arguments ask for. -/
def main (args : List String) : IO UInt32 := do
  let threshold := thresholdOf (← IO.getEnv levelVariable)
  let request := Request.ofArgs args
  let content ← match request.input? with
    | some path => readFile path
    | none => pure (.error .notFound)
  match request.plan threshold content with
  | .finished r => r.show
  | .save path bytes r => (r.saved path (← writeFile path bytes)).show
  | .launch p r =>
    let _ ← r.show
    launch threshold p
