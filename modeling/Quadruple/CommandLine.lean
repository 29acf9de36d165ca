/-
  The command line: what arguments ask for, and what comes of it.

  A `Request` is read off the arguments.  At most one file has to be read for it (`Request.input?`);
  given its content, `Request.plan` says what remains to be done: nothing, to save a file, or to run
  a program.  A `Report` collects what the user sees: bytes on the standard output, messages on the
  error output, and the exit code.  `Request.execute` carries a plan out in a directory that is
  itself a value.
-/
import Quadruple.Compiler
import Quadruple.Event.Json
import Quadruple.Files
import Quadruple.Listing
import Quadruple.Machine
import Quadruple.Program.Bytes

namespace Quadruple

/-! ## Requests -/

/-- What the arguments ask for. -/
inductive Request where
  | help
  | missingInput
  | unknown (word : String)
  | compile (input output : String) (listing json : Bool)
  | run (input : String)
  | compileAndRun (input : String) (listing : Bool)
  | disassemble (input : String)
deriving DecidableEq

namespace Request

/-- The argument after the first `flag`. -/
def valueOf (flag : String) (args : List String) : Option String := (args.dropWhile (· ≠ flag))[1]?

/-- The extension of compiled programs. -/
def extension : String := "qbc"

/-- The first argument that is neither an option nor the output file. -/
def inputOf (output : Option String) (args : List String) : Option String :=
  args.find? fun a => a.toList.head? ≠ some '-' && some a ≠ output

/-- The request of a command word and what follows it. -/
def ofArgs (args : List String) : Request :=
  match args with
  | [] => help
  | command :: rest =>
    if args.any fun a => a = "--help" || a = "-h" then help
    else
      let output := valueOf "-o" args
      let listing := args.contains "--quads"
      match inputOf output rest with
      | none => missingInput
      | some input =>
        match command with
        | "compile" =>
          compile input (output.getD (Path.withExtension input extension)) listing
            (args.contains "--json")
        | "run" => run input
        | "exec" => compileAndRun input listing
        | "dis" => disassemble input
        | word => unknown word

/-- The file that a request needs. -/
def input? : Request → Option String
  | help | missingInput | unknown _ => none
  | compile input _ _ _ => some input
  | run input => some input
  | compileAndRun input _ => some input
  | disassemble input => some input

end Request

/-- How to use the program. -/
def usage : String := String.join ([
  "QUADRA - Quadruple code generator and virtual machine",
  "",
  "Usage:",
  "  quadra compile <events.json> [-o out.qbc]   Compile an event script",
  "         [--quads] [--json]                   ...and list quads / dump JSON",
  "  quadra run <program.qbc>                    Run a compiled program",
  "  quadra exec <events.json> [--quads]         Compile and run",
  "  quadra dis <program.qbc>                    Disassemble a program",
  "  quadra --help, -h                           Show this help",
  "",
  "Set QUADRA_LOG=debug (or trace) for diagnostics on stderr."].map (· ++ "\n"))

/-- The variable of the environment that sets how much is noted. -/
def levelVariable : String := "QUADRA_LOG"

/-- The threshold that the environment asks for. -/
def thresholdOf (word : Option String) : Level := (word.bind Level.ofName?).getD .warn

/-! ## Reports -/

/-- What the user sees. -/
structure Report where
  output : Bytes
  messages : List String
  code : Nat
deriving DecidableEq, Inhabited

/-- The line of a note on the error output. -/
def Note.line (n : Note) : String := "[" ++ Text.alignLeft 5 n.level.name ++ "] " ++ n.text

namespace Report

/-- Nothing seen, no failure. -/
def empty : Report := ⟨[], [], 0⟩

/-- Show text. -/
def print (r : Report) (text : String) : Report := { r with output := r.output ++ Bytes.utf8 text }

/-- Show notes. -/
def addNotes (r : Report) (notes : List Note) : Report :=
  { r with messages := r.messages ++ notes.map Note.line }

/-- End with a message. -/
def fail (r : Report) (what why : String) : Report :=
  { r with messages := r.messages ++ [what ++ ": " ++ why], code := 1 }

/-- How to use the program, after a mistake. -/
def misused (r : Report) : Report := { r.print usage with code := 1 }

/-- The end of an attempt to save a file. -/
def saved (r : Report) (path : String) : Except FileError Unit → Report
  | .ok () => r
  | .error e => r.fail ("Failed to write '" ++ path ++ "'") e.message

/-- The end of a run. -/
def ended (r : Report) : Except RuntimeError Unit → Report
  | .ok () => r
  | .error e => r.fail "Runtime error" e.message

end Report

/-! ## Plans -/

/-- What remains to be done. -/
inductive Plan where
  | finished (r : Report)
  | save (path : String) (content : Bytes) (r : Report)
  | launch (p : Program) (r : Report)

/-- What the error output says of a script that cannot be read. -/
def JsonError.message : JsonError → String
  | .malformed => "not well-formed"
  | .misfit => "not an event script"

namespace Request

/-- The content of a file as text. -/
def textOf (content : Except FileError Bytes) : Except FileError String := do
  match Bytes.text? (← content) with
  | some s => return s
  | none => throw .notText

/-- Report a file that could not be read. -/
def unreadable (input : String) (e : FileError) : Report :=
  Report.empty.fail ("Failed to read '" ++ input ++ "'") e.message

/-- The program of an event script, with its names. -/
def compileText (threshold : Level) (input : String) (content : Except FileError Bytes) :
    Except Report (Program × Names × Report) :=
  match textOf content with
  | .error e => .error (unreadable input e)
  | .ok text =>
    match Event.parseScript text with
    | .error e => .error (Report.empty.fail "Event script error" e.message)
    | .ok events =>
      match Quadruple.compile threshold Sizes.standard events with
      | (.error e, journal) =>
        .error ((Report.empty.addNotes journal.notes).fail "Compile error" e.error.message)
      | (.ok (p, names), journal) => .ok (p, names, Report.empty.addNotes journal.notes)

/-- The program in a file. -/
def decode (input : String) (content : Except FileError Bytes) : Except Report Program :=
  match content with
  | .error e => .error (unreadable input e)
  | .ok bytes =>
    match Program.ofBytes bytes with
    | .error e => .error (Report.empty.fail "Invalid program file" (Program.decodeMessage e))
    | .ok p => .ok p

/-- The listing of a program, if it is wanted. -/
def listed (r : Report) (wanted : Bool) (p : Program) (names : Names) : Report :=
  if wanted then r.print (Listing.program names p) else r

/-- What remains to be done, given the content of the file that the request needs. -/
def plan (request : Request) (threshold : Level) (content : Except FileError Bytes) : Plan :=
  match request with
  | help => .finished (Report.empty.print usage)
  | missingInput => .finished Report.empty.misused
  | unknown word =>
    .finished { Report.empty with messages := ["Unknown command '" ++ word ++ "'"] }.misused
  | compile input output listing json =>
    match compileText threshold input content with
    | .error r => .finished r
    | .ok (p, names, r) =>
      let r := listed r listing p names
      .save output p.toBytes (if json then r.print (p.jsonText ++ "\n") else r)
  | run input =>
    match decode input content with
    | .error r => .finished r
    | .ok p => .launch p Report.empty
  | compileAndRun input listing =>
    match compileText threshold input content with
    | .error r => .finished r
    | .ok (p, names, r) => .launch p (listed r listing p names)
  | disassemble input =>
    match decode input content with
    | .error r => .finished r
    | .ok p => .finished (listed Report.empty true p Table.empty)

end Request

/-! ## Execution in a directory -/

/-- Run a program with all of its input at hand; there is no report if the budget of steps is used
up. -/
def Report.launch (r : Report) (budget : Nat) (threshold : Level) (input : Bytes) (p : Program) :
    Option Report :=
  let m := Machine.ofConsole Limits.standard (Console.ofInput input) threshold
  match m.run budget p with
  | none => none
  | some (result, m) =>
    let r := { r with output := r.output ++ m.console.output.toList }
    some ((r.addNotes m.journal.notes).ended result)

/-- Carry out a request. -/
def Request.execute (request : Request) (budget : Nat) (threshold : Level) (input : Bytes)
    (files : Files) :
    Option (Report × Files) :=
  let content := match request.input? with
    | some path => files.read path
    | none => .error .notFound
  match request.plan threshold content with
  | .finished r => some (r, files)
  | .save path bytes r =>
    match files.write path bytes with
    | .ok files => some (r.saved path (.ok ()), files)
    | .error e => some (r.saved path (.error e), files)
  | .launch p r =>
    match r.launch budget threshold input p with
    | some r => some (r, files)
    | none => none

end Quadruple
