/-
  What a running program reads from and writes to: a stream of bytes in, a stream of bytes out.

  The output may accept only so many bytes in all, and may refuse to be flushed.  Input is taken
  line by line; a line ends after a line feed or at the end of the input, and must be text.
-/
import Quadruple.Bytes

namespace Quadruple

/-- Why reading or writing fails. -/
inductive ConsoleError where
  | outputLimit
  | flushFailed
  | notText
  | endOfInput
deriving DecidableEq, Inhabited

def ConsoleError.message : ConsoleError → String
  | outputLimit => "output limit reached"
  | flushFailed => "flush failed"
  | notText => "stream did not contain valid UTF-8"
  | endOfInput => "unexpected end of input"

/-- Both streams. -/
structure Console where
  /-- The bytes not read yet. -/
  input : Bytes
  /-- The bytes written so far. -/
  output : Array UInt8
  /-- How many more bytes the output accepts, if there is a limit. -/
  capacity : Option Nat
  flushFails : Bool
deriving DecidableEq, Inhabited

namespace Console

/-- A console with this input and an output without limit. -/
def ofInput (input : Bytes) : Console := ⟨input, #[], none, false⟩

/-- Write bytes; past the limit only as many as fit, and the write fails. -/
def write (c : Console) (bytes : Bytes) : Except ConsoleError Unit × Console :=
  match c.capacity with
  | none => (.ok (), { c with output := c.output ++ bytes.toArray })
  | some n =>
    let accepted :=
      { c with output := c.output ++ (bytes.take n).toArray, capacity := some (n - bytes.length) }
    (if bytes.length ≤ n then .ok () else .error .outputLimit, accepted)

/-- Make sure that everything written arrives. -/
def flush (c : Console) : Except ConsoleError Unit :=
  if c.flushFails then .error .flushFailed else .ok ()

/-- Split a line off, its line feed included. -/
def splitLine : Bytes → Bytes × Bytes
  | [] => ([], [])
  | b :: rest =>
    if b = 10 then ([b], rest)
    else
      let (line, rest) := splitLine rest
      (b :: line, rest)

/-- Read a line, its line feed included.  A line that is no text is gone all the same. -/
def readLine (c : Console) : Except ConsoleError String × Console :=
  let (line, rest) := splitLine c.input
  let left := { c with input := rest }
  if line.isEmpty then (.error .endOfInput, left)
  else match Bytes.text? line with
    | some s => (.ok s, left)
    | none => (.error .notText, left)

end Console

end Quadruple
