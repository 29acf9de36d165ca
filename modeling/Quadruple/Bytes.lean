/-
  Numbers, texts and sequences as bytes.

  Every encoder has a decoder that takes its bytes off the front of the input and leaves the rest,
  so a value followed by anything else reads back as that value and the rest.  Decoders accept more
  than encoders produce: a number may be padded with empty groups.  They check from left to right
  and stop at the first fault.

  A number is written in groups of seven bits, lowest first, each in a byte whose top bit says that
  another group follows.  Sixty-four bits take at most ten groups, of which the last holds a single
  bit; the numbers of alternatives have thirty-two bits and at most five groups, the last of four
  bits.
-/
import Quadruple.Binary64

namespace Quadruple

/-- A sequence of bytes. -/
abbrev Bytes := List UInt8

/-- Why bytes could not be decoded. -/
inductive DecodeError where
  | endOfInput
  | badNumber
  | badBool
  | badOption
  | badText
  | unknownAlternative
deriving DecidableEq, Inhabited

/-- The message of a decoding error. -/
def DecodeError.message : DecodeError → String
  | endOfInput => "Hit the end of buffer, expected more data"
  | badNumber => "Found a varint that didn't terminate. Is the usize too big for this platform?"
  | badBool => "Found a bool that wasn't 0 or 1"
  | badOption => "Found an Option discriminant that wasn't 0 or 1"
  | badText => "Tried to parse invalid utf-8"
  | unknownAlternative => "Serde Deserialization Error"

/-- A reader of bytes from the front of the input. -/
abbrev Decoder := StateT Bytes (Except DecodeError)

namespace Bytes

/-! ## Single bytes -/

/-- Take one byte. -/
def takeByte : Decoder UInt8 := fun input =>
  match input with
  | b :: rest => .ok (b, rest)
  | [] => .error .endOfInput

/-- Take `n` bytes. -/
def takeBytes (n : Nat) : Decoder Bytes := fun input =>
  if input.length < n then .error .endOfInput else .ok (input.take n, input.drop n)

/-! ## Numbers in groups of seven bits -/

/-- The groups of a number, at most `more` before the last. -/
def groups : Nat → Nat → Bytes
  | 0, n => [UInt8.ofNat n]
  | more + 1, n =>
    if n < 128 then [UInt8.ofNat n] else UInt8.ofNat (n % 128 + 128) :: groups more (n / 128)

/-- Read groups, at most `more` before the last, which is at most `top`. -/
def takeGroups (top : Nat) : Nat → Decoder Nat
  | 0 => do
    let b ← takeByte
    if b.toNat ≤ top then return b.toNat else throw .badNumber
  | more + 1 => do
    let b ← takeByte
    if b.toNat < 128 then return b.toNat
    else return b.toNat - 128 + 128 * (← takeGroups top more)

/-- A number of sixty-four bits. -/
def ofWord (n : Nat) : Bytes := groups 9 n

def takeWord : Decoder Nat := takeGroups 1 9

/-- The number of an alternative. -/
def ofTag (n : Nat) : Bytes := groups 4 n

def takeTag : Decoder Nat := takeGroups 15 4

/-! ## Signed integers: small magnitudes take few groups -/

/-- Interleave: `0, -1, 1, -2, …` become `0, 1, 2, 3, …`. -/
def zigzag (n : Int) : Nat := if 0 ≤ n then 2 * n.toNat else 2 * n.natAbs - 1

def unzigzag (n : Nat) : Int := if n % 2 = 0 then (n / 2 : Nat) else -((n / 2 : Nat) : Int) - 1

def ofInt64 (n : Int64) : Bytes := ofWord (zigzag n.toInt)

def takeInt64 : Decoder Int64 := do return Int64.ofInt (unzigzag (← takeWord))

/-! ## Doubles: eight bytes, lowest first -/

/-- The lowest `count` bytes of a number, lowest first. -/
def littleEndian : Nat → Nat → Bytes
  | 0, _ => []
  | count + 1, n => UInt8.ofNat (n % 256) :: littleEndian count (n / 256)

/-- The number whose bytes these are, lowest first. -/
def ofLittleEndian : Bytes → Nat
  | [] => 0
  | b :: rest => b.toNat + 256 * ofLittleEndian rest

def ofFloat (x : Binary64) : Bytes := littleEndian 8 x.bits.toNat

def takeFloat : Decoder Binary64 := do return ⟨UInt64.ofNat (ofLittleEndian (← takeBytes 8))⟩

/-! ## Truth values, texts, options and sequences -/

def ofBool (b : Bool) : Bytes := [if b then 1 else 0]

def takeBool : Decoder Bool := do
  let b ← takeByte
  if b = 0 then return false else if b = 1 then return true else throw .badBool

/-- The bytes of a text. -/
def utf8 (s : String) : Bytes := s.toUTF8.data.toList

/-- The text of bytes, if they are one. -/
def text? (bytes : Bytes) : Option String := String.fromUTF8? ⟨bytes.toArray⟩

/-- A text: its length in bytes, then the bytes. -/
def ofText (s : String) : Bytes := ofWord (utf8 s).length ++ utf8 s

def takeText : Decoder String := do
  match text? (← takeBytes (← takeWord)) with
  | some s => return s
  | none => throw .badText

def ofOption {α : Type} (f : α → Bytes) : Option α → Bytes
  | none => [0]
  | some a => 1 :: f a

def takeOption {α : Type} (d : Decoder α) : Decoder (Option α) := do
  let b ← takeByte
  if b = 0 then return none else if b = 1 then return some (← d) else throw .badOption

/-- Decode `n` times. -/
def takeMany {α : Type} (d : Decoder α) : Nat → Decoder (List α)
  | 0 => return []
  | n + 1 => do
    let a ← d
    return a :: (← takeMany d n)

/-- A sequence: its length, then its items. -/
def ofList {α : Type} (f : α → Bytes) (l : List α) : Bytes := ofWord l.length ++ l.flatMap f

def takeList {α : Type} (d : Decoder α) : Decoder (List α) := do takeMany d (← takeWord)

/-- Two values, one after the other. -/
def takePair {α β : Type} (a : Decoder α) (b : Decoder β) : Decoder (α × β) := do return (← a, ← b)

end Bytes

end Quadruple
