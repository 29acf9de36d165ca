/-
  Floating-point numbers as their 64 bits.

  A number is kept as its bit pattern, sign then eleven exponent bits then fifty-two fraction bits,
  so two numbers are equal exactly when their encodings are: `0.0` and `-0.0` differ, and a NaN
  keeps the payload it came with.  A finite number is `± significand · 2 ^ exponent`.

  Reading a decimal and widening an integer both come down to one rule, `ofRatio`: the double
  nearest to a quotient of naturals, a tie going to the even significand.  The four arithmetic
  operations and the order are those of `Float`.
-/

namespace Quadruple

/-- A double-precision number, as its bit pattern. -/
structure Binary64 where
  bits : UInt64
deriving DecidableEq, Inhabited

namespace Binary64

/-! ## Taking a number apart -/

/-- Whether the sign bit is set. -/
def isNegative (x : Binary64) : Bool := Nat.pow 2 63 ≤ x.bits.toNat

/-- The eleven exponent bits. -/
def exponentField (x : Binary64) : Nat := x.bits.toNat / Nat.pow 2 52 % Nat.pow 2 11

/-- The fifty-two fraction bits. -/
def fractionField (x : Binary64) : Nat := x.bits.toNat % Nat.pow 2 52

/-- Whether the number is neither infinite nor a NaN. -/
def isFinite (x : Binary64) : Bool := x.exponentField != 2047

/-- Whether the bits are a NaN, whatever its payload. -/
def isNaN (x : Binary64) : Bool := x.exponentField == 2047 && x.fractionField != 0

/-- The integer factor of a finite number: subnormals have no hidden bit. -/
def significand (x : Binary64) : Nat :=
  if x.exponentField = 0 then x.fractionField else Nat.pow 2 52 + x.fractionField

/-- The power of two of a finite number. -/
def exponent (x : Binary64) : Int :=
  if x.exponentField = 0 then -1074 else (x.exponentField : Int) - 1075

/-- Whether a finite number is an integer. -/
def isIntegral (x : Binary64) : Bool :=
  x.isFinite && x.significand % Nat.pow 2 (-x.exponent).toNat == 0

/-- The magnitude of a finite number without its fraction. -/
def integerPart (x : Binary64) : Nat :=
  x.significand * Nat.pow 2 x.exponent.toNat / Nat.pow 2 (-x.exponent).toNat

/-! ## Putting a number together -/

/-- The number with this sign and these lower sixty-three bits. -/
def ofMagnitude (negative : Bool) (magnitude : Nat) : Binary64 :=
  ⟨UInt64.ofNat (if negative then Nat.pow 2 63 + magnitude else magnitude)⟩

/-- Zero, signed. -/
def zero (negative : Bool) : Binary64 := ofMagnitude negative 0

/-- Infinity, signed. -/
def infinity (negative : Bool) : Binary64 := ofMagnitude negative (2047 * Nat.pow 2 52)

/-- The quiet NaN with an empty payload. -/
def nan : Binary64 := ofMagnitude false (2047 * Nat.pow 2 52 + Nat.pow 2 51)

/-- One representative for all NaNs; every other number is itself. -/
def canonical (x : Binary64) : Binary64 := if x.isNaN then nan else x

/-- `num / den` rounded to a natural, a half going to the even neighbour. -/
def roundHalfEven (num den : Nat) : Nat :=
  let m := num / den
  let r := num % den
  if den < 2 * r ∨ (2 * r = den ∧ m % 2 = 1) then m + 1 else m

/-- The exponent of the double nearest to `num / den`: the one that leaves fifty-three bits before
the point, but never below the exponent of the subnormals. -/
def quotientExponent (num den : Nat) : Int :=
  let guess : Int := (num.log2 : Int) - (den.log2 : Int) - 52
  -- the quotient has either log2 num - log2 den or one bit less
  let short := num * Nat.pow 2 (-guess).toNat < den * Nat.pow 2 guess.toNat * Nat.pow 2 52
  max (-1074) (if short then guess - 1 else guess)

/-- The double nearest to `num / den`, a tie going to the even significand; `den` is positive.

Adding the significand, hidden bit and all, to the exponent field also carries a significand that
was rounded up to the next power of two into the exponent. -/
def ofRatio (negative : Bool) (num den : Nat) : Binary64 :=
  if num = 0 then zero negative
  else
    let q := quotientExponent num den
    let m := roundHalfEven (num * Nat.pow 2 (-q).toNat) (den * Nat.pow 2 q.toNat)
    let magnitude := (q + 1074).toNat * Nat.pow 2 52 + m
    if magnitude < 2047 * Nat.pow 2 52 then ofMagnitude negative magnitude else infinity negative

/-- The double nearest to an integer. -/
def ofInt (n : Int) : Binary64 := ofRatio (n < 0) n.natAbs 1

/-! ## Arithmetic and order -/

/-- The number as a `Float`. -/
def toFloat (x : Binary64) : Float := Float.ofBits x.bits

/-- The bits of a `Float`. -/
def ofFloat (x : Float) : Binary64 := ⟨x.toBits⟩

/-- Whether the number is a zero of either sign. -/
def isZero (x : Binary64) : Bool := x.significand == 0 && x.isFinite

def add (x y : Binary64) : Binary64 := ofFloat (x.toFloat + y.toFloat)

def sub (x y : Binary64) : Binary64 := ofFloat (x.toFloat - y.toFloat)

def mul (x y : Binary64) : Binary64 := ofFloat (x.toFloat * y.toFloat)

def div (x y : Binary64) : Binary64 := ofFloat (x.toFloat / y.toFloat)

/-- The numeric order: the two zeros are equal, and a NaN is comparable to nothing. -/
def compare? (x y : Binary64) : Option Ordering :=
  if x.toFloat < y.toFloat then some .lt
  else if y.toFloat < x.toFloat then some .gt
  else if x.toFloat == y.toFloat then some .eq
  else none

end Binary64

end Quadruple
