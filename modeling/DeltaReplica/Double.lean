/-!
# Double-precision numbers

A number of the 64-bit binary format, taken as its bit pattern.  All arithmetic is
on natural numbers: a finite number is its significand times a power of two, and a
ratio is rounded to the nearest number of the format.
-/

namespace DeltaReplica

/-- A number in the 64-bit binary floating-point format. -/
structure Double where
  /-- The bit pattern: sign, eleven bits of exponent, fifty-two of fraction. -/
  bits : UInt64
deriving DecidableEq, Inhabited

namespace Double

/-- Whether the sign bit is set. -/
def isNegative (d : Double) : Bool := 0x8000000000000000 ≤ d.bits.toNat

/-- The pattern without its sign. -/
def magnitudeBits (d : Double) : Nat := d.bits.toNat % 0x8000000000000000

/-- The exponent field; its greatest value marks what is not a finite number. -/
def exponentField (d : Double) : Nat := d.magnitudeBits / 0x10000000000000

/-- The fraction field. -/
def fractionField (d : Double) : Nat := d.magnitudeBits % 0x10000000000000

/-- The magnitude bits of infinity. -/
def infinityBits : Nat := 0x7ff0000000000000

/-- Whether the pattern stands for no number. -/
def isNaN (d : Double) : Bool := infinityBits < d.magnitudeBits

/-- Whether the pattern is an infinity. -/
def isInfinite (d : Double) : Bool := d.magnitudeBits = infinityBits

/-- Whether the number is a zero of either sign. -/
def isZero (d : Double) : Bool := d.magnitudeBits = 0

/-- The integer significand of a finite number. -/
def significand (d : Double) : Nat :=
  if d.exponentField = 0 then d.fractionField else 0x10000000000000 + d.fractionField

/-- The power of two that the significand is multiplied with. -/
def scale (d : Double) : Int := (max d.exponentField 1 : Nat) - 1075

/-- A quotient of naturals times a power of two, as a quotient of naturals. -/
def shiftRatio (num den : Nat) (e : Int) : Nat × Nat :=
  if 0 ≤ e then (num <<< e.toNat, den) else (num, den <<< (-e).toNat)

/-- The magnitude of a finite number as a quotient of naturals. -/
def ratio (d : Double) : Nat × Nat := shiftRatio d.significand 1 d.scale

/-- The number with a sign and given magnitude bits. -/
def ofMagnitude (negative : Bool) (bits : Nat) : Double :=
  ⟨UInt64.ofNat (if negative then 0x8000000000000000 + bits else bits)⟩

/-- The zero of a sign. -/
def zero (negative : Bool) : Double := ofMagnitude negative 0

/-- The number with the opposite sign. -/
def neg (d : Double) : Double := ofMagnitude (!d.isNegative) d.magnitudeBits

/-- Equality of numbers: the zeros are equal, and what is not a number equals nothing. -/
def same (a b : Double) : Bool :=
  !a.isNaN && !b.isNaN && (a = b || (a.isZero && b.isZero))

/-- A quotient rounded to the nearest natural number, a tie to the even one. -/
def divNearest (num den : Nat) : Nat :=
  let q := num / den
  let r := num % den
  if den < 2 * r ∨ (2 * r = den ∧ q % 2 = 1) then q + 1 else q

/-- The power of two such that a quotient over it has fifty-three bits, or the least one there is. -/
def fittingScale (num den : Nat) : Int :=
  let e : Int := (Nat.log2 num : Int) - Nat.log2 den - 53
  let (n, d) := shiftRatio num den (-e)
  max (if 0x20000000000000 * d ≤ n then e + 1 else e) (-1074)

/-- The number nearest to a quotient, a tie to the one with an even significand.  A carry out
of the significand moves into the exponent field by itself. -/
def nearest (negative : Bool) (num den : Nat) : Double :=
  if num = 0 then zero negative
  else
    let e := fittingScale num den
    let (n, d) := shiftRatio num den (-e)
    ofMagnitude negative
      (min infinityBits ((e + 1074).toNat * 0x10000000000000 + divNearest n d))

/-- The product of two finite numbers, rounded. -/
def mul (a b : Double) : Double :=
  nearest (a.isNegative != b.isNegative) (a.ratio.1 * b.ratio.1) (a.ratio.2 * b.ratio.2)

/-- The quotient of two finite numbers, rounded; the divisor must not be zero. -/
def div (a b : Double) : Double :=
  nearest (a.isNegative != b.isNegative) (a.ratio.1 * b.ratio.2) (a.ratio.2 * b.ratio.1)

end Double

end DeltaReplica
