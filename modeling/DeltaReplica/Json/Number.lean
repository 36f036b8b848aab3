import DeltaReplica.Double.Shortest

/-!
# Numbers of JSON values

An integer literal is an exact integer if it fits into 64 bits, signed or unsigned.  Any
other number is a double: as many digits as fit into 64 unsigned bits are taken as an
integer, which is then scaled by powers of ten, with a rounding at each step.
-/

namespace DeltaReplica

/-- Whether a pattern stands for a number. -/
def Double.isFinite (d : Double) : Bool := d.magnitudeBits < Double.infinityBits

namespace Json

/-- A number of a JSON value. -/
inductive Number
  /-- An integer of 64 bits, signed or unsigned. -/
  | integer (i : Int) (inRange : -0x8000000000000000 ≤ i ∧ i < 0x10000000000000000)
  /-- Any other number. -/
  | double (d : Double) (finite : d.isFinite = true)
deriving DecidableEq

namespace Number

/-- The leading digits that can be added to a number without leaving 64 bits, and how many
digits are left. -/
def absorb (n : Nat) : List Digit → Nat × Nat
  | [] => (n, 0)
  | d :: ds =>
    if n * 10 + d.val < 0x10000000000000000 then absorb (n * 10 + d.val) ds
    else (n, ds.length + 1)

/-- A finite double as a number. -/
def ofDouble? (d : Double) : Option Number :=
  if h : d.isFinite = true then some (.double d h) else none

/-- The double nearest to a power of ten. -/
def powerOfTen (e : Nat) : Double := .nearest false (Nat.pow 10 e) 1

/-- A double divided by a power of ten, in two steps if there is no double for the power.  With
a third step the quotient would be zero, since the dividend has at most twenty digits. -/
def divPowerOfTen (d : Double) (e : Nat) : Double :=
  if e ≤ 308 then d.div (powerOfTen e)
  else if e ≤ 616 then (d.div (powerOfTen 308)).div (powerOfTen (e - 308))
  else .zero d.isNegative

/-- An integer of at most 64 bits times a power of ten, as a double; it must not overflow. -/
def scale? (negative : Bool) (significand : Nat) (e : Int) : Option Number :=
  let d := Double.nearest negative significand 1
  if e < 0 then ofDouble? (divPowerOfTen d (-e).toNat)
  else if e ≤ 308 then ofDouble? (d.mul (powerOfTen e.toNat))
  else if significand = 0 then ofDouble? d
  else none

/-- The value of an exponent. -/
def exponentValue : Option (ExponentSign × List Digit) → Int
  | none => 0
  | some (.minus, ds) => -(ofDigits ds : Int)
  | some (_, ds) => ofDigits ds

/-- The number that a numeral denotes. -/
def ofNumeral? (n : Numeral) : Option Number :=
  let (m, left) := absorb 0 n.whole
  if n.isInteger ∧ left = 0 then
    let i : Int := if n.negative then -m else m
    if h : (-0x8000000000000000 ≤ i ∧ i < 0x10000000000000000) ∧
        ¬(n.negative = true ∧ m = 0) then
      some (.integer i h.1)
    else scale? n.negative m 0
  else
    let (m', left') := absorb m n.fraction
    scale? n.negative m'
      (exponentValue n.exponent + left - (n.fraction.length - left' : Nat))

/-- Doubles are plain from 1e-5 to 1e16, and positive exponents have a plus sign. -/
def layout : Double.Layout := { plainFrom := -5, plainBelow := 16, plusSign := true }

/-- The numeral of a number. -/
def numeral : Number → Numeral
  | .integer i _ => .ofInt i
  | .double d _ => d.numeral layout

/-- Equality of numbers; an integer never equals a double, and the two zeros are equal. -/
def same : Number → Number → Bool
  | .integer i _, .integer j _ => i = j
  | .double a _, .double b _ => a.same b
  | _, _ => false

end Number

end Json

end DeltaReplica
