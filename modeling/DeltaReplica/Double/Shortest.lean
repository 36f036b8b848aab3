import DeltaReplica.Double
import DeltaReplica.Numeral

/-!
# Shortest decimal text

The decimal numerals that read back as a double form an interval.  The text of a
double is the shortest decimal in it, and of several the one nearest to the number.
-/

namespace DeltaReplica.Double

/-- A positive decimal: digits, the first and the last not zero, and the power of ten of the
unit of the last digit. -/
structure Decimal where
  /-- The digits as a natural number. -/
  digits : Nat
  /-- The power of ten that the digits are multiplied with. -/
  exponent : Int
deriving DecidableEq, Inhabited

/-- A decimal as a quotient of naturals. -/
def Decimal.ratio (x : Decimal) : Nat × Nat :=
  if 0 ≤ x.exponent then (x.digits * Nat.pow 10 x.exponent.toNat, 1)
  else (x.digits, Nat.pow 10 (-x.exponent).toNat)

/-- Whether a decimal is rounded to the magnitude of a double. -/
def readsBack (d : Double) (x : Decimal) : Bool :=
  let (n, m) := x.ratio
  (nearest false n m).magnitudeBits = d.magnitudeBits

/-- The two neighbours of a quotient on the grid of multiples of a power of ten, the nearer one
first; a tie goes to the even neighbour. -/
def neighbours (num den : Nat) (e : Int) : List Decimal :=
  let (n, d) := if 0 ≤ e then (num, den * Nat.pow 10 e.toNat)
    else (num * Nat.pow 10 (-e).toNat, den)
  let low : Decimal := ⟨n / d, e⟩
  let high : Decimal := ⟨n / d + 1, e⟩
  if divNearest n d = n / d then [low, high] else [high, low]

/-- The power of ten of the first digit of a positive quotient. -/
def leadingPower (num den : Nat) : Int :=
  let guess : Int := (Nat.log2 num - Nat.log2 den : Int) * 30103 / 100000 - 2
  let step (e : Int) : Int :=
    let (n, d) := if 0 ≤ e + 1 then (num, den * Nat.pow 10 (e + 1).toNat)
      else (num * Nat.pow 10 (-(e + 1)).toNat, den)
    if d ≤ n then e + 1 else e
  step (step (step (step guess)))

/-- The first decimal that reads back, on ever finer grids of at most `fuel` more digits. -/
def shortestFrom (d : Double) (num den : Nat) : Nat → Int → Option Decimal
  | 0, _ => none
  | fuel + 1, e =>
    match (neighbours num den e).find? fun x => x.digits ≠ 0 && d.readsBack x with
    | some x => some x
    | none => shortestFrom d num den fuel (e - 1)

/-- The shortest decimal that reads back as the magnitude of a finite nonzero double; seventeen
digits always suffice. -/
def shortest (d : Double) : Decimal :=
  let (num, den) := d.ratio
  (shortestFrom d num den 17 (leadingPower num den)).getD ⟨0, 0⟩

/-- How a text chooses between plain and scientific form. -/
structure Layout where
  /-- The power of ten from which on numbers are plain. -/
  plainFrom : Int
  /-- The power of ten from which on numbers are scientific again. -/
  plainBelow : Int
  /-- Whether a positive exponent has a plus sign. -/
  plusSign : Bool
deriving DecidableEq, Inhabited

/-- The numeral of a positive decimal; the plain form has at least one digit after the point. -/
def Layout.numeral (l : Layout) (negative : Bool) (x : Decimal) : Numeral :=
  let padded := digits 10 x.digits
  let trailing := (padded.reverse.takeWhile (· = Digit.zero)).length
  let ds := padded.take (padded.length - trailing)
  let unit := x.exponent + trailing
  let power := unit + ds.length - 1
  if l.plainFrom ≤ power ∧ power < l.plainBelow then
    if 0 ≤ unit then
      { negative, whole := ds ++ List.replicate unit.toNat Digit.zero, fraction := [.zero] }
    else if 0 ≤ power then
      { negative, whole := ds.take (power + 1).toNat, fraction := ds.drop (power + 1).toNat }
    else
      { negative
        whole := [.zero]
        fraction := List.replicate (-power - 1).toNat Digit.zero ++ ds }
  else
    let sign : ExponentSign :=
      if power < 0 then .minus else if l.plusSign then .plus else .absent
    { negative
      whole := ds.take 1
      fraction := ds.drop 1
      exponent := some (sign, digits 10 power.natAbs) }

/-- The shortest numeral of a finite double in a layout. -/
def numeral (l : Layout) (d : Double) : Numeral :=
  if d.isZero then { negative := d.isNegative, whole := [.zero], fraction := [.zero] }
  else l.numeral d.isNegative d.shortest

/-- The shortest text of a double in a layout. -/
def text (l : Layout) (d : Double) : List Char :=
  if d.isNaN then ['N', 'a', 'N']
  else if d.isInfinite then (if d.isNegative then ['-'] else []) ++ ['i', 'n', 'f']
  else (d.numeral l).chars

end DeltaReplica.Double
