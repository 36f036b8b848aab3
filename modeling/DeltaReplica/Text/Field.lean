import DeltaReplica.Digits

/-!
# Numbers in fields

An integer written into a field of at least a given width.
-/

namespace DeltaReplica.Text

/-- Where a number stands in a field that is wider than it. -/
inductive Placement
  /-- At the left end. -/
  | left
  /-- In the middle, with the odd blank on its right. -/
  | middle
  /-- At the right end. -/
  | right
  /-- At the right end, with zeros between the sign and the digits. -/
  | zeroFilled
deriving DecidableEq, Inhabited

/-- How an integer is written into a field. -/
structure Field where
  /-- The least number of characters. -/
  width : Nat := 0
  /-- Where the number stands. -/
  placement : Placement := .right
  /-- Whether a number that is not negative has a plus sign. -/
  showPlus : Bool := false
deriving DecidableEq, Inhabited

/-- The sign of an integer in a field. -/
def Field.sign (f : Field) (i : Int) : List Char :=
  if i < 0 then ['-'] else if f.showPlus then ['+'] else []

/-- The text of an integer in a field. -/
def Field.write (f : Field) (i : Int) : List Char :=
  let sign := f.sign i
  let digits := decimal i.natAbs
  let gap := f.width - (sign.length + digits.length)
  match f.placement with
  | .left => sign ++ digits ++ List.replicate gap ' '
  | .middle =>
    List.replicate (gap / 2) ' ' ++ sign ++ digits ++ List.replicate (gap - gap / 2) ' '
  | .right => List.replicate gap ' ' ++ sign ++ digits
  | .zeroFilled => sign ++ List.replicate gap '0' ++ digits

end DeltaReplica.Text
