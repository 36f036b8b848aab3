import DeltaReplica.Digits

/-!
# Decimal numerals

The written form of a number: an optional minus sign, a whole part, and optionally a
fraction and an exponent.
-/

namespace DeltaReplica

/-- A decimal digit. -/
abbrev Digit := Fin 10

/-- The character of a digit. -/
def Digit.char (d : Digit) : Char := digitChar d.val

/-- The digit zero. -/
def Digit.zero : Digit := ⟨0, Base.pos 10⟩

/-- The sign in front of the digits of an exponent. -/
inductive ExponentSign
  /-- No sign. -/
  | absent
  /-- A plus sign. -/
  | plus
  /-- A minus sign. -/
  | minus
deriving DecidableEq, Inhabited

/-- The characters of a sign. -/
def ExponentSign.chars : ExponentSign → List Char
  | .absent => []
  | .plus => ['+']
  | .minus => ['-']

/-- The written form of a number. -/
structure Numeral where
  /-- Whether there is a minus sign. -/
  negative : Bool := false
  /-- The digits of the whole part. -/
  whole : List Digit
  /-- The digits after the point; there is no point without any. -/
  fraction : List Digit := []
  /-- The exponent. -/
  exponent : Option (ExponentSign × List Digit) := none
deriving DecidableEq, Inhabited

namespace Numeral

/-- The characters of a numeral. -/
def chars (n : Numeral) : List Char :=
  (if n.negative then ['-'] else []) ++ n.whole.map Digit.char
    ++ (if n.fraction.isEmpty then [] else '.' :: n.fraction.map Digit.char)
    ++ n.exponent.elim [] fun (sign, ds) => 'e' :: sign.chars ++ ds.map Digit.char

/-- The numeral of an integer. -/
def ofInt (i : Int) : Numeral := { negative := i < 0, whole := digits 10 i.natAbs }

/-- Whether a numeral has neither a fraction nor an exponent. -/
def isInteger (n : Numeral) : Bool := n.fraction.isEmpty && n.exponent.isNone

/-- The integer that a numeral denotes; one with a fraction or an exponent denotes none, and
neither does the negative zero. -/
def int? (n : Numeral) : Option Int :=
  if n.isInteger then
    match n.negative, ofDigits n.whole with
    | false, m => some m
    | true, 0 => none
    | true, m => some (-m)
  else none

@[simp]
theorem int?_ofInt (i : Int) : (ofInt i).int? = some i := by
  have hd : ofDigits (digits 10 i.natAbs) = i.natAbs := ofDigits_digits i.natAbs
  simp only [int?, ofInt, isInteger, List.isEmpty_nil, Option.isNone_none, Bool.and_self, if_true,
    hd]
  by_cases h : i < 0
  · obtain ⟨m, hm⟩ : ∃ m, i.natAbs = m + 1 := ⟨i.natAbs - 1, by omega⟩
    have hi : -((m + 1 : Nat) : Int) = i := by omega
    simp only [h, decide_true, hm]
    rw [hi]
  · have hi : (i.natAbs : Int) = i := by omega
    simp only [h, decide_false]
    rw [hi]

end Numeral

end DeltaReplica
