/-!
# Positional numerals

The digits of a number in a base, the most significant first, and the characters
that stand for them.  Zero has the single digit zero; no other number starts with
a zero.
-/

namespace DeltaReplica

/-- A base of numerals. -/
class Base (b : Nat) : Prop where
  /-- Zero is not the only digit. -/
  two_le : 2 ≤ b

instance base_ten : Base 10 := ⟨by decide⟩

instance base_sixteen : Base 16 := ⟨by decide⟩

theorem Base.pos (b : Nat) [Base b] : 0 < b := Nat.lt_of_lt_of_le Nat.two_pos Base.two_le

/-- The number whose digits in base `b` are given. -/
def ofDigits {b : Nat} (ds : List (Fin b)) : Nat :=
  ds.foldl (fun n d => n * b + d.val) 0

/-- The last digit of a number. -/
def lastDigit (b : Nat) [Base b] (n : Nat) : Fin b := ⟨n % b, Nat.mod_lt n (Base.pos b)⟩

/-- At most `fuel` digits of `n` in front of the digits already found. -/
def digitsOnto (b : Nat) [Base b] : Nat → Nat → List (Fin b) → List (Fin b)
  | 0, _, ds => ds
  | fuel + 1, n, ds =>
    if n < b then lastDigit b n :: ds
    else digitsOnto b fuel (n / b) (lastDigit b n :: ds)

/-- The digits of a number in base `b`; a number has at most as many digits as its successor. -/
def digits (b : Nat) [Base b] (n : Nat) : List (Fin b) := digitsOnto b (n + 1) n []

/-- The character of a digit below sixteen, with lower-case letters from ten on. -/
def digitChar (d : Nat) : Char :=
  if d < 10 then Char.ofNat ('0'.toNat + d) else Char.ofNat ('a'.toNat + (d - 10))

/-- The digit in base `b` that a character stands for; letters count in either case. -/
def digit? (b : Nat) (c : Char) : Option (Fin b) :=
  let value : Option Nat :=
    if '0' ≤ c ∧ c ≤ '9' then some (c.toNat - '0'.toNat)
    else if 'a' ≤ c ∧ c ≤ 'f' then some (c.toNat - 'a'.toNat + 10)
    else if 'A' ≤ c ∧ c ≤ 'F' then some (c.toNat - 'A'.toNat + 10)
    else none
  value.bind fun v => if h : v < b then some ⟨v, h⟩ else none

/-- The decimal numeral of a number. -/
def decimal (n : Nat) : List Char := (digits 10 n).map fun d => digitChar d.val

/-- The decimal numeral of an integer, with a minus sign below zero. -/
def decimalInt (i : Int) : List Char :=
  if i < 0 then '-' :: decimal i.natAbs else decimal i.natAbs

/-- The hexadecimal numeral of a number, without padding. -/
def hexadecimal (n : Nat) : List Char := (digits 16 n).map fun d => digitChar d.val

/-- The two hexadecimal digits of a byte. -/
def hexByte (b : UInt8) : List Char := [digitChar (b.toNat / 16), digitChar (b.toNat % 16)]

theorem foldl_digitsOnto {b : Nat} [Base b] (fuel n : Nat) (h : n < fuel)
    (ds : List (Fin b)) :
    ofDigits (digitsOnto b fuel n ds) = ds.foldl (fun n d => n * b + d.val) n := by
  have hb : 2 ≤ b := Base.two_le
  induction fuel generalizing n ds with
  | zero => omega
  | succ fuel ih =>
    rw [digitsOnto]
    split
    · next hn => simp [ofDigits, lastDigit, Nat.mod_eq_of_lt hn]
    · next hn =>
      have hlt : n / b < n := Nat.div_lt_self (by omega) (by omega)
      rw [ih (n / b) (by omega)]
      simp only [List.foldl_cons, lastDigit]
      rw [Nat.mul_comm, Nat.div_add_mod]

/-- The digits of a number denote it. -/
theorem ofDigits_digits {b : Nat} [Base b] (n : Nat) :
    ofDigits (digits b n) = n := by
  simpa [digits] using foldl_digitsOnto (b := b) (n + 1) n (Nat.lt_succ_self n) []

end DeltaReplica
