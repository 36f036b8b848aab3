import DeltaReplica.Bytes
import DeltaReplica.Digits

/-!
# String literals

A string literal is kept as it was written, as characters and escapes, since it is read
in two ways.  As a text it must hold neither raw controls nor surrogates without a
partner.  As bytes it may hold both, and a surrogate without a partner is written in
three bytes like any other code point of its size.
-/

namespace DeltaReplica.Json

/-- A piece of a string literal. -/
inductive Piece
  /-- A character that stands for itself. -/
  | plain (c : Char)
  /-- An escape, by the UTF-16 code unit that it stands for. -/
  | escape (unit : UInt16)
deriving DecidableEq, Inhabited

/-- What stands between the quotes of a string literal. -/
abbrev Literal := List Piece

/-- Whether a code unit is the first half of a pair. -/
def isHighSurrogate (u : UInt16) : Bool := 0xD800 ≤ u && u < 0xDC00

/-- Whether a code unit is the second half of a pair. -/
def isLowSurrogate (u : UInt16) : Bool := 0xDC00 ≤ u && u < 0xE000

/-- The code point that a pair of surrogates stands for. -/
def pairPoint (high low : UInt16) : Nat :=
  0x10000 + (high.toNat - 0xD800) * 0x400 + (low.toNat - 0xDC00)

/-- The bytes of a code point of three bytes, surrogates included. -/
def threeBytes (n : Nat) : List UInt8 :=
  [UInt8.ofNat (0xE0 + n / 0x1000), UInt8.ofNat (0x80 + n / 0x40 % 0x40),
    UInt8.ofNat (0x80 + n % 0x40)]

namespace Literal

/-- The text that a literal stands for. -/
def chars? : Literal → Option (List Char)
  | [] => some []
  | .plain c :: ps => if c.toNat < 0x20 then none else (chars? ps).map (c :: ·)
  | .escape u :: ps =>
    if isHighSurrogate u then
      match ps with
      | .escape v :: qs =>
        if isLowSurrogate v then (chars? qs).map (Char.ofNat (pairPoint u v) :: ·) else none
      | _ => none
    else if isLowSurrogate u then none
    else (chars? ps).map (Char.ofNat u.toNat :: ·)

/-- The text that a literal stands for, as a string. -/
def string? (l : Literal) : Option String := l.chars?.map String.ofList

/-- The bytes that a literal stands for. -/
def bytes : Literal → List UInt8
  | [] => []
  | .plain c :: ps => String.utf8EncodeChar c ++ bytes ps
  | .escape u :: ps =>
    if isHighSurrogate u then
      match ps with
      | .escape v :: qs =>
        if isLowSurrogate v then String.utf8EncodeChar (Char.ofNat (pairPoint u v)) ++ bytes qs
        else threeBytes u.toNat ++ bytes (.escape v :: qs)
      | ps => threeBytes u.toNat ++ bytes ps
    else if isLowSurrogate u then threeBytes u.toNat ++ bytes ps
    else String.utf8EncodeChar (Char.ofNat u.toNat) ++ bytes ps

/-- Whether a literal has no raw controls, which is all that is asked of one that is skipped. -/
def isSkippable (l : Literal) : Bool :=
  l.all fun
    | .plain c => 0x20 ≤ c.toNat
    | .escape _ => true

/-- Whether a character must be escaped. -/
def mustEscape (c : Char) : Bool := c = '"' || c = '\\' || c.toNat < 0x20

/-- The literal of a text; it has no more escapes than it needs. -/
def ofChars (cs : List Char) : Literal :=
  cs.map fun c => if mustEscape c then .escape (UInt16.ofNat c.toNat) else .plain c

end Literal

/-- The letter of an escape that has one. -/
def escapeLetter? (u : UInt16) : Option Char :=
  if u = 0x22 then some '"'
  else if u = 0x5C then some '\\'
  else if u = 0x08 then some 'b'
  else if u = 0x0C then some 'f'
  else if u = 0x0A then some 'n'
  else if u = 0x0D then some 'r'
  else if u = 0x09 then some 't'
  else none

/-- The code unit of an escape with a letter.  The solidus may be escaped but need not be. -/
def escapeUnit? (c : Char) : Option UInt16 :=
  if c = '"' then some 0x22
  else if c = '\\' then some 0x5C
  else if c = '/' then some 0x2F
  else if c = 'b' then some 0x08
  else if c = 'f' then some 0x0C
  else if c = 'n' then some 0x0A
  else if c = 'r' then some 0x0D
  else if c = 't' then some 0x09
  else none

/-- The characters of a piece. -/
def Piece.written : Piece → List Char
  | .plain c => [c]
  | .escape u =>
    match escapeLetter? u with
    | some c => ['\\', c]
    | none => ['\\', 'u'] ++ hexByte (UInt8.ofNat (u.toNat / 256)) ++ hexByte (UInt8.ofNat u.toNat)

/-- The characters of a literal between its quotes. -/
def Literal.written (l : Literal) : List Char := '"' :: l.flatMap Piece.written ++ ['"']

theorem escapeUnit?_of_escapeLetter? {u : UInt16} {c : Char} (h : escapeLetter? u = some c) :
    escapeUnit? c = some u := by
  unfold escapeLetter? at h
  repeat' split at h
  all_goals simp_all
  all_goals subst h; rfl

/-- An escape that is no surrogate stands for a character by itself. -/
theorem Literal.chars?_escape {u : UInt16} (hh : isHighSurrogate u = false)
    (hl : isLowSurrogate u = false) (ps : Literal) :
    chars? (.escape u :: ps) = (chars? ps).map (Char.ofNat u.toNat :: ·) := by
  rcases ps with _ | ⟨_ | _, _⟩ <;> simp [chars?, hh, hl]

/-- The literal of a text stands for the text. -/
@[simp]
theorem Literal.chars?_ofChars (cs : List Char) : (ofChars cs).chars? = some cs := by
  induction cs with
  | nil => rfl
  | cons c cs ih =>
    by_cases h : mustEscape c
    · have hc : c.toNat < 0x80 := by
        simp only [mustEscape, Bool.or_eq_true, decide_eq_true_eq] at h
        rcases h with (rfl | rfl) | h
        · decide
        · decide
        · omega
      have hu : (UInt16.ofNat c.toNat).toNat = c.toNat := by
        rw [UInt16.toNat_ofNat']
        omega
      have hh : isHighSurrogate (UInt16.ofNat c.toNat) = false := by
        simp [isHighSurrogate, UInt16.le_iff_toNat_le, hu]
        omega
      have hl : isLowSurrogate (UInt16.ofNat c.toNat) = false := by
        simp [isLowSurrogate, UInt16.le_iff_toNat_le, hu]
        omega
      have ih' : chars? (ofChars cs) = some cs := ih
      simp only [ofChars] at ih'
      simp only [ofChars, List.map_cons, h, if_true]
      rw [chars?_escape hh hl, ih', hu, Char.ofNat_toNat]
      rfl
    · have hc : ¬c.toNat < 0x20 := by
        simp only [mustEscape, Bool.or_eq_true, decide_eq_true_eq] at h
        omega
      have ih' : chars? (ofChars cs) = some cs := ih
      simp only [ofChars] at ih'
      simp [ofChars, h, chars?, hc, ih']

end DeltaReplica.Json
