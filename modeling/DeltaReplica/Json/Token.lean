import DeltaReplica.Json.Literal
import DeltaReplica.Numeral

/-!
# Tokens of JSON text

The scanner reads a text one character at a time.  A number ends where a character does
not continue it; that character is then read as the start of the next token.  Two tokens
that touch are told apart by the grammar, which never has two values side by side.
-/

namespace DeltaReplica.Json

/-- The tokens of a JSON text. -/
inductive Token
  /-- An opening bracket of an array. -/
  | openArray
  /-- A closing bracket of an array. -/
  | closeArray
  /-- An opening brace of an object. -/
  | openObject
  /-- A closing brace of an object. -/
  | closeObject
  /-- A comma. -/
  | comma
  /-- A colon. -/
  | colon
  /-- The null value. -/
  | null
  /-- A truth value. -/
  | bool (b : Bool)
  /-- A number. -/
  | number (n : Numeral)
  /-- A string. -/
  | string (l : Literal)
deriving DecidableEq, Inhabited

/-- The characters of a token. -/
def Token.written : Token → List Char
  | .openArray => ['[']
  | .closeArray => [']']
  | .openObject => ['\x7b']
  | .closeObject => ['\x7d']
  | .comma => [',']
  | .colon => [':']
  | .null => ['n', 'u', 'l', 'l']
  | .bool true => ['t', 'r', 'u', 'e']
  | .bool false => ['f', 'a', 'l', 's', 'e']
  | .number n => n.chars
  | .string l => l.written

/-- Where a number that is being read stands. -/
inductive NumberPart
  /-- After the minus sign. -/
  | sign
  /-- After a leading zero. -/
  | zero
  /-- Within the whole part. -/
  | whole
  /-- After the point. -/
  | point
  /-- Within the fraction. -/
  | fraction
  /-- After the letter of the exponent. -/
  | mark
  /-- After the sign of the exponent. -/
  | markSign
  /-- Within the exponent. -/
  | exponent
deriving DecidableEq, Inhabited

namespace NumberPart

/-- Whether a number may end here. -/
def isComplete : NumberPart → Bool
  | .zero | .whole | .fraction | .exponent => true
  | _ => false

/-- Whether a digit may follow. -/
def takesDigit : NumberPart → Bool
  | .zero => false
  | _ => true

/-- The number with a further digit. -/
def digit (p : NumberPart) (n : Numeral) (d : Digit) : NumberPart × Numeral :=
  match p with
  | .sign => (if d = Digit.zero then .zero else .whole, { n with whole := [d] })
  | .zero | .whole => (.whole, { n with whole := n.whole ++ [d] })
  | .point | .fraction => (.fraction, { n with fraction := n.fraction ++ [d] })
  | .mark | .markSign | .exponent =>
    (.exponent, { n with exponent := n.exponent.map fun (s, ds) => (s, ds ++ [d]) })

/-- The number with a further character, if the character continues it. -/
def next? (p : NumberPart) (n : Numeral) (c : Char) : Option (NumberPart × Numeral) :=
  match digit? 10 c with
  | some d => if p.takesDigit then some (p.digit n d) else none
  | none =>
    if c = '.' ∧ (p = .zero ∨ p = .whole) then some (.point, n)
    else if (c = 'e' ∨ c = 'E') ∧ p.isComplete ∧ p ≠ .exponent then
      some (.mark, { n with exponent := some (.absent, []) })
    else if c = '+' ∧ p = .mark then some (.markSign, { n with exponent := some (.plus, []) })
    else if c = '-' ∧ p = .mark then some (.markSign, { n with exponent := some (.minus, []) })
    else none

end NumberPart

/-- What the scanner is in the middle of. -/
inductive Mode
  /-- Nothing. -/
  | between
  /-- A word, of which these characters are still to come. -/
  | word (rest : List Char) (t : Token)
  /-- A number. -/
  | number (p : NumberPart) (n : Numeral)
  /-- A string. -/
  | text (l : Literal)
  /-- An escape of a string. -/
  | escape (l : Literal)
  /-- The digits of an escape by code unit. -/
  | unit (l : Literal) (ds : List (Fin 16))
deriving DecidableEq, Inhabited

/-- The state of the scanner: the tokens read so far, the last one first, and the mode. -/
structure Scan where
  /-- The finished tokens. -/
  tokens : List Token := []
  /-- What comes after them. -/
  mode : Mode := .between
deriving DecidableEq, Inhabited

namespace Scan

/-- The scanner after a finished token. -/
def push (t : Token) (ts : List Token) : Scan := { tokens := t :: ts }

/-- Whether a character may stand between tokens. -/
def isBlank (c : Char) : Bool := c = ' ' || c = '\t' || c = '\n' || c = '\r'

/-- The scanner after the first character of a token, or a blank. -/
def start (ts : List Token) (c : Char) : Option Scan :=
  if isBlank c then some { tokens := ts }
  else if c = '[' then some (push .openArray ts)
  else if c = ']' then some (push .closeArray ts)
  else if c = '\x7b' then some (push .openObject ts)
  else if c = '\x7d' then some (push .closeObject ts)
  else if c = ',' then some (push .comma ts)
  else if c = ':' then some (push .colon ts)
  else if c = 'n' then some ⟨ts, .word ['u', 'l', 'l'] .null⟩
  else if c = 't' then some ⟨ts, .word ['r', 'u', 'e'] (.bool true)⟩
  else if c = 'f' then some ⟨ts, .word ['a', 'l', 's', 'e'] (.bool false)⟩
  else if c = '"' then some ⟨ts, .text []⟩
  else if c = '-' then some ⟨ts, .number .sign { negative := true, whole := [] }⟩
  else
    (digit? 10 c).map fun d =>
      let (p, n) := NumberPart.sign.digit { whole := [] } d
      ⟨ts, .number p n⟩

/-- The scanner after a further character. -/
def step (s : Scan) (c : Char) : Option Scan :=
  match s.mode with
  | .between => start s.tokens c
  | .word rest t =>
    match rest with
    | [last] => if c = last then some (push t s.tokens) else none
    | next :: more => if c = next then some { s with mode := .word more t } else none
    | [] => none
  | .number p n =>
    match p.next? n c with
    | some (p', n') => some { s with mode := .number p' n' }
    | none => if p.isComplete then start (.number n :: s.tokens) c else none
  | .text l =>
    if c = '"' then some (push (.string l.reverse) s.tokens)
    else if c = '\\' then some { s with mode := .escape l }
    else some { s with mode := .text (.plain c :: l) }
  | .escape l =>
    if c = 'u' then some { s with mode := .unit l [] }
    else (escapeUnit? c).map fun u => { s with mode := .text (.escape u :: l) }
  | .unit l ds =>
    (digit? 16 c).map fun d =>
      if ds.length < 3 then { s with mode := .unit l (ds ++ [d]) }
      else { s with mode := .text (.escape (UInt16.ofNat (ofDigits (ds ++ [d]))) :: l) }

/-- The tokens of a text that ends here. -/
def finish (s : Scan) : Option (List Token) :=
  match s.mode with
  | .between => some s.tokens.reverse
  | .number p n => if p.isComplete then some (.number n :: s.tokens).reverse else none
  | _ => none

end Scan

/-- The tokens of a text. -/
def tokens? (cs : List Char) : Option (List Token) := (cs.foldlM Scan.step {}).bind Scan.finish

end DeltaReplica.Json
