import DeltaReplica.Digits
import DeltaReplica.Text.CombiningMark
import DeltaReplica.Text.Ignorable
import DeltaReplica.Text.Printable

/-!
# Quoted text

Text in double quotes for diagnostics.  A quote and a backslash are preceded by a
backslash, four controls have a letter of their own, and a character that would not
be seen, or that would merge with its neighbour, is written by its code point.
Which characters those are is a parameter: a quoted text can be read back whatever
the choice.
-/

namespace DeltaReplica.Text

/-- Whether a character is a control of the general category Cc. -/
def isControl (c : Char) : Bool :=
  c.toNat < 0x20 || (0x7F ≤ c.toNat && c.toNat ≤ 0x9F)

/-- Whether a character is shown by its code point instead of by itself: a mark that would merge
with its neighbour, or a character that would not be seen. -/
def isHidden (c : Char) : Bool := isCombiningMark c || isIgnorable c || !isPrintable c

/-- A character of a quoted text. -/
def quoteChar (hidden : Char → Bool) (c : Char) : List Char :=
  if c = '\x00' then ['\\', '0']
  else if c = '\t' then ['\\', 't']
  else if c = '\r' then ['\\', 'r']
  else if c = '\n' then ['\\', 'n']
  else if c = '"' ∨ c = '\\' then ['\\', c]
  else if hidden c then ['\\', 'u', '\x7b'] ++ hexadecimal c.toNat ++ ['\x7d']
  else [c]

/-- A text in quotes. -/
def quote (hidden : Char → Bool) (cs : List Char) : List Char :=
  '"' :: cs.flatMap (quoteChar hidden) ++ ['"']

end DeltaReplica.Text
