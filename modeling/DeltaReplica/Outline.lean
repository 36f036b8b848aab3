/-!
# Outlines

The structure of a value as it is shown for debugging, and its two layouts: on a single
line, or with every part on a line of its own, indented below what it is part of.
-/

namespace DeltaReplica

/-- The structure of a value. -/
inductive Outline
  /-- A text that is not laid out any further. -/
  | atom (text : List Char)
  /-- A sequence. -/
  | list (items : List Outline)
  /-- A set. -/
  | set (items : List Outline)
  /-- A map. -/
  | map (entries : List (Outline × Outline))
  /-- A name with unnamed parts. -/
  | tuple (name : String) (items : List Outline)
  /-- A name with named parts. -/
  | record (name : String) (fields : List (String × Outline))
  /-- A title in front of a value. -/
  | titled (title : String) (o : Outline)
deriving Inhabited

namespace Outline

/-- The outline of a text. -/
def ofString (s : String) : Outline := .atom s.toList

/-- A text whose lines are indented by one level. -/
def indent (text : List Char) : List Char :=
  [' ', ' ', ' ', ' '] ++ text.flatMap fun c =>
    if c = '\n' then ['\n', ' ', ' ', ' ', ' '] else [c]

/-- Parts between brackets: side by side, or each on a line of its own. -/
def bracket (pretty : Bool) (opening closing : List Char) (parts : List (List Char)) :
    List Char :=
  if parts.isEmpty then opening ++ closing
  else if pretty then
    opening ++ '\n' :: parts.flatMap (fun p => indent (p ++ [',']) ++ ['\n']) ++ closing
  else opening ++ [',', ' '].intercalate parts ++ closing

/-- The brace that opens the fields of a record, and the one that closes them. -/
def braces (pretty : Bool) (name : String) : List Char × List Char :=
  if pretty then (name.toList ++ [' ', '\x7b'], ['\x7d'])
  else (name.toList ++ [' ', '\x7b', ' '], [' ', '\x7d'])

mutual

/-- The text of an outline. -/
def chars (pretty : Bool) : Outline → List Char
  | .atom text => text
  | .list items => bracket pretty ['['] [']'] (itemChars pretty items)
  | .set items => bracket pretty ['\x7b'] ['\x7d'] (itemChars pretty items)
  | .map entries => bracket pretty ['\x7b'] ['\x7d'] (entryChars pretty entries)
  | .tuple name items => bracket pretty (name.toList ++ ['(']) [')'] (itemChars pretty items)
  | .record name fields =>
    let (opening, closing) := braces pretty name
    bracket pretty opening closing (fieldChars pretty fields)
  | .titled title o => title.toList ++ ' ' :: chars pretty o

/-- The texts of unnamed parts. -/
def itemChars (pretty : Bool) : List Outline → List (List Char)
  | [] => []
  | o :: os => chars pretty o :: itemChars pretty os

/-- The texts of the entries of a map. -/
def entryChars (pretty : Bool) : List (Outline × Outline) → List (List Char)
  | [] => []
  | (k, v) :: es => (chars pretty k ++ ':' :: ' ' :: chars pretty v) :: entryChars pretty es

/-- The texts of named parts. -/
def fieldChars (pretty : Bool) : List (String × Outline) → List (List Char)
  | [] => []
  | (name, o) :: fs => (name.toList ++ ':' :: ' ' :: chars pretty o) :: fieldChars pretty fs

end

/-- The text of an outline as a string. -/
def text (pretty : Bool) (o : Outline) : String := String.ofList (o.chars pretty)

mutual

/-- Whether some set or map has several members, whose order is a matter of choice. -/
def hasChoice : Outline → Bool
  | .atom _ => false
  | .list items => anyChoice items
  | .set items => 1 < items.length || anyChoice items
  | .map entries => 1 < entries.length || anyEntryChoice entries
  | .tuple _ items => anyChoice items
  | .record _ fields => anyFieldChoice fields
  | .titled _ o => hasChoice o

/-- Whether there is a choice in some part. -/
def anyChoice : List Outline → Bool
  | [] => false
  | o :: os => hasChoice o || anyChoice os

/-- Whether there is a choice in some entry. -/
def anyEntryChoice : List (Outline × Outline) → Bool
  | [] => false
  | (k, v) :: es => hasChoice k || hasChoice v || anyEntryChoice es

/-- Whether there is a choice in some field. -/
def anyFieldChoice : List (String × Outline) → Bool
  | [] => false
  | (_, o) :: fs => hasChoice o || anyFieldChoice fs

end

end Outline

/-- A type whose values have an outline. -/
class HasOutline (α : Type) where
  /-- The outline of a value. -/
  outline : α → Outline

export HasOutline (outline)

end DeltaReplica
