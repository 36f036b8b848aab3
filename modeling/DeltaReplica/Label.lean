import DeltaReplica.Bytes
import DeltaReplica.Payload
import DeltaReplica.Text.Quoted

/-!
# Labels

How keys and payloads are shown to people.  The label of a key is short: the last
segment of the type url, and the bytes as quoted text if they are text without controls,
else in hexadecimal.  A dump has the whole type url and every byte.
-/

namespace DeltaReplica

/-- What follows the last slash of a type url; all of it if there is none. -/
def lastSegment (typeUrl : List Char) : List Char :=
  (typeUrl.reverse.takeWhile (· ≠ '/')).reverse

/-- The bytes of a key, shown as text if they are text without controls. -/
def showBytes (hidden : Char → Bool) (bytes : List UInt8) : List Char :=
  match (ofUtf8? bytes).filter fun s => !s.toList.any Text.isControl with
  | some s => Text.quote hidden s.toList
  | none => ['0', 'x'] ++ bytes.flatMap hexByte

/-- The label of a key, under a choice of the characters that are shown by their code points. -/
def Key.labelWith (hidden : Char → Bool) (k : Key) : String :=
  String.ofList (lastSegment k.typeUrl.toList ++ ':' :: showBytes hidden k.bytes)

/-- The label of a key. -/
def Key.label (k : Key) : String := k.labelWith Text.isHidden

/-- A type url and bytes in full, the bytes in capital hexadecimal digits. -/
def dump (typeUrl : String) (bytes : List UInt8) : List Char :=
  typeUrl.toList ++ [':', '['] ++ [',', ' '].intercalate (bytes.map fun b => (hexByte b).map Char.toUpper)
    ++ [']']

end DeltaReplica
