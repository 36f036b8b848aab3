import DeltaReplica.Bytes
import DeltaReplica.Element
import DeltaReplica.Json.Value

/-!
# JSON values as elements

A JSON value travels as its canonical text, whose bytes are also its key.
-/

namespace DeltaReplica

/-- The url of the type of JSON values. -/
def Json.typeUrl : String := "json.akkaserverless.com/value"

/-- The value of a JSON text in UTF-8. -/
def Json.Value.ofBytes? (bytes : List UInt8) : Option Json.Value :=
  (ofUtf8? bytes).bind fun s => Json.Value.ofChars? s.toList

instance : Element Json.Value where
  encode v := ⟨Json.typeUrl, utf8 (String.ofList v.canonical.chars)⟩
  decode p := do
    let bytes ← p.expect Json.typeUrl
    match Json.Value.ofBytes? bytes with
    | some v => .ok v
    | none => .error .json

end DeltaReplica
