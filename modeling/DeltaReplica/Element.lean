import DeltaReplica.Payload

/-!
# Elements

Replicated data never looks inside the elements, keys and register values that it
holds.  It needs their wire form, to put them into deltas and to read them back, and
a key to index them by.
-/

namespace DeltaReplica

/-- A type whose values can be held by replicated data. -/
class Element (α : Type) where
  /-- The wire form of a value. -/
  encode : α → Payload
  /-- The value with a given wire form. -/
  decode : Payload → Except DecodeError α
  /-- The key under which a value is indexed, that of its wire form by default. -/
  key : α → Key := fun a => (encode a).toKey

/-- An element type that reads back what it writes. -/
class LawfulElement (α : Type) [Element α] : Prop where
  /-- Decoding undoes encoding. -/
  decode_encode : ∀ a : α, Element.decode (Element.encode a) = .ok a

attribute [simp] LawfulElement.decode_encode

/-- Payloads are their own wire form, and are indexed as they are. -/
instance : Element Payload where
  encode p := p
  decode p := .ok p
  key p := p.toKey

instance : LawfulElement Payload where
  decode_encode _ := rfl

end DeltaReplica
