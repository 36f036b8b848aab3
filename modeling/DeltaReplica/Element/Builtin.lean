import DeltaReplica.Bytes
import DeltaReplica.Double
import DeltaReplica.Element

/-!
# Built-in elements

The wire forms of text, byte strings, truth values and numbers of fixed width.
Numbers are big-endian, signed ones in two's complement.  Each value has exactly one
wire form, and the key of the value has the same url and the same bytes.
-/

namespace DeltaReplica

namespace Element

/-- The payload of a number that takes `width` bytes. -/
def encodeFixed (name : String) (width n : Nat) : Payload := .builtin name (bigEndian width n)

/-- The number in a payload of `width` bytes. -/
def decodeFixed (name : String) (width : Nat) (p : Payload) : Except DecodeError Nat := do
  let bytes ← p.expect (Payload.builtinUrl name)
  if bytes.length = width then .ok (ofBigEndian bytes)
  else .error (.malformed p.typeUrl .wrongLength)

theorem decodeFixed_encodeFixed (name : String) (width n : Nat) (h : n < Nat.pow 256 width) :
    decodeFixed name width (encodeFixed name width n) = .ok n := by
  have hmod : n % 256 ^ width = n := Nat.mod_eq_of_lt h
  simp [decodeFixed, encodeFixed, Payload.builtin, Payload.expect, hmod, bind, Except.bind]

/-- What is read as a number of fixed width is what is written for it. -/
theorem eq_encodeFixed_of_decodeFixed {name : String} {width n : Nat} {p : Payload}
    (h : decodeFixed name width p = .ok n) : p = encodeFixed name width n ∧ n < Nat.pow 256 width := by
  obtain ⟨bytes, rfl, hn⟩ := Payload.expect_bind_eq_ok_iff.mp h
  split at hn
  · next hw =>
    cases hn
    subst hw
    exact ⟨by rw [encodeFixed, bigEndian_ofBigEndian]; rfl, ofBigEndian_lt bytes⟩
  · cases hn

instance : Element String where
  encode s := .builtin "string" (utf8 s)
  decode p := do
    let bytes ← p.expect (Payload.builtinUrl "string")
    match ofUtf8? bytes with
    | some s => .ok s
    | none => .error (.malformed p.typeUrl .notUtf8)
  -- texts are keys so often that no payload is made on the way
  key s := ⟨Payload.builtinUrl "string", utf8 s⟩

instance : Element (List UInt8) where
  encode bytes := .builtin "bytes" bytes
  decode p := p.expect (Payload.builtinUrl "bytes")

instance : Element Bool where
  encode b := .builtin "bool" [if b then 1 else 0]
  decode p := do
    match ← p.expect (Payload.builtinUrl "bool") with
    | [0] => .ok false
    | [1] => .ok true
    | _ => .error (.malformed p.typeUrl .notBool)

instance : Element Int32 where
  encode i := encodeFixed "int32" 4 i.toUInt32.toNat
  decode p := (decodeFixed "int32" 4 p).map fun n => (UInt32.ofNat n).toInt32

instance : Element Int64 where
  encode i := encodeFixed "int64" 8 i.toUInt64.toNat
  decode p := (decodeFixed "int64" 8 p).map fun n => (UInt64.ofNat n).toInt64

instance : Element UInt32 where
  encode n := encodeFixed "uint32" 4 n.toNat
  decode p := (decodeFixed "uint32" 4 p).map UInt32.ofNat

instance : Element UInt64 where
  encode n := encodeFixed "uint64" 8 n.toNat
  decode p := (decodeFixed "uint64" 8 p).map UInt64.ofNat

/-- Doubles are indexed by their bit pattern, so the two zeros are different keys. -/
instance : Element Double where
  encode d := encodeFixed "double" 8 d.bits.toNat
  decode p := (decodeFixed "double" 8 p).map fun n => ⟨UInt64.ofNat n⟩

end Element

instance : LawfulElement String where
  decode_encode s := by
    simp [Element.encode, Element.decode, Payload.builtin, Payload.expect, bind, Except.bind]

instance : LawfulElement (List UInt8) where
  decode_encode bytes := by
    simp [Element.encode, Element.decode, Payload.builtin]

instance : LawfulElement Bool where
  decode_encode b := by
    cases b <;>
      simp [Element.encode, Element.decode, Payload.builtin, Payload.expect, bind, Except.bind]

instance : LawfulElement Int32 where
  decode_encode i := by
    change (Element.decodeFixed _ _ (Element.encodeFixed _ _ _)).map _ = _
    rw [Element.decodeFixed_encodeFixed _ _ _ i.toUInt32.toNat_lt]
    simp [Except.map]

instance : LawfulElement Int64 where
  decode_encode i := by
    change (Element.decodeFixed _ _ (Element.encodeFixed _ _ _)).map _ = _
    rw [Element.decodeFixed_encodeFixed _ _ _ i.toUInt64.toNat_lt]
    simp [Except.map]

instance : LawfulElement UInt32 where
  decode_encode n := by
    change (Element.decodeFixed _ _ (Element.encodeFixed _ _ _)).map _ = _
    rw [Element.decodeFixed_encodeFixed _ _ _ n.toNat_lt]
    simp [Except.map]

instance : LawfulElement UInt64 where
  decode_encode n := by
    change (Element.decodeFixed _ _ (Element.encodeFixed _ _ _)).map _ = _
    rw [Element.decodeFixed_encodeFixed _ _ _ n.toNat_lt]
    simp [Except.map]

instance : LawfulElement Double where
  decode_encode d := by
    change (Element.decodeFixed _ _ (Element.encodeFixed _ _ _)).map _ = _
    rw [Element.decodeFixed_encodeFixed _ _ _ d.bits.toNat_lt]
    simp [Except.map]

end DeltaReplica
