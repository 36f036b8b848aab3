import DeltaReplica.Element.Builtin

/-!
# Wire forms of built-in elements

Each value of a built-in type has one wire form.  What is written for it is read as this value, and
nothing else is: a payload of another type, of another length, or with bytes that are no text or no
truth value is refused.  So the key of a value, which has the url and the bytes of this form,
belongs to no other value (`Element.builtin_wire_forms`).  Texts and payloads come by their keys
without being written, and the keys are the same.

The bytes alone do not tell the types apart, since the byte string of a single one and the truth
value are both written as this byte.  What tells them apart is the url of the type.
-/

namespace DeltaReplica

namespace Element

/-- What is written for a value is read as this value and nothing else is, and the key of the value
is that of its wire form. -/
structure OneForm (α : Type) [Element α] : Prop where
  decode_encode : ∀ a : α, decode (encode a) = .ok a
  encode_of_decode : ∀ (p : Payload) (a : α), decode p = .ok a → encode a = p
  key_eq : ∀ a : α, key a = (encode a).toKey

/-- Values with one key have one wire form. -/
theorem OneForm.key_injective {α : Type} [Element α] (h : OneForm α) {a b : α}
    (hkey : key a = key b) : a = b := by
  rw [h.key_eq, h.key_eq] at hkey
  have hread := h.decode_encode a
  rw [Payload.toKey_injective hkey, h.decode_encode b] at hread
  exact (Except.ok.inj hread).symm

/-! ## The types one by one -/

theorem oneForm_payload : OneForm Payload where
  decode_encode _ := rfl
  encode_of_decode _ _ h := (Except.ok.inj h).symm
  key_eq _ := rfl

theorem oneForm_string : OneForm String where
  decode_encode := LawfulElement.decode_encode
  encode_of_decode p s h := by
    obtain ⟨bytes, rfl, hs⟩ := Payload.expect_bind_eq_ok_iff.mp h
    split at hs
    · next s' hbytes =>
      cases hs
      rw [ofUtf8?_eq_some_iff.mp hbytes]
      rfl
    · cases hs
  key_eq _ := rfl

theorem oneForm_bytes : OneForm (List UInt8) where
  decode_encode := LawfulElement.decode_encode
  encode_of_decode _ _ h := (Payload.expect_eq_ok_iff.mp h).symm
  key_eq _ := rfl

theorem oneForm_bool : OneForm Bool where
  decode_encode := LawfulElement.decode_encode
  encode_of_decode p b h := by
    obtain ⟨bytes, rfl, hb⟩ := Payload.expect_bind_eq_ok_iff.mp h
    split at hb
    · cases hb
      rfl
    · cases hb
      rfl
    · cases hb
  key_eq _ := rfl

/-- A number of fixed width is read from its digits only. -/
theorem encodeFixed_of_decodeFixed {α : Type} {name : String} {width : Nat} (toNat : α → Nat)
    {ofNat : Nat → α} (h : ∀ n < Nat.pow 256 width, toNat (ofNat n) = n) {p : Payload} {a : α}
    (hp : (decodeFixed name width p).map ofNat = .ok a) : encodeFixed name width (toNat a) = p := by
  cases hn : decodeFixed name width p with
  | error e => simp [hn, Except.map] at hp
  | ok n =>
      simp only [hn, Except.map, Except.ok.injEq] at hp
      obtain ⟨hform, hlt⟩ := eq_encodeFixed_of_decodeFixed hn
      rw [← hp, h n hlt, hform]

theorem oneForm_int32 : OneForm Int32 where
  decode_encode := LawfulElement.decode_encode
  encode_of_decode _ _ :=
    encodeFixed_of_decodeFixed (fun i : Int32 => i.toUInt32.toNat)
      fun _ => UInt32.toNat_ofNat_of_lt'
  key_eq _ := rfl

theorem oneForm_int64 : OneForm Int64 where
  decode_encode := LawfulElement.decode_encode
  encode_of_decode _ _ :=
    encodeFixed_of_decodeFixed (fun i : Int64 => i.toUInt64.toNat)
      fun _ => UInt64.toNat_ofNat_of_lt'
  key_eq _ := rfl

theorem oneForm_uint32 : OneForm UInt32 where
  decode_encode := LawfulElement.decode_encode
  encode_of_decode _ _ := encodeFixed_of_decodeFixed UInt32.toNat fun _ => UInt32.toNat_ofNat_of_lt'
  key_eq _ := rfl

theorem oneForm_uint64 : OneForm UInt64 where
  decode_encode := LawfulElement.decode_encode
  encode_of_decode _ _ := encodeFixed_of_decodeFixed UInt64.toNat fun _ => UInt64.toNat_ofNat_of_lt'
  key_eq _ := rfl

theorem oneForm_double : OneForm Double where
  decode_encode := LawfulElement.decode_encode
  encode_of_decode _ _ :=
    encodeFixed_of_decodeFixed (fun d : Double => d.bits.toNat)
      fun _ => UInt64.toNat_ofNat_of_lt'
  key_eq _ := rfl

end Element

/-! ## All types together -/

/-- The built-in types of elements that are not payloads already. -/
inductive Builtin
  /-- Texts. -/
  | string
  /-- Byte strings. -/
  | bytes
  /-- Truth values. -/
  | bool
  /-- Signed integers of 32 bits. -/
  | int32
  /-- Signed integers of 64 bits. -/
  | int64
  /-- Unsigned integers of 32 bits. -/
  | uint32
  /-- Unsigned integers of 64 bits. -/
  | uint64
  /-- Double-precision numbers. -/
  | double
deriving DecidableEq

namespace Builtin

/-- The values of a built-in type. -/
def Value : Builtin → Type
  | string => String
  | bytes => List UInt8
  | bool => Bool
  | int32 => Int32
  | int64 => Int64
  | uint32 => UInt32
  | uint64 => UInt64
  | double => Double

/-- The name in the url of a built-in type. -/
def name : Builtin → String
  | string => "string"
  | bytes => "bytes"
  | bool => "bool"
  | int32 => "int32"
  | int64 => "int64"
  | uint32 => "uint32"
  | uint64 => "uint64"
  | double => "double"

instance : (t : Builtin) → Element t.Value
  | string => inferInstanceAs (Element String)
  | bytes => inferInstanceAs (Element (List UInt8))
  | bool => inferInstanceAs (Element Bool)
  | int32 => inferInstanceAs (Element Int32)
  | int64 => inferInstanceAs (Element Int64)
  | uint32 => inferInstanceAs (Element UInt32)
  | uint64 => inferInstanceAs (Element UInt64)
  | double => inferInstanceAs (Element Double)

theorem oneForm : (t : Builtin) → Element.OneForm t.Value
  | string => Element.oneForm_string
  | bytes => Element.oneForm_bytes
  | bool => Element.oneForm_bool
  | int32 => Element.oneForm_int32
  | int64 => Element.oneForm_int64
  | uint32 => Element.oneForm_uint32
  | uint64 => Element.oneForm_uint64
  | double => Element.oneForm_double

theorem typeUrl_encode (t : Builtin) (x : t.Value) :
    (Element.encode x).typeUrl = Payload.builtinUrl t.name := by
  cases t <;> rfl

theorem name_injective {s t : Builtin} (h : s.name = t.name) : s = t := by
  revert h
  cases s <;> cases t <;> decide

end Builtin

theorem Payload.builtinUrl_injective {name name' : String}
    (h : builtinUrl name = builtinUrl name') : name = name' :=
  (String.append_right_inj _).mp h

/-- A key tells the type of its value. -/
theorem Builtin.eq_of_key_eq {s t : Builtin} {x : s.Value} {y : t.Value}
    (h : Element.key x = Element.key y) : s = t := by
  rw [s.oneForm.key_eq, t.oneForm.key_eq] at h
  have hurl : (Element.encode x).typeUrl = (Element.encode y).typeUrl := congrArg Key.typeUrl h
  rw [typeUrl_encode, typeUrl_encode] at hurl
  exact name_injective (Payload.builtinUrl_injective hurl)

/-- Values of built-in types, and payloads, have one wire form each, and no two values of built-in
types have the same key. -/
theorem Element.builtin_wire_forms :
    (∀ t : Builtin, OneForm t.Value) ∧ OneForm Payload ∧
      ∀ x y : (t : Builtin) × t.Value, key x.2 = key y.2 ↔ x = y := by
  refine ⟨Builtin.oneForm, oneForm_payload, fun x y => ⟨fun h => ?_, fun h => h ▸ rfl⟩⟩
  obtain ⟨s, x⟩ := x
  obtain ⟨t, y⟩ := y
  obtain rfl : s = t := Builtin.eq_of_key_eq h
  exact congrArg (Sigma.mk s) (s.oneForm.key_injective h)

end DeltaReplica
