import DeltaReplica.FinMap

/-!
# Payloads and keys

A payload is the form in which elements, map keys and register values travel: an
opaque run of bytes under the url of its type.  A key is the form by which they
are indexed.  Both are ordered by type url and then by bytes, a shorter run of
bytes before its extensions.
-/

namespace DeltaReplica

/-- A value in its wire form: bytes tagged with the url of their type. -/
structure Payload where
  /-- The url of the type. -/
  typeUrl : String
  /-- The encoded value. -/
  value : List UInt8
deriving DecidableEq, Inhabited

/-- The identity by which a value is indexed; equal values have equal keys. -/
structure Key where
  /-- The url of the type. -/
  typeUrl : String
  /-- The identifying bytes. -/
  bytes : List UInt8
deriving DecidableEq, Inhabited

/-- Why a payload cannot be read as a value of some type. -/
inductive DecodeFault
  /-- The bytes of a string are not UTF-8. -/
  | notUtf8
  /-- The bytes of a truth value are not a single 0 or 1. -/
  | notBool
  /-- A number of fixed width has another count of bytes. -/
  | wrongLength
deriving DecidableEq, Inhabited

/-- The wording of a fault. -/
def DecodeFault.message : DecodeFault → String
  | .notUtf8 => "string is not valid utf-8"
  | .notBool => "bool must be a single 0 or 1 byte"
  | .wrongLength => "unexpected payload length"

/-- The ways in which reading a payload can fail. -/
inductive DecodeError
  /-- The payload has the url of another type. -/
  | typeMismatch (expected found : String)
  /-- The bytes are no value of the type. -/
  | malformed (typeUrl : String) (fault : DecodeFault)
  /-- The bytes are no JSON text. -/
  | json
deriving DecidableEq, Inhabited

/-- The wording of an error. -/
def DecodeError.message : DecodeError → String
  | .typeMismatch expected found => s!"expected a value of type {expected}, found {found}"
  | .malformed typeUrl fault => s!"malformed value of type {typeUrl}: {fault.message}"
  | .json => "invalid json value"

namespace Payload

/-- The url under which the built-in encoding of a type is known. -/
def builtinUrl (name : String) : String := "p.akkaserverless.com/" ++ name

/-- A payload of the built-in encodings. -/
def builtin (name : String) (value : List UInt8) : Payload := ⟨builtinUrl name, value⟩

/-- The bytes of a payload that must have a given type. -/
def expect (p : Payload) (typeUrl : String) : Except DecodeError (List UInt8) :=
  if p.typeUrl = typeUrl then .ok p.value else .error (.typeMismatch typeUrl p.typeUrl)

/-- The key with the url and the bytes of the payload. -/
def toKey (p : Payload) : Key := ⟨p.typeUrl, p.value⟩

theorem toKey_injective {p q : Payload} (h : p.toKey = q.toKey) : p = q := by
  cases p; cases q; simpa [toKey] using h

@[simp]
theorem expect_eq_ok_iff {p : Payload} {typeUrl : String} {bytes : List UInt8} :
    p.expect typeUrl = .ok bytes ↔ p = ⟨typeUrl, bytes⟩ := by
  obtain ⟨url, value⟩ := p
  by_cases h : url = typeUrl <;> simp [expect, h]

/-- Reading the bytes of a payload succeeds on a payload of the type only. -/
theorem expect_bind_eq_ok_iff {α : Type} {p : Payload} {typeUrl : String}
    {f : List UInt8 → Except DecodeError α} {a : α} :
    p.expect typeUrl >>= f = .ok a ↔ ∃ bytes, p = ⟨typeUrl, bytes⟩ ∧ f bytes = .ok a := by
  obtain ⟨url, value⟩ := p
  by_cases h : url = typeUrl <;> simp [expect, h, bind, Except.bind]

end Payload

namespace Key

instance : LT Key where
  lt a b := a.typeUrl < b.typeUrl ∨ a.typeUrl = b.typeUrl ∧ a.bytes < b.bytes

instance : DecidableLT Key := fun a b =>
  inferInstanceAs (Decidable (a.typeUrl < b.typeUrl ∨ a.typeUrl = b.typeUrl ∧ a.bytes < b.bytes))

instance : LawfulLT Key where
  irrefl a h := by
    rcases h with h | ⟨_, h⟩
    · exact String.lt_irrefl _ h
    · exact List.lt_irrefl _ h
  trans {a b c} hab hbc := by
    rcases hab with hab | ⟨hab, hab'⟩ <;> rcases hbc with hbc | ⟨hbc, hbc'⟩
    · exact Or.inl (String.lt_trans hab hbc)
    · exact Or.inl (hbc ▸ hab)
    · exact Or.inl (hab ▸ hbc)
    · exact Or.inr ⟨hab.trans hbc, List.lt_trans hab' hbc'⟩
  trichotomy a b := by
    obtain ⟨url, bytes⟩ := a
    obtain ⟨url', bytes'⟩ := b
    rcases LawfulLT.trichotomy url url' with h | rfl | h
    · exact Or.inl (Or.inl h)
    · by_cases h : bytes < bytes'
      · exact Or.inl (Or.inr ⟨rfl, h⟩)
      · by_cases h' : bytes' < bytes
        · exact Or.inr (Or.inr (Or.inr ⟨rfl, h'⟩))
        · have e : bytes = bytes' := List.le_antisymm h' h
          exact Or.inr (Or.inl (by rw [e]))
    · exact Or.inr (Or.inr (Or.inl h))

instance : Ord Key where
  compare a b := if a < b then .lt else if b < a then .gt else .eq

theorem compare_eq_lt_iff {a b : Key} : compare a b = .lt ↔ a < b := by
  change (if a < b then _ else _) = _ ↔ _
  by_cases h : a < b
  · simp [h]
  · by_cases h' : b < a <;> simp [h, h']

theorem compare_eq_eq_iff {a b : Key} : compare a b = .eq ↔ a = b := by
  change (if a < b then _ else _) = _ ↔ _
  rcases LawfulLT.trichotomy a b with h | rfl | h
  · simp [h, LawfulLT.ne_of_lt h]
  · simp [LawfulLT.irrefl]
  · simp [h, LawfulLT.asymm h, (LawfulLT.ne_of_lt h).symm]

end Key

/-- Payloads are ordered like their keys. -/
instance : Ord Payload where
  compare p q := compare p.toKey q.toKey

end DeltaReplica
