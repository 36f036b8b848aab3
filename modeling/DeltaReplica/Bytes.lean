/-!
# Bytes

The byte forms of text and of numbers of fixed width: UTF-8, and the big-endian
digits in base 256.
-/

namespace DeltaReplica

/-- The UTF-8 form of a text. -/
def utf8 (s : String) : List UInt8 := s.toByteArray.data.toList

/-- The text with a given UTF-8 form. -/
def ofUtf8? (bytes : List UInt8) : Option String := String.fromUTF8? ⟨bytes.toArray⟩

/-- The `width` last digits of a number in base 256, the most significant first. -/
def bigEndian : (width : Nat) → Nat → List UInt8
  | 0, _ => []
  | width + 1, n => bigEndian width (n / 256) ++ [UInt8.ofNat n]

/-- The number with given digits in base 256. -/
def ofBigEndian (bytes : List UInt8) : Nat := bytes.foldl (fun n b => n * 256 + b.toNat) 0

theorem utf8_eq_flatMap (s : String) : utf8 s = s.toList.flatMap String.utf8EncodeChar := by
  obtain ⟨cs, rfl⟩ : ∃ cs, s = String.ofList cs := ⟨s.toList, String.ofList_toList.symm⟩
  simp [utf8, List.utf8Encode]

/-- A byte sequence is the UTF-8 form of at most one text. -/
theorem ofUtf8?_eq_some_iff {bytes : List UInt8} {s : String} :
    ofUtf8? bytes = some s ↔ bytes = utf8 s := by
  constructor
  · intro h
    unfold ofUtf8? String.fromUTF8? at h
    split at h
    · simp only [Option.some.injEq] at h
      subst h
      simp [utf8, String.fromUTF8]
    · simp at h
  · rintro rfl
    have e : (⟨(utf8 s).toArray⟩ : ByteArray) = s.toByteArray := by simp [utf8]
    unfold ofUtf8? String.fromUTF8?
    rw [e, dif_pos s.isValidUTF8]
    rfl

@[simp]
theorem ofUtf8?_utf8 (s : String) : ofUtf8? (utf8 s) = some s :=
  ofUtf8?_eq_some_iff.mpr rfl

@[simp]
theorem length_bigEndian (width n : Nat) : (bigEndian width n).length = width := by
  induction width generalizing n with
  | zero => rfl
  | succ width ih => simp [bigEndian, ih]

theorem ofBigEndian_append_singleton (bytes : List UInt8) (b : UInt8) :
    ofBigEndian (bytes ++ [b]) = ofBigEndian bytes * 256 + b.toNat := by
  simp [ofBigEndian]

@[simp]
theorem ofBigEndian_bigEndian (width n : Nat) :
    ofBigEndian (bigEndian width n) = n % Nat.pow 256 width := by
  induction width generalizing n with
  | zero => simp [bigEndian, ofBigEndian, Nat.mod_one]
  | succ width ih =>
    have hpow : Nat.pow 256 (width + 1) = 256 * Nat.pow 256 width := Nat.mul_comm _ _
    rw [bigEndian, ofBigEndian_append_singleton, ih, hpow]
    simp only [UInt8.toNat_ofNat']
    rw [Nat.mod_mul]
    omega

theorem ofBigEndian_lt (bytes : List UInt8) : ofBigEndian bytes < Nat.pow 256 bytes.length := by
  rw [← List.reverse_reverse bytes]
  induction bytes.reverse with
  | nil => simp [ofBigEndian]
  | cons b bs ih =>
    have hpow : Nat.pow 256 (bs.reverse.length + 1) = Nat.pow 256 bs.reverse.length * 256 := rfl
    have := b.toNat_lt
    rw [List.reverse_cons, ofBigEndian_append_singleton, List.length_append, List.length_singleton,
      hpow]
    omega

/-- Every byte sequence is the big-endian form of the number that it denotes. -/
theorem bigEndian_ofBigEndian (bytes : List UInt8) :
    bigEndian bytes.length (ofBigEndian bytes) = bytes := by
  rw [← List.reverse_reverse bytes]
  induction bytes.reverse with
  | nil => rfl
  | cons b bs ih =>
    have hb := b.toNat_lt
    rw [List.reverse_cons, ofBigEndian_append_singleton, List.length_append, List.length_singleton,
      bigEndian, show (ofBigEndian bs.reverse * 256 + b.toNat) / 256 = ofBigEndian bs.reverse by omega,
      ih]
    congr 2
    apply UInt8.toNat_inj.mp
    rw [UInt8.toNat_ofNat']
    omega

end DeltaReplica
