import DeltaReplica.Bytes
import DeltaReplica.FinMap
import Mathlib.Tactic.SplitIfs

/-!
# The order of texts

Texts are ordered by their characters, and so are their UTF-8 forms by their bytes: of two
characters the greater one has greater bytes, and no form of a character is the beginning of another
one, so that the first character in which two texts differ decides (`utf8_lt_utf8_iff`).
-/

namespace DeltaReplica

theorem toNat_val_lt (c : Char) : c.val.toNat < 0x110000 := by
  rcases c.valid with h | ⟨-, h⟩
  · exact Nat.lt_trans h (by decide)
  · exact h

/-- The bytes of the greater of two characters are greater, whatever follows. -/
theorem utf8EncodeChar_append_lt {c d : Char} (h : c < d) (xs ys : List UInt8) :
    String.utf8EncodeChar c ++ xs < String.utf8EncodeChar d ++ ys := by
  have hlt : c.val.toNat < d.val.toNat := h
  have hc : c.val.toNat < 0x110000 := toNat_val_lt c
  have hd : d.val.toNat < 0x110000 := toNat_val_lt d
  -- all bytes but the first one hold six bits, so they are digits in base 64
  have htwo (n : Nat) : n / 4096 = n / 64 / 64 := (Nat.div_div_eq_div_mul n 64 64).symm
  have hthree (n : Nat) : n / 262144 = n / 64 / 64 / 64 := by
    rw [Nat.div_div_eq_div_mul, Nat.div_div_eq_div_mul]
  have hlast (n : Nat) : (n % 64 + 128) % 256 = n % 64 + 128 := by omega
  have hfirst₂ (n : Nat) : (n % 32 + 192) % 256 = n % 32 + 192 := by omega
  have hfirst₃ (n : Nat) : (n % 16 + 224) % 256 = n % 16 + 224 := by omega
  have hfirst₄ (n : Nat) : (n % 8 + 240) % 256 = n % 8 + 240 := by omega
  simp only [String.utf8EncodeChar, htwo, hthree]
  generalize c.val.toNat = m at *
  generalize d.val.toNat = n at *
  split_ifs <;>
    simp only [List.cons_append, List.nil_append, List.cons_lt_cons_iff, UInt8.lt_iff_toNat_lt,
      ← UInt8.toNat_inj, UInt8.toNat_ofNat', Nat.reducePow, hlast, hfirst₂, hfirst₃, hfirst₄] <;>
    omega

/-- The first difference decides, and the end of a text comes before anything else. -/
theorem flatMap_utf8EncodeChar_lt {cs ds : List Char} (h : cs < ds) :
    cs.flatMap String.utf8EncodeChar < ds.flatMap String.utf8EncodeChar := by
  induction cs generalizing ds with
  | nil =>
      cases ds with
      | nil => exact absurd h (List.not_lt_nil [])
      | cons d ds =>
          obtain ⟨b, bs, hd⟩ := List.exists_cons_of_ne_nil (String.utf8EncodeChar_ne_nil (c := d))
          rw [List.flatMap_cons, hd]
          exact List.nil_lt_cons b _
  | cons c cs ih =>
      cases ds with
      | nil => exact absurd h (List.not_lt_nil _)
      | cons d ds =>
          rw [List.flatMap_cons, List.flatMap_cons]
          rcases List.cons_lt_cons_iff.mp h with hlt | ⟨rfl, hlt⟩
          · exact utf8EncodeChar_append_lt hlt _ _
          · exact List.append_left_lt (ih hlt)

/-- Texts are in the order of their bytes. -/
theorem utf8_lt_utf8_iff {s t : String} : utf8 s < utf8 t ↔ s < t := by
  have hmono {s t : String} (h : s < t) : utf8 s < utf8 t := by
    rw [utf8_eq_flatMap, utf8_eq_flatMap]
    exact flatMap_utf8EncodeChar_lt (String.lt_iff.mp h)
  refine ⟨fun h => ?_, hmono⟩
  rcases LawfulLT.trichotomy s t with hlt | rfl | hgt
  · exact hlt
  · exact absurd h (List.lt_irrefl _)
  · exact absurd (hmono hgt) (List.lt_asymm h)

end DeltaReplica
