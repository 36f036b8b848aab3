import DeltaReplica.Label
import DeltaReplica.Proofs.Scanning

/-!
# Labels tell keys apart

The labels of two keys of one type are the same only if the keys are, whichever characters
are shown by their code points.

What follows the colon of a label starts with a quote or with a zero, so its form can be
seen.  In a quoted text the first character can be told whatever follows it
(`Text.unquoteChar?`), and so the whole text up to the closing quote.  The other form has
two digits for each byte.
-/

namespace DeltaReplica

/-! ## Hexadecimal digits -/

theorem digitChar_injective {c d : Fin 16} (h : digitChar c.val = digitChar d.val) : c = d := by
  have hc := digit?_digitChar (Nat.le_refl 16) c
  rw [h, digit?_digitChar (Nat.le_refl 16) d] at hc
  exact (Option.some.inj hc).symm

open Json.Scan (highDigit lowDigit) in
theorem hexByte_injective {a b : UInt8} (h : hexByte a = hexByte b) : a = b := by
  obtain ⟨hhigh, hrest⟩ := List.cons.inj h
  obtain ⟨hlow, -⟩ := List.cons.inj hrest
  have hquotient : highDigit a = highDigit b := digitChar_injective hhigh
  have hremainder : lowDigit a = lowDigit b := digitChar_injective hlow
  simp only [highDigit, lowDigit, Fin.mk.injEq] at hquotient hremainder
  exact UInt8.toNat_inj.mp (by omega)

/-- Bytes with the same hexadecimal digits are the same. -/
theorem flatMap_hexByte_injective {bytes bytes' : List UInt8}
    (h : bytes.flatMap hexByte = bytes'.flatMap hexByte) : bytes = bytes' := by
  induction bytes generalizing bytes' with
  | nil =>
      match bytes' with
      | [] => rfl
      | b :: bs => exact nomatch h
  | cons a as ih =>
      match bytes' with
      | [] => exact nomatch h
      | b :: bs =>
          obtain ⟨hbyte, hbytes⟩ := List.append_inj h rfl
          rw [hexByte_injective hbyte, ih hbytes]

/-- The number that is written in hexadecimal digits. -/
def ofHexadecimal? (cs : List Char) : Option Nat := (cs.mapM (digit? 16)).map ofDigits

theorem ofHexadecimal?_hexadecimal (n : Nat) : ofHexadecimal? (hexadecimal n) = some n := by
  have hdigits (ds : List (Fin 16)) :
      (ds.map fun d => digitChar d.val).mapM (digit? 16) = some ds := by
    induction ds with
    | nil => rfl
    | cons d ds ih => simp [digit?_digitChar, ih]
  rw [ofHexadecimal?, hexadecimal, hdigits, Option.map_some, ofDigits_digits]

/-! ## Quoted text -/

namespace Text

/-- The character that a letter after a backslash stands for. -/
def ofEscapeLetter? (l : Char) : Option Char :=
  if l = '0' then some '\x00'
  else if l = 't' then some '\t'
  else if l = 'r' then some '\r'
  else if l = 'n' then some '\n'
  else if l = '"' ∨ l = '\\' then some l
  else none

/-- The first character of what stands between quotes, and what follows it; there is none before
the closing quote. -/
def unquoteChar? : List Char → Option (Char × List Char)
  | '\\' :: 'u' :: '\x7b' :: rest =>
    (ofHexadecimal? (rest.takeWhile (· ≠ '\x7d'))).map fun n =>
      (Char.ofNat n, (rest.dropWhile (· ≠ '\x7d')).tail)
  | '\\' :: l :: rest => (ofEscapeLetter? l).map fun c => (c, rest)
  | '"' :: _ => none
  | c :: rest => some (c, rest)
  | [] => none

theorem ne_brace_of_mem_hexadecimal {n : Nat} : ∀ c ∈ hexadecimal n, c ≠ '\x7d' := by
  have hdigit : ∀ d : Fin 16, digitChar d.val ≠ '\x7d' := by decide
  intro c hc
  obtain ⟨d, -, rfl⟩ := List.mem_map.mp hc
  exact hdigit d

/-- A character that is written by its code point ends at the brace. -/
theorem unquoteChar?_codePoint (c : Char) (rest : List Char) :
    unquoteChar? ('\\' :: 'u' :: '\x7b' :: (hexadecimal c.toNat ++ '\x7d' :: rest)) =
      some (c, rest) := by
  have hne : ∀ x ∈ hexadecimal c.toNat, decide (x ≠ '\x7d') = true := fun x hx =>
    decide_eq_true (ne_brace_of_mem_hexadecimal x hx)
  have htake : (hexadecimal c.toNat ++ '\x7d' :: rest).takeWhile (· ≠ '\x7d') =
      hexadecimal c.toNat := by
    rw [List.takeWhile_append_of_pos hne]
    simp
  have hdrop : (hexadecimal c.toNat ++ '\x7d' :: rest).dropWhile (· ≠ '\x7d') =
      '\x7d' :: rest := by
    rw [List.dropWhile_append_of_pos hne]
    simp
  rw [unquoteChar?, htake, hdrop, ofHexadecimal?_hexadecimal]
  simp

/-- The first character of a quoted text is read back, whatever follows it. -/
theorem unquoteChar?_quoteChar (hidden : Char → Bool) (c : Char) (rest : List Char) :
    unquoteChar? (quoteChar hidden c ++ rest) = some (c, rest) := by
  unfold quoteChar
  split_ifs with hzero htab hreturn hnewline hescaped hhidden
  · exact hzero ▸ rfl
  · exact htab ▸ rfl
  · exact hreturn ▸ rfl
  · exact hnewline ▸ rfl
  · rcases hescaped with rfl | rfl <;> rfl
  · rw [List.append_assoc, List.append_assoc]
    exact unquoteChar?_codePoint c rest
  · obtain ⟨hquote, hbackslash⟩ := not_or.mp hescaped
    simp [unquoteChar?, hbackslash]

theorem unquoteChar?_flatMap_quoteChar (hidden : Char → Bool) (cs : List Char) :
    unquoteChar? (cs.flatMap (quoteChar hidden) ++ ['"']) =
      cs.head?.map fun c => (c, cs.tail.flatMap (quoteChar hidden) ++ ['"']) := by
  match cs with
  | [] => rfl
  | c :: cs =>
      rw [List.flatMap_cons, List.append_assoc, unquoteChar?_quoteChar]
      rfl

/-- No two texts have the same quoted form. -/
theorem quote_injective {hidden : Char → Bool} {cs ds : List Char}
    (h : quote hidden cs = quote hidden ds) : cs = ds := by
  replace h : cs.flatMap (quoteChar hidden) ++ ['"'] = ds.flatMap (quoteChar hidden) ++ ['"'] :=
    (List.cons.inj h).2
  induction cs generalizing ds with
  | nil =>
      have hread := unquoteChar?_flatMap_quoteChar hidden ds
      rw [← h, unquoteChar?_flatMap_quoteChar] at hread
      exact (List.head?_eq_none_iff.mp (Option.map_eq_none_iff.mp hread.symm)).symm
  | cons c cs ih =>
      have hread := unquoteChar?_flatMap_quoteChar hidden ds
      rw [← h, unquoteChar?_flatMap_quoteChar] at hread
      obtain ⟨d, hd, hpair⟩ := Option.map_eq_some_iff.mp hread.symm
      obtain ⟨rfl, hrest⟩ := Prod.mk.inj hpair
      rw [List.eq_cons_of_mem_head? hd, ih hrest.symm]

end Text

/-! ## Labels -/

theorem showBytes_cases (hidden : Char → Bool) (bytes : List UInt8) :
    (∃ s : String, bytes = utf8 s ∧ showBytes hidden bytes = Text.quote hidden s.toList) ∨
      showBytes hidden bytes = '0' :: 'x' :: bytes.flatMap hexByte := by
  unfold showBytes
  split
  · next s hs => exact Or.inl ⟨s, ofUtf8?_eq_some_iff.mp (Option.filter_eq_some_iff.mp hs).1, rfl⟩
  · exact Or.inr rfl

/-- What is shown tells the bytes. -/
theorem showBytes_injective {hidden : Char → Bool} {bytes bytes' : List UInt8}
    (h : showBytes hidden bytes = showBytes hidden bytes') : bytes = bytes' := by
  rcases showBytes_cases hidden bytes with ⟨s, rfl, hs⟩ | hs <;>
    rcases showBytes_cases hidden bytes' with ⟨t, rfl, ht⟩ | ht <;>
    rw [hs, ht] at h
  · rw [String.toList_inj.mp (Text.quote_injective h)]
  -- one form starts with a quote, the other with a zero
  · exact nomatch h
  · exact nomatch h
  · exact flatMap_hexByte_injective (List.cons.inj (List.cons.inj h).2).2

/-- Within a type, a label tells the key, whichever characters are shown by their code points. -/
theorem Key.labelWith_eq_iff (hidden : Char → Bool) (typeUrl : String) (bytes bytes' : List UInt8) :
    Key.labelWith hidden ⟨typeUrl, bytes⟩ = Key.labelWith hidden ⟨typeUrl, bytes'⟩ ↔
      bytes = bytes' := by
  refine ⟨fun h => ?_, fun h => h ▸ rfl⟩
  have hchars := String.ofList_injective h
  exact showBytes_injective (List.cons.inj (List.append_cancel_left hchars)).2

example : Key.label ⟨"a/b", utf8 "0x00"⟩ = "b:\"0x00\"" ∧ Key.label ⟨"a/b", [0]⟩ = "b:0x00" := by
  decide +kernel

end DeltaReplica
