import DeltaReplica.Json.Token
import Mathlib.Data.List.Chain

/-!
# Scanning written tokens

The scanner reads the characters of a sequence of tokens as that sequence
(`tokens?_written`).  This asks two things of the tokens.  Each of them must be spelled as
the grammar has it: a number has digits where digits must stand and no leading zeros, and
a string has no raw quotes or backslashes.  And no two numbers stand side by side, since
nothing would tell where the first one ends.

A number is only finished by the character that follows it.  So after some tokens the
scanner either stands between tokens, or in a number that may end, which is then the last
of these tokens; `Scan.Holds` names the two.
-/

namespace DeltaReplica

theorem digit?_digitChar {b : Nat} (hb : b ≤ 16) (d : Fin b) :
    digit? b (digitChar d.val) = some d := by
  have hall : ∀ v : Fin 16, digit? 16 (digitChar v.val) = some v := by decide
  have hd := hall (d.castLE hb)
  have hlt : d.val < b := d.isLt
  simp only [digit?, Option.bind_eq_some_iff] at hd ⊢
  obtain ⟨v, hv, hsome⟩ := hd
  refine ⟨v, hv, ?_⟩
  have hval : v = d.val := by
    split at hsome
    · simpa [Fin.ext_iff] using hsome
    · cases hsome
  subst hval
  simp [hlt]

/-- Digits stand where the grammar asks for them, and there are no leading zeros. -/
structure Numeral.Spelled (n : Numeral) : Prop where
  whole : n.whole = [Digit.zero] ∨ ∃ d ds, n.whole = d :: ds ∧ d ≠ Digit.zero
  exponent : ∀ sign ds, n.exponent = some (sign, ds) → ds ≠ []

namespace Json

/-- Quotes and backslashes do not stand for themselves. -/
def Piece.Spelled : Piece → Prop
  | .plain c => c ≠ '"' ∧ c ≠ '\\'
  | .escape _ => True

/-- Quotes and backslashes are escaped. -/
def Literal.Spelled (l : Literal) : Prop := ∀ p ∈ l, p.Spelled

/-- A number or a string is spelled as the grammar has it. -/
def Token.Spelled : Token → Prop
  | .number n => n.Spelled
  | .string l => l.Spelled
  | _ => True

/-- Whether a token is a number. -/
def Token.isNumber : Token → Bool
  | .number _ => true
  | _ => false

/-- The number with further digits in the part that is being read. -/
def NumberPart.append (p : NumberPart) (n : Numeral) (ds : List Digit) : Numeral :=
  match p with
  | .whole => { n with whole := n.whole ++ ds }
  | .fraction => { n with fraction := n.fraction ++ ds }
  | .exponent => { n with exponent := n.exponent.map fun (s, es) => (s, es ++ ds) }
  | _ => n

/-- No two numbers stand side by side. -/
def NumbersApart (ts : List Token) : Prop :=
  ts.IsChain fun t t' => t.isNumber = true → t'.isNumber = false

section Reads

variable {σ ι : Type} {step : σ → ι → Option σ} {s s' s'' : σ} {x : ι} {xs xs' : List ι}

/-- A machine gets from one state to another by reading some symbols. -/
def Reads (step : σ → ι → Option σ) (s : σ) (xs : List ι) (s' : σ) : Prop :=
  xs.foldlM step s = some s'

theorem Reads.nil (s : σ) : Reads step s [] s := rfl

theorem Reads.cons (h : step s x = some s') (h' : Reads step s' xs s'') :
    Reads step s (x :: xs) s'' := by
  rw [Reads, List.foldlM_cons, h]
  exact h'

theorem Reads.append (h : Reads step s xs s') (h' : Reads step s' xs' s'') :
    Reads step s (xs ++ xs') s'' := by
  rw [Reads, List.foldlM_append, h]
  exact h'

end Reads

namespace Scan

variable (ts : List Token)

/-! ## Numbers -/

theorem step_digit {p : NumberPart} (hp : p.takesDigit = true) (n : Numeral) (d : Digit) :
    step ⟨ts, .number p n⟩ d.char = some ⟨ts, .number (p.digit n d).1 (p.digit n d).2⟩ := by
  have hd : digit? 10 d.char = some d := digit?_digitChar (by decide) d
  simp [step, NumberPart.next?, hd, hp]

/-- A digit that starts a number is read like one after a sign. -/
theorem start_digit (d : Digit) :
    start ts d.char = some ⟨ts, .number (NumberPart.sign.digit { whole := [] } d).1
      (NumberPart.sign.digit { whole := [] } d).2⟩ := by
  have hd : digit? 10 d.char = some d := digit?_digitChar (by decide) d
  have hother : ∀ d : Digit, isBlank d.char = false ∧ d.char ≠ '[' ∧ d.char ≠ ']' ∧
      d.char ≠ '\x7b' ∧ d.char ≠ '\x7d' ∧ d.char ≠ ',' ∧ d.char ≠ ':' ∧ d.char ≠ 'n' ∧
      d.char ≠ 't' ∧ d.char ≠ 'f' ∧ d.char ≠ '"' ∧ d.char ≠ '-' := by decide
  obtain ⟨h₁, h₂, h₃, h₄, h₅, h₆, h₇, h₈, h₉, h₁₀, h₁₁, h₁₂⟩ := hother d
  simp [start, hd, h₁, h₂, h₃, h₄, h₅, h₆, h₇, h₈, h₉, h₁₀, h₁₁, h₁₂]

/-- Digits that continue a part of a number are appended to it. -/
theorem reads_digits {p : NumberPart} (hp : p = .whole ∨ p = .fraction ∨ p = .exponent)
    (n : Numeral) (ds : List Digit) :
    Reads step ⟨ts, .number p n⟩ (ds.map Digit.char) ⟨ts, .number p (p.append n ds)⟩ := by
  induction ds generalizing n with
  | nil =>
      have happend : p.append n [] = n := by
        rcases hp with rfl | rfl | rfl <;> simp [NumberPart.append]
      rw [happend]
      exact .nil _
  | cons d ds ih =>
      have htakes : p.takesDigit = true := by rcases hp with rfl | rfl | rfl <;> rfl
      have hpart : (p.digit n d).1 = p := by rcases hp with rfl | rfl | rfl <;> rfl
      have happend : p.append (p.digit n d).2 ds = p.append n (d :: ds) := by
        rcases hp with rfl | rfl | rfl <;>
          simp [NumberPart.append, NumberPart.digit, Function.comp_def]
      have hstep := step_digit ts htakes n d
      rw [hpart] at hstep
      exact .cons hstep (happend ▸ ih (p.digit n d).2)

/-- The whole part of a number, with the sign before it. -/
theorem reads_whole {n : Numeral} (hn : n.Spelled) :
    ∃ p, (p = .zero ∨ p = .whole) ∧
      Reads step ⟨ts, .between⟩ ((if n.negative then ['-'] else []) ++ n.whole.map Digit.char)
        ⟨ts, .number p { negative := n.negative, whole := n.whole }⟩ := by
  have hfirst (d : Digit) (ds : List Digit) {s : Scan}
      (hrest : Reads step ⟨ts, .number (if d = Digit.zero then .zero else .whole)
        { negative := n.negative, whole := [d] }⟩ (ds.map Digit.char) s) :
      Reads step ⟨ts, .between⟩
        ((if n.negative then ['-'] else []) ++ (d :: ds).map Digit.char) s := by
    cases hnegative : n.negative with
    | false =>
        rw [hnegative] at hrest
        exact .cons (start_digit ts d) hrest
    | true =>
        rw [hnegative] at hrest
        exact .cons rfl (.cons (step_digit ts rfl _ d) hrest)
  rcases hn.whole with hzero | ⟨d, ds, hwhole, hd⟩
  · rw [hzero]
    exact ⟨.zero, Or.inl rfl, hfirst Digit.zero [] (.nil _)⟩
  · rw [hwhole]
    refine ⟨.whole, Or.inr rfl, hfirst d ds ?_⟩
    rw [if_neg hd]
    exact reads_digits ts (Or.inl rfl) _ ds

/-- The point of a number and the fraction after it. -/
theorem reads_fraction {p : NumberPart} (hp : p = .zero ∨ p = .whole) {n : Numeral}
    (hn : n.fraction = []) (d : Digit) (ds : List Digit) :
    Reads step ⟨ts, .number p n⟩ ('.' :: (d :: ds).map Digit.char)
      ⟨ts, .number .fraction { n with fraction := d :: ds }⟩ := by
  have hpoint : step ⟨ts, .number p n⟩ '.' = some ⟨ts, .number .point n⟩ := by
    rcases hp with rfl | rfl <;> rfl
  have hfirst : NumberPart.point.digit n d = (.fraction, { n with fraction := [d] }) := by
    simp [NumberPart.digit, hn]
  have hstep := step_digit ts (p := .point) rfl n d
  rw [hfirst] at hstep
  exact .cons hpoint (.cons hstep (reads_digits ts (Or.inr (Or.inl rfl)) _ ds))

/-- The exponent of a number. -/
theorem reads_exponent {p : NumberPart} (hp : p.isComplete = true) (hexponent : p ≠ .exponent)
    (n : Numeral) (sign : ExponentSign) (d : Digit) (ds : List Digit) :
    Reads step ⟨ts, .number p n⟩ ('e' :: (sign.chars ++ (d :: ds).map Digit.char))
      ⟨ts, .number .exponent { n with exponent := some (sign, d :: ds) }⟩ := by
  have hmark : step ⟨ts, .number p n⟩ 'e' =
      some ⟨ts, .number .mark { n with exponent := some (.absent, []) }⟩ := by
    cases p with
    | zero | whole | fraction => rfl
    | exponent => exact absurd rfl hexponent
    | sign | point | mark | markSign => cases hp
  have hdigits := reads_digits ts (Or.inr (Or.inr rfl))
    { n with exponent := some (sign, [d]) } ds
  refine .cons hmark ?_
  cases sign with
  | absent => exact .cons (step_digit ts rfl _ d) hdigits
  | plus => exact .cons rfl (.cons (step_digit ts rfl _ d) hdigits)
  | minus => exact .cons rfl (.cons (step_digit ts rfl _ d) hdigits)

/-- A number is read to where it may end. -/
theorem reads_numeral {n : Numeral} (hn : n.Spelled) :
    ∃ p, p.isComplete = true ∧ Reads step ⟨ts, .between⟩ n.chars ⟨ts, .number p n⟩ := by
  obtain ⟨p, hp, hwhole⟩ := reads_whole ts hn
  obtain ⟨negative, whole, fraction, exponent⟩ := n
  -- up to the exponent
  have hmantissa : ∃ p, p.isComplete = true ∧ p ≠ .exponent ∧ Reads step ⟨ts, .between⟩
      ((if negative then ['-'] else []) ++ whole.map Digit.char ++
        (if fraction.isEmpty then [] else '.' :: fraction.map Digit.char))
      ⟨ts, .number p { negative, whole, fraction }⟩ := by
    cases fraction with
    | nil =>
        refine ⟨p, ?_, ?_, hwhole.append (.nil _)⟩
        · rcases hp with rfl | rfl <;> rfl
        · rcases hp with rfl | rfl <;> decide
    | cons d ds => exact ⟨.fraction, rfl, by decide, hwhole.append (reads_fraction ts hp rfl d ds)⟩
  obtain ⟨q, hq, hne, hmantissa⟩ := hmantissa
  cases exponent with
  | none => exact ⟨q, hq, hmantissa.append (.nil _)⟩
  | some e =>
      obtain ⟨sign, ds⟩ := e
      cases ds with
      | nil => exact absurd rfl (hn.exponent sign [] rfl)
      | cons d ds => exact ⟨.exponent, rfl, hmantissa.append (reads_exponent ts hq hne _ sign d ds)⟩

/-! ## Strings -/

/-- The first of the two digits of a byte in base sixteen. -/
def highDigit (b : UInt8) : Fin 16 := ⟨b.toNat / 16, Nat.div_lt_of_lt_mul b.toNat_lt⟩

/-- The second of the two digits of a byte in base sixteen. -/
def lowDigit (b : UInt8) : Fin 16 := ⟨b.toNat % 16, Nat.mod_lt _ (by decide)⟩

theorem ofDigits_unit (u : UInt16) :
    UInt16.ofNat (ofDigits
      [highDigit (UInt8.ofNat (u.toNat / 256)), lowDigit (UInt8.ofNat (u.toNat / 256)),
        highDigit (UInt8.ofNat u.toNat), lowDigit (UInt8.ofNat u.toNat)]) = u := by
  have hu := u.toNat_lt
  apply UInt16.toNat_inj.mp
  simp only [highDigit, lowDigit, ofDigits, List.foldl_cons, List.foldl_nil,
    UInt8.toNat_ofNat', UInt16.toNat_ofNat']
  omega

/-- An escape by code unit is read as the code unit. -/
theorem reads_unit (l : Literal) (u : UInt16) :
    Reads step ⟨ts, .unit l []⟩
      (hexByte (UInt8.ofNat (u.toNat / 256)) ++ hexByte (UInt8.ofNat u.toNat))
      ⟨ts, .text (.escape u :: l)⟩ := by
  have hdigits (a b c d : Fin 16) : Reads step ⟨ts, .unit l []⟩
      [digitChar a.val, digitChar b.val, digitChar c.val, digitChar d.val]
      ⟨ts, .text (.escape (UInt16.ofNat (ofDigits [a, b, c, d])) :: l)⟩ := by
    simp [Reads, step, digit?_digitChar]
  have hunit := hdigits (highDigit (UInt8.ofNat (u.toNat / 256)))
    (lowDigit (UInt8.ofNat (u.toNat / 256))) (highDigit (UInt8.ofNat u.toNat))
    (lowDigit (UInt8.ofNat u.toNat))
  rw [ofDigits_unit] at hunit
  exact hunit

/-- A piece of a string is read as that piece. -/
theorem reads_piece {p : Piece} (hp : p.Spelled) (l : Literal) :
    Reads step ⟨ts, .text l⟩ p.written ⟨ts, .text (p :: l)⟩ := by
  cases p with
  | plain c =>
      obtain ⟨hquote, hbackslash⟩ := hp
      exact .cons (by simp [step, hquote, hbackslash]) (.nil _)
  | escape u =>
      have hbackslash : step ⟨ts, .text l⟩ '\\' = some ⟨ts, .escape l⟩ := rfl
      cases hletter : escapeLetter? u with
      | none =>
          simp only [Piece.written, hletter]
          exact .cons hbackslash (.cons rfl (reads_unit ts l u))
      | some c =>
          have hunit : escapeUnit? c = some u := escapeUnit?_of_escapeLetter? hletter
          have hc : c ≠ 'u' := by
            rintro rfl
            cases hunit
          simp only [Piece.written, hletter]
          exact .cons hbackslash (.cons (by simp [step, hc, hunit]) (.nil _))

/-- What stands between the quotes of a string. -/
theorem reads_pieces {l : Literal} (hl : l.Spelled) (acc : Literal) :
    Reads step ⟨ts, .text acc⟩ (l.flatMap Piece.written) ⟨ts, .text (l.reverse ++ acc)⟩ := by
  induction l generalizing acc with
  | nil => exact .nil _
  | cons p l ih =>
      have hrest := ih (fun q hq => hl q (List.mem_cons_of_mem p hq)) (p :: acc)
      rw [List.flatMap_cons, List.reverse_cons, List.append_assoc]
      exact (reads_piece ts (hl p List.mem_cons_self) acc).append hrest

theorem reads_literal {l : Literal} (hl : l.Spelled) :
    Reads step ⟨ts, .text []⟩ (l.flatMap Piece.written ++ ['"']) (push (.string l) ts) := by
  have hpieces := reads_pieces ts hl []
  rw [List.append_nil] at hpieces
  refine hpieces.append (.cons ?_ (.nil _))
  simp [step]

/-! ## Tokens -/

variable {ts}

/-- What the scanner may be like after some tokens, the last one first. -/
inductive Holds : List Token → Scan → Prop
  | between (ts : List Token) : Holds ts ⟨ts, .between⟩
  | number (ts : List Token) {p : NumberPart} {n : Numeral} (hp : p.isComplete = true) :
      Holds (.number n :: ts) ⟨ts, .number p n⟩

theorem Holds.finish {s : Scan} (h : Holds ts s) : s.finish = some ts.reverse := by
  cases h with
  | between => rfl
  | number ts hp => simp [Scan.finish, hp]

/-- A character that does not continue a number starts the next token. -/
theorem Holds.step_eq {s : Scan} (h : Holds ts s) {c : Char}
    (hc : ∀ (p : NumberPart) (n : Numeral), p.next? n c = none) : s.step c = start ts c := by
  cases h with
  | between => rfl
  | number ts hp => simp [step, hc, hp]

/-- A number has to be the first token or to come after another one than a number. -/
theorem Holds.reads_number {n : Numeral} (hn : n.Spelled) :
    ∃ s, Reads step ⟨ts, .between⟩ (Token.number n).written s ∧ Holds (.number n :: ts) s := by
  obtain ⟨p, hp, hreads⟩ := reads_numeral ts hn
  exact ⟨_, hreads, .number ts hp⟩

/-- Any other token is finished by its own last character. -/
theorem Holds.reads_other {s : Scan} (h : Holds ts s) {t : Token} (ht : t.Spelled)
    (hother : t.isNumber = false) : Reads step s t.written ⟨t :: ts, .between⟩ := by
  cases t with
  | openArray | closeArray | openObject | closeObject | comma | colon =>
      exact .cons (h.step_eq fun _ _ => rfl) (.nil _)
  | null => exact .cons (h.step_eq fun _ _ => rfl) rfl
  | bool b => cases b <;> exact .cons (h.step_eq fun _ _ => rfl) rfl
  | number n => cases hother
  | string l => exact .cons (h.step_eq fun _ _ => rfl) (reads_literal ts ht)

/-- The tokens are read one after the other. -/
theorem Holds.reads {s : Scan} (h : Holds ts s) {us : List Token} (hspelled : ∀ t ∈ us, t.Spelled)
    (hapart : NumbersApart us)
    (hfirst : ∀ t ∈ us.head?, t.isNumber = true → s = ⟨ts, .between⟩) :
    ∃ s', Reads step s (us.flatMap Token.written) s' ∧ Holds (us.reverse ++ ts) s' := by
  induction us generalizing ts s with
  | nil => exact ⟨s, .nil s, h⟩
  | cons t us ih =>
      have hrest : ∀ u ∈ us, u.Spelled := fun u hu => hspelled u (List.mem_cons_of_mem t hu)
      obtain ⟨hnext, hrestApart⟩ := List.isChain_cons.mp hapart
      rw [List.flatMap_cons, List.reverse_cons, List.append_assoc]
      cases hnumber : t.isNumber with
      | true =>
          cases t with
          | number n =>
              cases hfirst _ rfl hnumber
              obtain ⟨s', hreads, hholds⟩ :=
                Holds.reads_number (hspelled _ List.mem_cons_self)
              -- the next token is no number, so it finishes this one
              obtain ⟨s'', hreads', hholds'⟩ := ih hholds hrest hrestApart fun u hu hu' => by
                rw [hnext u hu rfl] at hu'
                cases hu'
              exact ⟨s'', hreads.append hreads', hholds'⟩
          | _ => cases hnumber
      | false =>
          have ht := h.reads_other (hspelled t List.mem_cons_self) hnumber
          obtain ⟨s', hreads, hholds⟩ := ih (.between (t :: ts)) hrest hrestApart fun _ _ _ => rfl
          exact ⟨s', ht.append hreads, hholds⟩

end Scan

/-- The characters of tokens are read as these tokens. -/
theorem tokens?_written {ts : List Token} (hspelled : ∀ t ∈ ts, t.Spelled)
    (hapart : NumbersApart ts) : tokens? (ts.flatMap Token.written) = some ts := by
  obtain ⟨s, hreads, hholds⟩ :=
    Scan.Holds.reads (.between []) hspelled hapart fun _ _ _ => rfl
  rw [tokens?, hreads, Option.bind_some, hholds.finish]
  simp

end Json

end DeltaReplica
