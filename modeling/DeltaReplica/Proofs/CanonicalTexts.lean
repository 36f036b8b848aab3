import DeltaReplica.Element.Json
import DeltaReplica.Proofs.CanonicalValues
import DeltaReplica.Proofs.RoundTrip
import DeltaReplica.Proofs.TextOrder

/-!
# Canonical JSON texts

A value whose numbers are integers has one canonical text.  The names of each object increase in it
by their bytes, nothing blank stands outside its strings, and it is read back as the value.  So
values have one key exactly if they are equal, in whatever order their objects keep the members;
and what is read from any text, however it is spaced, ordered or escaped, is written in this form
(`Value.canonical_wire_form`).

Doubles are left out, since their text is read back through several roundings.
-/

namespace DeltaReplica.Json

/-! ## The form of a text -/

/-- A tree occurs in another one, at any depth. -/
inductive Tree.Within : Tree → Tree → Prop
  /-- A tree occurs in itself. -/
  | self (t : Tree) : Within t t
  /-- What occurs in an item of an array occurs in the array. -/
  | item {t u : Tree} {us : List Tree} (hu : u ∈ us) (h : Within t u) : Within t (.array us)
  /-- What occurs in the value of a member of an object occurs in the object. -/
  | member {t : Tree} {m : Literal × Tree} {ms : List (Literal × Tree)} (hm : m ∈ ms)
      (h : Within t m.2) : Within t (.object ms)

/-- The names of each object in a tree increase by their bytes in UTF-8. -/
def Tree.NamesIncrease (t : Tree) : Prop :=
  ∀ ms, Within (.object ms) t → ∃ names : List String,
    ms.map (fun m => m.1.string?) = names.map some ∧
      names.Pairwise fun s s' => utf8 s < utf8 s'

/-- Where a character of a text stands. -/
inductive Place
  /-- Outside of strings. -/
  | outside
  /-- In a string. -/
  | inside
  /-- In a string, after a backslash. -/
  | escaped

/-- The characters of a text that belong to no string. -/
def unquoted : Place → List Char → List Char
  | _, [] => []
  | .outside, c :: cs => if c = '"' then unquoted .inside cs else c :: unquoted .outside cs
  | .inside, c :: cs =>
    if c = '"' then unquoted .outside cs
    else if c = '\\' then unquoted .escaped cs
    else unquoted .inside cs
  | .escaped, _ :: cs => unquoted .inside cs

/-- Nothing blank stands outside the strings of a text. -/
def Compact (cs : List Char) : Prop := ∀ c ∈ unquoted .outside cs, c.isWhitespace = false

/-- A payload holds a JSON text in which the names of each object increase and which is compact. -/
def CanonicalForm (p : Payload) : Prop :=
  ∃ (s : String) (t : Tree), p = ⟨typeUrl, utf8 s⟩ ∧ Tree.ofChars? s.toList = some t ∧
    t.NamesIncrease ∧ Compact s.toList

/-! ## Blanks -/

/-- The character neither starts a string nor is it blank. -/
def IsPlain (c : Char) : Prop := c ≠ '"' ∧ c.isWhitespace = false

instance (c : Char) : Decidable (IsPlain c) :=
  inferInstanceAs (Decidable (c ≠ '"' ∧ c.isWhitespace = false))

theorem compact_append {cs rest : List Char} (hcs : ∀ c ∈ cs, IsPlain c) (h : Compact rest) :
    Compact (cs ++ rest) := by
  induction cs with
  | nil => exact h
  | cons c cs ih =>
      obtain ⟨⟨hquote, hblank⟩, hcs⟩ := List.forall_mem_cons.mp hcs
      rw [Compact, List.cons_append, unquoted, if_neg hquote]
      exact List.forall_mem_cons.mpr ⟨hblank, ih hcs⟩

/-- The character neither ends a string nor does it start an escape. -/
def IsInner (c : Char) : Prop := c ≠ '"' ∧ c ≠ '\\'

instance (c : Char) : Decidable (IsInner c) := inferInstanceAs (Decidable (c ≠ '"' ∧ c ≠ '\\'))

theorem unquoted_inner {cs : List Char} (hcs : ∀ c ∈ cs, IsInner c) (rest : List Char) :
    unquoted .inside (cs ++ rest) = unquoted .inside rest := by
  induction cs with
  | nil => rfl
  | cons c cs ih =>
      obtain ⟨⟨hquote, hbackslash⟩, hcs⟩ := List.forall_mem_cons.mp hcs
      rw [List.cons_append, unquoted, if_neg hquote, if_neg hbackslash, ih hcs]

theorem isInner_of_mem_hexByte (b : UInt8) : ∀ c ∈ hexByte b, IsInner c := by
  have hdigit : ∀ d : Fin 16, IsInner (digitChar d.val) := by decide
  exact List.forall_mem_cons.mpr
    ⟨hdigit (Scan.highDigit b), List.forall_mem_singleton.mpr (hdigit (Scan.lowDigit b))⟩

/-- A piece of a string does not end the string. -/
theorem unquoted_piece {p : Piece} (hp : p.Spelled) (rest : List Char) :
    unquoted .inside (p.written ++ rest) = unquoted .inside rest := by
  cases p with
  | plain c => exact unquoted_inner (List.forall_mem_singleton.mpr hp) rest
  | escape u =>
      cases hletter : escapeLetter? u with
      | some c => simp [Piece.written, hletter, unquoted]
      | none =>
          -- the backslash takes the `u` with it, and four hexadecimal digits follow
          have hdigits := List.forall_mem_append.mpr
            ⟨isInner_of_mem_hexByte (UInt8.ofNat (u.toNat / 256)),
              isInner_of_mem_hexByte (UInt8.ofNat u.toNat)⟩
          have hescape : unquoted .inside (['\\', 'u'] ++ (hexByte (UInt8.ofNat (u.toNat / 256)) ++
              hexByte (UInt8.ofNat u.toNat) ++ rest)) = unquoted .inside rest :=
            unquoted_inner hdigits rest
          simpa [Piece.written, hletter] using hescape

theorem compact_literal {l : Literal} (hl : l.Spelled) {rest : List Char} (h : Compact rest) :
    Compact (l.written ++ rest) := by
  have hpieces : unquoted .inside (l.flatMap Piece.written ++ '"' :: rest) =
      unquoted .outside rest := by
    induction l with
    | nil => rfl
    | cons p l ih =>
        obtain ⟨hp, hl⟩ := List.forall_mem_cons.mp hl
        rw [List.flatMap_cons, List.append_assoc, unquoted_piece hp, ih hl]
  have hwritten : l.written ++ rest = '"' :: (l.flatMap Piece.written ++ '"' :: rest) := by
    simp [Literal.written]
  rw [Compact, hwritten, unquoted, if_pos rfl, hpieces]
  exact h

theorem isPlain_of_mem_numeral (n : Numeral) : ∀ c ∈ n.chars, IsPlain c := by
  have hdigit : ∀ d : Digit, IsPlain d.char := by decide
  have hdigits (ds : List Digit) : ∀ c ∈ ds.map Digit.char, IsPlain c :=
    List.forall_mem_map.mpr fun d _ => hdigit d
  have hminus (negative : Bool) : ∀ c ∈ if negative then ['-'] else [], IsPlain c := by
    cases negative <;> simp [IsPlain, Char.isWhitespace]
  have hsign (sign : ExponentSign) : ∀ c ∈ sign.chars, IsPlain c := by
    cases sign <;> simp [IsPlain, Char.isWhitespace, ExponentSign.chars]
  obtain ⟨negative, whole, fraction, exponent⟩ := n
  refine List.forall_mem_append.mpr ⟨List.forall_mem_append.mpr
    ⟨List.forall_mem_append.mpr ⟨hminus negative, hdigits whole⟩, ?_⟩, ?_⟩
  · cases fraction with
    | nil => exact fun _ hc => nomatch hc
    | cons d ds => exact List.forall_mem_cons.mpr ⟨by decide, hdigits (d :: ds)⟩
  · cases exponent with
    | none => exact fun _ hc => nomatch hc
    | some e =>
        exact List.forall_mem_append.mpr
          ⟨List.forall_mem_cons.mpr ⟨by decide, hsign e.1⟩, hdigits e.2⟩

/-- A token has nothing blank outside of strings. -/
theorem compact_token {t : Token} (ht : t.Spelled) {rest : List Char} (h : Compact rest) :
    Compact (t.written ++ rest) := by
  cases t with
  | openArray | closeArray | openObject | closeObject | comma | colon | null =>
      exact compact_append (by simp [Token.written, IsPlain, Char.isWhitespace]) h
  | bool b =>
      cases b <;>
        exact compact_append (by simp [Token.written, IsPlain, Char.isWhitespace]) h
  | number n => exact compact_append (isPlain_of_mem_numeral n) h
  | string l => exact compact_literal ht h

theorem Tree.Spelled.compact {t : Tree} (h : t.Spelled) : Compact t.chars := by
  have htokens : ∀ us : List Token, (∀ u ∈ us, u.Spelled) → Compact (us.flatMap Token.written) := by
    intro us hus
    induction us with
    | nil => exact fun _ hc => nomatch hc
    | cons u us ih =>
        obtain ⟨hu, hus⟩ := List.forall_mem_cons.mp hus
        rw [List.flatMap_cons]
        exact compact_token hu (ih hus)
  exact htokens t.tokens h

/-! ## Integers -/

namespace Number

theorem le_foldl_digits (ds : List Digit) (n : Nat) :
    n ≤ ds.foldl (fun n d => n * 10 + d.val) n := by
  induction ds generalizing n with
  | nil => exact Nat.le_refl n
  | cons d ds ih => exact Nat.le_trans (by omega) (ih (n * 10 + d.val))

/-- Digits are absorbed as long as the number fits into 64 bits. -/
theorem absorb_eq {ds : List Digit} {n : Nat}
    (h : ds.foldl (fun n d => n * 10 + d.val) n < 0x10000000000000000) :
    absorb n ds = (ds.foldl (fun n d => n * 10 + d.val) n, 0) := by
  induction ds generalizing n with
  | nil => rfl
  | cons d ds ih =>
      rw [List.foldl_cons] at h
      rw [absorb, if_pos (Nat.lt_of_le_of_lt (le_foldl_digits ds _) h), ih h, List.foldl_cons]

/-- An integer is read from its numeral. -/
theorem ofNumeral?_ofInt (i : Int) (h : -0x8000000000000000 ≤ i ∧ i < 0x10000000000000000) :
    ofNumeral? (.ofInt i) = some (.integer i h) := by
  have hdigits : ofDigits (digits 10 i.natAbs) = i.natAbs := ofDigits_digits i.natAbs
  rw [ofDigits] at hdigits
  have habsorb : absorb 0 (digits 10 i.natAbs) = (i.natAbs, 0) := by
    rw [absorb_eq (by rw [hdigits]; omega), hdigits]
  have hsign : (if i < 0 then -(i.natAbs : Int) else i.natAbs) = i := by
    split <;> omega
  have hinteger : (Numeral.ofInt i).isInteger = true := rfl
  simp only [ofNumeral?, Numeral.ofInt, habsorb, decide_eq_true_eq, hsign]
  rw [if_pos ⟨hinteger, trivial⟩, dif_pos ⟨h, by omega⟩]

end Number

/-! ## Trees of values -/

theorem Tree.depth_array_le_depth_array {ts us : List Tree}
    (h : ∀ t ∈ ts, ∃ u ∈ us, t.depth ≤ u.depth) : (array ts).depth ≤ (array us).depth := by
  refine depth_array_le_iff.mpr fun t ht => ?_
  obtain ⟨u, hu, hle⟩ := h t ht
  exact Nat.le_of_lt_succ (Nat.lt_of_le_of_lt hle (depth_lt_of_mem_array hu))

theorem Tree.depth_object_le_depth_object {ms ns : List (Literal × Tree)}
    (h : ∀ m ∈ ms, ∃ n ∈ ns, m.2.depth ≤ n.2.depth) : (object ms).depth ≤ (object ns).depth := by
  refine depth_object_le_iff.mpr fun m hm => ?_
  obtain ⟨n, hn, hle⟩ := h m hm
  exact Nat.le_of_lt_succ (Nat.lt_of_le_of_lt hle (depth_lt_of_mem_object hn))

namespace Value

theorem itemTrees_eq_map (vs : List Value) : itemTrees vs = vs.map tree := by
  induction vs with
  | nil => rfl
  | cons v vs ih => rw [itemTrees, ih, List.map_cons]

theorem memberTrees_eq_map (bs : List (String × Value)) :
    memberTrees bs = bs.map fun b => (.ofChars b.1.toList, b.2.tree) := by
  induction bs with
  | nil => rfl
  | cons b bs ih => rw [memberTrees, ih, List.map_cons]

@[simp]
theorem tree_array (vs : List Value) : (array vs).tree = .array (vs.map tree) := by
  rw [tree, itemTrees_eq_map]

@[simp]
theorem tree_object (m : FinMap String Value) :
    (object m).tree = .object (m.entries.map fun b => (.ofChars b.1.toList, b.2.tree)) := by
  obtain ⟨bs⟩ := m
  rw [tree, memberTrees_eq_map]

theorem Integral.spelled_tree {v : Value} (h : v.Integral) : v.tree.Spelled := by
  induction v using Value.induction with
  | null | bool => simp [tree, Tree.Spelled, Tree.tokens, Token.Spelled]
  | number n =>
      obtain ⟨i, hi, rfl⟩ := h n (.self _)
      exact Wire.spelled_ofInt i
  | string s => exact Wire.spelled_ofString s
  | array vs ih =>
      rw [tree_array]
      exact Tree.spelled_array (List.forall_mem_map.mpr fun v hv =>
        ih v hv (integral_array.mp h v hv))
  | object m ih =>
      rw [tree_object]
      exact Tree.spelled_object (List.forall_mem_map.mpr fun b hb =>
        ⟨Literal.spelled_ofChars _, ih b hb (integral_object.mp h b hb)⟩)

/-- The names of a value that has them in order increase by their bytes. -/
theorem Ordered.namesIncrease_tree {v : Value} (h : v.Ordered) : v.tree.NamesIncrease := by
  induction v using Value.induction with
  | null | bool | number | string => exact fun ms hms => nomatch hms
  | array vs ih =>
      rw [tree_array]
      rintro ms (_ | ⟨hmem, hms⟩)
      obtain ⟨v, hv, rfl⟩ := List.mem_map.mp hmem
      exact ih v hv (ordered_array.mp h v hv) ms hms
  | object m ih =>
      obtain ⟨hm, hvalues⟩ := ordered_object.mp h
      rw [tree_object]
      rintro ms (_ | _ | ⟨hmem, hms⟩)
      · -- members are in the order of their names as texts, which is that of their bytes
        refine ⟨m.keys, ?_, ?_⟩
        · simp [FinMap.keys, Function.comp_def]
        · exact List.pairwise_map.mpr (hm.imp utf8_lt_utf8_iff.mpr)
      · obtain ⟨b, hb, rfl⟩ := List.mem_map.mp hmem
        exact ih b hb (hvalues b hb) ms hms

/-- Putting the members in order opens no brackets. -/
theorem depth_tree_canonical_le (v : Value) : v.canonical.tree.depth ≤ v.tree.depth := by
  induction v using Value.induction with
  | null | bool | number | string => exact Nat.le_refl _
  | array vs ih =>
      rw [canonical_array, tree_array, tree_array]
      refine Tree.depth_array_le_depth_array fun t ht => ?_
      obtain ⟨w, hw, rfl⟩ := List.mem_map.mp ht
      obtain ⟨v, hv, rfl⟩ := List.mem_map.mp hw
      exact ⟨v.tree, List.mem_map_of_mem hv, ih v hv⟩
  | object m ih =>
      rw [canonical_object, tree_object, tree_object]
      refine Tree.depth_object_le_depth_object fun n hn => ?_
      obtain ⟨c, hc, rfl⟩ := List.mem_map.mp hn
      obtain ⟨b, hb, rfl⟩ := mem_canonicalMap hc
      exact ⟨_, List.mem_map_of_mem hb, ih b hb⟩

/-! ## Reading -/

theorem items?_map_tree {vs : List Value} (h : ∀ v ∈ vs, v.tree.value? = some v) :
    Tree.items? (vs.map tree) = some vs := by
  induction vs with
  | nil => rfl
  | cons v vs ih =>
      obtain ⟨hv, hvs⟩ := List.forall_mem_cons.mp h
      rw [List.map_cons, Tree.items?, hv, Option.bind_some, ih hvs, Option.map_some]

theorem members?_map_tree {bs : List (String × Value)} (h : ∀ b ∈ bs, b.2.tree.value? = some b.2) :
    Tree.members? (bs.map fun b => (.ofChars b.1.toList, b.2.tree)) = some bs := by
  induction bs with
  | nil => rfl
  | cons b bs ih =>
      obtain ⟨hb, hbs⟩ := List.forall_mem_cons.mp h
      rw [List.map_cons, Tree.members?, Literal.string?_ofChars, Option.bind_some, hb,
        Option.bind_some, ih hbs, Option.map_some]

/-- The tree of a value means the value. -/
theorem Ordered.value?_tree {v : Value} (h : v.Ordered) (hv : v.Integral) :
    v.tree.value? = some v := by
  induction v using Value.induction with
  | null | bool => rfl
  | number n =>
      obtain ⟨i, hi, rfl⟩ := hv n (.self _)
      simp [tree, Tree.value?, Number.numeral, Number.ofNumeral?_ofInt i hi]
  | string s => simp [tree, Tree.value?]
  | array vs ih =>
      have hitems := items?_map_tree fun v hmem =>
        ih v hmem (ordered_array.mp h v hmem) (integral_array.mp hv v hmem)
      rw [tree_array, Tree.value?, hitems, Option.map_some]
  | object m ih =>
      obtain ⟨hm, hvalues⟩ := ordered_object.mp h
      have hmembers := members?_map_tree fun b hmem =>
        ih b hmem (hvalues b hmem) (integral_object.mp hv b hmem)
      rw [tree_object, Tree.value?, hmembers, Option.map_some, hm.ofList_entries]

theorem exists_of_mem_items? {ts : List Tree} {vs : List Value} (h : Tree.items? ts = some vs) :
    ∀ v ∈ vs, ∃ t ∈ ts, t.value? = some v := by
  induction ts generalizing vs with
  | nil =>
      cases h
      exact fun _ hv => nomatch hv
  | cons t ts ih =>
      obtain ⟨v, hv, hrest⟩ := Option.bind_eq_some_iff.mp h
      obtain ⟨vs, hvs, rfl⟩ := Option.map_eq_some_iff.mp hrest
      refine List.forall_mem_cons.mpr ⟨⟨t, List.mem_cons_self, hv⟩, fun w hw => ?_⟩
      obtain ⟨u, hu, hread⟩ := ih hvs w hw
      exact ⟨u, List.mem_cons_of_mem t hu, hread⟩

theorem exists_of_mem_members? {ms : List (Literal × Tree)} {bs : List (String × Value)}
    (h : Tree.members? ms = some bs) : ∀ b ∈ bs, ∃ m ∈ ms, m.2.value? = some b.2 := by
  induction ms generalizing bs with
  | nil =>
      cases h
      exact fun _ hb => nomatch hb
  | cons m ms ih =>
      obtain ⟨s, -, hmember⟩ := Option.bind_eq_some_iff.mp h
      obtain ⟨v, hv, hrest⟩ := Option.bind_eq_some_iff.mp hmember
      obtain ⟨bs, hbs, rfl⟩ := Option.map_eq_some_iff.mp hrest
      refine List.forall_mem_cons.mpr ⟨⟨m, List.mem_cons_self, hv⟩, fun b hb => ?_⟩
      obtain ⟨n, hn, hread⟩ := ih hbs b hb
      exact ⟨n, List.mem_cons_of_mem m hn, hread⟩

/-- Induction over what trees mean: each item comes from an item, and each member from a member. -/
theorem induction_of_value? {motive : Tree → Value → Prop} (null : motive .null .null)
    (bool : ∀ b, motive (.bool b) (.bool b)) (number : ∀ n m, motive (.number n) (.number m))
    (string : ∀ l s, motive (.string l) (.string s))
    (array : ∀ ts vs, (∀ v ∈ vs, ∃ t ∈ ts, motive t v) → motive (.array ts) (.array vs))
    (object : ∀ ms bs, (∀ b ∈ bs, ∃ m ∈ ms, motive m.2 b.2) →
      motive (.object ms) (.object (.ofList bs)))
    {t : Tree} {v : Value} (h : t.value? = some v) : motive t v := by
  induction t using Tree.induction generalizing v with
  | null =>
      cases h
      exact null
  | bool b =>
      cases h
      exact bool b
  | number n =>
      obtain ⟨m, -, rfl⟩ := Option.map_eq_some_iff.mp h
      exact number n m
  | string l =>
      obtain ⟨s, -, rfl⟩ := Option.map_eq_some_iff.mp h
      exact string l s
  | array ts ih =>
      obtain ⟨vs, hvs, rfl⟩ := Option.map_eq_some_iff.mp h
      refine array ts vs fun v hv => ?_
      obtain ⟨t, ht, hread⟩ := exists_of_mem_items? hvs v hv
      exact ⟨t, ht, ih t ht hread⟩
  | object ms ih =>
      obtain ⟨bs, hbs, rfl⟩ := Option.map_eq_some_iff.mp h
      refine object ms bs fun b hb => ?_
      obtain ⟨m, hm, hread⟩ := exists_of_mem_members? hbs b hb
      exact ⟨m, hm, ih m hm hread⟩

/-- What a tree means has all members in order, even if the tree has not. -/
theorem ordered_of_value? {t : Tree} {v : Value} (h : t.value? = some v) : v.Ordered := by
  refine induction_of_value? (motive := fun _ v => v.Ordered) (fun m hm => nomatch hm)
    (fun b m hm => nomatch hm) (fun _ n m hm => nomatch hm) (fun _ s m hm => nomatch hm)
    (fun ts vs ih => ?_) (fun ms bs ih => ?_) h
  · refine ordered_array.mpr fun v hv => ?_
    obtain ⟨-, -, hordered⟩ := ih v hv
    exact hordered
  · refine ordered_object.mpr ⟨FinMap.ordered_ofList bs, fun b hb => ?_⟩
    obtain ⟨-, -, hordered⟩ := ih b (FinMap.mem_of_mem_ofList hb)
    exact hordered

/-- What a tree means is nested no deeper than the tree. -/
theorem depth_le_of_value? {t : Tree} {v : Value} (h : t.value? = some v) :
    v.tree.depth ≤ t.depth := by
  refine induction_of_value? (motive := fun t v => v.tree.depth ≤ t.depth) (Nat.le_refl _)
    (fun b => Nat.le_refl _) (fun n m => Nat.le_refl _) (fun l s => Nat.le_refl _)
    (fun ts vs ih => ?_) (fun ms bs ih => ?_) h
  · rw [tree_array]
    exact Tree.depth_array_le_depth_array (List.forall_mem_map.mpr ih)
  · rw [tree_object]
    exact Tree.depth_object_le_depth_object (List.forall_mem_map.mpr fun b hb =>
      ih b (FinMap.mem_of_mem_ofList hb))

/-! ## Wire forms -/

/-- The value has a wire form that can be read back: its objects are finite maps, its numbers are
integers, and its text opens no more brackets at the same time than a reader follows. -/
structure Admissible (v : Value) : Prop where
  distinct : v.Distinct
  integral : v.Integral
  depth_le : v.tree.depth ≤ maxDepth

/-- A value with all members in order is read from its text. -/
theorem Ordered.ofChars?_chars {v : Value} (h : v.Ordered) (hv : v.Integral)
    (hdepth : v.tree.depth ≤ maxDepth) : ofChars? v.chars = some v := by
  rw [ofChars?, chars, Tree.ofChars?_chars hv.spelled_tree, Option.bind_some, if_pos hdepth,
    h.value?_tree hv]

/-- A value is read from the payloads that hold a text of it. -/
theorem decode_eq_ok_iff {p : Payload} {v : Value} :
    Element.decode p = .ok v ↔
      ∃ s : String, p = ⟨typeUrl, utf8 s⟩ ∧ ofChars? s.toList = some v := by
  constructor
  · intro h
    obtain ⟨bytes, rfl, hv⟩ := Payload.expect_bind_eq_ok_iff.mp h
    split at hv
    · next w hbytes =>
      cases hv
      obtain ⟨s, hs, hread⟩ := Option.bind_eq_some_iff.mp hbytes
      exact ⟨s, by rw [ofUtf8?_eq_some_iff.mp hs], hread⟩
    · cases hv
  · rintro ⟨s, rfl, hread⟩
    have hbytes : ofBytes? (utf8 s) = some v := by
      rw [ofBytes?, ofUtf8?_utf8, Option.bind_some, hread]
    exact Payload.expect_bind_eq_ok_iff.mpr ⟨utf8 s, rfl, by rw [hbytes]⟩

theorem decode_encode {v : Value} (hv : v.Integral) (hdepth : v.tree.depth ≤ maxDepth) :
    Element.decode (Element.encode v) = .ok v.canonical := by
  refine decode_eq_ok_iff.mpr ⟨String.ofList v.canonical.chars, rfl, ?_⟩
  rw [String.toList_ofList]
  exact (ordered_canonical v).ofChars?_chars hv.canonical
    (Nat.le_trans (depth_tree_canonical_le v) hdepth)

theorem Admissible.decode_encode {v : Value} (h : v.Admissible) :
    Element.decode (Element.encode v) = .ok v.canonical :=
  Value.decode_encode h.integral h.depth_le

/-- What is written for a value has the canonical form. -/
theorem Integral.canonicalForm_encode {v : Value} (h : v.Integral) :
    CanonicalForm (Element.encode v) := by
  have hspelled := h.canonical.spelled_tree
  refine ⟨String.ofList v.canonical.chars, v.canonical.tree, rfl, ?_,
    (ordered_canonical v).namesIncrease_tree, ?_⟩
  · rw [String.toList_ofList, chars, Tree.ofChars?_chars hspelled]
  · rw [String.toList_ofList]
    exact hspelled.compact

/-- What is read has all members in order, and it can be read again. -/
theorem of_decode {p : Payload} {v : Value} (h : Element.decode p = .ok v) :
    v.Ordered ∧ v.tree.depth ≤ maxDepth := by
  obtain ⟨s, -, hs⟩ := decode_eq_ok_iff.mp h
  obtain ⟨t, -, ht⟩ := Option.bind_eq_some_iff.mp hs
  obtain ⟨hdepth, hread⟩ := Option.ite_none_right_eq_some.mp ht
  exact ⟨ordered_of_value? hread, Nat.le_trans (depth_le_of_value? hread) hdepth⟩

/-- Values have one key exactly if they have one canonical form. -/
theorem key_eq_iff_canonical_eq {v w : Value} (hv : v.Admissible) (hw : w.Admissible) :
    Element.key v = Element.key w ↔ v.canonical = w.canonical := by
  constructor
  · intro h
    have hform : Element.encode v = Element.encode w := Payload.toKey_injective h
    have hread := hv.decode_encode
    rw [hform, hw.decode_encode] at hread
    exact (Except.ok.inj hread).symm
  · intro h
    simp only [Element.key, h]

/-- A value whose numbers are integers, and which is nested no deeper than a reader follows, is read
back from what is written for it, which has the canonical form.  Such values have one key exactly if
they are alike.  And whatever such a value has been read from, what is written for it has the
canonical form and is read as the same value. -/
theorem canonical_wire_form :
    (∀ v : Value, v.Admissible →
      (∃ w : Value, Element.decode (Element.encode v) = .ok w ∧ w.Alike v) ∧
        CanonicalForm (Element.encode v)) ∧
    (∀ v w : Value, v.Admissible → w.Admissible →
      (Element.key v = Element.key w ↔ v.Alike w)) ∧
    ∀ (p : Payload) (v : Value), Element.decode p = .ok v → v.Integral →
      CanonicalForm (Element.encode v) ∧ Element.decode (Element.encode v) = .ok v := by
  refine ⟨fun v hv => ⟨?_, hv.integral.canonicalForm_encode⟩, fun v w hv hw => ?_,
    fun p v hp hv => ⟨hv.canonicalForm_encode, ?_⟩⟩
  · exact ⟨v.canonical, hv.decode_encode, canonical_alike hv.distinct⟩
  · rw [key_eq_iff_canonical_eq hv hw, alike_iff_canonical_eq hv.distinct hw.distinct]
  · obtain ⟨hordered, hdepth⟩ := of_decode hp
    rw [decode_encode hv hdepth, hordered.canonical_eq]

/-- The members of an object in two orders, with the integers at the limits; and a text with blanks,
escapes and two members of one name. -/
theorem canonical_wire_form_reordered :
    let low : Value := .number (.integer (-0x8000000000000000) (by decide))
    let high : Value := .number (.integer 0xFFFFFFFFFFFFFFFF (by decide))
    let v : Value := .object ⟨[("é\n", .object ∅), ("b", .array [low, high]), ("a", .string "😀\"")]⟩
    let w : Value := .object ⟨[("a", .string "😀\""), ("é\n", .object ∅), ("b", .array [low, high])]⟩
    let text := " \x7b\"b\":[ 18446744073709551615],\n\"\\u0061\":\x7b\x7d ," ++
      "\"a\":\"\\ud83d\\ude00\\\"\"\x7d"
    let u : Value := .object ⟨[("a", .string "😀\""), ("b", .array [high])]⟩
    (∃ v' : Value, Element.decode (Element.encode v) = .ok v' ∧ v'.Alike v) ∧
      (Element.key v = Element.key w ∧ v.Alike w) ∧
      Element.decode ⟨typeUrl, utf8 text⟩ = .ok u ∧ CanonicalForm (Element.encode u) ∧
        Element.decode (Element.encode u) = .ok u := by
  intro low high v w text u
  have hnumber (i : Int) (h : -0x8000000000000000 ≤ i ∧ i < 0x10000000000000000) :
      (number (.integer i h)).Distinct ∧ (number (.integer i h)).Integral := by
    refine ⟨(fun m hm => nomatch hm), fun n hn => ?_⟩
    cases hn with
    | self => exact ⟨i, h, rfl⟩
  have hstring (s : String) : (string s).Distinct ∧ (string s).Integral :=
    ⟨(fun m hm => nomatch hm), fun n hn => nomatch hn⟩
  have hv : v.Admissible := by
    refine ⟨?_, ?_, by decide⟩
    · simp [v, low, high, FinMap.keys, hnumber, hstring]
    · simp [v, low, high, hnumber, hstring]
  have hw : w.Admissible := by
    refine ⟨?_, ?_, by decide⟩
    · simp [w, low, high, FinMap.keys, hnumber, hstring]
    · simp [w, low, high, hnumber, hstring]
  have hu : u.Integral := by
    simp [u, high, hnumber, hstring]
  have hvw : v.canonical = w.canonical := by
    simp only [v, w, low, high]
    rfl
  have htree : Tree.ofChars? text.toList = some (.object
      [([.plain 'b'], .array [.number (.ofInt 0xFFFFFFFFFFFFFFFF)]), ([.escape 0x61], .object []),
        ([.plain 'a'], .string [.escape 0xD83D, .escape 0xDE00, .escape 0x22])]) := by
    simp only [text]
    rfl
  have hread : ofChars? text.toList = some u := by
    rw [ofChars?, htree, Option.bind_some, if_pos (by decide)]
    -- the numeral is read by the lemma, since evaluating one of this size is slow
    simp only [Tree.value?, Tree.members?, Tree.items?,
      Number.ofNumeral?_ofInt 0xFFFFFFFFFFFFFFFF (by decide)]
    rfl
  have hdecode : Element.decode ⟨typeUrl, utf8 text⟩ = .ok u :=
    decode_eq_ok_iff.mpr ⟨text, rfl, hread⟩
  obtain ⟨hwritten, hkey, hform⟩ := canonical_wire_form
  obtain ⟨hback, -⟩ := hwritten v hv
  have hsame : Element.key v = Element.key w := (key_eq_iff_canonical_eq hv hw).mpr hvw
  exact ⟨hback, ⟨hsame, (hkey v w hv hw).mp hsame⟩, hdecode, hform _ u hdecode hu⟩

end Value

end DeltaReplica.Json
