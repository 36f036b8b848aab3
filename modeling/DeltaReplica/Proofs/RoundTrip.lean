import DeltaReplica.Bytes
import DeltaReplica.Proofs.Parsing
import DeltaReplica.Wire.Delta
import Mathlib.Data.List.Nodup

/-!
# Reading what was written

The text of a delta is read as that delta, as long as no more brackets are open in it than
a reader may open (`parse_print_roundtrip`).  Payloads and keys open two, so they are
always read back, and the bytes of a payload may as well be written as the string that
they spell.

A reader is given a tree and the number of brackets that may be opened; a tree `Denotes` a
value for a reader if it is well spelled and is read as the value wherever it fits.  There
is one lemma for each reader, and those of records and lists carry the bound on brackets
to their parts.
-/

namespace DeltaReplica

/-! ## Spelling -/

/-- The digits of a number other than zero do not start with a zero. -/
theorem exists_digitsOnto_eq_cons {b : Nat} [Base b] (fuel n : Nat) (h : n < fuel)
    (ds : List (Fin b)) : ∃ d es, digitsOnto b fuel n ds = d :: es ∧ (n ≠ 0 → d.val ≠ 0) := by
  have hb : 2 ≤ b := Base.two_le
  induction fuel generalizing n ds with
  | zero => omega
  | succ fuel ih =>
      rw [digitsOnto]
      split
      · next hn =>
          have hlast : (lastDigit b n).val = n := Nat.mod_eq_of_lt hn
          exact ⟨lastDigit b n, ds, rfl, fun hne => by rwa [hlast]⟩
      · next hn =>
          have hlt : n / b < n := Nat.div_lt_self (by omega) (by omega)
          obtain ⟨d, es, heq, hd⟩ := ih (n / b) (by omega) (lastDigit b n :: ds)
          exact ⟨d, es, heq, fun _ => hd (Nat.div_pos (by omega) (by omega)).ne'⟩

theorem Numeral.spelled_ofInt (i : Int) : (ofInt i).Spelled where
  whole := by
    obtain ⟨d, es, heq, hd⟩ :=
      exists_digitsOnto_eq_cons (b := 10) (i.natAbs + 1) i.natAbs (Nat.lt_succ_self _) []
    by_cases hi : i.natAbs = 0
    · refine Or.inl ?_
      rw [ofInt, hi]
      rfl
    · exact Or.inr ⟨d, es, heq, fun hzero => hd hi (congrArg Fin.val hzero)⟩
  exponent := fun _ _ h => nomatch h

namespace Json

theorem Literal.spelled_ofChars (cs : List Char) : (ofChars cs).Spelled := by
  intro p hp
  obtain ⟨c, -, rfl⟩ := List.mem_map.mp hp
  split
  · trivial
  · next hc =>
      simp only [mustEscape, Bool.or_eq_true, decide_eq_true_eq, not_or] at hc
      exact hc.1

@[simp]
theorem Literal.string?_ofChars (s : String) : (ofChars s.toList).string? = some s := by
  simp [string?]

theorem Literal.bytes_escape {u : UInt16} (hh : isHighSurrogate u = false)
    (hl : isLowSurrogate u = false) (ps : Literal) :
    bytes (.escape u :: ps) = String.utf8EncodeChar (Char.ofNat u.toNat) ++ bytes ps := by
  rcases ps with _ | ⟨_ | _, _⟩ <;> simp [bytes, hh, hl]

theorem Literal.bytes_of_chars? {l : Literal} {cs : List Char} (h : l.chars? = some cs) :
    l.bytes = cs.flatMap String.utf8EncodeChar := by
  fun_induction chars? l generalizing cs with
  | case1 =>
      cases h
      rfl
  | case2 | case5 | case6 | case7 => cases h
  | case3 c ps hc ih =>
      obtain ⟨ds, hds, rfl⟩ := Option.map_eq_some_iff.mp h
      rw [bytes, ih hds, List.flatMap_cons]
  | case4 u hu v qs hv ih =>
      obtain ⟨ds, hds, rfl⟩ := Option.map_eq_some_iff.mp h
      simp only [bytes, hu, hv, if_true, ih hds, List.flatMap_cons]
  | case8 u ps hu hl ih =>
      obtain ⟨ds, hds, rfl⟩ := Option.map_eq_some_iff.mp h
      rw [bytes_escape (Bool.eq_false_iff.mpr hu) (Bool.eq_false_iff.mpr hl), ih hds,
        List.flatMap_cons]

/-- A literal that stands for a text also stands for the bytes of this text. -/
theorem Literal.bytes_of_string? {l : Literal} {s : String} (h : l.string? = some s) :
    l.bytes = utf8 s := by
  obtain ⟨cs, hcs, rfl⟩ := Option.map_eq_some_iff.mp h
  rw [bytes_of_chars? hcs, utf8_eq_flatMap, String.toList_ofList]

/-! ## Depth -/

namespace Tree

theorem depthOfItems_le_iff {ts : List Tree} {n : Nat} :
    depthOfItems ts ≤ n ↔ ∀ t ∈ ts, t.depth ≤ n := by
  induction ts with
  | nil => simp [depthOfItems]
  | cons t ts ih => rw [depthOfItems, Nat.max_le, ih, List.forall_mem_cons]

theorem depthOfMembers_le_iff {ms : List (Literal × Tree)} {n : Nat} :
    depthOfMembers ms ≤ n ↔ ∀ m ∈ ms, m.2.depth ≤ n := by
  induction ms with
  | nil => simp [depthOfMembers]
  | cons m ms ih => rw [depthOfMembers, Nat.max_le, ih, List.forall_mem_cons]

theorem depth_array_le_iff {ts : List Tree} {n : Nat} :
    (array ts).depth ≤ n + 1 ↔ ∀ t ∈ ts, t.depth ≤ n := by
  rw [depth, Nat.add_le_add_iff_right, depthOfItems_le_iff]

theorem depth_object_le_iff {ms : List (Literal × Tree)} {n : Nat} :
    (object ms).depth ≤ n + 1 ↔ ∀ m ∈ ms, m.2.depth ≤ n := by
  rw [depth, Nat.add_le_add_iff_right, depthOfMembers_le_iff]

theorem depth_lt_of_mem_array {ts : List Tree} {t : Tree} (ht : t ∈ ts) :
    t.depth < (array ts).depth :=
  Nat.lt_succ_of_le (depthOfItems_le_iff.mp (Nat.le_refl _) t ht)

theorem depth_lt_of_mem_object {ms : List (Literal × Tree)} {m : Literal × Tree} (hm : m ∈ ms) :
    m.2.depth < (object ms).depth :=
  Nat.lt_succ_of_le (depthOfMembers_le_iff.mp (Nat.le_refl _) m hm)

end Tree

end Json

namespace Wire

open DeltaReplica.Json

theorem depth_ofRecord_le_iff {fs : List (String × Tree)} {n : Nat} :
    (ofRecord fs).depth ≤ n + 1 ↔ ∀ f ∈ fs, f.2.depth ≤ n := by
  rw [ofRecord, Tree.depth_object_le_iff, List.forall_mem_map]

theorem depth_lt_of_mem_ofRecord {fs : List (String × Tree)} {f : String × Tree} (hf : f ∈ fs) :
    f.2.depth < (ofRecord fs).depth :=
  Tree.depth_lt_of_mem_object (m := (.ofChars f.1.toList, f.2))
    (List.mem_map_of_mem (f := fun f : String × Tree => (Literal.ofChars f.1.toList, f.2)) hf)

/-! ## Readers -/

/-- A tree is well spelled, and is read as a value wherever its brackets may be opened. -/
structure Denotes {α : Type} (r : Reader α) (t : Tree) (a : α) : Prop where
  spelled : t.Spelled
  read : ∀ room, t.depth ≤ room → r room t = some a

section Denotes

variable {α β : Type}

theorem Denotes.map {r : Reader α} {r' : Reader β} {f : α → β} {t : Tree} {a : α}
    (h : Denotes r t a) (hr : ∀ room, r' room t = (r room t).map f) : Denotes r' t (f a) where
  spelled := h.spelled
  read room hroom := by rw [hr, h.read room hroom, Option.map_some]

theorem denotes_bool (b : Bool) : Denotes bool (.bool b) b where
  spelled := by simp [Tree.Spelled, Tree.tokens, Token.Spelled]
  read _ _ := rfl

theorem spelled_ofString (s : String) : (ofString s).Spelled := by
  simp [Tree.Spelled, ofString, Tree.tokens, Token.Spelled, Literal.spelled_ofChars]

theorem spelled_ofInt (i : Int) : (ofInt i).Spelled := by
  simp [Tree.Spelled, ofInt, Tree.tokens, Token.Spelled, Numeral.spelled_ofInt]

theorem denotes_string (s : String) : Denotes string (ofString s) s where
  spelled := spelled_ofString s
  read _ _ := Literal.string?_ofChars s

theorem intIn_ofInt {low high i : Int} (hi : low ≤ i ∧ i < high) (room : Nat) :
    intIn low high room (ofInt i) = some i := by
  simp [intIn, ofInt, hi]

theorem denotes_int64 (i : Int64) : Denotes int64 (ofInt i.toInt) i where
  spelled := spelled_ofInt i.toInt
  read room _ := by
    have hi : -0x8000000000000000 ≤ i.toInt ∧ i.toInt < 0x8000000000000000 :=
      ⟨i.le_toInt, i.toInt_lt⟩
    rw [int64, intIn_ofInt hi, Option.map_some, Int64.ofInt_toInt]

theorem denotes_uint32 (n : UInt32) : Denotes uint32 (ofInt n.toNat) n where
  spelled := spelled_ofInt n.toNat
  read room _ := by
    have hn := n.toNat_lt
    rw [uint32, intIn_ofInt (by omega), Option.map_some, Int.toNat_natCast,
      UInt32.ofNat_toNat]

theorem denotes_byte (b : UInt8) : Denotes byte (ofInt b.toNat) b where
  spelled := spelled_ofInt b.toNat
  read room _ := by
    have hb := b.toNat_lt
    rw [byte, intIn_ofInt (by omega), Option.map_some, Int.toNat_natCast,
      UInt8.ofNat_toNat]

theorem mapM_map_eq_some {f : β → Option α} {g : α → β} {as : List α}
    (h : ∀ a ∈ as, f (g a) = some a) : (as.map g).mapM f = some as := by
  induction as with
  | nil => rfl
  | cons a as ih =>
      obtain ⟨ha, has⟩ := List.forall_mem_cons.mp h
      rw [List.map_cons, List.mapM_cons, ha, ih has]
      rfl

theorem denotes_list {item : Reader α} {form : α → Tree} {as : List α}
    (h : ∀ a ∈ as, Denotes item (form a) a) : Denotes (list item) (.array (as.map form)) as where
  spelled := Tree.spelled_array (List.forall_mem_map.mpr fun a ha => (h a ha).spelled)
  read room hroom := by
    cases room with
    | zero => cases hroom
    | succ room =>
        have hitems := List.forall_mem_map.mp (Tree.depth_array_le_iff.mp hroom)
        exact mapM_map_eq_some fun a ha => (h a ha).read room (hitems a ha)

theorem denotes_bytes (bs : List UInt8) : Denotes (list byte) (ofBytes bs) bs :=
  denotes_list fun b _ => denotes_byte b

theorem denotes_byteString (bs : List UInt8) : Denotes byteString (ofBytes bs) bs where
  spelled := (denotes_bytes bs).spelled
  read := (denotes_bytes bs).read

theorem find?_of_nodup {fs : List (String × Tree)} (hnodup : (fs.map Prod.fst).Nodup)
    {f : String × Tree} (hf : f ∈ fs) : (fs.find? fun b => b.1 = f.1) = some f := by
  cases hfind : fs.find? fun b => b.1 = f.1 with
  | none =>
      have hne := List.find?_eq_none.mp hfind f hf
      simp at hne
  | some g =>
      have hg : g.1 = f.1 := by simpa using List.find?_some hfind
      rw [List.inj_on_of_nodup_map hnodup (List.mem_of_find?_eq_some hfind) hf hg]

/-- A member under the text that its name stands for. -/
def named : Literal × Tree → Option (String × Tree) := fun (l, t) => l.string?.map fun s => (s, t)

/-- No name comes twice, and what has none of the names may be skipped. -/
def admitted (names : List String) (bs : List (String × Tree)) : Bool :=
  (bs.all fun (s, t) => names.contains s || t.isSkippable) &&
    names.all fun name => bs.countP (fun b => b.1 = name) ≤ 1

/-- The fields among named members. -/
def pick (names : List String) (bs : List (String × Tree)) : Option (List (Option Tree)) :=
  if admitted names bs then some (names.map fun name => (bs.find? fun b => b.1 = name).map Prod.snd)
  else none

theorem fields_eq (names : List String) (members : List (Literal × Tree)) :
    fields names members = (members.mapM named).bind (pick names) := by
  refine congrArg (Option.bind _) (funext fun bs => ?_)
  rw [pick, admitted]
  cases bs.all fun (s, t) => names.contains s || t.isSkippable with
  | false => rfl
  | true => cases names.all fun name => bs.countP (fun b => b.1 = name) ≤ 1 <;> rfl

theorem mapM_named_ofRecord (fs : List (String × Tree)) :
    (fs.map fun (name, t) => (.ofChars name.toList, t)).mapM named = some fs :=
  mapM_map_eq_some fun f _ => by simp [named]

/-- The fields of a written record are found under their names. -/
theorem fields_ofRecord {fs : List (String × Tree)} (hnodup : (fs.map Prod.fst).Nodup) :
    fields (fs.map Prod.fst) (fs.map fun (name, t) => (.ofChars name.toList, t)) =
      some (fs.map fun f => some f.2) := by
  have hknown : (fs.all fun (s, t) => (fs.map Prod.fst).contains s || t.isSkippable) = true := by
    refine List.all_eq_true.mpr fun f hf => ?_
    have hmem : (fs.map Prod.fst).contains f.1 = true :=
      List.contains_iff_mem.mpr (List.mem_map_of_mem hf)
    simp only [hmem, Bool.true_or]
  have honce : ((fs.map Prod.fst).all fun name => fs.countP (fun b => b.1 = name) ≤ 1) = true := by
    refine List.all_eq_true.mpr fun name _ => decide_eq_true ?_
    have hcount := List.nodup_iff_count_le_one.mp hnodup name
    rwa [List.count, List.countP_map] at hcount
  have hfound : ((fs.map Prod.fst).map fun name => (fs.find? fun b => b.1 = name).map Prod.snd) =
      fs.map fun f => some f.2 := by
    rw [List.map_map]
    exact List.map_congr_left fun f hf => congrArg (Option.map Prod.snd) (find?_of_nodup hnodup hf)
  have hadmitted : admitted (fs.map Prod.fst) fs = true := Bool.and_eq_true_iff.mpr ⟨hknown, honce⟩
  rw [fields_eq, mapM_named_ofRecord, Option.bind_some, pick, if_pos hadmitted, hfound]

/-- A record is read field by field. -/
theorem denotes_record {fs : List (String × Tree)} {names : List String}
    {make : Nat → List (Option Tree) → Option α} {a : α} (hnames : fs.map Prod.fst = names)
    (hnodup : names.Nodup) (hspelled : ∀ f ∈ fs, f.2.Spelled)
    (hmake : ∀ room, (∀ {γ : Type} {r : Reader γ} {t : Tree} {c : γ}, Denotes r t c →
      t ∈ fs.map Prod.snd → r room t = some c) → make room (fs.map fun f => some f.2) = some a) :
    Denotes (record names make) (ofRecord fs) a where
  spelled := Tree.spelled_object (List.forall_mem_map.mpr fun f hf =>
    ⟨Literal.spelled_ofChars _, hspelled f hf⟩)
  read room hroom := by
    cases room with
    | zero => cases hroom
    | succ room =>
        subst hnames
        rw [ofRecord, record, fields_ofRecord hnodup]
        refine hmake room fun h ht => h.read room ?_
        obtain ⟨f, hf, rfl⟩ := List.mem_map.mp ht
        exact depth_ofRecord_le_iff.mp hroom f hf

/-- What stands under a tag is read by the reader for the tag. -/
theorem denotes_tagged {content : String → Reader α} {k : Kind} {t : Tree} {a : α}
    (h : Denotes (content k.name) t a) : Denotes (tagged content) (ofTagged k t) a where
  spelled := Tree.spelled_object (List.forall_mem_singleton.mpr
    ⟨Literal.spelled_ofChars _, h.spelled⟩)
  read room hroom := by
    cases room with
    | zero => cases hroom
    | succ room =>
        have ht : t.depth ≤ room := depth_ofRecord_le_iff.mp hroom _ (List.mem_singleton_self _)
        have hname := Literal.string?_ofChars k.name
        simp only [ofTagged, ofRecord, List.map_cons, List.map_nil, tagged, hname,
          Option.bind_some, h.read room ht]

end Denotes

/-! ## Payloads, keys and clocks -/

theorem denotes_payload (p : Payload) : Denotes payload (ofPayload p) p := by
  have hurl := denotes_string p.typeUrl
  have hvalue := denotes_byteString p.value
  refine denotes_record rfl (by decide) ?_ fun room read => ?_
  · simp [hurl.spelled, hvalue.spelled]
  · simp [read hurl, read hvalue]

theorem denotes_payloads (ps : List Payload) : Denotes (list payload) (ofPayloads ps) ps :=
  denotes_list fun p _ => denotes_payload p

theorem denotes_key (k : Key) : Denotes key (ofKey k) k := by
  have hurl := denotes_string k.typeUrl
  have hbytes := denotes_bytes k.bytes
  refine denotes_record rfl (by decide) ?_ fun room read => ?_
  · simp [hurl.spelled, hbytes.spelled]
  · simp [read hurl, read hbytes]

theorem denotes_clock (c : Clock) : Denotes clock (ofClock c) c where
  spelled := spelled_ofString c.name
  read room _ := by
    rw [ofClock, ofString, clock, Literal.string?_ofChars, Option.bind_some, Clock.ofName?_name]

/-- The value of a register is null until one has been written. -/
theorem denotes_optional_payload (value : Option Payload) :
    Denotes (optional payload) (value.elim .null ofPayload) value := by
  cases value with
  | none => exact ⟨by simp [Tree.Spelled, Tree.tokens, Token.Spelled], fun _ _ => rfl⟩
  | some p => exact (denotes_payload p).map fun _ => rfl

/-! ## Deltas -/

theorem denotes_counter (d : CounterDelta) : Denotes counter (ofCounter d) d := by
  have hchange := denotes_int64 d.change
  refine denotes_record rfl (by decide) ?_ fun room read => ?_
  · simp [hchange.spelled]
  · simp [read hchange]

theorem denotes_register (d : RegisterDelta) : Denotes register (ofRegister d) d := by
  have hvalue := denotes_optional_payload d.value
  have hclock := denotes_clock d.clock
  have hclockValue := denotes_int64 d.clockValue
  refine denotes_record rfl (by decide) ?_ fun room read => ?_
  · simp [hvalue.spelled, hclock.spelled, hclockValue.spelled]
  · simp [read hvalue, read hclock, read hclockValue]

theorem denotes_flag (d : FlagDelta) : Denotes flag (ofFlag d) d := by
  have hvalue := denotes_bool d.value
  refine denotes_record rfl (by decide) ?_ fun room read => ?_
  · simp [hvalue.spelled]
  · simp [read hvalue]

theorem denotes_growSet (d : GrowSetDelta) : Denotes growSet (ofGrowSet d) d := by
  have hadded := denotes_payloads d.added
  refine denotes_record rfl (by decide) ?_ fun room read => ?_
  · simp [hadded.spelled]
  · simp [read hadded]

theorem denotes_set (d : SetDelta) : Denotes set (ofSet d) d := by
  have hcleared := denotes_bool d.cleared
  have hremoved := denotes_payloads d.removed
  have hadded := denotes_payloads d.added
  refine denotes_record rfl (by decide) ?_ fun room read => ?_
  · simp [hcleared.spelled, hremoved.spelled, hadded.spelled]
  · simp [read hcleared, read hremoved, read hadded]

theorem denotes_vote (d : VoteDelta) : Denotes vote (ofVote d) d := by
  have hself := denotes_bool d.selfVote
  have hfor := denotes_uint32 d.votesFor
  have htotal := denotes_uint32 d.totalVoters
  refine denotes_record rfl (by decide) ?_ fun room read => ?_
  · simp [hself.spelled, hfor.spelled, htotal.spelled]
  · simp [read hself, read hfor, read htotal]

section Maps

variable {δ : Type} {r : Reader δ} {form : δ → Tree}

theorem denotes_entry {e : EntryDelta δ} (h : Denotes r (form e.delta) e.delta) :
    Denotes (entry r) (ofEntry e.key (form e.delta)) e := by
  have hkey := denotes_payload e.key
  refine denotes_record rfl (by decide) ?_ fun room read => ?_
  · simp [hkey.spelled, h.spelled]
  · simp [read hkey, read h]

theorem denotes_entries {es : List (EntryDelta δ)}
    (h : ∀ e ∈ es, Denotes r (form e.delta) e.delta) :
    Denotes (list (entry r)) (.array (es.map fun e => ofEntry e.key (form e.delta))) es :=
  denotes_list fun e he => denotes_entry (h e he)

theorem denotes_uniformMap (h : ∀ d, Denotes r (form d) d) (d : UniformMapDelta δ) :
    Denotes (uniformMap r) (ofUniformMap form d) d := by
  have hcleared := denotes_bool d.cleared
  have hremoved := denotes_payloads d.removed
  have hvalues : ∀ e ∈ d.updated, Denotes r (form e.delta) e.delta := fun e _ => h e.delta
  have hupdated := denotes_entries hvalues
  refine denotes_record rfl (by decide) ?_ fun room read => ?_
  · simp [hcleared.spelled, hremoved.spelled, hupdated.spelled]
  · simp [read hcleared, read hremoved, read hupdated]

end Maps

theorem ofEntries_eq (es : List (EntryDelta Delta)) :
    ofEntries es = es.map fun e => ofEntry e.key (ofDelta e.delta) := by
  induction es with
  | nil => rfl
  | cons e es ih => rw [ofEntries, ih, List.map_cons]

/-- What a delta of each kind is written as under its tag. -/
theorem exists_ofDelta_eq (d : Delta) : ∃ t, ofDelta d = ofTagged d.kind t := by
  cases d <;> exact ⟨_, rfl⟩

theorem denotes_leaf (levels : Nat) {d : Delta} (hd : d.kind ≠ .map) :
    Denotes (deltaWithin (levels + 1)) (ofDelta d) d := by
  cases d with
  | counter d =>
      exact denotes_tagged ((denotes_counter d).map fun _ => by simp [content, Kind.name])
  | register d =>
      exact denotes_tagged ((denotes_register d).map fun _ => by simp [content, Kind.name])
  | flag d =>
      exact denotes_tagged ((denotes_flag d).map fun _ => by simp [content, Kind.name])
  | growSet d =>
      exact denotes_tagged ((denotes_growSet d).map fun _ => by simp [content, Kind.name])
  | set d =>
      exact denotes_tagged ((denotes_set d).map fun _ => by simp [content, Kind.name])
  | vote d =>
      exact denotes_tagged ((denotes_vote d).map fun _ => by simp [content, Kind.name])
  | map d => exact absurd rfl hd
  | counterMap d =>
      have h := denotes_uniformMap denotes_counter d
      exact denotes_tagged (h.map fun _ => by simp [content, Kind.name])
  | registerMap d =>
      have h := denotes_uniformMap denotes_register d
      exact denotes_tagged (h.map fun _ => by simp [content, Kind.name])
  | multiMap d =>
      have h := denotes_uniformMap denotes_set d
      exact denotes_tagged (h.map fun _ => by simp [content, Kind.name])

/-- The tree of the changes to a map of data, as it stands under its tag. -/
def ofMap (d : MapDelta Delta) : Tree :=
  ofRecord [("cleared", .bool d.cleared), ("removed", ofPayloads d.removed),
    ("added", .array (ofEntries d.added)), ("updated", .array (ofEntries d.updated))]

theorem denotes_map {r : Reader Delta} {d : MapDelta Delta}
    (hadded : ∀ e ∈ d.added, Denotes r (ofDelta e.delta) e.delta)
    (hupdated : ∀ e ∈ d.updated, Denotes r (ofDelta e.delta) e.delta) :
    Denotes (map r) (ofMap d) d := by
  have hcleared := denotes_bool d.cleared
  have hremoved := denotes_payloads d.removed
  have hadded := denotes_entries hadded
  have hupdated := denotes_entries hupdated
  rw [← ofEntries_eq] at hadded hupdated
  refine denotes_record rfl (by decide) ?_ fun room read => ?_
  · simp [hcleared.spelled, hremoved.spelled, hadded.spelled, hupdated.spelled]
  · simp [read hcleared, read hremoved, read hadded, read hupdated]

theorem depth_lt_of_mem_ofEntries {es : List (EntryDelta Delta)} {e : EntryDelta Delta}
    (he : e ∈ es) : (ofDelta e.delta).depth < (Tree.array (ofEntries es)).depth := by
  have hentry : (ofEntry e.key (ofDelta e.delta)).depth < (Tree.array (ofEntries es)).depth := by
    rw [ofEntries_eq]
    exact Tree.depth_lt_of_mem_array (List.mem_map_of_mem he)
  have hdelta : (ofDelta e.delta).depth < (ofEntry e.key (ofDelta e.delta)).depth :=
    depth_lt_of_mem_ofRecord (f := ("delta", ofDelta e.delta)) (by simp)
  omega

/-- A delta in a map opens fewer brackets than the map. -/
theorem depth_lt_of_mem_ofMap {d : MapDelta Delta} {e : EntryDelta Delta}
    (he : e ∈ d.added ∨ e ∈ d.updated) : (ofDelta e.delta).depth < (ofMap d).depth := by
  rcases he with he | he
  · have hadded : (Tree.array (ofEntries d.added)).depth < (ofMap d).depth :=
      depth_lt_of_mem_ofRecord (f := ("added", .array (ofEntries d.added))) (by simp)
    exact Nat.lt_trans (depth_lt_of_mem_ofEntries he) hadded
  · have hupdated : (Tree.array (ofEntries d.updated)).depth < (ofMap d).depth :=
      depth_lt_of_mem_ofRecord (f := ("updated", .array (ofEntries d.updated))) (by simp)
    exact Nat.lt_trans (depth_lt_of_mem_ofEntries he) hupdated

/-- As many levels of nesting as brackets are enough to read a delta. -/
theorem denotes_delta (d : Delta) {levels : Nat} (h : (ofDelta d).depth ≤ levels) :
    Denotes (deltaWithin levels) (ofDelta d) d := by
  induction d using Delta.induction generalizing levels with
  | leaf d hd =>
      obtain ⟨t, ht⟩ := exists_ofDelta_eq d
      cases levels with
      | zero =>
          rw [ht] at h
          cases h
      | succ levels => exact denotes_leaf levels hd
  | map d ihAdded ihUpdated =>
      cases levels with
      | zero => cases h
      | succ levels =>
          have hmap : (ofMap d).depth ≤ levels :=
            depth_ofRecord_le_iff.mp h _ (List.mem_singleton_self _)
          have hadded : ∀ e ∈ d.added, Denotes (deltaWithin levels) (ofDelta e.delta) e.delta :=
            fun e he => ihAdded e he
              (Nat.le_of_lt (Nat.lt_of_lt_of_le (depth_lt_of_mem_ofMap (Or.inl he)) hmap))
          have hupdated : ∀ e ∈ d.updated, Denotes (deltaWithin levels) (ofDelta e.delta) e.delta :=
            fun e he => ihUpdated e he
              (Nat.le_of_lt (Nat.lt_of_lt_of_le (depth_lt_of_mem_ofMap (Or.inr he)) hmap))
          exact denotes_tagged
            ((denotes_map hadded hupdated).map fun _ => by simp [content, Kind.name])

/-! ## Payloads with a string -/

theorem denotes_text (s : String) : Denotes byteString (ofString s) (utf8 s) where
  spelled := spelled_ofString s
  read _ _ := congrArg some (Literal.bytes_of_string? (Literal.string?_ofChars s))

theorem denotes_payload_text (url s : String) :
    Denotes payload (ofRecord [("typeUrl", ofString url), ("value", ofString s)])
      ⟨url, utf8 s⟩ := by
  have hurl := denotes_string url
  have hvalue := denotes_text s
  refine denotes_record rfl (by decide) ?_ fun room read => ?_
  · simp [hurl.spelled, hvalue.spelled]
  · simp [read hurl, read hvalue]

@[simp]
theorem depth_ofString (s : String) : (ofString s).depth = 0 := by
  rw [ofString, Tree.depth] <;> simp

theorem depth_ofBytes_le (bs : List UInt8) : (ofBytes bs).depth ≤ 1 :=
  Tree.depth_array_le_iff.mpr (List.forall_mem_map.mpr fun _ _ => Nat.le_refl 0)

/-- Two trees of one payload, whose bytes are written as a string in the first one and as an array
of the bytes of that string in the second one. -/
inductive WritesAsText : Tree → Tree → Prop
  /-- The payload is an object; its other members may be anything. -/
  | object (before after : List (Literal × Tree)) {name l : Literal} {s : String}
      (hname : name.string? = some "value") (hl : l.string? = some s) :
      WritesAsText (.object (before ++ (name, .string l) :: after))
        (.object (before ++ (name, ofBytes (utf8 s)) :: after))
  /-- The payload is an array of its fields. -/
  | array (url : Tree) {l : Literal} {s : String} (hl : l.string? = some s) :
      WritesAsText (.array [url, .string l]) (.array [url, ofBytes (utf8 s)])

theorem admitted_value_eq (t t' : Tree) (before after : List (String × Tree)) :
    admitted ["typeUrl", "value"] (before ++ ("value", t) :: after) =
      admitted ["typeUrl", "value"] (before ++ ("value", t') :: after) := by
  simp [admitted, List.countP_append, List.countP_cons]

/-- A member that names a field is read as this field, or it does not matter what its value is. -/
theorem pick_value (before after : List (String × Tree)) :
    (∃ url, ∀ t, pick ["typeUrl", "value"] (before ++ ("value", t) :: after) =
      some [url, some t]) ∨
    ∃ r, ∀ t, pick ["typeUrl", "value"] (before ++ ("value", t) :: after) = r := by
  cases hnull : admitted ["typeUrl", "value"] (before ++ ("value", .null) :: after) with
  | false =>
      refine Or.inr ⟨none, fun t => ?_⟩
      rw [pick, admitted_value_eq t .null, hnull]
      rfl
  | true =>
      have hurl (t : Tree) : (before ++ ("value", t) :: after).find? (fun b => b.1 = "typeUrl") =
          (before ++ after).find? fun b => b.1 = "typeUrl" := by
        simp [List.find?_append]
      have hvalue (t : Tree) : (before ++ ("value", t) :: after).find? (fun b => b.1 = "value") =
          (before.find? fun b => b.1 = "value").or (some ("value", t)) := by
        simp [List.find?_append]
      have hpick (t : Tree) : pick ["typeUrl", "value"] (before ++ ("value", t) :: after) =
          some [((before ++ after).find? fun b => b.1 = "typeUrl").map Prod.snd,
            ((before.find? fun b => b.1 = "value").or (some ("value", t))).map Prod.snd] := by
        rw [pick, admitted_value_eq t .null, hnull, List.map_cons, List.map_cons, hurl, hvalue]
        rfl
      -- a member of the same name that stands before this one hides it
      cases hfind : before.find? fun b => b.1 = "value" with
      | none => exact Or.inl ⟨_, fun t => by rw [hpick, hfind, Option.none_or, Option.map_some]⟩
      | some b => exact Or.inr ⟨_, fun t => by rw [hpick, hfind, Option.some_or]⟩

theorem fields_value {name : Literal} (hname : name.string? = some "value")
    (before after : List (Literal × Tree)) :
    (∃ url, ∀ t, fields ["typeUrl", "value"] (before ++ (name, t) :: after) =
      some [url, some t]) ∨
    ∃ r, ∀ t, fields ["typeUrl", "value"] (before ++ (name, t) :: after) = r := by
  have hnamed (t : Tree) : (before ++ (name, t) :: after).mapM named =
      (before.mapM named).bind fun bs => (after.mapM named).bind fun cs =>
        some (bs ++ ("value", t) :: cs) := by
    have hvalue : named (name, t) = some ("value", t) := by rw [named, hname, Option.map_some]
    rw [List.mapM_append, List.mapM_cons, hvalue]
    simp [Option.bind_assoc]
  simp only [fields_eq, hnamed]
  cases before.mapM named with
  | none => exact Or.inr ⟨none, fun _ => rfl⟩
  | some bs =>
      cases after.mapM named with
      | none => exact Or.inr ⟨none, fun _ => rfl⟩
      | some cs => exact pick_value bs cs

/-- A payload is read from its string like from its bytes. -/
theorem payload_eq_of_writesAsText {t t' : Tree} (h : WritesAsText t t') {room : Nat}
    (hroom : 2 ≤ room) : payload room t = payload room t' := by
  obtain ⟨room, rfl⟩ := Nat.exists_eq_add_of_le' (Nat.le_trans (Nat.le_succ 1) hroom)
  have hbytes {l : Literal} {s : String} (hl : l.string? = some s) :
      byteString room (.string l) = byteString room (ofBytes (utf8 s)) := by
    have hdepth := Nat.le_trans (depth_ofBytes_le (utf8 s)) (Nat.le_of_succ_le_succ hroom)
    rw [(denotes_byteString (utf8 s)).read room hdepth, byteString,
      Literal.bytes_of_string? hl]
  cases h with
  | @object before after name l s hname hl =>
      rcases fields_value hname before after with ⟨url, hfields⟩ | ⟨r, hfields⟩
      · simp only [payload, record, hfields, Option.bind_some]
        cases url with
        | none => rfl
        | some url => simp only [hbytes hl]
      · simp only [payload, record, hfields]
  | array url hl => simp [payload, record, hbytes hl]

/-! ## Texts -/

theorem ofChars?_print {t : Tree} (h : t.Spelled) : Tree.ofChars? (print t).toList = some t := by
  rw [print, String.toList_ofList, Tree.ofChars?_chars h]

/-- Of records whose fields open one bracket at most, all can be read. -/
theorem depth_le_maxDepth {fs : List (String × Tree)} (h : ∀ f ∈ fs, f.2.depth ≤ 1) :
    (ofRecord fs).depth ≤ maxDepth :=
  Nat.le_trans (depth_ofRecord_le_iff.mpr h) (by decide)

/-- A tree is read from its text, and its value by a reader for it. -/
theorem Denotes.parse?_print {α : Type} {r : Reader α} {t : Tree} {a : α} (h : Denotes r t a)
    (hdepth : t.depth ≤ maxDepth) : parse? r (print t) = some a := by
  rw [Wire.parse?, ofChars?_print h.spelled, Option.bind_some, h.read maxDepth hdepth]

/-- Deltas, payloads and keys are read back from their texts, a delta if no more brackets are open
in its text than a reader may open; the text of a delta is an object whose only member is named by
the kind of the delta.  A payload with a string is read like one with the bytes of that string. -/
theorem parse_print_roundtrip :
    (∀ d : Delta, (ofDelta d).depth ≤ maxDepth → parse? delta (print (ofDelta d)) = some d) ∧
    (∀ d : Delta, ∃ tag content,
      Tree.ofChars? (print (ofDelta d)).toList = some (.object [(tag, content)]) ∧
        tag.string? = some d.kind.name) ∧
    (∀ p : Payload, parse? payload (print (ofPayload p)) = some p) ∧
    (∀ k : Key, parse? key (print (ofKey k)) = some k) ∧
    (∀ url s : String, parse? payload
      (print (ofRecord [("typeUrl", ofString url), ("value", ofString s)])) =
        some ⟨url, utf8 s⟩) ∧
    ∀ (x x' : String) (t t' : Tree), Tree.ofChars? x.toList = some t →
      Tree.ofChars? x'.toList = some t' → WritesAsText t t' →
        parse? payload x = parse? payload x' := by
  refine ⟨fun d hd => ?_, fun d => ?_, fun p => ?_, fun k => ?_, fun url s => ?_,
    fun x x' t t' hx hx' h => ?_⟩
  · exact (denotes_delta d hd).parse?_print hd
  · obtain ⟨t, ht⟩ := exists_ofDelta_eq d
    have hspelled := (denotes_delta d (Nat.le_refl _)).spelled
    refine ⟨.ofChars d.kind.name.toList, t, ?_, Literal.string?_ofChars d.kind.name⟩
    rw [ofChars?_print hspelled, ht]
    rfl
  · exact (denotes_payload p).parse?_print (depth_le_maxDepth (by simp [depth_ofBytes_le]))
  · exact (denotes_key k).parse?_print (depth_le_maxDepth (by simp [depth_ofBytes_le]))
  · exact (denotes_payload_text url s).parse?_print (depth_le_maxDepth (by simp))
  · rw [parse?, parse?, hx, hx', Option.bind_some, Option.bind_some]
    exact payload_eq_of_writesAsText h (by decide)

/-- A map that a map to registers enters, one of which has never been written; and a payload whose
string, and the name of whose field, are written with escapes. -/
theorem parse_print_nested_map :
    let k : Payload := ⟨"u\"\\\n", [0, 255]⟩
    let r : RegisterDelta := ⟨none, .customAutoIncrement, -0x8000000000000000⟩
    let d : Delta :=
      .map ⟨true, [k], [⟨k, .registerMap ⟨false, [], [⟨k, r⟩]⟩⟩], [⟨k, .flag ⟨true⟩⟩]⟩
    parse? delta (print (ofDelta d)) = some d ∧
      parse? payload "\x7b\"n\":[null],\"\\u0076alue\":\"h\\u00e9\",\"typeUrl\":\"u\"\x7d" =
        parse? payload "\x7b\"n\":[null],\"\\u0076alue\":[104,195,169],\"typeUrl\":\"u\"\x7d" := by
  intro k r d
  obtain ⟨hdelta, -, -, -, -, htext⟩ := parse_print_roundtrip
  have hname : Literal.string? [.escape 0x76, .plain 'a', .plain 'l', .plain 'u', .plain 'e'] =
      some "value" := by
    rfl
  have hvalue : Literal.string? [.plain 'h', .escape 0xE9] = some "hé" := by
    rfl
  have hobject := WritesAsText.object [([.plain 'n'], .array [.null])]
    [(.ofChars "typeUrl".toList, ofString "u")] hname hvalue
  exact ⟨hdelta d (by decide), htext _ _ _ _ (by rfl) (by rfl) hobject⟩

end Wire

end DeltaReplica
