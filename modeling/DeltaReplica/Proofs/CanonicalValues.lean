import DeltaReplica.Json.Value
import DeltaReplica.Proofs.Lookup

/-!
# Canonical JSON values

An object is a finite map, so it does not matter in which order a value keeps the members of its
objects: values that differ in nothing else are alike.  The canonical form of a value keeps all
members in the order of their names.  Values are alike exactly if they have the same canonical form
(`Value.alike_iff_canonical_eq`), and a value that has all members in order, as every value that was
read has, is its own canonical form (`Value.Ordered.canonical_eq`).
-/

namespace DeltaReplica.Json

namespace Value

/-- A value occurs in another one, at any depth. -/
inductive Within : Value → Value → Prop
  /-- A value occurs in itself. -/
  | self (v : Value) : Within v v
  /-- What occurs in an item of an array occurs in the array. -/
  | item {w v : Value} {vs : List Value} (hv : v ∈ vs) (h : Within w v) : Within w (.array vs)
  /-- What occurs in the value of a member of an object occurs in the object. -/
  | member {w : Value} {b : String × Value} {m : FinMap String Value} (hb : b ∈ m.entries)
      (h : Within w b.2) : Within w (.object m)

/-- All numbers in a value are integers. -/
def Integral (v : Value) : Prop := ∀ n, Within (.number n) v → ∃ i h, n = .integer i h

/-- Each object in a value has each of its names once, as a finite map does. -/
def Distinct (v : Value) : Prop := ∀ m, Within (.object m) v → m.keys.Nodup

/-- Each object in a value keeps its members in the order of their names. -/
def Ordered (v : Value) : Prop := ∀ m, Within (.object m) v → m.Ordered

/-- Equality of values whose objects are finite maps: arrays have equal items, and objects have the
same names with equal values, in whatever order. -/
inductive Alike : Value → Value → Prop
  /-- Every value is like itself. -/
  | refl (v : Value) : Alike v v
  /-- The items of arrays are compared one by one. -/
  | array {vs ws : List Value} (hlength : vs.length = ws.length)
      (hitems : ∀ (i : Nat) (hi : i < vs.length) (hi' : i < ws.length), Alike vs[i] ws[i]) :
      Alike (.array vs) (.array ws)
  /-- The members of objects are compared name by name. -/
  | object {m m' : FinMap String Value} (hnames : ∀ s, m.contains s = m'.contains s)
      (hvalues : ∀ s v w, m.find? s = some v → m'.find? s = some w → Alike v w) :
      Alike (.object m) (.object m')

/-! ## Properties of nested values -/

@[simp]
theorem integral_array {vs : List Value} : (array vs).Integral ↔ ∀ v ∈ vs, v.Integral := by
  refine ⟨fun h v hv n hn => h n (.item hv hn), ?_⟩
  rintro h n (_ | ⟨hv, hn⟩)
  exact h _ hv n hn

@[simp]
theorem integral_object {m : FinMap String Value} :
    (object m).Integral ↔ ∀ b ∈ m.entries, b.2.Integral := by
  refine ⟨fun h b hb n hn => h n (.member hb hn), ?_⟩
  rintro h n (_ | _ | ⟨hb, hn⟩)
  exact h _ hb n hn

@[simp]
theorem distinct_array {vs : List Value} : (array vs).Distinct ↔ ∀ v ∈ vs, v.Distinct := by
  refine ⟨fun h v hv m hm => h m (.item hv hm), ?_⟩
  rintro h m (_ | ⟨hv, hm⟩)
  exact h _ hv m hm

@[simp]
theorem distinct_object {m : FinMap String Value} :
    (object m).Distinct ↔ m.keys.Nodup ∧ ∀ b ∈ m.entries, b.2.Distinct := by
  refine ⟨fun h => ⟨h m (.self _), fun b hb m hm => h m (.member hb hm)⟩, ?_⟩
  rintro ⟨hkeys, h⟩ m (_ | _ | ⟨hb, hm⟩)
  · exact hkeys
  · exact h _ hb m hm

@[simp]
theorem ordered_array {vs : List Value} : (array vs).Ordered ↔ ∀ v ∈ vs, v.Ordered := by
  refine ⟨fun h v hv m hm => h m (.item hv hm), ?_⟩
  rintro h m (_ | ⟨hv, hm⟩)
  exact h _ hv m hm

@[simp]
theorem ordered_object {m : FinMap String Value} :
    (object m).Ordered ↔ m.Ordered ∧ ∀ b ∈ m.entries, b.2.Ordered := by
  refine ⟨fun h => ⟨h m (.self _), fun b hb m hm => h m (.member hb hm)⟩, ?_⟩
  rintro ⟨hkeys, h⟩ m (_ | _ | ⟨hb, hm⟩)
  · exact hkeys
  · exact h _ hb m hm

/-! ## Canonical forms -/

theorem canonicalItems_eq_map (vs : List Value) : canonicalItems vs = vs.map canonical := by
  induction vs with
  | nil => rfl
  | cons v vs ih => rw [canonicalItems, ih, List.map_cons]

theorem canonicalMembers_eq_map (bs : List (String × Value)) :
    canonicalMembers bs = bs.map fun b => (b.1, b.2.canonical) := by
  induction bs with
  | nil => rfl
  | cons b bs ih => rw [canonicalMembers, ih, List.map_cons]

@[simp]
theorem canonical_array (vs : List Value) : (array vs).canonical = .array (vs.map canonical) := by
  rw [canonical, canonicalItems_eq_map]

/-- The members of an object in the order of their names, with canonical values. -/
def canonicalMap (m : FinMap String Value) : FinMap String Value :=
  .ofList (m.map fun _ v => v.canonical).entries

@[simp]
theorem canonical_object (m : FinMap String Value) :
    (object m).canonical = .object (canonicalMap m) := by
  obtain ⟨bs⟩ := m
  rw [canonical, canonicalMembers_eq_map]
  rfl

/-- What occurs in a canonical object has been there before. -/
theorem mem_canonicalMap {m : FinMap String Value} {b : String × Value}
    (h : b ∈ (canonicalMap m).entries) : ∃ b' ∈ m.entries, b = (b'.1, b'.2.canonical) := by
  obtain ⟨b', hb', rfl⟩ := List.mem_map.mp (FinMap.mem_of_mem_ofList h)
  exact ⟨b', hb', rfl⟩

theorem find?_canonicalMap {m : FinMap String Value} (h : m.keys.Nodup) (s : String) :
    (canonicalMap m).find? s = (m.find? s).map canonical := by
  have hkeys : (m.map fun _ v => v.canonical).keys.Nodup := by
    rw [FinMap.keys_map]
    exact h
  exact (FinMap.find?_ofList_of_nodup hkeys s).trans (FinMap.find?_map (fun _ v => v.canonical) m s)

theorem ordered_canonicalMap (m : FinMap String Value) : (canonicalMap m).Ordered :=
  FinMap.ordered_ofList _

theorem ordered_canonical (v : Value) : v.canonical.Ordered := by
  induction v using Value.induction with
  | null | bool | number | string => exact fun m hm => nomatch hm
  | array vs ih =>
      rw [canonical_array, ordered_array]
      exact List.forall_mem_map.mpr ih
  | object m ih =>
      rw [canonical_object, ordered_object]
      refine ⟨ordered_canonicalMap m, fun c hc => ?_⟩
      obtain ⟨b, hb, rfl⟩ := mem_canonicalMap hc
      exact ih b hb

theorem Ordered.distinct {v : Value} (h : v.Ordered) : v.Distinct := fun m hm => (h m hm).nodup_keys

/-- A value with all members in order is its own canonical form. -/
theorem Ordered.canonical_eq {v : Value} (h : v.Ordered) : v.canonical = v := by
  induction v using Value.induction with
  | null | bool | number | string => rfl
  | array vs ih =>
      have hitems : vs.map canonical = vs :=
        (List.map_congr_left fun v hv => ih v hv (ordered_array.mp h v hv)).trans (List.map_id vs)
      rw [canonical_array, hitems]
  | object m ih =>
      obtain ⟨hm, hvalues⟩ := ordered_object.mp h
      have hmembers : (m.map fun _ v => v.canonical).entries = m.entries := by
        refine (List.map_congr_left fun b hb => ?_).trans (List.map_id m.entries)
        exact Prod.ext rfl (ih b hb (hvalues b hb))
      rw [canonical_object, canonicalMap, hmembers, hm.ofList_entries]

/-- The numbers of a canonical form are those of the value. -/
theorem Integral.canonical {v : Value} (h : v.Integral) : v.canonical.Integral := by
  induction v using Value.induction with
  | null | bool | number | string => exact h
  | array vs ih =>
      rw [canonical_array, integral_array]
      exact List.forall_mem_map.mpr fun v hv => ih v hv (integral_array.mp h v hv)
  | object m ih =>
      rw [canonical_object, integral_object]
      intro c hc
      obtain ⟨b, hb, rfl⟩ := mem_canonicalMap hc
      exact ih b hb (integral_object.mp h b hb)

/-! ## Equal values -/

theorem Alike.canonical_eq {v w : Value} (h : v.Alike w) (hv : v.Distinct) (hw : w.Distinct) :
    v.canonical = w.canonical := by
  induction h with
  | refl v => rfl
  | @array vs ws hlength hitems ih =>
      rw [canonical_array, canonical_array]
      refine congrArg Value.array (List.ext_getElem (by simpa using hlength) fun i hi hi' => ?_)
      rw [List.getElem_map, List.getElem_map]
      rw [List.length_map] at hi hi'
      exact ih i hi hi' (distinct_array.mp hv _ (List.getElem_mem hi))
        (distinct_array.mp hw _ (List.getElem_mem hi'))
  | @object m m' hnames hvalues ih =>
      obtain ⟨hm, hv⟩ := distinct_object.mp hv
      obtain ⟨hm', hw⟩ := distinct_object.mp hw
      rw [canonical_object, canonical_object]
      refine congrArg Value.object
        ((ordered_canonicalMap m).ext (ordered_canonicalMap m') fun s => ?_)
      rw [find?_canonicalMap hm, find?_canonicalMap hm']
      have hname := hnames s
      rw [FinMap.contains_eq_isSome, FinMap.contains_eq_isSome] at hname
      cases hs : m.find? s with
      | none =>
          cases hs' : m'.find? s with
          | none => rfl
          | some w => simp [hs, hs'] at hname
      | some v =>
          cases hs' : m'.find? s with
          | none => simp [hs, hs'] at hname
          | some w =>
              have hmem := FinMap.mem_entries_of_find?_eq_some hs
              have hmem' := FinMap.mem_entries_of_find?_eq_some hs'
              exact congrArg some (ih s v w hs hs' (hv _ hmem) (hw _ hmem'))

theorem alike_of_canonical_eq {v w : Value} (h : v.canonical = w.canonical) (hv : v.Distinct)
    (hw : w.Distinct) : v.Alike w := by
  induction v using Value.induction generalizing w with
  | null | bool | number | string =>
      cases w with
      | array ws => rw [canonical_array] at h; cases h
      | object m => rw [canonical_object] at h; cases h
      | _ => cases h <;> exact .refl _
  | array vs ih =>
      cases w with
      | array ws =>
          rw [canonical_array, canonical_array, array.injEq] at h
          have hlength : vs.length = ws.length := by simpa using congrArg List.length h
          refine .array hlength fun i hi hi' => ?_
          have hitem : vs[i].canonical = ws[i].canonical := by
            simpa [hi, hi'] using congrArg (fun us : List Value => us[i]?) h
          exact ih _ (List.getElem_mem hi) hitem (distinct_array.mp hv _ (List.getElem_mem hi))
            (distinct_array.mp hw _ (List.getElem_mem hi'))
      | object m => rw [canonical_object] at h; cases h
      | _ => cases h
  | object m ih =>
      cases w with
      | object m' =>
          obtain ⟨hm, hv⟩ := distinct_object.mp hv
          obtain ⟨hm', hw⟩ := distinct_object.mp hw
          rw [canonical_object, canonical_object, object.injEq] at h
          have hfind (s : String) : (m.find? s).map canonical = (m'.find? s).map canonical := by
            rw [← find?_canonicalMap hm, ← find?_canonicalMap hm', h]
          refine .object (fun s => ?_) fun s v w hs hs' => ?_
          · simpa [FinMap.contains_eq_isSome] using congrArg Option.isSome (hfind s)
          · have hmem := FinMap.mem_entries_of_find?_eq_some hs
            have hmem' := FinMap.mem_entries_of_find?_eq_some hs'
            have hvalue : v.canonical = w.canonical := by simpa [hs, hs'] using hfind s
            exact ih _ hmem hvalue (hv _ hmem) (hw _ hmem')
      | array ws => rw [canonical_array] at h; cases h
      | _ => cases h

/-- Values are alike exactly if they have the same canonical form. -/
theorem alike_iff_canonical_eq {v w : Value} (hv : v.Distinct) (hw : w.Distinct) :
    v.Alike w ↔ v.canonical = w.canonical :=
  ⟨fun h => h.canonical_eq hv hw, fun h => alike_of_canonical_eq h hv hw⟩

/-- Every value is like its canonical form. -/
theorem canonical_alike {v : Value} (hv : v.Distinct) : v.canonical.Alike v :=
  alike_of_canonical_eq (ordered_canonical v).canonical_eq (ordered_canonical v).distinct hv

end Value

end DeltaReplica.Json
