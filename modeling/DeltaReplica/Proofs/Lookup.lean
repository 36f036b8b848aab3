import DeltaReplica.Contents
import DeltaReplica.FinMap.Order

/-!
# Indexed finite maps

Collections keep their elements in finite maps under the keys of the elements.  Such a
map is indexed: its keys increase, and everything in it stands under its own key.
Inserting and erasing keep a map indexed.

The contents of a map of values are read through `FinMap.valueAt?`, which forgets the
element that a value is stored with, and through `FinMap.elements`, which forgets the values.
-/

namespace DeltaReplica

/-- The key that an entry of a map is indexed by. -/
abbrev Contents.entryKey {K V : Type} [Element K] (e : K × V) : Key := Element.key e.1

namespace FinMap

variable {κ α β γ : Type}

theorem map_map (f : κ → α → β) (g : κ → β → γ) (m : FinMap κ α) :
    (m.map f).map g = m.map fun k a => g k (f k a) := by
  simp [map, Function.comp_def]

/-! ## Bindings -/

section Bindings

variable [DecidableEq κ]

theorem contains_iff_exists_mem {m : FinMap κ α} {k : κ} :
    m.contains k = true ↔ ∃ a, (k, a) ∈ m.entries := by
  simp [contains]

theorem mem_entries_of_find?_eq_some {m : FinMap κ α} {k : κ} {a : α}
    (h : m.find? k = some a) : (k, a) ∈ m.entries := by
  obtain ⟨e, he, rfl⟩ := Option.map_eq_some_iff.mp h
  have hk : e.1 = k := by simpa using List.find?_some he
  subst hk
  exact List.mem_of_find?_eq_some he

theorem find?_cons (b : κ × α) (bs : List (κ × α)) (k : κ) :
    find? ⟨b :: bs⟩ k = if b.1 = k then some b.2 else find? ⟨bs⟩ k := by
  by_cases h : b.1 = k <;> simp [find?, h]

theorem find?_eq_none_of_not_mem {bs : List (κ × α)} {k : κ} (h : k ∉ bs.map Prod.fst) :
    find? ⟨bs⟩ k = none := by
  rw [find?_eq_none_iff, ← Bool.not_eq_true, contains_iff_mem_keys]
  exact h

theorem isEmpty_iff_forall_contains {m : FinMap κ α} :
    m.isEmpty = true ↔ ∀ k, m.contains k = false := by
  rw [isEmpty_iff]
  constructor
  · rintro rfl k
    rfl
  · intro h
    obtain ⟨es⟩ := m
    cases es with
    | nil => rfl
    | cons e es =>
        have hfirst := h e.1
        simp [contains] at hfirst

omit [DecidableEq κ] in
theorem values_eq_nil_iff {m : FinMap κ α} : m.values = [] ↔ m = ∅ := by
  rw [← isEmpty_iff, isEmpty, values, List.isEmpty_iff, List.map_eq_nil_iff]

theorem mem_entries_of_mem_erase {m : FinMap κ α} {k : κ} {e : κ × α}
    (h : e ∈ (m.erase k).entries) : e ∈ m.entries :=
  (List.mem_filter.mp h).1

theorem find?_erase (m : FinMap κ α) (k k' : κ) :
    (m.erase k).find? k' = if k' = k then none else m.find? k' := by
  by_cases h : k' = k
  · simp [h]
  · simp [h, find?_erase_of_ne m h]

theorem find?_foldl_erase (ks : List κ) (m : FinMap κ α) (k' : κ) :
    (ks.foldl (fun m k => m.erase k) m).find? k' = if k' ∈ ks then none else m.find? k' := by
  induction ks generalizing m with
  | nil => simp
  | cons k ks ih =>
      rw [List.foldl_cons, ih, find?_erase]
      by_cases h : k' = k
      · simp [h]
      · simp [h]

end Bindings

theorem mem_entries_of_mem_insert [LT κ] [DecidableLT κ] [LawfulLT κ] {m : FinMap κ α} {k : κ}
    {a : α} {e : κ × α} (h : e ∈ (m.insert k a).entries) :
    e = (k, a) ∨ e ∈ m.entries ∧ e.1 ≠ k := by
  rw [insert, List.mem_append, List.mem_cons] at h
  rcases h with h | h | h
  · obtain ⟨he, hlt⟩ := List.mem_filter.mp h
    exact Or.inr ⟨he, LawfulLT.ne_of_lt (of_decide_eq_true hlt)⟩
  · exact Or.inl h
  · obtain ⟨he, hlt⟩ := List.mem_filter.mp h
    exact Or.inr ⟨he, (LawfulLT.ne_of_lt (of_decide_eq_true hlt)).symm⟩

section Insert

variable [LT κ] [DecidableLT κ] [DecidableEq κ] [LawfulLT κ]

theorem contains_foldl_insert (bs : List (κ × α)) (m : FinMap κ α) (k' : κ) :
    (bs.foldl (fun m b => m.insert b.1 b.2) m).contains k' = true ↔
      k' ∈ bs.map Prod.fst ∨ m.contains k' = true := by
  induction bs generalizing m with
  | nil => simp
  | cons b bs ih =>
      rw [List.foldl_cons, ih, contains_insert, List.map_cons, List.mem_cons]
      simp only [Bool.or_eq_true, decide_eq_true_eq]
      constructor
      · rintro (h | h | h)
        · exact Or.inl (Or.inr h)
        · exact Or.inl (Or.inl h)
        · exact Or.inr h
      · rintro ((h | h) | h)
        · exact Or.inr (Or.inl h)
        · exact Or.inl h
        · exact Or.inr (Or.inr h)

/-! ## Lists of bindings -/

theorem find?_foldl_insert_of_nodup {bs : List (κ × α)} (h : (bs.map Prod.fst).Nodup)
    (m : FinMap κ α) (k : κ) :
    (bs.foldl (fun m b => m.insert b.1 b.2) m).find? k = (find? ⟨bs⟩ k).or (m.find? k) := by
  induction bs generalizing m with
  | nil => rfl
  | cons b bs ih =>
      obtain ⟨hb, hbs⟩ := List.nodup_cons.mp h
      rw [List.foldl_cons, ih hbs, find?_cons]
      by_cases hk : b.1 = k
      · subst hk
        rw [find?_insert_self, find?_eq_none_of_not_mem hb, if_pos rfl, Option.none_or,
          Option.some_or]
      · rw [find?_insert_of_ne m b.2 (Ne.symm hk), if_neg hk]

/-- The map of a list that binds each key once holds the bindings of the list. -/
theorem find?_ofList_of_nodup {bs : List (κ × α)} (h : (bs.map Prod.fst).Nodup) (k : κ) :
    (ofList bs).find? k = find? ⟨bs⟩ k := by
  rw [ofList, find?_foldl_insert_of_nodup h, find?_empty, Option.or_none]

/-- The map of the bindings of an ordered map is that map. -/
theorem Ordered.ofList_entries {m : FinMap κ α} (h : m.Ordered) : ofList m.entries = m :=
  (ordered_ofList m.entries).ext h (find?_ofList_of_nodup h.nodup_keys)

omit [DecidableEq κ] in
theorem mem_of_mem_ofList {bs : List (κ × α)} {b : κ × α} (h : b ∈ (ofList bs).entries) :
    b ∈ bs := by
  refine List.foldlRecOn bs (fun m b => m.insert b.1 b.2)
    (motive := fun m : FinMap κ α => b ∈ m.entries → b ∈ bs) (fun hb => absurd hb List.not_mem_nil)
    (fun m ih c hc hb => ?_) h
  rcases mem_entries_of_mem_insert hb with rfl | ⟨hb, -⟩
  · exact hc
  · exact ih hb

end Insert

/-! ## Indexing -/

/-- The keys increase, and everything stands under its own key. -/
structure IndexedBy [LT κ] (key : α → κ) (m : FinMap κ α) : Prop where
  ordered : m.Ordered
  key_eq : ∀ e ∈ m.entries, key e.2 = e.1

namespace IndexedBy

variable [LT κ] {key : α → κ} {m : FinMap κ α}

theorem empty : (∅ : FinMap κ α).IndexedBy key :=
  ⟨ordered_empty, by simp⟩

theorem insert [DecidableLT κ] [LawfulLT κ] (h : m.IndexedBy key) {k : κ} {a : α}
    (ha : key a = k) : (m.insert k a).IndexedBy key := by
  refine ⟨h.ordered.insert k a, fun e he => ?_⟩
  rcases mem_entries_of_mem_insert he with rfl | ⟨he, -⟩
  · exact ha
  · exact h.key_eq e he

theorem clearIf {m : FinMap Key α} {key : α → Key} (h : m.IndexedBy key) (cleared : Bool) :
    (Contents.clearIf cleared m).IndexedBy key := by
  cases cleared
  · exact h
  · exact IndexedBy.empty

variable [DecidableEq κ]

theorem erase (h : m.IndexedBy key) (k : κ) : (m.erase k).IndexedBy key :=
  ⟨h.ordered.erase k, fun e he => h.key_eq e (mem_entries_of_mem_erase he)⟩

theorem key_of_find? (h : m.IndexedBy key) {k : κ} {a : α} (hf : m.find? k = some a) :
    key a = k :=
  h.key_eq _ (mem_entries_of_find?_eq_some hf)

omit [DecidableEq κ] in
theorem map_values (h : m.IndexedBy key) : m.values.map key = m.keys := by
  rw [values, keys, List.map_map]
  exact List.map_congr_left h.key_eq

theorem contains_iff_mem_values (h : m.IndexedBy key) {k : κ} :
    m.contains k = true ↔ k ∈ m.values.map key := by
  rw [h.map_values, contains_iff_mem_keys]

omit [DecidableEq κ] in
theorem nodup_map_values [LawfulLT κ] (h : m.IndexedBy key) : (m.values.map key).Nodup := by
  rw [h.map_values]
  exact h.ordered.nodup_keys

/-- Elements that are looked up by their keys come in the order of the keys, less the missing
ones. -/
theorem map_filterMap_find? (h : m.IndexedBy key) (ks : List κ) :
    (ks.filterMap m.find?).map key = ks.filter m.contains := by
  induction ks with
  | nil => rfl
  | cons k ks ih =>
      cases hf : m.find? k with
      | none => simp [hf, ih, find?_eq_none_iff.mp hf]
      | some a => simp [hf, ih, h.key_of_find? hf, contains_of_find?_eq_some hf]

/-- If everything is told apart by its key, then maps with the same keys are the same. -/
theorem eq_of_contains_eq [LawfulLT κ] {m' : FinMap κ α} (h : m.IndexedBy key)
    (h' : m'.IndexedBy key) (hkey : ∀ a a', key a = key a' → a = a')
    (hcontains : ∀ k, m.contains k = m'.contains k) : m = m' := by
  refine h.ordered.ext h'.ordered fun k => ?_
  have hk := hcontains k
  rw [contains_eq_isSome, contains_eq_isSome] at hk
  cases hfind : m.find? k with
  | none =>
      rw [hfind] at hk
      exact (Option.isSome_eq_false_iff.mp hk.symm |> Option.isNone_iff_eq_none.mp).symm
  | some a =>
      rw [hfind] at hk
      obtain ⟨a', hfind'⟩ := Option.isSome_iff_exists.mp hk.symm
      have hsame : key a = key a' := by
        rw [h.key_of_find? hfind, h'.key_of_find? hfind']
      rw [hfind', hkey a a' hsame]

end IndexedBy

/-! ## Elements and values of a map -/

section Entries

variable {K V : Type}

/-- The elements that the values of a map are stored with. -/
def elements (m : FinMap Key (K × V)) : FinMap Key K := m.map fun _ e => e.1

theorem find?_elements (m : FinMap Key (K × V)) (ck : Key) :
    m.elements.find? ck = (m.find? ck).map Prod.fst :=
  find?_map ..

theorem values_elements (m : FinMap Key (K × V)) : m.elements.values = m.values.map Prod.fst := by
  simp [elements, values]

theorem IndexedBy.elements [Element K] {m : FinMap Key (K × V)}
    (h : m.IndexedBy Contents.entryKey) : m.elements.IndexedBy Element.key := by
  refine ⟨h.ordered.map _, fun b hb => ?_⟩
  obtain ⟨e, he, rfl⟩ := List.mem_map.mp hb
  exact h.key_eq e he

/-- The value under a key, without the element that it is stored with. -/
def valueAt? (m : FinMap Key (K × V)) (ck : Key) : Option V := (m.find? ck).map Prod.snd

@[simp]
theorem valueAt?_empty (ck : Key) : (∅ : FinMap Key (K × V)).valueAt? ck = none := rfl

theorem contains_eq_isSome_valueAt? (m : FinMap Key (K × V)) (ck : Key) :
    m.contains ck = (m.valueAt? ck).isSome := by
  simp [contains_eq_isSome, valueAt?]

theorem valueAt?_eq_none_iff {m : FinMap Key (K × V)} {ck : Key} :
    m.valueAt? ck = none ↔ m.contains ck = false := by
  simp [contains_eq_isSome_valueAt?]

theorem valueAt?_eq_some_iff {m : FinMap Key (K × V)} {ck : Key} {v : V} :
    m.valueAt? ck = some v ↔ ∃ k, m.find? ck = some (k, v) := by
  simp [valueAt?]

theorem valueAt?_insert (m : FinMap Key (K × V)) (ck ck' : Key) (e : K × V) :
    (m.insert ck e).valueAt? ck' = if ck' = ck then some e.2 else m.valueAt? ck' := by
  by_cases h : ck' = ck
  · simp [valueAt?, h]
  · simp [valueAt?, h, find?_insert_of_ne m e h]

theorem valueAt?_erase (m : FinMap Key (K × V)) (ck ck' : Key) :
    (m.erase ck).valueAt? ck' = if ck' = ck then none else m.valueAt? ck' := by
  by_cases h : ck' = ck
  · simp [valueAt?, h]
  · simp [valueAt?, h, find?_erase_of_ne m h]

theorem find?_elements_eq_none_iff {m : FinMap Key (K × V)} {ck : Key} :
    m.elements.find? ck = none ↔ m.valueAt? ck = none := by
  simp [find?_elements, valueAt?]

end Entries

end FinMap

end DeltaReplica
