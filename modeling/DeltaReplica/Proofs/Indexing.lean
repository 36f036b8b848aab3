import DeltaReplica.Proofs.Reachability

/-!
# Indexes of collections

A collection stores its elements, and a map its keys, under their comparable keys, and looks
them up there.  The index is current if nothing stands under another key than its own, be it
stored or staged as removed.  Then looking up finds exactly what is listed, nothing is listed
twice, and the listed are counted right.

Data with a history have current indexes at every depth, whatever deltas failed on the way.
Nothing is asked of the elements for this, since a delta is merged under the keys of what is
read from it.
-/

namespace DeltaReplica

/-- A collection of elements, or of the keys of a map, as it is stored and as it is seen. -/
structure Index (E : Type) where
  /-- What is stored, under the keys that it is looked up by. -/
  stored : FinMap Key E
  /-- What is staged as removed, under the keys that it is looked up by. -/
  removed : FinMap Key E
  /-- Whether the collection has an element. -/
  has : E → Bool
  /-- The elements that one meets in going through the collection. -/
  listed : List E
  /-- The number of elements that the collection gives. -/
  size : Nat

namespace Index

variable {E : Type} [Element E]

/-- Everything stands under its own key, so that what is looked up, listed and counted is the
same. -/
structure Current (i : Index E) : Prop where
  stored : ∀ b ∈ i.stored.entries, Element.key b.2 = b.1
  removed : ∀ b ∈ i.removed.entries, Element.key b.2 = b.1
  has_iff : ∀ x, i.has x = true ↔ ∃ b ∈ i.stored.entries, Element.key b.2 = Element.key x
  listed : i.listed = i.stored.values
  distinct : i.listed.Pairwise fun x y => Element.key x ≠ Element.key y
  length : i.listed.length = i.size

/-- What is looked up and listed by way of indexed maps is current. -/
theorem Current.of_indexedBy {i : Index E} (hstored : i.stored.IndexedBy Element.key)
    (hremoved : i.removed.IndexedBy Element.key)
    (hhas : ∀ x, i.has x = i.stored.contains (Element.key x)) (hlisted : i.listed = i.stored.values)
    (hsize : i.size = i.stored.size) : i.Current where
  stored := hstored.key_eq
  removed := hremoved.key_eq
  has_iff x := by
    rw [hhas, FinMap.contains_iff_exists_mem]
    constructor
    · rintro ⟨y, hy⟩
      exact ⟨_, hy, hstored.key_eq _ hy⟩
    · rintro ⟨b, hb, hkey⟩
      rw [← hkey, hstored.key_eq b hb]
      exact ⟨b.2, hb⟩
  listed := hlisted
  distinct := by
    rw [hlisted]
    exact List.pairwise_map.mp hstored.nodup_map_values
  length := by rw [hlisted, hsize, FinMap.values, List.length_map, FinMap.size]

end Index

/-! ## Collections -/

section Collections

variable {K V : Type} [Element K]

/-- The index of a growing set, from which nothing is ever removed. -/
def GrowSet.index (s : GrowSet K) : Index K where
  stored := s.elements
  removed := ∅
  has x := s.has x
  listed := s.toList
  size := s.size

theorem GrowSet.Sound.current {s : GrowSet K} (h : s.Sound) : s.index.Current :=
  .of_indexedBy h.elements .empty (fun _ => rfl) rfl rfl

/-- The index of a set. -/
def AddRemoveSet.index (s : AddRemoveSet K) : Index K where
  stored := s.elements
  removed := s.removed
  has x := s.has x
  listed := s.toList
  size := s.size

theorem AddRemoveSet.Sound.current {s : AddRemoveSet K} (h : s.Sound) : s.index.Current :=
  .of_indexedBy h.elements h.removed (fun _ => rfl) rfl rfl

/-- The keys of sound contents are looked up, listed and counted by way of the stored ones. -/
theorem Contents.Sound.current {P : V → Prop} {m : Entries K V} {removed : FinMap Key K}
    (h : Sound P m) (hremoved : removed.IndexedBy Element.key) :
    Index.Current
      { stored := m.elements
        removed
        has := fun k => m.contains (Element.key k)
        listed := m.values.map Prod.fst
        size := m.size } := by
  refine .of_indexedBy h.indexed.elements hremoved (fun k => ?_) ?_ ?_
  · exact (FinMap.contains_map _ _ _).symm
  · exact m.values_elements.symm
  · exact (FinMap.size_map _ _).symm

/-- The index of the keys of a map to values of one tracked type. -/
def UniformMap.index (m : UniformMap K V) : Index K where
  stored := m.entries.elements
  removed := m.removed
  has k := m.has k
  listed := m.keys
  size := m.size

theorem UniformMap.Sound.current {P : V → Prop} {m : UniformMap K V} (h : m.Sound P) :
    m.index.Current :=
  h.contents.current h.removed

/-- The index of the keys of a map to replicated data. -/
def DataMap.index (m : DataMap K V) : Index K where
  stored := m.entries.elements
  removed := m.removed
  has k := m.has k
  listed := m.keys
  size := m.size

theorem DataMap.Sound.current {P : V → Prop} {m : DataMap K V} (h : m.Sound P) :
    m.index.Current :=
  h.contents.current h.removed

end Collections

/-! ## All types -/

namespace Datum

variable {T : Type} [Element T]

/-- Data in which every collection has a current index, at every depth. -/
inductive Indexed : Datum T → Prop
  | counter (c : Counter) : Indexed (.counter c)
  | register (r : Register T) : Indexed (.register r)
  | set {s : AddRemoveSet T} (h : s.index.Current) : Indexed (.set s)
  | vote (v : Vote) : Indexed (.vote v)
  | map {m : DataMap T (Datum T)} (h : m.index.Current)
      (hvalues : ∀ e ∈ m.entries.entries, Indexed e.2.2) : Indexed (.map m)
  | counterMap {m : CounterMap T} (h : (UniformMap.index m).Current) : Indexed (.counterMap m)
  | registerMap {m : RegisterMap T T} (h : (UniformMap.index m).Current) :
      Indexed (.registerMap m)
  | multiMap {m : MultiMap T T} (h : (UniformMap.index m).Current)
      (hvalues : ∀ e ∈ m.entries.entries, e.2.2.index.Current) : Indexed (.multiMap m)

theorem Sound.indexed {x : Datum T} (h : x.Sound) : x.Indexed := by
  induction h with
  | counter c => exact .counter c
  | register r => exact .register r
  | set h => exact .set h.current
  | vote v => exact .vote v
  | map h _ ih => exact .map h.current ih
  | counterMap h => exact .counterMap h.current
  | registerMap h => exact .registerMap h.current
  | multiMap h => exact .multiMap h.current fun e he => (h.contents.values e he).current

end Datum

namespace Replicated

/-- Data in which every collection has a current index, at every depth. -/
def Form.Indexed : {σ : Type} → {inst : Replicated σ} → Form σ inst → σ → Prop
  | _, _, counter, _ => True
  | _, _, @register _ _, _ => True
  | _, _, flag, _ => True
  | _, _, vote, _ => True
  | _, _, @growSet _ _, s => (GrowSet.index s).Current
  | _, _, @set _ _, s => (AddRemoveSet.index s).Current
  | _, _, @counterMap _ _, m => (UniformMap.index m).Current
  | _, _, @registerMap _ _ _ _, m => (UniformMap.index m).Current
  | _, _, @multiMap _ _ _ _, m =>
    (UniformMap.index m).Current ∧ ∀ e ∈ m.entries.entries, (AddRemoveSet.index e.2.2).Current
  | _, _, @datum _ _, x => Datum.Indexed x
  | _, _, @map _ _ _ _ values, m =>
    (DataMap.index m).Current ∧ ∀ e ∈ m.entries.entries, values.Indexed e.2.2

theorem Form.Sound.indexed {σ : Type} {inst : Replicated σ} {form : Form σ inst} {s : σ}
    (h : form.Sound s) : form.Indexed s := by
  induction form with
  | counter | register | flag | vote => trivial
  | growSet V => exact GrowSet.Sound.current h
  | set V => exact AddRemoveSet.Sound.current h
  | counterMap K | registerMap K V => exact UniformMap.Sound.current h
  | multiMap K V =>
      exact ⟨UniformMap.Sound.current h, fun e he =>
        AddRemoveSet.Sound.current (h.contents.values e he)⟩
  | datum T => exact Datum.Sound.indexed h
  | map K values ih => exact ⟨DataMap.Sound.current h, fun e he => ih (h.contents.values e he)⟩

/-- Whatever the history of data, every collection in them has a current index, at every depth. -/
theorem indexed_of_made {σ : Type} {inst : Replicated σ} {form : Form σ inst} {s : σ}
    (hs : form.Made s) : form.Indexed s :=
  hs.sound.indexed

/-- A delta brings a map of sets and a counter and then fails.  In going through the map, a value is
removed from the map of sets; after that the counter is removed. -/
theorem indexed_after_failed_delta :
    let k : Payload := ⟨"", [1]⟩
    let a : Payload := ⟨"", [2]⟩
    let b : Payload := ⟨"", [3]⟩
    let form : Form (DataMap Payload (Datum Payload)) inferInstance := .map _ (.datum _)
    let sets : MultiMap Payload Payload :=
      { entries := ⟨[(a.toKey, a, { elements := ⟨[(a.toKey, a), (b.toKey, b)]⟩ })]⟩ }
    let o := apply (.map ⟨false, [], [⟨k, .multiMap ⟨false, [], [⟨a, ⟨false, [], [a, b]⟩⟩]⟩⟩,
      ⟨b, .counter ⟨1⟩⟩, ⟨a, .flag ⟨true⟩⟩], []⟩) ({} : DataMap Payload (Datum Payload))
    let m := o.state.mapValuesM (M := Id) fun k' x =>
      if k' = k then .multiMap (sets.deleteValue a b) else x
    (o.failure = some (.notCreatable .flag) ∧ (m.delete b).keys = [k] ∧
        (m.delete b).removed.values = [b]) ∧
      form.Made (m.delete b) ∧ form.Indexed (m.delete b) := by
  intro k a b form sets o m
  have ho : o.state = { entries :=
      ⟨[(k.toKey, k, .multiMap sets), (b.toKey, b, .counter { value := 1 })]⟩ } := by rfl
  have hfails : o.failure = some (.notCreatable .flag) := by rfl
  have hleft : (m.delete b).keys = [k] ∧ (m.delete b).removed.values = [b] := by
    simp only [m, ho]
    exact ⟨rfl, rfl⟩
  have hfailed : form.Made o.state := .change (.start ⟨none, rfl⟩) (.apply _ _)
  have hm : form.Made m := by
    refine hfailed.mapValues fun e he => ?_
    rw [ho] at he
    rcases List.mem_cons.mp he with rfl | he
    · exact .single (.operate (.operate (.multiMap (.deleteValue a b) sets)))
    · obtain rfl := List.mem_singleton.mp he
      exact .refl
  have ht : form.Made (m.delete b) := hm.change (.operate (.delete b _))
  exact ⟨⟨hfails, hleft⟩, ht, indexed_of_made ht⟩

end Replicated

end DeltaReplica
