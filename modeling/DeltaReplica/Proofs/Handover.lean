import DeltaReplica.Proofs.Soundness

/-!
# Handing changes over

What a harvest leaves behind, and what a receiver has after it has merged what was
harvested, key by key.  A harvest that hands nothing over and one that hands over an
empty delta are the same to the receiver, so each kind of data has one delta, whatever
the flag of the harvest.
-/

namespace DeltaReplica

/-! ## Receiving -/

namespace Tracked

variable {σ δ : Type} [Tracked σ δ]

/-- The outcome of merging what a harvest has handed over, if anything. -/
def receive (d : Option δ) (s : σ) : Outcome σ :=
  match d with
  | some d => merge d s
  | none => .done s

/-- The same for data that the receiver may lack, and then creates. -/
def receive? (d : Option δ) (s : Option σ) : Outcome (Option σ) :=
  match d with
  | some d => .meet (create d) (merge d) s
  | none => .done s

@[simp]
theorem receive?_none (s : Option σ) : receive? none s = .done s := rfl

theorem receive?_some_some (d : Option δ) (s : σ) : receive? d (some s) = (receive d s).map some := by
  cases d <;> rfl

theorem ifAny_meet (d : Option δ) (s : Option σ) :
    Outcome.ifAny (fun d => .meet (create d) (merge d)) d s = receive? d s := by
  cases d <;> rfl

/-- Collections are created empty, so a missing one is changed like an empty one, provided that
anything is handed over. -/
theorem receive?_eq_of_merge {o : Option δ} {d : δ} {fresh : σ} (old : Option σ)
    (hreceive : ∀ w : σ, receive o w = merge d w) (hcreate : create d = .ok fresh)
    (hsome : old = none → o = some d)
    (hfailure : (merge d (old.getD fresh)).failure = none) :
    (receive? o old).failure = none ∧
      (receive? o old).state = some (merge d (old.getD fresh)).state := by
  cases old with
  | some w =>
      rw [receive?_some_some, hreceive]
      exact ⟨hfailure, rfl⟩
  | none =>
      have heq : receive? o none = .done (some (merge d fresh).state) := by
        rw [hsome rfl]
        exact Outcome.meet_eq_done hcreate hfailure
      rw [heq]
      exact ⟨rfl, rfl⟩

end Tracked

namespace Replicated

variable {σ : Type} [Replicated σ]

/-- The outcome of merging what a harvest has handed over, if anything. -/
def receive (d : Option Delta) (s : σ) : Outcome σ :=
  match d with
  | some d => apply d s
  | none => .done s

/-- The same for data that the receiver may lack, and then creates. -/
def receive? (d : Option Delta) (s : Option σ) : Outcome (Option σ) :=
  match d with
  | some d => .meet (createFor d) (apply d) s
  | none => .done s

@[simp]
theorem receive?_none (s : Option σ) : receive? none s = .done s := rfl

theorem receive?_some_some (d : Option Delta) (s : σ) :
    receive? d (some s) = (receive d s).map some := by
  cases d <;> rfl

/-- The same for data that stays missing if the receiver lacks it. -/
def touch? (d : Option Delta) (s : Option σ) : Outcome (Option σ) :=
  match s with
  | some s => (receive d s).map some
  | none => .done none

@[simp]
theorem touch?_none (s : Option σ) : touch? none s = .done s := by
  cases s <;> rfl

theorem ifAny_meet (d : Option Delta) (s : Option σ) :
    Outcome.ifAny (fun d => .meet (createFor d) (apply d)) d s = receive? d s := by
  cases d <;> rfl

theorem ifAny_touch (d : Option Delta) (s : Option σ) :
    Outcome.ifAny (fun d => .touch (apply d)) d s = touch? d s := by
  cases d <;> cases s <;> rfl

end Replicated

namespace Contents

variable {K V : Type} [Element K]

/-- What removals leave a receiver of its own. -/
def left (cleared : Bool) (removed : FinMap Key K) (w : Entries K V) (ck : Key) : Option V :=
  if cleared || removed.contains ck then none else w.valueAt? ck

omit [Element K] in
@[simp]
theorem left_empty (cleared : Bool) (removed : FinMap Key K) (ck : Key) :
    left cleared removed (∅ : Entries K V) ck = none := by
  simp [left]

omit [Element K] in
@[simp]
theorem left_cleared (removed : FinMap Key K) (w : Entries K V) (ck : Key) :
    left true removed w ck = none := rfl

/-- Staged removals leave a receiver what they do not name. -/
theorem find?_dropAll_staged [LawfulElement K] {α : Type} (remark : Remark) (cleared : Bool)
    {removed : FinMap Key K} (h : removed.IndexedBy Element.key) (w : FinMap Key α) :
    (dropAll K remark (removed.values.map Element.encode) (clearIf cleared w)).failure = none ∧
      ∀ ck, (dropAll K remark (removed.values.map Element.encode)
          (clearIf cleared w)).state.find? ck =
        if cleared || removed.contains ck then none else w.find? ck := by
  obtain ⟨hdrop, hfind⟩ := dropAll_encode (K := K) remark removed.values (clearIf cleared w)
  refine ⟨hdrop, fun ck => ?_⟩
  rw [hfind, find?_clearIf]
  by_cases hr : removed.contains ck = true
  · simp [hr, h.contains_iff_mem_values.mp hr]
  · have hmem := mt h.contains_iff_mem_values.mpr hr
    cases cleared <;> simp [hr, hmem]

theorem dropAll_left [LawfulElement K] (remark : Remark) (cleared : Bool) {removed : FinMap Key K}
    (h : removed.IndexedBy Element.key) (w : Entries K V) :
    (dropAll K remark (removed.values.map Element.encode) (clearIf cleared w)).failure = none ∧
      ∀ ck, (dropAll K remark (removed.values.map Element.encode)
        (clearIf cleared w)).state.valueAt? ck = left cleared removed w ck := by
  obtain ⟨hdrop, hfind⟩ := find?_dropAll_staged remark cleared h w
  refine ⟨hdrop, fun ck => ?_⟩
  rw [FinMap.valueAt?, hfind, left, FinMap.valueAt?]
  split <;> rfl

end Contents

/-! ## Elements on the wire -/

/-- One of the payloads is read as an element that stands under the key. -/
def Names (E : Type) [Element E] (ps : List Payload) (ck : Key) : Prop :=
  ∃ p ∈ ps, ∃ e : E, p.read Element.decode = .ok e ∧ Element.key e = ck

section Names

variable {E : Type} [Element E] [LawfulElement E] {ck : Key}

theorem names_encode_iff {es : List E} :
    Names E (es.map Element.encode) ck ↔ ck ∈ es.map Element.key := by
  simp only [Names, List.mem_map]
  constructor
  · rintro ⟨p, ⟨e, he, rfl⟩, e', hread, rfl⟩
    rw [Payload.read_encode, Except.ok.injEq] at hread
    exact ⟨e, he, congrArg Element.key hread⟩
  · rintro ⟨e, he, rfl⟩
    exact ⟨_, ⟨e, he, rfl⟩, e, Payload.read_encode e, rfl⟩

theorem names_stagedPayloads_iff {staged : KeySet} {elements : FinMap Key E}
    (h : elements.IndexedBy Element.key) :
    Names E (stagedPayloads staged elements) ck ↔
      staged.contains ck = true ∧ elements.contains ck = true := by
  rw [stagedPayloads, names_encode_iff, h.map_filterMap_find?, List.mem_filter,
    FinMap.contains_iff_mem_keys (m := staged)]

end Names

/-! ## Counters -/

theorem Counter.snd_harvest (initial : Bool) (c : Counter) :
    (Tracked.harvest initial c).2 = ⟨c.value, 0⟩ := by
  obtain ⟨value, pending⟩ := c
  simp only [Tracked.harvest, harvest]
  split
  · next h =>
      simp only [Bool.and_eq_true, decide_eq_true_eq] at h
      rw [h.1]
  · rfl

/-! ## Sets -/

namespace AddRemoveSet

variable {E : Type} [Element E]

/-- The staged changes, also if there are none. -/
def delta (s : AddRemoveSet E) : SetDelta where
  cleared := s.cleared
  removed := s.removed.values.map Element.encode
  added := stagedPayloads s.added s.elements

/-- Whether an element enters a receiver with the staged changes. -/
def stages (s : AddRemoveSet E) (ck : Key) : Bool := s.added.contains ck && s.elements.contains ck

/-- Whether the staged changes leave a receiver an element that it has. -/
def leaves (s w : AddRemoveSet E) (ck : Key) : Bool :=
  !s.cleared && !s.removed.contains ck && w.elements.contains ck

/-- A harvest hands over the staged changes, and leaves a set on which nothing was staged as it is
unless it is an initial one. -/
theorem harvest_cases (initial : Bool) (s : AddRemoveSet E) :
    (initial = true ∨ s.cleared = true ∨ s.added ≠ ∅ ∨ s.removed ≠ ∅) ∧
        Tracked.harvest initial s = (some s.delta, { elements := s.elements }) ∨
      s = { elements := s.elements } ∧ initial = false ∧ Tracked.harvest initial s = (none, s) := by
  simp only [Tracked.harvest, harvest]
  split
  · next h =>
      simp only [Bool.and_eq_true, Bool.not_eq_true', FinMap.isEmpty_iff] at h
      obtain ⟨⟨⟨hcleared, hadded⟩, hremoved⟩, hinitial⟩ := h
      obtain ⟨elements, added, removed, cleared⟩ := s
      subst hcleared hadded hremoved
      exact Or.inr ⟨rfl, hinitial, rfl⟩
  · next h =>
      refine Or.inl ⟨Classical.byContradiction fun hnone => h ?_, rfl⟩
      simp only [not_or, Bool.not_eq_true, ne_eq, Classical.not_not] at hnone
      obtain ⟨hinitial, hcleared, hadded, hremoved⟩ := hnone
      rw [hinitial, hcleared, hadded, hremoved]
      rfl

theorem snd_harvest (initial : Bool) (s : AddRemoveSet E) :
    (Tracked.harvest initial s).2 = { elements := s.elements } := by
  rcases harvest_cases initial s with ⟨-, h⟩ | ⟨hs, -, h⟩
  · rw [h]
  · rw [h, ← hs]

theorem receive_harvest (initial : Bool) (s w : AddRemoveSet E) :
    Tracked.receive (Tracked.harvest initial s).1 w = w.merge s.delta := by
  rcases harvest_cases initial s with ⟨-, h⟩ | ⟨hs, -, h⟩
  · rw [h]
    rfl
  · rw [h, hs]
    rfl

theorem eq_delta_of_harvest {initial : Bool} {s : AddRemoveSet E} {d : SetDelta}
    (hd : (Tracked.harvest initial s).1 = some d) : d = s.delta := by
  rcases harvest_cases initial s with ⟨-, h⟩ | ⟨-, -, h⟩ <;> rw [h] at hd
  · exact (Option.some.inj hd).symm
  · cases hd

theorem each_mergeElement_encode [LawfulElement E] (es : List E) (m : FinMap Key E) :
    (Outcome.each mergeElement (es.map Element.encode) m).failure = none ∧
      ∀ ck, (Outcome.each mergeElement (es.map Element.encode) m).state.contains ck = true ↔
        ck ∈ es.map Element.key ∨ m.contains ck = true := by
  have hstep (e : E) (m : FinMap Key E) :
      (mergeElement (Element.encode e) m).failure = none ∧
        (mergeElement (Element.encode e) m).state = m.insert (Element.key e) e := by
    simp [mergeElement]
  rw [Outcome.each_map]
  have hall := Outcome.each_of_forall_failure es (fun e _ m => (hstep e m).1) m
  refine ⟨hall.1, fun ck => ?_⟩
  have hfold : es.foldl (fun m e => (mergeElement (Element.encode e) m).state) m =
      (es.map fun e => (Element.key e, e)).foldl (fun m b => m.insert b.1 b.2) m := by
    rw [List.foldl_map]
    congr 1
    funext m e
    exact (hstep e m).2
  rw [hall.2, hfold, FinMap.contains_foldl_insert, List.map_map]
  rfl

theorem mem_staged_keys_iff {s : AddRemoveSet E} (hs : s.Sound) {ck : Key} :
    ck ∈ (s.added.keys.filterMap s.elements.find?).map Element.key ↔ s.stages ck = true := by
  rw [stages, Bool.and_eq_true, FinMap.contains_iff_mem_keys, hs.elements.map_filterMap_find?,
    List.mem_filter]

/-- A receiver has what is staged as added, and of its own what the staged changes leave. -/
theorem merge_delta [LawfulElement E] {s : AddRemoveSet E} (hs : s.Sound) (w : AddRemoveSet E) :
    (w.merge s.delta).failure = none ∧
      ∀ ck, (w.merge s.delta).state.elements.contains ck = (s.stages ck || s.leaves w ck) := by
  obtain ⟨hdrop, hfind⟩ := Contents.dropAll_encode (K := E) .removesMissingElement
    s.removed.values (Contents.clearIf s.cleared w.elements)
  have hadd := each_mergeElement_encode (s.added.keys.filterMap s.elements.find?)
    (Contents.dropAll E .removesMissingElement (s.removed.values.map Element.encode)
      (Contents.clearIf s.cleared w.elements)).state
  have hleaves (ck : Key) : (Contents.dropAll E .removesMissingElement
      (s.removed.values.map Element.encode)
      (Contents.clearIf s.cleared w.elements)).state.contains ck = s.leaves w ck := by
    rw [FinMap.contains_eq_isSome, hfind, Contents.find?_clearIf, leaves,
      FinMap.contains_eq_isSome w.elements]
    by_cases hr : s.removed.contains ck = true
    · simp [hr, hs.removed.contains_iff_mem_values.mp hr]
    · have hmem := mt hs.removed.contains_iff_mem_values.mpr hr
      cases hc : s.cleared <;> simp [hr, hmem]
  constructor
  · exact Outcome.failure_andThen_eq_none_iff.mpr ⟨hdrop, hadd.1⟩
  · intro ck
    simp only [merge, mergeElements, Outcome.state_map, delta]
    rw [Outcome.state_andThen hdrop, Bool.eq_iff_iff, stagedPayloads, hadd.2, hleaves,
      mem_staged_keys_iff hs, Bool.or_eq_true]

end AddRemoveSet

/-! ## Maps with values of one tracked type -/

namespace UniformMap

variable {K V δ : Type} [Element K] [Tracked V δ]

/-- The changes to the values. -/
def changes (m : UniformMap K V) : FinMap Key (K × Option δ) :=
  m.entries.map fun _ e => (e.1, (Tracked.harvest false e.2).1)

/-- The values without their changes. -/
def kept (m : UniformMap K V) : Entries K V :=
  m.entries.map fun _ e => (e.1, (Tracked.harvest false e.2).2)

/-- The staged changes, also if there are none. -/
def delta (m : UniformMap K V) : UniformMapDelta δ where
  cleared := m.cleared
  removed := m.removed.values.map Element.encode
  updated := Contents.entryDeltas m.changes

/-- What the staged removals leave a receiver of its own. -/
def left (m w : UniformMap K V) (ck : Key) : Option V :=
  Contents.left m.cleared m.removed w.entries ck

/-- What a receiver has under a key afterwards. -/
def arrives (m w : UniformMap K V) (ck : Key) : Option V :=
  match m.entries.valueAt? ck with
  | some v => (Tracked.receive? (Tracked.harvest false v).1 (m.left w ck)).state
  | none => m.left w ck

theorem updates_eq (m : UniformMap K V) :
    updates (m.entries.map fun _ (k, v) => (k, Tracked.harvest false v)) =
      Contents.entryDeltas m.changes := by
  simp [updates, Contents.entryDeltas, changes, FinMap.values, List.filterMap_map,
    Function.comp_def]

/-- A harvest hands over the staged changes, unless there are none and it is not an initial one. -/
theorem harvest_cases (initial : Bool) (m : UniformMap K V) :
    (initial = true ∨ m.delta ≠ ⟨false, [], []⟩) ∧
        Tracked.harvest initial m = (some m.delta, { entries := m.kept }) ∨
      m.delta = ⟨false, [], []⟩ ∧ initial = false ∧
        Tracked.harvest initial m = (none, { entries := m.kept }) := by
  simp only [Tracked.harvest, harvest, updates_eq, FinMap.map_map]
  split
  · next h =>
      simp only [Bool.and_eq_true, Bool.not_eq_true', FinMap.isEmpty_iff, List.isEmpty_iff] at h
      obtain ⟨⟨⟨hcleared, hremoved⟩, hupdated⟩, hinitial⟩ := h
      rw [delta, hcleared, hremoved, hupdated]
      exact Or.inr ⟨rfl, hinitial, rfl⟩
  · next h =>
      refine Or.inl ⟨Classical.byContradiction fun hnone => h ?_, rfl⟩
      simp only [not_or, Bool.not_eq_true, ne_eq, Classical.not_not, delta, UniformMapDelta.mk.injEq,
        List.map_eq_nil_iff, FinMap.values_eq_nil_iff] at hnone
      obtain ⟨hinitial, hcleared, hremoved, hupdated⟩ := hnone
      rw [hinitial, hcleared, hremoved, hupdated]
      rfl

theorem snd_harvest (initial : Bool) (m : UniformMap K V) :
    (Tracked.harvest initial m).2 = { entries := m.kept } := by
  rcases harvest_cases initial m with ⟨-, h⟩ | ⟨-, -, h⟩ <;> rw [h]

theorem receive_harvest (initial : Bool) (m w : UniformMap K V) :
    Tracked.receive (Tracked.harvest initial m).1 w = w.merge m.delta := by
  rcases harvest_cases initial m with ⟨-, h⟩ | ⟨hdelta, -, h⟩
  · rw [h]
    rfl
  · rw [h, hdelta]
    rfl

theorem eq_delta_of_harvest {initial : Bool} {m : UniformMap K V} {d : UniformMapDelta δ}
    (hd : (Tracked.harvest initial m).1 = some d) : d = m.delta := by
  rcases harvest_cases initial m with ⟨-, h⟩ | ⟨-, -, h⟩ <;> rw [h] at hd
  · exact (Option.some.inj hd).symm
  · cases hd

theorem mem_updated_delta {m : UniformMap K V} {e : EntryDelta δ} (he : e ∈ m.delta.updated) :
    ∃ (ck : Key) (k : K) (v : V) (d : δ), (ck, k, v) ∈ m.entries.entries ∧
      (Tracked.harvest false v).1 = some d ∧ e = ⟨Element.encode k, d⟩ := by
  obtain ⟨ck, k, d, hmem, rfl⟩ := Contents.mem_entryDeltas he
  obtain ⟨⟨ck', k', v⟩, hv, heq⟩ := List.mem_map.mp hmem
  simp only [Prod.mk.injEq] at heq
  obtain ⟨rfl, rfl, hd⟩ := heq
  exact ⟨ck', k', v, d, hv, hd, rfl⟩

omit [Element K] in
theorem valueAt?_changes (m : UniformMap K V) (ck : Key) :
    m.changes.valueAt? ck = (m.entries.valueAt? ck).map fun v => (Tracked.harvest false v).1 := by
  simp [FinMap.valueAt?, changes, FinMap.find?_map, Function.comp_def]

omit [Element K] in
theorem valueAt?_kept (m : UniformMap K V) (ck : Key) :
    m.kept.valueAt? ck = (m.entries.valueAt? ck).map fun v => (Tracked.harvest false v).2 := by
  simp [FinMap.valueAt?, kept, FinMap.find?_map, Function.comp_def]

theorem indexedBy_changes {P : V → Prop} {m : UniformMap K V} (hm : m.Sound P) :
    m.changes.IndexedBy Contents.entryKey :=
  (hm.contents.map (Q := fun _ => True) (f := fun _ v => (Tracked.harvest false v).1)
    fun _ _ _ => trivial).indexed

omit [Element K] in
theorem ifAny_changes (m : UniformMap K V) (ck : Key) (old : Option V) :
    Outcome.ifAny (fun d => .meet (Tracked.create d) (Tracked.merge d)) (m.changes.valueAt? ck).join
        old =
      match m.entries.valueAt? ck with
      | some v => Tracked.receive? (Tracked.harvest false v).1 old
      | none => .done old := by
  rw [Tracked.ifAny_meet, valueAt?_changes]
  cases m.entries.valueAt? ck <;> rfl

/-- Under each key a receiver has what it was left, changed by what the value hands over. -/
theorem merge_delta [LawfulElement K] {P : V → Prop} {m : UniformMap K V} (hm : m.Sound P)
    (w : UniformMap K V)
    (hok : ∀ ck v, m.entries.valueAt? ck = some v →
      (Tracked.receive? (Tracked.harvest false v).1 (m.left w ck)).failure = none) :
    (w.merge m.delta).failure = none ∧
      ∀ ck, (w.merge m.delta).state.entries.valueAt? ck = m.arrives w ck := by
  obtain ⟨hdrop, hleft⟩ :=
    Contents.dropAll_left .removesMissingKey m.cleared hm.removed w.entries
  have hact (ck : Key) :
      (Outcome.ifAny (fun d => .meet (Tracked.create d) (Tracked.merge d))
        (m.changes.valueAt? ck).join (m.left w ck)).failure = none := by
    rw [ifAny_changes]
    cases hv : m.entries.valueAt? ck with
    | none => rfl
    | some v => exact hok ck v hv
  obtain ⟨hupdate, hvalue⟩ := Contents.each_entryDeltas (indexedBy_changes hm)
    (fun d => .meet (Tracked.create d) (Tracked.merge d)) changeOf
    (Contents.addOrAlter fun _ => [])
    (fun k d => Contents.actsAt_addOrAlter (c := changeOf ⟨Element.encode k, d⟩) _ rfl)
    (Contents.dropAll K .removesMissingKey (m.removed.values.map Element.encode)
      (Contents.clearIf m.cleared w.entries)).state
    (fun ck => by
      rw [hleft]
      exact hact ck)
  simp only [merge, mergeEntries, Outcome.state_map, Outcome.failure_map]
  refine ⟨Outcome.failure_andThen_eq_none_iff.mpr ⟨hdrop, hupdate⟩, fun ck => ?_⟩
  rw [delta, Outcome.state_andThen hdrop, hvalue, hleft, ifAny_changes, arrives, left]
  cases m.entries.valueAt? ck <;> rfl

end UniformMap

/-! ## Maps to replicated data -/

namespace DataMap

variable {K V : Type} [Element K] [Replicated V]

/-- The changes to the values whose keys are staged as added, or to the others. -/
def changes (isAdded : Bool) (m : DataMap K V) : FinMap Key (K × Option Delta) :=
  m.entries.map fun ck e =>
    (e.1, if m.added.contains ck = isAdded then (Replicated.harvest isAdded e.2).1 else none)

/-- The values without their changes. -/
def kept (m : DataMap K V) : Entries K V :=
  m.entries.map fun ck e => (e.1, (Replicated.harvest (m.added.contains ck) e.2).2)

/-- The staged changes, also if there are none. -/
def delta (m : DataMap K V) : MapDelta Delta where
  cleared := m.cleared
  removed := m.removed.values.map Element.encode
  added := Contents.entryDeltas (m.changes true)
  updated := Contents.entryDeltas (m.changes false)

/-- What the staged removals leave a receiver of its own. -/
def left (m w : DataMap K V) (ck : Key) : Option V :=
  Contents.left m.cleared m.removed w.entries ck

/-- What becomes of the value under a key of a receiver when another one is handed over. -/
def handOver (m : DataMap K V) (ck : Key) (v : V) (old : Option V) : Outcome (Option V) :=
  if m.added.contains ck then Replicated.receive? (Replicated.harvest true v).1 old
  else Replicated.touch? (Replicated.harvest false v).1 old

/-- What a receiver has under a key afterwards. -/
def arrives (m w : DataMap K V) (ck : Key) : Option V :=
  match m.entries.valueAt? ck with
  | some v => (m.handOver ck v (m.left w ck)).state
  | none => m.left w ck

theorem entryDeltas_eq (isAdded : Bool) (m : DataMap K V) :
    entryDeltas m.added isAdded (harvestEntries m.added m.entries) =
      Contents.entryDeltas (m.changes isAdded) := by
  simp only [entryDeltas, Contents.entryDeltas, changes, harvestEntries, FinMap.values,
    FinMap.entries_map, List.filterMap_map]
  congr 1
  funext e
  obtain ⟨ck, k, v⟩ := e
  by_cases h : m.added.contains ck = isAdded
  · simp [h]
  · simp [h]

/-- A harvest hands over the staged changes, unless there are none and it is not an initial one. -/
theorem harvest_cases (initial : Bool) (m : DataMap K V) :
    (initial = true ∨ m.delta ≠ ⟨false, [], [], []⟩) ∧
        Tracked.harvest initial m = (some m.delta, { entries := m.kept, supply := m.supply }) ∨
      m.delta = ⟨false, [], [], []⟩ ∧ initial = false ∧
        Tracked.harvest initial m = (none, { entries := m.kept, supply := m.supply }) := by
  simp only [Tracked.harvest, harvest, harvestWith, entryDeltas_eq]
  simp only [harvestEntries, FinMap.map_map]
  split
  · next h =>
      simp only [Bool.and_eq_true, Bool.not_eq_true', FinMap.isEmpty_iff, List.isEmpty_iff] at h
      obtain ⟨⟨⟨⟨hcleared, hremoved⟩, hadded⟩, hupdated⟩, hinitial⟩ := h
      rw [delta, hcleared, hremoved, hadded, hupdated]
      exact Or.inr ⟨rfl, hinitial, rfl⟩
  · next h =>
      refine Or.inl ⟨Classical.byContradiction fun hnone => h ?_, rfl⟩
      simp only [not_or, Bool.not_eq_true, ne_eq, Classical.not_not, delta, MapDelta.mk.injEq,
        List.map_eq_nil_iff, FinMap.values_eq_nil_iff] at hnone
      obtain ⟨hinitial, hcleared, hremoved, hadded, hupdated⟩ := hnone
      rw [hinitial, hcleared, hremoved, hadded, hupdated]
      rfl

theorem snd_harvest (initial : Bool) (m : DataMap K V) :
    (Tracked.harvest initial m).2 = { entries := m.kept, supply := m.supply } := by
  rcases harvest_cases initial m with ⟨-, h⟩ | ⟨-, -, h⟩ <;> rw [h]

theorem receive_harvest (initial : Bool) (m w : DataMap K V) :
    Tracked.receive (Tracked.harvest initial m).1 w = w.merge m.delta := by
  rcases harvest_cases initial m with ⟨-, h⟩ | ⟨hdelta, -, h⟩
  · rw [h]
    rfl
  · rw [h, hdelta]
    rfl

theorem eq_delta_of_harvest {initial : Bool} {m : DataMap K V} {d : MapDelta Delta}
    (hd : (Tracked.harvest initial m).1 = some d) : d = m.delta := by
  rcases harvest_cases initial m with ⟨-, h⟩ | ⟨-, -, h⟩ <;> rw [h] at hd
  · exact (Option.some.inj hd).symm
  · cases hd

/-- An initial harvest always hands over a delta. -/
theorem harvest_true (m : DataMap K V) : (Tracked.harvest true m).1 = some m.delta := by
  rcases harvest_cases true m with ⟨-, h⟩ | ⟨-, hinitial, -⟩
  · rw [h]
  · cases hinitial

theorem harvest_eq_delta_of_added {m : DataMap K V} (initial : Bool) (hadded : m.delta.added ≠ []) :
    (Tracked.harvest initial m).1 = some m.delta := by
  rcases harvest_cases initial m with ⟨-, h⟩ | ⟨hdelta, -, -⟩
  · rw [h]
  · rw [hdelta] at hadded
    exact absurd rfl hadded

omit [Element K] in
theorem exists_of_mem_changes {isAdded : Bool} {m : DataMap K V} {ck : Key} {k : K} {d : Delta}
    (h : (ck, k, some d) ∈ (m.changes isAdded).entries) :
    m.added.contains ck = isAdded ∧
      ∃ v, (ck, k, v) ∈ m.entries.entries ∧ (Replicated.harvest isAdded v).1 = some d := by
  obtain ⟨⟨ck', k', v⟩, hv, heq⟩ := List.mem_map.mp h
  simp only [Prod.mk.injEq] at heq
  obtain ⟨rfl, rfl, hd⟩ := heq
  split at hd
  · next hstaged => exact ⟨hstaged, v, hv, hd⟩
  · cases hd

theorem mem_entryDeltas_changes {isAdded : Bool} {m : DataMap K V} {e : EntryDelta Delta}
    (he : e ∈ Contents.entryDeltas (m.changes isAdded)) :
    ∃ (ck : Key) (k : K) (v : V) (d : Delta), (ck, k, v) ∈ m.entries.entries ∧
      (Replicated.harvest isAdded v).1 = some d ∧ e = ⟨Element.encode k, d⟩ := by
  obtain ⟨ck, k, d, hmem, rfl⟩ := Contents.mem_entryDeltas he
  obtain ⟨-, v, hv, hd⟩ := exists_of_mem_changes hmem
  exact ⟨ck, k, v, d, hv, hd, rfl⟩

omit [Element K] in
theorem valueAt?_changes (isAdded : Bool) (m : DataMap K V) (ck : Key) :
    (m.changes isAdded).valueAt? ck = (m.entries.valueAt? ck).map fun v =>
      if m.added.contains ck = isAdded then (Replicated.harvest isAdded v).1 else none := by
  simp [FinMap.valueAt?, changes, FinMap.find?_map, Function.comp_def]

omit [Element K] in
theorem valueAt?_kept (m : DataMap K V) (ck : Key) :
    m.kept.valueAt? ck =
      (m.entries.valueAt? ck).map fun v => (Replicated.harvest (m.added.contains ck) v).2 := by
  simp [FinMap.valueAt?, kept, FinMap.find?_map, Function.comp_def]

theorem indexedBy_changes {P : V → Prop} {m : DataMap K V} (hm : m.Sound P) (isAdded : Bool) :
    (m.changes isAdded).IndexedBy Contents.entryKey :=
  (hm.contents.map (Q := fun _ => True)
    (f := fun ck v =>
      if m.added.contains ck = isAdded then (Replicated.harvest isAdded v).1 else none)
    fun _ _ _ => trivial).indexed

omit [Element K] in
theorem ifAny_changes_true (m : DataMap K V) (ck : Key) (old : Option V) :
    Outcome.ifAny (fun d => .meet (Replicated.createFor d) (Replicated.apply d))
        ((m.changes true).valueAt? ck).join old =
      match m.entries.valueAt? ck with
      | some v => if m.added.contains ck then m.handOver ck v old else .done old
      | none => .done old := by
  rw [Replicated.ifAny_meet, valueAt?_changes]
  cases m.entries.valueAt? ck with
  | none => rfl
  | some v => by_cases ha : m.added.contains ck = true <;> simp [ha, handOver]

omit [Element K] in
theorem ifAny_changes_false (m : DataMap K V) (ck : Key) (old : Option V) :
    Outcome.ifAny (fun d => .touch (Replicated.apply d))
        ((m.changes false).valueAt? ck).join old =
      match m.entries.valueAt? ck with
      | some v => if m.added.contains ck then .done old else m.handOver ck v old
      | none => .done old := by
  rw [Replicated.ifAny_touch, valueAt?_changes]
  cases m.entries.valueAt? ck with
  | none => simp
  | some v => by_cases ha : m.added.contains ck = true <;> simp [ha, handOver]

/-- The entries of a delta for new values, and then those for the others, each find what the
receiver was left. -/
theorem each_changes [LawfulElement K] {P : V → Prop} {m : DataMap K V} (hm : m.Sound P)
    (start : Entries K V)
    (hok : ∀ ck v, m.entries.valueAt? ck = some v →
      (m.handOver ck v (start.valueAt? ck)).failure = none) :
    let o := (Outcome.each (Contents.addOrAlter fun ck => [⟨.addsPresentKey, ck⟩])
        (m.delta.added.map changeOf) start).andThen
      (Outcome.each (Contents.alterPresent .updatesMissingKey) (m.delta.updated.map changeOf))
    o.failure = none ∧ ∀ ck, o.state.valueAt? ck =
      match m.entries.valueAt? ck with
      | some v => (m.handOver ck v (start.valueAt? ck)).state
      | none => start.valueAt? ck := by
  intro o
  obtain ⟨hfirst, hvalue⟩ := Contents.each_entryDeltas (indexedBy_changes hm true)
    (fun d => .meet (Replicated.createFor d) (Replicated.apply d)) changeOf
    (Contents.addOrAlter fun ck => [⟨.addsPresentKey, ck⟩])
    (fun k d => Contents.actsAt_addOrAlter (c := changeOf ⟨Element.encode k, d⟩) _ rfl)
    start
    (fun ck => by
      rw [ifAny_changes_true]
      cases hv : m.entries.valueAt? ck with
      | none => rfl
      | some v =>
          simp only
          split
          · exact hok ck v hv
          · rfl)
  -- a value that is handed over in the second pass finds what there was before the first one
  obtain ⟨hsecond, hvalue'⟩ := Contents.each_entryDeltas (indexedBy_changes hm false)
    (fun d => .touch (Replicated.apply d)) changeOf
    (Contents.alterPresent .updatesMissingKey)
    (fun k d => Contents.actsAt_alterPresent (c := changeOf ⟨Element.encode k, d⟩) _ rfl)
    (Outcome.each (Contents.addOrAlter fun ck => [⟨.addsPresentKey, ck⟩])
      (m.delta.added.map changeOf) start).state
    (fun ck => by
      rw [ifAny_changes_false, delta, hvalue, ifAny_changes_true]
      cases hv : m.entries.valueAt? ck with
      | none => rfl
      | some v =>
          by_cases ha : m.added.contains ck = true
          · simp [ha]
          · simpa [ha] using hok ck v hv)
  refine ⟨Outcome.failure_andThen_eq_none_iff.mpr ⟨hfirst, hsecond⟩, fun ck => ?_⟩
  refine (congrArg (FinMap.valueAt? · ck) (Outcome.state_andThen hfirst)).trans ?_
  refine (hvalue' ck).trans ?_
  rw [ifAny_changes_false, delta, hvalue, ifAny_changes_true]
  cases m.entries.valueAt? ck with
  | none => rfl
  | some v => by_cases ha : m.added.contains ck = true <;> simp [ha]

/-- Under each key a receiver has what it was left, changed by what the value hands over. -/
theorem merge_delta [LawfulElement K] {P : V → Prop} {m : DataMap K V} (hm : m.Sound P)
    (w : DataMap K V)
    (hok : ∀ ck v, m.entries.valueAt? ck = some v →
      (m.handOver ck v (m.left w ck)).failure = none) :
    (w.merge m.delta).failure = none ∧
      ∀ ck, (w.merge m.delta).state.entries.valueAt? ck = m.arrives w ck := by
  obtain ⟨hdrop, hleft⟩ :=
    Contents.dropAll_left .removesMissingKey m.cleared hm.removed w.entries
  have hrest := each_changes hm
    (Contents.dropAll K .removesMissingKey (m.removed.values.map Element.encode)
      (Contents.clearIf m.cleared w.entries)).state
    (fun ck v hv => by
      rw [hleft]
      exact hok ck v hv)
  simp only [merge, mergeWith, mergeEntries, Outcome.andThen_assoc, Outcome.state_map,
    Outcome.failure_map]
  refine ⟨Outcome.failure_andThen_eq_none_iff.mpr ⟨hdrop, hrest.1⟩, fun ck => ?_⟩
  refine (congrArg (FinMap.valueAt? · ck) (Outcome.state_andThen hdrop)).trans ?_
  refine (hrest.2 ck).trans ?_
  rw [hleft]
  rfl

end DataMap

/-! ## Data of any kind -/

namespace Datum

variable {T σ δ : Type} [Element T] [Tracked σ δ] [DeltaForm δ]

/-- Tracked data take part among the data of any kind as they do alone. -/
structure Embeds (mk : σ → Datum T) : Prop where
  harvest : ∀ initial s, harvest initial (mk s) = (Replicated.harvest initial s).map id mk
  apply : ∀ d s, apply d (mk s) = (Replicated.apply d s).map mk
  createFor : ∀ e : δ, createFor (DeltaForm.wrap e) = (Tracked.create e).map mk

theorem Embeds.receive? {mk : σ → Datum T} (h : Embeds mk) (initial : Bool) (s : σ)
    (old : Option σ) :
    Replicated.receive? (Replicated.harvest initial (mk s)).1 (old.map mk) =
      (Tracked.receive? (Tracked.harvest initial s).1 old).map (Option.map mk) := by
  have happly (e : δ) (s : σ) :
      Replicated.apply (DeltaForm.wrap e) (mk s) = (Tracked.merge e s).map mk := by
    rw [← Tracked.apply_wrap]
    exact h.apply _ s
  have hharvest : (Replicated.harvest initial (mk s)).1 =
      (Tracked.harvest initial s).1.map DeltaForm.wrap :=
    congrArg Prod.fst (h.harvest initial s)
  rw [hharvest]
  cases (Tracked.harvest initial s).1 with
  | none => rfl
  | some e =>
      simp only [Option.map_some, Replicated.receive?, Tracked.receive?]
      cases old with
      | some s => simp [Outcome.meet, happly, Outcome.map]
      | none =>
          have hcreate : Replicated.createFor (DeltaForm.wrap e) = (Tracked.create e).map mk :=
            h.createFor e
          simp only [Outcome.meet, Option.map_none, hcreate]
          cases Tracked.create (σ := σ) e with
          | error e => rfl
          | ok s =>
              simp only [Except.map, Outcome.withResult_ok, happly, Outcome.failure_map]
              cases (Tracked.merge e s).failure <;> rfl

theorem Embeds.snd_harvest {mk : σ → Datum T} (h : Embeds mk) (initial : Bool) (s : σ) :
    (Datum.harvest initial (mk s)).2 = mk (Tracked.harvest initial s).2 :=
  congrArg Prod.snd (h.harvest initial s)

theorem Embeds.exists_of_harvest {mk : σ → Datum T} (h : Embeds mk) {initial : Bool} {s : σ}
    {d : Delta} (hd : (Datum.harvest initial (mk s)).1 = some d) :
    ∃ e : δ, (Tracked.harvest initial s).1 = some e ∧ d = DeltaForm.wrap e := by
  rw [h.harvest] at hd
  obtain ⟨e, he, rfl⟩ := Option.map_eq_some_iff.mp hd
  exact ⟨e, he, rfl⟩

theorem Embeds.apply_of_harvest {mk : σ → Datum T} (h : Embeds mk) {initial : Bool} {s : σ} {e : Delta}
    (he : (Datum.harvest initial (mk s)).1 = some e) (s₀ : σ) :
    Datum.apply e (mk s₀) = (Tracked.receive (Tracked.harvest initial s).1 s₀).map mk := by
  obtain ⟨d, hd, rfl⟩ := h.exists_of_harvest he
  rw [h.apply, hd]
  simp [Replicated.apply, Tracked.receive]

theorem embeds_counter : Embeds (T := T) .counter :=
  ⟨fun _ _ => by rw [harvest], fun _ _ => by rw [apply], fun _ => rfl⟩

theorem embeds_register : Embeds (T := T) .register :=
  ⟨fun _ _ => by rw [harvest], fun _ _ => by rw [apply], fun _ => rfl⟩

theorem embeds_set : Embeds (T := T) .set :=
  ⟨fun _ _ => by rw [harvest], fun _ _ => by rw [apply], fun _ => rfl⟩

theorem embeds_vote : Embeds (T := T) .vote :=
  ⟨fun _ _ => by rw [harvest], fun _ _ => by rw [apply], fun _ => rfl⟩

theorem embeds_map : Embeds (T := T) .map :=
  ⟨fun _ _ => harvest_map _ _, fun _ _ => apply_map _ _, fun _ => rfl⟩

theorem embeds_counterMap : Embeds (T := T) .counterMap :=
  ⟨fun _ _ => by rw [harvest], fun _ _ => by rw [apply], fun _ => rfl⟩

theorem embeds_registerMap : Embeds (T := T) .registerMap :=
  ⟨fun _ _ => by rw [harvest], fun _ _ => by rw [apply], fun _ => rfl⟩

theorem embeds_multiMap : Embeds (T := T) .multiMap :=
  ⟨fun _ _ => by rw [harvest], fun _ _ => by rw [apply], fun _ => rfl⟩

/-- Data of any kind are tracked data of some type, which determines the kind. -/
@[elab_as_elim]
theorem tracked_cases {motive : Datum T → Prop} (x : Datum T)
    (tracked : ∀ {σ δ : Type} [Tracked σ δ] [DeltaForm δ] {mk : σ → Datum T}, Embeds mk →
      (∀ s, (mk s).kind = DeltaForm.kind δ) → ∀ s, motive (mk s)) : motive x := by
  cases x with
  | counter c => exact tracked embeds_counter (fun _ => rfl) c
  | register r => exact tracked embeds_register (fun _ => rfl) r
  | set s => exact tracked embeds_set (fun _ => rfl) s
  | vote v => exact tracked embeds_vote (fun _ => rfl) v
  | map m => exact tracked embeds_map (fun _ => rfl) m
  | counterMap m => exact tracked embeds_counterMap (fun _ => rfl) m
  | registerMap m => exact tracked embeds_registerMap (fun _ => rfl) m
  | multiMap m => exact tracked embeds_multiMap (fun _ => rfl) m

theorem kind_of_harvest {initial : Bool} {x : Datum T} {e : Delta}
    (he : (harvest initial x).1 = some e) : e.kind = x.kind := by
  revert he
  refine tracked_cases x fun h hkind s he => ?_
  obtain ⟨d, -, rfl⟩ := h.exists_of_harvest he
  rw [hkind]
  exact DeltaForm.kind_wrap d

theorem apply_of_kind_ne {e : Delta} {x : Datum T} (he : e.kind ≠ x.kind) :
    apply e x = .fail x (.wrongKind x.kind e.kind) := by
  revert he
  refine tracked_cases x fun {σ δ _ _ mk} h hkind s he => ?_
  have hnone : DeltaForm.unwrap? (δ := δ) e = none := DeltaForm.unwrap?_of_kind_ne (hkind s ▸ he)
  rw [h.apply, hkind]
  simp [Replicated.apply, hnone, Outcome.map, Outcome.fail]

end Datum

end DeltaReplica
