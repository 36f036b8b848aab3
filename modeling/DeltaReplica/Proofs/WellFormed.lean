import DeltaReplica.Proofs.Acceptance
import DeltaReplica.Proofs.Staging

/-!
# Well-formed deltas

A delta that is harvested from data with a history names every key and every element once
(`Replicated.harvested_delta_wellFormed`).  In the delta of a set no element enters and
leaves, and in that of a map no key is both new and changed, at every depth.  So the order
of the lists does not matter to a receiver.

What the lists name is taken from contents in which everything stands under its own key,
so each list names a key once.  The two lists of a set are apart because its staging is,
and those of a map because an entry is in the one or in the other depending on whether its
key is staged.
-/

namespace DeltaReplica

variable {E K V T δ : Type}

/-! ## Lists on the wire -/

/-- The payloads are written by elements with different keys. -/
def Distinct (E : Type) [Element E] (ps : List Payload) : Prop :=
  ∃ es : List E, ps = es.map Element.encode ∧ (es.map Element.key).Nodup

theorem Distinct.encode [Element E] {es : List E} (h : (es.map Element.key).Nodup) :
    Distinct E (es.map Element.encode) :=
  ⟨es, rfl, h⟩

/-! ## Deltas -/

/-- The delta of a set names every element once, be it in the one list or in the other. -/
structure SetDelta.WellFormed (E : Type) [Element E] (d : SetDelta) : Prop where
  distinct : Distinct E (d.removed ++ d.added)

/-- The delta of a map to values of one tracked type names every key once in each list. -/
structure UniformMapDelta.WellFormed (K : Type) [Element K] (P : δ → Prop)
    (d : UniformMapDelta δ) : Prop where
  removed : Distinct K d.removed
  updated : Distinct K (d.updated.map EntryDelta.key)
  values : ∀ e ∈ d.updated, P e.delta

/-- The delta of a map names every key once in each list, and no key is both new and changed. -/
structure MapDelta.WellFormed (K : Type) [Element K] (P : δ → Prop) (d : MapDelta δ) : Prop where
  removed : Distinct K d.removed
  entries : Distinct K ((d.added ++ d.updated).map EntryDelta.key)
  values : ∀ e ∈ d.added ++ d.updated, P e.delta

/-- Deltas of data of any kind that are well-formed at every depth. -/
inductive Delta.WellFormed (T : Type) [Element T] : Delta → Prop
  | counter (d : CounterDelta) : WellFormed T (.counter d)
  | register (d : RegisterDelta) : WellFormed T (.register d)
  | set {d : SetDelta} (h : d.WellFormed T) : WellFormed T (.set d)
  | vote (d : VoteDelta) : WellFormed T (.vote d)
  | map {d : MapDelta Delta} (h : d.WellFormed T fun _ => True)
      (hvalues : ∀ e ∈ d.added ++ d.updated, WellFormed T e.delta) : WellFormed T (.map d)
  | counterMap {d : UniformMapDelta CounterDelta} (h : d.WellFormed T fun _ => True) :
      WellFormed T (.counterMap d)
  | registerMap {d : UniformMapDelta RegisterDelta} (h : d.WellFormed T fun _ => True) :
      WellFormed T (.registerMap d)
  | multiMap {d : UniformMapDelta SetDelta} (h : d.WellFormed T (SetDelta.WellFormed T)) :
      WellFormed T (.multiMap d)

theorem Delta.wellFormed_map [Element T] {d : MapDelta Delta}
    (h : d.WellFormed T (Delta.WellFormed T)) : Delta.WellFormed T (.map d) :=
  .map ⟨h.removed, h.entries, fun _ _ => trivial⟩ h.values

/-- Deltas for data of a type that are well-formed at every depth. -/
def Replicated.Form.WellFormed :
    {σ : Type} → {inst : Replicated σ} → Form σ inst → Delta → Prop
  | _, _, counter, d => ∃ e, d = .counter e
  | _, _, register _, d => ∃ e, d = .register e
  | _, _, flag, d => ∃ e, d = .flag e
  | _, _, vote, d => ∃ e, d = .vote e
  | _, _, growSet V, d => ∃ e, d = .growSet e ∧ Distinct V e.added
  | _, _, set V, d => ∃ e, d = .set e ∧ SetDelta.WellFormed V e
  | _, _, counterMap K, d =>
    ∃ e, d = .counterMap e ∧ UniformMapDelta.WellFormed K (fun _ => True) e
  | _, _, registerMap K _, d =>
    ∃ e, d = .registerMap e ∧ UniformMapDelta.WellFormed K (fun _ => True) e
  | _, _, multiMap K V, d =>
    ∃ e, d = .multiMap e ∧ UniformMapDelta.WellFormed K (SetDelta.WellFormed V) e
  | _, _, datum T, d => Delta.WellFormed T d
  | _, _, map K values, d => ∃ e, d = .map e ∧ MapDelta.WellFormed K values.WellFormed e

/-! ## Sets -/

section Sets

variable [Element E]

theorem distinct_values {m : FinMap Key E} (h : m.IndexedBy Element.key) :
    Distinct E (m.values.map Element.encode) :=
  .encode h.nodup_map_values

theorem distinct_stagedPayloads {staged : KeySet} (hstaged : staged.Ordered)
    {elements : FinMap Key E} (h : elements.IndexedBy Element.key) :
    Distinct E (stagedPayloads staged elements) := by
  refine .encode ?_
  rw [h.map_filterMap_find?]
  exact hstaged.nodup_keys.filter _

theorem GrowSet.distinct_of_harvest {s : GrowSet E} (hs : s.Sound) {initial : Bool}
    {d : GrowSetDelta} (hd : (Tracked.harvest initial s).1 = some d) : Distinct E d.added := by
  rw [added_of_harvest hd]
  exact distinct_stagedPayloads hs.added hs.elements

theorem AddRemoveSet.wellFormed_of_harvest {s : AddRemoveSet E} (hs : s.Sound)
    (hapart : s.StagedApart) {initial : Bool} {d : SetDelta}
    (hd : (Tracked.harvest initial s).1 = some d) : d.WellFormed E := by
  obtain rfl := eq_delta_of_harvest hd
  have hdistinct : Distinct E
      ((s.removed.values ++ s.added.keys.filterMap s.elements.find?).map Element.encode) := by
    refine .encode ?_
    rw [List.map_append, hs.removed.map_values, hs.elements.map_filterMap_find?,
      List.nodup_append]
    refine ⟨hs.removed.ordered.nodup_keys, hs.added.nodup_keys.filter _, ?_⟩
    rintro ck hr _ ha rfl
    have hadded := FinMap.contains_iff_mem_keys.mpr (List.mem_filter.mp ha).1
    have hremoved := FinMap.contains_iff_mem_keys.mpr hr
    rw [hapart ck hadded] at hremoved
    cases hremoved
  exact ⟨by rwa [List.map_append] at hdistinct⟩

end Sets

/-! ## Maps -/

section Maps

variable [Element K]

/-- Entries under different keys name different keys. -/
theorem Contents.distinct_of_nodup {l : List (Key × K × δ)}
    (hkey : ∀ i ∈ l, Element.key i.2.1 = i.1) (hl : (l.map Prod.fst).Nodup) :
    Distinct K ((l.map fun i => (⟨Element.encode i.2.1, i.2.2⟩ : EntryDelta δ)).map
      EntryDelta.key) := by
  have hkeys : (l.map fun i => i.2.1).map Element.key = l.map Prod.fst := by
    rw [List.map_map]
    exact List.map_congr_left hkey
  have hdistinct : Distinct K ((l.map fun i => i.2.1).map Element.encode) := .encode (hkeys ▸ hl)
  rwa [List.map_map] at hdistinct ⊢

theorem Contents.key_of_mem_keyedDeltas {h : FinMap Key (K × Option δ)}
    (hindexed : h.IndexedBy entryKey) : ∀ i ∈ keyedDeltas h, Element.key i.2.1 = i.1 :=
  fun _ hi => hindexed.key_eq _ (mem_keyedDeltas_iff.mp hi)

theorem UniformMap.wellFormed_of_harvest [Tracked V δ] {P : V → Prop} {Q : δ → Prop}
    {m : UniformMap K V} (hm : m.Sound P)
    (hvalues : ∀ e ∈ m.entries.entries, ∀ d, (Tracked.harvest false e.2.2).1 = some d → Q d)
    {initial : Bool} {d : UniformMapDelta δ} (hd : (Tracked.harvest initial m).1 = some d) :
    d.WellFormed K Q := by
  obtain rfl := eq_delta_of_harvest hd
  have hindexed := indexedBy_changes hm
  refine ⟨distinct_values hm.removed, ?_, fun e he => ?_⟩
  · rw [delta, Contents.entryDeltas_eq_map]
    exact Contents.distinct_of_nodup (Contents.key_of_mem_keyedDeltas hindexed)
      (Contents.nodup_keyedDeltas hindexed.ordered)
  · obtain ⟨ck, k, v, d, hv, hd, rfl⟩ := mem_updated_delta he
    exact hvalues _ hv d hd

theorem MultiMap.wellFormed_of_harvest [Element V] {m : MultiMap K V}
    (hm : UniformMap.Sound AddRemoveSet.Sound m)
    (hapart : Contents.Every (fun _ => AddRemoveSet.StagedApart) m.entries) {initial : Bool}
    {d : UniformMapDelta SetDelta} (hd : (Tracked.harvest initial m).1 = some d) :
    d.WellFormed K (SetDelta.WellFormed V) := by
  refine UniformMap.wellFormed_of_harvest hm (fun e he d hd => ?_) hd
  exact AddRemoveSet.wellFormed_of_harvest (hm.contents.values e he) (hapart e he) hd

namespace DataMap

variable [Replicated V]

theorem distinct_entries_delta {P : V → Prop} {m : DataMap K V} (hm : m.Sound P) :
    Distinct K ((m.delta.added ++ m.delta.updated).map EntryDelta.key) := by
  have hindexed (isAdded : Bool) := indexedBy_changes hm isAdded
  rw [delta, Contents.entryDeltas_eq_map, Contents.entryDeltas_eq_map, ← List.map_append]
  refine Contents.distinct_of_nodup (fun i hi => ?_) ?_
  · rcases List.mem_append.mp hi with hi | hi
    · exact Contents.key_of_mem_keyedDeltas (hindexed true) i hi
    · exact Contents.key_of_mem_keyedDeltas (hindexed false) i hi
  · rw [List.map_append, List.nodup_append]
    refine ⟨Contents.nodup_keyedDeltas (hindexed true).ordered,
      Contents.nodup_keyedDeltas (hindexed false).ordered, ?_⟩
    -- a key is staged as added or it is not
    rintro ck hadded _ hupdated rfl
    obtain ⟨i, hi, rfl⟩ := List.mem_map.mp hadded
    obtain ⟨i', hi', heq⟩ := List.mem_map.mp hupdated
    have hstaged := (exists_of_mem_changes (Contents.mem_keyedDeltas_iff.mp hi)).1
    rw [← heq, (exists_of_mem_changes (Contents.mem_keyedDeltas_iff.mp hi')).1] at hstaged
    cases hstaged

theorem wellFormed_of_harvest {P : V → Prop} {Q : Delta → Prop} {m : DataMap K V} (hm : m.Sound P)
    (hvalues : ∀ e ∈ m.entries.entries, ∀ initial d,
      (Replicated.harvest initial e.2.2).1 = some d → Q d)
    {initial : Bool} {d : MapDelta Delta} (hd : (Tracked.harvest initial m).1 = some d) :
    d.WellFormed K Q := by
  obtain rfl := eq_delta_of_harvest hd
  have hentry (isAdded : Bool) :
      ∀ e ∈ Contents.entryDeltas (m.changes isAdded), Q e.delta := by
    intro e he
    obtain ⟨ck, k, v, d, hv, hd, rfl⟩ := mem_entryDeltas_changes he
    exact hvalues _ hv isAdded d hd
  exact ⟨distinct_values hm.removed, distinct_entries_delta hm,
    List.forall_mem_append.mpr ⟨hentry true, hentry false⟩⟩

end DataMap

end Maps

/-! ## Data of any kind -/

namespace Datum

variable [Element T]

theorem wellFormed_of_harvest {x : Datum T} (hsound : x.Sound) (hapart : x.StagedApart)
    {initial : Bool} {d : Delta} (hd : (harvest initial x).1 = some d) : d.WellFormed T := by
  induction x using Datum.induction generalizing initial d with
  | leaf x hx =>
      cases x with
      | counter c =>
          obtain ⟨e, -, rfl⟩ := embeds_counter.exists_of_harvest hd
          exact .counter e
      | register r =>
          obtain ⟨e, -, rfl⟩ := embeds_register.exists_of_harvest hd
          exact .register e
      | set s =>
          obtain ⟨e, he, rfl⟩ := embeds_set.exists_of_harvest hd
          cases hsound with
          | set hs =>
              cases hapart with
              | set hapart =>
                  exact .set (AddRemoveSet.wellFormed_of_harvest hs hapart he)
      | vote v =>
          obtain ⟨e, -, rfl⟩ := embeds_vote.exists_of_harvest hd
          exact .vote e
      | map m => exact absurd rfl hx
      | counterMap m =>
          obtain ⟨e, he, rfl⟩ := embeds_counterMap.exists_of_harvest hd
          cases hsound with
          | counterMap hm =>
              exact .counterMap (UniformMap.wellFormed_of_harvest hm (fun _ _ _ _ => trivial) he)
      | registerMap m =>
          obtain ⟨e, he, rfl⟩ := embeds_registerMap.exists_of_harvest hd
          cases hsound with
          | registerMap hm =>
              exact .registerMap (UniformMap.wellFormed_of_harvest hm (fun _ _ _ _ => trivial) he)
      | multiMap m =>
          obtain ⟨e, he, rfl⟩ := embeds_multiMap.exists_of_harvest hd
          cases hsound with
          | multiMap hm =>
              cases hapart with
              | multiMap hapart =>
                  exact .multiMap (MultiMap.wellFormed_of_harvest hm hapart he)
  | map m ih =>
      have hm := sound_map_iff.mp hsound
      have hvalues := stagedApart_map_iff.mp hapart
      obtain ⟨e, he, rfl⟩ := embeds_map.exists_of_harvest hd
      refine Delta.wellFormed_map (DataMap.wellFormed_of_harvest hm (fun e he _ _ hd => ?_) he)
      exact ih e he (hm.contents.values e he) (hvalues e he) hd

end Datum

/-! ## All types -/

namespace Replicated

theorem Form.wellFormed_of_harvest {σ : Type} {inst : Replicated σ} (form : Form σ inst) {s : σ}
    (hsound : form.Sound s) (hapart : form.StagedApart s) {initial : Bool} {d : Delta}
    (hd : (harvest initial s).1 = some d) : form.WellFormed d := by
  induction form generalizing initial d with
  | counter | register | flag | vote =>
      obtain ⟨e, -, rfl⟩ := Option.map_eq_some_iff.mp hd
      exact ⟨e, rfl⟩
  | growSet V =>
      obtain ⟨e, he, rfl⟩ := Option.map_eq_some_iff.mp hd
      exact ⟨e, rfl, GrowSet.distinct_of_harvest hsound he⟩
  | set V =>
      obtain ⟨e, he, rfl⟩ := Option.map_eq_some_iff.mp hd
      exact ⟨e, rfl, AddRemoveSet.wellFormed_of_harvest hsound hapart he⟩
  | counterMap K | registerMap K V =>
      obtain ⟨e, he, rfl⟩ := Option.map_eq_some_iff.mp hd
      exact ⟨e, rfl, UniformMap.wellFormed_of_harvest hsound (fun _ _ _ _ => trivial) he⟩
  | multiMap K V =>
      obtain ⟨e, he, rfl⟩ := Option.map_eq_some_iff.mp hd
      exact ⟨e, rfl, MultiMap.wellFormed_of_harvest hsound hapart he⟩
  | datum T => exact Datum.wellFormed_of_harvest hsound hapart hd
  | map K values ih =>
      obtain ⟨e, he, rfl⟩ := Option.map_eq_some_iff.mp hd
      refine ⟨e, rfl, DataMap.wellFormed_of_harvest hsound (fun e he _ _ hd => ?_) he⟩
      exact ih (hsound.contents.values e he) (hapart e he) hd

/-- Whatever is harvested from data with a history is well-formed at every depth, also after deltas
that failed part-way. -/
theorem harvested_delta_wellFormed {σ : Type} {inst : Replicated σ} {form : Form σ inst} {s : σ}
    (hs : form.Made s) {initial : Bool} {d : Delta} (hd : (harvest initial s).1 = some d) :
    form.WellFormed d :=
  form.wellFormed_of_harvest hs.sound hs.stagedApart hd

/-- In a set in a map an element is deleted, comes back with a delta that fails afterwards, and is
deleted again. -/
theorem harvested_delta_wellFormed_of_returned_element :
    let a : Payload := ⟨"", [1]⟩
    let b : Payload := ⟨"", [2]⟩
    let sets : Form (AddRemoveSet Payload) inferInstance := .set Payload
    let v : AddRemoveSet Payload := { elements := ⟨[(a.toKey, a), (b.toKey, b)]⟩ }
    let w : AddRemoveSet Payload := { v with removed := ⟨[(a.toKey, a)]⟩ }
    let m : DataMap Payload (AddRemoveSet Payload) :=
      (apply (.map ⟨false, [], [⟨a, .set ⟨false, [], [a, b]⟩⟩], []⟩) {}).state
    let o := apply (.map ⟨false, [], [], [⟨a, .set ⟨false, [], [a]⟩⟩, ⟨a, .counter ⟨1⟩⟩]⟩)
      (m.adjust a fun _ => v.delete a)
    let t := o.state.adjust a fun _ => w.delete a
    let d : Delta := .map ⟨false, [], [], [⟨a, .set ⟨false, [a], []⟩⟩]⟩
    (m.get? a = some v ∧ o.failure.isSome = true ∧ o.state.get? a = some w) ∧
      (Form.map Payload sets).Made t ∧ (harvest false t).1 = some d ∧
        (Form.map Payload sets).WellFormed d := by
  intro a b sets v w m o t d
  have hm : m = { entries := ⟨[(a.toKey, a, v)]⟩ } := by rfl
  have ho : o.state = { entries := ⟨[(a.toKey, a, w)]⟩ } := by
    simp only [o, hm]
    rfl
  have hfails : o.failure.isSome = true := by
    simp only [o, hm]
    rfl
  have hget : m.get? a = some v := by rw [hm]; rfl
  have hreturned : o.state.get? a = some w := by rw [ho]; rfl
  have hmade : (Form.map Payload sets).Made m := .change (.start ⟨none, rfl⟩) (.apply _ _)
  have hdeleted : (Form.map Payload sets).Made (m.adjust a fun _ => v.delete a) :=
    hmade.change (.operate (.adjust a hget (.operate ⟨.delete a, rfl⟩)))
  have hfailed : (Form.map Payload sets).Made o.state := hdeleted.change (.apply _ _)
  have ht : (Form.map Payload sets).Made t :=
    hfailed.change (.operate (.adjust a hreturned (.operate ⟨.delete a, rfl⟩)))
  have hd : (harvest false t).1 = some d := by
    simp only [t, ho]
    rfl
  exact ⟨⟨hget, hfails, hreturned⟩, ht, hd, harvested_delta_wellFormed ht hd⟩

end Replicated

end DeltaReplica
