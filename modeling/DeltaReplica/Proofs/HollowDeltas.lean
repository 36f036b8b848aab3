import DeltaReplica.Proofs.Acceptance
import DeltaReplica.Proofs.Staging

/-!
# Deltas that carry nothing

A harvest for changes is to hand over a delta only if there is a change in it, and in the delta of a
map each updated value is to come with a change of its own.  All types see to it but one: a set
decides by what is staged, while it ships of the staged elements only those that it still has.  So
if peers have taken away all that was added here, and nothing else is staged, then the set is hollow
and its delta is empty.

No harvest ships an empty delta, at any depth, just if no set that is harvested for its changes is
hollow (`Replicated.harvest_carries_iff`).  In a map that is the case of the values that peers know;
those that are new are shipped in full, and a new value may well be empty.

Flags and growing sets also ship what they have and not what is staged.  But these never lose what
they have, which is an invariant of all data with a history (`Replicated.Form.Backed`).
-/

namespace DeltaReplica

variable {K V E T δ : Type}

/-! ## Deltas with a change -/

/-- The delta of a set carries a change. -/
def SetDelta.Carries (d : SetDelta) : Prop := d.cleared = true ∨ d.removed ≠ [] ∨ d.added ≠ []

@[inherit_doc SetDelta.Carries]
def UniformMapDelta.Carries (d : UniformMapDelta δ) : Prop :=
  d.cleared = true ∨ d.removed ≠ [] ∨ d.updated ≠ []

/-- The delta of a map carries a change. -/
def MapDelta.Carries (d : MapDelta δ) : Prop :=
  d.cleared = true ∨ d.removed ≠ [] ∨ d.added ≠ [] ∨ d.updated ≠ []

theorem UniformMapDelta.carries_iff_ne {d : UniformMapDelta δ} :
    d.Carries ↔ d ≠ ⟨false, [], []⟩ := by
  obtain ⟨cleared, removed, updated⟩ := d
  simp only [Carries, ne_eq, mk.injEq]
  grind

theorem MapDelta.carries_iff_ne {d : MapDelta δ} : d.Carries ↔ d ≠ ⟨false, [], [], []⟩ := by
  obtain ⟨cleared, removed, added, updated⟩ := d
  simp only [Carries, ne_eq, mk.injEq]
  grind

/-- A delta carries a change. -/
def Delta.Carries : Delta → Prop
  | .counter d => d.change ≠ 0
  | .register d => d.value ≠ none
  | .flag d => d.value = true
  | .growSet d => d.added ≠ []
  | .set d => d.Carries
  | .vote _ => True
  | .map d => d.Carries
  | .counterMap d => d.Carries
  | .registerMap d => d.Carries
  | .multiMap d => d.Carries

/-- Each updated value of a map comes with a change of its own, at any depth. -/
inductive Delta.UpdatesCarry : Delta → Prop
  | counter (d : CounterDelta) : UpdatesCarry (.counter d)
  | register (d : RegisterDelta) : UpdatesCarry (.register d)
  | flag (d : FlagDelta) : UpdatesCarry (.flag d)
  | growSet (d : GrowSetDelta) : UpdatesCarry (.growSet d)
  | set (d : SetDelta) : UpdatesCarry (.set d)
  | vote (d : VoteDelta) : UpdatesCarry (.vote d)
  | map {d : MapDelta Delta} (hadded : ∀ e ∈ d.added, UpdatesCarry e.delta)
      (hcarry : ∀ e ∈ d.updated, e.delta.Carries)
      (hupdated : ∀ e ∈ d.updated, UpdatesCarry e.delta) : UpdatesCarry (.map d)
  | counterMap {d : UniformMapDelta CounterDelta}
      (h : ∀ e ∈ d.updated, (Delta.counter e.delta).Carries) : UpdatesCarry (.counterMap d)
  | registerMap {d : UniformMapDelta RegisterDelta}
      (h : ∀ e ∈ d.updated, (Delta.register e.delta).Carries) : UpdatesCarry (.registerMap d)
  | multiMap {d : UniformMapDelta SetDelta}
      (h : ∀ e ∈ d.updated, (Delta.set e.delta).Carries) : UpdatesCarry (.multiMap d)

/-- What a harvest is to hand over: a change, unless the harvest is an initial one, and in maps a
change of each updated value. -/
structure Delta.Substantial (initial : Bool) (d : Delta) : Prop where
  carries : initial = true ∨ d.Carries
  updates : d.UpdatesCarry

theorem Delta.substantial_false_iff {d : Delta} :
    d.Substantial false ↔ d.Carries ∧ d.UpdatesCarry :=
  ⟨fun h => ⟨h.carries.resolve_left Bool.false_ne_true, h.updates⟩, fun h => ⟨Or.inr h.1, h.2⟩⟩

/-! ## Plain values -/

theorem Counter.substantial {initial : Bool} {c : Counter} {d : CounterDelta}
    (h : (Tracked.harvest initial c).1 = some d) : (Delta.counter d).Substantial initial := by
  refine ⟨?_, .counter d⟩
  simp only [Tracked.harvest, harvest] at h
  split at h
  · cases h
  · next hpending =>
      obtain rfl := Option.some.inj h
      by_cases hzero : c.pending = 0
      · exact Or.inl (by simpa [hzero] using hpending)
      · exact Or.inr hzero

theorem Register.substantial [Element V] {initial : Bool} {r : Register V} {d : RegisterDelta}
    (h : (Tracked.harvest initial r).1 = some d) : (Delta.register d).Substantial initial := by
  refine ⟨Or.inr ?_, .register d⟩
  rw [Delta.Carries, value_of_harvest h]
  exact Option.some_ne_none _

theorem Vote.substantial {initial : Bool} (d : VoteDelta) : (Delta.vote d).Substantial initial :=
  ⟨Or.inr trivial, .vote d⟩

namespace Flag

/-- A flag whose setting has still to be handed over is set. -/
def Backed (f : Flag) : Prop := f.pending = true → f.value = true

theorem keeps_backed : Tracked.Keeps Backed where
  harvest _ _ _ := fun h => nomatch h
  merge d f h := fun hpending => by simp [Tracked.merge, merge, h hpending]
  create _ _ h := by
    cases h
    exact fun h => nomatch h

theorem Backed.enable {f : Flag} (h : f.Backed) : f.enable.Backed := by
  unfold Flag.enable
  split
  · exact h
  · exact fun _ => rfl

theorem Backed.substantial {f : Flag} (hf : f.Backed) {initial : Bool} {d : FlagDelta}
    (h : (Tracked.harvest initial f).1 = some d) : (Delta.flag d).Substantial initial := by
  refine ⟨?_, .flag d⟩
  simp only [Tracked.harvest, harvest] at h
  split at h
  · next hdecided =>
      obtain rfl := Option.some.inj h
      rcases Bool.or_eq_true_iff.mp hdecided with hpending | hinitial
      · exact Or.inr (hf hpending)
      · exact Or.inl hinitial
  · cases h

end Flag

/-! ## Sets -/

/-- Of the staged elements some are shipped just if the set still has some of them. -/
theorem stagedPayloads_eq_nil_iff [Element E] {staged : KeySet} {elements : FinMap Key E} :
    stagedPayloads staged elements = [] ↔
      ∀ ck, staged.contains ck = true → elements.contains ck = false := by
  simp only [stagedPayloads, List.map_eq_nil_iff, List.filterMap_eq_nil_iff,
    ← FinMap.contains_iff_mem_keys, ← FinMap.find?_eq_none_iff]

namespace GrowSet

/-- Whatever is staged is in the set. -/
def Backed (s : GrowSet E) : Prop :=
  ∀ ck, s.added.contains ck = true → s.elements.contains ck = true

theorem backed_empty : Backed ({} : GrowSet E) :=
  fun _ h => nomatch h

variable [Element E] {s : GrowSet E}

theorem Backed.add (h : s.Backed) (e : E) : (s.add e).Backed := by
  rcases add_cases e s with ⟨-, hadd⟩ | hadd
  · rwa [hadd]
  · rw [hadd]
    intro ck hck
    rw [FinMap.contains_insert, Bool.or_eq_true] at hck ⊢
    exact hck.imp_right (h ck)

theorem keeps_backed : Tracked.Keeps (Backed (E := E)) where
  harvest initial s h := by
    rcases harvest_cases initial s with ⟨-, hharvest⟩ | ⟨-, -, hharvest⟩ <;> rw [hharvest]
    · exact fun _ h => nomatch h
    · exact h
  merge d _ h := fun ck hck => contains_merge (h ck hck) d
  create _ _ h := by
    cases h
    exact backed_empty

theorem Backed.substantial (hs : s.Backed) {initial : Bool} {d : GrowSetDelta}
    (h : (Tracked.harvest initial s).1 = some d) : (Delta.growSet d).Substantial initial := by
  refine ⟨?_, .growSet d⟩
  rcases harvest_cases initial s with ⟨hsome, -⟩ | ⟨-, -, hharvest⟩
  · refine hsome.imp_right fun hadded hnone => hadded (FinMap.isEmpty_iff.mp ?_)
    rw [added_of_harvest h, stagedPayloads_eq_nil_iff] at hnone
    refine FinMap.isEmpty_iff_forall_contains.mpr fun ck => Bool.eq_false_iff.mpr fun hck => ?_
    exact absurd (hs ck hck) (Bool.eq_false_iff.mp (hnone ck hck))
  · rw [hharvest] at h
    cases h

end GrowSet

namespace AddRemoveSet

/-- Something is staged, but all of it was added here, and peers have taken it away. -/
structure Hollow (s : AddRemoveSet E) : Prop where
  cleared_eq : s.cleared = false
  removed_eq : s.removed = ∅
  added_ne : s.added ≠ ∅
  missing : ∀ ck, s.added.contains ck = true → s.elements.contains ck = false

variable [Element E] {s : AddRemoveSet E}

theorem carries_delta_iff : s.delta.Carries ↔ s.cleared = true ∨ s.removed ≠ ∅ ∨
    ∃ ck, s.added.contains ck = true ∧ s.elements.contains ck = true := by
  rw [SetDelta.Carries, delta, Ne, Ne, stagedPayloads_eq_nil_iff]
  simp [FinMap.values_eq_nil_iff]

theorem hollow_iff : s.Hollow ↔ s.added ≠ ∅ ∧ ¬s.delta.Carries := by
  rw [carries_delta_iff]
  constructor
  · rintro ⟨hcleared, hremoved, hadded, hmissing⟩
    refine ⟨hadded, ?_⟩
    rintro (hyes | hne | ⟨ck, hstaged, hck⟩)
    · exact Bool.eq_false_iff.mp hcleared hyes
    · exact hne hremoved
    · exact Bool.eq_false_iff.mp (hmissing ck hstaged) hck
  · rintro ⟨hadded, hnone⟩
    grind [Hollow]

/-- A harvest for changes hands over what carries a change, and what is staged as added in any
case. -/
theorem harvest_eq_some_iff {initial : Bool} {d : SetDelta} :
    (Tracked.harvest initial s).1 = some d ↔
      s.delta = d ∧ (initial = true ∨ s.delta.Carries ∨ s.added ≠ ∅) := by
  rw [carries_delta_iff]
  rcases harvest_cases initial s with ⟨hsome, hharvest⟩ | ⟨hs, hinitial, hharvest⟩
  · rw [hharvest, Option.some.injEq, iff_self_and]
    grind
  · rw [hharvest, hs, hinitial]
    simp

/-- The delta of a set carries a change unless the set is hollow. -/
theorem substantial_iff (initial : Bool) (s : AddRemoveSet E) :
    (∀ d, (Tracked.harvest initial s).1 = some d → (Delta.set d).Substantial initial) ↔
      (initial = true ∨ ¬s.Hollow) := by
  constructor
  · intro h
    by_cases hhollow : s.Hollow
    · obtain ⟨hadded, hnone⟩ := hollow_iff.mp hhollow
      have hsome : (Tracked.harvest initial s).1 = some s.delta :=
        harvest_eq_some_iff.mpr ⟨rfl, Or.inr (Or.inr hadded)⟩
      exact Or.inl ((h s.delta hsome).carries.resolve_right hnone)
    · exact Or.inr hhollow
  · intro h d hd
    obtain ⟨rfl, hsome⟩ := harvest_eq_some_iff.mp hd
    refine ⟨?_, .set _⟩
    rcases hsome with hinitial | hcarries | hadded
    · exact Or.inl hinitial
    · exact Or.inr hcarries
    · refine h.imp_right fun hsolid => Classical.byContradiction fun hnone => ?_
      exact hsolid (hollow_iff.mpr ⟨hadded, hnone⟩)

theorem forall_carries_iff :
    (∀ d, (Tracked.harvest false s).1 = some d → d.Carries) ↔ ¬s.Hollow := by
  have hiff := substantial_iff false s
  constructor
  · intro h
    have hsubstantial := hiff.mp fun d hd => ⟨Or.inr (h d hd), .set d⟩
    exact hsubstantial.resolve_left Bool.false_ne_true
  · intro h d hd
    exact (hiff.mpr (Or.inr h) d hd).carries.resolve_left Bool.false_ne_true

end AddRemoveSet

/-! ## Maps -/

namespace UniformMap

variable [Element K] [Tracked V δ] {m : UniformMap K V}

/-- A harvest for changes hands over what carries a change. -/
theorem harvest_eq_some_iff {initial : Bool} {d : UniformMapDelta δ} :
    (Tracked.harvest initial m).1 = some d ↔ m.delta = d ∧ (initial = true ∨ m.delta.Carries) := by
  rw [UniformMapDelta.carries_iff_ne]
  rcases harvest_cases initial m with ⟨hsome, h⟩ | ⟨hdelta, hinitial, h⟩
  · simp [h, hsome]
  · rw [h, hdelta, hinitial]
    simp

/-- A change of a value makes the map hand over a delta, which ships the change. -/
theorem harvest_of_change {e : Key × K × V} (he : e ∈ m.entries.entries) {d : δ}
    (hd : (Tracked.harvest false e.2.2).1 = some d) (initial : Bool) :
    (Tracked.harvest initial m).1 = some m.delta ∧
      ⟨Element.encode e.2.1, d⟩ ∈ m.delta.updated := by
  have hchange : (e.1, e.2.1, some d) ∈ (changes m).entries :=
    List.mem_map.mpr ⟨e, he, by simp [hd]⟩
  have hmem : (⟨Element.encode e.2.1, d⟩ : EntryDelta δ) ∈ m.delta.updated :=
    Contents.mem_entryDeltas_of_mem hchange
  have hcarries : m.delta.Carries := Or.inr (Or.inr (List.ne_nil_of_mem hmem))
  exact ⟨harvest_eq_some_iff.mpr ⟨rfl, Or.inr hcarries⟩, hmem⟩

/-- What holds of the deltas of updated values holds of what the values hand over. -/
theorem forall_updated_iff {P : δ → Prop} (initial : Bool) :
    (∀ d, (Tracked.harvest initial m).1 = some d → ∀ e ∈ d.updated, P e.delta) ↔
      ∀ e ∈ m.entries.entries, ∀ d, (Tracked.harvest false e.2.2).1 = some d → P d := by
  constructor
  · intro h e he d hd
    obtain ⟨hdelta, hmem⟩ := harvest_of_change he hd initial
    exact h m.delta hdelta _ hmem
  · intro h d hd e he
    obtain rfl := eq_delta_of_harvest hd
    obtain ⟨ck, k, v, d, hv, hd, rfl⟩ := mem_updated_delta he
    exact h _ hv d hd

end UniformMap

namespace DataMap

variable [Element K] [Replicated V] {m : DataMap K V}

/-- A harvest for changes hands over what carries a change. -/
theorem harvest_eq_some_iff {initial : Bool} {d : MapDelta Delta} :
    (Tracked.harvest initial m).1 = some d ↔ m.delta = d ∧ (initial = true ∨ m.delta.Carries) := by
  rw [MapDelta.carries_iff_ne]
  rcases harvest_cases initial m with ⟨hsome, h⟩ | ⟨hdelta, hinitial, h⟩
  · simp [h, hsome]
  · rw [h, hdelta, hinitial]
    simp

/-- What holds of the deltas of values, be they new to the peers or not, holds of what the values
hand over. -/
theorem forall_entries_iff {P : Bool → Delta → Prop} (initial : Bool) :
    (∀ d, (Tracked.harvest initial m).1 = some d →
        (∀ e ∈ d.added, P true e.delta) ∧ ∀ e ∈ d.updated, P false e.delta) ↔
      ∀ e ∈ m.entries.entries, ∀ d,
        (Replicated.harvest (m.added.contains e.1) e.2.2).1 = some d →
          P (m.added.contains e.1) d := by
  constructor
  · intro h e he d hd
    have hchange : (e.1, e.2.1, some d) ∈ (m.changes (m.added.contains e.1)).entries :=
      List.mem_map.mpr ⟨e, he, by simp [hd]⟩
    have hmem := Contents.mem_entryDeltas_of_mem hchange
    have hsome (hcarries : m.delta.Carries) : (Tracked.harvest initial m).1 = some m.delta :=
      harvest_eq_some_iff.mpr ⟨rfl, Or.inr hcarries⟩
    cases hstaged : m.added.contains e.1 with
    | true =>
        rw [hstaged] at hmem
        have hcarries : m.delta.Carries := Or.inr (Or.inr (Or.inl (List.ne_nil_of_mem hmem)))
        exact (h m.delta (hsome hcarries)).1 _ hmem
    | false =>
        rw [hstaged] at hmem
        have hcarries : m.delta.Carries := Or.inr (Or.inr (Or.inr (List.ne_nil_of_mem hmem)))
        exact (h m.delta (hsome hcarries)).2 _ hmem
  · intro h d hd
    obtain rfl := eq_delta_of_harvest hd
    have hentry (isAdded : Bool) :
        ∀ e ∈ Contents.entryDeltas (m.changes isAdded), P isAdded e.delta := by
      intro e he
      obtain ⟨ck, k, d, hmem, rfl⟩ := Contents.mem_entryDeltas he
      obtain ⟨rfl, v, hv, hd⟩ := exists_of_mem_changes hmem
      exact h _ hv d hd
    exact ⟨hentry true, hentry false⟩

end DataMap

/-- The delta of a map to counters always carries changes of the counters. -/
theorem CounterMap.substantial [Element K] {m : CounterMap K} {initial : Bool}
    {d : UniformMapDelta CounterDelta} (h : (Tracked.harvest initial m).1 = some d) :
    (Delta.counterMap d).Substantial initial := by
  have hupdated := (UniformMap.forall_updated_iff initial).mpr
    (fun e _ d hd => (Counter.substantial hd).carries.resolve_left Bool.false_ne_true) d h
  obtain ⟨rfl, hsome⟩ := UniformMap.harvest_eq_some_iff.mp h
  exact ⟨hsome, .counterMap hupdated⟩

theorem RegisterMap.substantial [Element K] [Element V] {m : RegisterMap K V} {initial : Bool}
    {d : UniformMapDelta RegisterDelta} (h : (Tracked.harvest initial m).1 = some d) :
    (Delta.registerMap d).Substantial initial := by
  have hupdated := (UniformMap.forall_updated_iff initial).mpr
    (fun e _ d hd => (Register.substantial hd).carries.resolve_left Bool.false_ne_true) d h
  obtain ⟨rfl, hsome⟩ := UniformMap.harvest_eq_some_iff.mp h
  exact ⟨hsome, .registerMap hupdated⟩

/-- The delta of a map to sets carries a change of each updated set unless one of the sets is
hollow. -/
theorem MultiMap.substantial_iff [Element K] [Element V] (initial : Bool) (m : MultiMap K V) :
    (∀ d, (Tracked.harvest initial m).1 = some d → (Delta.multiMap d).Substantial initial) ↔
      Contents.Every (fun _ s => ¬s.Hollow) m.entries := by
  have hupdated := UniformMap.forall_updated_iff (m := m) (P := SetDelta.Carries) initial
  constructor
  · intro h e he
    refine AddRemoveSet.forall_carries_iff.mp (hupdated.mp (fun d hd => ?_) e he)
    cases (h d hd).updates with
    | multiMap hcarry => exact hcarry
  · intro h d hd
    have hcarry := hupdated.mpr (fun e he => AddRemoveSet.forall_carries_iff.mpr (h e he)) d hd
    obtain ⟨rfl, hsome⟩ := UniformMap.harvest_eq_some_iff.mp hd
    exact ⟨hsome, .multiMap hcarry⟩

/-- Whatever a harvest hands over is substantial. -/
def Replicated.YieldsSubstance {σ : Type} [Replicated σ] (initial : Bool) (s : σ) : Prop :=
  ∀ d, (harvest initial s).1 = some d → d.Substantial initial

theorem Tracked.yieldsSubstance_iff {σ : Type} [Tracked σ δ] [DeltaForm δ] {initial : Bool}
    {s : σ} : Replicated.YieldsSubstance initial s ↔ ∀ d : δ, (Tracked.harvest initial s).1 = some d →
      (DeltaForm.wrap d).Substantial initial := by
  constructor
  · intro h d hd
    exact h _ (Option.map_eq_some_iff.mpr ⟨d, hd, rfl⟩)
  · intro h d hd
    obtain ⟨e, he, rfl⟩ := Option.map_eq_some_iff.mp hd
    exact h e he

/-- The delta of a map is substantial if those of its values are. -/
theorem DataMap.substantial_iff [Element K] [Replicated V] (initial : Bool) (m : DataMap K V) :
    (∀ d, (Tracked.harvest initial m).1 = some d → (Delta.map d).Substantial initial) ↔
      Contents.Every (fun ck v => Replicated.YieldsSubstance (m.added.contains ck) v)
        m.entries := by
  refine Iff.trans ?_ (forall_entries_iff (P := fun isAdded d => d.Substantial isAdded) initial)
  refine forall₂_congr fun d hd => ?_
  obtain ⟨rfl, hsome⟩ := harvest_eq_some_iff.mp hd
  constructor
  · rintro ⟨-, hupdates⟩
    cases hupdates with
    | map hadded hcarry hupdated =>
        exact ⟨fun e he => ⟨Or.inl rfl, hadded e he⟩,
          fun e he => ⟨Or.inr (hcarry e he), hupdated e he⟩⟩
  · rintro ⟨hadded, hupdated⟩
    refine ⟨hsome, .map (fun e he => (hadded e he).updates) (fun e he => ?_)
      fun e he => (hupdated e he).updates⟩
    exact (Delta.substantial_false_iff.mp (hupdated e he)).1

/-! ## Data of any kind -/

namespace Datum

/-- Data in which no set that is harvested for its changes is hollow, at any depth. -/
inductive Solid : Bool → Datum T → Prop
  | counter (initial : Bool) (c : Counter) : Solid initial (.counter c)
  | register (initial : Bool) (r : Register T) : Solid initial (.register r)
  | set {initial : Bool} {s : AddRemoveSet T} (h : initial = true ∨ ¬s.Hollow) :
      Solid initial (.set s)
  | vote (initial : Bool) (v : Vote) : Solid initial (.vote v)
  | map (initial : Bool) {m : DataMap T (Datum T)}
      (h : ∀ e ∈ m.entries.entries, Solid (m.added.contains e.1) e.2.2) : Solid initial (.map m)
  | counterMap (initial : Bool) (m : CounterMap T) : Solid initial (.counterMap m)
  | registerMap (initial : Bool) (m : RegisterMap T T) : Solid initial (.registerMap m)
  | multiMap (initial : Bool) {m : MultiMap T T}
      (h : Contents.Every (fun _ s => ¬s.Hollow) m.entries) : Solid initial (.multiMap m)

variable {initial : Bool}

theorem solid_set_iff {s : AddRemoveSet T} :
    Solid initial (.set s) ↔ initial = true ∨ ¬s.Hollow :=
  ⟨fun h => by cases h; assumption, .set⟩

theorem solid_map_iff {m : DataMap T (Datum T)} : Solid initial (.map m) ↔
    Contents.Every (fun ck x => Solid (m.added.contains ck) x) m.entries :=
  ⟨fun h => by cases h; assumption, .map initial⟩

theorem solid_multiMap_iff {m : MultiMap T T} : Solid initial (.multiMap m) ↔
    Contents.Every (fun _ s => ¬s.Hollow) m.entries :=
  ⟨fun h => by cases h; assumption, .multiMap initial⟩

variable [Element T]

theorem Embeds.yieldsSubstance_iff {σ : Type} [Tracked σ δ] [DeltaForm δ] {mk : σ → Datum T}
    (h : Embeds mk) {s : σ} : Replicated.YieldsSubstance initial (mk s) ↔
      ∀ d : δ, (Tracked.harvest initial s).1 = some d → (DeltaForm.wrap d).Substantial initial := by
  have hharvest : (Replicated.harvest initial (mk s)).1 = (Replicated.harvest initial s).1 :=
    congrArg Prod.fst (h.harvest initial s)
  rw [Replicated.YieldsSubstance, hharvest]
  exact Tracked.yieldsSubstance_iff

theorem yieldsSubstance_iff (initial : Bool) (x : Datum T) :
    Replicated.YieldsSubstance initial x ↔ x.Solid initial := by
  induction x using Datum.induction generalizing initial with
  | leaf x hx =>
      cases x with
      | counter c =>
          exact iff_of_true (embeds_counter.yieldsSubstance_iff.mpr fun _ => Counter.substantial)
            (.counter initial c)
      | register r =>
          exact iff_of_true (embeds_register.yieldsSubstance_iff.mpr fun _ => Register.substantial)
            (.register initial r)
      | set s =>
          rw [solid_set_iff]
          exact embeds_set.yieldsSubstance_iff.trans (AddRemoveSet.substantial_iff initial s)
      | vote v =>
          exact iff_of_true (embeds_vote.yieldsSubstance_iff.mpr fun d _ => Vote.substantial d)
            (.vote initial v)
      | map m => exact absurd rfl hx
      | counterMap m =>
          exact iff_of_true
            (embeds_counterMap.yieldsSubstance_iff.mpr fun _ => CounterMap.substantial)
            (.counterMap initial m)
      | registerMap m =>
          exact iff_of_true
            (embeds_registerMap.yieldsSubstance_iff.mpr fun _ => RegisterMap.substantial)
            (.registerMap initial m)
      | multiMap m =>
          rw [solid_multiMap_iff]
          exact embeds_multiMap.yieldsSubstance_iff.trans (MultiMap.substantial_iff initial m)
  | map m ih =>
      rw [solid_map_iff]
      refine embeds_map.yieldsSubstance_iff.trans ((DataMap.substantial_iff initial m).trans ?_)
      exact forall₂_congr fun e he => ih e he _

end Datum

/-! ## All types -/

namespace Replicated

/-- Data that have in their contents what they stage, at any depth, as far as deltas cannot take it
from them. -/
def Form.Backed : {σ : Type} → {inst : Replicated σ} → Form σ inst → σ → Prop
  | _, _, flag, f => Flag.Backed f
  | _, _, @growSet _ _, s => GrowSet.Backed s
  | _, _, @map _ _ _ _ values, m => Contents.Every (fun _ => values.Backed) m.entries
  | _, _, _, _ => True

theorem Form.keeps_backed {σ : Type} {inst : Replicated σ} (form : Form σ inst) :
    Keeps form.Backed := by
  induction form with
  | flag => exact Flag.keeps_backed.replicated
  | growSet V => exact GrowSet.keeps_backed.replicated
  | counter | register | vote | set | counterMap | registerMap | multiMap =>
      exact Tracked.keeps_true.replicated
  | datum T => exact keeps_true
  | map K values ih => exact (DataMap.keeps_every ih).replicated

theorem Form.Start.backed {σ : Type} {inst : Replicated σ} {form : Form σ inst} {s : σ}
    (h : form.Start s) : form.Backed s := by
  cases form with
  | counter | register | vote | set | counterMap | registerMap | multiMap | datum => trivial
  | flag => exact h ▸ fun h => nomatch h
  | growSet => exact h ▸ GrowSet.backed_empty
  | map =>
      obtain ⟨supply, rfl⟩ := h
      exact .empty

/-- What flags and growing sets stage is in their contents, in all data with a history. -/
theorem Form.invariant_backed {σ : Type} {inst : Replicated σ} (form : Form σ inst) :
    Invariant form.Start form.Operate form.Backed := by
  refine ⟨fun s h => Form.Start.backed h, ?_, form.keeps_backed⟩
  induction form with
  | counter | register | vote | set | counterMap | registerMap | multiMap | datum =>
      exact fun _ _ _ _ => trivial
  | flag =>
      rintro f _ rfl hf
      exact hf.enable
  | growSet =>
      rintro s _ ⟨e, rfl⟩ hs
      exact hs.add e
  | map K values ih =>
      have hvalues : Invariant values.Start values.Operate values.Backed :=
        ⟨fun v h => Form.Start.backed h, ih, values.keeps_backed⟩
      exact fun m m' h hm => (h.mono (fun _ => hvalues.made) fun _ _ => hvalues.change).every
        (fun _ _ hvv' => hvv') hm

/-- Data in which no set that is harvested for its changes is hollow, at any depth.  In a map these
are the sets that peers know. -/
def Form.Solid : {σ : Type} → {inst : Replicated σ} → Form σ inst → Bool → σ → Prop
  | _, _, @set _ _, initial, s => initial = true ∨ ¬AddRemoveSet.Hollow s
  | _, _, @multiMap _ _ _ _, _, m => Contents.Every (fun _ s => ¬s.Hollow) m.entries
  | _, _, @datum _ _, initial, x => Datum.Solid initial x
  | _, _, @map _ _ _ _ values, _, m =>
    Contents.Every (fun ck v => values.Solid (m.added.contains ck) v) m.entries
  | _, _, _, _, _ => True

theorem Form.yieldsSubstance_iff {σ : Type} {inst : Replicated σ} (form : Form σ inst) {s : σ}
    (hs : form.Backed s) (initial : Bool) : YieldsSubstance initial s ↔ form.Solid initial s := by
  induction form generalizing initial with
  | counter =>
      exact iff_of_true (Tracked.yieldsSubstance_iff.mpr fun _ => Counter.substantial) trivial
  | register V =>
      exact iff_of_true (Tracked.yieldsSubstance_iff.mpr fun _ => Register.substantial) trivial
  | flag =>
      exact iff_of_true (Tracked.yieldsSubstance_iff.mpr fun _ => hs.substantial) trivial
  | vote =>
      exact iff_of_true (Tracked.yieldsSubstance_iff.mpr fun d _ => Vote.substantial d) trivial
  | growSet V =>
      exact iff_of_true (Tracked.yieldsSubstance_iff.mpr fun _ => hs.substantial) trivial
  | set V => exact Tracked.yieldsSubstance_iff.trans (AddRemoveSet.substantial_iff initial s)
  | counterMap K =>
      exact iff_of_true (Tracked.yieldsSubstance_iff.mpr fun _ => CounterMap.substantial) trivial
  | registerMap K V =>
      exact iff_of_true (Tracked.yieldsSubstance_iff.mpr fun _ => RegisterMap.substantial) trivial
  | multiMap K V => exact Tracked.yieldsSubstance_iff.trans (MultiMap.substantial_iff initial s)
  | datum T => exact Datum.yieldsSubstance_iff initial s
  | map K values ih =>
      refine Tracked.yieldsSubstance_iff.trans ((DataMap.substantial_iff initial s).trans ?_)
      exact forall₂_congr fun e he => ih (hs e he) _

/-- A harvest for changes of data with a history hands over deltas with a change only, and in the
deltas of maps changes of each updated value, just if no set that it harvests for its changes is
hollow. -/
theorem harvest_carries_iff {σ : Type} {inst : Replicated σ} {form : Form σ inst} {s : σ}
    (hs : form.Made s) :
    (∀ d, (harvest false s).1 = some d → d.Carries ∧ d.UpdatesCarry) ↔ form.Solid false s := by
  rw [← form.yieldsSubstance_iff (form.invariant_backed.made hs)]
  exact forall₂_congr fun d _ => Delta.substantial_false_iff.symm

/-- In a set in a map two elements are added, and a peer takes one of them away.  The other one is
shipped. -/
theorem harvest_carries_element_that_stays :
    let k : Payload := ⟨"", [0]⟩
    let a : Payload := ⟨"", [1]⟩
    let b : Payload := ⟨"", [2]⟩
    let form : Form (DataMap Payload (AddRemoveSet Payload)) inferInstance := .map Payload (.set _)
    let v : AddRemoveSet Payload := {}
    let m : DataMap Payload (AddRemoveSet Payload) :=
      (apply (.map ⟨false, [], [⟨k, .set ⟨false, [], []⟩⟩], []⟩) {}).state
    let m' := (m.adjust k fun _ => v.add a).adjust k fun _ => (v.add a).add b
    let t := (apply (.map ⟨false, [], [], [⟨k, .set ⟨false, [a], []⟩⟩]⟩) m').state
    let d : Delta := .map ⟨false, [], [], [⟨k, .set ⟨false, [], [b]⟩⟩]⟩
    form.Made t ∧ form.Solid false t ∧ (harvest false t).1 = some d ∧ d.Carries ∧
      d.UpdatesCarry := by
  intro k a b form v m m' t d
  have hm : m = { entries := ⟨[(k.toKey, k, v)]⟩ } := by rfl
  have hget : m.get? k = some v := by rw [hm]; rfl
  have hget' : (m.adjust k fun _ => v.add a).get? k = some (v.add a) := by rw [hm]; rfl
  have ht : t = { entries :=
      ⟨[(k.toKey, k, { (v.add a).add b with elements := ⟨[(b.toKey, b)]⟩ })]⟩ } := by
    simp only [t, m', hm]
    rfl
  have hmade : form.Made m := .change (.start ⟨none, rfl⟩) (.apply _ _)
  have hfirst : form.Made (m.adjust k fun _ => v.add a) :=
    hmade.change (.operate (.adjust k hget (.operate ⟨.add a, rfl⟩)))
  have hsecond : form.Made m' :=
    hfirst.change (.operate (.adjust k hget' (.operate ⟨.add b, rfl⟩)))
  have htmade : form.Made t := hsecond.change (.apply _ _)
  have hsolid : form.Solid false t := by
    rw [ht]
    intro e he
    obtain rfl := List.mem_singleton.mp he
    -- the element that stays is staged and in the set
    exact Or.inr fun h => absurd (h.missing b.toKey rfl) (by decide)
  have hd : (harvest false t).1 = some d := by
    rw [ht]
    rfl
  exact ⟨htmade, hsolid, hd, (harvest_carries_iff htmade).mpr hsolid d hd⟩

/-- The only element of a set was added here, and a peer takes it away.  The next harvest ships a
delta in which there is nothing. -/
theorem harvest_ships_empty_delta :
    let a : Payload := ⟨"", [1]⟩
    let s : AddRemoveSet Payload := AddRemoveSet.add a {}
    let o := apply (.set ⟨false, [a], []⟩) s
    (Form.set Payload).Made o.state ∧ o.failure = none ∧
      (harvest false o.state).1 = some (.set ⟨false, [], []⟩) ∧
      ¬(Delta.set ⟨false, [], []⟩).Carries := by
  intro a s o
  have hs : (Form.set Payload).Made s := .change (.start rfl) (.operate ⟨.add a, rfl⟩)
  have hempty : ¬(Delta.set ⟨false, [], []⟩).Carries := by
    simp [Delta.Carries, SetDelta.Carries]
  exact ⟨hs.change (.apply _ _), rfl, rfl, hempty⟩

end Replicated

end DeltaReplica
