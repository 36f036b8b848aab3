import DeltaReplica.Data.CounterMap
import DeltaReplica.Data.DataMap
import DeltaReplica.Data.MultiMap
import DeltaReplica.Data.RegisterMap
import DeltaReplica.Data.Vote

/-!
# Data of any kind

A datum is replicated data whose kind is known only when it is looked at.  Its maps hold
data again, to any depth; elements, keys and register values all have one type.

A map of data is harvested and changed like any other map to replicated data.  The two
recursions are written out here, over the entries of the map and over the entries of the
delta; `Datum.harvest_map` and `Datum.apply_map` say that they are the general ones.
-/

namespace DeltaReplica

/-- Replicated data of one of the kinds that peers can create for each other. -/
inductive Datum (T : Type)
  /-- A counter. -/
  | counter (c : Counter)
  /-- A register. -/
  | register (r : Register T)
  /-- A set. -/
  | set (s : AddRemoveSet T)
  /-- A vote. -/
  | vote (v : Vote)
  /-- A map to data. -/
  | map (m : DataMap T (Datum T))
  /-- A map to counters. -/
  | counterMap (m : CounterMap T)
  /-- A map to registers. -/
  | registerMap (m : RegisterMap T T)
  /-- A map to sets. -/
  | multiMap (m : MultiMap T T)
deriving Inhabited

namespace Datum

variable {T : Type}

/-- The kind of the data. -/
def kind : Datum T → Kind
  | .counter _ => .counter
  | .register _ => .register
  | .set _ => .set
  | .vote _ => .vote
  | .map _ => .map
  | .counterMap _ => .counterMap
  | .registerMap _ => .registerMap
  | .multiMap _ => .multiMap

theorem exists_map_of_kind {x : Datum T} (h : x.kind = .map) : ∃ m, x = .map m := by
  cases x with
  | map m => exact ⟨m, rfl⟩
  | _ => cases h

/-- Induction over the nesting of data: data of another kind than `map` hold no data, and a map
of data holds its values. -/
@[elab_as_elim]
theorem induction {motive : Datum T → Prop}
    (leaf : ∀ x : Datum T, x.kind ≠ .map → motive x)
    (map : ∀ m : DataMap T (Datum T), (∀ e ∈ m.entries.entries, motive e.2.2) → motive (.map m))
    (x : Datum T) : motive x := by
  match x with
  | .map ⟨⟨es⟩, added, removed, cleared, supply⟩ =>
    exact map _ fun e _ => induction leaf map e.2.2
  | .counter x | .register x | .set x | .vote x | .counterMap x | .registerMap x | .multiMap x =>
    exact leaf _ (by simp [kind])
termination_by x
decreasing_by
  rename_i h
  have h := List.sizeOf_lt_of_mem h
  obtain ⟨k, t, v⟩ := e
  simp at h ⊢
  omega

/-- Induction over a delta and the data that it is for: only the delta of a map goes deeper, and only
for a map of data. -/
@[elab_as_elim]
theorem deltaInduction {motive : Delta → Datum T → Prop}
    (leaf : ∀ d x, x.kind ≠ .map → motive d x)
    (refused : ∀ d m, d.kind ≠ .map → motive d (.map m))
    (map : ∀ (d : MapDelta Delta) (m : DataMap T (Datum T)),
      (∀ e ∈ d.added, ∀ x, motive e.delta x) → (∀ e ∈ d.updated, ∀ x, motive e.delta x) →
        motive (.map d) (.map m))
    (d : Delta) (x : Datum T) : motive d x := by
  induction d using Delta.induction generalizing x with
  | leaf d hd =>
    by_cases hx : x.kind = .map
    · obtain ⟨m, rfl⟩ := exists_map_of_kind hx
      exact refused d m hd
    · exact leaf d x hx
  | map d hadded hupdated =>
    by_cases hx : x.kind = .map
    · obtain ⟨m, rfl⟩ := exists_map_of_kind hx
      exact map d m hadded hupdated
    · exact leaf (.map d) x hx

variable [Element T]

mutual

/-- The changes to the data since the last harvest, and the data without them. -/
def harvest (initial : Bool) : Datum T → Option Delta × Datum T
  | .counter c => (Replicated.harvest initial c).map id .counter
  | .register r => (Replicated.harvest initial r).map id .register
  | .set s => (Replicated.harvest initial s).map id .set
  | .vote v => (Replicated.harvest initial v).map id .vote
  | .map ⟨⟨es⟩, added, removed, cleared, supply⟩ =>
    let m : DataMap T (Datum T) := ⟨⟨es⟩, added, removed, cleared, supply⟩
    (m.harvestWith initial ⟨harvestEach added es⟩).map (Option.map .map) .map
  | .counterMap m => (Replicated.harvest initial m).map id .counterMap
  | .registerMap m => (Replicated.harvest initial m).map id .registerMap
  | .multiMap m => (Replicated.harvest initial m).map id .multiMap

/-- The entries of a map of data, with what each of the data hands over. -/
def harvestEach (staged : KeySet) :
    List (Key × T × Datum T) → List (Key × T × Option Delta × Datum T)
  | [] => []
  | (ck, k, v) :: es => (ck, k, harvest (staged.contains ck) v) :: harvestEach staged es

end

/-- Empty data of the kind of a delta.  Flags and growing sets are never created by a delta. -/
def createFor : Delta → Except DeltaError (Datum T)
  | .counter _ => .ok (.counter {})
  | .register d => (Register.create d).map .register
  | .set _ => .ok (.set {})
  | .vote _ => .ok (.vote {})
  | .map _ => .ok (.map {})
  | .counterMap _ => .ok (.counterMap {})
  | .registerMap _ => .ok (.registerMap {})
  | .multiMap _ => .ok (.multiMap {})
  | .flag _ => .error (.notCreatable .flag)
  | .growSet _ => .error (.notCreatable .growSet)

mutual

/-- The data after a delta. -/
def apply (d : Delta) (x : Datum T) : Outcome (Datum T) :=
  match x with
  | .counter c => (Replicated.apply d c).map .counter
  | .register r => (Replicated.apply d r).map .register
  | .set s => (Replicated.apply d s).map .set
  | .vote v => (Replicated.apply d v).map .vote
  | .map m =>
    match d with
    | .map ⟨cleared, removed, added, updated⟩ =>
      (m.mergeWith cleared removed (changes added) (changes updated)).map .map
    | other => .fail (.map m) (.wrongKind .map other.kind)
  | .counterMap m => (Replicated.apply d m).map .counterMap
  | .registerMap m => (Replicated.apply d m).map .registerMap
  | .multiMap m => (Replicated.apply d m).map .multiMap

/-- The entries of the delta of a map of data, as changes to the data. -/
def changes : List (EntryDelta Delta) → List (Contents.Change (Datum T))
  | [] => []
  | ⟨key, delta⟩ :: es => ⟨key, createFor delta, apply delta⟩ :: changes es

end

instance : Replicated (Datum T) where
  harvest := harvest
  apply := apply
  createFor := createFor

theorem harvestEach_eq (staged : KeySet) (es : List (Key × T × Datum T)) :
    harvestEach staged es = (DataMap.harvestEntries staged ⟨es⟩).entries := by
  induction es with
  | nil => rfl
  | cons e es ih =>
    rw [harvestEach, ih]
    rfl

theorem changes_eq (es : List (EntryDelta Delta)) :
    changes es = es.map (DataMap.changeOf (V := Datum T)) := by
  induction es with
  | nil => rfl
  | cons e es ih =>
    rw [changes, ih]
    rfl

/-- A map of data is harvested like any map to replicated data. -/
theorem harvest_map (initial : Bool) (m : DataMap T (Datum T)) :
    harvest initial (.map m) = (Replicated.harvest initial m).map id .map := by
  obtain ⟨⟨es⟩, added, removed, cleared, supply⟩ := m
  rw [harvest, harvestEach_eq]
  rfl

/-- A map of data is changed by a delta like any map to replicated data. -/
theorem apply_map (d : Delta) (m : DataMap T (Datum T)) :
    apply d (.map m) = (Replicated.apply d m).map .map := by
  cases d with
  | map d =>
    obtain ⟨cleared, removed, added, updated⟩ := d
    rw [apply, changes_eq, changes_eq]
    rfl
  | _ => rfl

end Datum

end DeltaReplica
