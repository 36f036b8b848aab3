import DeltaReplica.Contents
import DeltaReplica.Replicated

/-!
# Maps with values of one tracked type

A value of such a map comes into being by its first use, here or in the delta of a peer,
so its own delta says everything that there is to know about it.  There are no added
entries in the delta of the map, only updated ones.
-/

namespace DeltaReplica

/-- A map from `K` to tracked values, and the changes to it that have still to be handed over. -/
structure UniformMap (K V : Type) where
  /-- The values, by key. -/
  entries : Entries K V := ∅
  /-- The pending removals. -/
  removed : FinMap Key K := ∅
  /-- Whether the map was cleared before the pending changes. -/
  cleared : Bool := false
deriving Inhabited

namespace UniformMap

variable {K V : Type}

/-- The number of keys. -/
def size (m : UniformMap K V) : Nat := m.entries.size

/-- Whether there are no keys. -/
def isEmpty (m : UniformMap K V) : Bool := m.entries.isEmpty

/-- The keys and their values, in order. -/
def toList (m : UniformMap K V) : List (K × V) := m.entries.values

/-- The keys in order. -/
def keys (m : UniformMap K V) : List K := m.toList.map Prod.fst

/-- The map without keys; clearing an empty map is no change. -/
def clear (m : UniformMap K V) : UniformMap K V := if m.isEmpty then m else { cleared := true }

@[simp]
theorem entries_clear (m : UniformMap K V) : m.clear.entries = ∅ := by
  by_cases h : m.isEmpty
  · simpa [clear, h] using FinMap.isEmpty_iff.mp h
  · simp [clear, h]

section Local

variable [Element K]

/-- Whether a key is in the map. -/
def has (k : K) (m : UniformMap K V) : Bool := m.entries.contains (Element.key k)

/-- The value of a key. -/
def get? (k : K) (m : UniformMap K V) : Option V := (m.entries.find? (Element.key k)).map Prod.snd

/-- The map after a change to the value of a key, which starts from `fresh` if it is missing.
A removal of the key that is still pending stays: the old value goes before the new one comes. -/
def modify (k : K) (fresh : V) (f : V → V) (m : UniformMap K V) : UniformMap K V :=
  let (k', v) := (m.entries.find? (Element.key k)).getD (k, fresh)
  { m with entries := m.entries.insert (Element.key k) (k', f v) }

/-- The map without a key. -/
def delete (k : K) (m : UniformMap K V) : UniformMap K V :=
  match m.entries.find? (Element.key k) with
  | none => m
  | some (k', _) =>
    { m with
      entries := m.entries.erase (Element.key k)
      removed := m.removed.insert (Element.key k) k' }

/-- The map without a key, and whether the key was there. -/
def deleteFound (k : K) (m : UniformMap K V) : Bool × UniformMap K V := (m.has k, m.delete k)

theorem entries_delete (k : K) (m : UniformMap K V) :
    (m.delete k).entries = m.entries.erase (Element.key k) := by
  cases h : m.entries.find? (Element.key k) with
  | none => simp [delete, h, FinMap.erase_of_not_contains (FinMap.find?_eq_none_iff.mp h)]
  | some e => simp [delete, h]

end Local

variable {δ : Type} [Element K] [Tracked V δ]

/-- The deltas of those values that have one. -/
def updates (harvested : FinMap Key (K × Option δ × V)) : List (EntryDelta δ) :=
  harvested.values.filterMap fun (k, d, _) => d.map fun d => ⟨Element.encode k, d⟩

/-- The removals and the deltas of the values; there has to be a change unless the harvest is
an initial one. -/
def harvest (initial : Bool) (m : UniformMap K V) :
    Option (UniformMapDelta δ) × UniformMap K V :=
  let harvested := m.entries.map fun _ (k, v) => (k, Tracked.harvest false v)
  let kept := harvested.map fun _ (k, _, v) => (k, v)
  if !m.cleared && m.removed.isEmpty && (updates harvested).isEmpty && !initial then
    (none, { m with entries := kept })
  else
    (some
      { cleared := m.cleared
        removed := m.removed.values.map Element.encode
        updated := updates harvested },
      { entries := kept })

/-- The delta of an entry, as a change to the value. -/
def changeOf (e : EntryDelta δ) : Contents.Change V :=
  ⟨e.key, Tracked.create e.delta, Tracked.merge e.delta⟩

/-- The contents after a delta: they are cleared first, then lose keys, then values change or
come into being. -/
def mergeEntries (d : UniformMapDelta δ) (m : Entries K V) : Outcome (Entries K V) :=
  (Contents.dropAll K .removesMissingKey d.removed (Contents.clearIf d.cleared m)).andThen
    (Outcome.each (Contents.addOrAlter fun _ => []) (d.updated.map changeOf))

/-- The map after a delta; what is staged stays as it is. -/
def merge (d : UniformMapDelta δ) (m : UniformMap K V) : Outcome (UniformMap K V) :=
  (mergeEntries d m.entries).map fun es => { m with entries := es }

end UniformMap

instance {K V δ : Type} [Element K] [Tracked V δ] :
    Tracked (UniformMap K V) (UniformMapDelta δ) where
  harvest := UniformMap.harvest
  merge := UniformMap.merge
  create _ := .ok {}

end DeltaReplica
