import DeltaReplica.Contents
import DeltaReplica.Replicated

/-!
# Maps to replicated data

A map whose values are replicated data of any type.  A value that is new to the peers
is shipped in full as an added entry, by an initial harvest of it; a value that the
peers know is shipped by its own changes as an updated entry.

A harvest has two halves, which `DataMap.harvestWith` puts together: harvesting the
values, and making a delta of what they hand over.
-/

namespace DeltaReplica

/-- A map from `K` to replicated data, and the changes to its keys that have still to be handed
over. -/
structure DataMap (K V : Type) where
  /-- The values, by key. -/
  entries : FinMap Key (K × V) := ∅
  /-- The keys whose values are new to the peers. -/
  added : KeySet := ∅
  /-- The pending removals. -/
  removed : FinMap Key K := ∅
  /-- Whether the map was cleared before the pending changes. -/
  cleared : Bool := false
  /-- The value that a missing key gets when it is reached for, if any, with the notices given
  while it is made. -/
  supply : Option (K → Option (Noted V)) := none
deriving Inhabited

/-- What the values of a map hand over: each value with its delta and without its changes. -/
abbrev Harvested (K V : Type) := FinMap Key (K × Option Delta × V)

namespace DataMap

variable {K V : Type}

/-- An empty map that supplies values for missing keys. -/
def supplying (f : K → Option (Noted V)) : DataMap K V := { supply := some f }

/-- The number of keys. -/
def size (m : DataMap K V) : Nat := m.entries.size

/-- Whether there are no keys. -/
def isEmpty (m : DataMap K V) : Bool := m.entries.isEmpty

/-- The keys and their values, in order. -/
def toList (m : DataMap K V) : List (K × V) := m.entries.values

/-- The keys in order. -/
def keys (m : DataMap K V) : List K := m.toList.map Prod.fst

/-- The values in the order of their keys. -/
def values (m : DataMap K V) : List V := m.toList.map Prod.snd

/-- The map without keys; clearing an empty map is no change. -/
def clear (m : DataMap K V) : DataMap K V :=
  if m.isEmpty then m else { cleared := true, supply := m.supply }

@[simp]
theorem entries_clear (m : DataMap K V) : m.clear.entries = ∅ := by
  by_cases h : m.isEmpty
  · simpa [clear, h] using FinMap.isEmpty_iff.mp h
  · simp [clear, h]

/-- The map with every value changed in place, one after the other in the order of the keys. -/
def mapValuesM {M : Type → Type} [Monad M] (f : K → V → M V) (m : DataMap K V) :
    M (DataMap K V) := do
  let es ← m.entries.entries.mapM fun (ck, k, v) => do return (ck, k, ← f k v)
  return { m with entries := ⟨es⟩ }

/-- Without effects, the values are replaced by their images. -/
theorem mapValuesM_id (f : K → V → V) (m : DataMap K V) :
    m.mapValuesM (M := Id) f = { m with entries := m.entries.map fun _ e => (e.1, f e.1 e.2) } := by
  have hpure : m.entries.entries.mapM (m := Id) (fun e => pure (e.1, e.2.1, f e.2.1 e.2.2)) =
      pure (m.entries.entries.map fun e => (e.1, e.2.1, f e.2.1 e.2.2)) := List.mapM_pure
  exact congrArg (fun es : List (Key × K × V) => { m with entries := ⟨es⟩ }) hpure

section Local

variable [Element K]

/-- Whether a key is in the map. -/
def has (k : K) (m : DataMap K V) : Bool := m.entries.contains (Element.key k)

/-- The value of a key. -/
def get? (k : K) (m : DataMap K V) : Option V := (m.entries.find? (Element.key k)).map Prod.snd

/-- The map with a value for a key.  A key that is new, or whose value the peers know, is staged
as added; in the second case also as removed, so that the old value goes first. -/
def set (k : K) (v : V) (m : DataMap K V) : Noted (DataMap K V) :=
  let ck := Element.key k
  let entries := m.entries.insert ck (k, v)
  if !m.entries.contains ck then
    { result :=
        { m with entries, removed := m.removed.erase ck, added := m.added.insert ck () }
      notices := if m.removed.contains ck then [⟨.keyReturns, ck⟩] else [] }
  else if !m.added.contains ck then
    { result :=
        { m with entries, removed := m.removed.insert ck k, added := m.added.insert ck () }
      notices := [⟨.valueReplaced, ck⟩] }
  else { result := { m with entries } }

/-- The map in which a key that is reached for has its supplied value, if it has none yet. -/
def reach (k : K) (m : DataMap K V) : Noted (DataMap K V) :=
  if m.has k then { result := m }
  else
    match m.supply.bind (· k) with
    | some v => (m.set k v.result).after v.notices
    | none => { result := m }

/-- The map with the value of a key changed in place, if the key is there. -/
def adjust (k : K) (f : V → V) (m : DataMap K V) : DataMap K V :=
  match m.entries.find? (Element.key k) with
  | some (k', v) => { m with entries := m.entries.insert (Element.key k) (k', f v) }
  | none => m

/-- The map without a key.  Removing what was added since the last harvest undoes the addition. -/
def delete (k : K) (m : DataMap K V) : DataMap K V :=
  let ck := Element.key k
  match m.entries.find? ck with
  | none => m
  | some (k', _) =>
    { m with
      entries := m.entries.erase ck
      added := m.added.erase ck
      removed := if m.added.contains ck then m.removed else m.removed.insert ck k' }

/-- The map without a key, and whether the key was there. -/
def deleteFound (k : K) (m : DataMap K V) : Bool × DataMap K V := (m.has k, m.delete k)

@[simp]
theorem entries_set (k : K) (v : V) (m : DataMap K V) :
    (m.set k v).result.entries = m.entries.insert (Element.key k) (k, v) := by
  by_cases h : m.entries.contains (Element.key k) <;>
    by_cases ha : m.added.contains (Element.key k) <;> simp [set, h, ha]

theorem get?_set_self (k : K) (v : V) (m : DataMap K V) : (m.set k v).result.get? k = some v := by
  simp [get?]

theorem get?_adjust_self (k : K) (f : V → V) (m : DataMap K V) :
    (m.adjust k f).get? k = (m.get? k).map f := by
  cases h : m.entries.find? (Element.key k) <;> simp [adjust, get?, h]

theorem entries_delete (k : K) (m : DataMap K V) :
    (m.delete k).entries = m.entries.erase (Element.key k) := by
  cases h : m.entries.find? (Element.key k) with
  | none => simp [delete, h, FinMap.erase_of_not_contains (FinMap.find?_eq_none_iff.mp h)]
  | some e => simp [delete, h]

end Local

section Harvest

variable [Element K]

/-- The deltas of those values whose keys are staged as added, or of the others. -/
def entryDeltas (staged : KeySet) (isAdded : Bool) (h : Harvested K V) :
    List (EntryDelta Delta) :=
  h.entries.filterMap fun (ck, k, d, _) =>
    if staged.contains ck = isAdded then d.map fun d => ⟨Element.encode k, d⟩ else none

/-- The delta of a map whose values have been harvested, and the map without its changes; there
has to be a change unless the harvest is an initial one. -/
def harvestWith (initial : Bool) (h : Harvested K V) (m : DataMap K V) :
    Option (MapDelta Delta) × DataMap K V :=
  let added := entryDeltas m.added true h
  let updated := entryDeltas m.added false h
  let kept := h.map fun _ (k, _, v) => (k, v)
  if !m.cleared && m.removed.isEmpty && added.isEmpty && updated.isEmpty && !initial then
    (none, { m with entries := kept, added := ∅ })
  else
    (some { cleared := m.cleared, removed := m.removed.values.map Element.encode, added, updated },
      { entries := kept, supply := m.supply })

/-- A value that is staged as added hands over its full state, another one its changes. -/
def harvestEntries [Replicated V] (staged : KeySet) (es : Entries K V) : Harvested K V :=
  es.map fun ck (k, v) => (k, Replicated.harvest (staged.contains ck) v)

/-- The delta of a map and of its values. -/
def harvest [Replicated V] (initial : Bool) (m : DataMap K V) :
    Option (MapDelta Delta) × DataMap K V :=
  m.harvestWith initial (harvestEntries m.added m.entries)

end Harvest

section Merge

variable [Element K]

/-- The contents after a delta, given the changes that its entries stand for: they are cleared
first, then lose keys, then gain values, and last the values that are there change. -/
def mergeEntries (cleared : Bool) (removed : List Payload)
    (added updated : List (Contents.Change V)) (m : Entries K V) : Outcome (Entries K V) :=
  ((Contents.dropAll K .removesMissingKey removed (Contents.clearIf cleared m)).andThen
    (Outcome.each (Contents.addOrAlter fun ck => [⟨.addsPresentKey, ck⟩]) added)).andThen
      (Outcome.each (Contents.alterPresent .updatesMissingKey) updated)

/-- The map after the changes of a delta; what is staged stays as it is. -/
def mergeWith (cleared : Bool) (removed : List Payload) (added updated : List (Contents.Change V))
    (m : DataMap K V) : Outcome (DataMap K V) :=
  (mergeEntries cleared removed added updated m.entries).map fun es => { m with entries := es }

/-- The delta of an entry, as a change to the value. -/
def changeOf [Replicated V] (e : EntryDelta Delta) : Contents.Change V :=
  ⟨e.key, Replicated.createFor e.delta, Replicated.apply e.delta⟩

/-- The map after a delta. -/
def merge [Replicated V] (d : MapDelta Delta) (m : DataMap K V) : Outcome (DataMap K V) :=
  m.mergeWith d.cleared d.removed (d.added.map changeOf) (d.updated.map changeOf)

end Merge

end DataMap

instance : DeltaForm (MapDelta Delta) where
  kind := .map
  wrap := .map
  unwrap?
    | .map d => some d
    | _ => none
  unwrap?_eq_some_iff {d e} := by cases d <;> simp
  kind_wrap _ := rfl

instance {K V : Type} [Element K] [Replicated V] : Tracked (DataMap K V) (MapDelta Delta) where
  harvest := DataMap.harvest
  merge := DataMap.merge
  create _ := .ok {}

end DeltaReplica
