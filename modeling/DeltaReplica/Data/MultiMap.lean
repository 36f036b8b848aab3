import DeltaReplica.Data.AddRemoveSet
import DeltaReplica.Data.UniformMap

/-!
# Maps of sets

A key has a set of values, and local changes keep it only as long as it has any.
-/

namespace DeltaReplica

/-- A map from `K` to sets of `V`. -/
abbrev MultiMap (K V : Type) := UniformMap K (AddRemoveSet V)

namespace MultiMap

variable {K V : Type}

/-- The number of pairs of a key and a value of it. -/
def count (m : MultiMap K V) : Nat := m.toList.foldl (fun n e => n + e.2.size) 0

variable [Element K] [Element V]

/-- Whether a value is among those of a key. -/
def hasValue (k : K) (v : V) (m : MultiMap K V) : Bool := (m.get? k).elim false (·.has v)

/-- The map with a value for a key. -/
def put (k : K) (v : V) (m : MultiMap K V) : MultiMap K V := m.modify k {} (·.add v)

/-- The map with a value for a key, and whether the value is new to the key. -/
def putNew (k : K) (v : V) (m : MultiMap K V) : Bool × MultiMap K V := (!m.hasValue k v, m.put k v)

/-- The map with several values for a key; none at all do not create the key. -/
def putAll (k : K) (vs : List V) (m : MultiMap K V) : MultiMap K V :=
  if vs.isEmpty then m else m.modify k {} (·.addAll vs)

/-- The map without a value of a key, and without the key when that was the last value. -/
def deleteValue (k : K) (v : V) (m : MultiMap K V) : MultiMap K V :=
  match m.get? k with
  | none => m
  | some values =>
    let m' := m.modify k {} (·.delete v)
    if (values.delete v).isEmpty then m'.delete k else m'

/-- The map without a value of a key, and whether the key had the value. -/
def deleteValueFound (k : K) (v : V) (m : MultiMap K V) : Bool × MultiMap K V :=
  (m.hasValue k v, m.deleteValue k v)

end MultiMap

instance : DeltaForm (UniformMapDelta SetDelta) where
  kind := .multiMap
  wrap := .multiMap
  unwrap?
    | .multiMap d => some d
    | _ => none
  unwrap?_eq_some_iff {d e} := by cases d <;> simp
  kind_wrap _ := rfl

end DeltaReplica
