import DeltaReplica.Outline.Element
import DeltaReplica.Shape

/-!
# Outlines of replicated data

Collections show their contents; flags and votes show all their fields, and counters and
registers only their values.
-/

namespace DeltaReplica

instance : HasOutline Counter where
  outline c := .atom ("Counter(".toList ++ decimalInt c.value.toInt ++ [')'])

/-- The value of a register is shown on one line in any layout. -/
instance {V : Type} [HasOutline V] : HasOutline (Register V) where
  outline r := .atom ("Register(".toList ++ (outline r.value).chars false ++ [')'])

instance : HasOutline Flag where
  outline f := .record "Flag" [("value", outline f.value), ("delta", outline f.pending)]

instance : HasOutline Vote where
  outline v :=
    .record "Vote"
      [("self_vote", outline v.selfVote), ("votes_for", outline v.votesFor),
        ("total_voters", outline v.totalVoters), ("delta", outline v.pending)]

instance {E : Type} [HasOutline E] : HasOutline (GrowSet E) where
  outline s := .set (s.toList.map outline)

instance {E : Type} [HasOutline E] : HasOutline (AddRemoveSet E) where
  outline s := .set (s.toList.map outline)

/-- The outline of keys and values. -/
def outlineEntries {K V : Type} [HasOutline K] [HasOutline V] (es : List (K × V)) : Outline :=
  .map (es.map fun (k, v) => (outline k, outline v))

instance {K V : Type} [HasOutline K] [HasOutline V] : HasOutline (UniformMap K V) where
  outline m := outlineEntries m.toList

instance {K V : Type} [HasOutline K] [HasOutline V] : HasOutline (DataMap K V) where
  outline m := outlineEntries m.toList

namespace Datum

variable {T : Type} [HasOutline T]

mutual

/-- The outline of data of any kind, under the name of the kind. -/
def outline : Datum T → Outline
  | .counter c => .tuple "Counter" [HasOutline.outline c]
  | .register r => .tuple "Register" [HasOutline.outline r]
  | .set s => .tuple "ReplicatedSet" [HasOutline.outline s]
  | .vote v => .tuple "Vote" [HasOutline.outline v]
  | .map ⟨⟨es⟩, _, _, _, _⟩ => .tuple "ReplicatedMap" [.map (outlineEach es)]
  | .counterMap m => .tuple "ReplicatedCounterMap" [HasOutline.outline m]
  | .registerMap m => .tuple "ReplicatedRegisterMap" [HasOutline.outline m]
  | .multiMap m => .tuple "ReplicatedMultiMap" [HasOutline.outline m]

/-- The outlines of the entries of a map of data. -/
def outlineEach : List (Key × T × Datum T) → List (Outline × Outline)
  | [] => []
  | (_, k, v) :: es => (HasOutline.outline k, outline v) :: outlineEach es

end

end Datum

instance {T : Type} [HasOutline T] : HasOutline (Datum T) := ⟨Datum.outline⟩

/-- Data of every shape has an outline. -/
@[reducible]
def Shape.hasOutline (K V : Type) [HasOutline K] [HasOutline V] :
    (s : Shape) → HasOutline (s.State K V)
  | .counter => inferInstanceAs (HasOutline Counter)
  | .register => inferInstanceAs (HasOutline (Register V))
  | .flag => inferInstanceAs (HasOutline Flag)
  | .vote => inferInstanceAs (HasOutline Vote)
  | .growSet => inferInstanceAs (HasOutline (GrowSet V))
  | .set => inferInstanceAs (HasOutline (AddRemoveSet V))
  | .counterMap => inferInstanceAs (HasOutline (CounterMap K))
  | .registerMap => inferInstanceAs (HasOutline (RegisterMap K V))
  | .multiMap => inferInstanceAs (HasOutline (MultiMap K V))
  | .any => inferInstanceAs (HasOutline (Datum V))
  | .map s =>
    letI := Shape.hasOutline K V s
    inferInstanceAs (HasOutline (DataMap K (s.State K V)))

instance {K V : Type} [HasOutline K] [HasOutline V] {s : Shape} : HasOutline (s.State K V) :=
  Shape.hasOutline K V s

end DeltaReplica
