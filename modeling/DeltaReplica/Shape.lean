import DeltaReplica.Data.Datum
import DeltaReplica.Data.Flag

/-!
# Shapes

A shape names a type of replicated data over given types of keys and values: one of the
plain types, data of any kind, or a map to replicated data of a shape, nested to any
depth.
-/

namespace DeltaReplica

/-- The types of replicated data. -/
inductive Shape
  /-- Counters. -/
  | counter
  /-- Registers of values. -/
  | register
  /-- Flags. -/
  | flag
  /-- Votes. -/
  | vote
  /-- Growing sets of values. -/
  | growSet
  /-- Sets of values. -/
  | set
  /-- Maps from keys to counters. -/
  | counterMap
  /-- Maps from keys to registers of values. -/
  | registerMap
  /-- Maps from keys to sets of values. -/
  | multiMap
  /-- Data of any kind over values. -/
  | any
  /-- Maps from keys to data of a shape. -/
  | map (value : Shape)
deriving DecidableEq, Inhabited

namespace Shape

/-- The type of replicated data that a shape names. -/
def State (K V : Type) : Shape → Type
  | .counter => Counter
  | .register => Register V
  | .flag => Flag
  | .vote => Vote
  | .growSet => GrowSet V
  | .set => AddRemoveSet V
  | .counterMap => CounterMap K
  | .registerMap => RegisterMap K V
  | .multiMap => MultiMap K V
  | .any => Datum V
  | .map s => DataMap K (s.State K V)

/-- Every shape names a type of replicated data. -/
@[reducible]
def replicated (K V : Type) [Element K] [Element V] : (s : Shape) → Replicated (s.State K V)
  | .counter => inferInstanceAs (Replicated Counter)
  | .register => inferInstanceAs (Replicated (Register V))
  | .flag => inferInstanceAs (Replicated Flag)
  | .vote => inferInstanceAs (Replicated Vote)
  | .growSet => inferInstanceAs (Replicated (GrowSet V))
  | .set => inferInstanceAs (Replicated (AddRemoveSet V))
  | .counterMap => inferInstanceAs (Replicated (CounterMap K))
  | .registerMap => inferInstanceAs (Replicated (RegisterMap K V))
  | .multiMap => inferInstanceAs (Replicated (MultiMap K V))
  | .any => inferInstanceAs (Replicated (Datum V))
  | .map s =>
    letI := replicated K V s
    inferInstanceAs (Replicated (DataMap K (s.State K V)))

instance {K V : Type} [Element K] [Element V] {s : Shape} : Replicated (s.State K V) :=
  replicated K V s

end Shape

end DeltaReplica
