import DeltaReplica.Data.Counter
import DeltaReplica.Data.UniformMap

/-!
# Maps of counters

Every key counts from zero.
-/

namespace DeltaReplica

/-- A map from `K` to counters. -/
abbrev CounterMap (K : Type) := UniformMap K Counter

namespace CounterMap

variable {K : Type} [Element K]

/-- The value of a counter; one that is not in the map stands at zero. -/
def value (k : K) (m : CounterMap K) : Int64 := (m.get? k).elim 0 Counter.value

/-- The map after an increment of a counter. -/
def increment (k : K) (amount : Int64) (m : CounterMap K) : CounterMap K :=
  m.modify k {} (Counter.increment amount)

/-- The map after a decrement of a counter. -/
def decrement (k : K) (amount : Int64) (m : CounterMap K) : CounterMap K :=
  m.modify k {} (Counter.decrement amount)

end CounterMap

instance : DeltaForm (UniformMapDelta CounterDelta) where
  kind := .counterMap
  wrap := .counterMap
  unwrap?
    | .counterMap d => some d
    | _ => none
  unwrap?_eq_some_iff {d e} := by cases d <;> simp
  kind_wrap _ := rfl

end DeltaReplica
