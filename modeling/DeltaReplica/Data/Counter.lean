import DeltaReplica.Replicated

/-!
# Counters

A number under increments and decrements.  Changes commute, since they add up modulo
the range of 64-bit integers.
-/

namespace DeltaReplica

/-- A counter and the sum of the changes not yet handed over. -/
structure Counter where
  /-- The value. -/
  value : Int64 := 0
  /-- The sum of the pending changes. -/
  pending : Int64 := 0
deriving DecidableEq, Inhabited

namespace Counter

/-- The counter after an increment. -/
def increment (amount : Int64) (c : Counter) : Counter := ⟨c.value + amount, c.pending + amount⟩

/-- The counter after a decrement. -/
def decrement (amount : Int64) (c : Counter) : Counter := ⟨c.value - amount, c.pending - amount⟩

/-- Pending changes that add up to nothing are handed over by an initial harvest only. -/
def harvest (initial : Bool) (c : Counter) : Option CounterDelta × Counter :=
  if c.pending = 0 && !initial then (none, c) else (some ⟨c.pending⟩, { c with pending := 0 })

/-- The counter after a change by a peer. -/
def merge (d : CounterDelta) (c : Counter) : Counter := { c with value := c.value + d.change }

end Counter

instance : DeltaForm CounterDelta where
  kind := .counter
  wrap := .counter
  unwrap?
    | .counter d => some d
    | _ => none
  unwrap?_eq_some_iff {d e} := by cases d <;> simp
  kind_wrap _ := rfl

instance : Tracked Counter CounterDelta where
  harvest := Counter.harvest
  merge d c := .done (c.merge d)
  create _ := .ok {}

end DeltaReplica
