import DeltaReplica.Element
import DeltaReplica.Replicated

/-!
# Registers

A cell in which one of the concurrent writes wins, by a clock that the writer chooses.
-/

namespace DeltaReplica

/-- The clock of a write, and its value for the custom clocks. -/
structure Stamp where
  /-- The clock. -/
  clock : Clock := .standard
  /-- The clock value. -/
  clockValue : Int64 := 0
deriving DecidableEq, Inhabited

/-- A register, and the stamp of the write that has still to be handed over. -/
structure Register (V : Type) where
  /-- The value. -/
  value : V
  /-- The stamp of the last write, until it is handed over. -/
  pending : Option Stamp
deriving Inhabited

namespace Register

variable {V : Type}

/-- A new register; its first value is a write. -/
def new (v : V) (stamp : Stamp) : Register V := ⟨v, some stamp⟩

/-- The register after a write. -/
def set (v : V) (stamp : Stamp) (_ : Register V) : Register V := ⟨v, some stamp⟩

/-- The clock of the write that has still to be handed over. -/
def clock? (r : Register V) : Option Clock := r.pending.map Stamp.clock

/-- Equality of values and of pending writes. -/
def same [BEq V] (a b : Register V) : Bool := a.value == b.value && a.pending = b.pending

variable [Element V]

/-- What is handed over is the last write; an initial harvest repeats the value without one. -/
def harvest (initial : Bool) (r : Register V) : Option RegisterDelta × Register V :=
  let stamp := r.pending.or (if initial then some {} else none)
  (stamp.map fun t => ⟨some (Element.encode r.value), t.clock, t.clockValue⟩,
    { r with pending := none })

/-- The register after the write of a peer, which wins over a pending one. -/
def merge (d : RegisterDelta) (r : Register V) : Outcome (Register V) :=
  match d.value with
  | none => .done { r with pending := none }
  | some p => .withResult (p.read Element.decode) r fun v => .done ⟨v, none⟩

/-- A register with the value of a delta. -/
def create (d : RegisterDelta) : Except DeltaError (Register V) :=
  match d.value with
  | none => .error .registerWithoutValue
  | some p => (p.read Element.decode).map fun v => new v {}

end Register

instance : DeltaForm RegisterDelta where
  kind := .register
  wrap := .register
  unwrap?
    | .register d => some d
    | _ => none
  unwrap?_eq_some_iff {d e} := by cases d <;> simp
  kind_wrap _ := rfl

instance {V : Type} [Element V] : Tracked (Register V) RegisterDelta where
  harvest := Register.harvest
  merge := Register.merge
  create := Register.create

end DeltaReplica
