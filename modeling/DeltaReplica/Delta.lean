import DeltaReplica.Payload

/-!
# Deltas

A delta is a set of changes to replicated data, not its full state.  There is one
form of delta for each kind of data, and the delta of a map holds the deltas of its
values, so deltas nest as deep as the maps do.
-/

namespace DeltaReplica

/-- The kinds of replicated data. -/
inductive Kind
  /-- A number under increments and decrements. -/
  | counter
  /-- A cell in which the last write wins. -/
  | register
  /-- A truth value that can only become true. -/
  | flag
  /-- A set that only grows. -/
  | growSet
  /-- A set with additions and removals. -/
  | set
  /-- A vote with tallies. -/
  | vote
  /-- A map to replicated data. -/
  | map
  /-- A map to counters. -/
  | counterMap
  /-- A map to registers. -/
  | registerMap
  /-- A map to sets. -/
  | multiMap
deriving DecidableEq, Inhabited

/-- The name of a kind in the replication protocol. -/
def Kind.name : Kind → String
  | .counter => "counter"
  | .register => "register"
  | .flag => "flag"
  | .growSet => "gset"
  | .set => "replicatedSet"
  | .vote => "vote"
  | .map => "replicatedMap"
  | .counterMap => "replicatedCounterMap"
  | .registerMap => "replicatedRegisterMap"
  | .multiMap => "replicatedMultiMap"

/-- The clocks by which concurrent writes to a register are compared. -/
inductive Clock
  /-- The latest write wins. -/
  | standard
  /-- The earliest write wins. -/
  | reverse
  /-- The write with the greatest clock value wins. -/
  | custom
  /-- Like `custom`, with a clock value that grows by itself. -/
  | customAutoIncrement
deriving DecidableEq, Inhabited

/-- The name of a clock in the replication protocol. -/
def Clock.name : Clock → String
  | .standard => "DEFAULT"
  | .reverse => "REVERSE"
  | .custom => "CUSTOM"
  | .customAutoIncrement => "CUSTOM_AUTO_INCREMENT"

/-- The clock with a given name. -/
def Clock.ofName? (name : String) : Option Clock :=
  [standard, reverse, custom, customAutoIncrement].find? fun c => c.name = name

@[simp]
theorem Clock.ofName?_name (c : Clock) : Clock.ofName? c.name = some c := by
  cases c <;> decide

/-- The sum of the changes to a counter. -/
structure CounterDelta where
  /-- What is added to the value. -/
  change : Int64
deriving DecidableEq, Inhabited

/-- A write to a register. -/
structure RegisterDelta where
  /-- The written value; a write that carries none does not show. -/
  value : Option Payload
  /-- The clock of the write. -/
  clock : Clock
  /-- The clock value, for the custom clocks. -/
  clockValue : Int64
deriving DecidableEq, Inhabited

/-- The state of a flag. -/
structure FlagDelta where
  /-- Whether the flag is set. -/
  value : Bool
deriving DecidableEq, Inhabited

/-- New elements of a set that only grows. -/
structure GrowSetDelta where
  /-- The new elements. -/
  added : List Payload
deriving DecidableEq, Inhabited

/-- Changes to a set; they take effect in the order of the fields. -/
structure SetDelta where
  /-- Whether all elements are dropped. -/
  cleared : Bool
  /-- The elements that leave the set. -/
  removed : List Payload
  /-- The elements that enter the set. -/
  added : List Payload
deriving DecidableEq, Inhabited

/-- A vote and the tallies of all votes. -/
structure VoteDelta where
  /-- The vote of the sender. -/
  selfVote : Bool
  /-- How many votes are in favour. -/
  votesFor : UInt32
  /-- How many have a vote. -/
  totalVoters : UInt32
deriving DecidableEq, Inhabited

/-- The delta of one value of a map. -/
structure EntryDelta (δ : Type) where
  /-- The key of the value. -/
  key : Payload
  /-- The changes to the value. -/
  delta : δ
deriving DecidableEq, Inhabited

/-- Changes to a map whose values come into being by their first use. -/
structure UniformMapDelta (δ : Type) where
  /-- Whether all keys are dropped. -/
  cleared : Bool
  /-- The keys that leave the map. -/
  removed : List Payload
  /-- The changes to values. -/
  updated : List (EntryDelta δ)
deriving DecidableEq, Inhabited

/-- Changes to a map whose values are shipped in full when they are new. -/
structure MapDelta (δ : Type) where
  /-- Whether all keys are dropped. -/
  cleared : Bool
  /-- The keys that leave the map. -/
  removed : List Payload
  /-- The values that enter the map. -/
  added : List (EntryDelta δ)
  /-- The changes to values that stay. -/
  updated : List (EntryDelta δ)
deriving Inhabited

/-- Changes to replicated data of one kind. -/
inductive Delta
  /-- Changes to a counter. -/
  | counter (d : CounterDelta)
  /-- A write to a register. -/
  | register (d : RegisterDelta)
  /-- The state of a flag. -/
  | flag (d : FlagDelta)
  /-- New elements of a set that only grows. -/
  | growSet (d : GrowSetDelta)
  /-- Changes to a set. -/
  | set (d : SetDelta)
  /-- A vote. -/
  | vote (d : VoteDelta)
  /-- Changes to a map to replicated data. -/
  | map (d : MapDelta Delta)
  /-- Changes to a map to counters. -/
  | counterMap (d : UniformMapDelta CounterDelta)
  /-- Changes to a map to registers. -/
  | registerMap (d : UniformMapDelta RegisterDelta)
  /-- Changes to a map to sets. -/
  | multiMap (d : UniformMapDelta SetDelta)
deriving Inhabited

/-- The kind of data that a delta belongs to. -/
def Delta.kind : Delta → Kind
  | .counter _ => .counter
  | .register _ => .register
  | .flag _ => .flag
  | .growSet _ => .growSet
  | .set _ => .set
  | .vote _ => .vote
  | .map _ => .map
  | .counterMap _ => .counterMap
  | .registerMap _ => .registerMap
  | .multiMap _ => .multiMap

/-- Induction over the nesting of deltas: a delta of another kind than `map` holds no deltas, and
the delta of a map holds those of its entries. -/
@[elab_as_elim]
theorem Delta.induction {motive : Delta → Prop}
    (leaf : ∀ d : Delta, d.kind ≠ .map → motive d)
    (map : ∀ d : MapDelta Delta, (∀ e ∈ d.added, motive e.delta) →
      (∀ e ∈ d.updated, motive e.delta) → motive (.map d))
    (d : Delta) : motive d := by
  match d with
  | .map ⟨cleared, removed, added, updated⟩ =>
    exact map _ (fun e _ => induction leaf map e.delta) fun e _ => induction leaf map e.delta
  | .counter d | .register d | .flag d | .growSet d | .set d | .vote d | .counterMap d
  | .registerMap d | .multiMap d => exact leaf _ (by simp [kind])
termination_by d
decreasing_by
  all_goals
    rename_i h
    have h := List.sizeOf_lt_of_mem h
    cases e
    simp at h ⊢
    omega

end DeltaReplica
