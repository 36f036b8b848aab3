import DeltaReplica.Replicated

/-!
# Flags

A truth value that can only go from false to true.
-/

namespace DeltaReplica

/-- A flag, and whether setting it has still to be handed over. -/
structure Flag where
  /-- Whether the flag is set. -/
  value : Bool := false
  /-- Whether it was set here since the last harvest. -/
  pending : Bool := false
deriving DecidableEq, Inhabited

namespace Flag

/-- The flag after it was set; setting a set flag is no change. -/
def enable (f : Flag) : Flag := if f.value then f else ⟨true, true⟩

/-- What is handed over is the state of the flag. -/
def harvest (initial : Bool) (f : Flag) : Option FlagDelta × Flag :=
  (if f.pending || initial then some ⟨f.value⟩ else none, { f with pending := false })

/-- The flag after a peer has handed over its state. -/
def merge (d : FlagDelta) (f : Flag) : Flag := { f with value := f.value || d.value }

end Flag

instance : DeltaForm FlagDelta where
  kind := .flag
  wrap := .flag
  unwrap?
    | .flag d => some d
    | _ => none
  unwrap?_eq_some_iff {d e} := by cases d <;> simp
  kind_wrap _ := rfl

instance : Tracked Flag FlagDelta where
  harvest := Flag.harvest
  merge d f := .done (f.merge d)
  create _ := .ok {}

end DeltaReplica
