import DeltaReplica.Json.Tree

/-!
# Readers of JSON trees

A reader makes a typed value of a tree.  It is given the number of brackets that may
still be opened, so that the nesting of what is read is bounded; what is skipped is not.

A record is written as an object or as an array of all its fields.  In an object the
fields may come in any order and stand between members of other names, but no field may
come twice.
-/

namespace DeltaReplica.Wire

open DeltaReplica.Json

/-- A function that makes a value of a tree in which some number of brackets may be opened. -/
abbrev Reader (α : Type) := (room : Nat) → Tree → Option α

variable {α : Type}

/-- Reads a truth value. -/
def bool : Reader Bool
  | _, .bool b => some b
  | _, _ => none

/-- Reads a string. -/
def string : Reader String
  | _, .string l => l.string?
  | _, _ => none

/-- Reads an integer literal of a half-open range. -/
def intIn (low high : Int) : Reader Int
  | _, .number n => n.int?.filter fun i => low ≤ i ∧ i < high
  | _, _ => none

/-- Reads a signed integer of 64 bits. -/
def int64 : Reader Int64 := fun room t =>
  (intIn (-0x8000000000000000) 0x8000000000000000 room t).map Int64.ofInt

/-- Reads an unsigned integer of 32 bits. -/
def uint32 : Reader UInt32 := fun room t =>
  (intIn 0 0x100000000 room t).map fun i => UInt32.ofNat i.toNat

/-- Reads a byte. -/
def byte : Reader UInt8 := fun room t => (intIn 0 0x100 room t).map fun i => UInt8.ofNat i.toNat

/-- Reads an array. -/
def list (item : Reader α) : Reader (List α)
  | room + 1, .array ts => ts.mapM (item room)
  | _, _ => none

/-- Reads a byte string, which may also be written as a string. -/
def byteString : Reader (List UInt8)
  | _, .string l => some l.bytes
  | room, t => list byte room t

/-- Reads a value that may be null. -/
def optional (value : Reader α) : Reader (Option α)
  | _, .null => some none
  | room, t => (value room t).map some

/-- The fields of an object by their names; a name that is not among them belongs to no field. -/
def fields (names : List String) (members : List (Literal × Tree)) :
    Option (List (Option Tree)) := do
  let bs ← members.mapM fun (l, t) => l.string?.map fun s => (s, t)
  guard (bs.all fun (s, t) => names.contains s || t.isSkippable)
  guard (names.all fun name => bs.countP (fun b => b.1 = name) ≤ 1)
  return names.map fun name => (bs.find? fun b => b.1 = name).map Prod.snd

/-- Reads the fields of a record; a field that is not there is `none`. -/
def record (names : List String) (make : Nat → List (Option Tree) → Option α) : Reader α
  | room + 1, .array ts => if ts.length = names.length then make room (ts.map some) else none
  | room + 1, .object ms => (fields names ms).bind (make room)
  | _, _ => none

/-- Reads a value under a tag, the only member of an object. -/
def tagged (content : String → Reader α) : Reader α
  | room + 1, .object [(l, t)] => l.string?.bind fun tag => content tag room t
  | _, _ => none

end DeltaReplica.Wire
