import DeltaReplica.Delta
import DeltaReplica.Wire.Reader

/-!
# The JSON form of deltas

Payloads, keys, clocks and deltas as JSON trees.  A delta is an object with a single
member, whose name is the kind of the delta.  Records are written as objects with their
fields in a fixed order; what is accepted beyond that is the matter of the readers.
-/

namespace DeltaReplica.Wire

open DeltaReplica.Json

/-! ## Writing -/

/-- The tree of a string. -/
def ofString (s : String) : Tree := .string (.ofChars s.toList)

/-- The tree of an integer. -/
def ofInt (i : Int) : Tree := .number (.ofInt i)

/-- The tree of a byte string. -/
def ofBytes (bytes : List UInt8) : Tree := .array (bytes.map fun b => ofInt b.toNat)

/-- The tree of a record with named fields. -/
def ofRecord (fields : List (String × Tree)) : Tree :=
  .object (fields.map fun (name, t) => (.ofChars name.toList, t))

/-- The tree of a payload. -/
def ofPayload (p : Payload) : Tree :=
  ofRecord [("typeUrl", ofString p.typeUrl), ("value", ofBytes p.value)]

/-- The tree of a list of payloads. -/
def ofPayloads (ps : List Payload) : Tree := .array (ps.map ofPayload)

/-- The tree of a key. -/
def ofKey (k : Key) : Tree :=
  ofRecord [("typeUrl", ofString k.typeUrl), ("bytes", ofBytes k.bytes)]

/-- The tree of a clock. -/
def ofClock (c : Clock) : Tree := ofString c.name

/-- The tree of the changes to a counter. -/
def ofCounter (d : CounterDelta) : Tree := ofRecord [("change", ofInt d.change.toInt)]

/-- The tree of a write to a register. -/
def ofRegister (d : RegisterDelta) : Tree :=
  ofRecord [("value", d.value.elim .null ofPayload), ("clock", ofClock d.clock),
    ("customClockValue", ofInt d.clockValue.toInt)]

/-- The tree of the state of a flag. -/
def ofFlag (d : FlagDelta) : Tree := ofRecord [("value", .bool d.value)]

/-- The tree of the new elements of a growing set. -/
def ofGrowSet (d : GrowSetDelta) : Tree := ofRecord [("added", ofPayloads d.added)]

/-- The tree of the changes to a set. -/
def ofSet (d : SetDelta) : Tree :=
  ofRecord [("cleared", .bool d.cleared), ("removed", ofPayloads d.removed),
    ("added", ofPayloads d.added)]

/-- The tree of a vote. -/
def ofVote (d : VoteDelta) : Tree :=
  ofRecord [("selfVote", .bool d.selfVote), ("votesFor", ofInt d.votesFor.toNat),
    ("totalVoters", ofInt d.totalVoters.toNat)]

/-- The tree of an entry whose delta has a given tree. -/
def ofEntry (key : Payload) (delta : Tree) : Tree :=
  ofRecord [("key", ofPayload key), ("delta", delta)]

/-- The tree of the changes to a map whose values have deltas of one type. -/
def ofUniformMap {δ : Type} (form : δ → Tree) (d : UniformMapDelta δ) : Tree :=
  ofRecord [("cleared", .bool d.cleared), ("removed", ofPayloads d.removed),
    ("updated", .array (d.updated.map fun e => ofEntry e.key (form e.delta)))]

/-- The tree of what belongs to data of a kind. -/
def ofTagged (k : Kind) (content : Tree) : Tree := ofRecord [(k.name, content)]

mutual

/-- The tree of a delta. -/
def ofDelta : Delta → Tree
  | .counter d => ofTagged .counter (ofCounter d)
  | .register d => ofTagged .register (ofRegister d)
  | .flag d => ofTagged .flag (ofFlag d)
  | .growSet d => ofTagged .growSet (ofGrowSet d)
  | .set d => ofTagged .set (ofSet d)
  | .vote d => ofTagged .vote (ofVote d)
  | .map ⟨cleared, removed, added, updated⟩ =>
    ofTagged .map (ofRecord [("cleared", .bool cleared), ("removed", ofPayloads removed),
      ("added", .array (ofEntries added)), ("updated", .array (ofEntries updated))])
  | .counterMap d => ofTagged .counterMap (ofUniformMap ofCounter d)
  | .registerMap d => ofTagged .registerMap (ofUniformMap ofRegister d)
  | .multiMap d => ofTagged .multiMap (ofUniformMap ofSet d)

/-- The trees of the entries of the delta of a map. -/
def ofEntries : List (EntryDelta Delta) → List Tree
  | [] => []
  | ⟨key, delta⟩ :: es => ofEntry key (ofDelta delta) :: ofEntries es

end

/-! ## Reading -/

/-- Reads a payload. -/
def payload : Reader Payload :=
  record ["typeUrl", "value"] fun room fs =>
    match fs with
    | [some typeUrl, some value] => return ⟨← string room typeUrl, ← byteString room value⟩
    | _ => none

/-- Reads a key. -/
def key : Reader Key :=
  record ["typeUrl", "bytes"] fun room fs =>
    match fs with
    | [some typeUrl, some bytes] => return ⟨← string room typeUrl, ← list byte room bytes⟩
    | _ => none

/-- Reads a clock: its name, or an object with its name as a tag of nothing. -/
def clock : Reader Clock
  | _, .string l => l.string?.bind Clock.ofName?
  | room, t =>
    tagged (fun name _ content =>
      match content with
      | .null => Clock.ofName? name
      | _ => none) room t

/-- Reads the changes to a counter. -/
def counter : Reader CounterDelta :=
  record ["change"] fun room fs =>
    match fs with
    | [some change] => return ⟨← int64 room change⟩
    | _ => none

/-- Reads a write to a register; the value may be missing. -/
def register : Reader RegisterDelta :=
  record ["value", "clock", "customClockValue"] fun room fs =>
    match fs with
    | [value, some c, some v] =>
      return ⟨← value.elim (some none) (optional payload room), ← clock room c, ← int64 room v⟩
    | _ => none

/-- Reads the state of a flag. -/
def flag : Reader FlagDelta :=
  record ["value"] fun room fs =>
    match fs with
    | [some value] => return ⟨← bool room value⟩
    | _ => none

/-- Reads the new elements of a growing set. -/
def growSet : Reader GrowSetDelta :=
  record ["added"] fun room fs =>
    match fs with
    | [some added] => return ⟨← list payload room added⟩
    | _ => none

/-- Reads the changes to a set. -/
def set : Reader SetDelta :=
  record ["cleared", "removed", "added"] fun room fs =>
    match fs with
    | [some cleared, some removed, some added] =>
      return ⟨← bool room cleared, ← list payload room removed, ← list payload room added⟩
    | _ => none

/-- Reads a vote. -/
def vote : Reader VoteDelta :=
  record ["selfVote", "votesFor", "totalVoters"] fun room fs =>
    match fs with
    | [some selfVote, some votesFor, some totalVoters] =>
      return ⟨← bool room selfVote, ← uint32 room votesFor, ← uint32 room totalVoters⟩
    | _ => none

/-- Reads an entry of the delta of a map. -/
def entry {δ : Type} (delta : Reader δ) : Reader (EntryDelta δ) :=
  record ["key", "delta"] fun room fs =>
    match fs with
    | [some k, some d] => return ⟨← payload room k, ← delta room d⟩
    | _ => none

/-- Reads the changes to a map whose values have deltas of one type. -/
def uniformMap {δ : Type} (delta : Reader δ) : Reader (UniformMapDelta δ) :=
  record ["cleared", "removed", "updated"] fun room fs =>
    match fs with
    | [some cleared, some removed, some updated] =>
      return ⟨← bool room cleared, ← list payload room removed, ← list (entry delta) room updated⟩
    | _ => none

/-- Reads the changes to a map to replicated data. -/
def map {δ : Type} (delta : Reader δ) : Reader (MapDelta δ) :=
  record ["cleared", "removed", "added", "updated"] fun room fs =>
    match fs with
    | [some cleared, some removed, some added, some updated] =>
      return ⟨← bool room cleared, ← list payload room removed, ← list (entry delta) room added,
        ← list (entry delta) room updated⟩
    | _ => none

/-- Reads a delta with a given tag, whose nested deltas are read by another reader. -/
def content (nested : Reader Delta) (tag : String) : Reader Delta := fun room t =>
  if tag = Kind.counter.name then (counter room t).map .counter
  else if tag = Kind.register.name then (register room t).map .register
  else if tag = Kind.flag.name then (flag room t).map .flag
  else if tag = Kind.growSet.name then (growSet room t).map .growSet
  else if tag = Kind.set.name then (set room t).map .set
  else if tag = Kind.vote.name then (vote room t).map .vote
  else if tag = Kind.map.name then (map nested room t).map .map
  else if tag = Kind.counterMap.name then (uniformMap counter room t).map .counterMap
  else if tag = Kind.registerMap.name then (uniformMap register room t).map .registerMap
  else if tag = Kind.multiMap.name then (uniformMap set room t).map .multiMap
  else none

/-- Reads a delta that nests fewer than `levels` deltas in each other. -/
def deltaWithin : (levels : Nat) → Reader Delta
  | 0 => fun _ _ => none
  | levels + 1 => tagged (content (deltaWithin levels))

/-- Reads a delta.  Each level of nesting opens a bracket, so there are no more levels than
brackets. -/
def delta : Reader Delta := fun room t => deltaWithin room room t

/-! ## Texts -/

/-- How many brackets may be open at the same time in a text that is read. -/
def maxDepth : Nat := 127

/-- The value that a reader makes of a text. -/
def parse? {α : Type} (r : Reader α) (s : String) : Option α :=
  (Tree.ofChars? s.toList).bind (r maxDepth)

/-- The text of a tree. -/
def print (t : Tree) : String := String.ofList t.chars

end DeltaReplica.Wire
