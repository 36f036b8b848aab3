import DeltaReplica.Element
import DeltaReplica.Outcome

/-!
# Contents of collections

The steps by which a delta changes the contents of a set or a map.  Contents are
indexed by the keys of their elements; a map keeps the element it was indexed by next
to each value.  Nothing here touches what a collection has still to hand over.
-/

namespace DeltaReplica

/-- Keys that are staged for a delta. -/
abbrev KeySet := FinMap Key Unit

/-- The contents of a map: each value with the element that it is indexed by. -/
abbrev Entries (K V : Type) := FinMap Key (K × V)

namespace Contents

variable {K V α : Type} [Element K]

/-- One element of a delta drops what is indexed by it. -/
def drop (K : Type) [Element K] (remark : Remark) (p : Payload) (m : FinMap Key α) :
    Outcome (FinMap Key α) :=
  .withResult (p.read (Element.decode (α := K))) m fun k =>
    { state := m.erase (Element.key k)
      notices := if m.contains (Element.key k) then [] else [⟨remark, Element.key k⟩] }

/-- The elements of a delta drop what is indexed by them; a missing one gets a remark. -/
def dropAll (K : Type) [Element K] (remark : Remark) (ps : List Payload) (m : FinMap Key α) :
    Outcome (FinMap Key α) :=
  .each (drop K remark) ps m

/-- The contents after a delta that may clear them. -/
def clearIf (cleared : Bool) (m : FinMap Key α) : FinMap Key α := if cleared then ∅ else m

/-- A change to one value of a map: how the value is created and how it is changed. -/
structure Change (V : Type) where
  /-- The element that the value is indexed by. -/
  key : Payload
  /-- A fresh value for an element that is not in the map. -/
  create : Except DeltaError V
  /-- The change. -/
  apply : V → Outcome V

/-- The change of a value that is in the map; the element it is indexed by stays. -/
def alter (ck : Key) (k : K) (v : V) (apply : V → Outcome V) (m : Entries K V) :
    Outcome (Entries K V) :=
  (apply v).map fun v' => m.insert ck (k, v')

/-- A fresh value enters the map only if the change of it goes through. -/
def introduce (ck : Key) (k : K) (c : Change V) (m : Entries K V) : Outcome (Entries K V) :=
  .withResult c.create m fun v =>
    let o := c.apply v
    match o.failure with
    | none => { state := m.insert ck (k, o.state), notices := o.notices }
    | some e => { state := m, notices := o.notices, failure := some e }

/-- A change of a value, which is created if it is missing; `present` are the notices for one
that is there. -/
def addOrAlter (present : Key → List Notice) (c : Change V) (m : Entries K V) :
    Outcome (Entries K V) :=
  .withResult (c.key.read Element.decode) m fun k =>
    let ck := Element.key k
    match m.find? ck with
    | some (k', v) => (alter ck k' v c.apply m).after (present ck)
    | none => introduce ck k c m

/-- A change of a value; a missing one gets a remark. -/
def alterPresent (remark : Remark) (c : Change V) (m : Entries K V) : Outcome (Entries K V) :=
  .withResult (c.key.read (Element.decode (α := K))) m fun k =>
    let ck := Element.key k
    match m.find? ck with
    | some (k', v) => alter ck k' v c.apply m
    | none => { state := m, notices := [⟨remark, ck⟩] }

end Contents

end DeltaReplica
