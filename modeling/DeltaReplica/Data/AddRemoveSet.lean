import DeltaReplica.Data.GrowSet

/-!
# Sets with additions and removals

Additions and removals are staged so that a delta stays minimal: an addition and a
removal of the same element within one harvest cancel out, and clearing the set drops
whatever was staged before.
-/

namespace DeltaReplica

/-- A set, and the changes that have still to be handed over. -/
structure AddRemoveSet (E : Type) where
  /-- The elements, by key. -/
  elements : FinMap Key E := ∅
  /-- The keys of the pending additions. -/
  added : KeySet := ∅
  /-- The pending removals. -/
  removed : FinMap Key E := ∅
  /-- Whether the set was cleared before the pending additions. -/
  cleared : Bool := false
deriving Inhabited

namespace AddRemoveSet

variable {E : Type}

/-- The number of elements. -/
def size (s : AddRemoveSet E) : Nat := s.elements.size

/-- Whether there are no elements. -/
def isEmpty (s : AddRemoveSet E) : Bool := s.elements.isEmpty

/-- The elements in the order of their keys. -/
def toList (s : AddRemoveSet E) : List E := s.elements.values

/-- The set without elements; clearing an empty set is no change. -/
def clear (s : AddRemoveSet E) : AddRemoveSet E :=
  if s.isEmpty then s else { cleared := true }

variable [Element E]

/-- Whether an element is in the set. -/
def has (e : E) (s : AddRemoveSet E) : Bool := s.elements.contains (Element.key e)

/-- The set with an element.  Adding back what was removed since the last harvest undoes the
removal. -/
def add (e : E) (s : AddRemoveSet E) : AddRemoveSet E :=
  let ck := Element.key e
  if s.elements.contains ck then s
  else
    { s with
      elements := s.elements.insert ck e
      removed := s.removed.erase ck
      added := if s.removed.contains ck then s.added else s.added.insert ck () }

/-- The set with an element, and whether the element is new. -/
def addNew (e : E) (s : AddRemoveSet E) : Bool × AddRemoveSet E := (!s.has e, s.add e)

/-- The set with several elements. -/
def addAll (es : List E) (s : AddRemoveSet E) : AddRemoveSet E := es.foldl (fun s e => s.add e) s

/-- The set without an element.  Removing the only element is clearing, and removing what was
added since the last harvest undoes the addition. -/
def delete (e : E) (s : AddRemoveSet E) : AddRemoveSet E :=
  let ck := Element.key e
  match s.elements.find? ck with
  | none => s
  | some stored =>
    if s.size = 1 then s.clear
    else
      { s with
        elements := s.elements.erase ck
        added := s.added.erase ck
        removed := if s.added.contains ck then s.removed else s.removed.insert ck stored }

/-- The set without an element, and whether the element was there. -/
def deleteFound (e : E) (s : AddRemoveSet E) : Bool × AddRemoveSet E := (s.has e, s.delete e)

/-- The set without several elements. -/
def deleteAll (es : List E) (s : AddRemoveSet E) : AddRemoveSet E :=
  es.foldl (fun s e => s.delete e) s

/-- The staged changes; there have to be some unless the harvest is an initial one. -/
def harvest (initial : Bool) (s : AddRemoveSet E) : Option SetDelta × AddRemoveSet E :=
  if !s.cleared && s.added.isEmpty && s.removed.isEmpty && !initial then (none, s)
  else
    (some
      { cleared := s.cleared
        removed := s.removed.values.map Element.encode
        added := stagedPayloads s.added s.elements },
      { elements := s.elements })

/-- One element of a delta enters the contents; one that is there is replaced, with a remark. -/
def mergeElement (p : Payload) (m : FinMap Key E) : Outcome (FinMap Key E) :=
  .withResult (p.read Element.decode) m fun e =>
    { state := m.insert (Element.key e) e
      notices :=
        if m.contains (Element.key e) then [⟨.addsPresentElement, Element.key e⟩] else [] }

/-- The contents after a delta: they are cleared first, then lose elements, then gain some. -/
def mergeElements (d : SetDelta) (m : FinMap Key E) : Outcome (FinMap Key E) :=
  (Contents.dropAll E .removesMissingElement d.removed (Contents.clearIf d.cleared m)).andThen
    (Outcome.each mergeElement d.added)

/-- The set after a delta; what is staged stays as it is. -/
def merge (d : SetDelta) (s : AddRemoveSet E) : Outcome (AddRemoveSet E) :=
  (mergeElements d s.elements).map fun m => { s with elements := m }

omit [Element E] in
@[simp]
theorem elements_clear (s : AddRemoveSet E) : s.clear.elements = ∅ := by
  by_cases h : s.isEmpty
  · simpa [clear, h] using FinMap.isEmpty_iff.mp h
  · simp [clear, h]

theorem has_add (e e' : E) (s : AddRemoveSet E) :
    (s.add e).has e' = (decide (Element.key e' = Element.key e) || s.has e') := by
  by_cases h : s.elements.contains (Element.key e)
  · by_cases hk : Element.key e' = Element.key e
    · simp [add, has, h, hk]
    · simp [add, h, hk]
  · simp [add, has, h, FinMap.contains_insert]

theorem elements_delete (e : E) (s : AddRemoveSet E) :
    (s.delete e).elements = s.elements.erase (Element.key e) := by
  cases h : s.elements.find? (Element.key e) with
  | none => simp [delete, h, FinMap.erase_of_not_contains (FinMap.find?_eq_none_iff.mp h)]
  | some stored =>
    by_cases hs : s.size = 1
    · simp [delete, h, hs,
        FinMap.erase_of_size_eq_one hs (FinMap.contains_of_find?_eq_some h)]
    · simp [delete, h, hs]

end AddRemoveSet

instance : DeltaForm SetDelta where
  kind := .set
  wrap := .set
  unwrap?
    | .set d => some d
    | _ => none
  unwrap?_eq_some_iff {d e} := by cases d <;> simp
  kind_wrap _ := rfl

instance {E : Type} [Element E] : Tracked (AddRemoveSet E) SetDelta where
  harvest := AddRemoveSet.harvest
  merge := AddRemoveSet.merge
  create _ := .ok {}

end DeltaReplica
