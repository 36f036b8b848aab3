import DeltaReplica.Contents
import DeltaReplica.Replicated

/-!
# Growing sets

A set to which elements can only be added, so the order and the number of deliveries of
a delta do not matter.
-/

namespace DeltaReplica

/-- A growing set, and the keys of the elements that have still to be handed over. -/
structure GrowSet (E : Type) where
  /-- The elements, by key. -/
  elements : FinMap Key E := ∅
  /-- The keys of the pending additions. -/
  added : KeySet := ∅
deriving Inhabited

/-- The wire forms of those elements whose keys are staged. -/
def stagedPayloads {E : Type} [Element E] (staged : KeySet) (elements : FinMap Key E) :
    List Payload :=
  (staged.keys.filterMap elements.find?).map Element.encode

namespace GrowSet

variable {E : Type}

/-- The number of elements. -/
def size (s : GrowSet E) : Nat := s.elements.size

/-- Whether there are no elements. -/
def isEmpty (s : GrowSet E) : Bool := s.elements.isEmpty

/-- The elements in the order of their keys. -/
def toList (s : GrowSet E) : List E := s.elements.values

variable [Element E]

/-- Whether an element is in the set. -/
def has (e : E) (s : GrowSet E) : Bool := s.elements.contains (Element.key e)

/-- The set with an element; one that is there already is no change. -/
def add (e : E) (s : GrowSet E) : GrowSet E :=
  if s.has e then s
  else
    { elements := s.elements.insert (Element.key e) e
      added := s.added.insert (Element.key e) () }

/-- The set with an element, and whether the element is new. -/
def addNew (e : E) (s : GrowSet E) : Bool × GrowSet E := (!s.has e, s.add e)

/-- The set with several elements. -/
def addAll (es : List E) (s : GrowSet E) : GrowSet E := es.foldl (fun s e => s.add e) s

/-- The pending additions; there have to be some unless the harvest is an initial one. -/
def harvest (initial : Bool) (s : GrowSet E) : Option GrowSetDelta × GrowSet E :=
  if s.added.isEmpty && !initial then (none, s)
  else (some ⟨stagedPayloads s.added s.elements⟩, { s with added := ∅ })

/-- One element of a delta enters the contents, in place of an equal one. -/
def mergeElement (p : Payload) (m : FinMap Key E) : Outcome (FinMap Key E) :=
  .withResult (p.read Element.decode) m fun e => .done (m.insert (Element.key e) e)

/-- The set with the elements of a delta. -/
def merge (d : GrowSetDelta) (s : GrowSet E) : Outcome (GrowSet E) :=
  (Outcome.each mergeElement d.added s.elements).map fun m => { s with elements := m }

end GrowSet

instance : DeltaForm GrowSetDelta where
  kind := .growSet
  wrap := .growSet
  unwrap?
    | .growSet d => some d
    | _ => none
  unwrap?_eq_some_iff {d e} := by cases d <;> simp
  kind_wrap _ := rfl

instance {E : Type} [Element E] : Tracked (GrowSet E) GrowSetDelta where
  harvest := GrowSet.harvest
  merge := GrowSet.merge
  create _ := .ok {}

/-- A harvest hands over the staged additions, unless there are none and it is not an initial
one. -/
theorem GrowSet.harvest_cases {E : Type} [Element E] (initial : Bool) (s : GrowSet E) :
    (initial = true ∨ s.added ≠ ∅) ∧ Tracked.harvest initial s =
        (some ⟨stagedPayloads s.added s.elements⟩, { s with added := ∅ }) ∨
      s.added = ∅ ∧ initial = false ∧ Tracked.harvest initial s = (none, s) := by
  simp only [Tracked.harvest, harvest]
  split
  · next h =>
      simp only [Bool.and_eq_true, Bool.not_eq_true', FinMap.isEmpty_iff] at h
      exact Or.inr ⟨h.1, h.2, rfl⟩
  · next h =>
      refine Or.inl ⟨Classical.byContradiction fun hnone => h ?_, rfl⟩
      simp only [not_or, Bool.not_eq_true, ne_eq, Classical.not_not] at hnone
      rw [hnone.1, hnone.2]
      rfl

theorem GrowSet.elements_harvest {E : Type} [Element E] (initial : Bool) (s : GrowSet E) :
    (Tracked.harvest (δ := GrowSetDelta) initial s).2.elements = s.elements := by
  rcases harvest_cases initial s with ⟨-, h⟩ | ⟨-, -, h⟩ <;> rw [h]

end DeltaReplica
