import DeltaReplica.Data.Datum

/-!
# Local operations

The operations by which an application changes replicated data, as data, so that a
history of a replica can be spoken about.  Changing several elements at once is a
sequence of single changes and has no operation of its own.

For sets and maps, `add_cases`, `set_cases` and their like say once what an operation
can do to the contents and to what is staged.
-/

namespace DeltaReplica

/-- The operations on a counter. -/
inductive Counter.Op
  /-- Counting up. -/
  | increment (amount : Int64)
  /-- Counting down. -/
  | decrement (amount : Int64)

/-- The counter after an operation. -/
def Counter.Op.perform : Counter.Op → Counter → Counter
  | .increment n, c => c.increment n
  | .decrement n, c => c.decrement n

/-- The operations on a register. -/
inductive Register.Op (V : Type)
  /-- A write. -/
  | set (v : V) (stamp : Stamp)

/-- The register after an operation. -/
def Register.Op.perform {V : Type} : Register.Op V → Register V → Register V
  | .set v stamp, r => r.set v stamp

/-- The operations on a vote. -/
inductive Vote.Op
  /-- Casting a vote. -/
  | cast (vote : Bool)

/-- The state after an operation. -/
def Vote.Op.perform : Vote.Op → Vote → Vote
  | .cast b, v => v.cast b

/-- The operations on a set. -/
inductive AddRemoveSet.Op (E : Type)
  /-- Adding an element. -/
  | add (e : E)
  /-- Removing an element. -/
  | delete (e : E)
  /-- Removing all elements. -/
  | clear

/-- The set after an operation. -/
def AddRemoveSet.Op.perform {E : Type} [Element E] :
    AddRemoveSet.Op E → AddRemoveSet E → AddRemoveSet E
  | .add e, s => s.add e
  | .delete e, s => s.delete e
  | .clear, s => s.clear

section Maps

variable {K V : Type} [Element K]

/-- The operations on a map of counters. -/
inductive CounterMap.Op (K : Type)
  /-- Counting a key up. -/
  | increment (k : K) (amount : Int64)
  /-- Counting a key down. -/
  | decrement (k : K) (amount : Int64)
  /-- Removing a key. -/
  | delete (k : K)
  /-- Removing all keys. -/
  | clear

/-- The map after an operation. -/
def CounterMap.Op.perform : CounterMap.Op K → CounterMap K → CounterMap K
  | .increment k n, m => m.increment k n
  | .decrement k n, m => m.decrement k n
  | .delete k, m => UniformMap.delete k m
  | .clear, m => UniformMap.clear m

/-- The operations on a map of registers. -/
inductive RegisterMap.Op (K V : Type)
  /-- A write to the register of a key. -/
  | set (k : K) (v : V) (stamp : Stamp)
  /-- Removing a key. -/
  | delete (k : K)
  /-- Removing all keys. -/
  | clear

/-- The map after an operation. -/
def RegisterMap.Op.perform : RegisterMap.Op K V → RegisterMap K V → RegisterMap K V
  | .set k v stamp, m => m.set k v stamp
  | .delete k, m => UniformMap.delete k m
  | .clear, m => UniformMap.clear m

/-- The operations on a map of sets. -/
inductive MultiMap.Op (K V : Type)
  /-- Adding a value to a key. -/
  | put (k : K) (v : V)
  /-- Adding several values to a key. -/
  | putAll (k : K) (vs : List V)
  /-- Removing a value of a key. -/
  | deleteValue (k : K) (v : V)
  /-- Removing a key with all its values. -/
  | delete (k : K)
  /-- Removing all keys. -/
  | clear

/-- The map after an operation. -/
def MultiMap.Op.perform [Element V] : MultiMap.Op K V → MultiMap K V → MultiMap K V
  | .put k v, m => m.put k v
  | .putAll k vs, m => m.putAll k vs
  | .deleteValue k v, m => m.deleteValue k v
  | .delete k, m => UniformMap.delete k m
  | .clear, m => UniformMap.clear m

/-- The operations on a map to replicated data. -/
inductive DataMap.Op (K V : Type)
  /-- Giving a key a value. -/
  | set (k : K) (v : V)
  /-- Reaching for a key, which may supply it with a value. -/
  | reach (k : K)
  /-- Changing the value of a key in place. -/
  | adjust (k : K) (f : V → V)
  /-- Removing a key. -/
  | delete (k : K)
  /-- Removing all keys. -/
  | clear

/-- The map after an operation. -/
def DataMap.Op.perform : DataMap.Op K V → DataMap K V → DataMap K V
  | .set k v, m => (m.set k v).result
  | .reach k, m => (m.reach k).result
  | .adjust k f, m => m.adjust k f
  | .delete k, m => m.delete k
  | .clear, m => m.clear

end Maps

/-! ## What an operation can do -/

namespace GrowSet

variable {E : Type} [Element E]

/-- An element that is missing is staged as added. -/
theorem add_cases (e : E) (s : GrowSet E) :
    s.has e = true ∧ s.add e = s ∨
      s.add e = { elements := s.elements.insert (Element.key e) e
                  added := s.added.insert (Element.key e) () } := by
  by_cases h : s.has e = true
  · exact Or.inl ⟨h, if_pos h⟩
  · exact Or.inr (if_neg h)

end GrowSet

namespace AddRemoveSet

variable {E : Type}

theorem clear_cases (s : AddRemoveSet E) : s.clear = s ∨ s.clear = { cleared := true } := by
  by_cases he : s.isEmpty
  · exact Or.inl (by simp [clear, he])
  · exact Or.inr (by simp [clear, he])

variable [Element E]

/-- An element that is missing is staged as added, unless this undoes a removal. -/
theorem add_cases (e : E) (s : AddRemoveSet E) :
    s.add e = s ∨
      s.elements.contains (Element.key e) = false ∧
        s.add e =
          { s with
            elements := s.elements.insert (Element.key e) e
            removed := s.removed.erase (Element.key e)
            added := if s.removed.contains (Element.key e) then s.added
              else s.added.insert (Element.key e) () } := by
  by_cases hc : s.elements.contains (Element.key e) = true
  · exact Or.inl (by simp [add, hc])
  · rw [Bool.not_eq_true] at hc
    exact Or.inr ⟨hc, by simp [add, hc]⟩

/-- An element that is there is staged as removed, unless this undoes an addition; the last one of a
set is removed by clearing the set. -/
theorem delete_cases (e : E) (s : AddRemoveSet E) :
    s.delete e = s ∨ s.delete e = s.clear ∨
      ∃ stored, s.elements.find? (Element.key e) = some stored ∧
        s.delete e =
          { s with
            elements := s.elements.erase (Element.key e)
            added := s.added.erase (Element.key e)
            removed := if s.added.contains (Element.key e) then s.removed
              else s.removed.insert (Element.key e) stored } := by
  cases hf : s.elements.find? (Element.key e) with
  | none => exact Or.inl (by simp [delete, hf])
  | some stored =>
      by_cases hsize : s.size = 1
      · exact Or.inr (Or.inl (by simp [delete, hf, hsize]))
      · exact Or.inr (Or.inr ⟨stored, rfl, by simp [delete, hf, hsize]⟩)

end AddRemoveSet

namespace UniformMap

variable {K V : Type}

theorem clear_cases (m : UniformMap K V) : m.clear = m ∨ m.clear = { cleared := true } := by
  by_cases he : m.isEmpty
  · exact Or.inl (by simp [clear, he])
  · exact Or.inr (by simp [clear, he])

variable [Element K]

/-- The removal of a key that is there is staged. -/
theorem delete_cases (k : K) (m : UniformMap K V) :
    m.has k = false ∧ m.delete k = m ∨
      ∃ e, m.entries.find? (Element.key k) = some e ∧
        m.delete k =
          { m with
            entries := m.entries.erase (Element.key k)
            removed := m.removed.insert (Element.key k) e.1 } := by
  cases hf : m.entries.find? (Element.key k) with
  | none => exact Or.inl ⟨FinMap.find?_eq_none_iff.mp hf, by simp [delete, hf]⟩
  | some e => exact Or.inr ⟨e, rfl, by simp [delete, hf]⟩

end UniformMap

namespace DataMap

variable {K V : Type}

theorem clear_cases (m : DataMap K V) :
    m.clear = m ∨ m.clear = { cleared := true, supply := m.supply } := by
  by_cases he : m.isEmpty
  · exact Or.inl (by simp [clear, he])
  · exact Or.inr (by simp [clear, he])

variable [Element K]

/-- A missing key is staged as added, and so is one whose value the peers know, after the removal of
the old value. -/
theorem set_cases (k : K) (v : V) (m : DataMap K V) :
    m.entries.contains (Element.key k) = false ∧
        (m.set k v).result =
          { m with
            entries := m.entries.insert (Element.key k) (k, v)
            removed := m.removed.erase (Element.key k)
            added := m.added.insert (Element.key k) () } ∨
      m.added.contains (Element.key k) = false ∧
        (m.set k v).result =
          { m with
            entries := m.entries.insert (Element.key k) (k, v)
            removed := m.removed.insert (Element.key k) k
            added := m.added.insert (Element.key k) () } ∨
      m.added.contains (Element.key k) = true ∧
        (m.set k v).result =
          { m with entries := m.entries.insert (Element.key k) (k, v) } := by
  cases hc : m.entries.contains (Element.key k) with
  | false => exact Or.inl ⟨rfl, by simp [set, hc]⟩
  | true =>
      cases ha : m.added.contains (Element.key k) with
      | false => exact Or.inr (Or.inl ⟨rfl, by simp [set, hc, ha]⟩)
      | true => exact Or.inr (Or.inr ⟨rfl, by simp [set, hc, ha]⟩)

/-- Reaching for a key changes nothing, or gives a missing key the value that is supplied for it. -/
theorem reach_cases (k : K) (m : DataMap K V) :
    (m.reach k).result = m ∨
      ∃ f n, m.supply = some f ∧ f k = some n ∧ m.has k = false ∧
        (m.reach k).result = (m.set k n.result).result := by
  unfold DataMap.reach
  split
  · exact Or.inl rfl
  · next hk =>
      split
      · next n hn =>
          obtain ⟨f, hf, hfk⟩ := Option.bind_eq_some_iff.mp hn
          exact Or.inr ⟨f, n, hf, hfk, by simpa using hk, rfl⟩
      · exact Or.inl rfl

theorem adjust_cases (k : K) (f : V → V) (m : DataMap K V) :
    m.adjust k f = m ∨
      ∃ e, m.entries.find? (Element.key k) = some e ∧
        m.adjust k f =
          { m with entries := m.entries.insert (Element.key k) (e.1, f e.2) } := by
  cases hf : m.entries.find? (Element.key k) with
  | none => exact Or.inl (by simp [adjust, hf])
  | some e => exact Or.inr ⟨e, rfl, by simp [adjust, hf]⟩

/-- The removal of a key that is there is staged, unless this undoes an addition. -/
theorem delete_cases (k : K) (m : DataMap K V) :
    m.delete k = m ∨
      ∃ e, m.entries.find? (Element.key k) = some e ∧
        m.delete k =
          { m with
            entries := m.entries.erase (Element.key k)
            added := m.added.erase (Element.key k)
            removed := if m.added.contains (Element.key k) then m.removed
              else m.removed.insert (Element.key k) e.1 } := by
  cases hf : m.entries.find? (Element.key k) with
  | none => exact Or.inl (by simp [delete, hf])
  | some e => exact Or.inr ⟨e, rfl, by simp [delete, hf]⟩

end DataMap

end DeltaReplica
