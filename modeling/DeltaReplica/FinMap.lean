/-!
# Finite maps in key order

A finite map is an association list.  The operations keep its keys strictly
increasing, so two maps that hold the same bindings are the same list, and
whatever walks over a map visits it in key order.

Insertion and removal are written with `List.filter`, so that what a lookup finds
after them does not depend on the order of the bindings.
-/

namespace DeltaReplica

/-- A strict total order, as the keys of a finite map need it. -/
class LawfulLT (κ : Type) [LT κ] : Prop where
  /-- No key lies below itself. -/
  irrefl : ∀ a : κ, ¬a < a
  /-- The order is transitive. -/
  trans : ∀ {a b c : κ}, a < b → b < c → a < c
  /-- Keys that are not ordered are equal. -/
  trichotomy : ∀ a b : κ, a < b ∨ a = b ∨ b < a

namespace LawfulLT

variable {κ : Type} [LT κ] [LawfulLT κ]

theorem ne_of_lt {a b : κ} (h : a < b) : a ≠ b :=
  fun e => irrefl b (e ▸ h)

theorem asymm {a b : κ} (h : a < b) : ¬b < a :=
  fun h' => irrefl a (trans h h')

end LawfulLT

instance : LawfulLT String where
  irrefl := String.lt_irrefl
  trans := String.lt_trans
  trichotomy a b := by
    by_cases h : a < b
    · exact Or.inl h
    · by_cases h' : b < a
      · exact Or.inr (Or.inr h')
      · exact Or.inr (Or.inl (String.le_antisymm (String.not_lt.mp h') (String.not_lt.mp h)))

/-- A finite map from `κ` to `α`, as the list of its bindings in key order. -/
structure FinMap (κ α : Type) where
  /-- The bindings, by increasing key. -/
  entries : List (κ × α)

namespace FinMap

variable {κ α β : Type}

/-- The map without bindings. -/
def empty : FinMap κ α := ⟨[]⟩

instance : EmptyCollection (FinMap κ α) := ⟨empty⟩

instance : Inhabited (FinMap κ α) := ⟨empty⟩

/-- Whether there are no bindings. -/
def isEmpty (m : FinMap κ α) : Bool := m.entries.isEmpty

/-- How many bindings there are. -/
def size (m : FinMap κ α) : Nat := m.entries.length

/-- The keys in order. -/
def keys (m : FinMap κ α) : List κ := m.entries.map Prod.fst

/-- The bound values, in the order of their keys. -/
def values (m : FinMap κ α) : List α := m.entries.map Prod.snd

/-- Every value replaced by its image, which may depend on the key. -/
def map (f : κ → α → β) (m : FinMap κ α) : FinMap κ β :=
  ⟨m.entries.map fun (k, a) => (k, f k a)⟩

section Lookup

variable [DecidableEq κ]

/-- The value bound to a key. -/
def find? (m : FinMap κ α) (k : κ) : Option α :=
  (m.entries.find? fun e => e.1 = k).map Prod.snd

/-- Whether a key is bound. -/
def contains (m : FinMap κ α) (k : κ) : Bool :=
  m.entries.any fun e => e.1 = k

/-- The map without the binding of a key. -/
def erase (m : FinMap κ α) (k : κ) : FinMap κ α :=
  ⟨m.entries.filter fun e => e.1 ≠ k⟩

end Lookup

/-- The map with a key bound to a value, in place of an earlier binding. -/
def insert [LT κ] [DecidableLT κ] (m : FinMap κ α) (k : κ) (a : α) : FinMap κ α :=
  ⟨m.entries.filter (fun e => e.1 < k) ++ (k, a) :: m.entries.filter (fun e => k < e.1)⟩

/-- The map of a list of bindings, in which a later binding of a key wins. -/
def ofList [LT κ] [DecidableLT κ] (bs : List (κ × α)) : FinMap κ α :=
  bs.foldl (fun m b => m.insert b.1 b.2) ∅

/-- The keys are strictly increasing, as every operation leaves them. -/
def Ordered [LT κ] (m : FinMap κ α) : Prop :=
  m.entries.Pairwise fun e e' => e.1 < e'.1

@[simp]
theorem entries_empty : (∅ : FinMap κ α).entries = [] := rfl

@[simp]
theorem entries_map (f : κ → α → β) (m : FinMap κ α) :
    (m.map f).entries = m.entries.map fun e => (e.1, f e.1 e.2) := rfl

@[simp]
theorem keys_map (f : κ → α → β) (m : FinMap κ α) : (m.map f).keys = m.keys := by
  simp [keys, Function.comp_def]

@[simp]
theorem size_map (f : κ → α → β) (m : FinMap κ α) : (m.map f).size = m.size := by
  simp [size]

theorem isEmpty_iff {m : FinMap κ α} : m.isEmpty = true ↔ m = ∅ := by
  cases m with
  | mk es => cases es <;> simp [isEmpty, EmptyCollection.emptyCollection, empty]

section Lookup

variable [DecidableEq κ]

@[simp]
theorem find?_empty (k : κ) : (∅ : FinMap κ α).find? k = none := rfl

@[simp]
theorem contains_empty (k : κ) : (∅ : FinMap κ α).contains k = false := rfl

theorem contains_iff_mem_keys {m : FinMap κ α} {k : κ} : m.contains k = true ↔ k ∈ m.keys := by
  simp [contains, keys]

theorem contains_eq_isSome (m : FinMap κ α) (k : κ) : m.contains k = (m.find? k).isSome := by
  rw [Bool.eq_iff_iff]
  simp [contains, find?]

theorem find?_eq_none_iff {m : FinMap κ α} {k : κ} :
    m.find? k = none ↔ m.contains k = false := by
  simp [contains_eq_isSome]

theorem contains_of_find?_eq_some {m : FinMap κ α} {k : κ} {a : α} (h : m.find? k = some a) :
    m.contains k = true := by
  simp [contains_eq_isSome, h]

theorem find?_map (f : κ → α → β) (m : FinMap κ α) (k : κ) :
    (m.map f).find? k = (m.find? k).map (f k) := by
  obtain ⟨es⟩ := m
  simp only [find?, entries_map]
  induction es with
  | nil => rfl
  | cons e es ih => by_cases h : e.1 = k <;> simp_all

@[simp]
theorem contains_map (f : κ → α → β) (m : FinMap κ α) (k : κ) :
    (m.map f).contains k = m.contains k := by
  simp [contains_eq_isSome, find?_map]

@[simp]
theorem find?_erase_self (m : FinMap κ α) (k : κ) : (m.erase k).find? k = none := by
  simp [find?, erase]

theorem find?_erase_of_ne (m : FinMap κ α) {k k' : κ} (h : k' ≠ k) :
    (m.erase k).find? k' = m.find? k' := by
  obtain ⟨es⟩ := m
  simp only [find?, erase]
  induction es with
  | nil => rfl
  | cons e es ih => by_cases h₁ : e.1 = k <;> by_cases h₂ : e.1 = k' <;> simp_all

theorem contains_erase (m : FinMap κ α) (k k' : κ) :
    (m.erase k).contains k' = (decide (k' ≠ k) && m.contains k') := by
  by_cases h : k' = k
  · subst h
    simp [contains_eq_isSome]
  · simp [contains_eq_isSome, find?_erase_of_ne m h, h]

theorem erase_of_not_contains {m : FinMap κ α} {k : κ} (h : m.contains k = false) :
    m.erase k = m := by
  obtain ⟨es⟩ := m
  simp only [erase, mk.injEq, List.filter_eq_self]
  simpa [contains] using h

/-- Without its only binding a map is empty. -/
theorem erase_of_size_eq_one {m : FinMap κ α} {k : κ} (hs : m.size = 1)
    (h : m.contains k = true) : m.erase k = ∅ := by
  obtain ⟨es⟩ := m
  obtain ⟨e, rfl⟩ := List.length_eq_one_iff.mp hs
  have he : e.1 = k := by simpa [contains] using h
  simp [erase, he, EmptyCollection.emptyCollection, empty]

end Lookup

section Insert

variable [LT κ] [DecidableLT κ] [DecidableEq κ] [LawfulLT κ]

@[simp]
theorem find?_insert_self (m : FinMap κ α) (k : κ) (a : α) : (m.insert k a).find? k = some a := by
  have h : ∀ e ∈ m.entries.filter (fun e => e.1 < k), ¬e.1 = k := by
    intro e he
    exact LawfulLT.ne_of_lt (by simpa using (List.mem_filter.mp he).2)
  simp only [find?, insert, List.find?_append]
  rw [List.find?_eq_none.mpr (by simpa using h)]
  simp

theorem find?_insert_of_ne (m : FinMap κ α) {k k' : κ} (a : α) (h : k' ≠ k) :
    (m.insert k a).find? k' = m.find? k' := by
  have low (e : κ × α) :
      (decide (e.1 < k) && decide (e.1 = k')) = (decide (k' < k) && decide (e.1 = k')) := by
    by_cases he : e.1 = k' <;> simp [he]
  have high (e : κ × α) :
      (decide (k < e.1) && decide (e.1 = k')) = (decide (k < k') && decide (e.1 = k')) := by
    by_cases he : e.1 = k' <;> simp [he]
  have never : m.entries.find? (fun _ => false) = none := by simp [List.find?_eq_none]
  simp only [find?, insert, List.find?_append, List.find?_filter]
  rw [List.find?_cons_of_neg (by simpa using Ne.symm h)]
  rcases LawfulLT.trichotomy k' k with hk | hk | hk
  · simp [hk, LawfulLT.asymm hk, List.find?_filter, low, high, never]
  · exact absurd hk h
  · simp [hk, LawfulLT.asymm hk, List.find?_filter, low, high, never]

theorem contains_insert (m : FinMap κ α) (k k' : κ) (a : α) :
    (m.insert k a).contains k' = (decide (k' = k) || m.contains k') := by
  by_cases h : k' = k
  · subst h
    simp [contains_eq_isSome]
  · simp [contains_eq_isSome, find?_insert_of_ne m a h, h]

end Insert

end FinMap

end DeltaReplica
