import DeltaReplica.FinMap

/-!
# The order of finite maps

Every operation keeps the keys of a map strictly increasing.  Ordered maps are
determined by what looking up finds in them (`Ordered.ext`).

The last insertion of a key counts, and a binding that is there is replaced where it
stands.
-/

namespace DeltaReplica

namespace FinMap

variable {κ α β : Type}

section Order

variable [LT κ]

@[simp]
theorem ordered_empty : (∅ : FinMap κ α).Ordered := List.Pairwise.nil

theorem Ordered.map {m : FinMap κ α} (h : m.Ordered) (f : κ → α → β) : (m.map f).Ordered := by
  rw [Ordered, entries_map, List.pairwise_map]
  exact h

theorem Ordered.erase [DecidableEq κ] {m : FinMap κ α} (h : m.Ordered) (k : κ) :
    (m.erase k).Ordered :=
  List.Pairwise.filter _ h

variable [LawfulLT κ]

theorem Ordered.nodup {m : FinMap κ α} (h : m.Ordered) : m.entries.Nodup :=
  h.imp fun hlt e => LawfulLT.ne_of_lt hlt (congrArg Prod.fst e)

theorem Ordered.nodup_keys {m : FinMap κ α} (h : m.Ordered) : m.keys.Nodup :=
  List.pairwise_map.mpr (h.imp LawfulLT.ne_of_lt)

theorem Ordered.find?_eq_some_iff [DecidableEq κ] {m : FinMap κ α} (h : m.Ordered) {k : κ}
    {a : α} : m.find? k = some a ↔ (k, a) ∈ m.entries := by
  obtain ⟨es⟩ := m
  induction es with
  | nil => simp [find?]
  | cons e es ih =>
    obtain ⟨hlt, hes⟩ := List.pairwise_cons.mp h
    have ih : find? ⟨es⟩ k = some a ↔ (k, a) ∈ es := ih hes
    simp only [find?] at ih ⊢
    by_cases he : e.1 = k
    · subst he
      have hne : (e.1, a) ∉ es := fun hm => LawfulLT.irrefl _ (hlt (e.1, a) hm)
      simp [hne, Prod.ext_iff, eq_comm]
    · have hne : (k, a) ≠ e := fun hm => he (by simp [← hm])
      simp [he, hne, ih]

/-- Ordered maps that hold the same bindings are equal. -/
theorem Ordered.ext [DecidableEq κ] {m m' : FinMap κ α} (h : m.Ordered) (h' : m'.Ordered)
    (hf : ∀ k, m.find? k = m'.find? k) : m = m' := by
  have hp : m.entries.Perm m'.entries := by
    rw [List.perm_ext_iff_of_nodup h.nodup h'.nodup]
    intro e
    rw [← h.find?_eq_some_iff, ← h'.find?_eq_some_iff, hf]
  have he : m.entries = m'.entries :=
    hp.eq_of_pairwise (fun _ _ _ _ hlt hgt => absurd hgt (LawfulLT.asymm hlt)) h h'
  cases m
  cases m'
  exact congrArg mk he

variable [DecidableLT κ]

theorem Ordered.insert {m : FinMap κ α} (h : m.Ordered) (k : κ) (a : α) :
    (m.insert k a).Ordered := by
  refine List.pairwise_append.mpr
    ⟨h.filter _, List.pairwise_cons.mpr ⟨?_, List.Pairwise.filter _ h⟩, ?_⟩
  · intro e he
    simpa using (List.mem_filter.mp he).2
  · intro e he e' he'
    have hk : e.1 < k := by simpa using (List.mem_filter.mp he).2
    rcases List.mem_cons.mp he' with rfl | he'
    · exact hk
    · exact LawfulLT.trans hk (by simpa using (List.mem_filter.mp he').2)

theorem ordered_ofList (bs : List (κ × α)) : (ofList bs).Ordered := by
  suffices h : ∀ m : FinMap κ α, m.Ordered →
      (bs.foldl (fun m b => m.insert b.1 b.2) m).Ordered from h ∅ ordered_empty
  induction bs with
  | nil => exact fun _ h => h
  | cons b bs ih => exact fun m h => ih _ (h.insert b.1 b.2)

/-- Making a binding that is there is no change. -/
theorem Ordered.insert_of_find? [DecidableEq κ] {m : FinMap κ α} (h : m.Ordered) {k : κ} {a : α}
    (hf : m.find? k = some a) : m.insert k a = m := by
  refine (h.insert k a).ext h fun k' => ?_
  by_cases hk : k' = k
  · rw [hk, find?_insert_self, hf]
  · exact find?_insert_of_ne m a hk

/-- A binding that is there is replaced where it stands. -/
theorem insert_append_cons {before after : List (κ × α)} {k : κ} {a : α}
    (h : Ordered (⟨before ++ (k, a) :: after⟩ : FinMap κ α)) (b : α) :
    insert (⟨before ++ (k, a) :: after⟩ : FinMap κ α) k b = ⟨before ++ (k, b) :: after⟩ := by
  obtain ⟨-, hcons, hbefore⟩ := List.pairwise_append.mp h
  have hbelow : ∀ e ∈ before, e.1 < k := fun e he => hbefore e he (k, a) List.mem_cons_self
  have habove : ∀ e ∈ after, k < e.1 := (List.pairwise_cons.mp hcons).1
  have hlow : before.filter (fun e => e.1 < k) = before :=
    List.filter_eq_self.mpr fun e he => decide_eq_true (hbelow e he)
  have hlow' : after.filter (fun e => e.1 < k) = [] :=
    List.filter_eq_nil_iff.mpr fun e he => by simpa using LawfulLT.asymm (habove e he)
  have hhigh : before.filter (fun e => k < e.1) = [] :=
    List.filter_eq_nil_iff.mpr fun e he => by simpa using LawfulLT.asymm (hbelow e he)
  have hhigh' : after.filter (fun e => k < e.1) = after :=
    List.filter_eq_self.mpr fun e he => decide_eq_true (habove e he)
  simp [insert, hlow, hlow', hhigh, hhigh', LawfulLT.irrefl]

/-- Dropping a binding that was just made leaves the others. -/
theorem Ordered.erase_insert [DecidableEq κ] {m : FinMap κ α} (h : m.Ordered) (k : κ) (a : α) :
    (m.insert k a).erase k = m.erase k := by
  refine ((h.insert k a).erase k).ext (h.erase k) fun k' => ?_
  by_cases hk : k' = k
  · simp [hk]
  · rw [find?_erase_of_ne _ hk, find?_erase_of_ne _ hk, find?_insert_of_ne _ _ hk]

end Order

section Insert

variable [LT κ] [DecidableLT κ]

theorem map_insert (m : FinMap κ α) (k : κ) (a : α) (f : κ → α → β) :
    (m.insert k a).map f = (m.map f).insert k (f k a) := by
  simp [map, insert, List.filter_map, Function.comp_def]

variable [LawfulLT κ]

/-- The last of several bindings of one key counts. -/
@[simp]
theorem insert_insert (m : FinMap κ α) (k : κ) (a b : α) :
    (m.insert k a).insert k b = m.insert k b := by
  have apart (e : κ × α) : (decide (e.1 < k) && decide (k < e.1)) = false := by
    by_cases h : e.1 < k
    · simp [h, LawfulLT.asymm h]
    · simp [h]
  have apart' (e : κ × α) : (decide (k < e.1) && decide (e.1 < k)) = false := by
    rw [Bool.and_comm, apart]
  have none (es : List (κ × α)) : (es.filter fun _ => false) = [] := by simp
  simp [insert, apart, apart', none, LawfulLT.irrefl]

end Insert
end FinMap

end DeltaReplica
