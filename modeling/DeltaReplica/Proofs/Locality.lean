import DeltaReplica.Proofs.Merging

/-!
# Deltas key by key

Each item of a delta concerns one key, and what a list of items leaves under a key depends
on the items for that key alone, in their order.  `Contents.find?_each_step` reads the
contents after all items off, and `Contents.failure_each_step` says that nothing but an
item for some key can fail.

An item that cannot be read counts as one for an arbitrary key, where it fails.
-/

namespace DeltaReplica

namespace Contents

variable {K V α β : Type}

/-- A step that treats what there is under one key as `act` says, and nothing else. -/
structure Local (ck : Key) (act : Option α → Outcome (Option α))
    (step : FinMap Key α → Outcome (FinMap Key α)) : Prop where
  failure_eq : ∀ m, (step m).failure = (act (m.find? ck)).failure
  find?_self : ∀ m, (step m).failure = none → (step m).state.find? ck = (act (m.find? ck)).state
  find?_of_ne : ∀ m ck', ck' ≠ ck → (step m).state.find? ck' = m.find? ck'
  ordered : ∀ m, m.Ordered → (step m).state.Ordered

/-- An item of a delta: the key that it concerns, and what it does. -/
structure Item (α : Type) where
  /-- The key. -/
  key : Key
  /-- What the item makes of what there is under the key. -/
  act : Option α → Outcome (Option α)
  /-- What the item makes of all contents. -/
  step : FinMap Key α → Outcome (FinMap Key α)
  /-- The item does nothing to other keys. -/
  isLocal : Local key act step

namespace Item

/-- An item that cannot be read. -/
def refused (e : DeltaError) : Item α where
  key := default
  act _ := .fail none e
  step m := .fail m e
  isLocal :=
    { failure_eq := fun _ => rfl
      find?_self := fun _ h => absurd h (Option.some_ne_none e)
      find?_of_ne := fun _ _ _ => rfl
      ordered := fun _ h => h }

/-- An item whose key has to be read. -/
def ofRead (r : Except DeltaError β) (f : β → Item α) : Item α :=
  match r with
  | .ok b => f b
  | .error e => refused e

/-- A removal. -/
def drop (ck : Key) (notices : FinMap Key α → List Notice) : Item α where
  key := ck
  act _ := .done none
  step m := { state := m.erase ck, notices := notices m }
  isLocal :=
    { failure_eq := fun _ => rfl
      find?_self := fun m _ => m.find?_erase_self ck
      find?_of_ne := fun m _ h => m.find?_erase_of_ne h
      ordered := fun _ h => h.erase ck }

/-- A binding, in place of an earlier one. -/
def bind (ck : Key) (a : α) (notices : FinMap Key α → List Notice) : Item α where
  key := ck
  act _ := .done (some a)
  step m := { state := m.insert ck a, notices := notices m }
  isLocal :=
    { failure_eq := fun _ => rfl
      find?_self := fun m _ => m.find?_insert_self ck a
      find?_of_ne := fun m _ h => m.find?_insert_of_ne a h
      ordered := fun _ h => h.insert ck a }

/-- A change of the value of a key, which is created if it is missing. -/
def enter (present : Key → List Notice) (k : K) [Element K] (c : Change V) : Item (K × V) where
  key := Element.key k
  act
    | some (k', v) => (c.apply v).map fun v' => some (k', v')
    | none => (Outcome.meet c.create c.apply none).map (Option.map fun v => (k, v))
  step m :=
    match m.find? (Element.key k) with
    | some (k', v) => (alter (Element.key k) k' v c.apply m).after (present (Element.key k))
    | none => introduce (Element.key k) k c m
  isLocal := by
    constructor
    · intro m
      cases hf : m.find? (Element.key k) with
      | some e => rfl
      | none => exact (introduce_spec _ k c m).1
    · intro m _
      cases hf : m.find? (Element.key k) with
      | some e => simp [alter]
      | none =>
          simp only [(introduce_spec _ k c m).2, Outcome.state_map]
          cases (Outcome.meet c.create c.apply none).state <;> simp [hf]
    · intro m ck hck
      cases hf : m.find? (Element.key k) with
      | some e => exact m.find?_insert_of_ne _ hck
      | none =>
          simp only [(introduce_spec _ k c m).2]
          cases (Outcome.meet c.create c.apply none).state with
          | none => rfl
          | some v => exact m.find?_insert_of_ne _ hck
    · intro m hm
      cases hf : m.find? (Element.key k) with
      | some e => exact hm.insert _ _
      | none =>
          simp only [(introduce_spec _ k c m).2]
          cases (Outcome.meet c.create c.apply none).state with
          | none => exact hm
          | some v => exact hm.insert _ _

/-- A change of the value of a key, if there is one. -/
def touch (remark : Remark) (k : K) [Element K] (c : Change V) : Item (K × V) where
  key := Element.key k
  act
    | some (k', v) => (c.apply v).map fun v' => some (k', v')
    | none => .done none
  step m :=
    match m.find? (Element.key k) with
    | some (k', v) => alter (Element.key k) k' v c.apply m
    | none => { state := m, notices := [⟨remark, Element.key k⟩] }
  isLocal := by
    constructor
    · intro m
      cases hf : m.find? (Element.key k) with
      | some e => rfl
      | none => rfl
    · intro m hok
      cases hf : m.find? (Element.key k) with
      | some e => simp [alter]
      | none => simpa using hf
    · intro m ck hck
      cases hf : m.find? (Element.key k) with
      | some e => exact m.find?_insert_of_ne _ hck
      | none => rfl
    · intro m hm
      cases hf : m.find? (Element.key k) with
      | some e => exact hm.insert _ _
      | none => exact hm

section Reading

variable (K : Type) [Element K]

/-- An element in a delta that drops what is indexed by it. -/
def dropped (remark : Remark) (p : Payload) : Item α :=
  ofRead (p.read (Element.decode (α := K))) fun k =>
    drop (Element.key k) fun m =>
      if m.contains (Element.key k) then [] else [⟨remark, Element.key k⟩]

/-- An element in a delta that is bound under its key. -/
def bound (notices : α → FinMap Key α → List Notice) [Element α] (p : Payload) : Item α :=
  ofRead (p.read Element.decode) fun a => bind (Element.key a) a (notices a)

/-- An entry of a delta for a value that is created if it is missing. -/
def entered (present : Key → List Notice) (c : Change V) : Item (K × V) :=
  ofRead (c.key.read (Element.decode (α := K))) fun k => enter present k c

/-- An entry of a delta for a value that has to be there. -/
def touched (remark : Remark) (c : Change V) : Item (K × V) :=
  ofRead (c.key.read (Element.decode (α := K))) fun k => touch remark k c

end Reading

end Item

/-! ## Many items -/

/-- The items of a list for one key. -/
def itemsAt (ck : Key) (is : List (Item α)) : List (Item α) := is.filter fun i => i.key = ck

theorem itemsAt_cons_of_eq {ck : Key} {i : Item α} (h : i.key = ck) (is : List (Item α)) :
    itemsAt ck (i :: is) = i :: itemsAt ck is :=
  List.filter_cons_of_pos (by simpa using h)

theorem itemsAt_cons_of_ne {ck : Key} {i : Item α} (h : i.key ≠ ck) (is : List (Item α)) :
    itemsAt ck (i :: is) = itemsAt ck is :=
  List.filter_cons_of_neg (by simpa using h)

theorem itemsAt_append (ck : Key) (is js : List (Item α)) :
    itemsAt ck (is ++ js) = itemsAt ck is ++ itemsAt ck js :=
  List.filter_append ..

theorem mem_itemsAt_iff {ck : Key} {i : Item α} {is : List (Item α)} :
    i ∈ itemsAt ck is ↔ i ∈ is ∧ i.key = ck := by
  simp [itemsAt]

/-- Of items for different keys there is at most one for each key. -/
theorem itemsAt_eq_nil_or_singleton {is : List (Item α)}
    (hapart : is.Pairwise fun i j => i.key ≠ j.key) (ck : Key) :
    itemsAt ck is = [] ∨ ∃ i ∈ is, i.key = ck ∧ itemsAt ck is = [i] := by
  have hpairwise : (itemsAt ck is).Pairwise fun i j => i.key ≠ j.key := hapart.filter _
  have hmem (i : Item α) (hi : i ∈ itemsAt ck is) : i ∈ is ∧ i.key = ck := mem_itemsAt_iff.mp hi
  match hat : itemsAt ck is with
  | [] => exact Or.inl rfl
  | [i] =>
      obtain ⟨hi, hkey⟩ := hmem i (hat ▸ List.mem_cons_self)
      exact Or.inr ⟨i, hi, hkey, rfl⟩
  | i :: j :: is' =>
      rw [hat] at hpairwise hmem
      have hne := (List.pairwise_cons.mp hpairwise).1 j List.mem_cons_self
      have hi := (hmem i List.mem_cons_self).2
      have hj := (hmem j (List.mem_cons_of_mem _ List.mem_cons_self)).2
      exact absurd (hi.trans hj.symm) hne

theorem ordered_each_step (is : List (Item α)) {m : FinMap Key α} (hm : m.Ordered) :
    (Outcome.each Item.step is m).state.Ordered :=
  Outcome.each_keeps (fun i _ m hm => i.isLocal.ordered m hm) hm

/-- If items go through, then so do those for each key, and they leave under it what the items for it
make of what was there. -/
theorem find?_each_step {is : List (Item α)} {m : FinMap Key α}
    (h : (Outcome.each Item.step is m).failure = none) (ck : Key) :
    (Outcome.each Item.act (itemsAt ck is) (m.find? ck)).failure = none ∧
      (Outcome.each Item.step is m).state.find? ck =
        (Outcome.each Item.act (itemsAt ck is) (m.find? ck)).state := by
  induction is generalizing m with
  | nil => exact ⟨rfl, rfl⟩
  | cons i is ih =>
      rw [Outcome.each_cons, Outcome.failure_andThen_eq_none_iff] at h
      obtain ⟨hfirst, hrest⟩ := h
      obtain ⟨hok, hfind⟩ := ih hrest
      rw [Outcome.each_cons, Outcome.state_andThen hfirst]
      -- an item for another key leaves what is under `ck` to the remaining items
      by_cases hck : i.key = ck
      · have hact : (i.act (m.find? ck)).failure = none := by
          rw [← hck, ← i.isLocal.failure_eq, hfirst]
        have hself := i.isLocal.find?_self m hfirst
        rw [hck] at hself
        rw [hself] at hok hfind
        rw [itemsAt_cons_of_eq hck, Outcome.each_cons, Outcome.failure_andThen_eq_none_iff,
          Outcome.state_andThen hact]
        exact ⟨⟨hact, hok⟩, hfind⟩
      · rw [i.isLocal.find?_of_ne m ck (Ne.symm hck)] at hok hfind
        rw [itemsAt_cons_of_ne hck]
        exact ⟨hok, hfind⟩

/-- Items go through if those for each key do. -/
theorem failure_each_step {is : List (Item α)} {m : FinMap Key α}
    (h : ∀ ck, (Outcome.each Item.act (itemsAt ck is) (m.find? ck)).failure = none) :
    (Outcome.each Item.step is m).failure = none := by
  induction is generalizing m with
  | nil => rfl
  | cons i is ih =>
      have hself := h i.key
      rw [itemsAt_cons_of_eq rfl, Outcome.each_cons, Outcome.failure_andThen_eq_none_iff,
        ← i.isLocal.failure_eq] at hself
      obtain ⟨hfirst, hrest⟩ := hself
      refine Outcome.failure_andThen_eq_none_iff.mpr ⟨hfirst, ih fun ck => ?_⟩
      by_cases hck : i.key = ck
      · rw [← hck, i.isLocal.find?_self m hfirst]
        exact hrest
      · have hother := h ck
        rw [itemsAt_cons_of_ne hck] at hother
        rw [i.isLocal.find?_of_ne m ck (Ne.symm hck)]
        exact hother

/-! ## The items of deltas -/

variable [Element K]

theorem entered_of_read {present : Key → List Notice} {c : Change V} {k : K}
    (hk : c.key.read Element.decode = .ok k) :
    Item.entered K present c = Item.enter present k c := by
  rw [Item.entered, hk]
  rfl

theorem touched_of_read {remark : Remark} {c : Change V} {k : K}
    (hk : c.key.read Element.decode = .ok k) :
    Item.touched K remark c = Item.touch remark k c := by
  rw [Item.touched, hk]
  rfl

theorem dropAll_eq_each_step (remark : Remark) (ps : List Payload) (m : FinMap Key α) :
    dropAll K remark ps m = Outcome.each Item.step (ps.map (Item.dropped K remark)) m := by
  rw [Outcome.each_map, dropAll]
  congr 1
  funext p m
  unfold drop Item.dropped Item.ofRead
  cases p.read (Element.decode (α := K)) <;> rfl

theorem addOrAlter_eq_step (present : Key → List Notice) (c : Change V) (m : Entries K V) :
    addOrAlter present c m = (Item.entered K present c).step m := by
  unfold addOrAlter Item.entered Item.ofRead
  cases c.key.read (Element.decode (α := K)) <;> rfl

theorem alterPresent_eq_step (remark : Remark) (c : Change V) (m : Entries K V) :
    alterPresent remark c m = (Item.touched K remark c).step m := by
  unfold alterPresent Item.touched Item.ofRead
  cases c.key.read (Element.decode (α := K)) <;> rfl

theorem each_addOrAlter_eq_each_step (present : Key → List Notice) (cs : List (Change V))
    (m : Entries K V) :
    Outcome.each (addOrAlter present) cs m =
      Outcome.each Item.step (cs.map (Item.entered K present)) m := by
  rw [Outcome.each_map]
  congr 1
  funext c m
  exact addOrAlter_eq_step present c m

theorem each_alterPresent_eq_each_step (remark : Remark) (cs : List (Change V))
    (m : Entries K V) :
    Outcome.each (alterPresent remark) cs m =
      Outcome.each Item.step (cs.map (Item.touched K remark)) m := by
  rw [Outcome.each_map]
  congr 1
  funext c m
  exact alterPresent_eq_step remark c m

end Contents

end DeltaReplica
