import DeltaReplica.Proofs.Lookup

/-!
# What merging does to contents

A delta is merged item by item, and each item concerns one key.  This module says what a
list of items does to all look-ups at once: `dropAll_encode` for removals and
`each_entryDeltas` for the changes of values, where the keys of the items differ.
-/

namespace DeltaReplica

/-! ## Outcomes of several steps -/

namespace Outcome

variable {σ τ α β : Type}

theorem state_andThen {o : Outcome σ} {next : σ → Outcome σ} (h : o.failure = none) :
    (o.andThen next).state = (next o.state).state := by
  simp [andThen, after, h]

theorem andThen_assoc (o : Outcome σ) (f g : σ → Outcome σ) :
    (o.andThen f).andThen g = o.andThen fun s => (f s).andThen g := by
  cases h : o.failure with
  | some e => simp [andThen, h]
  | none => cases hf : (f o.state).failure <;> simp [andThen, after, h, hf]

@[simp]
theorem andThen_each_nil (o : Outcome σ) (step : α → σ → Outcome σ) :
    o.andThen (each step []) = o := by
  obtain ⟨s, notices, failure⟩ := o
  cases failure <;> simp [andThen, after, each, done]

@[simp]
theorem failure_after (notices : List Notice) (o : Outcome σ) :
    (o.after notices).failure = o.failure := rfl

@[simp]
theorem state_after (notices : List Notice) (o : Outcome σ) :
    (o.after notices).state = o.state := rfl

@[simp]
theorem withResult_ok (a : α) (s : σ) (next : α → Outcome σ) :
    withResult (.ok a) s next = next a := rfl

/-- What a change makes of a value that may be missing; a missing one is created first, and
stays missing if the change fails. -/
def meet (create : Except DeltaError σ) (apply : σ → Outcome σ) :
    Option σ → Outcome (Option σ)
  | some s => (apply s).map some
  | none => withResult create none fun s =>
    match (apply s).failure with
    | none => done (some (apply s).state)
    | some e => fail none e

/-- What a change makes of a value that may be missing, and stays missing if it is. -/
def touch (apply : σ → Outcome σ) : Option σ → Outcome (Option σ)
  | some s => (apply s).map some
  | none => done none

/-- What a change makes, if there is one. -/
def ifAny (act : α → σ → Outcome σ) : Option α → σ → Outcome σ
  | some a, s => act a s
  | none, s => done s

theorem meet_eq_done {create : Except DeltaError σ} {apply : σ → Outcome σ} {s : σ}
    (hcreate : create = .ok s) (hfailure : (apply s).failure = none) :
    meet create apply none = .done (some (apply s).state) := by
  simp [meet, hcreate, hfailure]

/-- A missing value that comes into being was created, and the change of it went through. -/
theorem exists_of_meet_ok {create : Except DeltaError σ} {apply : σ → Outcome σ}
    (h : (meet create apply none).failure = none) :
    ∃ s, create = .ok s ∧ (apply s).failure = none ∧
      meet create apply none = .done (some (apply s).state) := by
  cases hcreate : create with
  | error e => simp [meet, hcreate, withResult] at h
  | ok s =>
      cases hs : (apply s).failure with
      | some e => simp [meet, hcreate, hs] at h
      | none => exact ⟨s, rfl, hs, meet_eq_done rfl hs⟩

theorem failure_meet {create : Except DeltaError σ} {apply : σ → Outcome σ} {s : σ}
    (hcreate : create = .ok s) (happly : ∀ s, (apply s).failure = none) (old : Option σ) :
    (meet create apply old).failure = none := by
  cases old with
  | some old => exact happly old
  | none => simp [meet, hcreate, happly s]

theorem failure_touch {apply : σ → Outcome σ} (happly : ∀ s, (apply s).failure = none)
    (old : Option σ) : (touch apply old).failure = none := by
  cases old with
  | some old => exact happly old
  | none => rfl

theorem each_map (step : β → σ → Outcome σ) (f : α → β) (as : List α) (s : σ) :
    each step (as.map f) s = each (fun a => step (f a)) as s := by
  induction as generalizing s with
  | nil => rfl
  | cons a as ih =>
      have hnext : each step (as.map f) = each (fun a => step (f a)) as := funext ih
      rw [List.map_cons, each_cons, each_cons, hnext]

theorem each_append (step : α → σ → Outcome σ) (as bs : List α) (s : σ) :
    each step (as ++ bs) s = (each step as s).andThen (each step bs) := by
  induction as generalizing s with
  | nil => rfl
  | cons a as ih =>
      have hnext : each step (as ++ bs) = fun s => (each step as s).andThen (each step bs) :=
        funext ih
      rw [List.cons_append, each_cons, each_cons, hnext, andThen_assoc]

/-- What every step keeps, also one that fails, is kept by all of them. -/
theorem each_keeps {P : σ → Prop} {step : α → σ → Outcome σ} {as : List α}
    (h : ∀ a ∈ as, ∀ s, P s → P (step a s).state) {s : σ} (hs : P s) :
    P (each step as s).state := by
  induction as generalizing s with
  | nil => exact hs
  | cons a as ih =>
      have hfirst : P (step a s).state := h a List.mem_cons_self s hs
      rw [each_cons]
      cases hf : (step a s).failure with
      | none =>
          rw [state_andThen hf]
          exact ih (fun b hb => h b (List.mem_cons_of_mem a hb)) hfirst
      | some e =>
          have hstop : (step a s).andThen (each step as) = step a s := by
            simp [andThen, hf]
          rw [hstop]
          exact hfirst

theorem andThen_keeps {P : σ → Prop} {o : Outcome σ} {next : σ → Outcome σ} (ho : P o.state)
    (hnext : ∀ s, P s → P (next s).state) : P (o.andThen next).state := by
  cases hf : o.failure with
  | none =>
      rw [state_andThen hf]
      exact hnext _ ho
  | some e => simpa [andThen, hf] using ho

/-- Steps that never fail are a fold. -/
theorem each_of_forall_failure {step : α → σ → Outcome σ} (as : List α)
    (h : ∀ a ∈ as, ∀ s, (step a s).failure = none) (s : σ) :
    (each step as s).failure = none ∧
      (each step as s).state = as.foldl (fun s a => (step a s).state) s := by
  induction as generalizing s with
  | nil => exact ⟨rfl, rfl⟩
  | cons a as ih =>
      have ha : (step a s).failure = none := h a List.mem_cons_self s
      have hrest := ih (fun b hb => h b (List.mem_cons_of_mem a hb)) (step a s).state
      rw [each_cons, failure_andThen_eq_none_iff, state_andThen ha]
      exact ⟨⟨ha, hrest.1⟩, hrest.2⟩

end Outcome

@[simp]
theorem Payload.read_encode {α : Type} [Element α] [LawfulElement α] (a : α) :
    (Element.encode a).read (Element.decode (α := α)) = .ok a := by
  rw [read, LawfulElement.decode_encode]
  rfl

namespace Contents

variable {K V α : Type} [Element K]

/-! ## Removals -/

theorem find?_clearIf (cleared : Bool) (m : FinMap Key α) (ck : Key) :
    (clearIf cleared m).find? ck = if cleared then none else m.find? ck := by
  cases cleared <;> rfl

/-- Removals never fail when their payloads were written by `encode`; all they name is gone. -/
theorem dropAll_encode [LawfulElement K] (remark : Remark) (ks : List K) (m : FinMap Key α) :
    (dropAll K remark (ks.map Element.encode) m).failure = none ∧
      ∀ ck, (dropAll K remark (ks.map Element.encode) m).state.find? ck =
        if ck ∈ ks.map Element.key then none else m.find? ck := by
  have hstep (k : K) (m : FinMap Key α) :
      (drop K remark (Element.encode k) m).failure = none ∧
        (drop K remark (Element.encode k) m).state = m.erase (Element.key k) := by
    simp [drop]
  rw [dropAll, Outcome.each_map]
  have hall := Outcome.each_of_forall_failure ks (fun k _ m => (hstep k m).1) m
  refine ⟨hall.1, fun ck => ?_⟩
  rw [hall.2]
  have hfold : ks.foldl (fun m k => (drop K remark (Element.encode k) m).state) m =
      (ks.map Element.key).foldl (fun m ck => m.erase ck) m := by
    rw [List.foldl_map]
    congr 1
    funext m k
    exact (hstep k m).2
  rw [hfold, FinMap.find?_foldl_erase]

/-- What a map keeps when it loses a key is kept by removals, whatever they name. -/
theorem dropAll_keeps {P : FinMap Key α → Prop} (herase : ∀ m ck, P m → P (m.erase ck))
    (remark : Remark) (ps : List Payload) {m : FinMap Key α} (h : P m) :
    P (dropAll K remark ps m).state := by
  refine Outcome.each_keeps (fun p _ m hm => ?_) h
  unfold drop
  cases p.read (Element.decode (α := K)) with
  | ok k => exact herase m _ hm
  | error e => exact hm

/-! ## Changes of values -/

/-- A step that treats the value under one key as `act` says, and no other. -/
structure ActsAt (ck : Key) (act : Option V → Outcome (Option V))
    (step : Entries K V → Outcome (Entries K V)) : Prop where
  failure_eq : ∀ m, (step m).failure = (act (m.valueAt? ck)).failure
  valueAt?_self : ∀ m, (step m).state.valueAt? ck = (act (m.valueAt? ck)).state
  valueAt?_of_ne : ∀ m ck', ck' ≠ ck → (step m).state.valueAt? ck' = m.valueAt? ck'

section Steps

variable [LawfulElement K] {c : Change V} {k : K} {m : Entries K V}

theorem addOrAlter_of_find?_eq_some {present : Key → List Notice} (hc : c.key = Element.encode k)
    {e : K × V} (hf : m.find? (Element.key k) = some e) :
    addOrAlter present c m =
      (alter (Element.key k) e.1 e.2 c.apply m).after (present (Element.key k)) := by
  simp [addOrAlter, hc, hf]

theorem addOrAlter_of_find?_eq_none {present : Key → List Notice} (hc : c.key = Element.encode k)
    (hf : m.find? (Element.key k) = none) :
    addOrAlter present c m = introduce (Element.key k) k c m := by
  simp [addOrAlter, hc, hf]

theorem alterPresent_of_find?_eq_some {remark : Remark} (hc : c.key = Element.encode k)
    {e : K × V} (hf : m.find? (Element.key k) = some e) :
    alterPresent remark c m = alter (Element.key k) e.1 e.2 c.apply m := by
  simp [alterPresent, hc, hf]

theorem alterPresent_of_find?_eq_none {remark : Remark} (hc : c.key = Element.encode k)
    (hf : m.find? (Element.key k) = none) :
    alterPresent remark c m = { state := m, notices := [⟨remark, Element.key k⟩] } := by
  simp [alterPresent, hc, hf]

end Steps

omit [Element K] in
/-- A value enters a map just if a missing one is made by the change. -/
theorem introduce_spec (ck : Key) (k : K) (c : Change V) (m : Entries K V) :
    (introduce ck k c m).failure = (Outcome.meet c.create c.apply none).failure ∧
      (introduce ck k c m).state =
        (Outcome.meet c.create c.apply none).state.elim m fun v => m.insert ck (k, v) := by
  cases hcreate : c.create with
  | error e => simp [introduce, Outcome.meet, hcreate, Outcome.withResult]
  | ok v => cases hv : (c.apply v).failure <;> simp [introduce, Outcome.meet, hcreate, hv]

omit [Element K] in
/-- A fresh value is changed before it enters a map, and enters only if that goes through. -/
theorem introduce_cases (ck : Key) (k : K) (c : Change V) (m : Entries K V) :
    (introduce ck k c m).state = m ∨
      ∃ v, c.create = .ok v ∧ (c.apply v).failure = none ∧
        (introduce ck k c m).state = m.insert ck (k, (c.apply v).state) := by
  cases hcreate : c.create with
  | error e => exact Or.inl (by simp [introduce, hcreate, Outcome.withResult])
  | ok v =>
      cases hv : (c.apply v).failure with
      | none => exact Or.inr ⟨v, rfl, hv, by simp [introduce, hcreate, hv]⟩
      | some e => exact Or.inl (by simp [introduce, hcreate, hv])

/-- A change finds a value under the key that its element is read as, or creates one, or does
nothing. -/
theorem addOrAlter_cases (present : Key → List Notice) (c : Change V) (m : Entries K V) :
    (addOrAlter present c m).state = m ∨
      ∃ k : K, c.key.read Element.decode = .ok k ∧
        ((∃ e, m.find? (Element.key k) = some e ∧ (addOrAlter present c m).state =
            m.insert (Element.key k) (e.1, (c.apply e.2).state)) ∨
          ∃ v, c.create = .ok v ∧ (c.apply v).failure = none ∧ (addOrAlter present c m).state =
            m.insert (Element.key k) (k, (c.apply v).state)) := by
  unfold addOrAlter
  cases c.key.read (Element.decode (α := K)) with
  | error e => exact Or.inl rfl
  | ok k =>
      simp only [Outcome.withResult_ok]
      cases hf : m.find? (Element.key k) with
      | some e => exact Or.inr ⟨k, rfl, Or.inl ⟨e, hf, rfl⟩⟩
      | none =>
          rcases introduce_cases (Element.key k) k c m with hsame | hentered
          · exact Or.inl hsame
          · exact Or.inr ⟨k, rfl, Or.inr hentered⟩

/-- A change of a value that must be there finds it, or does nothing. -/
theorem alterPresent_cases (remark : Remark) (c : Change V) (m : Entries K V) :
    (alterPresent remark c m).state = m ∨
      ∃ ck e, m.find? ck = some e ∧
        (alterPresent remark c m).state = m.insert ck (e.1, (c.apply e.2).state) := by
  unfold alterPresent
  cases c.key.read (Element.decode (α := K)) with
  | error e => exact Or.inl rfl
  | ok k =>
      simp only [Outcome.withResult_ok]
      cases hf : m.find? (Element.key k) with
      | some e => exact Or.inr ⟨_, e, hf, rfl⟩
      | none => exact Or.inl rfl

theorem actsAt_addOrAlter [LawfulElement K] (present : Key → List Notice) {c : Change V}
    {k : K} (hc : c.key = Element.encode k) :
    ActsAt (K := K) (Element.key k) (.meet c.create c.apply) (addOrAlter present c) := by
  constructor
  · intro m
    rw [FinMap.valueAt?]
    cases hf : m.find? (Element.key k) with
    | some e => simp [addOrAlter_of_find?_eq_some hc hf, alter, Outcome.meet]
    | none =>
        rw [addOrAlter_of_find?_eq_none hc hf]
        exact (introduce_spec _ k c m).1
  · intro m
    cases hf : m.find? (Element.key k) with
    | some e =>
        simp [addOrAlter_of_find?_eq_some hc hf, alter, Outcome.meet, FinMap.valueAt?, hf]
    | none =>
        have hnone : m.valueAt? (Element.key k) = none := by simp [FinMap.valueAt?, hf]
        rw [addOrAlter_of_find?_eq_none hc hf, (introduce_spec _ k c m).2, hnone]
        cases (Outcome.meet c.create c.apply none).state <;> simp [hnone, FinMap.valueAt?_insert]
  · intro m ck hck
    cases hf : m.find? (Element.key k) with
    | some e => simp [addOrAlter_of_find?_eq_some hc hf, alter, FinMap.valueAt?_insert, hck]
    | none =>
        rw [addOrAlter_of_find?_eq_none hc hf, (introduce_spec _ k c m).2]
        cases (Outcome.meet c.create c.apply none).state <;> simp [FinMap.valueAt?_insert, hck]

theorem actsAt_alterPresent [LawfulElement K] (remark : Remark) {c : Change V} {k : K}
    (hc : c.key = Element.encode k) :
    ActsAt (K := K) (Element.key k) (.touch c.apply) (alterPresent remark c) := by
  constructor
  · intro m
    rw [FinMap.valueAt?]
    cases hf : m.find? (Element.key k) with
    | some e => simp [alterPresent_of_find?_eq_some hc hf, alter, Outcome.touch]
    | none => simp [alterPresent_of_find?_eq_none hc hf, Outcome.touch]
  · intro m
    cases hf : m.find? (Element.key k) with
    | some e =>
        simp [alterPresent_of_find?_eq_some hc hf, alter, Outcome.touch, FinMap.valueAt?, hf]
    | none => simp [alterPresent_of_find?_eq_none hc hf, Outcome.touch, FinMap.valueAt?, hf]
  · intro m ck hck
    cases hf : m.find? (Element.key k) with
    | some e => simp [alterPresent_of_find?_eq_some hc hf, alter, FinMap.valueAt?_insert, hck]
    | none => simp [alterPresent_of_find?_eq_none hc hf]

omit [Element K] in
/-- Steps at different keys do not meet: each finds what was there before all of them. -/
theorem each_actsAt {ι : Type} {at? : ι → Key} {act : ι → Option V → Outcome (Option V)}
    {step : ι → Entries K V → Outcome (Entries K V)} {is : List ι}
    (hstep : ∀ i ∈ is, ActsAt (at? i) (act i) (step i)) (hnodup : (is.map at?).Nodup)
    (m : Entries K V) (hok : ∀ i ∈ is, (act i (m.valueAt? (at? i))).failure = none) :
    (Outcome.each step is m).failure = none ∧
      (∀ i ∈ is, (Outcome.each step is m).state.valueAt? (at? i) =
        (act i (m.valueAt? (at? i))).state) ∧
      ∀ ck, ck ∉ is.map at? →
        (Outcome.each step is m).state.valueAt? ck = m.valueAt? ck := by
  induction is generalizing m with
  | nil => exact ⟨rfl, by simp, fun _ _ => rfl⟩
  | cons i is ih =>
      rw [List.map_cons, List.nodup_cons] at hnodup
      obtain ⟨hi, hnodup⟩ := hnodup
      have hact := hstep i List.mem_cons_self
      have hfailure : (step i m).failure = none := by
        rw [hact.failure_eq]
        exact hok i List.mem_cons_self
      have hfar (j : ι) (hj : j ∈ is) :
          (step i m).state.valueAt? (at? j) = m.valueAt? (at? j) := by
        apply hact.valueAt?_of_ne
        intro h
        exact hi (h ▸ List.mem_map_of_mem hj)
      obtain ⟨hrest, hrestAt, hrestFar⟩ :=
        ih (fun j hj => hstep j (List.mem_cons_of_mem i hj)) hnodup (step i m).state
          (fun j hj => by
            rw [hfar j hj]
            exact hok j (List.mem_cons_of_mem i hj))
      rw [Outcome.each_cons, Outcome.failure_andThen_eq_none_iff, Outcome.state_andThen hfailure]
      refine ⟨⟨hfailure, hrest⟩, ?_, ?_⟩
      · intro j hj
        rcases List.mem_cons.mp hj with rfl | hj
        · rw [hrestFar _ hi, hact.valueAt?_self]
        · rw [hrestAt j hj, hfar j hj]
      · intro ck hck
        rw [List.map_cons, List.mem_cons, not_or] at hck
        rw [hrestFar ck hck.2, hact.valueAt?_of_ne m ck hck.1]

/-! ## The entries of a delta -/

section EntryDeltas

variable {δ : Type}

/-- The items of a delta: those values of a map that have a delta, with their keys. -/
def entryDeltas (h : FinMap Key (K × Option δ)) : List (EntryDelta δ) :=
  h.values.filterMap fun (k, d) => d.map fun d => ⟨Element.encode k, d⟩

/-- The items of a delta beside the keys under which they stand. -/
def keyedDeltas (h : FinMap Key (K × Option δ)) : List (Key × K × δ) :=
  h.entries.filterMap fun (ck, k, d) => d.map fun d => (ck, k, d)

theorem entryDeltas_eq_map (h : FinMap Key (K × Option δ)) :
    entryDeltas h = (keyedDeltas h).map fun (_, k, d) => ⟨Element.encode k, d⟩ := by
  rw [entryDeltas, keyedDeltas, FinMap.values, List.filterMap_map, List.map_filterMap]
  congr 1
  funext e
  obtain ⟨ck, k, d⟩ := e
  cases d <;> rfl

omit [Element K] in
theorem mem_keyedDeltas_iff {h : FinMap Key (K × Option δ)} {ck : Key} {k : K} {d : δ} :
    (ck, k, d) ∈ keyedDeltas h ↔ (ck, k, some d) ∈ h.entries := by
  rw [keyedDeltas, List.mem_filterMap]
  constructor
  · rintro ⟨⟨ck', k', d'⟩, he, hd⟩
    obtain ⟨d'', rfl, heq⟩ := Option.map_eq_some_iff.mp hd
    cases heq
    exact he
  · intro he
    exact ⟨_, he, rfl⟩

theorem mem_entryDeltas {h : FinMap Key (K × Option δ)} {e : EntryDelta δ}
    (he : e ∈ entryDeltas h) :
    ∃ ck k d, (ck, k, some d) ∈ h.entries ∧ e = ⟨Element.encode k, d⟩ := by
  rw [entryDeltas_eq_map] at he
  obtain ⟨⟨ck, k, d⟩, hmem, rfl⟩ := List.mem_map.mp he
  exact ⟨ck, k, d, mem_keyedDeltas_iff.mp hmem, rfl⟩

theorem mem_entryDeltas_of_mem {h : FinMap Key (K × Option δ)} {ck : Key} {k : K} {d : δ}
    (hmem : (ck, k, some d) ∈ h.entries) : ⟨Element.encode k, d⟩ ∈ entryDeltas h := by
  rw [entryDeltas_eq_map]
  exact List.mem_map.mpr ⟨(ck, k, d), mem_keyedDeltas_iff.mpr hmem, rfl⟩

theorem entryDeltas_eq_nil {h : FinMap Key (K × Option δ)}
    (hnone : ∀ e ∈ h.entries, e.2.2 = none) : entryDeltas h = [] := by
  rw [List.eq_nil_iff_forall_not_mem]
  intro e he
  obtain ⟨ck, k, d, hmem, -⟩ := mem_entryDeltas he
  cases hnone _ hmem

/-- If only one value has a delta, there is just one item. -/
theorem entryDeltas_insert {h : FinMap Key (K × Option δ)}
    {ck : Key} (hothers : ∀ e ∈ h.entries, e.1 ≠ ck → e.2.2 = none) (k : K) (d : δ) :
    entryDeltas (h.insert ck (k, some d)) = [⟨Element.encode k, d⟩] := by
  have hnone (p : Key → Bool) (hp : ∀ ck', p ck' = true → ck' ≠ ck) :
      entryDeltas ⟨h.entries.filter fun e => p e.1⟩ = [] := by
    refine entryDeltas_eq_nil fun e he => ?_
    obtain ⟨hmem, hpe⟩ := List.mem_filter.mp he
    exact hothers e hmem (hp e.1 hpe)
  have hbelow := hnone (fun ck' => ck' < ck) fun ck' hlt =>
    LawfulLT.ne_of_lt (of_decide_eq_true hlt)
  have habove := hnone (fun ck' => ck < ck') fun ck' hlt =>
    (LawfulLT.ne_of_lt (of_decide_eq_true hlt)).symm
  simp only [entryDeltas, FinMap.values] at hbelow habove ⊢
  simp [FinMap.insert, hbelow, habove]

omit [Element K] in
theorem nodup_keyedDeltas {h : FinMap Key (K × Option δ)} (hord : h.Ordered) :
    ((keyedDeltas h).map Prod.fst).Nodup := by
  rw [List.Nodup, List.pairwise_map, keyedDeltas, List.pairwise_filterMap]
  refine hord.imp fun {e e'} hlt b hb b' hb' => ?_
  obtain ⟨d, -, rfl⟩ := Option.map_eq_some_iff.mp hb
  obtain ⟨d', -, rfl⟩ := Option.map_eq_some_iff.mp hb'
  exact LawfulLT.ne_of_lt hlt

/-- The items of a delta act each on what there is under its key, and nothing else is touched. -/
theorem each_entryDeltas {ι : Type} {h : FinMap Key (K × Option δ)}
    (hindexed : h.IndexedBy entryKey) (act : δ → Option V → Outcome (Option V))
    (f : EntryDelta δ → ι) (step : ι → Entries K V → Outcome (Entries K V))
    (hstep : ∀ (k : K) (d : δ),
      ActsAt (K := K) (Element.key k) (act d) (step (f ⟨Element.encode k, d⟩)))
    (m : Entries K V)
    (hok : ∀ ck, (Outcome.ifAny act (h.valueAt? ck).join (m.valueAt? ck)).failure = none) :
    (Outcome.each step ((entryDeltas h).map f) m).failure = none ∧
      ∀ ck, (Outcome.each step ((entryDeltas h).map f) m).state.valueAt? ck =
        (Outcome.ifAny act (h.valueAt? ck).join (m.valueAt? ck)).state := by
  have hmem (ck : Key) (k : K) (d : δ) : (ck, k, d) ∈ keyedDeltas h ↔
      h.find? ck = some (k, some d) := by
    rw [mem_keyedDeltas_iff, hindexed.ordered.find?_eq_some_iff]
  have hjoin {ck : Key} {k : K} {d : δ} (hmk : (ck, k, d) ∈ keyedDeltas h) :
      (h.valueAt? ck).join = some d := by
    simp [FinMap.valueAt?, (hmem ck k d).mp hmk]
  have hstepAt : ∀ i ∈ keyedDeltas h,
      ActsAt i.1 (act i.2.2) (step (f ⟨Element.encode i.2.1, i.2.2⟩)) := by
    intro i hi
    have hk : Element.key i.2.1 = i.1 := hindexed.key_of_find? ((hmem _ _ _).mp hi)
    rw [← hk]
    exact hstep i.2.1 i.2.2
  have hokAt : ∀ i ∈ keyedDeltas h, (act i.2.2 (m.valueAt? i.1)).failure = none := by
    intro i hi
    have hi' := hok i.1
    rw [hjoin hi] at hi'
    exact hi'
  obtain ⟨hfailure, hat, hfar⟩ :=
    each_actsAt hstepAt (nodup_keyedDeltas hindexed.ordered) m hokAt
  rw [entryDeltas_eq_map, List.map_map, Outcome.each_map]
  refine ⟨hfailure, fun ck => ?_⟩
  cases hck : (h.valueAt? ck).join with
  | some d =>
      obtain ⟨k, hk⟩ := FinMap.valueAt?_eq_some_iff.mp (Option.join_eq_some_iff.mp hck)
      exact hat (ck, k, d) ((hmem ck k d).mpr hk)
  | none =>
      apply hfar
      intro hmk
      obtain ⟨i, hi, rfl⟩ := List.mem_map.mp hmk
      rw [hjoin hi] at hck
      cases hck

end EntryDeltas

end Contents

end DeltaReplica
