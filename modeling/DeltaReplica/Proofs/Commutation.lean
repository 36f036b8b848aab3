import DeltaReplica.Proofs.Repetition
import DeltaReplica.Proofs.Sameness

/-!
# Deltas in any order

Deltas commute at a state if they lead to the same states in whatever order they go through.  As
one delta may have several entries for one key, two deltas of a map amount to a list of deltas for
each value, so the statement is about permutations of a list from the start.

A value that is missing is created by whichever delta comes first.  So deltas commute in a map if
they commute on its values, and if those of them that meet on a missing key create the same.
-/

namespace DeltaReplica

namespace Outcome

variable {σ τ α β : Type} {S : σ → σ → Prop} {step : α → σ → Outcome σ} {as : List α} {s : σ}

/-- If the steps go through in the order given and in another one, then they lead to related
states. -/
def Commute (step : α → σ → Outcome σ) (S : σ → σ → Prop) (as : List α) (s : σ) : Prop :=
  ∀ as', as.Perm as' → (each step as s).failure = none → (each step as' s).failure = none →
    S (each step as s).state (each step as' s).state

theorem map_andThen {f : σ → τ} {next : σ → Outcome σ} {next' : τ → Outcome τ}
    (h : ∀ s, next' (f s) = (next s).map f) (o : Outcome σ) :
    (o.map f).andThen next' = (o.andThen next).map f := by
  obtain ⟨s, notices, failure⟩ := o
  cases failure with
  | some e => rfl
  | none => simp [andThen, after, map, h]

theorem each_map_state {step' : α → τ → Outcome τ} {f : σ → τ}
    (h : ∀ a ∈ as, ∀ s, step' a (f s) = (step a s).map f) (s : σ) :
    each step' as (f s) = (each step as s).map f := by
  induction as generalizing s with
  | nil => rfl
  | cons a as ih =>
      rw [each_cons, each_cons, h a List.mem_cons_self]
      exact map_andThen (ih fun b hb => h b (List.mem_cons_of_mem a hb)) (step a s)

theorem each_flatMap {step' : β → σ → Outcome σ} {f : α → List β}
    (h : ∀ a ∈ as, ∀ s, step a s = each step' (f a) s) (s : σ) :
    each step as s = each step' (as.flatMap f) s := by
  induction as generalizing s with
  | nil => rfl
  | cons a as ih =>
      have hrest : each step as = each step' (as.flatMap f) :=
        funext (ih fun b hb => h b (List.mem_cons_of_mem a hb))
      rw [each_cons, List.flatMap_cons, each_append, h a List.mem_cons_self, hrest]

/-- Steps on a part of a state commute if they do so by themselves. -/
theorem Commute.map {S' : τ → τ → Prop} {step' : α → τ → Outcome τ} (h : Commute step S as s)
    (f : σ → τ) (hstep : ∀ a ∈ as, ∀ s, step' a (f s) = (step a s).map f)
    (hS : ∀ s s', S s s' → S' (f s) (f s')) : Commute step' S' as (f s) := by
  intro as' hperm hok hok'
  have hstep' : ∀ a ∈ as', ∀ s, step' a (f s) = (step a s).map f := by
    intro a ha
    exact hstep a (hperm.mem_iff.mpr ha)
  rw [each_map_state hstep] at hok ⊢
  rw [each_map_state hstep'] at hok' ⊢
  exact hS _ _ (h as' hperm hok hok')

/-- Steps that consist of smaller ones commute if the smaller ones do.  Steps that never go
through need not be looked at. -/
theorem Commute.of_flatMap {step' : β → σ → Outcome σ} (f : α → List β)
    (hstep : ∀ a ∈ as, (∃ s, (step a s).failure = none) → ∀ s, step a s = each step' (f a) s)
    (h : Commute step' S (as.flatMap f) s) : Commute step S as s := by
  intro as' hperm hok hok'
  have hsplit : ∀ a ∈ as, ∀ s, step a s = each step' (f a) s := by
    intro a ha
    exact hstep a ha (exists_of_each_ok hok ha)
  have hsplit' : ∀ a ∈ as', ∀ s, step a s = each step' (f a) s := by
    intro a ha
    exact hsplit a (hperm.mem_iff.mpr ha)
  rw [each_flatMap hsplit] at hok ⊢
  rw [each_flatMap hsplit'] at hok' ⊢
  exact h _ (hperm.flatMap_right f) hok hok'

theorem Commute.comp {step : β → σ → Outcome σ} (f : α → β) (h : Commute step S (as.map f) s) :
    Commute (fun a => step (f a)) S as s := by
  intro as' hperm hok hok'
  rw [← each_map step f] at hok hok' ⊢
  rw [← each_map step f]
  exact h _ (hperm.map f) hok hok'

/-- Steps that never fail commute if any two of them can be exchanged. -/
theorem commute_of_exchange (hok : ∀ a s, (step a s).failure = none)
    (hexchange : ∀ a b s, (step b (step a s).state).state = (step a (step b s).state).state)
    (as : List α) (s : σ) : Commute step Eq as s := by
  intro as' hperm _ _
  rw [(each_of_forall_failure as (fun a _ => hok a) s).2,
    (each_of_forall_failure as' (fun a _ => hok a) s).2]
  exact hperm.foldl_eq' (fun a _ b _ s => hexchange a b s) s

end Outcome

/-- Deltas of which those that fit a state commute there.  A state that one of them creates for
itself is the same as one that another creates, if that other goes through after it. -/
structure Commutes {σ δ : Type} (apply : δ → σ → Outcome σ) (create : δ → Except DeltaError σ)
    (Fits : δ → σ → Prop) (S : σ → σ → Prop) : Prop where
  commute : ∀ {ds s}, (∀ d ∈ ds, Fits d s) → Outcome.Commute apply S ds s
  create_eq : ∀ {ds d d' s s'}, create d = .ok s → create d' = .ok s' → Fits d s → Fits d' s' →
    d' ∈ ds → (Outcome.each apply ds s).failure = none → s = s'

namespace Commutes

variable {α σ δ : Type} {apply : δ → σ → Outcome σ} {create : δ → Except DeltaError σ}
  {Fits : δ → σ → Prop} {S : σ → σ → Prop}

theorem mono {Fits' : δ → σ → Prop} (h : Commutes apply create Fits S)
    (hfits : ∀ d s, Fits' d s → Fits d s) : Commutes apply create Fits' S := by
  constructor
  case commute =>
    intro ds s hds
    exact h.commute fun d hd => hfits d s (hds d hd)
  case create_eq =>
    intro ds d d' s s' hcreate hcreate' hd hd'
    exact h.create_eq hcreate hcreate' (hfits d s hd) (hfits d' s' hd')

/-- If no delta fits, there is nothing to exchange. -/
theorem of_none (apply : δ → σ → Outcome σ) (create : δ → Except DeltaError σ) (hS : ∀ s, S s s) :
    Commutes apply create (fun _ _ => False) S := by
  constructor
  case commute =>
    intro ds s hds ds' hperm _ _
    obtain rfl : ds = [] := List.eq_nil_iff_forall_not_mem.mpr hds
    rw [hperm.symm.eq_nil]
    exact hS s
  case create_eq =>
    intro ds d d' s s' _ _ hd
    exact hd.elim

theorem of_create {fresh : σ} (hcreate : ∀ d, create d = .ok fresh)
    (hcommute : ∀ {ds s}, (∀ d ∈ ds, Fits d s) → Outcome.Commute apply S ds s) :
    Commutes apply create Fits S := by
  refine ⟨hcommute, fun {_ d d' s s'} hs hs' _ _ _ _ => ?_⟩
  rw [hcreate] at hs hs'
  exact Except.ok.inj (hs.symm.trans hs')

theorem comp (h : Commutes apply create Fits S) (f : α → δ) :
    Commutes (fun a => apply (f a)) (fun a => create (f a)) (fun a s => Fits (f a) s) S := by
  constructor
  case commute =>
    intro as s hfits
    refine .comp f (h.commute fun d hd => ?_)
    obtain ⟨a, ha, rfl⟩ := List.mem_map.mp hd
    exact hfits a ha
  case create_eq =>
    intro as a a' s s' hcreate hcreate' hfits hfits' ha' hok
    rw [← Outcome.each_map apply f] at hok
    exact h.create_eq hcreate hcreate' hfits hfits' (List.mem_map_of_mem ha') hok

end Commutes

/-! ## Contents -/

namespace Contents

variable {K V α β δ : Type} {S : V → V → Prop}

/-- Items commute if those for each key do. -/
theorem commute_items (item : β → Item α) {R : Option α → Option α → Prop} {bs : List β}
    {m : FinMap Key α}
    (h : ∀ ck, Outcome.Commute (fun b => (item b).act) R (bs.filter fun b => (item b).key = ck)
      (m.find? ck)) :
    Outcome.Commute (fun b => (item b).step) (fun m m' => ∀ ck, R (m.find? ck) (m'.find? ck)) bs m := by
  intro bs' hperm hok hok' ck
  have hat (cs : List β) : Outcome.each Item.act (itemsAt ck (cs.map item)) =
      Outcome.each (fun b => (item b).act) (cs.filter fun b => (item b).key = ck) := by
    funext o
    rw [itemsAt, List.filter_map, Outcome.each_map]
    rfl
  rw [← Outcome.each_map (f := item)] at hok hok' ⊢
  rw [← Outcome.each_map (f := item)]
  obtain ⟨hitems, hfind⟩ := find?_each_step hok ck
  obtain ⟨hitems', hfind'⟩ := find?_each_step hok' ck
  rw [hat] at hitems hfind hitems' hfind'
  rw [hfind, hfind']
  exact h ck _ (hperm.filter _) hitems hitems'

/-- Elements that are bound by a delta are there afterwards, beside those that were there. -/
theorem isSome_each_bound [Element α] {notices : α → FinMap Key α → List Notice}
    {ps : List Payload} {o : Option α}
    (hok : (Outcome.each (fun p => (Item.bound notices p).act) ps o).failure = none) :
    (Outcome.each (fun p => (Item.bound notices p).act) ps o).state.isSome =
      (!ps.isEmpty || o.isSome) := by
  induction ps generalizing o with
  | nil => rfl
  | cons p ps ih =>
      rw [Outcome.each_cons, Outcome.failure_andThen_eq_none_iff] at hok
      obtain ⟨hfirst, hrest⟩ := hok
      rw [Outcome.each_cons, Outcome.state_andThen hfirst, ih hrest]
      unfold Item.bound at hfirst ⊢
      cases hp : p.read (Element.decode (α := α)) with
      | ok a => simp [Item.ofRead, Item.bind]
      | error e => simp [hp, Item.ofRead, Item.refused] at hfirst

theorem commute_bound [Element α] (notices : α → FinMap Key α → List Notice) (ps : List Payload)
    (m : FinMap Key α) :
    Outcome.Commute (fun p => (Item.bound notices p).step)
      (fun m m' => ∀ ck, m.contains ck = m'.contains ck) ps m := by
  have hkeys (ps : List Payload) (o : Option α) :
      Outcome.Commute (fun p => (Item.bound notices p).act) (fun o o' => o.isSome = o'.isSome) ps o := by
    intro ps' hperm hok hok'
    refine (isSome_each_bound hok).trans ?_
    rw [hperm.isEmpty_eq]
    exact (isSome_each_bound hok').symm
  intro ps' hperm hok hok' ck
  rw [FinMap.contains_eq_isSome, FinMap.contains_eq_isSome]
  exact commute_items (Item.bound notices) (fun ck => hkeys _ _) ps' hperm hok hok' ck

/-! ## Entries of a map -/

/-- An entry of a delta carries the delta of a value to what there is under its key, and to a fresh
value if there is nothing. -/
structure Item.Carries (apply : δ → V → Outcome V) (create : δ → Except DeltaError V)
    (Fits : δ → V → Prop) (e : EntryDelta δ × Item (K × V)) (o : Option (K × V)) : Prop where
  found : ∀ k v, e.2.act (some (k, v)) = (apply e.1.delta v).map fun v' => some (k, v')
  fits : ∀ k v, o = some (k, v) → Fits e.1.delta v
  missing : o = none → ∃ k, e.2.act none =
    (Outcome.meet (create e.1.delta) (apply e.1.delta) none).map (Option.map fun v => (k, v))
  fitsFresh : o = none → ∀ v, Fits e.1.delta v

variable {apply : δ → V → Outcome V} {create : δ → Except DeltaError V} {Fits : δ → V → Prop}

/-- The first of the entries for a missing key creates the value, which all of them then change. -/
theorem each_act_none {e : EntryDelta δ × Item (K × V)} {es : List (EntryDelta δ × Item (K × V))}
    (hes : ∀ e' ∈ e :: es, Item.Carries apply create Fits e' none)
    (hok : (Outcome.each (fun e => e.2.act) (e :: es) none).failure = none) :
    ∃ k v, create e.1.delta = .ok v ∧
      (Outcome.each (fun e => apply e.1.delta) (e :: es) v).failure = none ∧
      (Outcome.each (fun e => e.2.act) (e :: es) none).state =
        some (k, (Outcome.each (fun e => apply e.1.delta) (e :: es) v).state) := by
  obtain ⟨k, hact⟩ := (hes e List.mem_cons_self).missing rfl
  rw [Outcome.each_cons, hact] at hok ⊢
  obtain ⟨hfirst, -⟩ := Outcome.failure_andThen_eq_none_iff.mp hok
  rw [Outcome.failure_map] at hfirst
  obtain ⟨v, hcreate, hv, hmeet⟩ := Outcome.exists_of_meet_ok hfirst
  have hrest : Outcome.each (fun e => e.2.act) es (some (k, (apply e.1.delta v).state)) =
      (Outcome.each (fun e => apply e.1.delta) es (apply e.1.delta v).state).map
        fun v => some (k, v) :=
    Outcome.each_map_state (fun e' he' v => (hes e' (List.mem_cons_of_mem e he')).found k v) _
  have hentered : ((Outcome.done (some (apply e.1.delta v).state)).map
      (Option.map fun v => (k, v))).andThen (Outcome.each (fun e => e.2.act) es) =
        Outcome.each (fun e => e.2.act) es (some (k, (apply e.1.delta v).state)) := rfl
  rw [hmeet, hentered, hrest] at hok ⊢
  refine ⟨k, v, hcreate, ?_, ?_⟩
  · rw [Outcome.each_cons, Outcome.failure_andThen_eq_none_iff]
    exact ⟨hv, hok⟩
  · rw [Outcome.each_cons, Outcome.state_andThen hv]
    rfl

/-- Entries for one key commute if what they carry does. -/
theorem commute_carried (h : Commutes apply create Fits S)
    {es : List (EntryDelta δ × Item (K × V))} {o : Option (K × V)}
    (hes : ∀ e ∈ es, Item.Carries apply create Fits e o) :
    Outcome.Commute (fun e => e.2.act) (Option.Rel fun e e' => S e.2 e'.2) es o := by
  have hvalues := h.comp fun e : EntryDelta δ × Item (K × V) => e.1.delta
  cases o with
  | some e =>
      obtain ⟨k, v⟩ := e
      have hfits : ∀ e ∈ es, Fits e.1.delta v := fun e he => (hes e he).fits k v rfl
      exact (hvalues.commute hfits).map (fun v => some (k, v)) (fun e he v => (hes e he).found k v)
        fun _ _ hS => .some hS
  | none =>
      have hfits : ∀ e ∈ es, ∀ v, Fits e.1.delta v := fun e he => (hes e he).fitsFresh rfl
      intro es' hperm hok hok'
      cases es with
      | nil =>
          rw [hperm.symm.eq_nil]
          exact .none
      | cons e es =>
          cases es' with
          | nil => cases hperm.eq_nil
          | cons e' es' =>
              have hmem : e' ∈ e :: es := hperm.mem_iff.mpr List.mem_cons_self
              have hes' : ∀ i ∈ e' :: es', Item.Carries apply create Fits i none :=
                fun i hi => hes i (hperm.mem_iff.mpr hi)
              obtain ⟨k, v, hcreate, hall, hstate⟩ := each_act_none hes hok
              obtain ⟨k', v', hcreate', hall', hstate'⟩ := each_act_none hes' hok'
              -- whichever entry comes first, the value that it creates is the same
              obtain rfl : v = v' := hvalues.create_eq hcreate hcreate'
                (hfits e List.mem_cons_self v) (hfits e' hmem v') hmem hall
              rw [hstate, hstate']
              exact .some (hvalues.commute (fun i hi => hfits i hi v) _ hperm hall hall')

theorem Alike.of_find? {m m' : Entries K V}
    (h : ∀ ck, Option.Rel (fun e e' => S e.2 e'.2) (m.find? ck) (m'.find? ck)) : Alike S m m' := by
  constructor
  case contains_eq =>
    intro ck
    rw [FinMap.contains_eq_isSome, FinMap.contains_eq_isSome]
    have hck := h ck
    generalize m.find? ck = o, m'.find? ck = o' at hck
    cases hck <;> rfl
  case values =>
    intro ck v v' hv hv'
    obtain ⟨k, hf⟩ := FinMap.valueAt?_eq_some_iff.mp hv
    obtain ⟨k', hf'⟩ := FinMap.valueAt?_eq_some_iff.mp hv'
    have hck := h ck
    rw [hf, hf'] at hck
    cases hck with
    | some hS => exact hS

/-- Entries of deltas commute if what they carry does. -/
theorem commute_entries (h : Commutes apply create Fits S)
    {es : List (EntryDelta δ × Item (K × V))} {m : Entries K V}
    (hes : ∀ e ∈ es, (∃ m', (e.2.step m').failure = none) →
      Item.Carries apply create Fits e (m.find? e.2.key)) :
    Outcome.Commute (fun e => e.2.step) (Alike S) es m := by
  intro es' hperm hok hok'
  refine .of_find? (commute_items Prod.snd (fun ck => ?_) es' hperm hok hok')
  refine commute_carried h fun e he => ?_
  obtain ⟨hmem, hkey⟩ := List.mem_filter.mp he
  rw [← of_decide_eq_true hkey]
  exact hes e hmem (Outcome.exists_of_each_ok hok hmem)

variable [Element K] {e : EntryDelta δ} {c : Change V} {m : Entries K V}

/-- An entry of a delta as the change that carries the delta of the value. -/
structure Change.IsFor (apply : δ → V → Outcome V) (create : δ → Except DeltaError V)
    (e : EntryDelta δ) (c : Change V) : Prop where
  key_eq : c.key = e.key
  create_eq : c.create = create e.delta
  apply_eq : c.apply = apply e.delta

theorem carries_entered (hc : c.IsFor apply create e)
    (hfound : ∀ k : K, e.key.read Element.decode = .ok k → ∀ v,
      m.valueAt? (Element.key k) = some v → Fits e.delta v)
    (hmissing : ∀ k : K, e.key.read Element.decode = .ok k →
      m.contains (Element.key k) = false → ∀ v, Fits e.delta v)
    {present : Key → List Notice} (hok : ∃ m', ((Item.entered K present c).step m').failure = none) :
    Item.Carries apply create Fits (e, Item.entered K present c)
      (m.find? (Item.entered K present c).key) := by
  obtain ⟨m', hok⟩ := hok
  cases hk : c.key.read (Element.decode (α := K)) with
  | error error => simp [Item.entered, hk, Item.ofRead, Item.refused] at hok
  | ok k =>
      rw [hc.key_eq] at hk
      rw [entered_of_read (hc.key_eq ▸ hk)]
      refine ⟨fun k' v => ?_, fun k' v hf => ?_, fun _ => ⟨k, ?_⟩, fun hf => ?_⟩
      · rw [← hc.apply_eq]
        rfl
      · exact hfound k hk v (FinMap.valueAt?_eq_some_iff.mpr ⟨k', hf⟩)
      · rw [← hc.apply_eq, ← hc.create_eq]
        rfl
      · exact hmissing k hk (FinMap.find?_eq_none_iff.mp hf)

theorem carries_touched (hc : c.IsFor apply create e)
    (hfound : ∀ k : K, e.key.read Element.decode = .ok k → ∀ v,
      m.valueAt? (Element.key k) = some v → Fits e.delta v)
    (hpresent : ∀ k : K, e.key.read Element.decode = .ok k → m.contains (Element.key k) = true)
    {remark : Remark} (hok : ∃ m', ((Item.touched K remark c).step m').failure = none) :
    Item.Carries apply create Fits (e, Item.touched K remark c)
      (m.find? (Item.touched K remark c).key) := by
  obtain ⟨m', hok⟩ := hok
  cases hk : c.key.read (Element.decode (α := K)) with
  | error error => simp [Item.touched, hk, Item.ofRead, Item.refused] at hok
  | ok k =>
      rw [hc.key_eq] at hk
      rw [touched_of_read (hc.key_eq ▸ hk)]
      have hthere : m.find? (Element.key k) ≠ none := by
        intro hf
        rw [FinMap.find?_eq_none_iff, hpresent k hk] at hf
        cases hf
      refine ⟨fun k' v => ?_, fun k' v hf => ?_, fun hf => absurd hf hthere,
        fun hf => absurd hf hthere⟩
      · rw [← hc.apply_eq]
        rfl
      · exact hfound k hk v (FinMap.valueAt?_eq_some_iff.mpr ⟨k', hf⟩)

end Contents

/-! ## Single values and sets -/

theorem Counter.commutes : Commutes (σ := Counter) Tracked.merge Tracked.create (fun _ _ => True) Eq := by
  refine .of_create (fun _ => rfl) fun {ds c} _ => ?_
  refine Outcome.commute_of_exchange (fun _ _ => rfl) (fun d d' c => ?_) ds c
  simp only [Tracked.merge, merge, Outcome.state_done, mk.injEq, and_true]
  rw [Int64.add_assoc, Int64.add_comm d.change, Int64.add_assoc]

theorem Flag.commutes : Commutes (σ := Flag) Tracked.merge Tracked.create (fun _ _ => True) Eq := by
  refine .of_create (fun _ => rfl) fun {ds f} _ => ?_
  refine Outcome.commute_of_exchange (fun _ _ => rfl) (fun d d' f => ?_) ds f
  simp only [Tracked.merge, merge, Outcome.state_done, mk.injEq, and_true]
  rw [Bool.or_assoc, Bool.or_comm d.value, Bool.or_assoc]

theorem GrowSet.commutes (E : Type) [Element E] :
    Commutes (σ := GrowSet E) Tracked.merge Tracked.create (fun _ _ => True) Same := by
  refine .of_create (fun _ => rfl) fun {ds s} _ => ?_
  have helements : Outcome.Commute (fun d : GrowSetDelta => Outcome.each mergeElement d.added)
      (fun m m' => ∀ ck, m.contains ck = m'.contains ck) ds s.elements := by
    refine .of_flatMap GrowSetDelta.added (fun d _ _ m => ?_)
      (Contents.commute_bound (fun _ _ => []) _ _)
    rw [each_mergeElement_eq_each_step, Outcome.each_map]
  exact helements.map (fun es => ({ s with elements := es } : GrowSet E)) (fun _ _ _ => rfl)
    fun _ _ h => ⟨h, rfl⟩

/-- A delta of a set that only adds elements. -/
structure SetDelta.AddsOnly (d : SetDelta) : Prop where
  cleared : d.cleared = false
  removed : d.removed = []

theorem AddRemoveSet.commutes (E : Type) [Element E] :
    Commutes (σ := AddRemoveSet E) Tracked.merge Tracked.create (fun d _ => d.AddsOnly) Same := by
  refine .of_create (fun _ => rfl) fun {ds s} hfits => ?_
  have helements : Outcome.Commute mergeElements
      (fun m m' : FinMap Key E => ∀ ck, m.contains ck = m'.contains ck) ds s.elements := by
    refine .of_flatMap SetDelta.added (fun d hd _ m => ?_)
      (Contents.commute_bound (fun e m => if m.contains (Element.key e) then
        [⟨.addsPresentElement, Element.key e⟩] else []) _ _)
    rw [mergeElements_eq_each_step, (hfits d hd).removed, (hfits d hd).cleared, List.map_nil,
      List.nil_append, Outcome.each_map]
    rfl
  exact helements.map (fun es => ({ s with elements := es } : AddRemoveSet E))
    (fun _ _ _ => rfl) fun _ _ h => ⟨h, rfl, rfl, rfl⟩

/-! ## Maps whose values come into being by their first use -/

/-- A delta of a map that drops nothing, and whose entries fit all values. -/
structure UniformMapDelta.FitsAll {V δ : Type} (Fits : δ → V → Prop) (d : UniformMapDelta δ) :
    Prop where
  cleared : d.cleared = false
  removed : d.removed = []
  updated : ∀ e ∈ d.updated, ∀ v, Fits e.delta v

theorem UniformMap.commutes (K : Type) {V δ : Type} [Element K] [Tracked V δ]
    {Fits : δ → V → Prop} {S : V → V → Prop} (h : Commutes Tracked.merge Tracked.create Fits S) :
    Commutes (σ := UniformMap K V) Tracked.merge Tracked.create (fun d _ => d.FitsAll Fits)
      (Same S) := by
  refine .of_create (fun _ => rfl) fun {ds m} hfits => ?_
  have hentries : Outcome.Commute mergeEntries (Contents.Alike S) ds m.entries := by
    refine .of_flatMap entryItems (fun d hd _ m => ?_)
      (Contents.commute_entries h fun i hi hok => ?_)
    · rw [mergeEntries_eq_each_step, (hfits d hd).removed, (hfits d hd).cleared, List.map_nil,
        List.nil_append, Outcome.each_map]
      rfl
    · obtain ⟨d, hd, hi⟩ := List.mem_flatMap.mp hi
      obtain ⟨e, he, rfl⟩ := List.mem_map.mp hi
      have hall : ∀ v, Fits e.delta v := (hfits d hd).updated e he
      have hchange : (changeOf (V := V) e).IsFor Tracked.merge Tracked.create e := ⟨rfl, rfl, rfl⟩
      exact Contents.carries_entered hchange (fun _ _ v _ => hall v) (fun _ _ _ => hall) hok
  exact hentries.map (fun es => ({ m with entries := es } : UniformMap K V)) (fun _ _ _ => rfl)
    fun _ _ h => ⟨h, rfl, rfl⟩

/-! ## Deltas of all kinds -/

/-- Deltas of other kinds do not go through. -/
theorem Commutes.replicated {σ δ : Type} [Tracked σ δ] [DeltaForm δ] {Fits : δ → σ → Prop}
    {S : σ → σ → Prop} (h : Commutes Tracked.merge Tracked.create Fits S) :
    Commutes (σ := σ) Replicated.apply Replicated.createFor
      (fun d s => ∀ e : δ, d = DeltaForm.wrap e → Fits e s) S := by
  have hsplit (d : Delta) (hok : ∃ s : σ, (Replicated.apply d s).failure = none) (s : σ) :
      Replicated.apply d s = Outcome.each Tracked.merge (DeltaForm.unwrap? (δ := δ) d).toList s := by
    obtain ⟨s', hok⟩ := hok
    rcases Tracked.apply_cases d s' with ⟨hfails, -⟩ | ⟨e, rfl, -⟩
    · exact absurd hok hfails
    · rw [Tracked.apply_wrap, DeltaForm.unwrap?_wrap, Option.toList_some, Outcome.each_cons,
        Outcome.andThen_each_nil]
  constructor
  case commute =>
    intro ds s hfits
    refine .of_flatMap (fun d => (DeltaForm.unwrap? d).toList) (fun d _ hok => hsplit d hok) ?_
    refine h.commute fun e he => ?_
    obtain ⟨d, hd, he⟩ := List.mem_flatMap.mp he
    exact hfits d hd e (DeltaForm.unwrap?_eq_some_iff.mp (Option.mem_toList.mp he))
  case create_eq =>
    intro ds d d' s s' hs hs' hfits hfits' hd' hok
    obtain ⟨e, rfl, he⟩ := Tracked.exists_of_createFor_ok hs
    obtain ⟨e', rfl, he'⟩ := Tracked.exists_of_createFor_ok hs'
    rw [Outcome.each_flatMap fun d hd => hsplit d (Outcome.exists_of_each_ok hok hd)] at hok
    refine h.create_eq he he' (hfits e rfl) (hfits' e' rfl) (List.mem_flatMap.mpr ⟨_, hd', ?_⟩) hok
    simp

end DeltaReplica
