import DeltaReplica.Proofs.Forms
import DeltaReplica.Proofs.Handover
import DeltaReplica.Proofs.Locality

/-!
# Deltas that are merged twice

A delta that changes no counter can be merged twice: if it goes through, then it goes through
once more, and then it changes nothing, neither contents nor what is pending.  The second
time it meets other circumstances, since keys that it removes may be there again and those
that it adds are there already.

The items of a delta are looked at key by key.  Removals come first, and a removal or an
addition to a set makes the items for its key forget what was there before them.  Otherwise
there is at most one item for a key of a map, and its own delta can be merged twice.
-/

namespace DeltaReplica

namespace Outcome

variable {σ τ α : Type}

/-- If the step goes through, then it goes through once more, and changes nothing. -/
def Repeats (f : σ → Outcome σ) (s : σ) : Prop :=
  (f s).failure = none →
    (f (f s).state).failure = none ∧ (f (f s).state).state = (f s).state

theorem Repeats.of_const {f : σ → Outcome σ} (h : ∀ s s', f s = f s') (s : σ) : Repeats f s := by
  intro hok
  rw [h (f s).state s]
  exact ⟨hok, rfl⟩

theorem Repeats.map {f : σ → Outcome σ} {g : τ → Outcome τ} {s : σ} (h : Repeats f s) (mk : σ → τ)
    (hg : ∀ s, g (mk s) = (f s).map mk) : Repeats g (mk s) := by
  intro hok
  rw [hg] at hok ⊢
  obtain ⟨hagain, hsame⟩ := h hok
  rw [state_map, hg]
  exact ⟨hagain, congrArg mk hsame⟩

theorem repeats_done (s : σ) : Repeats done s :=
  fun _ => ⟨rfl, rfl⟩

/-- Each of the steps that go through does so in a state that has what all steps keep. -/
theorem exists_kept_of_each_ok {P : σ → Prop} {step : α → σ → Outcome σ} {as : List α} {s : σ}
    (hP : ∀ a ∈ as, ∀ s, P s → P (step a s).state) (hs : P s) (h : (each step as s).failure = none)
    {a : α} (ha : a ∈ as) : ∃ s', P s' ∧ (step a s').failure = none := by
  induction as generalizing s with
  | nil => cases ha
  | cons b as ih =>
      obtain ⟨hfirst, hrest⟩ := failure_andThen_eq_none_iff.mp h
      rcases List.mem_cons.mp ha with rfl | ha
      · exact ⟨s, hs, hfirst⟩
      · have hnext : P (step b s).state := hP b List.mem_cons_self s hs
        exact ih (fun c hc => hP c (List.mem_cons_of_mem b hc)) hnext hrest ha

/-- Each of the steps that go through does so in some state. -/
theorem exists_of_each_ok {step : α → σ → Outcome σ} {as : List α} {s : σ}
    (h : (each step as s).failure = none) {a : α} (ha : a ∈ as) :
    ∃ s', (step a s').failure = none := by
  obtain ⟨s', -, hok⟩ :=
    exists_kept_of_each_ok (P := fun _ => True) (fun _ _ _ _ => trivial) trivial h ha
  exact ⟨s', hok⟩

end Outcome

/-! ## Items of a delta -/

namespace Contents

variable {K V α β δ : Type} {m : FinMap Key α}

/-- What an item leaves does not depend on what was there. -/
def Item.Forgets (i : Item α) : Prop := ∀ o o', i.act o = i.act o'

theorem Item.forgets_ofRead {r : Except DeltaError β} {f : β → Item α} (h : ∀ b, (f b).Forgets) :
    (ofRead r f).Forgets := by
  cases r with
  | ok b => exact h b
  | error e => exact fun _ _ => rfl

theorem Item.forgets_bound [Element α] (notices : α → FinMap Key α → List Notice) (p : Payload) :
    (bound notices p).Forgets :=
  forgets_ofRead fun _ _ _ => rfl

theorem Item.forgets_dropped [Element K] (remark : Remark) (p : Payload) :
    (dropped K remark p : Item α).Forgets :=
  forgets_ofRead fun _ _ _ => rfl

/-- Items can be repeated if those for each key can. -/
theorem repeats_each_step {is : List (Item α)} (hm : m.Ordered)
    (h : ∀ ck, Outcome.Repeats (Outcome.each Item.act (itemsAt ck is)) (m.find? ck)) :
    Outcome.Repeats (Outcome.each Item.step is) m := by
  intro hok
  have hat := find?_each_step hok
  have hagain : (Outcome.each Item.step is (Outcome.each Item.step is m).state).failure = none := by
    refine failure_each_step fun ck => ?_
    rw [(hat ck).2]
    exact (h ck (hat ck).1).1
  refine ⟨hagain, ?_⟩
  have hordered := ordered_each_step is hm
  refine (ordered_each_step is hordered).ext hordered fun ck => ?_
  rw [(find?_each_step hagain ck).2, (hat ck).2]
  exact (h ck (hat ck).1).2

/-- The items for one key start with a removal, or there is at most one of them. -/
theorem repeats_itemsAt {drops entries : List (Item α)} (hdrops : ∀ i ∈ drops, i.Forgets)
    (hapart : entries.Pairwise fun i j => i.key ≠ j.key)
    (hentries : ∀ i ∈ entries, Outcome.Repeats i.act (m.find? i.key)) (ck : Key) :
    Outcome.Repeats (Outcome.each Item.act (itemsAt ck (drops ++ entries))) (m.find? ck) := by
  rw [itemsAt_append]
  cases hd : itemsAt ck drops with
  | cons i is =>
      -- the first item is a removal or an addition, so nothing depends on what was there
      have hi : i ∈ itemsAt ck drops := hd ▸ List.mem_cons_self
      have hforgets : i.Forgets := hdrops i (mem_itemsAt_iff.mp hi).1
      refine .of_const (fun o o' => ?_) _
      rw [List.cons_append, Outcome.each_cons, Outcome.each_cons, hforgets o o']
  | nil =>
      -- nothing but entries, of which at most one is for the key
      rw [List.nil_append]
      rcases itemsAt_eq_nil_or_singleton hapart ck with hnone | ⟨i, hi, hkey, hone⟩
      · rw [hnone]
        exact Outcome.repeats_done _
      · have heach : Outcome.each Item.act [i] = i.act := by
          funext o
          rw [Outcome.each_cons, Outcome.andThen_each_nil]
        rw [hone, heach, ← hkey]
        exact hentries i hi

/-- Contents that are cleared first are the same each time. -/
theorem repeats_cleared {drops entries : List (Item α)} (hdrops : ∀ i ∈ drops, i.Forgets)
    (hapart : entries.Pairwise fun i j => i.key ≠ j.key)
    (hentries : ∀ i ∈ entries, Outcome.Repeats i.act (m.find? i.key)) (hm : m.Ordered)
    (cleared : Bool) :
    Outcome.Repeats (fun m => Outcome.each Item.step (drops ++ entries) (clearIf cleared m)) m := by
  cases cleared with
  | false => exact repeats_each_step hm (repeats_itemsAt hdrops hapart hentries)
  | true => exact .of_const (fun _ _ => rfl) m

/-! ## Entries of a delta -/

variable {P : V → Prop} {c : Change V}

/-- A change can be repeated on values with a property, which created values have. -/
structure Change.Repeats (P : V → Prop) (c : Change V) : Prop where
  create : ∀ v, c.create = .ok v → P v
  apply : ∀ v, P v → Outcome.Repeats c.apply v

section Entries

variable [Element K] {k : K} {o : Option (K × V)}

theorem repeats_enter (hc : c.Repeats P) (ho : ∀ e, o = some e → P e.2)
    (present : Key → List Notice) : Outcome.Repeats (Item.enter present k c).act o := by
  intro hok
  cases o with
  | some e =>
      obtain ⟨hagain, hsame⟩ := hc.apply e.2 (ho e rfl) hok
      exact ⟨hagain, congrArg (fun v => some (e.1, v)) hsame⟩
  | none =>
      have hentered : (Outcome.meet c.create c.apply none).failure = none := hok
      obtain ⟨v, hcreate, hv, hmeet⟩ := Outcome.exists_of_meet_ok hentered
      have hmade : ((Item.enter present k c).act none).state = some (k, (c.apply v).state) := by
        simp [Item.enter, hmeet]
      obtain ⟨hagain, hsame⟩ := hc.apply v (hc.create v hcreate) hv
      rw [hmade]
      exact ⟨hagain, congrArg (fun v => some (k, v)) hsame⟩

theorem repeats_touch (hc : c.Repeats P) (ho : ∀ e, o = some e → P e.2) (remark : Remark) :
    Outcome.Repeats (Item.touch remark k c).act o := by
  intro hok
  cases o with
  | some e =>
      obtain ⟨hagain, hsame⟩ := hc.apply e.2 (ho e rfl) hok
      exact ⟨hagain, congrArg (fun v => some (e.1, v)) hsame⟩
  | none => exact ⟨rfl, rfl⟩

/-- An entry of a delta that is read as a change for a key, which it makes to what is there. -/
def Item.Makes (K : Type) [Element K] (P : V → Prop) (e : EntryDelta δ) (i : Item (K × V)) : Prop :=
  ∃ k : K, e.key.read Element.decode = .ok k ∧ i.key = Element.key k ∧
    ∀ o : Option (K × V), (∀ e, o = some e → P e.2) → Outcome.Repeats i.act o

/-- An entry that goes through has been read. -/
theorem makes_entered {e : EntryDelta δ} (hkey : c.key = e.key) (hc : c.Repeats P)
    {present : Key → List Notice} {m : Entries K V}
    (hok : ((Item.entered K present c).step m).failure = none) :
    Item.Makes K P e (Item.entered K present c) := by
  cases hk : c.key.read (Element.decode (α := K)) with
  | error e => simp [Item.entered, hk, Item.ofRead, Item.refused] at hok
  | ok k =>
      rw [entered_of_read hk]
      exact ⟨k, hkey ▸ hk, rfl, fun o ho => repeats_enter hc ho present⟩

theorem makes_touched {e : EntryDelta δ} (hkey : c.key = e.key) (hc : c.Repeats P)
    {remark : Remark} {m : Entries K V}
    (hok : ((Item.touched K remark c).step m).failure = none) :
    Item.Makes K P e (Item.touched K remark c) := by
  cases hk : c.key.read (Element.decode (α := K)) with
  | error e => simp [Item.touched, hk, Item.ofRead, Item.refused] at hok
  | ok k =>
      rw [touched_of_read hk]
      exact ⟨k, hkey ▸ hk, rfl, fun o ho => repeats_touch hc ho remark⟩

end Entries

/-- No two entries of a delta are for the same key. -/
def KeysApart (K : Type) [Element K] (es : List (EntryDelta δ)) : Prop :=
  es.Pairwise fun e e' => ∀ k k' : K, e.key.read Element.decode = .ok k →
    e'.key.read Element.decode = .ok k' → Element.key k ≠ Element.key k'

variable [Element K]

/-- Removals and entries for different keys can be repeated. -/
theorem repeats_entries (remark : Remark) (ps : List Payload)
    {es : List (EntryDelta δ × Item (K × V))} (hapart : KeysApart K (es.map Prod.fst))
    (hmakes : ∀ e ∈ es, ∀ m, (e.2.step m).failure = none → Item.Makes K P e.1 e.2)
    {m : Entries K V} (hm : Sound P m) (cleared : Bool) :
    Outcome.Repeats (fun m => Outcome.each Item.step
      (ps.map (Item.dropped K remark) ++ es.map Prod.snd) (clearIf cleared m)) m := by
  intro hok
  -- all entries have been read, so their keys are known
  have hread : ∀ e ∈ es, Item.Makes K P e.1 e.2 := by
    intro e he
    obtain ⟨m', hm'⟩ := Outcome.exists_of_each_ok hok
      (List.mem_append_right _ (List.mem_map_of_mem he))
    exact hmakes e he m' hm'
  refine repeats_cleared ?_ ?_ ?_ hm.indexed.ordered cleared hok
  · intro i hi
    obtain ⟨p, -, rfl⟩ := List.mem_map.mp hi
    exact Item.forgets_dropped remark p
  · rw [List.pairwise_map]
    refine (List.pairwise_map.mp hapart).imp_of_mem fun {e e'} he he' hne => ?_
    obtain ⟨k, hk, hkey, -⟩ := hread e he
    obtain ⟨k', hk', hkey', -⟩ := hread e' he'
    rw [hkey, hkey']
    exact hne k k' hk hk'
  · intro i hi
    obtain ⟨e, he, rfl⟩ := List.mem_map.mp hi
    obtain ⟨k, -, -, hrepeats⟩ := hread e he
    exact hrepeats _ fun e hf => (hm.of_find? hf).2

end Contents

/-! ## Single values and sets -/

theorem Register.repeats_merge {V : Type} [Element V] (d : RegisterDelta) (r : Register V) :
    Outcome.Repeats (Tracked.merge d) r := by
  intro hok
  simp only [Tracked.merge, merge] at hok ⊢
  cases hd : d.value with
  | none => exact ⟨rfl, rfl⟩
  | some p =>
      simp only [hd] at hok ⊢
      cases hp : p.read (Element.decode (α := V)) with
      | error e => simp [hp, Outcome.withResult] at hok
      | ok v => exact ⟨rfl, rfl⟩

theorem Flag.repeats_merge (d : FlagDelta) (f : Flag) : Outcome.Repeats (Tracked.merge d) f := by
  intro hok
  refine ⟨rfl, ?_⟩
  simp [Tracked.merge, merge]

theorem Vote.repeats_merge (d : VoteDelta) (v : Vote) : Outcome.Repeats (Tracked.merge d) v :=
  fun _ => ⟨rfl, rfl⟩

namespace GrowSet

variable {E : Type} [Element E]

theorem each_mergeElement_eq_each_step (ps : List Payload) (m : FinMap Key E) :
    Outcome.each mergeElement ps m =
      Outcome.each Contents.Item.step (ps.map (.bound fun _ _ => [])) m := by
  rw [Outcome.each_map]
  congr 1
  funext p m
  unfold mergeElement Contents.Item.bound Contents.Item.ofRead
  cases p.read (Element.decode (α := E)) <;> rfl

theorem repeats_merge {s : GrowSet E} (hs : s.Sound) (d : GrowSetDelta) :
    Outcome.Repeats (Tracked.merge d) s := by
  have hitems : Outcome.each mergeElement d.added =
      fun m => Outcome.each Contents.Item.step
        (d.added.map (.bound (α := E) fun _ _ => []) ++ []) (Contents.clearIf false m) := by
    funext m
    rw [List.append_nil, each_mergeElement_eq_each_step]
    rfl
  have hrepeats : Outcome.Repeats (Outcome.each mergeElement d.added) s.elements := by
    rw [hitems]
    refine Contents.repeats_cleared ?_ .nil (by simp) hs.elements.ordered false
    intro i hi
    obtain ⟨p, -, rfl⟩ := List.mem_map.mp hi
    exact Contents.Item.forgets_bound _ p
  exact hrepeats.map (fun es => ({ s with elements := es } : GrowSet E)) fun _ => rfl

end GrowSet

namespace AddRemoveSet

variable {E : Type} [Element E]

theorem each_mergeElement_eq_each_step (ps : List Payload) (m : FinMap Key E) :
    Outcome.each mergeElement ps m = Outcome.each Contents.Item.step
      (ps.map (.bound fun e m =>
        if m.contains (Element.key e) then [⟨.addsPresentElement, Element.key e⟩] else [])) m := by
  rw [Outcome.each_map]
  congr 1
  funext p m
  unfold mergeElement Contents.Item.bound Contents.Item.ofRead
  cases p.read (Element.decode (α := E)) <;> rfl

theorem mergeElements_eq_each_step (d : SetDelta) (m : FinMap Key E) :
    mergeElements d m = Outcome.each Contents.Item.step
      (d.removed.map (.dropped E .removesMissingElement) ++
        d.added.map (.bound fun e m =>
          if m.contains (Element.key e) then [⟨.addsPresentElement, Element.key e⟩] else []))
      (Contents.clearIf d.cleared m) := by
  rw [Outcome.each_append, ← Contents.dropAll_eq_each_step, mergeElements]
  congr 1
  funext m
  exact each_mergeElement_eq_each_step d.added m

theorem repeats_merge {s : AddRemoveSet E} (hs : s.Sound) (d : SetDelta) :
    Outcome.Repeats (Tracked.merge d) s := by
  have hrepeats : Outcome.Repeats (mergeElements d) s.elements := by
    rw [funext (mergeElements_eq_each_step d), ← List.append_nil (_ ++ _)]
    refine Contents.repeats_cleared ?_ .nil (by simp) hs.elements.ordered d.cleared
    intro i hi
    rcases List.mem_append.mp hi with hi | hi
    · obtain ⟨p, -, rfl⟩ := List.mem_map.mp hi
      exact Contents.Item.forgets_dropped _ p
    · obtain ⟨p, -, rfl⟩ := List.mem_map.mp hi
      exact Contents.Item.forgets_bound _ p
  exact hrepeats.map (fun es => ({ s with elements := es } : AddRemoveSet E)) fun _ => rfl

end AddRemoveSet

/-! ## Maps -/

namespace UniformMap

variable {K V δ : Type} [Element K] [Tracked V δ] {P : V → Prop}

/-- The entries of a delta with the items that they are read as. -/
def entryItems (d : UniformMapDelta δ) : List (EntryDelta δ × Contents.Item (K × V)) :=
  d.updated.map fun e => (e, .entered K (fun _ => []) (changeOf e))

theorem mergeEntries_eq_each_step (d : UniformMapDelta δ) (m : Entries K V) :
    mergeEntries d m = Outcome.each Contents.Item.step
      (d.removed.map (.dropped K .removesMissingKey) ++ (entryItems d).map Prod.snd)
      (Contents.clearIf d.cleared m) := by
  rw [Outcome.each_append, ← Contents.dropAll_eq_each_step, mergeEntries, entryItems, List.map_map]
  congr 1
  funext m
  rw [Contents.each_addOrAlter_eq_each_step, List.map_map]
  rfl

theorem repeats_merge {m : UniformMap K V} (hm : m.Sound P) (hP : Tracked.Keeps P)
    {d : UniformMapDelta δ} (hapart : Contents.KeysApart K d.updated)
    (hvalues : ∀ e ∈ d.updated, ∀ v, P v → Outcome.Repeats (Tracked.merge e.delta) v) :
    Outcome.Repeats (Tracked.merge d) m := by
  have hentries : (entryItems (K := K) (V := V) d).map Prod.fst = d.updated := by
    simp [entryItems, Function.comp_def]
  have hrepeats : Outcome.Repeats (mergeEntries d) m.entries := by
    rw [funext (mergeEntries_eq_each_step d)]
    refine Contents.repeats_entries _ d.removed (hentries ▸ hapart) ?_ hm.contents d.cleared
    intro i hi m' hok
    obtain ⟨e, he, rfl⟩ := List.mem_map.mp hi
    exact Contents.makes_entered rfl ⟨hP.create e.delta, hvalues e he⟩ hok
  exact hrepeats.map (fun es => ({ m with entries := es } : UniformMap K V)) fun _ => rfl

end UniformMap

namespace DataMap

variable {K V : Type} [Element K] [Replicated V] {P : V → Prop}

/-- The entries of a delta with the items that they are read as. -/
def entryItems (d : MapDelta Delta) : List (EntryDelta Delta × Contents.Item (K × V)) :=
  (d.added.map fun e => (e, .entered K (fun ck => [⟨.addsPresentKey, ck⟩]) (changeOf e))) ++
    d.updated.map fun e => (e, .touched K .updatesMissingKey (changeOf e))

theorem mergeEntries_eq_each_step (d : MapDelta Delta) (m : Entries K V) :
    mergeEntries d.cleared d.removed (d.added.map changeOf) (d.updated.map changeOf) m =
      Outcome.each Contents.Item.step
        (d.removed.map (.dropped K .removesMissingKey) ++ (entryItems d).map Prod.snd)
        (Contents.clearIf d.cleared m) := by
  rw [Outcome.each_append, ← Contents.dropAll_eq_each_step, mergeEntries, Outcome.andThen_assoc]
  congr 1
  funext m
  rw [entryItems, List.map_append, Outcome.each_append, Contents.each_addOrAlter_eq_each_step,
    List.map_map, List.map_map, List.map_map]
  congr 1
  funext m
  rw [Contents.each_alterPresent_eq_each_step, List.map_map]
  rfl

theorem repeats_merge {m : DataMap K V} (hm : m.Sound P) (hP : Replicated.Keeps P)
    {d : MapDelta Delta} (hapart : Contents.KeysApart K (d.added ++ d.updated))
    (hadded : ∀ e ∈ d.added, ∀ v, P v → Outcome.Repeats (Replicated.apply e.delta) v)
    (hupdated : ∀ e ∈ d.updated, ∀ v, P v → Outcome.Repeats (Replicated.apply e.delta) v) :
    Outcome.Repeats (Tracked.merge d) m := by
  have hentries : (entryItems (K := K) (V := V) d).map Prod.fst = d.added ++ d.updated := by
    simp [entryItems, Function.comp_def]
  have hrepeats : Outcome.Repeats (fun es => mergeEntries d.cleared d.removed
      (d.added.map changeOf) (d.updated.map changeOf) es) m.entries := by
    rw [funext (mergeEntries_eq_each_step d)]
    refine Contents.repeats_entries _ d.removed (hentries ▸ hapart) ?_ hm.contents d.cleared
    intro i hi m' hok
    rcases List.mem_append.mp hi with hi | hi
    · obtain ⟨e, he, rfl⟩ := List.mem_map.mp hi
      exact Contents.makes_entered rfl ⟨hP.createFor e.delta, hadded e he⟩ hok
    · obtain ⟨e, he, rfl⟩ := List.mem_map.mp hi
      exact Contents.makes_touched rfl ⟨hP.createFor e.delta, hupdated e he⟩ hok
  exact hrepeats.map (fun es => ({ m with entries := es } : DataMap K V)) fun _ => rfl

end DataMap

/-! ## Data of any kind -/

/-- A delta without changes to counters, at any depth. -/
inductive Delta.CounterFree : Delta → Prop
  | register (d : RegisterDelta) : CounterFree (.register d)
  | flag (d : FlagDelta) : CounterFree (.flag d)
  | growSet (d : GrowSetDelta) : CounterFree (.growSet d)
  | set (d : SetDelta) : CounterFree (.set d)
  | vote (d : VoteDelta) : CounterFree (.vote d)
  | map {d : MapDelta Delta} (hadded : ∀ e ∈ d.added, CounterFree e.delta)
      (hupdated : ∀ e ∈ d.updated, CounterFree e.delta) : CounterFree (.map d)
  | counterMap {d : UniformMapDelta CounterDelta} (h : d.updated = []) : CounterFree (.counterMap d)
  | registerMap (d : UniformMapDelta RegisterDelta) : CounterFree (.registerMap d)
  | multiMap (d : UniformMapDelta SetDelta) : CounterFree (.multiMap d)

namespace Datum

variable {T : Type} [Element T]

/-- A delta of data in which no two entries for one map are for the same key, at any depth. -/
inductive KeysApart (T : Type) [Element T] : Delta → Prop
  | counter (d : CounterDelta) : KeysApart T (.counter d)
  | register (d : RegisterDelta) : KeysApart T (.register d)
  | flag (d : FlagDelta) : KeysApart T (.flag d)
  | growSet (d : GrowSetDelta) : KeysApart T (.growSet d)
  | set (d : SetDelta) : KeysApart T (.set d)
  | vote (d : VoteDelta) : KeysApart T (.vote d)
  | map {d : MapDelta Delta} (h : Contents.KeysApart T (d.added ++ d.updated))
      (hadded : ∀ e ∈ d.added, KeysApart T e.delta)
      (hupdated : ∀ e ∈ d.updated, KeysApart T e.delta) : KeysApart T (.map d)
  | counterMap {d : UniformMapDelta CounterDelta} (h : Contents.KeysApart T d.updated) :
      KeysApart T (.counterMap d)
  | registerMap {d : UniformMapDelta RegisterDelta} (h : Contents.KeysApart T d.updated) :
      KeysApart T (.registerMap d)
  | multiMap {d : UniformMapDelta SetDelta} (h : Contents.KeysApart T d.updated) :
      KeysApart T (.multiMap d)

end Datum

/-- A delta of another kind does not go through. -/
theorem Tracked.repeats_apply {σ δ : Type} [Tracked σ δ] [DeltaForm δ] {s : σ} {d : Delta}
    (h : ∀ e : δ, d = DeltaForm.wrap e → Outcome.Repeats (Tracked.merge e) s) :
    Outcome.Repeats (Replicated.apply d) s := by
  intro hok
  rcases apply_cases d s with ⟨hfails, -⟩ | ⟨e, rfl, -⟩
  · exact absurd hok hfails
  · have happly : Replicated.apply (DeltaForm.wrap e) = Tracked.merge (σ := σ) e :=
      funext (apply_wrap e)
    rw [happly] at hok ⊢
    exact h e rfl hok

theorem Counter.repeats_apply {d : Delta} (hd : d.CounterFree) (c : Counter) :
    Outcome.Repeats (Replicated.apply d) c := by
  refine Tracked.repeats_apply fun e he => ?_
  subst he
  cases hd

theorem CounterMap.repeats_apply {K : Type} [Element K] {d : Delta} (hd : d.CounterFree)
    {m : CounterMap K} (hm : UniformMap.Sound (fun _ => True) m) :
    Outcome.Repeats (Replicated.apply d) m := by
  refine Tracked.repeats_apply fun e he => ?_
  subst he
  cases hd with
  | counterMap hnone =>
      refine UniformMap.repeats_merge hm Tracked.keeps_true ?_ ?_
      · rw [hnone]
        exact .nil
      · rw [hnone]
        simp

theorem RegisterMap.repeats_apply {K V : Type} [Element K] [Element V] {d : Delta}
    (hd : ∀ e, d = .registerMap e → Contents.KeysApart K e.updated) {m : RegisterMap K V}
    (hm : UniformMap.Sound (fun _ => True) m) : Outcome.Repeats (Replicated.apply d) m := by
  refine Tracked.repeats_apply fun e he => ?_
  exact UniformMap.repeats_merge hm Tracked.keeps_true (hd e he) fun e _ r _ =>
    r.repeats_merge e.delta

theorem MultiMap.repeats_apply {K V : Type} [Element K] [Element V] {d : Delta}
    (hd : ∀ e, d = .multiMap e → Contents.KeysApart K e.updated) {m : MultiMap K V}
    (hm : UniformMap.Sound AddRemoveSet.Sound m) : Outcome.Repeats (Replicated.apply d) m := by
  refine Tracked.repeats_apply fun e he => ?_
  exact UniformMap.repeats_merge hm AddRemoveSet.keeps_sound (hd e he) fun e _ s hs =>
    AddRemoveSet.repeats_merge hs e.delta

namespace Datum

variable {T : Type} [Element T]

theorem Embeds.repeats {σ δ : Type} [Tracked σ δ] [DeltaForm δ] {mk : σ → Datum T}
    (h : Embeds mk) {s : σ} {d : Delta} (hs : Outcome.Repeats (Replicated.apply d) s) :
    Outcome.Repeats (Datum.apply d) (mk s) :=
  hs.map mk (h.apply d)

theorem repeats_leaf {x : Datum T} (hx : x.kind ≠ .map) (h : x.Sound) {d : Delta}
    (hfree : d.CounterFree) (hapart : KeysApart T d) : Outcome.Repeats (apply d) x := by
  cases h with
  | counter c => exact embeds_counter.repeats (c.repeats_apply hfree)
  | register r => exact embeds_register.repeats (Tracked.repeats_apply fun e _ => r.repeats_merge e)
  | set h =>
      exact embeds_set.repeats (Tracked.repeats_apply fun e _ => AddRemoveSet.repeats_merge h e)
  | vote v => exact embeds_vote.repeats (Tracked.repeats_apply fun e _ => v.repeats_merge e)
  | map h hvalues => exact absurd rfl hx
  | counterMap h => exact embeds_counterMap.repeats (CounterMap.repeats_apply hfree h)
  | registerMap h =>
      refine embeds_registerMap.repeats (RegisterMap.repeats_apply (fun e he => ?_) h)
      subst he
      cases hapart with
      | registerMap h => exact h
  | multiMap h =>
      refine embeds_multiMap.repeats (MultiMap.repeats_apply (fun e he => ?_) h)
      subst he
      cases hapart with
      | multiMap h => exact h

theorem repeats {d : Delta} (hfree : d.CounterFree) (hapart : KeysApart T d) {x : Datum T}
    (h : x.Sound) : Outcome.Repeats (apply d) x := by
  induction d, x using deltaInduction with
  | leaf d x hx => exact repeats_leaf hx h hfree hapart
  | refused d m hd =>
      refine embeds_map.repeats (Tracked.repeats_apply fun e he => ?_)
      exact absurd (congrArg Delta.kind he) hd
  | map d m ihadded ihupdated =>
      refine embeds_map.repeats (Tracked.repeats_apply fun e he => ?_)
      cases he
      cases hfree with
      | map hfree hfree' =>
          cases hapart with
          | map hkeys hapart hapart' =>
              exact DataMap.repeats_merge (sound_map_iff.mp h) keeps_sound hkeys
                (fun e he v hv => ihadded e he v (hfree e he) (hapart e he) hv)
                fun e he v hv => ihupdated e he v (hfree' e he) (hapart' e he) hv

end Datum

/-! ## All types -/

namespace Replicated

/-- A delta in which no two entries for one map are for the same key, at any depth; the types of the
keys are those of the data that the delta is for. -/
def Form.KeysApart : {σ : Type} → {inst : Replicated σ} → Form σ inst → Delta → Prop
  | _, _, counter, _ => True
  | _, _, @register _ _, _ => True
  | _, _, flag, _ => True
  | _, _, vote, _ => True
  | _, _, @growSet _ _, _ => True
  | _, _, @set _ _, _ => True
  | _, _, @counterMap K _, d => ∀ e, d = .counterMap e → Contents.KeysApart K e.updated
  | _, _, @registerMap K _ _ _, d => ∀ e, d = .registerMap e → Contents.KeysApart K e.updated
  | _, _, @multiMap K _ _ _, d => ∀ e, d = .multiMap e → Contents.KeysApart K e.updated
  | _, _, @datum T _, d => Datum.KeysApart T d
  | _, _, @map K _ _ _ values, d => ∀ e, d = .map e →
      Contents.KeysApart K (e.added ++ e.updated) ∧
        (∀ x ∈ e.added, values.KeysApart x.delta) ∧ ∀ x ∈ e.updated, values.KeysApart x.delta

/-- A delta without changes to counters, and with at most one entry for each key, changes nothing
more when it is merged again. -/
theorem apply_twice {σ : Type} {inst : Replicated σ} (form : Form σ inst) {d : Delta}
    (hfree : d.CounterFree) (hapart : form.KeysApart d) {s : σ} (hs : form.Sound s)
    (hok : (apply d s).failure = none) :
    (apply d (apply d s).state).failure = none ∧
      (apply d (apply d s).state).state = (apply d s).state := by
  have hrepeats : Outcome.Repeats (apply d) s := by
    clear hok
    induction form generalizing d with
    | counter => exact s.repeats_apply hfree
    | register V => exact Tracked.repeats_apply fun e _ => s.repeats_merge e
    | flag => exact Tracked.repeats_apply fun e _ => s.repeats_merge e
    | vote => exact Tracked.repeats_apply fun e _ => s.repeats_merge e
    | growSet V => exact Tracked.repeats_apply fun e _ => GrowSet.repeats_merge hs e
    | set V => exact Tracked.repeats_apply fun e _ => AddRemoveSet.repeats_merge hs e
    | counterMap K => exact CounterMap.repeats_apply hfree hs
    | registerMap K V => exact RegisterMap.repeats_apply hapart hs
    | multiMap K V => exact MultiMap.repeats_apply hapart hs
    | datum T => exact Datum.repeats hfree hapart hs
    | map K values ih =>
        refine Tracked.repeats_apply fun e he => ?_
        obtain ⟨hkeys, hadded, hupdated⟩ := hapart e he
        subst he
        cases hfree with
        | map hfree hfree' =>
            exact DataMap.repeats_merge hs values.keeps_sound hkeys
              (fun e he v hv => ih (hfree e he) (hadded e he) hv)
              fun e he v hv => ih (hfree' e he) (hupdated e he) hv
  exact hrepeats hok

/-- A delta removes a key and brings it back with a set, which it also clears, beside a register that
is new.  The second time it meets both keys. -/
theorem apply_twice_where_key_returns :
    let k : Payload := ⟨"", [1]⟩
    let k' : Payload := ⟨"", [2]⟩
    let form : Form (DataMap Payload (Datum Payload)) inferInstance := .map _ (.datum _)
    let start : DataMap Payload (Datum Payload) :=
      (apply (.map ⟨false, [], [⟨k, .vote ⟨true, 1, 1⟩⟩], []⟩) {}).state
    let d : Delta := .map ⟨false, [k],
      [⟨k, .set ⟨true, [k], [k, k']⟩⟩, ⟨k', .register ⟨some k, .standard, 0⟩⟩], []⟩
    d.CounterFree ∧ form.KeysApart d ∧ form.Sound start ∧ (apply d start).failure = none ∧
      (apply d (apply d start).state).failure = none ∧
      (apply d (apply d start).state).state = (apply d start).state := by
  intro k k' form start d
  have hfree : d.CounterFree := by
    refine .map (fun e he => ?_) fun e he => by cases he
    rcases List.mem_cons.mp he with rfl | he
    · exact .set _
    · cases List.mem_singleton.mp he
      exact .register _
  have hapart : form.KeysApart d := by
    intro e he
    obtain rfl := Delta.map.inj he
    refine ⟨?_, fun x hx => ?_, fun x hx => by cases hx⟩
    · refine List.pairwise_pair.mpr fun p p' hp hp' => ?_
      cases hp
      cases hp'
      decide
    · rcases List.mem_cons.mp hx with rfl | hx
      · exact .set _
      · cases List.mem_singleton.mp hx
        exact .register _
  have hsound : form.Sound start := form.keeps_sound.apply _ _ (DataMap.Sound.empty false none)
  have hok : (apply d start).failure = none := by decide
  exact ⟨hfree, hapart, hsound, hok, apply_twice form hfree hapart hsound hok⟩

end Replicated

end DeltaReplica
