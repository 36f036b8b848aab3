import DeltaReplica.Proofs.Commutation

/-!
# Additive deltas

A delta is additive if nothing in it is cleared or removed, and nothing in it is a write that the
next write replaces, so it has no registers and no votes.  Additive deltas of data of any type
commute, if their updated entries are for keys that are there: where a key is new, all that the
deltas say about it is added, and whichever comes first creates the same empty value for it.
-/

namespace DeltaReplica

/-! ## What is said of a delta -/

/-- A delta in which nothing is cleared or removed, at any depth, and which writes to no register and
casts no vote. -/
inductive Delta.Additive : Delta → Prop
  | counter (d : CounterDelta) : Additive (.counter d)
  | flag (d : FlagDelta) : Additive (.flag d)
  | growSet (d : GrowSetDelta) : Additive (.growSet d)
  | set {d : SetDelta} (h : d.AddsOnly) : Additive (.set d)
  | map {d : MapDelta Delta} (hcleared : d.cleared = false) (hremoved : d.removed = [])
      (hadded : ∀ e ∈ d.added, Additive e.delta) (hupdated : ∀ e ∈ d.updated, Additive e.delta) :
      Additive (.map d)
  | counterMap {d : UniformMapDelta CounterDelta} (hcleared : d.cleared = false)
      (hremoved : d.removed = []) : Additive (.counterMap d)
  | registerMap {d : UniformMapDelta RegisterDelta} (hcleared : d.cleared = false)
      (hremoved : d.removed = []) (hupdated : d.updated = []) : Additive (.registerMap d)
  | multiMap {d : UniformMapDelta SetDelta} (hcleared : d.cleared = false)
      (hremoved : d.removed = []) (hupdated : ∀ e ∈ d.updated, e.delta.AddsOnly) :
      Additive (.multiMap d)

/-- A delta in which no map has updated entries, at any depth. -/
inductive Delta.NoUpdates : Delta → Prop
  | leaf {d : Delta} (h : d.kind ≠ .map) : NoUpdates d
  | map {d : MapDelta Delta} (hupdated : d.updated = []) (hadded : ∀ e ∈ d.added, NoUpdates e.delta) :
      NoUpdates (.map d)

/-- What the entries of a delta meet in the contents of a map: values that they are for, keys that
are missing, which only added entries may meet, and keys that are there. -/
structure MapDelta.Meets {K V : Type} [Element K] (Met : Delta → V → Prop) (Missed : Delta → Prop)
    (d : MapDelta Delta) (m : Entries K V) : Prop where
  found : ∀ e ∈ d.added ++ d.updated, ∀ k : K, e.key.read Element.decode = .ok k → ∀ v,
    m.valueAt? (Element.key k) = some v → Met e.delta v
  missing : ∀ e ∈ d.added, ∀ k : K, e.key.read Element.decode = .ok k →
    m.contains (Element.key k) = false → Missed e.delta
  present : ∀ e ∈ d.updated, ∀ k : K, e.key.read Element.decode = .ok k →
    m.contains (Element.key k) = true

/-- A delta whose updated entries are for keys that are there, at every depth. -/
inductive Datum.UpdatesKnown {T : Type} [Element T] : Delta → Datum T → Prop
  | leaf {d : Delta} {x : Datum T} (h : d.kind ≠ .map ∨ x.kind ≠ .map) : UpdatesKnown d x
  | map {d : MapDelta Delta} {m : DataMap T (Datum T)}
      (found : ∀ e ∈ d.added ++ d.updated, ∀ k : T, e.key.read Element.decode = .ok k → ∀ v,
        m.entries.valueAt? (Element.key k) = some v → UpdatesKnown e.delta v)
      (missing : ∀ e ∈ d.added, ∀ k : T, e.key.read Element.decode = .ok k →
        m.entries.contains (Element.key k) = false → e.delta.NoUpdates)
      (present : ∀ e ∈ d.updated, ∀ k : T, e.key.read Element.decode = .ok k →
        m.entries.contains (Element.key k) = true) :
      UpdatesKnown (.map d) (.map m)

namespace MapDelta

variable {K V : Type} [Element K] {Met Met' : Delta → V → Prop} {Missed Missed' : Delta → Prop}
  {d : MapDelta Delta} {m : Entries K V}

theorem Meets.mono (h : d.Meets Met Missed m)
    (hmet : ∀ e ∈ d.added ++ d.updated, ∀ v, Met e.delta v → Met' e.delta v)
    (hmissed : ∀ e ∈ d.added, Missed e.delta → Missed' e.delta) : d.Meets Met' Missed' m := by
  refine ⟨fun e he k hk v hv => ?_, fun e he k hk hck => ?_, h.present⟩
  · exact hmet e he v (h.found e he k hk v hv)
  · exact hmissed e he (h.missing e he k hk hck)

theorem meets_of_updated_eq_nil (hupdated : d.updated = [])
    (hmet : ∀ e ∈ d.added, ∀ v, Met e.delta v) (hmissed : ∀ e ∈ d.added, Missed e.delta)
    (m : Entries K V) : d.Meets Met Missed m := by
  refine ⟨fun e he k _ v _ => ?_, fun e he _ _ _ => hmissed e he, fun e he => ?_⟩
  · rw [hupdated, List.append_nil] at he
    exact hmet e he v
  · rw [hupdated] at he
    exact absurd he List.not_mem_nil

end MapDelta

/-! ## Maps to data -/

theorem DataMap.commutes (K : Type) {V : Type} [Element K] [Replicated V] {Fits : Delta → V → Prop}
    {S : V → V → Prop} (h : Commutes Replicated.apply Replicated.createFor Fits S) :
    Commutes (σ := DataMap K V) Tracked.merge Tracked.create
      (fun d m => d.cleared = false ∧ d.removed = [] ∧
        d.Meets Fits (fun e => ∀ v, Fits e v) m.entries) (Same S) := by
  refine .of_create (fun _ => rfl) fun {ds m} hfits => ?_
  have hentries : Outcome.Commute
      (fun d es => mergeEntries d.cleared d.removed (d.added.map changeOf) (d.updated.map changeOf) es)
      (Contents.Alike S) ds m.entries := by
    refine .of_flatMap entryItems (fun d hd _ m => ?_)
      (Contents.commute_entries h fun i hi hok => ?_)
    · obtain ⟨hcleared, hremoved, -⟩ := hfits d hd
      rw [mergeEntries_eq_each_step, hremoved, hcleared, List.map_nil, List.nil_append,
        Outcome.each_map]
      rfl
    · obtain ⟨d, hd, hi⟩ := List.mem_flatMap.mp hi
      obtain ⟨-, -, hmeets⟩ := hfits d hd
      have hchange (e : EntryDelta Delta) :
          (changeOf (V := V) e).IsFor Replicated.apply Replicated.createFor e := ⟨rfl, rfl, rfl⟩
      rcases List.mem_append.mp hi with hi | hi
      · obtain ⟨e, he, rfl⟩ := List.mem_map.mp hi
        exact Contents.carries_entered (hchange e)
          (hmeets.found e (List.mem_append_left _ he)) (hmeets.missing e he) hok
      · obtain ⟨e, he, rfl⟩ := List.mem_map.mp hi
        exact Contents.carries_touched (hchange e)
          (hmeets.found e (List.mem_append_right _ he)) (hmeets.present e he) hok
  exact hentries.map (fun es => ({ m with entries := es } : DataMap K V)) (fun _ _ _ => rfl)
    fun _ _ h => ⟨h, rfl, rfl, rfl, rfl⟩

/-! ## Plain types -/

section Plain

variable (K V : Type) [Element K] [Element V]

theorem Counter.additive_commute :
    Commutes (σ := Counter) Replicated.apply Replicated.createFor (fun d _ => d.Additive) Eq :=
  Counter.commutes.replicated.mono fun _ _ _ _ _ => trivial

theorem Flag.additive_commute :
    Commutes (σ := Flag) Replicated.apply Replicated.createFor (fun d _ => d.Additive) Eq :=
  Flag.commutes.replicated.mono fun _ _ _ _ _ => trivial

theorem GrowSet.additive_commute :
    Commutes (σ := GrowSet V) Replicated.apply Replicated.createFor (fun d _ => d.Additive) Same :=
  (GrowSet.commutes V).replicated.mono fun _ _ _ _ _ => trivial

theorem Register.additive_commute :
    Commutes (σ := Register V) Replicated.apply Replicated.createFor (fun d _ => d.Additive) Eq := by
  refine (Commutes.of_none Tracked.merge Tracked.create fun _ => rfl).replicated.mono ?_
  rintro _ _ h e rfl
  nomatch h

theorem Vote.additive_commute :
    Commutes (σ := Vote) Replicated.apply Replicated.createFor (fun d _ => d.Additive) Eq := by
  refine (Commutes.of_none Tracked.merge Tracked.create fun _ => rfl).replicated.mono ?_
  rintro _ _ h e rfl
  nomatch h

theorem AddRemoveSet.additive_commute :
    Commutes (σ := AddRemoveSet V) Replicated.apply Replicated.createFor (fun d _ => d.Additive)
      Same := by
  refine (AddRemoveSet.commutes V).replicated.mono ?_
  rintro _ _ h e rfl
  cases h with
  | set h => exact h

theorem CounterMap.additive_commute :
    Commutes (σ := CounterMap K) Replicated.apply Replicated.createFor (fun d _ => d.Additive)
      (UniformMap.Same Eq) := by
  refine (UniformMap.commutes K Counter.commutes).replicated.mono ?_
  rintro _ _ h e rfl
  cases h with
  | counterMap hcleared hremoved => exact ⟨hcleared, hremoved, fun _ _ _ => trivial⟩

theorem RegisterMap.additive_commute :
    Commutes (σ := RegisterMap K V) Replicated.apply Replicated.createFor (fun d _ => d.Additive)
      (UniformMap.Same Eq) := by
  have hnone : Commutes (σ := Register V) Tracked.merge Tracked.create (fun _ _ => False) Eq :=
    .of_none _ _ fun _ => rfl
  refine (UniformMap.commutes K hnone).replicated.mono ?_
  rintro _ _ h e rfl
  cases h with
  | registerMap hcleared hremoved hupdated =>
      refine ⟨hcleared, hremoved, fun e he => ?_⟩
      rw [hupdated] at he
      exact absurd he List.not_mem_nil

theorem MultiMap.additive_commute :
    Commutes (σ := MultiMap K V) Replicated.apply Replicated.createFor (fun d _ => d.Additive)
      (UniformMap.Same AddRemoveSet.Same) := by
  refine (UniformMap.commutes K (AddRemoveSet.commutes V)).replicated.mono ?_
  rintro _ _ h e rfl
  cases h with
  | multiMap hcleared hremoved hupdated =>
      exact ⟨hcleared, hremoved, fun e he _ => hupdated e he⟩

end Plain

/-- Additive deltas of a map commute if those of its entries do. -/
theorem DataMap.additive_commute (K : Type) {V : Type} [Element K] [Replicated V]
    {Known : Delta → V → Prop} {New : Delta → Prop} {S : V → V → Prop}
    (h : Commutes Replicated.apply Replicated.createFor (fun d v => d.Additive ∧ Known d v) S)
    (hnew : ∀ d, New d → ∀ v, Known d v) :
    Commutes (σ := DataMap K V) Replicated.apply Replicated.createFor
      (fun d m => d.Additive ∧ ∀ e, d = .map e → e.Meets Known New m.entries) (Same S) := by
  refine (DataMap.commutes K h).replicated.mono ?_
  rintro _ m ⟨hadditive, hmeets⟩ e rfl
  cases hadditive with
  | map hcleared hremoved hadded hupdated =>
      refine ⟨hcleared, hremoved, (hmeets e rfl).mono (fun i hi v hv => ?_) fun i hi hi' v => ?_⟩
      · exact ⟨(List.mem_append.mp hi).elim (hadded i) (hupdated i), hv⟩
      · exact ⟨hadded i hi, hnew _ hi' v⟩

/-! ## Data of any kind -/

theorem Delta.sizeOf_lt_map {d : MapDelta Delta} {e : EntryDelta Delta}
    (he : e ∈ d.added ++ d.updated) : sizeOf e.delta < sizeOf (Delta.map d) := by
  obtain ⟨cleared, removed, added, updated⟩ := d
  obtain ⟨key, delta⟩ := e
  rcases List.mem_append.mp he with he | he
  · have hlt := List.sizeOf_lt_of_mem he
    simp at hlt ⊢
    omega
  · have hlt := List.sizeOf_lt_of_mem he
    simp at hlt ⊢
    omega

namespace Datum

variable {T : Type} [Element T]

theorem updatesKnown_map_iff {d : MapDelta Delta} {m : DataMap T (Datum T)} :
    UpdatesKnown (.map d) (.map m) ↔ d.Meets UpdatesKnown Delta.NoUpdates m.entries := by
  constructor
  · intro h
    cases h with
    | leaf h => exact absurd h (by simp [Delta.kind, kind])
    | map found missing present => exact ⟨found, missing, present⟩
  · intro h
    exact .map h.found h.missing h.present

theorem updatesKnown_of_noUpdates {d : Delta} (h : d.NoUpdates) (x : Datum T) : UpdatesKnown d x := by
  induction h generalizing x with
  | leaf h => exact .leaf (Or.inl h)
  | map hupdated hadded ih =>
      by_cases hx : x.kind = .map
      · obtain ⟨m, rfl⟩ := exists_map_of_kind hx
        exact updatesKnown_map_iff.mpr (MapDelta.meets_of_updated_eq_nil hupdated ih hadded _)
      · exact .leaf (Or.inr hx)

theorem kind_apply (d : Delta) (x : Datum T) : (apply d x).state.kind = x.kind := by
  refine tracked_cases x fun h hkind s => ?_
  rw [h.apply, Outcome.state_map, hkind, hkind]

theorem kind_of_createFor {d : Delta} (hd : d.Additive) {x : Datum T} (h : createFor d = .ok x) :
    x.kind = d.kind := by
  cases hd <;> cases h <;> rfl

/-- Empty data for additive deltas differ in kind only. -/
theorem createFor_eq_of_kind {d d' : Delta} (h : d.Additive) (h' : d'.Additive)
    (hkind : d.kind = d'.kind) : createFor (T := T) d = createFor d' := by
  cases h <;> cases h' <;> first | rfl | cases hkind

theorem create_eq {ds : List Delta} {d d' : Delta} {x x' : Datum T} (hx : createFor d = .ok x)
    (hx' : createFor d' = .ok x') (hd : d.Additive) (hd' : d'.Additive) (hmem : d' ∈ ds)
    (hok : (Outcome.each apply ds x).failure = none) : x = x' := by
  obtain ⟨y, hy, hok⟩ := Outcome.exists_kept_of_each_ok (P := fun y => y.kind = x.kind)
    (fun d _ y hy => (kind_apply d y).trans hy) rfl hok hmem
  -- the other delta goes through, so it is of the kind of the data
  have hkind : d'.kind = y.kind := by
    refine Decidable.byContradiction fun hne => ?_
    rw [apply_of_kind_ne hne] at hok
    cases hok
  rw [hy, kind_of_createFor hd hx] at hkind
  rw [createFor_eq_of_kind hd hd' hkind.symm, hx'] at hx
  exact (Except.ok.inj hx).symm

theorem Embeds.commute {σ δ : Type} [Tracked σ δ] [DeltaForm δ] {mk : σ → Datum T} (h : Embeds mk)
    {Fits : Delta → σ → Prop} {S : σ → σ → Prop}
    (hcommute : Commutes Replicated.apply Replicated.createFor Fits S)
    (hS : ∀ s s', S s s' → Same (mk s) (mk s')) {ds : List Delta} {s : σ}
    (hfits : ∀ d ∈ ds, Fits d s) : Outcome.Commute Replicated.apply Same ds (mk s) :=
  (hcommute.commute hfits).map mk (fun d _ => h.apply d) hS

theorem additive_commute_leaf {x : Datum T} (hx : x.kind ≠ .map) {ds : List Delta}
    (hds : ∀ d ∈ ds, d.Additive) : Outcome.Commute Replicated.apply Same ds x := by
  cases x with
  | counter c =>
      refine embeds_counter.commute Counter.additive_commute ?_ hds
      rintro c _ rfl
      exact .counter c
  | register r =>
      refine embeds_register.commute (Register.additive_commute T) ?_ hds
      rintro r _ rfl
      exact .register r
  | set s => exact embeds_set.commute (AddRemoveSet.additive_commute T) (fun _ _ => .set) hds
  | vote v =>
      refine embeds_vote.commute Vote.additive_commute ?_ hds
      rintro v _ rfl
      exact .vote v
  | map m => exact absurd rfl hx
  | counterMap m =>
      exact embeds_counterMap.commute (CounterMap.additive_commute T) (fun _ _ => .counterMap) hds
  | registerMap m =>
      exact embeds_registerMap.commute (RegisterMap.additive_commute T T) (fun _ _ => .registerMap) hds
  | multiMap m =>
      exact embeds_multiMap.commute (MultiMap.additive_commute T T) (fun _ _ => .multiMap) hds

/-- The deltas are of bounded size, since the ones below a key are of the entries of several deltas,
and all of them smaller. -/
theorem additive_commute_below (n : Nat) :
    Commutes (σ := Datum T) Replicated.apply Replicated.createFor
      (fun d x => d.Additive ∧ sizeOf d < n ∧ UpdatesKnown d x) Same := by
  induction n with
  | zero =>
      refine (Commutes.of_none _ _ Same.refl).mono ?_
      rintro d x ⟨-, hd, -⟩
      exact Nat.not_lt_zero _ hd
  | succ n ih =>
      constructor
      case commute =>
        intro ds x hfits
        have hadditive : ∀ d ∈ ds, d.Additive := fun d hd => (hfits d hd).1
        by_cases hx : x.kind = .map
        · obtain ⟨m, rfl⟩ := exists_map_of_kind hx
          have hmaps := DataMap.additive_commute T ih
            fun d (hd : sizeOf d < n ∧ d.NoUpdates) x => ⟨hd.1, updatesKnown_of_noUpdates hd.2 x⟩
          refine embeds_map.commute hmaps (fun _ _ => .of_map) fun d hd => ⟨hadditive d hd, ?_⟩
          rintro e rfl
          obtain ⟨-, hsize, hknown⟩ := hfits _ hd
          have hlt : ∀ i ∈ e.added ++ e.updated, sizeOf i.delta < n := by
            intro i hi
            have hlt := Delta.sizeOf_lt_map hi
            omega
          exact (updatesKnown_map_iff.mp hknown).mono (fun i hi _ hv => ⟨hlt i hi, hv⟩)
            fun i hi hnew => ⟨hlt i (List.mem_append_left _ hi), hnew⟩
        · exact additive_commute_leaf hx hadditive
      case create_eq =>
        rintro ds d d' x x' hx hx' ⟨hd, -⟩ ⟨hd', -⟩ hmem hok
        exact create_eq hx hx' hd hd' hmem hok

theorem additive_commute :
    Commutes (σ := Datum T) Replicated.apply Replicated.createFor
      (fun d x => d.Additive ∧ UpdatesKnown d x) Same := by
  constructor
  case commute =>
    intro ds x hfits
    refine (additive_commute_below (sizeOf ds)).commute fun d hd => ?_
    exact ⟨(hfits d hd).1, List.sizeOf_lt_of_mem hd, (hfits d hd).2⟩
  case create_eq =>
    rintro ds d d' x x' hx hx' ⟨hd, -⟩ ⟨hd', -⟩ hmem hok
    exact create_eq hx hx' hd hd' hmem hok

end Datum

/-! ## All types -/

namespace Replicated

/-- A delta whose updated entries are for keys that are there, at every depth. -/
def Form.UpdatesKnown : {σ : Type} → {inst : Replicated σ} → Form σ inst → Delta → σ → Prop
  | _, _, counter, _, _ => True
  | _, _, @register _ _, _, _ => True
  | _, _, flag, _, _ => True
  | _, _, vote, _, _ => True
  | _, _, @growSet _ _, _, _ => True
  | _, _, @set _ _, _, _ => True
  | _, _, @counterMap _ _, _, _ => True
  | _, _, @registerMap _ _ _ _, _, _ => True
  | _, _, @multiMap _ _ _ _, _, _ => True
  | _, _, @datum _ _, d, x => Datum.UpdatesKnown d x
  | _, _, @map _ _ _ _ values, d, m => ∀ e, d = .map e →
      e.Meets values.UpdatesKnown Delta.NoUpdates (DataMap.entries m)

theorem Form.updatesKnown_of_noUpdates {σ : Type} {inst : Replicated σ} (form : Form σ inst)
    {d : Delta} (h : d.NoUpdates) (s : σ) : form.UpdatesKnown d s := by
  induction form generalizing d with
  | datum T => exact Datum.updatesKnown_of_noUpdates h s
  | map K values ih =>
      rintro e rfl
      cases h with
      | leaf h => exact absurd rfl h
      | map hupdated hadded =>
          exact MapDelta.meets_of_updated_eq_nil hupdated (fun i hi => ih (hadded i hi)) hadded _
  | _ => trivial

theorem Form.additive_commute {σ : Type} {inst : Replicated σ} (form : Form σ inst) :
    Commutes (σ := σ) apply createFor (fun d s => d.Additive ∧ form.UpdatesKnown d s) form.Same := by
  induction form with
  | counter => exact Counter.additive_commute.mono fun _ _ h => h.1
  | register V => exact (Register.additive_commute V).mono fun _ _ h => h.1
  | flag => exact Flag.additive_commute.mono fun _ _ h => h.1
  | vote => exact Vote.additive_commute.mono fun _ _ h => h.1
  | growSet V => exact (GrowSet.additive_commute V).mono fun _ _ h => h.1
  | set V => exact (AddRemoveSet.additive_commute V).mono fun _ _ h => h.1
  | counterMap K => exact (CounterMap.additive_commute K).mono fun _ _ h => h.1
  | registerMap K V => exact (RegisterMap.additive_commute K V).mono fun _ _ h => h.1
  | multiMap K V => exact (MultiMap.additive_commute K V).mono fun _ _ h => h.1
  | datum T => exact Datum.additive_commute
  | map K values ih =>
      exact DataMap.additive_commute K ih fun _ h s => values.updatesKnown_of_noUpdates h s

/-- Two additive deltas whose updated entries are for keys that are there lead to the same contents
and the same pending changes in either order. -/
theorem additive_deltas_commute {σ : Type} {inst : Replicated σ} (form : Form σ inst)
    {d₁ d₂ : Delta} {s : σ} (h₁ : d₁.Additive) (h₂ : d₂.Additive) (hk₁ : form.UpdatesKnown d₁ s)
    (hk₂ : form.UpdatesKnown d₂ s)
    (hok₁ : (apply d₁ s).failure = none) (hok₁₂ : (apply d₂ (apply d₁ s).state).failure = none)
    (hok₂ : (apply d₂ s).failure = none) (hok₂₁ : (apply d₁ (apply d₂ s).state).failure = none) :
    form.Same (apply d₂ (apply d₁ s).state).state (apply d₁ (apply d₂ s).state).state ∧
      (form.Sound s → form.KeyedApart →
        (apply d₂ (apply d₁ s).state).state = (apply d₁ (apply d₂ s).state).state) := by
  have hfits : ∀ d ∈ [d₁, d₂], d.Additive ∧ form.UpdatesKnown d s := by
    simp [h₁, h₂, hk₁, hk₂]
  have hpair {d d' : Delta} (hok : (apply d s).failure = none)
      (hok' : (apply d' (apply d s).state).failure = none) :
      (Outcome.each apply [d, d'] s).failure = none ∧
        (Outcome.each apply [d, d'] s).state = (apply d' (apply d s).state).state := by
    rw [Outcome.each_cons, Outcome.failure_andThen_eq_none_iff, Outcome.state_andThen hok,
      Outcome.each_cons, Outcome.andThen_each_nil]
    exact ⟨⟨hok, hok'⟩, rfl⟩
  have hsame := form.additive_commute.commute hfits [d₂, d₁] (.swap d₂ d₁ [])
    (hpair hok₁ hok₁₂).1 (hpair hok₂ hok₂₁).1
  rw [(hpair hok₁ hok₁₂).2, (hpair hok₂ hok₂₁).2] at hsame
  refine ⟨hsame, fun hs hkey => form.eq_of_same hkey hsame ?_ ?_⟩
  · exact form.keeps_sound.apply d₂ _ (form.keeps_sound.apply d₁ s hs)
  · exact form.keeps_sound.apply d₁ _ (form.keeps_sound.apply d₂ s hs)

/-- Both deltas add a key, one of them with two entries for the counter below it, and one changes
what is under a key that is there. -/
theorem additive_deltas_commute_on_added_key :
    let k : Payload := ⟨"", [1]⟩
    let k' : Payload := ⟨"", [2]⟩
    let form : Form (DataMap Payload (Datum Payload)) inferInstance := .map _ (.datum _)
    let start : DataMap Payload (Datum Payload) :=
      (apply (.map ⟨false, [], [⟨k, .map ⟨false, [], [⟨k, .counter ⟨5⟩⟩], []⟩⟩], []⟩) {}).state
    let d₁ : Delta := .map ⟨false, [],
      [⟨k', .map ⟨false, [], [⟨k, .counter ⟨1⟩⟩, ⟨k, .counter ⟨2⟩⟩], []⟩⟩],
      [⟨k, .map ⟨false, [], [⟨k, .counter ⟨-5⟩⟩], []⟩⟩]⟩
    let d₂ : Delta := .map ⟨false, [],
      [⟨k', .map ⟨false, [], [⟨k', .set ⟨false, [], [k, k']⟩⟩, ⟨k, .counter ⟨3⟩⟩], []⟩⟩], []⟩
    d₁.Additive ∧ d₂.Additive ∧ form.UpdatesKnown d₁ start ∧ form.UpdatesKnown d₂ start ∧
      (apply d₁ start).failure = none ∧ (apply d₂ (apply d₁ start).state).failure = none ∧
      (apply d₂ start).failure = none ∧ (apply d₁ (apply d₂ start).state).failure = none ∧
      form.Sound start ∧ form.KeyedApart ∧
      (apply d₂ (apply d₁ start).state).state = (apply d₁ (apply d₂ start).state).state := by
  intro k k' form start d₁ d₂
  have h₁ : d₁.Additive := by
    refine .map rfl rfl ?_ ?_ <;> refine List.forall_mem_singleton.mpr (.map rfl rfl ?_ (by simp))
    · simp [Delta.Additive.counter]
    · simp [Delta.Additive.counter]
  have h₂ : d₂.Additive := by
    refine .map rfl rfl (List.forall_mem_singleton.mpr (.map rfl rfl ?_ (by simp))) (by simp)
    exact List.forall_mem_cons.mpr ⟨.set ⟨rfl, rfl⟩, List.forall_mem_singleton.mpr (.counter _)⟩
  have hcounter (c : Int64) : (Delta.counter ⟨c⟩).NoUpdates := .leaf (by simp [Delta.kind])
  have hadds : (Delta.map ⟨false, [], [⟨k, .counter ⟨1⟩⟩, ⟨k, .counter ⟨2⟩⟩], []⟩).NoUpdates :=
    .map rfl (by simp [hcounter])
  have hchanges : (Delta.map ⟨false, [], [⟨k, .counter ⟨-5⟩⟩], []⟩).NoUpdates :=
    .map rfl (by simp [hcounter])
  have hk₁ : form.UpdatesKnown d₁ start := by
    intro e he
    obtain rfl := Delta.map.inj he
    refine ⟨fun i hi _ _ v _ => ?_, fun i hi _ _ _ => ?_, fun i hi _ hread => ?_⟩
    · rcases List.mem_cons.mp hi with rfl | hi
      · exact Datum.updatesKnown_of_noUpdates hadds v
      · obtain rfl := List.mem_singleton.mp hi
        exact Datum.updatesKnown_of_noUpdates hchanges v
    · obtain rfl := List.mem_singleton.mp hi
      exact hadds
    · obtain rfl := List.mem_singleton.mp hi
      obtain rfl := Except.ok.inj hread
      decide
  have hk₂ : form.UpdatesKnown d₂ start := by
    refine form.updatesKnown_of_noUpdates (.map rfl (List.forall_mem_singleton.mpr ?_)) start
    refine .map rfl (List.forall_mem_cons.mpr ⟨.leaf (by simp [Delta.kind]), ?_⟩)
    exact List.forall_mem_singleton.mpr (hcounter 3)
  have hok₁ : (apply d₁ start).failure = none := by decide
  have hok₁₂ : (apply d₂ (apply d₁ start).state).failure = none := by decide
  have hok₂ : (apply d₂ start).failure = none := by decide
  have hok₂₁ : (apply d₁ (apply d₂ start).state).failure = none := by decide
  have hsound : form.Sound start := form.keeps_sound.apply _ _ (DataMap.Sound.empty false none)
  have hkey : form.KeyedApart :=
    ⟨fun _ _ => Payload.toKey_injective, fun _ _ => Payload.toKey_injective⟩
  have hcommute := additive_deltas_commute form h₁ h₂ hk₁ hk₂ hok₁ hok₁₂ hok₂ hok₂₁
  exact ⟨h₁, h₂, hk₁, hk₂, hok₁, hok₁₂, hok₂, hok₂₁, hsound, hkey, hcommute.2 hsound hkey⟩

end Replicated

end DeltaReplica
