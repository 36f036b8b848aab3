import DeltaReplica.Proofs.Forms
import DeltaReplica.Proofs.Handover

/-!
# Deltas that fail part-way

A delta that cannot be merged as a whole leaves the data as they were, or as they are after
a truncation of the delta, which is merged as a whole.  A truncation breaks off in the order
in which a delta is merged: removals, added entries, updated entries.  The last entry of a
truncation may carry a truncation of its own delta, but only if its key was there when the
entry was reached.  A value that is new to a map never enters it half-merged.

The truncation is found along the way to the failure.  `Outcome.exists_of_each_fails` splits a
list at the item that fails, and `Contents.Alters.each_fails` does so for the entries of
a map, where the entry that fails is truncated in turn.
-/

namespace DeltaReplica

/-! ## Lists that break off -/

namespace Outcome

variable {σ τ δ α : Type}

/-- If one step after another fails, then the first fails and nothing follows, or the second
does. -/
theorem andThen_fails {o : Outcome σ} {next : σ → Outcome σ} (h : (o.andThen next).failure ≠ none) :
    o.failure ≠ none ∧ (o.andThen next).state = o.state ∨
      o.failure = none ∧ (next o.state).failure ≠ none ∧
        (o.andThen next).state = (next o.state).state := by
  cases ho : o.failure with
  | some e => exact Or.inl ⟨by simp, by simp [andThen, ho]⟩
  | none =>
      refine Or.inr ⟨rfl, fun hnext => h ?_, state_andThen ho⟩
      exact failure_andThen_eq_none_iff.mpr ⟨ho, hnext⟩

/-- A list of steps fails at one item, after all before it went through. -/
theorem exists_of_each_fails {step : α → σ → Outcome σ} {as : List α} {s : σ}
    (h : (each step as s).failure ≠ none) :
    ∃ before a after, as = before ++ a :: after ∧ (each step before s).failure = none ∧
      (step a (each step before s).state).failure ≠ none ∧
      (each step as s).state = (step a (each step before s).state).state := by
  induction as generalizing s with
  | nil => exact absurd rfl h
  | cons a as ih =>
      rcases andThen_fails h with ⟨hfirst, hstate⟩ | ⟨hfirst, hrest, hstate⟩
      · exact ⟨[], a, as, rfl, rfl, hfirst, hstate⟩
      · obtain ⟨before, b, after, rfl, hok, hfails, hleft⟩ := ih hrest
        refine ⟨a :: before, b, after, rfl, ?_, ?_, ?_⟩
        · exact failure_andThen_eq_none_iff.mpr ⟨hfirst, hok⟩
        · rwa [each_cons, state_andThen hfirst]
        · rw [each_cons, hstate, hleft, each_cons, state_andThen hfirst]

/-- If steps that fail change nothing, then the items before the one that fails do the same. -/
theorem exists_isPrefix_of_each_fails {step : α → σ → Outcome σ}
    (hstep : ∀ a s, (step a s).failure ≠ none → (step a s).state = s) {as : List α} {s : σ}
    (h : (each step as s).failure ≠ none) :
    ∃ before, before <+: as ∧ (each step before s).failure = none ∧
      (each step before s).state = (each step as s).state := by
  obtain ⟨before, a, after, rfl, hok, hfails, hleft⟩ := exists_of_each_fails h
  exact ⟨before, List.prefix_append _ _, hok, by rw [hleft, hstep _ _ hfails]⟩

/-- If nothing can fail but the computation of what a step needs, then a step that fails changes
nothing. -/
theorem state_withResult_of_fails {r : Except DeltaError α} {s : σ} {next : α → Outcome σ}
    (hnext : ∀ a, (next a).failure = none) (h : (withResult r s next).failure ≠ none) :
    (withResult r s next).state = s := by
  cases r with
  | error e => rfl
  | ok a => exact absurd (hnext a) h

/-- If a delta fails, then it leaves the state as it was, or as a truncation of it does that goes
through. -/
def BreaksOff (act : δ → Outcome σ) (s : σ) (T : δ → δ → Prop) (d : δ) : Prop :=
  (act d).failure ≠ none →
    (act d).state = s ∨
      ∃ d', T d d' ∧ (act d').failure = none ∧ (act d').state = (act d).state

theorem BreaksOff.of_failure {act : δ → Outcome σ} {s : σ} {T : δ → δ → Prop} {d : δ}
    (h : (act d).failure = none) : BreaksOff act s T d :=
  fun hfails => absurd h hfails

theorem BreaksOff.of_fails {act : δ → Outcome σ} {s : σ} {T : δ → δ → Prop} {d : δ}
    (h : (act d).failure ≠ none → (act d).state = s) : BreaksOff act s T d :=
  fun hfails => Or.inl (h hfails)

theorem BreaksOff.map {act : δ → Outcome σ} {s : σ} {T T' : δ → δ → Prop} {d : δ}
    (h : BreaksOff act s T d) (f : σ → τ) (hT : ∀ d', T d d' → T' d d') :
    BreaksOff (fun d => (act d).map f) (f s) T' d := by
  intro hfails
  rcases h hfails with hsame | ⟨d', hd', hok, hstate⟩
  · exact Or.inl (congrArg f hsame)
  · exact Or.inr ⟨d', hT d' hd', hok, congrArg f hstate⟩

end Outcome

namespace Tracked

variable {σ δ : Type} [Tracked σ δ] [DeltaForm δ] {s : σ} {d : Delta}

/-- Deltas of other kinds leave the data as they were as well. -/
theorem state_apply_of_fails
    (h : ∀ e : δ, (Tracked.merge e s).failure ≠ none → (Tracked.merge e s).state = s)
    (hfails : (Replicated.apply d s).failure ≠ none) : (Replicated.apply d s).state = s := by
  rcases apply_cases d s with ⟨-, hsame⟩ | ⟨e, -, hmerge⟩
  · exact hsame
  · rw [hmerge] at hfails ⊢
    exact h e hfails

/-- If merging changes a part of the data, then so does every delta, at most. -/
theorem exists_state_apply {C : Type} (put : C → σ) (c : C) (hput : put c = s)
    (h : ∀ e : δ, ∃ c, (Tracked.merge e s).state = put c) (d : Delta) :
    ∃ c, (Replicated.apply d s).state = put c := by
  rcases apply_cases d s with ⟨-, hsame⟩ | ⟨e, -, hmerge⟩
  · exact ⟨c, hsame.trans hput.symm⟩
  · rw [hmerge]
    exact h e

end Tracked

/-- A relation between deltas of one form, among all deltas. -/
inductive DeltaForm.Lift {δ : Type} [DeltaForm δ] (R : δ → δ → Prop) : Delta → Delta → Prop
  | wrap {d d' : δ} (h : R d d') : Lift R (DeltaForm.wrap d) (DeltaForm.wrap d')

theorem Tracked.breaksOff_apply {σ δ : Type} [Tracked σ δ] [DeltaForm δ] {s : σ}
    {R : δ → δ → Prop} {d : Delta}
    (h : ∀ e : δ, d = DeltaForm.wrap e → Outcome.BreaksOff (fun e => Tracked.merge e s) s R e) :
    Outcome.BreaksOff (fun d => Replicated.apply d s) s (DeltaForm.Lift R) d := by
  intro hfails
  rcases apply_cases d s with ⟨-, hsame⟩ | ⟨e, rfl, hmerge⟩
  · exact Or.inl hsame
  · simp only [apply_wrap] at hfails ⊢
    rcases h e rfl hfails with hsame | ⟨e', he', hok, hstate⟩
    · exact Or.inl hsame
    · exact Or.inr ⟨DeltaForm.wrap e', .wrap he', by rwa [apply_wrap], by rwa [apply_wrap]⟩

/-! ## Registers and sets -/

theorem Register.state_merge_of_fails {V : Type} [Element V] (r : Register V) (d : RegisterDelta)
    (h : (Tracked.merge d r).failure ≠ none) : (Tracked.merge d r).state = r := by
  simp only [Tracked.merge, merge] at h ⊢
  cases hd : d.value with
  | none => simp [hd] at h
  | some p =>
      simp only [hd] at h ⊢
      exact Outcome.state_withResult_of_fails (fun _ => rfl) h

/-- Removals that fail have dropped what the elements before the unreadable one name. -/
theorem Contents.exists_isPrefix_of_dropAll_fails {K α : Type} [Element K] {remark : Remark}
    {ps : List Payload} {m : FinMap Key α} (h : (dropAll K remark ps m).failure ≠ none) :
    ∃ before, before <+: ps ∧ (dropAll K remark before m).failure = none ∧
      (dropAll K remark before m).state = (dropAll K remark ps m).state :=
  Outcome.exists_isPrefix_of_each_fails
    (fun _ _ hfails => Outcome.state_withResult_of_fails (fun _ => rfl) hfails) h

/-- The delta of a growing set breaks off at an element. -/
def GrowSetDelta.Truncates (d d' : GrowSetDelta) : Prop := d'.added <+: d.added

/-- The delta of a set breaks off at a removal, or after all of them at an addition. -/
inductive SetDelta.Truncates (d : SetDelta) : SetDelta → Prop
  | removals {ps : List Payload} (h : ps <+: d.removed) : Truncates d ⟨d.cleared, ps, []⟩
  | additions {ps : List Payload} (h : ps <+: d.added) : Truncates d ⟨d.cleared, d.removed, ps⟩

theorem GrowSet.breaksOff {E : Type} [Element E] (s : GrowSet E) (d : GrowSetDelta) :
    Outcome.BreaksOff (fun d => Tracked.merge d s) s GrowSetDelta.Truncates d := by
  intro hfails
  have hadd : (Outcome.each mergeElement d.added s.elements).failure ≠ none := hfails
  obtain ⟨before, hprefix, hok, hstate⟩ := Outcome.exists_isPrefix_of_each_fails
    (fun _ _ h => Outcome.state_withResult_of_fails (fun _ => rfl) h) hadd
  exact Or.inr ⟨⟨before⟩, hprefix, hok, congrArg (fun m => { s with elements := m }) hstate⟩

namespace AddRemoveSet

variable {E : Type} [Element E]

theorem breaksOff_mergeElements (m : FinMap Key E) (d : SetDelta) :
    Outcome.BreaksOff (fun d => mergeElements d m) m SetDelta.Truncates d := by
  intro hfails
  rcases Outcome.andThen_fails hfails with ⟨hremove, hleft⟩ | ⟨hremove, hadd, hleft⟩
  · obtain ⟨before, hprefix, hok, hstate⟩ := Contents.exists_isPrefix_of_dropAll_fails hremove
    have hcut : mergeElements ⟨d.cleared, before, []⟩ m =
        Contents.dropAll E .removesMissingElement before (Contents.clearIf d.cleared m) :=
      Outcome.andThen_each_nil _ _
    refine Or.inr ⟨⟨d.cleared, before, []⟩, .removals hprefix, ?_, ?_⟩
    · simp only [hcut, hok]
    · simp only [hcut, hstate]
      exact hleft.symm
  · obtain ⟨before, hprefix, hok, hstate⟩ := Outcome.exists_isPrefix_of_each_fails
      (fun _ _ h => Outcome.state_withResult_of_fails (fun _ => rfl) h) hadd
    refine Or.inr ⟨⟨d.cleared, d.removed, before⟩, .additions hprefix, ?_, ?_⟩
    · exact Outcome.failure_andThen_eq_none_iff.mpr ⟨hremove, hok⟩
    · exact ((Outcome.state_andThen hremove).trans hstate).trans hleft.symm

theorem breaksOff (s : AddRemoveSet E) (d : SetDelta) :
    Outcome.BreaksOff (fun d => Tracked.merge d s) s SetDelta.Truncates d :=
  (breaksOff_mergeElements s.elements d).map (fun m => ({ s with elements := m } : AddRemoveSet E))
    fun _ h => h

end AddRemoveSet

/-! ## Entries -/

namespace Contents

variable {K V δ : Type} [Element K] {P : V → Prop} {m : Entries K V}

/-- The entries of a delta up to some point, given the contents that some of them reach.  The last
entry may carry a truncated delta, if its key is there when it is reached. -/
inductive CutsShort (inner : V → δ → δ → Prop) (reach : List (EntryDelta δ) → Entries K V)
    (es : List (EntryDelta δ)) : List (EntryDelta δ) → Prop
  | before {before : List (EntryDelta δ)} (h : before <+: es) : CutsShort inner reach es before
  | within {before : List (EntryDelta δ)} {e : EntryDelta δ} {d' : δ} {k : K} {v : V}
      (h : before ++ [e] <+: es) (hkey : e.key.read Element.decode = .ok k)
      (hpresent : (reach before).valueAt? (Element.key k) = some v) (hdelta : inner v e.delta d') :
      CutsShort inner reach es (before ++ [⟨e.key, d'⟩])

/-- A step that changes a value in place.  It changes nothing if it fails for a key that is
missing, or that cannot be read. -/
structure Alters (step : Change V → Entries K V → Outcome (Entries K V)) : Prop where
  found : ∀ {c : Change V} {m : Entries K V} {k : K} {e : K × V},
    c.key.read Element.decode = .ok k → m.find? (Element.key k) = some e →
      (step c m).failure = (c.apply e.2).failure ∧
        (step c m).state = m.insert (Element.key k) (e.1, (c.apply e.2).state)
  missing : ∀ {c : Change V} {m : Entries K V},
    (∀ k : K, c.key.read Element.decode = .ok k → m.find? (Element.key k) = none) →
      (step c m).failure ≠ none → (step c m).state = m

omit [Element K] in
theorem state_introduce_of_fails {ck : Key} {k : K} {c : Change V}
    (h : (introduce ck k c m).failure ≠ none) : (introduce ck k c m).state = m := by
  unfold introduce at h ⊢
  cases hcreate : c.create with
  | error e => rfl
  | ok v => cases hv : (c.apply v).failure <;> simp [hcreate, hv] at h ⊢

theorem alters_addOrAlter (present : Key → List Notice) :
    Alters (K := K) (V := V) (addOrAlter present) := by
  constructor
  · intro c m k e hk hf
    simp [addOrAlter, hk, hf, alter]
  · intro c m hmissing hfails
    unfold addOrAlter at hfails ⊢
    cases hk : c.key.read (Element.decode (α := K)) with
    | error e => rfl
    | ok k =>
        simp only [hk, Outcome.withResult_ok, hmissing k hk] at hfails ⊢
        exact state_introduce_of_fails hfails

theorem alters_alterPresent (remark : Remark) :
    Alters (K := K) (V := V) (alterPresent remark) := by
  constructor
  · intro c m k e hk hf
    simp [alterPresent, hk, hf, alter]
  · intro c m hmissing hfails
    unfold alterPresent at hfails ⊢
    cases hk : c.key.read (Element.decode (α := K)) with
    | error e => rfl
    | ok k => simp [hk, hmissing k hk] at hfails

/-- An entry that fails changes nothing, or its key is there and its delta can be truncated. -/
theorem Alters.entry_fails {step : Change V → Entries K V → Outcome (Entries K V)}
    (hstep : Alters step) {change : EntryDelta δ → Change V} (hkey : ∀ e, (change e).key = e.key)
    {inner : V → δ → δ → Prop} {e : EntryDelta δ}
    (hinner : ∀ v, P v →
      Outcome.BreaksOff (fun d => (change ⟨e.key, d⟩).apply v) v (inner v) e.delta)
    (hm : Sound P m) (hfails : (step (change e) m).failure ≠ none) :
    (step (change e) m).state = m ∨
      ∃ (k : K) (v : V) (d' : δ), e.key.read Element.decode = .ok k ∧
        m.valueAt? (Element.key k) = some v ∧ inner v e.delta d' ∧
        (step (change ⟨e.key, d'⟩) m).failure = none ∧
        (step (change ⟨e.key, d'⟩) m).state = (step (change e) m).state := by
  by_cases hpresent : ∃ (k : K) (f : K × V),
      e.key.read Element.decode = .ok k ∧ m.find? (Element.key k) = some f
  · obtain ⟨k, ⟨k', v⟩, hk, hf⟩ := hpresent
    have hfound (d : δ) : (step (change ⟨e.key, d⟩) m).failure =
          ((change ⟨e.key, d⟩).apply v).failure ∧
        (step (change ⟨e.key, d⟩) m).state =
          m.insert (Element.key k) (k', ((change ⟨e.key, d⟩).apply v).state) :=
      hstep.found ((hkey _).symm ▸ hk) hf
    obtain ⟨hfailure, hstate⟩ := hfound e.delta
    rcases hinner v (hm.of_find? hf).2 (hfailure ▸ hfails) with hsame | ⟨d', hd', hok, hleft⟩
    · refine Or.inl ?_
      rw [hstate, hsame]
      exact hm.indexed.ordered.insert_of_find? hf
    · refine Or.inr ⟨k, v, d', hk, by simp [FinMap.valueAt?, hf], hd', ?_, ?_⟩
      · rw [(hfound d').1, hok]
      · rw [(hfound d').2, hstate, hleft]
  · refine Or.inl (hstep.missing (fun k hk => ?_) hfails)
    rw [hkey] at hk
    cases hf : m.find? (Element.key k) with
    | none => rfl
    | some f => exact absurd ⟨k, f, hk, hf⟩ hpresent

/-- Entries that fail have made the changes of those up to some point, of which the last may have
been truncated. -/
theorem Alters.each_fails {step : Change V → Entries K V → Outcome (Entries K V)}
    (hstep : Alters step) {change : EntryDelta δ → Change V} (hkey : ∀ e, (change e).key = e.key)
    {inner : V → δ → δ → Prop} {es : List (EntryDelta δ)}
    (hinner : ∀ e ∈ es, ∀ v, P v →
      Outcome.BreaksOff (fun d => (change ⟨e.key, d⟩).apply v) v (inner v) e.delta)
    (hsound : ∀ e ∈ es, ∀ m, Sound P m → Sound P (step (change e) m).state) (hm : Sound P m)
    (hfails : (Outcome.each step (es.map change) m).failure ≠ none) :
    ∃ es', CutsShort inner (fun before => (Outcome.each step (before.map change) m).state) es es' ∧
      (Outcome.each step (es'.map change) m).failure = none ∧
      (Outcome.each step (es'.map change) m).state =
        (Outcome.each step (es.map change) m).state := by
  simp only [Outcome.each_map] at hfails ⊢
  obtain ⟨before, e, after, rfl, hok, hentry, hleft⟩ := Outcome.exists_of_each_fails hfails
  have hreached : Sound P (Outcome.each (fun e => step (change e)) before m).state :=
    Outcome.each_keeps (fun e he => hsound e (List.mem_append_left _ he)) hm
  have hmem : e ∈ before ++ e :: after := List.mem_append_right _ List.mem_cons_self
  rcases hstep.entry_fails hkey (hinner e hmem) hreached hentry with
    hsame | ⟨k, v, d', hk, hv, hd', hok', hstate⟩
  · exact ⟨before, .before (List.prefix_append _ _), hok, by rw [hleft, hsame]⟩
  · have hprefix : before ++ [e] <+: before ++ e :: after :=
      List.prefix_append_right_inj before |>.mpr (List.prefix_append [e] after)
    refine ⟨before ++ [⟨e.key, d'⟩], .within hprefix hk hv hd', ?_, ?_⟩
    · rw [Outcome.each_append, Outcome.failure_andThen_eq_none_iff, Outcome.each_cons,
        Outcome.andThen_each_nil]
      exact ⟨hok, hok'⟩
    · rw [Outcome.each_append, Outcome.state_andThen hok, Outcome.each_cons,
        Outcome.andThen_each_nil, hleft, hstate]

end Contents

/-! ## Maps -/

namespace UniformMap

variable {K V δ : Type} [Element K] [Tracked V δ] {P : V → Prop}

/-- The delta of a map with given contents breaks off at a removal, or after all of them at an
update. -/
inductive Truncates (inner : V → δ → δ → Prop) (m : Entries K V) (d : UniformMapDelta δ) :
    UniformMapDelta δ → Prop
  | removals {ps : List Payload} (h : ps <+: d.removed) :
      Truncates inner m d ⟨d.cleared, ps, []⟩
  | updates {es : List (EntryDelta δ)}
      (h : Contents.CutsShort inner
        (fun before => (mergeEntries ⟨d.cleared, d.removed, before⟩ m).state) d.updated es) :
      Truncates inner m d ⟨d.cleared, d.removed, es⟩

theorem breaksOff_mergeEntries {m : Entries K V} (hm : Contents.Sound P m) (hP : Tracked.Keeps P)
    {inner : V → δ → δ → Prop}
    (hinner : ∀ d v, P v → Outcome.BreaksOff (fun d => Tracked.merge d v) v (inner v) d)
    (d : UniformMapDelta δ) :
    Outcome.BreaksOff (fun d => mergeEntries d m) m (Truncates inner m) d := by
  intro hfails
  rcases Outcome.andThen_fails hfails with ⟨hremove, hleft⟩ | ⟨hremove, hupdate, hleft⟩
  · obtain ⟨before, hprefix, hok, hstate⟩ := Contents.exists_isPrefix_of_dropAll_fails hremove
    have hcut : mergeEntries ⟨d.cleared, before, ([] : List (EntryDelta δ))⟩ m =
        Contents.dropAll K .removesMissingKey before (Contents.clearIf d.cleared m) :=
      Outcome.andThen_each_nil _ _
    refine Or.inr ⟨⟨d.cleared, before, []⟩, .removals hprefix, ?_, ?_⟩
    · simp only [hcut, hok]
    · simp only [hcut, hstate]
      exact hleft.symm
  · have hreached := (hm.clearIf d.cleared).dropAll .removesMissingKey d.removed
    have hkey (e : EntryDelta δ) : (changeOf e : Contents.Change V).key = e.key := rfl
    obtain ⟨es, hes, hok, hstate⟩ := (Contents.alters_addOrAlter fun _ => []).each_fails hkey
      (fun e _ v hv => hinner e.delta v hv)
      (fun e _ m hm => hm.addOrAlter ⟨hP.create e.delta, hP.merge e.delta⟩ _) hreached hupdate
    simp only [← Outcome.state_andThen hremove] at hes hstate
    refine Or.inr ⟨⟨d.cleared, d.removed, es⟩, .updates hes, ?_, hstate⟩
    exact Outcome.failure_andThen_eq_none_iff.mpr ⟨hremove, hok⟩

theorem breaksOff {m : UniformMap K V} (hm : m.Sound P) (hP : Tracked.Keeps P)
    {inner : V → δ → δ → Prop}
    (hinner : ∀ d v, P v → Outcome.BreaksOff (fun d => Tracked.merge d v) v (inner v) d)
    (d : UniformMapDelta δ) :
    Outcome.BreaksOff (fun d => Tracked.merge d m) m (Truncates inner m.entries) d :=
  (breaksOff_mergeEntries hm.contents hP hinner d).map
    (fun es => ({ m with entries := es } : UniformMap K V)) fun _ h => h

end UniformMap

namespace DataMap

variable {K V : Type} [Element K] [Replicated V] {P : V → Prop}

/-- The contents of a map after a delta. -/
abbrev entriesAfter (d : MapDelta Delta) (m : Entries K V) : Outcome (Entries K V) :=
  mergeEntries d.cleared d.removed (d.added.map changeOf) (d.updated.map changeOf) m

/-- The delta of a map with given contents breaks off at a removal, or after all of them at an added
entry, or after all of those at an updated entry. -/
inductive Truncates (inner : V → Delta → Delta → Prop) (m : Entries K V) (d : MapDelta Delta) :
    MapDelta Delta → Prop
  | removals {ps : List Payload} (h : ps <+: d.removed) :
      Truncates inner m d ⟨d.cleared, ps, [], []⟩
  | additions {es : List (EntryDelta Delta)}
      (h : Contents.CutsShort inner
        (fun before => (entriesAfter ⟨d.cleared, d.removed, before, []⟩ m).state) d.added es) :
      Truncates inner m d ⟨d.cleared, d.removed, es, []⟩
  | updates {es : List (EntryDelta Delta)}
      (h : Contents.CutsShort inner
        (fun before => (entriesAfter ⟨d.cleared, d.removed, d.added, before⟩ m).state)
        d.updated es) :
      Truncates inner m d ⟨d.cleared, d.removed, d.added, es⟩

theorem breaksOff_entriesAfter {m : Entries K V} (hm : Contents.Sound P m)
    (hP : Replicated.Keeps P) {inner : V → Delta → Delta → Prop} {d : MapDelta Delta}
    (hadded : ∀ e ∈ d.added, ∀ v, P v →
      Outcome.BreaksOff (fun d => Replicated.apply d v) v (inner v) e.delta)
    (hupdated : ∀ e ∈ d.updated, ∀ v, P v →
      Outcome.BreaksOff (fun d => Replicated.apply d v) v (inner v) e.delta) :
    Outcome.BreaksOff (fun d => entriesAfter d m) m (Truncates inner m) d := by
  have hkey (e : EntryDelta Delta) : (changeOf e : Contents.Change V).key = e.key := rfl
  have hkeeps (e : EntryDelta Delta) : (changeOf e : Contents.Change V).Keeps P :=
    ⟨hP.createFor e.delta, hP.apply e.delta⟩
  have hdropped := (hm.clearIf d.cleared).dropAll .removesMissingKey d.removed
  have hcut (es : List (EntryDelta Delta)) : entriesAfter ⟨d.cleared, d.removed, es, []⟩ m =
      (Contents.dropAll K .removesMissingKey d.removed (Contents.clearIf d.cleared m)).andThen
        (Outcome.each (Contents.addOrAlter fun ck => [⟨.addsPresentKey, ck⟩]) (es.map changeOf)) :=
    Outcome.andThen_each_nil _ _
  intro hfails
  rcases Outcome.andThen_fails hfails with ⟨hfirst, hleft⟩ | ⟨hfirst, hupdate, hleft⟩
  · rcases Outcome.andThen_fails hfirst with ⟨hremove, hleft'⟩ | ⟨hremove, hadd, hleft'⟩
    -- a removal fails: no entry is reached
    · obtain ⟨before, hprefix, hok, hstate⟩ := Contents.exists_isPrefix_of_dropAll_fails hremove
      have hcut' : entriesAfter ⟨d.cleared, before, [], []⟩ m =
          Contents.dropAll K .removesMissingKey before (Contents.clearIf d.cleared m) :=
        (Outcome.andThen_each_nil _ _).trans (Outcome.andThen_each_nil _ _)
      refine Or.inr ⟨⟨d.cleared, before, [], []⟩, .removals hprefix, ?_, ?_⟩
      · simp only [hcut', hok]
      · simp only [hcut', hstate]
        exact (hleft.trans hleft').symm
    -- an added entry fails: the updated ones are not reached
    · obtain ⟨es, hes, hok, hstate⟩ := (Contents.alters_addOrAlter _).each_fails hkey hadded
        (fun e _ m hm => hm.addOrAlter (hkeeps e) _) hdropped hadd
      simp only [← Outcome.state_andThen hremove, ← hcut] at hes
      refine Or.inr ⟨⟨d.cleared, d.removed, es, []⟩, .additions hes, ?_, ?_⟩
      · simp only [hcut]
        exact Outcome.failure_andThen_eq_none_iff.mpr ⟨hremove, hok⟩
      · simp only [hcut, Outcome.state_andThen hremove]
        exact hstate.trans (hleft.trans hleft').symm
  -- an updated entry fails: it meets sound contents, which all before it has left
  · have hreached : Contents.Sound P ((Contents.dropAll K .removesMissingKey d.removed
        (Contents.clearIf d.cleared m)).andThen (Outcome.each
          (Contents.addOrAlter fun ck => [⟨.addsPresentKey, ck⟩]) (d.added.map changeOf))).state :=
      Outcome.andThen_keeps hdropped fun m hm =>
        Contents.Sound.each (fun c m hc hm => hm.addOrAlter hc _)
          (List.forall_mem_map.mpr fun e _ => hkeeps e) hm
    obtain ⟨es, hes, hok, hstate⟩ := (Contents.alters_alterPresent _).each_fails hkey hupdated
      (fun e _ m hm => hm.alterPresent (hkeeps e) _) hreached hupdate
    simp only [← Outcome.state_andThen hfirst] at hes hstate
    refine Or.inr ⟨⟨d.cleared, d.removed, d.added, es⟩, .updates hes, ?_, hstate⟩
    exact Outcome.failure_andThen_eq_none_iff.mpr ⟨hfirst, hok⟩

theorem breaksOff {m : DataMap K V} (hm : m.Sound P) (hP : Replicated.Keeps P)
    {inner : V → Delta → Delta → Prop} {d : MapDelta Delta}
    (hadded : ∀ e ∈ d.added, ∀ v, P v →
      Outcome.BreaksOff (fun d => Replicated.apply d v) v (inner v) e.delta)
    (hupdated : ∀ e ∈ d.updated, ∀ v, P v →
      Outcome.BreaksOff (fun d => Replicated.apply d v) v (inner v) e.delta) :
    Outcome.BreaksOff (fun d => Tracked.merge d m) m (Truncates inner m.entries) d :=
  (breaksOff_entriesAfter hm.contents hP hadded hupdated).map
    (fun es => ({ m with entries := es } : DataMap K V)) fun _ h => h

end DataMap

/-! ## Data of any kind -/

namespace Datum

variable {T : Type} [Element T]

/-- The delta of data that are a collection breaks off as the deltas of that collection do; those of
the values of a map, which `inner` relates, break off likewise. -/
inductive Truncates : Datum T → Delta → Delta → Prop
  | set {s : AddRemoveSet T} {d d' : SetDelta} (h : d.Truncates d') :
      Truncates (.set s) (.set d) (.set d')
  | map {m : DataMap T (Datum T)} {d d' : MapDelta Delta} {inner : Datum T → Delta → Delta → Prop}
      (hinner : ∀ v e e', inner v e e' → Truncates v e e')
      (h : DataMap.Truncates inner m.entries d d') : Truncates (.map m) (.map d) (.map d')
  | counterMap {m : CounterMap T} {d d' : UniformMapDelta CounterDelta}
      (h : UniformMap.Truncates (fun _ _ _ => False) m.entries d d') :
      Truncates (.counterMap m) (.counterMap d) (.counterMap d')
  | registerMap {m : RegisterMap T T} {d d' : UniformMapDelta RegisterDelta}
      (h : UniformMap.Truncates (fun _ _ _ => False) m.entries d d') :
      Truncates (.registerMap m) (.registerMap d) (.registerMap d')
  | multiMap {m : MultiMap T T} {d d' : UniformMapDelta SetDelta}
      (h : UniformMap.Truncates (fun _ => SetDelta.Truncates) m.entries d d') :
      Truncates (.multiMap m) (.multiMap d) (.multiMap d')

theorem Embeds.breaksOff {σ δ : Type} [Tracked σ δ] [DeltaForm δ] {mk : σ → Datum T}
    (h : Embeds mk) {s : σ} {R : δ → δ → Prop} {d : Delta}
    (hs : ∀ e : δ, d = DeltaForm.wrap e → Outcome.BreaksOff (fun e => Tracked.merge e s) s R e)
    (hR : ∀ e e' : δ, R e e' → Truncates (mk s) (DeltaForm.wrap e) (DeltaForm.wrap e')) :
    Outcome.BreaksOff (fun d => Datum.apply d (mk s)) (mk s) (Truncates (mk s)) d := by
  have happly : (fun d => Datum.apply d (mk s)) = fun d => (Replicated.apply d s).map mk :=
    funext fun d => h.apply d s
  rw [happly]
  refine Outcome.BreaksOff.map (Tracked.breaksOff_apply hs) mk ?_
  rintro _ ⟨hdd'⟩
  exact hR _ _ hdd'

theorem breaksOff_leaf {x : Datum T} (hx : x.kind ≠ .map) (h : x.Sound) (d : Delta) :
    Outcome.BreaksOff (fun d => apply d x) x x.Truncates d := by
  cases h with
  | counter c => exact embeds_counter.breaksOff (fun _ _ => .of_failure rfl) fun _ _ => False.elim
  | register r =>
      exact embeds_register.breaksOff (fun e _ => .of_fails (r.state_merge_of_fails e))
        fun _ _ => False.elim
  | @set s h => exact embeds_set.breaksOff (fun e _ => s.breaksOff e) fun _ _ => .set
  | vote v => exact embeds_vote.breaksOff (fun _ _ => .of_failure rfl) fun _ _ => False.elim
  | map h hvalues => exact absurd rfl hx
  | counterMap h =>
      exact embeds_counterMap.breaksOff
        (fun e _ => UniformMap.breaksOff h Tracked.keeps_true (fun _ _ _ => .of_failure rfl) e)
        fun _ _ => .counterMap
  | registerMap h =>
      exact embeds_registerMap.breaksOff
        (fun e _ => UniformMap.breaksOff h Tracked.keeps_true
          (fun d r _ => .of_fails (r.state_merge_of_fails d)) e)
        fun _ _ => .registerMap
  | multiMap h =>
      exact embeds_multiMap.breaksOff
        (fun e _ => UniformMap.breaksOff h AddRemoveSet.keeps_sound (fun d s _ => s.breaksOff d) e)
        fun _ _ => .multiMap

theorem breaksOff (d : Delta) {x : Datum T} (h : x.Sound) :
    Outcome.BreaksOff (fun d => apply d x) x x.Truncates d := by
  induction d, x using deltaInduction with
  | leaf d x hx => exact breaksOff_leaf hx h d
  | refused d m hd =>
      refine embeds_map.breaksOff (R := fun _ _ => False) (fun e he => ?_) fun _ _ => False.elim
      exact absurd (congrArg Delta.kind he) hd
  | map d m hadded hupdated =>
      refine embeds_map.breaksOff (fun e he => ?_) fun _ _ => .map fun _ _ _ h => h
      cases he
      exact DataMap.breaksOff (sound_map_iff.mp h) keeps_sound
        (fun e he v hv => hadded e he v hv) fun e he v hv => hupdated e he v hv

/-- Data of one kind that differ in nothing but the contents of a collection. -/
inductive SameStaging : Datum T → Datum T → Prop
  | same (x : Datum T) : SameStaging x x
  | set (s : AddRemoveSet T) (es : FinMap Key T) :
      SameStaging (.set s) (.set { s with elements := es })
  | map (m : DataMap T (Datum T)) (es : Entries T (Datum T)) :
      SameStaging (.map m) (.map { m with entries := es })
  | counterMap (m : CounterMap T) (es : Entries T Counter) :
      SameStaging (.counterMap m) (.counterMap { m with entries := es })
  | registerMap (m : RegisterMap T T) (es : Entries T (Register T)) :
      SameStaging (.registerMap m) (.registerMap { m with entries := es })
  | multiMap (m : MultiMap T T) (es : Entries T (AddRemoveSet T)) :
      SameStaging (.multiMap m) (.multiMap { m with entries := es })

section Embeds

variable {σ δ : Type} [Tracked σ δ] [DeltaForm δ] {mk : σ → Datum T} {s : σ}

theorem Embeds.state_apply_of_fails (h : Embeds mk) {d : Delta}
    (hs : ∀ e : δ, (Tracked.merge e s).failure ≠ none → (Tracked.merge e s).state = s)
    (hfails : (Datum.apply d (mk s)).failure ≠ none) : (Datum.apply d (mk s)).state = mk s := by
  rw [h.apply] at hfails ⊢
  exact congrArg mk (Tracked.state_apply_of_fails hs hfails)

theorem Embeds.sameStaging (h : Embeds mk) {C : Type} (put : C → σ) (c : C) (hput : put c = s)
    (hmerge : ∀ e : δ, ∃ c, (Tracked.merge e s).state = put c)
    (hsame : ∀ c, SameStaging (mk s) (mk (put c))) (d : Delta) :
    SameStaging (mk s) (Datum.apply d (mk s)).state := by
  obtain ⟨c, hc⟩ := Tracked.exists_state_apply put c hput hmerge d
  rw [h.apply, Outcome.state_map, hc]
  exact hsame c

end Embeds

theorem sameStaging {x : Datum T} {d : Delta} (h : (apply d x).failure ≠ none) :
    SameStaging x (apply d x).state := by
  cases x with
  | counter c =>
      rw [embeds_counter.state_apply_of_fails (fun _ h => absurd rfl h) h]
      exact .same _
  | register r =>
      rw [embeds_register.state_apply_of_fails r.state_merge_of_fails h]
      exact .same _
  | set s =>
      exact embeds_set.sameStaging (fun es => { s with elements := es }) s.elements rfl
        (fun e => ⟨_, rfl⟩) (.set s) d
  | vote v =>
      rw [embeds_vote.state_apply_of_fails (fun _ h => absurd rfl h) h]
      exact .same _
  | map m =>
      exact embeds_map.sameStaging (fun es => { m with entries := es }) m.entries rfl
        (fun e => ⟨_, rfl⟩) (.map m) d
  | counterMap m =>
      exact embeds_counterMap.sameStaging (fun es => { m with entries := es }) m.entries rfl
        (fun e => ⟨_, rfl⟩) (.counterMap m) d
  | registerMap m =>
      exact embeds_registerMap.sameStaging (fun es => { m with entries := es }) m.entries rfl
        (fun e => ⟨_, rfl⟩) (.registerMap m) d
  | multiMap m =>
      exact embeds_multiMap.sameStaging (fun es => { m with entries := es }) m.entries rfl
        (fun e => ⟨_, rfl⟩) (.multiMap m) d

end Datum

/-! ## All types -/

namespace Replicated

/-- How a delta breaks off for data of each type; single values take in all of a delta or nothing. -/
def Form.Truncates : {σ : Type} → {inst : Replicated σ} → Form σ inst → σ → Delta → Delta → Prop
  | _, _, counter, _ => fun _ _ => False
  | _, _, @register _ _, _ => fun _ _ => False
  | _, _, flag, _ => fun _ _ => False
  | _, _, vote, _ => fun _ _ => False
  | _, _, @growSet _ _, _ => DeltaForm.Lift GrowSetDelta.Truncates
  | _, _, @set _ _, _ => DeltaForm.Lift SetDelta.Truncates
  | _, _, @counterMap _ _, m => DeltaForm.Lift (UniformMap.Truncates (fun _ _ _ => False) m.entries)
  | _, _, @registerMap _ _ _ _, m =>
      DeltaForm.Lift (UniformMap.Truncates (fun _ _ _ => False) m.entries)
  | _, _, @multiMap _ _ _ _, m =>
      DeltaForm.Lift (UniformMap.Truncates (fun _ => SetDelta.Truncates) m.entries)
  | _, _, @datum _ _, x => Datum.Truncates x
  | _, _, @map _ _ _ _ values, m => DeltaForm.Lift (DataMap.Truncates values.Truncates m.entries)

theorem Form.breaksOff {σ : Type} {inst : Replicated σ} (form : Form σ inst) {s : σ}
    (hs : form.Sound s) (d : Delta) :
    Outcome.BreaksOff (fun d => apply d s) s (form.Truncates s) d := by
  induction form generalizing d with
  | counter => exact .of_fails (Tracked.state_apply_of_fails fun _ h => absurd rfl h)
  | register V => exact .of_fails (Tracked.state_apply_of_fails s.state_merge_of_fails)
  | flag => exact .of_fails (Tracked.state_apply_of_fails fun _ h => absurd rfl h)
  | vote => exact .of_fails (Tracked.state_apply_of_fails fun _ h => absurd rfl h)
  | growSet V => exact Tracked.breaksOff_apply fun e _ => s.breaksOff e
  | set V => exact Tracked.breaksOff_apply fun e _ => s.breaksOff e
  | counterMap K =>
      exact Tracked.breaksOff_apply fun e _ =>
        UniformMap.breaksOff hs Tracked.keeps_true (fun _ _ _ => .of_failure rfl) e
  | registerMap K V =>
      exact Tracked.breaksOff_apply fun e _ =>
        UniformMap.breaksOff hs Tracked.keeps_true
          (fun d r _ => .of_fails (r.state_merge_of_fails d)) e
  | multiMap K V =>
      exact Tracked.breaksOff_apply fun e _ =>
        UniformMap.breaksOff hs AddRemoveSet.keeps_sound (fun d s _ => s.breaksOff d) e
  | datum T => exact Datum.breaksOff d hs
  | map K values ih =>
      exact Tracked.breaksOff_apply fun e _ =>
        DataMap.breaksOff hs values.keeps_sound (fun e _ v hv => ih hv e.delta)
          fun e _ v hv => ih hv e.delta

/-- Data of each type that differ in nothing but the contents of a collection. -/
def Form.SameStaging : {σ : Type} → {inst : Replicated σ} → Form σ inst → σ → σ → Prop
  | _, _, counter, c => fun c' => c' = c
  | _, _, @register _ _, r => fun r' => r' = r
  | _, _, flag, f => fun f' => f' = f
  | _, _, vote, v => fun v' => v' = v
  | _, _, @growSet _ _, s => fun s' => ∃ es, s' = { s with elements := es }
  | _, _, @set _ _, s => fun s' => ∃ es, s' = { s with elements := es }
  | _, _, @counterMap _ _, m => fun m' => ∃ es, m' = { m with entries := es }
  | _, _, @registerMap _ _ _ _, m => fun m' => ∃ es, m' = { m with entries := es }
  | _, _, @multiMap _ _ _ _, m => fun m' => ∃ es, m' = { m with entries := es }
  | _, _, @datum _ _, x => x.SameStaging
  | _, _, @map _ _ _ _ _, m => fun m' => ∃ es, m' = { m with entries := es }

theorem Form.sameStaging {σ : Type} {inst : Replicated σ} (form : Form σ inst) {s : σ} {d : Delta}
    (h : (apply d s).failure ≠ none) : form.SameStaging s (apply d s).state := by
  cases form with
  | counter => exact Tracked.state_apply_of_fails (fun _ h => absurd rfl h) h
  | register V => exact Tracked.state_apply_of_fails s.state_merge_of_fails h
  | flag => exact Tracked.state_apply_of_fails (fun _ h => absurd rfl h) h
  | vote => exact Tracked.state_apply_of_fails (fun _ h => absurd rfl h) h
  | growSet V =>
      exact Tracked.exists_state_apply (fun es => { s with elements := es }) s.elements rfl
        (fun e => ⟨_, rfl⟩) d
  | set V =>
      exact Tracked.exists_state_apply (fun es => { s with elements := es }) s.elements rfl
        (fun e => ⟨_, rfl⟩) d
  | counterMap K =>
      exact Tracked.exists_state_apply (fun es => { s with entries := es }) s.entries rfl
        (fun e => ⟨_, rfl⟩) d
  | registerMap K V =>
      exact Tracked.exists_state_apply (fun es => { s with entries := es }) s.entries rfl
        (fun e => ⟨_, rfl⟩) d
  | multiMap K V =>
      exact Tracked.exists_state_apply (fun es => { s with entries := es }) s.entries rfl
        (fun e => ⟨_, rfl⟩) d
  | datum T => exact Datum.sameStaging h
  | map K values =>
      exact Tracked.exists_state_apply (fun es => { s with entries := es }) s.entries rfl
        (fun e => ⟨_, rfl⟩) d

/-- Whenever a delta fails, it has left the data as they were, or as they are after a truncation of
the delta that goes through.  Nothing has changed but the contents of a collection. -/
theorem state_of_failed_apply {σ : Type} {inst : Replicated σ} (form : Form σ inst) {s : σ}
    (hs : form.Sound s) {d : Delta} (h : (apply d s).failure ≠ none) :
    ((apply d s).state = s ∨
        ∃ d', form.Truncates s d d' ∧ (apply d' s).failure = none ∧
          (apply d' s).state = (apply d s).state) ∧
      form.SameStaging s (apply d s).state :=
  ⟨form.breaksOff hs d h, form.sameStaging h⟩

/-- A delta changes a register in a map of a map and then fails at the same register.  What it leaves
is what a part of it does. -/
theorem state_of_failed_apply_to_nested_register :
    let k : Payload := ⟨"", [1]⟩
    let v : Payload := ⟨"", [2]⟩
    let form : Form (DataMap Payload (DataMap Payload (Register Payload))) inferInstance :=
      .map _ (.map _ (.register _))
    let start : DataMap Payload (DataMap Payload (Register Payload)) := (apply (.map ⟨false, [],
      [⟨k, .map ⟨false, [], [⟨k, .register ⟨some k, .standard, 0⟩⟩], []⟩⟩], []⟩) {}).state
    let d : Delta := .map ⟨false, [], [], [⟨k, .map ⟨false, [], [],
      [⟨k, .register ⟨some v, .standard, 0⟩⟩, ⟨k, .flag ⟨true⟩⟩]⟩⟩]⟩
    form.Sound start ∧ (apply d start).failure = some (.wrongKind .register .flag) ∧
      (((apply d start).state.get? k).bind (DataMap.get? k)).map Register.value = some v ∧
      ∃ d', form.Truncates start d d' ∧ (apply d' start).failure = none ∧
        (apply d' start).state = (apply d start).state := by
  intro k v form start d
  have hsound : form.Sound start := form.keeps_sound.apply _ _ (DataMap.Sound.empty false none)
  have hfailure : (apply d start).failure = some (.wrongKind .register .flag) := by decide
  have hleft : (((apply d start).state.get? k).bind (DataMap.get? k)).map Register.value =
      some v := by decide
  have hstart : ((start.get? k).bind (DataMap.get? k)).map Register.value = some k := by decide
  have hfails : (apply d start).failure ≠ none := by
    rw [hfailure]
    exact Option.some_ne_none _
  obtain ⟨hsame | htruncated, -⟩ := state_of_failed_apply form hsound hfails
  · rw [hsame, hstart] at hleft
    exact absurd hleft (by decide)
  · exact ⟨hsound, hfailure, hleft, htruncated⟩

end Replicated

end DeltaReplica
