import DeltaReplica.Proofs.Forms
import DeltaReplica.Proofs.Handover
import DeltaReplica.Proofs.Upkeep

/-!
# Quiescence

What peers have changed is never handed over again.  Data are settled if nothing in them is
staged, at any depth.  A harvest settles data, whatever they were before, settled data have
nothing to hand over, and merging keeps them settled, also a delta that fails part-way.

The only data that are not created settled are registers, whose first value is a write.  A
created register counts after the merge that follows its creation, which drops the write.
-/

namespace DeltaReplica

/-- A property of tracked data that every harvest establishes and that merging keeps, also of data
created for a delta.  Data that have it have nothing to hand over. -/
structure Tracked.Settles {σ δ : Type} [Tracked σ δ] (P : σ → Prop) : Prop where
  harvest : ∀ initial s, P (Tracked.harvest initial s).2
  merge : ∀ d s, P s → P (Tracked.merge d s).state
  created : ∀ (d : δ) s, Tracked.create d = .ok s → (Tracked.merge d s).failure = none →
    P (Tracked.merge d s).state
  silent : ∀ s, P s → (Tracked.harvest false s).1 = none

/-- The same of replicated data. -/
structure Replicated.Settles {σ : Type} [Replicated σ] (P : σ → Prop) : Prop where
  harvest : ∀ initial s, P (Replicated.harvest initial s).2
  apply : ∀ d s, P s → P (Replicated.apply d s).state
  created : ∀ d s, Replicated.createFor d = .ok s → (Replicated.apply d s).failure = none →
    P (Replicated.apply d s).state
  silent : ∀ s, P s → (Replicated.harvest false s).1 = none

/-- Deltas of other kinds are refused, so they change nothing. -/
theorem Tracked.Settles.replicated {σ δ : Type} [Tracked σ δ] [DeltaForm δ] {P : σ → Prop}
    (h : Tracked.Settles P) : Replicated.Settles P := by
  refine ⟨h.harvest, fun d s hs => ?_, fun d s hcreate hok => ?_, fun s hs => ?_⟩
  · simp only [Replicated.apply]
    cases DeltaForm.unwrap? (δ := δ) d with
    | some e => exact h.merge e s hs
    | none => exact hs
  · simp only [Replicated.createFor, Replicated.apply] at hcreate hok ⊢
    cases hd : DeltaForm.unwrap? (δ := δ) d with
    | some e =>
        rw [hd] at hcreate hok
        exact h.created e s hcreate hok
    | none => simp [hd] at hcreate
  · simp [Replicated.harvest, h.silent s hs]

/-- Data that are created settled are settled after the merge as well. -/
theorem Tracked.Settles.of_create {σ δ : Type} [Tracked σ δ] {P : σ → Prop}
    (harvest : ∀ initial s, P (Tracked.harvest initial s).2)
    (merge : ∀ d s, P s → P (Tracked.merge d s).state)
    (create : ∀ (d : δ) s, Tracked.create d = .ok s → P s)
    (silent : ∀ s, P s → (Tracked.harvest false s).1 = none) : Tracked.Settles P :=
  ⟨harvest, merge, fun d s hs _ => merge d s (create d s hs), silent⟩

/-! ## Single values -/

/-- No change is pending. -/
def Counter.Settled (c : Counter) : Prop := c.pending = 0

/-- No write is pending. -/
def Register.Settled {V : Type} (r : Register V) : Prop := r.pending = none

/-- That the flag was set is not pending. -/
def Flag.Settled (f : Flag) : Prop := f.pending = false

/-- No vote is pending. -/
def Vote.Settled (v : Vote) : Prop := v.pending = none

theorem Counter.settles : Tracked.Settles Counter.Settled := by
  refine .of_create (fun initial c => ?_) (fun d c hc => hc) (fun d c hc => ?_) fun c hc => ?_
  · rw [snd_harvest]
    rfl
  · cases hc
    rfl
  · have hpending : c.pending = 0 := hc
    simp [Tracked.harvest, harvest, hpending]

theorem Flag.settles : Tracked.Settles Flag.Settled := by
  refine .of_create (fun initial f => rfl) (fun d f hf => hf) (fun d f hf => ?_) fun f hf => ?_
  · cases hf
    rfl
  · have hpending : f.pending = false := hf
    simp [Tracked.harvest, harvest, hpending]

theorem Vote.settles : Tracked.Settles Vote.Settled := by
  refine .of_create (fun initial v => rfl) (fun d v hv => hv) (fun d v hv => ?_) fun v hv => ?_
  · cases hv
    rfl
  · have hpending : v.pending = none := hv
    simp [Tracked.harvest, harvest, hpending]

section Elements

variable {V : Type} [Element V]

/-- A register keeps its write if the value of a delta cannot be read, and drops it otherwise. -/
theorem Register.merge_cases (d : RegisterDelta) (r : Register V) :
    (Tracked.merge d r).state = r ∧ (Tracked.merge d r).failure ≠ none ∨
      (Tracked.merge d r).state.Settled := by
  simp only [Tracked.merge, merge]
  cases d.value with
  | none => exact Or.inr rfl
  | some p =>
      simp only
      cases p.read (Element.decode (α := V)) with
      | ok v => exact Or.inr rfl
      | error e => exact Or.inl ⟨rfl, by simp [Outcome.withResult]⟩

theorem Register.settles : Tracked.Settles (Register.Settled (V := V)) := by
  refine ⟨fun initial r => rfl, fun d r hr => ?_, fun d r _ hok => ?_, fun r hr => ?_⟩
  · rcases merge_cases d r with ⟨hsame, -⟩ | hsettled
    · rwa [hsame]
    · exact hsettled
  · rcases merge_cases d r with ⟨-, hfailed⟩ | hsettled
    · exact absurd hok hfailed
    · exact hsettled
  · have hpending : r.pending = none := hr
    simp [Tracked.harvest, harvest, hpending]

/-- No addition is staged. -/
def GrowSet.Settled (s : GrowSet V) : Prop := s.added = ∅

/-- Neither additions nor removals nor a clearing are staged. -/
structure AddRemoveSet.Settled (s : AddRemoveSet V) : Prop where
  added : s.added = ∅
  removed : s.removed = ∅
  cleared : s.cleared = false

theorem GrowSet.settles : Tracked.Settles (GrowSet.Settled (V := V)) := by
  refine .of_create (fun initial s => ?_) (fun d s hs => hs) (fun d s hs => ?_) fun s hs => ?_
  · rcases harvest_cases initial s with ⟨-, h⟩ | ⟨hadded, -, h⟩ <;> rw [h]
    · rfl
    · exact hadded
  · cases hs
    rfl
  · have hadded : s.added.isEmpty = true := FinMap.isEmpty_iff.mpr hs
    simp [Tracked.harvest, harvest, hadded]

theorem AddRemoveSet.settles : Tracked.Settles (AddRemoveSet.Settled (V := V)) := by
  refine .of_create (fun initial s => ?_) (fun d s hs => ?_) (fun d s hs => ?_) fun s hs => ?_
  · rw [snd_harvest]
    exact ⟨rfl, rfl, rfl⟩
  · exact ⟨hs.added, hs.removed, hs.cleared⟩
  · cases hs
    exact ⟨rfl, rfl, rfl⟩
  · have hadded : s.added.isEmpty = true := FinMap.isEmpty_iff.mpr hs.added
    have hremoved : s.removed.isEmpty = true := FinMap.isEmpty_iff.mpr hs.removed
    simp [Tracked.harvest, harvest, hadded, hremoved, hs.cleared]

end Elements

/-! ## Maps -/

namespace UniformMap

variable {K V : Type}

/-- Neither removals nor a clearing are staged, and the values are settled. -/
structure Settled (P : V → Prop) (m : UniformMap K V) : Prop where
  removed : m.removed = ∅
  cleared : m.cleared = false
  values : Contents.Every (fun _ => P) m.entries

theorem settles {δ : Type} [Element K] [Tracked V δ] {P : V → Prop} (hP : Tracked.Settles P) :
    Tracked.Settles (Settled (K := K) P) := by
  refine .of_create (fun initial m => ?_) (fun d m hm => ?_) (fun d m hm => ?_) fun m hm => ?_
  · rw [snd_harvest]
    exact ⟨rfl, rfl, .map m.entries fun _ v => hP.harvest false v⟩
  · refine ⟨hm.removed, hm.cleared, every_merge hm.values d fun e _ => ?_⟩
    exact ⟨fun _ _ => hP.merge e.delta, fun _ _ => hP.created e.delta⟩
  · cases hm
    exact ⟨rfl, rfl, .empty⟩
  · have hremoved : m.removed.isEmpty = true := FinMap.isEmpty_iff.mpr hm.removed
    have hupdated : Contents.entryDeltas m.changes = [] := by
      refine Contents.entryDeltas_eq_nil fun e he => ?_
      obtain ⟨e', he', rfl⟩ := List.mem_map.mp he
      exact hP.silent _ (hm.values e' he')
    simp [Tracked.harvest, harvest, updates_eq, hupdated, hremoved, hm.cleared]

end UniformMap

namespace DataMap

variable {K V : Type}

/-- Neither keys nor a clearing are staged, and the values are settled. -/
structure Settled (P : V → Prop) (m : DataMap K V) : Prop where
  added : m.added = ∅
  removed : m.removed = ∅
  cleared : m.cleared = false
  values : Contents.Every (fun _ => P) m.entries

variable [Element K] {P : V → Prop} {m : DataMap K V}

variable [Replicated V]

theorem Settled.merge (hm : m.Settled P) (d : MapDelta Delta)
    (hadded : ∀ e ∈ d.added, (changeOf (V := V) e).Upholds fun _ => P)
    (hupdated : ∀ e ∈ d.updated, (changeOf (V := V) e).Upholds fun _ => P) :
    (m.merge d).state.Settled P :=
  ⟨hm.added, hm.removed, hm.cleared, every_merge hm.values d hadded hupdated⟩

theorem settled_harvest (m : DataMap K V)
    (hP : ∀ e ∈ m.entries.entries, ∀ initial, P (Replicated.harvest initial e.2.2).2)
    (initial : Bool) : (Tracked.harvest initial m).2.Settled P := by
  rw [snd_harvest]
  refine ⟨rfl, rfl, rfl, fun e he => ?_⟩
  obtain ⟨e', he', rfl⟩ := List.mem_map.mp he
  exact hP e' he' _

/-- A map in which no key is staged asks its values for changes only. -/
theorem Settled.silent (hm : m.Settled P)
    (hP : ∀ e ∈ m.entries.entries, (Replicated.harvest false e.2.2).1 = none) :
    (Tracked.harvest false m).1 = none := by
  have hnone (isAdded : Bool) : Contents.entryDeltas (m.changes isAdded) = [] := by
    refine Contents.entryDeltas_eq_nil fun e he => ?_
    obtain ⟨e', he', rfl⟩ := List.mem_map.mp he
    cases isAdded with
    | false => simp [hP e' he']
    | true => simp [hm.added]
  have hremoved : m.removed.isEmpty = true := FinMap.isEmpty_iff.mpr hm.removed
  simp [Tracked.harvest, harvest, harvestWith, entryDeltas_eq, hnone, hremoved, hm.cleared]

theorem settles (hP : Replicated.Settles P) : Tracked.Settles (Settled (K := K) P) := by
  refine .of_create (fun initial m => ?_) (fun d m hm => ?_) (fun d m hm => ?_) fun m hm => ?_
  · exact settled_harvest m (fun e _ initial => hP.harvest initial _) initial
  · have hentry (e : EntryDelta Delta) : (changeOf (V := V) e).Upholds fun _ => P :=
      ⟨fun _ => hP.apply e.delta, fun _ => hP.created e.delta⟩
    exact hm.merge d (fun e _ => hentry e) fun e _ => hentry e
  · cases hm
    exact ⟨rfl, rfl, rfl, .empty⟩
  · exact hm.silent fun e he => hP.silent _ (hm.values e he)

end DataMap

/-! ## Data of any kind -/

namespace Datum

variable {T : Type}

/-- Data in which nothing is staged, at any depth. -/
inductive Settled : Datum T → Prop
  | counter {c : Counter} (h : c.Settled) : Settled (.counter c)
  | register {r : Register T} (h : r.Settled) : Settled (.register r)
  | set {s : AddRemoveSet T} (h : s.Settled) : Settled (.set s)
  | vote {v : Vote} (h : v.Settled) : Settled (.vote v)
  | map {m : DataMap T (Datum T)} (h : m.Settled fun _ => True)
      (hvalues : ∀ e ∈ m.entries.entries, Settled e.2.2) : Settled (.map m)
  | counterMap {m : CounterMap T} (h : UniformMap.Settled Counter.Settled m) :
      Settled (.counterMap m)
  | registerMap {m : RegisterMap T T} (h : UniformMap.Settled Register.Settled m) :
      Settled (.registerMap m)
  | multiMap {m : MultiMap T T} (h : UniformMap.Settled AddRemoveSet.Settled m) :
      Settled (.multiMap m)

theorem settled_map_iff {m : DataMap T (Datum T)} : Settled (.map m) ↔ m.Settled Settled := by
  constructor
  · intro h
    cases h with
    | map h hvalues => exact ⟨h.added, h.removed, h.cleared, hvalues⟩
  · intro h
    exact .map ⟨h.added, h.removed, h.cleared, fun _ _ => trivial⟩ h.values

variable [Element T]

/-- Tracked data that are settled among the data of any kind just if they are settled alone. -/
structure SettlesAs {σ δ : Type} [Tracked σ δ] [DeltaForm δ] (mk : σ → Datum T)
    (P : σ → Prop) : Prop where
  embeds : Embeds mk
  settles : Tracked.Settles P
  settled_iff : ∀ s, (mk s).Settled ↔ P s

namespace SettlesAs

variable {σ δ : Type} [Tracked σ δ] [DeltaForm δ] {mk : σ → Datum T} {P : σ → Prop}

theorem harvest (h : SettlesAs mk P) (initial : Bool) (s : σ) :
    (Datum.harvest initial (mk s)).2.Settled := by
  rw [h.embeds.harvest]
  exact (h.settled_iff _).mpr (h.settles.harvest initial s)

theorem silent (h : SettlesAs mk P) {s : σ} (hs : (mk s).Settled) :
    (Datum.harvest false (mk s)).1 = none := by
  rw [h.embeds.harvest]
  exact h.settles.replicated.silent s ((h.settled_iff s).mp hs)

theorem apply (h : SettlesAs mk P) (d : Delta) {s : σ} (hs : (mk s).Settled) :
    (Datum.apply d (mk s)).state.Settled := by
  rw [h.embeds.apply]
  exact (h.settled_iff _).mpr (h.settles.replicated.apply d s ((h.settled_iff s).mp hs))

theorem created (h : SettlesAs mk P) {e : δ} {x : Datum T}
    (hx : createFor (DeltaForm.wrap e) = .ok x)
    (hok : (Datum.apply (DeltaForm.wrap e) x).failure = none) :
    (Datum.apply (DeltaForm.wrap e) x).state.Settled := by
  rw [h.embeds.createFor] at hx
  cases hs : Tracked.create (σ := σ) e with
  | error e => simp [hs, Except.map] at hx
  | ok s =>
      rw [hs] at hx
      cases hx
      rw [h.embeds.apply] at hok ⊢
      refine (h.settled_iff _).mpr (h.settles.replicated.created _ s ?_ hok)
      simpa [Replicated.createFor] using hs

end SettlesAs

theorem settlesAs_counter : SettlesAs (T := T) .counter Counter.Settled :=
  ⟨embeds_counter, Counter.settles, fun _ => ⟨fun h => by cases h; assumption, .counter⟩⟩

theorem settlesAs_register : SettlesAs (T := T) .register Register.Settled :=
  ⟨embeds_register, Register.settles, fun _ => ⟨fun h => by cases h; assumption, .register⟩⟩

theorem settlesAs_set : SettlesAs (T := T) .set AddRemoveSet.Settled :=
  ⟨embeds_set, AddRemoveSet.settles, fun _ => ⟨fun h => by cases h; assumption, .set⟩⟩

theorem settlesAs_vote : SettlesAs (T := T) .vote Vote.Settled :=
  ⟨embeds_vote, Vote.settles, fun _ => ⟨fun h => by cases h; assumption, .vote⟩⟩

theorem settlesAs_counterMap :
    SettlesAs (T := T) .counterMap (UniformMap.Settled Counter.Settled) :=
  ⟨embeds_counterMap, UniformMap.settles Counter.settles,
    fun _ => ⟨fun h => by cases h; assumption, .counterMap⟩⟩

theorem settlesAs_registerMap :
    SettlesAs (T := T) .registerMap (UniformMap.Settled Register.Settled) :=
  ⟨embeds_registerMap, UniformMap.settles Register.settles,
    fun _ => ⟨fun h => by cases h; assumption, .registerMap⟩⟩

theorem settlesAs_multiMap :
    SettlesAs (T := T) .multiMap (UniformMap.Settled AddRemoveSet.Settled) :=
  ⟨embeds_multiMap, UniformMap.settles AddRemoveSet.settles,
    fun _ => ⟨fun h => by cases h; assumption, .multiMap⟩⟩

/-- Data that hold no data are tracked data of some type. -/
@[elab_as_elim]
theorem leaf_cases {motive : Datum T → Prop} {x : Datum T} (hx : x.kind ≠ .map)
    (tracked : ∀ {σ δ : Type} [Tracked σ δ] [DeltaForm δ] {mk : σ → Datum T} {P : σ → Prop},
      SettlesAs mk P → ∀ s, motive (mk s)) : motive x := by
  cases x with
  | counter c => exact tracked settlesAs_counter c
  | register r => exact tracked settlesAs_register r
  | set s => exact tracked settlesAs_set s
  | vote v => exact tracked settlesAs_vote v
  | map m => exact absurd rfl hx
  | counterMap m => exact tracked settlesAs_counterMap m
  | registerMap m => exact tracked settlesAs_registerMap m
  | multiMap m => exact tracked settlesAs_multiMap m

theorem settled_harvest (initial : Bool) (x : Datum T) : (harvest initial x).2.Settled := by
  induction x using Datum.induction generalizing initial with
  | leaf x hx => exact leaf_cases hx fun h s => h.harvest initial s
  | map m ih =>
      rw [harvest_map]
      exact settled_map_iff.mpr (DataMap.settled_harvest m (fun e he b => ih e he b) initial)

theorem Settled.silent {x : Datum T} (h : x.Settled) : (harvest false x).1 = none := by
  induction x using Datum.induction with
  | leaf x hx =>
      revert h
      exact leaf_cases hx fun h s hs => h.silent hs
  | map m ih =>
      have hm := settled_map_iff.mp h
      rw [harvest_map]
      exact congrArg (Option.map DeltaForm.wrap)
        (hm.silent fun e he => ih e he (hm.values e he))

theorem Settled.apply_leaf {x : Datum T} (h : x.Settled) (hx : x.kind ≠ .map) (d : Delta) :
    (apply d x).state.Settled := by
  revert h
  exact leaf_cases hx fun h s hs => h.apply d hs

theorem settled_created_leaf {d : Delta} {x : Datum T} (hd : d.kind ≠ .map)
    (hx : createFor d = .ok x) (hok : (apply d x).failure = none) :
    (apply d x).state.Settled := by
  cases d with
  | counter e => exact settlesAs_counter.created hx hok
  | register e => exact settlesAs_register.created hx hok
  | flag e => cases hx
  | growSet e => cases hx
  | set e => exact settlesAs_set.created hx hok
  | vote e => exact settlesAs_vote.created hx hok
  | map e => exact absurd rfl hd
  | counterMap e => exact settlesAs_counterMap.created hx hok
  | registerMap e => exact settlesAs_registerMap.created hx hok
  | multiMap e => exact settlesAs_multiMap.created hx hok

/-- Only the delta of a map goes deeper.  There the induction is on the delta, whose entries change
the values that are there and those that are created for them. -/
theorem settled_apply (d : Delta) :
    (∀ x : Datum T, x.Settled → (apply d x).state.Settled) ∧
      ∀ x : Datum T, createFor d = .ok x → (apply d x).failure = none →
        (apply d x).state.Settled := by
  induction d using Delta.induction with
  | leaf d hd =>
      refine ⟨fun x hx => ?_, fun x hx hok => settled_created_leaf hd hx hok⟩
      by_cases hkind : x.kind = .map
      · obtain ⟨m, rfl⟩ := exists_map_of_kind hkind
        cases d <;> first | exact hx | exact absurd rfl hd
      · exact hx.apply_leaf hkind d
  | map d hadded hupdated =>
      have hmap (m : DataMap T (Datum T)) (hm : m.Settled Settled) :
          (apply (.map d) (.map m)).state.Settled := by
        rw [apply_map]
        exact settled_map_iff.mpr (hm.merge d
          (fun e he => ⟨fun _ => (hadded e he).1, fun _ => (hadded e he).2⟩)
          fun e he => ⟨fun _ => (hupdated e he).1, fun _ => (hupdated e he).2⟩)
      refine ⟨fun x hx => ?_, fun x hx _ => ?_⟩
      · by_cases hkind : x.kind = .map
        · obtain ⟨m, rfl⟩ := exists_map_of_kind hkind
          exact hmap m (settled_map_iff.mp hx)
        · exact hx.apply_leaf hkind (.map d)
      · cases hx
        exact hmap {} ⟨rfl, rfl, rfl, .empty⟩

theorem settles : Replicated.Settles (Settled (T := T)) where
  harvest := settled_harvest
  apply d := (settled_apply d).1
  created d := (settled_apply d).2
  silent _ h := h.silent

end Datum

/-! ## All types of replicated data -/

namespace Replicated

/-- Data of every type can be settled. -/
theorem Form.exists_settles {σ : Type} {inst : Replicated σ} (form : Form σ inst) :
    ∃ P : σ → Prop, Settles P := by
  induction form with
  | counter => exact ⟨_, Counter.settles.replicated⟩
  | register V => exact ⟨_, Register.settles.replicated⟩
  | flag => exact ⟨_, Flag.settles.replicated⟩
  | vote => exact ⟨_, Vote.settles.replicated⟩
  | growSet V => exact ⟨_, GrowSet.settles.replicated⟩
  | set V => exact ⟨_, AddRemoveSet.settles.replicated⟩
  | counterMap K => exact ⟨_, (UniformMap.settles Counter.settles).replicated⟩
  | registerMap K V => exact ⟨_, (UniformMap.settles Register.settles).replicated⟩
  | multiMap K V => exact ⟨_, (UniformMap.settles AddRemoveSet.settles).replicated⟩
  | datum T => exact ⟨_, Datum.settles⟩
  | map K values ih =>
      obtain ⟨P, hP⟩ := ih
      exact ⟨_, (DataMap.settles hP).replicated⟩

variable {σ : Type} [Replicated σ]

/-- The data after deltas have been merged, each of them as far as it goes. -/
def applyAll (ds : List Delta) (s : σ) : σ := ds.foldl (fun s d => (apply d s).state) s

theorem Settles.applyAll {P : σ → Prop} (h : Settles P) (ds : List Delta) {s : σ} (hs : P s) :
    P (applyAll ds s) := by
  induction ds generalizing s with
  | nil => exact hs
  | cons d ds ih => exact ih (h.apply d s hs)

end Replicated

/-- After a harvest of any state there is nothing to hand over, whatever deltas are merged from
there, and whether each of them goes through or fails part-way. -/
theorem Replicated.harvest_applyAll_harvest_eq_none {σ : Type} [inst : Replicated σ]
    (form : Form σ inst) (initial : Bool) (s : σ) (ds : List Delta) :
    (harvest false (applyAll ds (harvest initial s).2)).1 = none := by
  obtain ⟨P, hP⟩ := form.exists_settles
  have hsettled : P (applyAll ds (harvest initial s).2) :=
    hP.applyAll ds (hP.harvest initial s)
  exact hP.silent _ hsettled

/-- A delta creates a map with a register in it and then fails at the register.  The register stays,
and it is not handed over. -/
theorem Replicated.harvest_eq_none_after_failed_delta :
    let k : Payload := ⟨"", [1]⟩
    let start : DataMap Payload (DataMap Payload (Register Payload)) := {}
    let d : Delta := .map ⟨false, [],
      [⟨k, .map ⟨false, [], [⟨k, .register ⟨some k, .custom, 1⟩⟩], []⟩⟩,
        ⟨k, .map ⟨false, [], [⟨k, .flag ⟨true⟩⟩], []⟩⟩], []⟩
    let after := applyAll [d, d] (harvest true start).2
    (apply d (harvest true start).2).failure = some (.wrongKind .register .flag) ∧
      ((after.get? k).bind (DataMap.get? k)).map Register.value = some k ∧
      (harvest false after).1 = none := by
  intro k start d after
  have form : Form (DataMap Payload (DataMap Payload (Register Payload))) inferInstance :=
    .map _ (.map _ (.register _))
  have hfailure : (apply d (harvest true start).2).failure =
      some (.wrongKind .register .flag) := by decide
  have hstays : ((after.get? k).bind (DataMap.get? k)).map Register.value = some k := by decide
  exact ⟨hfailure, hstays, harvest_applyAll_harvest_eq_none form true start [d, d]⟩

end DeltaReplica
