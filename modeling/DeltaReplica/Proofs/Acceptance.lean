import DeltaReplica.Data.Flag
import DeltaReplica.Proofs.Handover

/-!
# Acceptance of deltas

What data hand over is accepted by all data of the same type: it never fails to be
merged, and data can be created for it.  This holds of every state, sound or not, since
all payloads in a delta are written by the element types that read them.

Data of any kind are not of this sort, since a delta can find data of another kind.
-/

namespace DeltaReplica

/-- Tracked data that accept whatever data of their type hand over. -/
class Tracked.Accepting (σ : Type) {δ : Type} [Tracked σ δ] : Prop where
  initial : ∀ s : σ, ∃ d : δ, (harvest true s).1 = some d
  create : ∀ b (s : σ) (d : δ), (harvest b s).1 = some d → ∃ s' : σ, Tracked.create d = .ok s'
  merge : ∀ b (s : σ) (d : δ), (harvest b s).1 = some d →
    ∀ s' : σ, (Tracked.merge d s').failure = none

/-- Replicated data that accept whatever data of their type hand over. -/
class Replicated.Accepting (σ : Type) [Replicated σ] : Prop where
  initial : ∀ s : σ, ∃ d, (harvest true s).1 = some d
  createFor : ∀ b (s : σ) d, (harvest b s).1 = some d → ∃ s' : σ, Replicated.createFor d = .ok s'
  apply : ∀ b (s : σ) d, (harvest b s).1 = some d →
    ∀ s' : σ, (Replicated.apply d s').failure = none

instance {σ δ : Type} [Tracked σ δ] [DeltaForm δ] [Tracked.Accepting σ] :
    Replicated.Accepting σ where
  initial s := by
    obtain ⟨d, hd⟩ := Tracked.Accepting.initial (δ := δ) s
    exact ⟨DeltaForm.wrap d, by simp [Replicated.harvest, hd]⟩
  createFor b s d hd := by
    obtain ⟨e, he, rfl⟩ := Option.map_eq_some_iff.mp hd
    simpa [Replicated.createFor] using Tracked.Accepting.create b s e he
  apply b s d hd s' := by
    obtain ⟨e, he, rfl⟩ := Option.map_eq_some_iff.mp hd
    simpa [Replicated.apply] using Tracked.Accepting.merge b s e he s'

theorem Tracked.Accepting.failure_receive? {σ δ : Type} [Tracked σ δ] [Tracked.Accepting σ]
    (b : Bool) (s : σ) (old : Option σ) :
    (Tracked.receive? (Tracked.harvest b s).1 old).failure = none := by
  cases hd : (Tracked.harvest b s).1 with
  | none => rfl
  | some d =>
      obtain ⟨s', hs'⟩ := Tracked.Accepting.create b s d hd
      exact Outcome.failure_meet hs' (Tracked.Accepting.merge b s d hd) old

namespace Replicated.Accepting

variable {σ : Type} [Replicated σ] [Replicated.Accepting σ]

theorem failure_receive? (b : Bool) (s : σ) (old : Option σ) :
    (receive? (harvest b s).1 old).failure = none := by
  cases hd : (harvest b s).1 with
  | none => rfl
  | some d =>
      obtain ⟨s', hs'⟩ := createFor b s d hd
      exact Outcome.failure_meet hs' (apply b s d hd) old

theorem failure_touch? (b : Bool) (s : σ) (old : Option σ) :
    (touch? (harvest b s).1 old).failure = none := by
  cases hd : (harvest b s).1 with
  | none => simp
  | some d =>
      rw [← ifAny_touch]
      exact Outcome.failure_touch (apply b s d hd) old

/-- What an initial harvest hands over makes data where there were none. -/
theorem isSome_receive?_initial (s : σ) (old : Option σ) :
    (receive? (harvest true s).1 old).state.isSome = true := by
  obtain ⟨d, hd⟩ := initial s
  obtain ⟨s', hs'⟩ := createFor true s d hd
  rw [hd]
  cases old with
  | some old => rfl
  | none => simp [receive?, Outcome.meet, hs', apply true s d hd s']

omit [Accepting σ] in
theorem isSome_touch? (b : Bool) (s : σ) (old : Option σ) :
    (touch? (harvest b s).1 old).state.isSome = old.isSome := by
  cases old <;> rfl

end Replicated.Accepting

/-! ## Single values -/

instance : Tracked.Accepting Counter where
  initial c := ⟨⟨c.pending⟩, by simp [Tracked.harvest, Counter.harvest]⟩
  create _ _ _ _ := ⟨{}, rfl⟩
  merge _ _ _ _ _ := rfl

instance : Tracked.Accepting Flag where
  initial f := ⟨⟨f.value⟩, by simp [Tracked.harvest, Flag.harvest]⟩
  create _ _ _ _ := ⟨{}, rfl⟩
  merge _ _ _ _ _ := rfl

instance : Tracked.Accepting Vote where
  initial v := ⟨⟨v.selfVote, 0, 0⟩, rfl⟩
  create _ _ _ _ := ⟨{}, rfl⟩
  merge _ _ _ _ _ := rfl

section Elements

variable {V : Type} [Element V]

theorem Register.value_of_harvest {b : Bool} {r : Register V} {d : RegisterDelta}
    (h : (Tracked.harvest b r).1 = some d) : d.value = some (Element.encode r.value) := by
  obtain ⟨t, -, rfl⟩ := Option.map_eq_some_iff.mp h
  rfl

theorem GrowSet.added_of_harvest {b : Bool} {s : GrowSet V} {d : GrowSetDelta}
    (h : (Tracked.harvest b s).1 = some d) : d.added = stagedPayloads s.added s.elements := by
  rcases GrowSet.harvest_cases b s with ⟨-, hharvest⟩ | ⟨-, -, hharvest⟩ <;> rw [hharvest] at h
  · rw [← Option.some.inj h]
  · cases h

variable [LawfulElement V]

instance : Tracked.Accepting (Register V) where
  initial r := by
    cases h : r.pending <;> exact ⟨_, by simp [Tracked.harvest, Register.harvest, h]; rfl⟩
  create b r d h := by
    simp [Tracked.create, Register.create, Register.value_of_harvest h, Except.map]
  merge b r d h r' := by
    simp [Tracked.merge, Register.merge, Register.value_of_harvest h]

instance : Tracked.Accepting (GrowSet V) where
  initial s := ⟨⟨stagedPayloads s.added s.elements⟩, by simp [Tracked.harvest, GrowSet.harvest]⟩
  create _ _ _ _ := ⟨{}, rfl⟩
  merge b s d h s' := by
    simp only [Tracked.merge, GrowSet.merge, Outcome.failure_map, GrowSet.added_of_harvest h,
      stagedPayloads, Outcome.each_map]
    refine (Outcome.each_of_forall_failure _ (fun e _ m => ?_) _).1
    simp [GrowSet.mergeElement]

instance : Tracked.Accepting (AddRemoveSet V) where
  initial s := ⟨s.delta, by simp [Tracked.harvest, AddRemoveSet.harvest, AddRemoveSet.delta]⟩
  create _ _ _ _ := ⟨{}, rfl⟩
  merge b s d h s' := by
    rw [AddRemoveSet.eq_delta_of_harvest h]
    exact Outcome.failure_andThen_eq_none_iff.mpr
      ⟨(Contents.dropAll_encode _ _ _).1, (AddRemoveSet.each_mergeElement_encode _ _).1⟩

end Elements

/-! ## Maps -/

section Maps

variable {K V : Type} [Element K] [LawfulElement K]

instance {δ : Type} [Tracked V δ] [Tracked.Accepting V] :
    Tracked.Accepting (UniformMap K V) where
  initial m := ⟨m.delta, by
    simp [Tracked.harvest, UniformMap.harvest, UniformMap.delta, UniformMap.updates_eq]⟩
  create _ _ _ _ := ⟨{}, rfl⟩
  merge b m d h w := by
    rw [UniformMap.eq_delta_of_harvest h]
    refine Outcome.failure_andThen_eq_none_iff.mpr ⟨(Contents.dropAll_encode _ _ _).1, ?_⟩
    rw [Outcome.each_map]
    refine (Outcome.each_of_forall_failure _ (fun e he es => ?_) _).1
    obtain ⟨ck, k, v, d, -, hd, rfl⟩ := UniformMap.mem_updated_delta he
    obtain ⟨v', hv'⟩ := Tracked.Accepting.create false v d hd
    rw [(Contents.actsAt_addOrAlter _ rfl).failure_eq]
    exact Outcome.failure_meet hv' (Tracked.Accepting.merge false v d hd) _

instance [Replicated V] [Replicated.Accepting V] : Tracked.Accepting (DataMap K V) where
  initial m := ⟨m.delta, m.harvest_true⟩
  create _ _ _ _ := ⟨{}, rfl⟩
  merge b m d h w := by
    rw [DataMap.eq_delta_of_harvest h]
    refine Outcome.failure_andThen_eq_none_iff.mpr
      ⟨Outcome.failure_andThen_eq_none_iff.mpr ⟨(Contents.dropAll_encode _ _ _).1, ?_⟩, ?_⟩
    · rw [Outcome.each_map]
      refine (Outcome.each_of_forall_failure _ (fun e he es => ?_) _).1
      obtain ⟨ck, k, v, d, -, hd, rfl⟩ := DataMap.mem_entryDeltas_changes he
      obtain ⟨v', hv'⟩ := Replicated.Accepting.createFor true v d hd
      rw [(Contents.actsAt_addOrAlter _ rfl).failure_eq]
      exact Outcome.failure_meet hv' (Replicated.Accepting.apply true v d hd) _
    · rw [Outcome.each_map]
      refine (Outcome.each_of_forall_failure _ (fun e he es => ?_) _).1
      obtain ⟨ck, k, v, d, -, hd, rfl⟩ := DataMap.mem_entryDeltas_changes he
      rw [(Contents.actsAt_alterPresent _ rfl).failure_eq]
      exact Outcome.failure_touch (Replicated.Accepting.apply false v d hd) _

end Maps

end DeltaReplica
