import DeltaReplica.Proofs.Acceptance
import DeltaReplica.Proofs.Forms
import DeltaReplica.Proofs.History

/-!
# Exchange of deltas

Peers accept what peers hand over, as long as the types of keys and values read back what
they write.  Between data of one type without data of any kind in it, every harvested
delta goes through, in every state of the receiver.  A delta of data of any kind may find
data of another kind, but fresh data can always be created for it, and accept it.  Both
are in `Replicated.harvested_delta_accepted`.

For data of any kind the receiver is fresh, so a map in it creates the values of all its
keys, and there is nothing to be said about values that it has already.
-/

namespace DeltaReplica

namespace Replicated

/-- All data in a type are of a type that is known in advance. -/
def Form.Static : {σ : Type} → {inst : Replicated σ} → Form σ inst → Prop
  | _, _, @datum _ _ => False
  | _, _, @map _ _ _ _ values => values.Static
  | _, _, _ => True

/-- The keys and values in a type are read back as they were written. -/
def Form.Lawful : {σ : Type} → {inst : Replicated σ} → Form σ inst → Prop
  | _, _, counter => True
  | _, _, register V => LawfulElement V
  | _, _, flag => True
  | _, _, vote => True
  | _, _, growSet V => LawfulElement V
  | _, _, set V => LawfulElement V
  | _, _, counterMap K => LawfulElement K
  | _, _, registerMap K V => LawfulElement K ∧ LawfulElement V
  | _, _, multiMap K V => LawfulElement K ∧ LawfulElement V
  | _, _, datum T => LawfulElement T
  | _, _, map K values => LawfulElement K ∧ values.Lawful

theorem Form.accepting {σ : Type} {inst : Replicated σ} (form : Form σ inst)
    (hstatic : form.Static) (hlawful : form.Lawful) : Accepting σ := by
  induction form with
  | counter | flag | vote => exact inferInstance
  | register V | growSet V | set V | counterMap K =>
      have : LawfulElement _ := hlawful
      exact inferInstance
  | registerMap K V | multiMap K V =>
      obtain ⟨hK, hV⟩ := hlawful
      exact inferInstance
  | datum T => exact hstatic.elim
  | map K values ih =>
      obtain ⟨hK, hvalues⟩ := hlawful
      have := ih hstatic hvalues
      exact inferInstance

end Replicated

/-! ## Data of any kind -/

namespace Datum

variable {T : Type} [Element T]

/-- Fresh data can be created for a delta, and accept it. -/
def Admits (T : Type) [Element T] (d : Delta) : Prop :=
  ∃ y : Datum T, createFor d = .ok y ∧ (apply d y).failure = none

theorem Embeds.admits {σ δ : Type} [Tracked σ δ] [DeltaForm δ] [Tracked.Accepting σ]
    {mk : σ → Datum T} (h : Embeds mk) (s : σ) (initial : Bool) :
    ∀ d ∈ (Datum.harvest initial (mk s)).1, Admits T d := by
  intro d hd
  obtain ⟨e, he, rfl⟩ := h.exists_of_harvest hd
  obtain ⟨y, hy⟩ := Tracked.Accepting.create initial s e he
  refine ⟨mk y, by rw [h.createFor, hy]; rfl, ?_⟩
  rw [h.apply, Tracked.apply_wrap]
  exact Tracked.Accepting.merge initial s e he y

/-- A receiver that has no data under a key takes in what is admitted. -/
theorem failure_handOver_none {m : DataMap T (Datum T)} {v : Datum T}
    (hv : ∀ initial, ∀ d ∈ (harvest initial v).1, Admits T d) (ck : Key) :
    (m.handOver ck v none).failure = none := by
  rw [DataMap.handOver]
  split
  · cases hd : (Replicated.harvest true v).1 with
    | none => rfl
    | some d =>
        obtain ⟨y, hy, hok⟩ := hv true d hd
        have hcreate : Replicated.createFor d = .ok y := hy
        have happly : (Replicated.apply d y).failure = none := hok
        simp [Replicated.receive?, Outcome.meet, hcreate, happly]
  · rfl

/-- Whatever data hand over is admitted.  A fresh map has no data of its own under any key, and the
keys in a delta are distinct, so each of the values is met by fresh data. -/
theorem Sound.admits [LawfulElement T] {x : Datum T} (h : x.Sound) (initial : Bool) :
    ∀ d ∈ (harvest initial x).1, Admits T d := by
  induction x using Datum.induction generalizing initial with
  | leaf x hx =>
      cases x with
      | counter c => exact embeds_counter.admits c initial
      | register r => exact embeds_register.admits r initial
      | set s => exact embeds_set.admits s initial
      | vote v => exact embeds_vote.admits v initial
      | map m => exact absurd rfl hx
      | counterMap m => exact embeds_counterMap.admits m initial
      | registerMap m => exact embeds_registerMap.admits m initial
      | multiMap m => exact embeds_multiMap.admits m initial
  | map m ih =>
      have hm := sound_map_iff.mp h
      intro d hd
      obtain ⟨e, he, rfl⟩ := embeds_map.exists_of_harvest hd
      obtain rfl := DataMap.eq_delta_of_harvest he
      have hempty : (({} : DataMap T (Datum T)).merge m.delta).failure = none := by
        refine (DataMap.merge_delta hm {} fun ck v hv => ?_).1
        obtain ⟨k, hf⟩ := FinMap.valueAt?_eq_some_iff.mp hv
        have hmem := FinMap.mem_entries_of_find?_eq_some hf
        rw [DataMap.left, Contents.left_empty]
        exact failure_handOver_none (fun b => ih _ hmem (hm.contents.values _ hmem) b) ck
      refine ⟨.map {}, rfl, ?_⟩
      rw [apply_map, Tracked.apply_wrap]
      exact hempty

end Datum

/-- What is handed over by data of one type without data of any kind in it goes through in all data
of that type.  For what is handed over by data of any kind with a history, fresh data can be created
that accept it. -/
theorem Replicated.harvested_delta_accepted :
    (∀ {σ : Type} {inst : Replicated σ} (form : Form σ inst), form.Static → form.Lawful →
      ∀ (initial : Bool) (s : σ) (d : Delta), (harvest initial s).1 = some d →
        ∀ s' : σ, (apply d s').failure = none) ∧
    (∀ {T : Type} [Element T] [LawfulElement T] {x : Datum T}, x.Made .peers →
      ∀ (initial : Bool) (d : Delta), (Datum.harvest initial x).1 = some d →
        ∃ y : Datum T, Datum.createFor d = .ok y ∧ (Datum.apply d y).failure = none) := by
  refine ⟨fun form hstatic hlawful initial s d hd s' => ?_, fun hx initial d hd => ?_⟩
  · have := form.accepting hstatic hlawful
    exact Accepting.apply initial s d hd s'
  · exact hx.sound.admits initial d hd

/-- A register in a map in a map is written, while a peer has none of these; and data of any kind
enter a map of data. -/
theorem Replicated.harvested_delta_accepted_without_key :
    let k : Payload := ⟨"", [1]⟩
    let inner : DataMap Payload (Register Payload) := (DataMap.set k (.new k {}) {}).result
    let empty : DataMap Payload (DataMap Payload (Register Payload)) := {}
    let s := (harvest false (empty.set k inner).result).2.adjust k
      (·.adjust k (Register.set k { clock := .reverse }))
    let d : Delta := .map ⟨false, [], [],
      [⟨k, .map ⟨false, [], [], [⟨k, .register ⟨some k, .reverse, 0⟩⟩]⟩⟩]⟩
    let x : Datum Payload := .map (DataMap.set k (.register (.new k {})) {}).result
    let e : Delta := .map ⟨false, [], [⟨k, .register ⟨some k, .standard, 0⟩⟩], []⟩
    ((harvest false s).1 = some d ∧ (apply d empty).failure = none) ∧
      x.Made .peers ∧ (Datum.harvest false x).1 = some e ∧
        ∃ y : Datum Payload, Datum.createFor e = .ok y ∧ (Datum.apply e y).failure = none := by
  intro k inner empty s d x e
  have hd : (harvest false s).1 = some d := rfl
  have he : (Datum.harvest false x).1 = some e := rfl
  have hmade : x.Made .peers := by
    refine .step (.start (.map none)) (.map (.set k (.start (.register k {})) fun _ halone => ?_))
    cases halone
  have hlawful : LawfulElement Payload := inferInstance
  have haccepted : (apply d empty).failure = none :=
    harvested_delta_accepted.1 (.map Payload (.map Payload (.register Payload))) trivial
      ⟨hlawful, hlawful, hlawful⟩ false s d hd empty
  exact ⟨⟨hd, haccepted⟩, hmade, he, harvested_delta_accepted.2 hmade false e he⟩

end DeltaReplica
