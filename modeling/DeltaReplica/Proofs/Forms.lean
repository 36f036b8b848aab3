import DeltaReplica.Data.Flag
import DeltaReplica.Proofs.Soundness

/-!
# Forms of replicated data

The types of replicated data are built from a few plain ones by nesting.  How a type is
built is its form, so what is to hold of the data of every type can be defined along the
form.  Here this is done for soundness, which harvests and deltas keep in every type.
-/

namespace DeltaReplica

/-! ## Growing sets -/

namespace GrowSet

variable {E : Type} [Element E]

/-- The elements stand under their own keys. -/
structure Sound (s : GrowSet E) : Prop where
  elements : s.elements.IndexedBy Element.key
  added : s.added.Ordered

theorem Sound.add {s : GrowSet E} (h : s.Sound) (e : E) : (s.add e).Sound := by
  rcases add_cases e s with ⟨-, hadd⟩ | hadd
  · rwa [hadd]
  · rw [hadd]
    exact ⟨h.elements.insert rfl, h.added.insert _ _⟩

theorem Sound.merge {s : GrowSet E} (h : s.Sound) (d : GrowSetDelta) : (s.merge d).state.Sound := by
  refine ⟨?_, h.added⟩
  refine Outcome.each_keeps (P := FinMap.IndexedBy Element.key) (fun p _ m hm => ?_) h.elements
  unfold mergeElement
  cases p.read (Element.decode (α := E)) with
  | ok e => exact hm.insert rfl
  | error e => exact hm

theorem contains_merge {s : GrowSet E} {ck : Key} (h : s.elements.contains ck = true)
    (d : GrowSetDelta) : (s.merge d).state.elements.contains ck = true := by
  refine Outcome.each_keeps (P := fun m : FinMap Key E => m.contains ck = true)
    (fun p _ m hm => ?_) h
  unfold mergeElement
  cases p.read (Element.decode (α := E)) with
  | error e => exact hm
  | ok e =>
      change (m.insert _ _).contains ck = true
      rw [FinMap.contains_insert, hm, Bool.or_true]

theorem keeps_sound : Tracked.Keeps (Sound (E := E)) := by
  refine ⟨fun initial s hs => ?_, fun d s hs => hs.merge d, fun d s hs => ?_⟩
  · rcases harvest_cases initial s with ⟨-, h⟩ | ⟨-, -, h⟩ <;> rw [h]
    · exact ⟨hs.elements, FinMap.ordered_empty⟩
    · exact hs
  · cases hs
    exact ⟨.empty, FinMap.ordered_empty⟩

end GrowSet

/-! ## All types -/

namespace Replicated

/-- How a type of replicated data is built: plain types, data of any kind, and the maps to
replicated data of these types, nested to any depth. -/
inductive Form : (σ : Type) → Replicated σ → Type 1
  | counter : Form Counter inferInstance
  | register (V : Type) [Element V] : Form (Register V) inferInstance
  | flag : Form Flag inferInstance
  | vote : Form Vote inferInstance
  | growSet (V : Type) [Element V] : Form (GrowSet V) inferInstance
  | set (V : Type) [Element V] : Form (AddRemoveSet V) inferInstance
  | counterMap (K : Type) [Element K] : Form (CounterMap K) inferInstance
  | registerMap (K V : Type) [Element K] [Element V] : Form (RegisterMap K V) inferInstance
  | multiMap (K V : Type) [Element K] [Element V] : Form (MultiMap K V) inferInstance
  | datum (T : Type) [Element T] : Form (Datum T) inferInstance
  | map (K : Type) [Element K] {σ : Type} [inst : Replicated σ] (values : Form σ inst) :
      Form (DataMap K σ) inferInstance

/-- Data whose collections are sound, at every depth. -/
def Form.Sound : {σ : Type} → {inst : Replicated σ} → Form σ inst → σ → Prop
  | _, _, counter, _ => True
  | _, _, @register _ _, _ => True
  | _, _, flag, _ => True
  | _, _, vote, _ => True
  | _, _, @growSet _ _, s => GrowSet.Sound s
  | _, _, @set _ _, s => AddRemoveSet.Sound s
  | _, _, @counterMap _ _, m => UniformMap.Sound (fun _ => True) m
  | _, _, @registerMap _ _ _ _, m => UniformMap.Sound (fun _ => True) m
  | _, _, @multiMap _ _ _ _, m => UniformMap.Sound AddRemoveSet.Sound m
  | _, _, @datum _ _, x => Datum.Sound x
  | _, _, @map _ _ _ _ values, m => DataMap.Sound values.Sound m

/-- Harvests and deltas keep data sound, and created data are. -/
theorem Form.keeps_sound {σ : Type} {inst : Replicated σ} (form : Form σ inst) :
    Keeps form.Sound := by
  induction form with
  | counter => exact Tracked.keeps_true.replicated
  | register V => exact Tracked.keeps_true.replicated
  | flag => exact Tracked.keeps_true.replicated
  | vote => exact Tracked.keeps_true.replicated
  | growSet V => exact GrowSet.keeps_sound.replicated
  | set V => exact AddRemoveSet.keeps_sound.replicated
  | counterMap K => exact (UniformMap.keeps_sound Tracked.keeps_true).replicated
  | registerMap K V => exact (UniformMap.keeps_sound Tracked.keeps_true).replicated
  | multiMap K V => exact (UniformMap.keeps_sound AddRemoveSet.keeps_sound).replicated
  | datum T => exact Datum.keeps_sound
  | map K values ih => exact (DataMap.keeps_sound ih).replicated

end Replicated

end DeltaReplica
