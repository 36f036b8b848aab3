import DeltaReplica.Outcome

/-!
# Replicated data

Replicated data records the local changes to it, hands them over as a delta when it is
harvested, and merges the deltas of its peers.  What a peer changed is never handed
over again.

A type of replicated data is `Tracked` with a delta type of its own.  Since that type
determines the kind of the delta, every tracked type is also `Replicated`: it can be
harvested into, and changed by, the common type of all deltas.
-/

namespace DeltaReplica

/-- Data that can be replicated by means of deltas. -/
class Replicated (σ : Type) where
  /-- The changes since the last harvest and the state without them.  Unless the harvest is an
  initial one there may be no changes to hand over. -/
  harvest (initial : Bool) (s : σ) : Option Delta × σ
  /-- The outcome of merging a delta. -/
  apply (d : Delta) (s : σ) : Outcome σ
  /-- A fresh state that a delta can be merged into; the delta is not merged. -/
  createFor (d : Delta) : Except DeltaError σ

/-- The form in which a type of delta appears among all deltas. -/
class DeltaForm (δ : Type) where
  /-- The kind of data that such deltas belong to. -/
  kind : Kind
  /-- Such a delta among all deltas. -/
  wrap : δ → Delta
  /-- A delta, if it has this form. -/
  unwrap? : Delta → Option δ
  /-- Exactly the wrapped deltas have this form. -/
  unwrap?_eq_some_iff : ∀ {d : Delta} {e : δ}, unwrap? d = some e ↔ d = wrap e
  /-- A wrapped delta has the kind of the form. -/
  kind_wrap : ∀ e : δ, (wrap e).kind = kind

/-- Data whose changes are tracked as deltas of one type. -/
class Tracked (σ : Type) (δ : outParam Type) where
  /-- The changes since the last harvest, and the state without them. -/
  harvest (initial : Bool) (s : σ) : Option δ × σ
  /-- The outcome of merging a delta. -/
  merge (d : δ) (s : σ) : Outcome σ
  /-- A fresh state that a delta can be merged into. -/
  create (d : δ) : Except DeltaError σ

namespace DeltaForm

variable {δ : Type} [DeltaForm δ]

@[simp]
theorem unwrap?_wrap (e : δ) : unwrap? (wrap e) = some e :=
  unwrap?_eq_some_iff.mpr rfl

/-- A delta of another kind does not have the form. -/
theorem unwrap?_of_kind_ne {d : Delta} (h : d.kind ≠ kind δ) : unwrap? (δ := δ) d = none := by
  refine Option.eq_none_iff_forall_ne_some.mpr fun e he => h ?_
  rw [unwrap?_eq_some_iff.mp he, kind_wrap]

end DeltaForm

/-- Tracked data takes part in replication under the kind of its deltas. -/
instance {σ δ : Type} [Tracked σ δ] [DeltaForm δ] : Replicated σ where
  harvest initial s :=
    let (d, s') := Tracked.harvest initial s
    (d.map DeltaForm.wrap, s')
  apply d s :=
    match DeltaForm.unwrap? (δ := δ) d with
    | some e => Tracked.merge e s
    | none => .fail s (.wrongKind (DeltaForm.kind δ) d.kind)
  createFor d :=
    match DeltaForm.unwrap? (δ := δ) d with
    | some e => Tracked.create e
    | none => .error (.wrongKind (DeltaForm.kind δ) d.kind)

namespace Tracked

variable {σ δ : Type} [Tracked σ δ] [DeltaForm δ]

theorem apply_wrap (e : δ) (s : σ) : Replicated.apply (DeltaForm.wrap e) s = merge e s := by
  simp [Replicated.apply]

/-- A delta of another kind fails and leaves the data as they were. -/
theorem apply_cases (d : Delta) (s : σ) :
    (Replicated.apply d s).failure ≠ none ∧ (Replicated.apply d s).state = s ∨
      ∃ e : δ, d = DeltaForm.wrap e ∧ Replicated.apply d s = merge e s := by
  cases hd : DeltaForm.unwrap? (δ := δ) d with
  | none => exact Or.inl (by simp [Replicated.apply, hd])
  | some e => exact Or.inr ⟨e, DeltaForm.unwrap?_eq_some_iff.mp hd, by simp [Replicated.apply, hd]⟩

theorem exists_of_createFor_ok {d : Delta} {s : σ} (h : Replicated.createFor d = .ok s) :
    ∃ e : δ, d = DeltaForm.wrap e ∧ create e = .ok s := by
  cases hd : DeltaForm.unwrap? (δ := δ) d with
  | none => simp [Replicated.createFor, hd] at h
  | some e =>
    exact ⟨e, DeltaForm.unwrap?_eq_some_iff.mp hd, by simpa [Replicated.createFor, hd] using h⟩

end Tracked

end DeltaReplica
