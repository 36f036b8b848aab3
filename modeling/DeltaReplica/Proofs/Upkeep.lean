import DeltaReplica.Data.DataMap
import DeltaReplica.Data.UniformMap
import DeltaReplica.Proofs.Merging

/-!
# What merging keeps of every value

A delta reaches the values of a map by the changes that its entries stand for.  A property
of values, which may depend on their keys, is kept by merging if each change keeps it of
the values that it finds and establishes it of the values that it creates.  A value that
is created counts only after the change, since it does not enter the map before.

Nothing is asked of the delta, which may fail part-way, nor of the order of the map.
-/

namespace DeltaReplica

namespace Contents

variable {K V : Type}

/-- Each value of a map has a property, together with the key that it stands under. -/
def Every (P : Key → V → Prop) (m : Entries K V) : Prop := ∀ e ∈ m.entries, P e.1 e.2.2

/-- A change keeps a property of the values that it finds, and establishes it of the values that it
creates. -/
structure Change.Upholds (P : Key → V → Prop) (c : Change V) : Prop where
  found : ∀ ck v, P ck v → P ck (c.apply v).state
  created : ∀ ck v, c.create = .ok v → (c.apply v).failure = none → P ck (c.apply v).state

/-- A change keeps and establishes a property under the key that it is made for. -/
structure Change.UpholdsAt (K : Type) [Element K] (P : Key → V → Prop) (c : Change V) : Prop where
  found : ∀ k : K, c.key.read Element.decode = .ok k → ∀ v, P (Element.key k) v →
    P (Element.key k) (c.apply v).state
  created : ∀ k : K, c.key.read Element.decode = .ok k → ∀ v, c.create = .ok v →
    (c.apply v).failure = none → P (Element.key k) (c.apply v).state

theorem Change.Upholds.at [Element K] {P : Key → V → Prop} {c : Change V} (h : c.Upholds P) :
    c.UpholdsAt K P :=
  ⟨fun _ _ => h.found _, fun _ _ => h.created _⟩

namespace Every

variable {P : Key → V → Prop} {m : Entries K V}

theorem empty : Every P (∅ : Entries K V) := by
  intro e he
  cases he

/-- A value that is replaced need not have had the property. -/
theorem insert_of_ne {ck : Key} (h : ∀ e ∈ m.entries, e.1 ≠ ck → P e.1 e.2.2) {k : K} {v : V}
    (hv : P ck v) : Every P (m.insert ck (k, v)) := by
  intro e he
  rcases FinMap.mem_entries_of_mem_insert he with rfl | ⟨he, hne⟩
  · exact hv
  · exact h e he hne

theorem insert (h : Every P m) {ck : Key} {k : K} {v : V} (hv : P ck v) :
    Every P (m.insert ck (k, v)) :=
  insert_of_ne (fun e he _ => h e he) hv

theorem erase (h : Every P m) (ck : Key) : Every P (m.erase ck) := by
  intro e he
  exact h e (FinMap.mem_entries_of_mem_erase he)

theorem of_find? (h : Every P m) {ck : Key} {e : K × V} (hf : m.find? ck = some e) : P ck e.2 :=
  h _ (FinMap.mem_entries_of_find?_eq_some hf)

theorem of_valueAt? (h : Every P m) {ck : Key} {v : V} (hv : m.valueAt? ck = some v) :
    P ck v := by
  obtain ⟨k, hf⟩ := FinMap.valueAt?_eq_some_iff.mp hv
  exact h.of_find? hf

theorem map {W : Type} {Q : Key → W → Prop} {f : Key → V → W} (m : Entries K V)
    (hf : ∀ ck v, Q ck (f ck v)) : Every Q (m.map fun ck e => (e.1, f ck e.2) : Entries K W) := by
  intro e he
  rw [FinMap.entries_map] at he
  obtain ⟨e', -, rfl⟩ := List.mem_map.mp he
  exact hf e'.1 e'.2.2

theorem clearIf (h : Every P m) (cleared : Bool) : Every P (Contents.clearIf cleared m) := by
  cases cleared
  · exact h
  · exact empty

variable [Element K]

theorem dropAll (h : Every P m) (remark : Remark) (ps : List Payload) :
    Every P (Contents.dropAll K remark ps m).state :=
  dropAll_keeps (fun _ ck hm => hm.erase ck) remark ps h

theorem addOrAlter (h : Every P m) {c : Change V} (hc : c.UpholdsAt K P)
    (present : Key → List Notice) : Every P (Contents.addOrAlter present c m).state := by
  rcases addOrAlter_cases present c m with
    hsame | ⟨k, hk, ⟨e, hf, hfound⟩ | ⟨v, hv, hok, hentered⟩⟩
  · rwa [hsame]
  · rw [hfound]
    exact h.insert (hc.found k hk e.2 (h.of_find? hf))
  · rw [hentered]
    exact h.insert (hc.created k hk v hv hok)

theorem alterPresent (h : Every P m) {c : Change V} (hc : c.Upholds P) (remark : Remark) :
    Every P (Contents.alterPresent remark c m).state := by
  rcases alterPresent_cases remark c m with hsame | ⟨ck, e, hf, hfound⟩
  · rwa [hsame]
  · rw [hfound]
    exact h.insert (hc.found ck e.2 (h.of_find? hf))

end Every

end Contents

variable {K V : Type} [Element K] {P : Key → V → Prop}

theorem UniformMap.every_merge {δ : Type} [Tracked V δ] {m : UniformMap K V}
    (h : Contents.Every P m.entries) (d : UniformMapDelta δ)
    (hd : ∀ e ∈ d.updated, (changeOf (V := V) e).UpholdsAt K P) :
    Contents.Every P (m.merge d).state.entries := by
  refine Outcome.andThen_keeps (P := Contents.Every P) ?_ fun es hes => ?_
  · exact (h.clearIf _).dropAll _ _
  · refine Outcome.each_keeps (fun c hc es hes => hes.addOrAlter ?_ _) hes
    obtain ⟨e, he, rfl⟩ := List.mem_map.mp hc
    exact hd e he

/-- Only what a delta leaves of the contents when it has dropped what it names has to have the
property. -/
theorem DataMap.every_merge_of_dropAll [Replicated V] {m : DataMap K V} {d : MapDelta Delta}
    (h : Contents.Every P (Contents.dropAll K .removesMissingKey d.removed
      (Contents.clearIf d.cleared m.entries)).state)
    (hadded : ∀ e ∈ d.added, (changeOf (V := V) e).Upholds P)
    (hupdated : ∀ e ∈ d.updated, (changeOf (V := V) e).Upholds P) :
    Contents.Every P (m.merge d).state.entries := by
  have hadd := List.forall_mem_map.mpr hadded
  have hupdate := List.forall_mem_map.mpr hupdated
  refine Outcome.andThen_keeps (P := Contents.Every P) ?_ fun es hes => ?_
  · refine Outcome.andThen_keeps (P := Contents.Every P) h fun es hes => ?_
    exact Outcome.each_keeps (fun c hc es hes => hes.addOrAlter (hadd c hc).at _) hes
  · exact Outcome.each_keeps (fun c hc es hes => hes.alterPresent (hupdate c hc) _) hes

theorem DataMap.every_merge [Replicated V] {m : DataMap K V} (h : Contents.Every P m.entries)
    (d : MapDelta Delta) (hadded : ∀ e ∈ d.added, (changeOf (V := V) e).Upholds P)
    (hupdated : ∀ e ∈ d.updated, (changeOf (V := V) e).Upholds P) :
    Contents.Every P (m.merge d).state.entries :=
  every_merge_of_dropAll ((h.clearIf d.cleared).dropAll _ d.removed) hadded hupdated

end DeltaReplica
