import DeltaReplica.Proofs.Quiescence
import DeltaReplica.Proofs.SingleWriter

/-!
# Replacing a value

A writer that has nothing to hand over replaces the value of a key, and its replica merges what
it hands over next.  A value that is set over an old one is shipped as a removal and an addition,
so the replica drops its old value and gets the new one in full.

A key that is deleted first and then comes back drops its own removal again.  All that is shipped
is the full state of the new value, as an addition, and the replica merges that into the old value
that it still has.  Data of another kind are refused there.
-/

namespace DeltaReplica

namespace Datum

variable {T : Type} [Element T]

/-- Data that were changed by operations only since they were new, and so were the values in
them. -/
inductive Fresh : Datum T → Prop
  | start {x : Datum T} (h : Start x) : Fresh x
  | operate {x y : Datum T} (hx : Fresh x) (h : Operate x y) : Fresh y
  | set {m : DataMap T (Datum T)} (hm : Fresh (.map m)) (k : T) {v : Datum T} (hv : Fresh v) :
      Fresh (.map (m.set k v).result)
  | reach {m : DataMap T (Datum T)} (hm : Fresh (.map m)) (k : T)
      (hsupply : ∀ f n, m.supply = some f → f k = some n → Fresh n.result) :
      Fresh (.map (m.reach k).result)
  | adjust {m : DataMap T (Datum T)} (hm : Fresh (.map m)) (k : T) {v v' : Datum T}
      (hv : m.get? k = some v) (hv' : Fresh v') : Fresh (.map (m.adjust k fun _ => v'))
  | delete {m : DataMap T (Datum T)} (hm : Fresh (.map m)) (k : T) : Fresh (.map (m.delete k))
  | clear {m : DataMap T (Datum T)} (hm : Fresh (.map m)) : Fresh (.map m.clear)

theorem lag_map_none_iff {m : DataMap T (Datum T)} :
    Lag (.map m) none ↔ DataMap.Lag Lag m {} := by
  constructor
  · intro h
    obtain ⟨old, hold, hlag⟩ := h.exists_map
    cases old with
    | none => exact hlag
    | some w => cases hold
  · exact .of_map none

/-- Fresh data hand over all that they are. -/
theorem Fresh.lag {x : Datum T} (h : Fresh x) : Lag x none := by
  induction h with
  | start h => exact h.lag
  | operate hx h ih => exact h.lag ih
  | set hm k hv ihm ihv =>
      exact lag_map_none_iff.mpr ((lag_map_none_iff.mp ihm).set k ihv fun _ _ => rfl)
  | @reach m hm k hsupply ihm ihv =>
      have hlag := lag_map_none_iff.mp ihm
      rcases DataMap.reach_cases k m with hreach | ⟨f, n, hf, hn, -, hreach⟩
      · rwa [hreach]
      · rw [hreach]
        exact lag_map_none_iff.mpr (hlag.set k (ihv f n hf hn) fun _ _ => rfl)
  | adjust hm k hv hv' ihm ihv =>
      refine lag_map_none_iff.mpr ((lag_map_none_iff.mp ihm).adjust k fun v _ _ => ?_)
      rwa [DataMap.left, Contents.left_empty]
  | delete hm k ihm => exact lag_map_none_iff.mpr ((lag_map_none_iff.mp ihm).delete k)
  | clear hm ihm => exact lag_map_none_iff.mpr (lag_map_none_iff.mp ihm).clear

end Datum

/-! ## What a harvest leaves in place -/

/-- What holds of the images of the values in one map and the values in another holds of the
values. -/
theorem Contents.Alike.of_images {K V : Type} {A A' : V → V → Prop} {images m m' : Entries K V}
    (h : Alike A images m') {f : Key → V → V}
    (himages : ∀ ck, images.valueAt? ck = (m.valueAt? ck).map (f ck))
    (hA : ∀ ck v v', m.valueAt? ck = some v → A (f ck v) v' → A' v v') : Alike A' m m' := by
  constructor
  · intro ck
    rw [← h.contains_eq, FinMap.contains_eq_isSome_valueAt?, FinMap.contains_eq_isSome_valueAt?,
      himages, Option.isSome_map]
  · intro ck v v' hv hv'
    have himage : images.valueAt? ck = some (f ck v) := by rw [himages, hv, Option.map_some]
    exact hA ck v v' hv (h.values ck _ v' himage hv')

theorem CounterMap.value_harvest {K : Type} [Element K] (initial : Bool) (m : CounterMap K)
    (k : K) : value k (Tracked.harvest initial m).2 = value k m := by
  have hkept := UniformMap.valueAt?_kept m (Element.key k)
  rw [UniformMap.snd_harvest, value, value]
  change (m.kept.valueAt? (Element.key k)).elim 0 Counter.value =
    (m.entries.valueAt? (Element.key k)).elim 0 Counter.value
  rw [hkept]
  cases m.entries.valueAt? (Element.key k) with
  | none => rfl
  | some c =>
      change (Tracked.harvest false c).2.value = c.value
      rw [Counter.snd_harvest]

namespace Datum

variable {T : Type} [Element T]

/-- Data are like whatever they are like after a harvest. -/
theorem AlikeByValue.of_harvest {x z : Datum T} {initial : Bool}
    (h : AlikeByValue (harvest initial x).2 z) : AlikeByValue x z := by
  unfold AlikeByValue at h ⊢
  induction x using Datum.induction generalizing initial z with
  | leaf x hleaf =>
      cases x with
      | counter c =>
          rw [embeds_counter.snd_harvest, Counter.snd_harvest] at h
          cases h with
          | counter hvalue => exact .counter hvalue
      | register r =>
          rw [embeds_register.snd_harvest] at h
          cases h with
          | register hvalue => exact .register hvalue
      | set s =>
          rw [embeds_set.snd_harvest, AddRemoveSet.snd_harvest] at h
          cases h with
          | set helements => exact .set helements
      | vote v =>
          rw [embeds_vote.snd_harvest] at h
          cases h with
          | vote hself => exact .vote hself
      | map m => exact absurd rfl hleaf
      | counterMap m =>
          rw [embeds_counterMap.snd_harvest] at h
          cases h with
          | counterMap hvalues =>
              exact .counterMap fun k =>
                (CounterMap.value_harvest initial m k).symm.trans (hvalues k)
      | registerMap m =>
          rw [embeds_registerMap.snd_harvest, UniformMap.snd_harvest] at h
          cases h with
          | registerMap hvalues =>
              exact .registerMap
                (Contents.Alike.of_images hvalues m.valueAt?_kept fun _ _ _ _ hr => hr)
      | multiMap m =>
          rw [embeds_multiMap.snd_harvest, UniformMap.snd_harvest] at h
          cases h with
          | multiMap hvalues =>
              refine .multiMap
                (Contents.Alike.of_images hvalues m.valueAt?_kept fun ck s s' _ hs => ?_)
              rwa [AddRemoveSet.snd_harvest] at hs
  | map m ih =>
      rw [embeds_map.snd_harvest, DataMap.snd_harvest] at h
      cases h with
      | map hcontains hvalues =>
          have halike : Contents.Alike (Alike CounterMap.AlikeByValue) m.kept _ :=
            ⟨hcontains, hvalues⟩
          refine alike_map_iff.mpr
            (halike.of_images m.valueAt?_kept fun ck v v' hv hvv' => ?_)
          obtain ⟨k, hf⟩ := FinMap.valueAt?_eq_some_iff.mp hv
          exact ih _ (FinMap.mem_entries_of_find?_eq_some hf) hvv'

/-- The replica of a writer of fresh data gets them in full. -/
theorem Fresh.receive_initial [LawfulElement T] {v : Datum T} (hv : v.Fresh) :
    (Replicated.receive? (Replicated.harvest true v).1 (none : Option (Datum T))).failure = none ∧
      ∃ z, (Replicated.receive? (Replicated.harvest true v).1 (none : Option (Datum T))).state =
        some z ∧ AlikeByValue v z := by
  have hdelivers : Replicated.Delivers Lag (Matched AlikeByValue) true v none :=
    hv.lag.delivers fun _ => rfl
  obtain ⟨z, hz, halike⟩ := hdelivers.alike
  exact ⟨hdelivers.failure, z, hz, halike.of_harvest⟩

end Datum

/-! ## What is staged -/

namespace DataMap

section Staging

variable {K V : Type} [Element K] {P : V → Prop} {m : DataMap K V}

/-- An old value is staged as removed before the new one is staged as added. -/
theorem Settled.set_eq (hm : m.Settled P) {k : K} (hk : m.has k = true) (v : V) :
    (m.set k v).result =
      { entries := m.entries.insert (Element.key k) (k, v)
        added := FinMap.insert ∅ (Element.key k) ()
        removed := FinMap.insert ∅ (Element.key k) k
        supply := m.supply } := by
  have hadded : m.added.contains (Element.key k) = false := by rw [hm.added]; rfl
  rcases set_cases k v m with ⟨hmissing, -⟩ | ⟨-, hset⟩ | ⟨hpresent, -⟩
  · rw [has, hmissing] at hk
    cases hk
  · rw [hset, hm.added, hm.removed, hm.cleared]
  · rw [hadded] at hpresent
    cases hpresent

theorem Settled.left_set (hm : m.Settled P) {k : K} (hk : m.has k = true) (v : V)
    (w : DataMap K V) (ck : Key) : (m.set k v).result.left w ck =
      if ck = Element.key k then none else w.entries.valueAt? ck := by
  by_cases hck : ck = Element.key k <;>
    simp [hm.set_eq hk v, left, Contents.left, FinMap.contains_insert, hck]

/-- The removal of a key is forgotten when the key comes back. -/
theorem Settled.delete_set_eq (hm : m.Settled P) {k : K} (hk : m.has k = true) (v : V) :
    ((m.delete k).set k v).result =
      { entries := (m.entries.erase (Element.key k)).insert (Element.key k) (k, v)
        added := FinMap.insert ∅ (Element.key k) ()
        supply := m.supply } := by
  have hforgotten (k' : K) :
      ((∅ : FinMap Key K).insert (Element.key k) k').erase (Element.key k) = ∅ := by
    rw [FinMap.ordered_empty.erase_insert]
    exact FinMap.erase_of_not_contains rfl
  have hnothing : (∅ : KeySet).erase (Element.key k) = ∅ := FinMap.erase_of_not_contains rfl
  rw [has, FinMap.contains_eq_isSome] at hk
  obtain ⟨e, hf⟩ := Option.isSome_iff_exists.mp hk
  have hdelete : m.delete k =
      { entries := m.entries.erase (Element.key k)
        removed := FinMap.insert ∅ (Element.key k) e.1
        supply := m.supply } := by
    simp [delete, hf, hm.added, hm.removed, hm.cleared, hnothing]
  simp [hdelete, set, FinMap.contains_erase, hforgotten]

theorem delete_reach_eq {k : K} {f : K → Option (Noted V)} {n : Noted V} (hf : m.supply = some f)
    (hn : f k = some n) : ((m.delete k).reach k).result = ((m.delete k).set k n.result).result := by
  have hsupply : (m.delete k).supply = some f := by
    rw [← hf, delete]
    split <;> rfl
  have hmissing : (m.delete k).has k = false := by
    simp [has, entries_delete, FinMap.contains_erase]
  simp [reach, hmissing, hsupply, hn, Noted.after]

end Staging

section Handover

variable {K V : Type} [Element K] [Replicated V] {P : V → Prop} {m : DataMap K V} {k : K} {v : V}

/-- Only the new value is handed over. -/
theorem Settled.handOver_set (hm : m.Settled P) (hP : Replicated.Settles P) (hk : m.has k = true)
    {ck : Key} {v' : V} (hv' : (m.set k v).result.entries.valueAt? ck = some v')
    (old : Option V) : (m.set k v).result.handOver ck v' old =
      if ck = Element.key k then Replicated.receive? (Replicated.harvest true v).1 old
      else .done old := by
  have hadded : (m.set k v).result.added.contains ck = decide (ck = Element.key k) := by
    simp [hm.set_eq hk v, FinMap.contains_insert]
  rw [entries_set, FinMap.valueAt?_insert] at hv'
  rw [handOver, hadded]
  by_cases hck : ck = Element.key k
  · rw [if_pos hck] at hv'
    have hsame : v = v' := Option.some.inj hv'
    simp [hck, hsame]
  · rw [if_neg hck] at hv'
    have hnothing := hP.silent v' (hm.values.of_valueAt? hv')
    simp [hck, hnothing]

/-- A replica loses its old value and gets the new one in full, and nothing else changes. -/
theorem Settled.receive_set [LawfulElement K] (hm : m.Settled P) (hP : Replicated.Settles P)
    (hsound : m.Sound fun _ => True) (hk : m.has k = true)
    (hv : (Replicated.receive? (Replicated.harvest true v).1 (none : Option V)).failure = none)
    (initial : Bool) (w : DataMap K V) :
    let after := Tracked.receive (Tracked.harvest initial (m.set k v).result).1 w
    after.failure = none ∧ ∀ ck, after.state.entries.valueAt? ck =
      if ck = Element.key k then (Replicated.receive? (Replicated.harvest true v).1 none).state
      else w.entries.valueAt? ck := by
  intro after
  have hafter : after = w.merge (m.set k v).result.delta := receive_harvest initial _ w
  have hleft := hm.left_set hk v w
  obtain ⟨hfailure, hvalues⟩ := merge_delta (hsound.set k trivial) w fun ck v' hv' => by
    rw [hm.handOver_set hP hk hv', hleft]
    by_cases hck : ck = Element.key k
    · rwa [if_pos hck, if_pos hck]
    · rw [if_neg hck, Outcome.failure_done]
  rw [hafter]
  refine ⟨hfailure, fun ck => ?_⟩
  rw [hvalues, arrives, hleft]
  cases hv' : (m.set k v).result.entries.valueAt? ck with
  | none =>
      have hck : ck ≠ Element.key k := by
        intro hck
        simp [hck, FinMap.valueAt?_insert] at hv'
      simp only [if_neg hck]
  | some v' =>
      simp only [hm.handOver_set hP hk hv']
      split <;> rfl

/-- A key that comes back is shipped as an addition alone. -/
theorem Settled.harvest_delete_set (hm : m.Settled P) (hP : Replicated.Settles P)
    (hk : m.has k = true) {e : Delta} (he : (Replicated.harvest true v).1 = some e)
    (initial : Bool) :
    (Tracked.harvest initial ((m.delete k).set k v).result).1 =
      some ⟨false, [], [⟨Element.encode k, e⟩], []⟩ := by
  have hset := hm.delete_set_eq hk v
  have hadded : ((m.delete k).set k v).result.delta.added = [⟨Element.encode k, e⟩] := by
    simp only [hset, delta, changes, FinMap.map_insert, FinMap.contains_insert, decide_true,
      Bool.true_or, if_true, he]
    refine Contents.entryDeltas_insert (fun c hc hne => ?_) k e
    obtain ⟨f, -, rfl⟩ := List.mem_map.mp hc
    simp [show f.1 ≠ Element.key k from hne]
  -- an old value hands over its changes only, and has none
  have hupdated : ((m.delete k).set k v).result.delta.updated = [] := by
    refine Contents.entryDeltas_eq_nil fun c hc => ?_
    obtain ⟨f, hf, rfl⟩ := List.mem_map.mp hc
    rw [hset] at hf ⊢
    rcases FinMap.mem_entries_of_mem_insert hf with rfl | ⟨hf, -⟩
    · simp [FinMap.contains_insert]
    · have hnothing := hP.silent _ (hm.values f (FinMap.mem_entries_of_mem_erase hf))
      simp [hnothing]
  rw [harvest_eq_delta_of_added initial (by simp [hadded])]
  have hdelta : ((m.delete k).set k v).result.delta =
      ⟨false, [], ((m.delete k).set k v).result.delta.added,
        ((m.delete k).set k v).result.delta.updated⟩ := by
    rw [hset]
    rfl
  rw [hdelta, hadded, hupdated]

/-- An addition of a key that is there is merged into its value. -/
theorem merge_added [LawfulElement K] (e : Delta) {w : DataMap K V} {u : V}
    (hu : w.entries.valueAt? (Element.key k) = some u) :
    let after := w.merge ⟨false, [], [⟨Element.encode k, e⟩], []⟩
    after.failure = (Replicated.apply e u).failure ∧ ∀ ck, after.state.entries.valueAt? ck =
      if ck = Element.key k then some (Replicated.apply e u).state
      else w.entries.valueAt? ck := by
  intro after
  obtain ⟨k₀, hf⟩ := FinMap.valueAt?_eq_some_iff.mp hu
  have hafter : after = (Contents.addOrAlter (fun ck => [⟨.addsPresentKey, ck⟩])
      (changeOf ⟨Element.encode k, e⟩) w.entries).map fun es => { w with entries := es } := by
    simp [after, merge, mergeWith, mergeEntries, Contents.dropAll, Contents.clearIf,
      Outcome.each_cons]
  rw [hafter, Contents.addOrAlter_of_find?_eq_some rfl hf]
  exact ⟨rfl, fun ck => FinMap.valueAt?_insert _ _ _ _⟩

end Handover

end DataMap

/-! ## Merging data into data -/

namespace Datum

variable {T : Type} [Element T]

/-- What comes of merging the full state of fresh data into data that are there.  Only data of the
same kind are taken in.  A register or a vote becomes the new one, a counter counts on, and a set
keeps its elements besides the new ones unless the new set had been cleared. -/
structure TakesIn (x₀ x : Datum T) (o : Outcome (Datum T)) : Prop where
  refused : x₀.kind ≠ x.kind → o = .fail x₀ (.wrongKind x₀.kind x.kind)
  accepted : x₀.kind = x.kind → x.kind ≠ .map → o.failure = none
  counter : ∀ c₀ c, x₀ = .counter c₀ → x = .counter c →
    ∃ c', o.state = .counter c' ∧ c'.value = c₀.value + c.value
  register : ∀ r₀ r, x₀ = .register r₀ → x = .register r →
    ∃ r', o.state = .register r' ∧ r'.value = r.value
  vote : ∀ v₀ v, x₀ = .vote v₀ → x = .vote v →
    ∃ v', o.state = .vote v' ∧ v'.selfVote = v.selfVote
  set : ∀ s₀ s, x₀ = .set s₀ → x = .set s → ∃ s', o.state = .set s' ∧ ∀ ck,
    s'.elements.contains ck = (s.elements.contains ck || !s.cleared && s₀.elements.contains ck)

theorem Embeds.failure_apply {σ δ : Type} [Tracked σ δ] [DeltaForm δ] [Tracked.Accepting σ]
    {mk : σ → Datum T} (h : Embeds mk) {initial : Bool} {s : σ} {e : Delta}
    (he : (Datum.harvest initial (mk s)).1 = some e) (s₀ : σ) :
    (Datum.apply e (mk s₀)).failure = none := by
  have hreceive := Tracked.Accepting.failure_receive? initial s (some s₀)
  rw [Tracked.receive?_some_some] at hreceive
  rw [h.apply_of_harvest he]
  exact hreceive

theorem failure_apply_of_harvest [LawfulElement T] {initial : Bool} {x x₀ : Datum T} {e : Delta}
    (he : (harvest initial x).1 = some e) (hkind : x₀.kind = x.kind) (hleaf : x.kind ≠ .map) :
    (apply e x₀).failure = none := by
  cases x with
  | counter c =>
      cases x₀ with
      | counter c₀ => exact embeds_counter.failure_apply he c₀
      | _ => cases hkind
  | register r =>
      cases x₀ with
      | register r₀ => exact embeds_register.failure_apply he r₀
      | _ => cases hkind
  | set s =>
      cases x₀ with
      | set s₀ => exact embeds_set.failure_apply he s₀
      | _ => cases hkind
  | vote v =>
      cases x₀ with
      | vote v₀ => exact embeds_vote.failure_apply he v₀
      | _ => cases hkind
  | map m => exact absurd rfl hleaf
  | counterMap m =>
      cases x₀ with
      | counterMap m₀ => exact embeds_counterMap.failure_apply he m₀
      | _ => cases hkind
  | registerMap m =>
      cases x₀ with
      | registerMap m₀ => exact embeds_registerMap.failure_apply he m₀
      | _ => cases hkind
  | multiMap m =>
      cases x₀ with
      | multiMap m₀ => exact embeds_multiMap.failure_apply he m₀
      | _ => cases hkind

theorem Fresh.lag_counter {c : Counter} (h : Fresh (.counter c : Datum T)) : c.Lag none := by
  have hlag := h.lag
  generalize hnone : none = o at hlag
  cases hlag with
  | counter old hold =>
      rwa [Option.map_eq_none_iff.mp hnone.symm] at hold

theorem Fresh.lag_set {s : AddRemoveSet T} (h : Fresh (.set s)) : s.Lag none := by
  have hlag := h.lag
  generalize hnone : none = o at hlag
  cases hlag with
  | set old hold =>
      rwa [Option.map_eq_none_iff.mp hnone.symm] at hold

theorem Fresh.takesIn [LawfulElement T] {x : Datum T} (hx : x.Fresh) {e : Delta}
    (he : (harvest true x).1 = some e) (x₀ : Datum T) : TakesIn x₀ x (apply e x₀) := by
  constructor
  · intro hkind
    rw [← kind_of_harvest he] at hkind ⊢
    exact apply_of_kind_ne hkind.symm
  · exact failure_apply_of_harvest he
  · rintro c₀ c rfl rfl
    have hpending : c.value = c.pending := by simpa [Counter.Lag] using hx.lag_counter
    refine ⟨_, congrArg Outcome.state (embeds_counter.apply_of_harvest he c₀), ?_⟩
    simp [Tracked.harvest, Counter.harvest, Tracked.receive, Tracked.merge, Counter.merge,
      hpending]
  · rintro r₀ r rfl rfl
    refine ⟨_, congrArg Outcome.state (embeds_register.apply_of_harvest he r₀), ?_⟩
    obtain ⟨d, hd⟩ := Tracked.Accepting.initial (δ := RegisterDelta) r
    rw [hd]
    simp [Tracked.receive, Tracked.merge, Register.merge, Register.value_of_harvest hd]
  · rintro v₀ v rfl rfl
    exact ⟨_, congrArg Outcome.state (embeds_vote.apply_of_harvest he v₀), rfl⟩
  · rintro s₀ s rfl rfl
    have hlag := hx.lag_set
    refine ⟨_, congrArg Outcome.state (embeds_set.apply_of_harvest he s₀), fun ck => ?_⟩
    -- what has been removed from a fresh set was new, so no removal is staged
    have hself := hlag.contains_eq ck
    have hremoved := hlag.removed ck
    simp only [AddRemoveSet.base, Option.getD_none, FinMap.contains_empty, Bool.and_false,
      Bool.false_and, Bool.or_false, Bool.false_eq_true, imp_false] at hself hremoved
    rw [AddRemoveSet.receive_harvest, (AddRemoveSet.merge_delta hlag.sound s₀).2]
    simp [AddRemoveSet.stages, AddRemoveSet.leaves, hself, hremoved]

end Datum

/-! ## The two ways -/

namespace DataMap

variable {K V T : Type} [Element K]

/-- The ways in which a key can be deleted and get a value again: it is set, or reached for when the
value is supplied for it. -/
inductive Returns (m : DataMap K V) (k : K) : V → DataMap K V → Prop
  | set (v : V) : Returns m k v ((m.delete k).set k v).result
  | reach {f : K → Option (Noted V)} {n : Noted V} (hf : m.supply = some f) (hn : f k = some n) :
      Returns m k n.result ((m.delete k).reach k).result

theorem Returns.eq_set {m m' : DataMap K V} {k : K} {v : V} (h : m.Returns k v m') :
    m' = ((m.delete k).set k v).result := by
  cases h with
  | set v => rfl
  | reach hf hn => exact delete_reach_eq hf hn

/-- A merge that ends in a given way, with a given value for a key, and leaves the other keys
alone. -/
structure PutsAt (k : K) (w : DataMap K V) (o : Outcome (DataMap K V))
    (failure : Option DeltaError) (v : V) : Prop where
  failure_eq : o.failure = failure
  get?_self : o.state.get? k = some v
  get?_of_ne : ∀ k', Element.key k' ≠ Element.key k → o.state.get? k' = w.get? k'

variable [LawfulElement K] [Element T] [LawfulElement T]

/-- A writer that has nothing to hand over replaces the value of a key, and a replica that has the
same merges what the writer hands over then.  If the value was set over the old one, the replica
has the new value and nothing of the old one.  If the key was deleted first, just the addition of
the new value in full is handed over, and the replica merges that into the value that it has. -/
theorem replica_takes_over_replacement {m w : DataMap K (Datum T)} (hsound : m.Sound fun _ => True)
    (hm : m.Settled Datum.Settled) (halike : m.Alike CounterMap.AlikeByValue w) {k : K}
    {old : Datum T} (hold : m.get? k = some old) {v : Datum T} (hv : v.Fresh) (initial : Bool) :
    (∃ z, Datum.AlikeByValue v z ∧
      PutsAt k w (Tracked.receive (Tracked.harvest initial (m.set k v).result).1 w) none z) ∧
    ∃ e u, (Datum.harvest true v).1 = some e ∧ w.get? k = some u ∧ Datum.AlikeByValue old u ∧
      u.TakesIn v (Datum.apply e u) ∧
      ∀ m', m.Returns k v m' →
        (Tracked.harvest initial m').1 = some ⟨false, [], [⟨Element.encode k, e⟩], []⟩ ∧
        PutsAt k w (Tracked.receive (Tracked.harvest initial m').1 w)
          (Datum.apply e u).failure (Datum.apply e u).state := by
  have hvalue : m.entries.valueAt? (Element.key k) = some old := hold
  have hk : m.has k = true := by
    rw [has, FinMap.contains_eq_isSome_valueAt?, hvalue]
    rfl
  obtain ⟨hfailure, z, hz, hvz⟩ := hv.receive_initial
  constructor
  · obtain ⟨hok, hvalues⟩ := hm.receive_set Datum.settles hsound hk hfailure initial w
    refine ⟨z, hvz, hok, ?_, fun k' hk' => ?_⟩
    · exact (hvalues (Element.key k)).trans ((if_pos rfl).trans hz)
    · exact (hvalues (Element.key k')).trans (if_neg hk')
  · obtain ⟨e, he⟩ : ∃ e, (Datum.harvest true v).1 = some e := by
      refine Option.ne_none_iff_exists'.mp fun hnone => ?_
      have hnothing : (Replicated.harvest true v).1 = none := hnone
      rw [hnothing] at hz
      cases hz
    have hpresent : w.entries.contains (Element.key k) = true := by
      rw [← halike.contains_eq]
      exact hk
    rw [FinMap.contains_eq_isSome_valueAt?] at hpresent
    obtain ⟨u, hu⟩ := Option.isSome_iff_exists.mp hpresent
    refine ⟨e, u, he, hu, halike.values _ _ _ hvalue hu, hv.takesIn he u, fun m' hm' => ?_⟩
    have hharvest : (Tracked.harvest initial m').1 =
        some ⟨false, [], [⟨Element.encode k, e⟩], []⟩ := by
      rw [hm'.eq_set]
      exact hm.harvest_delete_set Datum.settles hk he initial
    obtain ⟨hend, hvalues⟩ := merge_added e hu
    rw [hharvest]
    refine ⟨rfl, hend, ?_, fun k' hk' => ?_⟩
    · exact (hvalues (Element.key k)).trans (if_pos rfl)
    · exact (hvalues (Element.key k')).trans (if_neg hk')

/-- A counter is replaced by a register.  A peer that has the counter takes over the register if it
was set over the counter, and refuses it if the counter was deleted first. -/
theorem replica_takes_over_register_for_counter :
    let k : Payload := ⟨"", [1]⟩
    let m : DataMap Payload (Datum Payload) :=
      { entries := FinMap.insert ∅ (Element.key k) (k, .counter ⟨3, 0⟩) }
    let v : Datum Payload := .register (.new k {})
    (m.Sound fun _ => True) ∧ m.Settled Datum.Settled ∧ m.Alike CounterMap.AlikeByValue m ∧
      m.get? k = some (.counter ⟨3, 0⟩) ∧ v.Fresh ∧
      (∃ z, Datum.AlikeByValue v z ∧
        PutsAt k m (Tracked.receive (Tracked.harvest true (m.set k v).result).1 m) none z) ∧
      PutsAt k m (Tracked.receive (Tracked.harvest true ((m.delete k).set k v).result).1 m)
        (some (.wrongKind .counter .register)) (.counter ⟨3, 0⟩) := by
  intro k m v
  have hsound : m.Sound fun _ => True :=
    ⟨Contents.Sound.empty.insert rfl trivial, FinMap.ordered_empty, .empty⟩
  have hsettled : m.Settled Datum.Settled := ⟨rfl, rfl, rfl, .insert .empty (.counter rfl)⟩
  have halike : m.Alike CounterMap.AlikeByValue m := by
    refine ⟨fun _ => rfl, fun ck x x' hx hx' => ?_⟩
    have hcounter : x = .counter ⟨3, 0⟩ ∧ x' = .counter ⟨3, 0⟩ := by
      rw [FinMap.valueAt?_insert, FinMap.valueAt?_empty] at hx hx'
      by_cases hck : ck = Element.key k
      · rw [if_pos hck] at hx hx'
        exact ⟨(Option.some.inj hx).symm, (Option.some.inj hx').symm⟩
      · rw [if_neg hck] at hx
        cases hx
    rw [hcounter.1, hcounter.2]
    exact .counter rfl
  have hfresh : v.Fresh := .start (.register k {})
  obtain ⟨hset, e, u, -, hu, -, htakes, hreturn⟩ :=
    replica_takes_over_replacement (k := k) hsound hsettled halike rfl hfresh true
  refine ⟨hsound, hsettled, halike, rfl, hfresh, hset, ?_⟩
  cases hu
  have hrefused := htakes.refused (by decide)
  have hput := (hreturn _ (.set v)).2
  rwa [hrefused] at hput

/-- A counter that is deleted and set again counts on at a peer, which has three and should have
five then. -/
theorem returning_counter_counts_on :
    let k : Payload := ⟨"", [1]⟩
    let m : DataMap Payload (Datum Payload) :=
      { entries := FinMap.insert ∅ (Element.key k) (k, .counter ⟨3, 0⟩) }
    let v : Datum Payload := .counter (Counter.increment 5 {})
    let after :=
      Tracked.receive (Tracked.harvest false ((m.delete k).set k v).result).1 m
    m.Settled Datum.Settled ∧ v.Fresh ∧ after.failure = none ∧
      after.state.get? k = some (.counter ⟨8, 0⟩) ∧
      ¬ Datum.AlikeByValue v (.counter ⟨8, 0⟩) := by
  intro k m v after
  have hsettled : m.Settled Datum.Settled := ⟨rfl, rfl, rfl, .insert .empty (.counter rfl)⟩
  have hfresh : v.Fresh := .operate (.start .counter) (.counter (.increment 5) {})
  have hharvest : (Tracked.harvest false ((m.delete k).set k v).result).1 =
      some ⟨false, [], [⟨Element.encode k, .counter ⟨5⟩⟩], []⟩ :=
    hsettled.harvest_delete_set Datum.settles rfl rfl false
  have hold : m.entries.valueAt? (Element.key k) = some (.counter ⟨3, 0⟩) := rfl
  obtain ⟨hend, hvalues⟩ := merge_added (.counter ⟨5⟩) hold
  have hafter : after = m.merge ⟨false, [], [⟨Element.encode k, .counter ⟨5⟩⟩], []⟩ := by
    unfold after
    rw [hharvest]
    rfl
  refine ⟨hsettled, hfresh, ?_, ?_, ?_⟩
  · rw [hafter, hend]
    rfl
  · rw [hafter]
    exact (hvalues (Element.key k)).trans (if_pos rfl)
  · intro h
    exact absurd (Datum.alike_counter_iff.mp h) (by decide)

end DataMap

end DeltaReplica
