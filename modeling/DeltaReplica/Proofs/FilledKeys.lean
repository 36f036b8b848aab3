import DeltaReplica.Proofs.Acceptance
import DeltaReplica.Proofs.Lag
import DeltaReplica.Proofs.Shadow
import Mathlib.Data.List.Induction

/-!
# Keys without values

Local changes keep a key of a map of sets only as long as it has values.  Deltas of peers
change the sets under the keys, and nothing drops a key whose set has lost its last value on
the way: a peer that takes away the only value that this map has left for a key, or that takes
one away from a key that is not here, leaves a key without values.

This is the only way for such a key to come about.  As long as it does not happen, the queries
agree on whether there is anything, and a removal that finds nothing changes nothing.
-/

namespace DeltaReplica

namespace MultiMap

variable {K V : Type}

/-- Every key has a value. -/
def Filled (m : MultiMap K V) : Prop :=
  ∀ ck s, m.entries.valueAt? ck = some s → s.isEmpty = false

section

variable [Element K] [Element V]

/-- The queries of a map of sets agree on whether there is anything, and removing a value that is
not there changes nothing. -/
structure Coherent (m : MultiMap K V) : Prop where
  filled : m.Filled
  isEmpty_iff : m.isEmpty = true ↔ m.count = 0
  has_iff : ∀ k, m.has k = true ↔ ∃ v, m.hasValue k v = true
  deleteValue_of_missing : ∀ k v,
    (m.deleteValueFound k v).1 = false → (m.deleteValueFound k v).2 = m

/-- The states that maps of sets can come to, when they start empty and merge what such maps hand
over. -/
inductive Reached : MultiMap K V → Prop
  | start : Reached {}
  | change {m : MultiMap K V} (h : Reached m) (op : Op K V) : Reached (op.perform m)
  | harvest {m : MultiMap K V} (h : Reached m) (initial : Bool) :
      Reached (Tracked.harvest initial m).2
  | receive {m peer : MultiMap K V} (h : Reached m) (hpeer : Reached peer) (initial : Bool) :
      Reached (Tracked.receive (Tracked.harvest initial peer).1 m).state

/-- What an event does to a map of sets.  What is received comes with the peer that harvests it. -/
def step (m : MultiMap K V) : Event (Op K V) (MultiMap K V × Bool) → MultiMap K V
  | .change op => op.perform m
  | .receive (peer, initial) => (Tracked.receive (Tracked.harvest initial peer).1 m).state
  | .harvest initial => (Tracked.harvest initial m).2

/-- An empty map of sets after a sequence of events. -/
def run (events : List (Event (Op K V) (MultiMap K V × Bool))) : MultiMap K V :=
  events.foldl step {}

/-- A peer hands over changes to the set of a key, and neither has it values to add nor does it
leave a receiver any of its own. -/
def Empties (peer m : MultiMap K V) (ck : Key) : Prop :=
  ∃ s, peer.entries.valueAt? ck = some s ∧ (Tracked.harvest false s).1.isSome = true ∧
    ∀ e, s.stages e = false ∧ s.leaves ((peer.left m ck).getD {}) e = false

end

/-! ## What the queries show -/

theorem foldl_size_eq_zero_iff (l : List (K × AddRemoveSet V)) (n : Nat) :
    l.foldl (fun n e => n + e.2.size) n = 0 ↔ n = 0 ∧ ∀ e ∈ l, e.2.size = 0 := by
  induction l generalizing n with
  | nil => simp
  | cons e l ih =>
      rw [List.foldl_cons, ih, List.forall_mem_cons, Nat.add_eq_zero_iff, and_assoc]

theorem Filled.isEmpty_iff {m : MultiMap K V} (h : m.Filled) :
    m.isEmpty = true ↔ m.count = 0 := by
  have hcount : m.count = 0 ↔ ∀ e ∈ m.toList, e.2.size = 0 := by
    rw [count, foldl_size_eq_zero_iff]
    exact and_iff_right rfl
  rw [hcount]
  constructor
  · intro hempty e he
    rw [UniformMap.toList, FinMap.isEmpty_iff.mp hempty] at he
    cases he
  · intro hzero
    refine FinMap.isEmpty_iff_forall_contains.mpr fun ck => FinMap.valueAt?_eq_none_iff.mp ?_
    cases hs : m.entries.valueAt? ck with
    | none => rfl
    | some s =>
        obtain ⟨k, hf⟩ := FinMap.valueAt?_eq_some_iff.mp hs
        have hmem : (k, s) ∈ m.toList :=
          List.mem_map.mpr ⟨_, FinMap.mem_entries_of_find?_eq_some hf, rfl⟩
        have hlength : s.elements.entries.length = 0 := hzero _ hmem
        have hfilled := h ck s hs
        rw [AddRemoveSet.isEmpty, FinMap.isEmpty, List.length_eq_zero_iff.mp hlength] at hfilled
        cases hfilled

theorem isEmpty_eq_false_iff {s : AddRemoveSet V} :
    s.isEmpty = false ↔ ∃ ck, s.elements.contains ck = true := by
  rw [← Bool.not_eq_true, AddRemoveSet.isEmpty, FinMap.isEmpty_iff_forall_contains]
  simp

section Sets

variable [Element V] {s : AddRemoveSet V}

theorem exists_has_of_not_isEmpty (hs : s.Sound) (h : s.isEmpty = false) :
    ∃ v, s.has v = true := by
  obtain ⟨ck, hck⟩ := isEmpty_eq_false_iff.mp h
  obtain ⟨v, hv⟩ := FinMap.contains_iff_exists_mem.mp hck
  have hkey : Element.key v = ck := hs.elements.key_eq _ hv
  exact ⟨v, by rw [AddRemoveSet.has, hkey, hck]⟩

theorem delete_of_missing {v : V} (h : s.has v = false) : s.delete v = s := by
  have hf : s.elements.find? (Element.key v) = none := FinMap.find?_eq_none_iff.mpr h
  simp [AddRemoveSet.delete, hf]

end Sets

section Queries

variable [Element K] [Element V] {m : MultiMap K V}

theorem Filled.has_iff (h : m.Filled) (hm : UniformMap.Sound AddRemoveSet.Sound m) (k : K) :
    m.has k = true ↔ ∃ v, m.hasValue k v = true := by
  rw [UniformMap.has, FinMap.contains_eq_isSome_valueAt?]
  have hget : m.get? k = m.entries.valueAt? (Element.key k) := rfl
  cases hs : m.entries.valueAt? (Element.key k) with
  | none => simp [hasValue, hget, hs]
  | some s =>
      obtain ⟨v, hv⟩ :=
        exists_has_of_not_isEmpty (hm.contents.of_valueAt? hs) (h _ s hs)
      have hvalue : m.hasValue k v = true := by simp [hasValue, hget, hs, hv]
      exact ⟨fun _ => ⟨v, hvalue⟩, fun _ => rfl⟩

theorem Filled.deleteValue_of_missing (h : m.Filled)
    (hm : UniformMap.Sound AddRemoveSet.Sound m) {k : K} {v : V}
    (hmissing : m.hasValue k v = false) : m.deleteValue k v = m := by
  have hget : m.get? k = m.entries.valueAt? (Element.key k) := rfl
  cases hs : m.entries.valueAt? (Element.key k) with
  | none => simp [deleteValue, hget, hs]
  | some s =>
      have hhas : s.has v = false := by simpa [hasValue, hget, hs] using hmissing
      have hsame : s.delete v = s := delete_of_missing hhas
      have hne : s.isEmpty = false := h _ s hs
      obtain ⟨k', hf⟩ := FinMap.valueAt?_eq_some_iff.mp hs
      have hmodify : m.modify k {} (·.delete v) = m := by
        have hinsert := hm.contents.indexed.ordered.insert_of_find? hf
        simp [UniformMap.modify, hf, hsame, hinsert]
      simp [deleteValue, hget, hs, hsame, hne, hmodify]

theorem coherent_iff_filled (hm : UniformMap.Sound AddRemoveSet.Sound m) :
    m.Coherent ↔ m.Filled :=
  ⟨Coherent.filled, fun h =>
    ⟨h, h.isEmpty_iff, h.has_iff hm, fun _ _ hmissing => h.deleteValue_of_missing hm hmissing⟩⟩

end Queries

/-! ## Steps -/

theorem Filled.of_subset {m m' : MultiMap K V} (h : m.Filled)
    (hsub : ∀ ck s, m'.entries.valueAt? ck = some s → m.entries.valueAt? ck = some s) :
    m'.Filled :=
  fun ck s hs => h ck s (hsub ck s hs)

theorem Filled.modify [Element K] {m : MultiMap K V} (h : m.Filled) (k : K)
    {f : AddRemoveSet V → AddRemoveSet V} (hf : (f ((m.get? k).getD {})).isEmpty = false) :
    Filled (UniformMap.modify k {} f m) := by
  intro ck s hs
  rw [UniformMap.valueAt?_modify] at hs
  split at hs
  · next hck =>
      subst hck
      rw [← Option.some.inj hs]
      exact hf
  · exact h ck s hs

section Steps

variable [Element K] [Element V] {m peer : MultiMap K V}

/-- Every operation that takes a value away drops the key with the last one. -/
theorem Filled.perform (h : m.Filled) (op : Op K V) : (op.perform m).Filled := by
  cases op with
  | put k v => exact h.modify k (not_isEmpty_add _ v)
  | putAll k vs =>
      rw [Op.perform, putAll]
      split
      · exact h
      · next hvs =>
          have hne : vs ≠ [] := by simpa using hvs
          exact h.modify k (not_isEmpty_addAll _ (Or.inr hne))
  | deleteValue k v =>
      rw [Op.perform, deleteValue]
      cases hs : m.get? k with
      | none => exact h
      | some s =>
          by_cases he : (s.delete v).isEmpty = true
          · simp only [he, if_true]
            refine h.of_subset fun ck t ht => ?_
            rw [UniformMap.entries_delete, FinMap.valueAt?_erase] at ht
            split at ht
            · cases ht
            · next hck => rwa [UniformMap.valueAt?_modify, if_neg hck] at ht
          · rw [Bool.not_eq_true] at he
            simp only [he]
            refine h.modify k ?_
            rw [hs]
            exact he
  | delete k =>
      refine h.of_subset fun ck s hs => ?_
      rw [Op.perform, UniformMap.entries_delete, FinMap.valueAt?_erase] at hs
      split at hs
      · cases hs
      · exact hs
  | clear =>
      refine h.of_subset fun ck s hs => ?_
      rw [Op.perform, UniformMap.entries_clear] at hs
      cases hs

theorem Filled.harvest (h : m.Filled) (initial : Bool) :
    Filled (Tracked.harvest initial m).2 := by
  intro ck t ht
  rw [UniformMap.snd_harvest, UniformMap.valueAt?_kept] at ht
  obtain ⟨s, hs, rfl⟩ := Option.map_eq_some_iff.mp ht
  rw [AddRemoveSet.snd_harvest]
  exact h ck s hs

theorem Reached.sound (h : Reached m) : UniformMap.Sound AddRemoveSet.Sound m := by
  have hkeeps := UniformMap.keeps_sound (K := K) (AddRemoveSet.keeps_sound (E := V))
  induction h with
  | start => exact .empty false
  | change h op ih => exact op.sound ih
  | harvest h initial ih => exact hkeeps.harvest initial _ ih
  | @receive m peer h hpeer initial ih _ =>
      cases (Tracked.harvest initial peer).1 with
      | none => exact ih
      | some d => exact hkeeps.merge d _ ih

variable [LawfulElement K] [LawfulElement V]

theorem valueAt?_receive (hpeer : UniformMap.Sound AddRemoveSet.Sound peer) (initial : Bool)
    (m : MultiMap K V) (ck : Key) :
    (Tracked.receive (Tracked.harvest initial peer).1 m).state.entries.valueAt? ck =
      match peer.entries.valueAt? ck with
      | some s =>
        if (Tracked.harvest false s).1.isSome then
          some (((peer.left m ck).getD {}).merge s.delta).state
        else peer.left m ck
      | none => peer.left m ck := by
  have harrives := (UniformMap.merge_delta hpeer m fun ck s _ =>
    Tracked.Accepting.failure_receive? false s (peer.left m ck)).2 ck
  rw [UniformMap.receive_harvest, harrives, UniformMap.arrives]
  cases hs : peer.entries.valueAt? ck with
  | none => rfl
  | some s =>
      have hok := (AddRemoveSet.merge_delta (hpeer.contents.of_valueAt? hs)
        ((peer.left m ck).getD {})).1
      simp only
      split
      · next hsome =>
          obtain ⟨d, hd⟩ := Option.isSome_iff_exists.mp hsome
          have hdelta : (Tracked.harvest false s).1 = some s.delta := by
            rw [hd, AddRemoveSet.eq_delta_of_harvest hd]
          exact (Tracked.receive?_eq_of_merge (peer.left m ck)
            (AddRemoveSet.receive_harvest false s) rfl (fun _ => hdelta) hok).2
      · next hnone =>
          rw [Option.not_isSome_iff_eq_none.mp hnone]
          rfl

/-- What a peer hands over leaves each key its values, unless the peer empties the set of a key. -/
theorem Filled.receive_iff (h : m.Filled) (hpeer : UniformMap.Sound AddRemoveSet.Sound peer)
    (initial : Bool) :
    Filled (Tracked.receive (Tracked.harvest initial peer).1 m).state ↔
      ∀ ck, ¬Empties peer m ck := by
  have hmerged (ck : Key) (s : AddRemoveSet V) (hs : peer.entries.valueAt? ck = some s) :
      (((peer.left m ck).getD {}).merge s.delta).state.isEmpty = false ↔
        ∃ e, (s.stages e || s.leaves ((peer.left m ck).getD {}) e) = true := by
    obtain ⟨-, hcontains⟩ := AddRemoveSet.merge_delta (hpeer.contents.of_valueAt? hs)
      ((peer.left m ck).getD {})
    simp only [isEmpty_eq_false_iff, hcontains]
  constructor
  · rintro hfilled ck ⟨s, hs, hsome, hnothing⟩
    have hvalue := valueAt?_receive hpeer initial m ck
    rw [hs] at hvalue
    simp only [hsome, if_true] at hvalue
    obtain ⟨e, he⟩ := (hmerged ck s hs).mp (hfilled ck _ hvalue)
    simp [hnothing e] at he
  · intro hnever ck t ht
    have hleft (hlt : peer.left m ck = some t) : t.isEmpty = false := by
      rw [UniformMap.left, Contents.left] at hlt
      split at hlt
      · cases hlt
      · exact h ck t hlt
    rw [valueAt?_receive hpeer] at ht
    cases hs : peer.entries.valueAt? ck with
    | none =>
        rw [hs] at ht
        exact hleft ht
    | some s =>
        rw [hs] at ht
        simp only at ht
        split at ht
        · next hsome =>
            rw [← Option.some.inj ht, hmerged ck s hs]
            refine Classical.byContradiction fun hno => hnever ck ⟨s, hs, hsome, fun e => ?_⟩
            have hnothing := not_exists.mp hno e
            simpa using hnothing
        · exact hleft ht

end Steps

/-! ## Runs -/

section Runs

variable [Element K] [Element V]

theorem reached_run {events : List (Event (Op K V) (MultiMap K V × Bool))}
    (hpeers : ∀ peer initial, .receive (peer, initial) ∈ events → Reached peer) :
    Reached (run events) := by
  refine List.foldlRecOn events step (motive := Reached) .start fun m hm e he => ?_
  cases e with
  | change op => exact hm.change op
  | receive d => exact hm.receive (hpeers d.1 d.2 he) d.2
  | harvest initial => exact hm.harvest initial

variable [LawfulElement K] [LawfulElement V]

theorem Filled.step {m : MultiMap K V} (h : m.Filled)
    {e : Event (Op K V) (MultiMap K V × Bool)}
    (hspared : ∀ peer initial, e = .receive (peer, initial) → Reached peer ∧
      ∀ ck, ¬Empties peer m ck) : (m.step e).Filled := by
  cases e with
  | change op => exact h.perform op
  | receive d =>
      obtain ⟨hpeer, hnever⟩ := hspared d.1 d.2 rfl
      exact (h.receive_iff hpeer.sound d.2).mpr hnever
  | harvest initial => exact h.harvest initial

/-- The queries of a map of sets agree all along a run exactly if no delta on the way empties the
set of a key. -/
theorem coherent_run_iff {events : List (Event (Op K V) (MultiMap K V × Bool))}
    (hpeers : ∀ peer initial, .receive (peer, initial) ∈ events → Reached peer) :
    (∀ before after, events = before ++ after → (run before).Coherent) ↔
      ∀ before peer initial after, events = before ++ .receive (peer, initial) :: after →
        ∀ ck, ¬Empties peer (run before) ck := by
  have hcoherent (before after : List (Event (Op K V) (MultiMap K V × Bool)))
      (hsplit : events = before ++ after) : (run before).Coherent ↔ (run before).Filled := by
    refine coherent_iff_filled (reached_run fun peer initial hmem => ?_).sound
    exact hpeers peer initial (hsplit ▸ List.mem_append_left after hmem)
  constructor
  · intro hall before peer initial after hsplit
    have hbefore : (run before).Filled := (hall before _ hsplit).filled
    have hsplit' : events = (before ++ [.receive (peer, initial)]) ++ after := by
      rw [hsplit, List.append_assoc, List.singleton_append]
    have hafter : (run (before ++ [.receive (peer, initial)])).Filled :=
      (hall _ after hsplit').filled
    rw [run, List.foldl_append] at hafter
    have hpeer : Reached peer := hpeers peer initial (by simp [hsplit])
    exact (hbefore.receive_iff hpeer.sound initial).mp hafter
  · intro hspared before after hsplit
    rw [hcoherent before after hsplit]
    induction before using List.reverseRecOn generalizing after with
    | nil =>
        intro ck s hs
        cases hs
    | append_singleton before e ih =>
        rw [List.append_assoc, List.singleton_append] at hsplit
        have hbefore : (run before).Filled := ih (e :: after) hsplit
        rw [run, List.foldl_append]
        refine hbefore.step ?_
        rintro peer initial rfl
        exact ⟨hpeers peer initial (by simp [hsplit]), hspared before peer initial after hsplit⟩

/-- A peer takes one of the two values of a key away. -/
theorem coherent_after_removal_by_peer :
    let a : Payload := ⟨"", [1]⟩
    let x : Payload := ⟨"", [2]⟩
    let y : Payload := ⟨"", [3]⟩
    let filled : MultiMap Payload Payload := (Op.putAll a [x, y]).perform {}
    let peer := (Op.deleteValue a y).perform (Tracked.harvest false filled).2
    let events : List (Event (Op Payload Payload) (MultiMap Payload Payload × Bool)) :=
      [.change (.putAll a [x, y]), .receive (peer, false)]
    (∀ p initial, .receive (p, initial) ∈ events → Reached p) ∧
      (run events).hasValue a x = true ∧ (run events).hasValue a y = false ∧
      ∀ before after, events = before ++ after → (run before).Coherent := by
  intro a x y filled peer events
  have hreached : Reached peer := ((Reached.start.change (.putAll a [x, y])).harvest false).change _
  have hpeers : ∀ p initial, .receive (p, initial) ∈ events → Reached p := by
    intro p initial hmem
    have hpair : (p, initial) = (peer, false) := by simpa [events] using hmem
    obtain ⟨rfl, -⟩ := Prod.mk.inj hpair
    exact hreached
  refine ⟨hpeers, by decide, by decide, (coherent_run_iff hpeers).mpr ?_⟩
  rintro before p initial after hsplit ck ⟨s, hs, -, hnothing⟩
  -- the one delta is received after the one change
  obtain ⟨rfl, rfl⟩ : before = [.change (.putAll a [x, y])] ∧ p = peer := by
    rcases before with _ | ⟨b, _ | ⟨b', rest⟩⟩
    · cases (List.cons.inj hsplit).1
    · obtain ⟨hb, htail⟩ := List.cons.inj hsplit
      have hpair := Event.receive.inj (List.cons.inj htail).1
      exact ⟨by rw [← hb], (congrArg Prod.fst hpair).symm⟩
    · have hlength := congrArg List.length hsplit
      simp [events] at hlength
  have hkeys : peer.entries.keys = [Element.key a] := by decide
  have hck : ck = Element.key a := by
    have hcontains : peer.entries.contains ck = true := by
      rw [FinMap.contains_eq_isSome_valueAt?, hs]
      rfl
    rw [FinMap.contains_iff_mem_keys, hkeys] at hcontains
    exact List.mem_singleton.mp hcontains
  subst hck
  have hleaves : (peer.entries.valueAt? (Element.key a)).map (fun s => s.leaves
      ((peer.left (run [.change (.putAll a [x, y])]) (Element.key a)).getD {})
        (Element.key x)) = some true := by decide
  rw [hs, Option.map_some, (hnothing (Element.key x)).2] at hleaves
  cases hleaves

/-- Two maps share a key with two values.  This one takes one of them away and a peer the other one,
and the key is left without values. -/
theorem key_without_values_after_two_removals :
    let a : Payload := ⟨"", [1]⟩
    let x : Payload := ⟨"", [2]⟩
    let y : Payload := ⟨"", [3]⟩
    let filled : MultiMap Payload Payload := (Op.putAll a [x, y]).perform {}
    let peer := (Op.deleteValue a y).perform (Tracked.harvest false filled).2
    let before := run [.receive (filled, false), .change (.deleteValue a x)]
    let m := run [.receive (filled, false), .change (.deleteValue a x), .receive (peer, false)]
    Reached filled ∧ Reached peer ∧
      (Tracked.receive (Tracked.harvest false peer).1 before).failure = none ∧
      m.has a = true ∧ m.count = 0 ∧ UniformMap.isEmpty m = false ∧
      m.hasValue a x = false ∧ m.hasValue a y = false ∧
      (deleteValueFound a x m).1 = false ∧ (deleteValueFound a x m).2.has a = false := by
  intro a x y filled peer before m
  have hfilled : Reached filled := Reached.start.change (.putAll a [x, y])
  exact ⟨hfilled, (hfilled.harvest false).change _, by decide⟩

end Runs

end MultiMap

end DeltaReplica
