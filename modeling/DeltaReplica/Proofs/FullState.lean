import DeltaReplica.Proofs.Acceptance
import DeltaReplica.Proofs.History
import DeltaReplica.Proofs.Likeness

/-!
# The full state

A map ships a new value by an initial harvest of it, from which its peers make the value
anew.  This works for a value that is whole: all that there is to it is still staged.
What has been harvested before, or has come from peers, is not in the delta, except for
registers and votes, which repeat their value.

Whatever the history of data, an initial harvest hands over a delta that data can be made
from, and what is made is alike exactly if the data are whole.
-/

namespace DeltaReplica

/-! ## Making data from a delta -/

/-- What is made anew from what data hand over. -/
def Tracked.copy {σ δ : Type} [Tracked σ δ] (initial : Bool) (s : σ) : Outcome (Option σ) :=
  receive? (harvest initial s).1 none

/-- What is made anew from what data hand over. -/
def Replicated.copy {σ : Type} [Replicated σ] (initial : Bool) (s : σ) : Outcome (Option σ) :=
  receive? (harvest initial s).1 none

theorem Replicated.of_copy_eq_done {σ : Type} [Replicated σ] {initial : Bool} {x z : σ}
    (h : copy initial x = .done (some z)) :
    ∃ d y, (harvest initial x).1 = some d ∧ createFor d = .ok y ∧ (apply d y).failure = none ∧
      (apply d y).state = z := by
  have hstate : (copy initial x).state = some z := congrArg Outcome.state h
  unfold copy at hstate
  cases hd : (harvest initial x).1 with
  | none => simp [hd] at hstate
  | some d =>
      rw [hd] at hstate
      cases hcreate : createFor (σ := σ) d with
      | error e => simp [receive?, Outcome.meet, hcreate, Outcome.withResult] at hstate
      | ok y =>
          cases hfailure : (apply d y).failure with
          | some e => simp [receive?, Outcome.meet, hcreate, hfailure] at hstate
          | none =>
              simp only [receive?, Outcome.meet_eq_done hcreate hfailure, Outcome.state_done,
                Option.some.injEq] at hstate
              exact ⟨d, y, rfl, hcreate, hfailure, hstate⟩

theorem Contents.alike_iff_of_bind {K V : Type} {A : V → V → Prop} {m w : Entries K V}
    {f : Key → V → Option V} (h : ∀ ck, w.valueAt? ck = (m.valueAt? ck).bind (f ck)) :
    Contents.Alike A w m ↔ ∀ ck v, m.valueAt? ck = some v → ∃ v', f ck v = some v' ∧ A v' v := by
  constructor
  · intro halike ck v hv
    have hcontains := halike.contains_eq ck
    rw [FinMap.contains_eq_isSome_valueAt?, FinMap.contains_eq_isSome_valueAt?, hv] at hcontains
    obtain ⟨v', hv'⟩ := Option.isSome_iff_exists.mp hcontains
    refine ⟨v', ?_, halike.values ck v' v hv' hv⟩
    rw [← hv', h, hv]
    rfl
  · intro hall
    constructor
    · intro ck
      rw [FinMap.contains_eq_isSome_valueAt?, FinMap.contains_eq_isSome_valueAt?, h]
      cases hv : m.valueAt? ck with
      | none => rfl
      | some v =>
          obtain ⟨v', hv', -⟩ := hall ck v hv
          simp [hv']
    · intro ck v' v hv' hv
      obtain ⟨v'', hv'', hA⟩ := hall ck v hv
      rw [h, hv, Option.bind_some, hv''] at hv'
      cases hv'
      exact hA

/-! ## Each kind of data -/

theorem Counter.copy_initial (c : Counter) :
    Tracked.copy true c = .done (some ⟨0 + c.pending, 0⟩) := by
  simp [Tracked.copy, Tracked.harvest, Counter.harvest, Tracked.receive?, Tracked.create,
    Tracked.merge, Outcome.meet, merge]

theorem Counter.copy_changes_iff (c : Counter) :
    (∃ c', (Tracked.copy false c).state = some c' ∧ c'.value = c.value) ↔
      c.pending = c.value ∧ c.pending ≠ 0 := by
  by_cases h : c.pending = 0
  · simp [Tracked.copy, Tracked.harvest, Counter.harvest, h]
  · simp [Tracked.copy, Tracked.harvest, Counter.harvest, Tracked.receive?, Tracked.create,
      Tracked.merge, Outcome.meet, merge, h]

theorem Vote.copy_initial (v : Vote) :
    ∃ v', Tracked.copy true v = .done (some v') ∧ v'.selfVote = v.selfVote :=
  ⟨_, rfl, rfl⟩

section Elements

variable {V : Type} [Element V] [LawfulElement V]

theorem Register.copy_eq {initial : Bool} {r : Register V} {d : RegisterDelta}
    (h : (Tracked.harvest initial r).1 = some d) :
    Tracked.copy initial r = .done (some ⟨r.value, none⟩) := by
  have hvalue := value_of_harvest h
  rw [Tracked.copy, h]
  simp [Tracked.receive?, Outcome.meet, Tracked.create, create, Tracked.merge, merge, hvalue,
    Except.map]

theorem Register.copy_changes_iff (r : Register V) :
    (∃ r', (Tracked.copy false r).state = some r' ∧ r'.value = r.value) ↔
      r.pending.isSome = true := by
  cases hp : r.pending with
  | none => simp [Tracked.copy, Tracked.harvest, harvest, hp]
  | some t =>
      have hd : ∃ d, (Tracked.harvest false r).1 = some d :=
        ⟨_, by simp [Tracked.harvest, harvest, hp]; rfl⟩
      obtain ⟨d, hd⟩ := hd
      simp [copy_eq hd]

/-- All elements of a set are staged as added. -/
def AddRemoveSet.Whole (s : AddRemoveSet V) : Prop :=
  ∀ ck, s.elements.contains ck = true → s.added.contains ck = true

theorem AddRemoveSet.copy_eq {s : AddRemoveSet V} (hs : s.Sound) {initial : Bool}
    {d : SetDelta} (h : (Tracked.harvest initial s).1 = some d) :
    ∃ t, Tracked.copy initial s = .done (some t) ∧ (t.Alike s ↔ s.Whole) := by
  obtain ⟨hfailure, hcontains⟩ := merge_delta hs {}
  refine ⟨(({} : AddRemoveSet V).merge s.delta).state, ?_, ?_⟩
  · rw [Tracked.copy, h, eq_delta_of_harvest h]
    exact Outcome.meet_eq_done rfl hfailure
  · simp only [AddRemoveSet.Alike, hcontains, stages, leaves, FinMap.contains_empty,
      Bool.and_false, Bool.or_false, Whole]
    refine forall_congr' fun ck => ?_
    cases s.elements.contains ck <;> simp

theorem AddRemoveSet.copy_changes_iff {s : AddRemoveSet V} (hs : s.Sound) :
    (∃ t, (Tracked.copy false s).state = some t ∧ t.Alike s) ↔
      (Tracked.harvest false s).1.isSome = true ∧ s.Whole := by
  cases hd : (Tracked.harvest false s).1 with
  | none => simp [Tracked.copy, hd]
  | some d =>
      obtain ⟨t, ht, halike⟩ := copy_eq hs hd
      simp [ht, halike]

end Elements

section Maps

variable {K V δ : Type} [Element K] [LawfulElement K]

/-- What is made from an initial harvest has a key if the value under it has changes to hand over,
and then what is made from those. -/
theorem UniformMap.copy_initial [Tracked V δ] [Tracked.Accepting V] {P : V → Prop}
    {m : UniformMap K V} (hm : m.Sound P) :
    ∃ w, Tracked.copy true m = .done (some w) ∧ ∀ ck, w.entries.valueAt? ck =
      (m.entries.valueAt? ck).bind fun v => (Tracked.copy false v).state := by
  have hleft (ck : Key) : m.left {} ck = none := Contents.left_empty ..
  obtain ⟨hfailure, harrives⟩ := merge_delta hm {} fun ck v _ =>
    Tracked.Accepting.failure_receive? false v _
  obtain ⟨d, hd⟩ := Tracked.Accepting.initial (δ := UniformMapDelta δ) m
  refine ⟨_, ?_, fun ck => (harrives ck).trans ?_⟩
  · rw [Tracked.copy, hd, eq_delta_of_harvest hd]
    exact Outcome.meet_eq_done rfl hfailure
  · rw [arrives, hleft]
    cases m.entries.valueAt? ck <;> rfl

/-- What is made from an initial harvest has the keys that are staged as added, and under them what
is made from the initial harvests of the values. -/
theorem DataMap.copy_initial [Replicated V] {P : V → Prop} {m : DataMap K V}
    (hm : m.Sound P)
    (hok : ∀ ck v, m.entries.valueAt? ck = some v →
      (Replicated.copy true v).failure = none) :
    ∃ w, Tracked.copy true m = .done (some w) ∧ ∀ ck, w.entries.valueAt? ck =
      (m.entries.valueAt? ck).bind fun v =>
        if m.added.contains ck then (Replicated.copy true v).state else none := by
  have hleft (ck : Key) : m.left {} ck = none := Contents.left_empty ..
  obtain ⟨hfailure, harrives⟩ := merge_delta hm {} fun ck v hv => by
    rw [hleft, handOver]
    split
    · exact hok ck v hv
    · rfl
  refine ⟨_, ?_, fun ck => (harrives ck).trans ?_⟩
  · rw [Tracked.copy, m.harvest_true]
    exact Outcome.meet_eq_done rfl hfailure
  · rw [arrives, hleft]
    cases m.entries.valueAt? ck with
    | none => rfl
    | some v =>
        simp only [handOver, Option.bind_some]
        split <;> rfl

end Maps

/-! ## Data of any kind -/

namespace Datum

variable {T : Type} [Element T]

/-- Data that hand over all of their contents.  What a counter counts and the elements of a set must
be staged still, and so must the keys of a map; registers and votes repeat their value.  In the
other maps each value must have something to hand over, or its key is left out. -/
inductive Whole : Datum T → Prop
  | counter {c : Counter} (h : c.pending = c.value) : Whole (.counter c)
  | register (r : Register T) : Whole (.register r)
  | set {s : AddRemoveSet T} (h : s.Whole) : Whole (.set s)
  | vote (v : Vote) : Whole (.vote v)
  | map {m : DataMap T (Datum T)}
      (hadded : ∀ ck, m.entries.contains ck = true → m.added.contains ck = true)
      (hvalues : ∀ ck v, m.entries.valueAt? ck = some v → Whole v) :
      Whole (.map m)
  | counterMap {m : CounterMap T}
      (h : ∀ ck c, m.entries.valueAt? ck = some c → c.pending = c.value ∧ c.pending ≠ 0) :
      Whole (.counterMap m)
  | registerMap {m : RegisterMap T T}
      (h : ∀ ck r, m.entries.valueAt? ck = some r → r.pending.isSome = true) :
      Whole (.registerMap m)
  | multiMap {m : MultiMap T T}
      (h : ∀ ck s, m.entries.valueAt? ck = some s →
        (Tracked.harvest false s).1.isSome = true ∧ s.Whole) :
      Whole (.multiMap m)

/-- The data can be made anew, and are made alike exactly if they are whole. -/
def CopiesIfWhole (x : Datum T) : Prop :=
  ∃ z, Replicated.copy true x = .done (some z) ∧
    (Alike CounterMap.AlikeByEntry z x ↔ Whole x)

theorem Embeds.copy {σ δ : Type} [Tracked σ δ] [DeltaForm δ] {mk : σ → Datum T} (h : Embeds mk)
    {initial : Bool} {s t : σ} (hs : Tracked.copy initial s = .done (some t)) :
    Replicated.copy initial (mk s) = .done (some (mk t)) := by
  have hreceive := h.receive? initial s none
  rw [← Tracked.copy, hs] at hreceive
  exact hreceive

theorem copiesIfWhole_counter (c : Counter) : CopiesIfWhole (.counter c : Datum T) := by
  refine ⟨_, embeds_counter.copy c.copy_initial, ?_⟩
  rw [alike_counter_iff]
  constructor
  · intro h
    exact .counter (by simpa using h)
  · intro h
    cases h with
    | counter h => simpa using h

theorem copiesIfWhole_vote (v : Vote) : CopiesIfWhole (.vote v : Datum T) := by
  obtain ⟨v', hv', hself⟩ := v.copy_initial
  refine ⟨_, embeds_vote.copy hv', ?_⟩
  rw [alike_vote_iff]
  exact ⟨fun _ => .vote v, fun _ => hself⟩

variable [LawfulElement T]

theorem copiesIfWhole_register (r : Register T) : CopiesIfWhole (.register r) := by
  obtain ⟨d, hd⟩ := Tracked.Accepting.initial (δ := RegisterDelta) r
  refine ⟨_, embeds_register.copy (Register.copy_eq hd), ?_⟩
  rw [alike_register_iff]
  exact ⟨fun _ => .register r, fun _ => rfl⟩

theorem copiesIfWhole_set {s : AddRemoveSet T} (hs : s.Sound) : CopiesIfWhole (.set s) := by
  obtain ⟨d, hd⟩ := Tracked.Accepting.initial (δ := SetDelta) s
  obtain ⟨t, ht, halike⟩ := AddRemoveSet.copy_eq hs hd
  refine ⟨_, embeds_set.copy ht, ?_⟩
  rw [alike_set_iff, halike]
  constructor
  · exact .set
  · intro h
    cases h with
    | set h => exact h

theorem copiesIfWhole_counterMap {m : CounterMap T}
    (hm : UniformMap.Sound (fun _ => True) m) : CopiesIfWhole (.counterMap m) := by
  obtain ⟨w, hw, hvalue⟩ := UniformMap.copy_initial hm
  refine ⟨_, embeds_counterMap.copy hw, ?_⟩
  rw [alike_counterMap_iff, CounterMap.AlikeByEntry, Contents.alike_iff_of_bind hvalue]
  simp only [Counter.copy_changes_iff]
  constructor
  · exact .counterMap
  · intro h
    cases h with
    | counterMap h => exact h

theorem copiesIfWhole_registerMap {m : RegisterMap T T}
    (hm : UniformMap.Sound (fun _ => True) m) : CopiesIfWhole (.registerMap m) := by
  obtain ⟨w, hw, hvalue⟩ := UniformMap.copy_initial hm
  refine ⟨_, embeds_registerMap.copy hw, ?_⟩
  rw [alike_registerMap_iff, RegisterMap.Alike, Contents.alike_iff_of_bind hvalue]
  simp only [Register.copy_changes_iff]
  constructor
  · exact .registerMap
  · intro h
    cases h with
    | registerMap h => exact h

theorem copiesIfWhole_multiMap {m : MultiMap T T}
    (hm : UniformMap.Sound AddRemoveSet.Sound m) : CopiesIfWhole (.multiMap m) := by
  obtain ⟨w, hw, hvalue⟩ := UniformMap.copy_initial hm
  refine ⟨_, embeds_multiMap.copy hw, ?_⟩
  rw [alike_multiMap_iff, MultiMap.Alike, Contents.alike_iff_of_bind hvalue]
  have hset (ck : Key) (s : AddRemoveSet T) (hs : m.entries.valueAt? ck = some s) :=
    AddRemoveSet.copy_changes_iff (hm.contents.of_valueAt? hs)
  constructor
  · intro h
    exact .multiMap fun ck s hs => (hset ck s hs).mp (h ck s hs)
  · intro h
    cases h with
    | multiMap h => exact fun ck s hs => (hset ck s hs).mpr (h ck s hs)

theorem copiesIfWhole_map {m : DataMap T (Datum T)} (hm : m.Sound Sound)
    (ih : ∀ ck v, m.entries.valueAt? ck = some v → CopiesIfWhole v) :
    CopiesIfWhole (.map m) := by
  have hok (ck : Key) (v : Datum T) (hv : m.entries.valueAt? ck = some v) :
      (Replicated.copy true v).failure = none := by
    obtain ⟨z, hz, -⟩ := ih ck v hv
    rw [hz]
    rfl
  obtain ⟨w, hw, hvalue⟩ := DataMap.copy_initial hm hok
  refine ⟨_, embeds_map.copy hw, ?_⟩
  rw [alike_map_iff, DataMap.Alike, Contents.alike_iff_of_bind hvalue]
  -- what is made of one value, and whether it is alike
  have hone (ck : Key) (v : Datum T) (hv : m.entries.valueAt? ck = some v) :
      (∃ z, (if m.added.contains ck then (Replicated.copy true v).state else none) = some z ∧
        Alike CounterMap.AlikeByEntry z v) ↔ m.added.contains ck = true ∧ Whole v := by
    obtain ⟨z, hz, halike⟩ := ih ck v hv
    by_cases ha : m.added.contains ck = true
    · simp [ha, hz, halike]
    · simp [ha]
  constructor
  · intro h
    refine .map (fun ck hck => ?_) fun ck v hv => ((hone ck v hv).mp (h ck v hv)).2
    rw [FinMap.contains_eq_isSome_valueAt?] at hck
    obtain ⟨v, hv⟩ := Option.isSome_iff_exists.mp hck
    exact ((hone ck v hv).mp (h ck v hv)).1
  · intro h
    cases h with
    | map hadded hvalues =>
        intro ck v hv
        refine (hone ck v hv).mpr ⟨hadded ck ?_, hvalues ck v hv⟩
        simp [FinMap.contains_eq_isSome_valueAt?, hv]

theorem copiesIfWhole {x : Datum T} (hx : x.Sound) : CopiesIfWhole x := by
  induction x using Datum.induction with
  | leaf x hleaf =>
      cases hx with
      | counter c => exact copiesIfWhole_counter c
      | register r => exact copiesIfWhole_register r
      | set hs => exact copiesIfWhole_set hs
      | vote v => exact copiesIfWhole_vote v
      | map h hvalues => exact absurd rfl hleaf
      | counterMap hm => exact copiesIfWhole_counterMap hm
      | registerMap hm => exact copiesIfWhole_registerMap hm
      | multiMap hm => exact copiesIfWhole_multiMap hm
  | map m ih =>
      have hm := sound_map_iff.mp hx
      refine copiesIfWhole_map hm fun ck v hv => ?_
      obtain ⟨k, hf⟩ := FinMap.valueAt?_eq_some_iff.mp hv
      exact ih _ (FinMap.mem_entries_of_find?_eq_some hf) (hm.contents.of_valueAt? hv)

/-- Whatever happened to data, an initial harvest hands over a delta, data can be made from it, and
the delta can be merged into them.  The result is alike exactly if the data were whole. -/
theorem initial_harvest_restores_iff {x : Datum T} (hx : Made .peers x) :
    ∃ d y, (Replicated.harvest true x).1 = some d ∧ Replicated.createFor d = .ok y ∧
      (Replicated.apply d y).failure = none ∧
      (Alike CounterMap.AlikeByEntry (Replicated.apply d y).state x ↔ Whole x) := by
  obtain ⟨z, hz, halike⟩ := copiesIfWhole hx.sound
  obtain ⟨d, y, hd, hy, hfailure, rfl⟩ := Replicated.of_copy_eq_done hz
  exact ⟨d, y, hd, hy, hfailure, halike⟩

/-- A map with a counter in it that was never harvested is made alike. -/
theorem initial_harvest_restores_new_entry :
    let k : Payload := ⟨"", [1]⟩
    let x : Datum Payload := .map ((({} : DataMap Payload (Datum Payload)).set k
      (.counter (Counter.increment 5 {}))).result)
    Made .peers x ∧ Whole x ∧
      ∃ d y, (Replicated.harvest true x).1 = some d ∧ Replicated.createFor d = .ok y ∧
        (Replicated.apply d y).failure = none ∧
        Alike CounterMap.AlikeByEntry (Replicated.apply d y).state x := by
  intro k x
  have hcounter : Made .peers (.counter (Counter.increment 5 {}) : Datum Payload) :=
    .step (.start .counter) (.operate (.counter (.increment 5) {}))
  have hmade : Made .peers x := by
    refine .step (.start (.map none)) (.map (.set k hcounter fun _ halone => ?_))
    cases halone
  have hwhole : Whole x := by
    refine .map (fun ck hck => ?_) fun ck v hv => ?_
    · simpa [x, DataMap.set, FinMap.contains_insert] using hck
    · rw [DataMap.entries_set, FinMap.valueAt?_insert] at hv
      split at hv
      · cases hv
        exact .counter rfl
      · cases hv
  obtain ⟨d, y, hd, hy, hfailure, halike⟩ := initial_harvest_restores_iff hmade
  exact ⟨hmade, hwhole, d, y, hd, hy, hfailure, halike.mpr hwhole⟩

/-- What a counter has counted before a harvest is not in an initial harvest after it. -/
theorem initial_harvest_loses_harvested_count :
    let x : Datum Payload := (Replicated.harvest false (.counter (Counter.increment 5 {}))).2
    Made .peers x ∧ ∀ d y, (Replicated.harvest true x).1 = some d →
      Replicated.createFor d = .ok y →
      ¬Alike CounterMap.AlikeByEntry (Replicated.apply d y).state x := by
  intro x
  have hmade : Made .peers x :=
    .step (.step (.start .counter) (.operate (.counter (.increment 5) {})))
      (.harvest rfl false _)
  refine ⟨hmade, fun d y hd hy halike => ?_⟩
  cases hd
  cases hy
  have hvalue : (0 : Int64) + 0 = 5 := alike_counter_iff.mp halike
  exact absurd hvalue (by decide)

end Datum

end DeltaReplica
