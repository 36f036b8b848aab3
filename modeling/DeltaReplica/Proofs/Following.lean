import DeltaReplica.Proofs.Quiescence
import DeltaReplica.Proofs.SingleWriter

/-!
# Replicas that follow a writer

A writer changes and is harvested, and its replica merges all that the writer hands over.
With sets, and with maps whose values are all of one type, the replica follows whatever the
writer does: keys may come and go within one harvest.

What a set hands over is minimal.  A delta removes only what the replica has, adds only what
it has not, and names no removals beside a clearing, so the replica never remarks on it.
-/

namespace DeltaReplica

namespace Tracked

variable {σ δ ω : Type} [Tracked σ δ]

/-- A writer and its replica, after some operations of the writer and some harvests of it that the
replica has merged. -/
inductive Followed (perform : ω → σ → σ) (writer₀ replica₀ : σ) : σ → σ → Prop
  | start : Followed perform writer₀ replica₀ writer₀ replica₀
  | change {writer replica : σ} (h : Followed perform writer₀ replica₀ writer replica) (op : ω) :
      Followed perform writer₀ replica₀ (perform op writer) replica
  | harvest {writer replica : σ} (h : Followed perform writer₀ replica₀ writer replica)
      (initial : Bool) :
      Followed perform writer₀ replica₀ (Tracked.harvest initial writer).2
        (receive (Tracked.harvest initial writer).1 replica).state

end Tracked

/-! ## Silent merges -/

namespace Outcome

variable {σ α : Type}

theorem notices_andThen_eq_nil {o : Outcome σ} {next : σ → Outcome σ} (ho : o.notices = [])
    (hnext : (next o.state).notices = []) : (o.andThen next).notices = [] := by
  cases hf : o.failure <;> simp [andThen, after, hf, ho, hnext]

/-- Steps are silent if each finds what it needs, and leaves the others what they need. -/
theorem notices_each_eq_nil {P : List α → σ → Prop} {step : α → σ → Outcome σ}
    (h : ∀ a as s, P (a :: as) s → (step a s).notices = [] ∧ P as (step a s).state)
    {as : List α} {s : σ} (hs : P as s) : (each step as s).notices = [] := by
  induction as generalizing s with
  | nil => rfl
  | cons a as ih =>
      obtain ⟨hfirst, hrest⟩ := h a as s hs
      exact notices_andThen_eq_nil hfirst (ih hrest)

end Outcome

/-- Removals of different keys that are all there are silent. -/
theorem Contents.notices_dropAll_encode {K α : Type} [Element K] [LawfulElement K]
    (remark : Remark) {ks : List K} {m : FinMap Key α} (hnodup : (ks.map Element.key).Nodup)
    (hmem : ∀ k ∈ ks, m.contains (Element.key k) = true) :
    (dropAll K remark (ks.map Element.encode) m).notices = [] := by
  rw [dropAll, Outcome.each_map]
  refine Outcome.notices_each_eq_nil
    (P := fun ks m => (ks.map Element.key).Nodup ∧ ∀ k ∈ ks, m.contains (Element.key k) = true)
    ?_ ⟨hnodup, hmem⟩
  rintro k ks m ⟨hnodup, hmem⟩
  rw [List.map_cons, List.nodup_cons] at hnodup
  have hk : m.contains (Element.key k) = true := hmem k List.mem_cons_self
  refine ⟨by simp [drop, hk], hnodup.2, fun k' hk' => ?_⟩
  have hne : Element.key k' ≠ Element.key k := fun h => hnodup.1 (h ▸ List.mem_map_of_mem hk')
  simp [drop, FinMap.contains_erase, hne, hmem k' (List.mem_cons_of_mem k hk')]

namespace AddRemoveSet

variable {E : Type} [Element E]

/-- Additions of different elements that are all missing are silent. -/
theorem notices_each_mergeElement_encode [LawfulElement E] {es : List E} {m : FinMap Key E}
    (hnodup : (es.map Element.key).Nodup)
    (hmissing : ∀ e ∈ es, m.contains (Element.key e) = false) :
    (Outcome.each mergeElement (es.map Element.encode) m).notices = [] := by
  rw [Outcome.each_map]
  refine Outcome.notices_each_eq_nil
    (P := fun es m => (es.map Element.key).Nodup ∧ ∀ e ∈ es, m.contains (Element.key e) = false)
    ?_ ⟨hnodup, hmissing⟩
  rintro e es m ⟨hnodup, hmissing⟩
  rw [List.map_cons, List.nodup_cons] at hnodup
  have he : m.contains (Element.key e) = false := hmissing e List.mem_cons_self
  refine ⟨by simp [mergeElement, he], hnodup.2, fun e' he' => ?_⟩
  have hne : Element.key e' ≠ Element.key e := fun h => hnodup.1 (h ▸ List.mem_map_of_mem he')
  simp [mergeElement, FinMap.contains_insert, hne, hmissing e' (List.mem_cons_of_mem e he')]

/-! ## Sets -/

/-- The operations on a set, also on several elements at once. -/
inductive Edit (E : Type)
  /-- An operation on one element, or clearing. -/
  | one (op : Op E)
  /-- Adding several elements. -/
  | addAll (es : List E)
  /-- Removing several elements. -/
  | deleteAll (es : List E)

/-- The set after an operation. -/
def Edit.perform : Edit E → AddRemoveSet E → AddRemoveSet E
  | .one op, s => op.perform s
  | .addAll es, s => s.addAll es
  | .deleteAll es, s => s.deleteAll es

/-- A delta removes what a set has, adds what it lacks after the clearing, and removes nothing that
the clearing has dropped. -/
structure Minimal (d : SetDelta) (w : AddRemoveSet E) : Prop where
  removed : ∀ p ∈ d.removed, ∃ e : E, Element.decode p = .ok e ∧ w.has e = true
  added : ∀ p ∈ d.added, ∃ e : E, Element.decode p = .ok e ∧
    (Contents.clearIf d.cleared w.elements).contains (Element.key e) = false
  cleared : d.cleared = true → d.removed = []

/-- If elements are told apart by their keys, then sets with the same keys have the same elements. -/
theorem Alike.elements_eq {s w : AddRemoveSet E} (h : s.Alike w) (hs : s.Sound) (hw : w.Sound)
    (hkey : ∀ e e' : E, Element.key e = Element.key e' → e = e') : s.elements = w.elements :=
  hs.elements.eq_of_contains_eq hw.elements hkey h

namespace Lag

variable {s w : AddRemoveSet E} {old : Option (AddRemoveSet E)}

theorem of_settled (hsound : s.Sound) (hs : s.Settled) (h : s.Alike w) : s.Lag (some w) := by
  refine ⟨hsound, fun ck => ?_, fun ck hadded => ?_, fun ck hremoved => ?_⟩
  · simp [base, hs.added, hs.removed, hs.cleared, h ck]
  · simp [hs.added] at hadded
  · simp [hs.removed] at hremoved

theorem deleteAll (h : s.Lag old) (es : List E) : (s.deleteAll es).Lag old := by
  induction es generalizing s with
  | nil => exact h
  | cons e es ih => exact ih (h.delete e)

theorem edit (h : s.Lag old) (op : Edit E) : (op.perform s).Lag old := by
  cases op with
  | one op => exact op.lag h
  | addAll es => exact h.addAll es
  | deleteAll es => exact h.deleteAll es

/-- What is staged as removed is there at the receiver, and the receiver is not to be cleared. -/
theorem of_removed (h : s.Lag (some w)) {e : E} (he : e ∈ s.removed.values) :
    s.cleared = false ∧ w.has e = true := by
  have hstaged : s.removed.contains (Element.key e) = true :=
    h.sound.removed.contains_iff_mem_values.mpr (List.mem_map_of_mem he)
  simpa [base, has] using h.removed _ hstaged

/-- What is staged as added is missing at the receiver, once that is cleared. -/
theorem of_added (h : s.Lag (some w)) {ck : Key} (hck : s.added.contains ck = true) :
    (Contents.clearIf s.cleared w.elements).contains ck = false := by
  have hmissing := h.added ck hck
  cases hc : s.cleared with
  | true => rfl
  | false => simpa [base, hc, Contents.clearIf] using hmissing

theorem minimal [LawfulElement E] (h : s.Lag (some w)) : Minimal s.delta w := by
  refine ⟨fun p hp => ?_, fun p hp => ?_, fun hc => ?_⟩
  · obtain ⟨e, he, rfl⟩ := List.mem_map.mp hp
    exact ⟨e, LawfulElement.decode_encode e, (h.of_removed he).2⟩
  · obtain ⟨e, he, rfl⟩ := List.mem_map.mp hp
    have hstaged : s.stages (Element.key e) = true :=
      (mem_staged_keys_iff h.sound).mp (List.mem_map_of_mem he)
    rw [stages, Bool.and_eq_true] at hstaged
    exact ⟨e, LawfulElement.decode_encode e, h.of_added hstaged.1⟩
  · refine List.map_eq_nil_iff.mpr (List.eq_nil_iff_forall_not_mem.mpr fun e he => ?_)
    have hkept := (h.of_removed he).1
    rw [show s.cleared = true from hc] at hkept
    cases hkept

theorem notices_merge [LawfulElement E] (h : s.Lag (some w)) : (w.merge s.delta).notices = [] := by
  change (mergeElements s.delta w.elements).notices = []
  refine Outcome.notices_andThen_eq_nil ?_ ?_
  · refine Contents.notices_dropAll_encode _ h.sound.removed.nodup_map_values fun e he => ?_
    obtain ⟨hc, hw⟩ := h.of_removed he
    change (Contents.clearIf s.cleared w.elements).contains (Element.key e) = true
    rw [hc]
    exact hw
  · -- what is staged as added is missing after the clearing, and the removals only take away
    have hdrop := (Contents.dropAll_encode (K := E) .removesMissingElement s.removed.values
      (Contents.clearIf s.cleared w.elements)).2
    refine notices_each_mergeElement_encode ?_ fun e he => ?_
    · rw [h.sound.elements.map_filterMap_find?]
      exact h.sound.added.nodup_keys.filter _
    · have hstaged : s.stages (Element.key e) = true :=
        (mem_staged_keys_iff h.sound).mp (List.mem_map_of_mem he)
      rw [stages, Bool.and_eq_true] at hstaged
      have hmissing := FinMap.find?_eq_none_iff.mpr (h.of_added hstaged.1)
      refine FinMap.find?_eq_none_iff.mp ?_
      change (Contents.dropAll E .removesMissingElement (s.removed.values.map Element.encode)
        (Contents.clearIf s.cleared w.elements)).state.find? (Element.key e) = none
      rw [hdrop, hmissing, ite_self]

end Lag

variable [LawfulElement E] {writer₀ replica₀ writer replica : AddRemoveSet E}

theorem lag_of_followed (hsound : writer₀.Sound) (hsettled : writer₀.Settled)
    (halike : writer₀.Alike replica₀)
    (h : Tracked.Followed Edit.perform writer₀ replica₀ writer replica) :
    writer.Lag (some replica) := by
  induction h with
  | start => exact .of_settled hsound hsettled halike
  | change h op ih => exact ih.edit op
  | harvest h initial ih =>
      have hdelivers : Tracked.Delivers Lag (Matched AddRemoveSet.Alike) initial _ (some _) :=
        ih.delivers fun hnone => by cases hnone
      have hlag := hdelivers.lag
      rwa [Tracked.receive?_some_some] at hlag

omit [LawfulElement E] in
theorem sound_of_followed (hsound : replica₀.Sound)
    (h : Tracked.Followed Edit.perform writer₀ replica₀ writer replica) : replica.Sound := by
  induction h with
  | start => exact hsound
  | change h op ih => exact ih
  | harvest h initial ih =>
      rw [receive_harvest]
      exact ih.merge _

/-- Whatever a writer of a set does, its replica has the elements of the writer after each harvest,
if it had them at the start.  Each delta is minimal for the replica that it meets, and is merged
without a remark. -/
theorem replica_follows_by_minimal_deltas (hwriter : writer₀.Sound) (hreplica : replica₀.Sound)
    (hsettled : writer₀.Settled) (halike : writer₀.Alike replica₀)
    (h : Tracked.Followed Edit.perform writer₀ replica₀ writer replica) (initial : Bool) :
    let kept := (Tracked.harvest initial writer).2
    let after := Tracked.receive (Tracked.harvest initial writer).1 replica
    after.failure = none ∧ after.notices = [] ∧ kept.Alike after.state ∧
      ((∀ e e' : E, Element.key e = Element.key e' → e = e') →
        kept.elements = after.state.elements) ∧
      ∀ d, (Tracked.harvest initial writer).1 = some d → Minimal d replica := by
  intro kept after
  have hlag := lag_of_followed hwriter hsettled halike h
  have hafter : after = replica.merge writer.delta := receive_harvest initial writer replica
  obtain ⟨hfailure, hcontains⟩ := hlag.contains_merge
  have hkept : kept = { elements := writer.elements } := snd_harvest initial writer
  have halike' : kept.Alike after.state := by
    rw [hkept, hafter]
    exact hcontains
  have hsound : after.state.Sound := by
    rw [hafter]
    exact (sound_of_followed hreplica h).merge _
  refine ⟨?_, ?_, halike', fun hkey => ?_, fun d hd => ?_⟩
  · rw [hafter]
    exact hfailure
  · rw [hafter]
    exact hlag.notices_merge
  · exact halike'.elements_eq (hlag.sound.harvest initial) hsound hkey
  · rw [eq_delta_of_harvest hd]
    exact hlag.minimal

/-- Both elements are removed, which clears the set, and one of them comes back beside a new
one. -/
theorem replica_follows_after_clearing :
    let x : Payload := ⟨"", [1]⟩
    let y : Payload := ⟨"", [2]⟩
    let z : Payload := ⟨"", [3]⟩
    let start : AddRemoveSet Payload := (Tracked.harvest false (addAll [x, y] {})).2
    let emptied := Edit.perform (.deleteAll [x, y]) start
    let writer := Edit.perform (.addAll [y, z]) emptied
    let after := Tracked.receive (Tracked.harvest false writer).1 start
    start.Sound ∧ start.Settled ∧ start.Alike start ∧
      Tracked.Followed Edit.perform start start writer start ∧
      (Tracked.harvest false writer).1 = some ⟨true, [], [y, z]⟩ ∧
      after.failure = none ∧ after.notices = [] ∧ after.state.toList = [y, z] ∧
      Minimal ⟨true, [], [y, z]⟩ start := by
  intro x y z start emptied writer after
  have hsound : start.Sound := keeps_sound.harvest false _ ((Sound.empty false).addAll [x, y])
  have hsettled : start.Settled := settles.harvest false (addAll [x, y] {})
  have halike : start.Alike start := fun _ => rfl
  have hemptied : Tracked.Followed Edit.perform start start emptied start :=
    .change .start (Edit.deleteAll [x, y])
  have hfollowed : Tracked.Followed Edit.perform start start writer start :=
    .change hemptied (Edit.addAll [y, z])
  have hdelta : (Tracked.harvest false writer).1 = some ⟨true, [], [y, z]⟩ := by decide
  obtain ⟨hfailure, hnotices, -, -, hminimal⟩ :=
    replica_follows_by_minimal_deltas hsound hsound hsettled halike hfollowed false
  have hlist : after.state.toList = [y, z] := by decide
  exact ⟨hsound, hsettled, halike, hfollowed, hdelta, hfailure, hnotices, hlist,
    hminimal _ hdelta⟩

end AddRemoveSet

/-! ## Maps with values of one type -/

namespace Tracked

variable {σ δ ω : Type} [Tracked σ δ] {perform : ω → σ → σ} {start : σ} {A B : σ → σ → Prop}

/-- Whatever a writer does from the start, a replica that starts with it merges each delta without
failure, and then `A` relates what the writer keeps to the replica. -/
def Mirrors (perform : ω → σ → σ) (start : σ) (A : σ → σ → Prop) : Prop :=
  ∀ writer replica : σ, Followed perform start start writer replica → ∀ initial : Bool,
    (receive (Tracked.harvest initial writer).1 replica).failure = none ∧
      A (Tracked.harvest initial writer).2
        (receive (Tracked.harvest initial writer).1 replica).state

theorem Mirrors.mono (h : Mirrors perform start A) (hmono : ∀ s w, A s w → B s w) :
    Mirrors perform start B := by
  intro writer replica hfollowed initial
  obtain ⟨hfailure, halike⟩ := h writer replica hfollowed initial
  exact ⟨hfailure, hmono _ _ halike⟩

end Tracked

namespace UniformMap

section

variable {K V δ ω : Type} [Element K] [LawfulElement K] [Tracked V δ] {L A : V → Option V → Prop}
  {perform : ω → UniformMap K V → UniformMap K V} {writer replica : UniformMap K V}

/-- A harvest makes up for the lag of a map that the receiver has already. -/
theorem Lag.delivers_some (hvalues : ∀ v o, L v o → Tracked.Delivers L A false v o)
    (h : Lag L writer replica) (initial : Bool) :
    (Tracked.receive (Tracked.harvest initial writer).1 replica).failure = none ∧
      Lag L (Tracked.harvest initial writer).2
        (Tracked.receive (Tracked.harvest initial writer).1 replica).state ∧
      Follows A (Tracked.harvest initial writer).2
        (Tracked.receive (Tracked.harvest initial writer).1 replica).state := by
  have hdelivers : Tracked.Delivers (fun m o => Lag L m (o.getD {})) (Matched (Follows A)) initial
      writer (some replica) := h.delivers hvalues fun hnone => by cases hnone
  have hfailure := hdelivers.failure
  have hlag := hdelivers.lag
  obtain ⟨w, hw, hfollows⟩ := hdelivers.alike
  rw [Tracked.receive?_some_some] at hfailure hlag hw
  cases hw
  exact ⟨hfailure, hlag, hfollows⟩

/-- If the operations keep the lag of a replica, and the harvests of the values make up for it, then
a replica mirrors its writer from the empty map on. -/
theorem mirrors (hchange : ∀ op m w, Lag L m w → Lag L (perform op m) w)
    (hvalues : ∀ v o, L v o → Tracked.Delivers L A false v o) :
    Tracked.Mirrors perform {} (Follows A) := by
  intro writer replica hfollowed initial
  have hlag : Lag L writer replica := by
    induction hfollowed with
    | start => exact .empty
    | change h op ih => exact hchange op _ _ ih
    | harvest h initial ih => exact (ih.delivers_some hvalues initial).2.1
  obtain ⟨hfailure, -, hfollows⟩ := hlag.delivers_some hvalues initial
  exact ⟨hfailure, hfollows⟩

end

variable {K V : Type} [Element K] [LawfulElement K] [Element V] [LawfulElement V]

/-- Whatever a writer of a map of counters, registers or sets does from the empty map on, its replica
merges each delta without failure, and after each of them it counts the same for every key, or has
the same keys with the same values. -/
theorem replica_mirrors_single_writer :
    Tracked.Mirrors CounterMap.Op.perform ({} : CounterMap K) CounterMap.AlikeByValue ∧
      Tracked.Mirrors RegisterMap.Op.perform ({} : RegisterMap K V) RegisterMap.Alike ∧
      Tracked.Mirrors MultiMap.Op.perform ({} : MultiMap K V) MultiMap.Alike := by
  refine ⟨?_, ?_, ?_⟩
  · have hmirrors : Tracked.Mirrors CounterMap.Op.perform ({} : CounterMap K) (Follows _) :=
      mirrors (fun op _ _ h => op.lag h) fun _ _ hc => hc.delivers_value false
    exact hmirrors.mono fun _ _ => CounterMap.alikeByValue_of_follows
  · have hmirrors : Tracked.Mirrors RegisterMap.Op.perform ({} : RegisterMap K V) (Follows _) :=
      mirrors (fun op _ _ h => op.lag h) fun _ _ hr => hr.delivers false
    exact hmirrors.mono fun _ _ => Contents.alike_of_lifted
  · have hmirrors : Tracked.Mirrors MultiMap.Op.perform ({} : MultiMap K V) (Follows _) :=
      mirrors (fun op _ _ h => op.lag h) fun _ _ hs => hs.delivers
    exact hmirrors.mono fun _ _ => Contents.alike_of_lifted

/-- A key goes and comes back within one harvest: in a map of counters it starts from zero, and in a
map of sets it has its last value taken away and gets another one. -/
theorem replica_mirrors_recreated_key :
    let k : Payload := ⟨"", [1]⟩
    let v : Payload := ⟨"", [2]⟩
    let v' : Payload := ⟨"", [3]⟩
    let counted : CounterMap Payload := CounterMap.Op.perform (.increment k 5) {}
    let counters := (Tracked.receive (Tracked.harvest false counted).1 {}).state
    let recounted := CounterMap.Op.perform (.increment k 2)
      (CounterMap.Op.perform (.delete k) (Tracked.harvest false counted).2)
    let filled : MultiMap Payload Payload := MultiMap.Op.perform (.put k v) {}
    let sets := (Tracked.receive (Tracked.harvest false filled).1 {}).state
    let refilled := MultiMap.Op.perform (.put k v')
      (MultiMap.Op.perform (.deleteValue k v) (Tracked.harvest false filled).2)
    Tracked.Followed CounterMap.Op.perform {} {} recounted counters ∧
      CounterMap.AlikeByValue (Tracked.harvest true recounted).2
        (Tracked.receive (Tracked.harvest true recounted).1 counters).state ∧
      CounterMap.value k (Tracked.receive (Tracked.harvest true recounted).1 counters).state = 2 ∧
      Tracked.Followed MultiMap.Op.perform {} {} refilled sets ∧
      (Tracked.receive (Tracked.harvest true refilled).1 sets).failure = none ∧
      MultiMap.Alike (Tracked.harvest true refilled).2
        (Tracked.receive (Tracked.harvest true refilled).1 sets).state := by
  intro k v v' counted counters recounted filled sets refilled
  obtain ⟨hcounters, -, hsets⟩ := replica_mirrors_single_writer (K := Payload) (V := Payload)
  have hcounted : Tracked.Followed CounterMap.Op.perform {} {} counted {} :=
    .change .start (CounterMap.Op.increment k 5)
  have hdeleted := (hcounted.harvest false).change (CounterMap.Op.delete k)
  have hrecounted : Tracked.Followed CounterMap.Op.perform {} {} recounted counters :=
    hdeleted.change (CounterMap.Op.increment k 2)
  have hfilled : Tracked.Followed MultiMap.Op.perform {} {} filled {} :=
    .change .start (MultiMap.Op.put k v)
  have hemptied := (hfilled.harvest false).change (MultiMap.Op.deleteValue k v)
  have hrefilled : Tracked.Followed MultiMap.Op.perform {} {} refilled sets :=
    hemptied.change (MultiMap.Op.put k v')
  have hvalue : CounterMap.value k
      (Tracked.receive (Tracked.harvest true recounted).1 counters).state = 2 := by decide
  exact ⟨hrecounted, (hcounters _ _ hrecounted true).2, hvalue, hrefilled,
    hsets _ _ hrefilled true⟩

end UniformMap

end DeltaReplica
