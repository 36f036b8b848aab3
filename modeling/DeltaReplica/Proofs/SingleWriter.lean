import DeltaReplica.Proofs.Acceptance
import DeltaReplica.Proofs.Lag
import DeltaReplica.Proofs.Likeness

/-!
# A single writer and its replica

A writer starts with an empty map, and so does a replica that merges all that the writer
hands over.  The values that enter the map are new to all, and a key does not come back
while its removal is staged, at any depth.  Then the replica merges every delta without
failure, and has what the writer has after each of them.

The proof carries the lag of the replica through the run.  That a harvest makes up for
the lag is shown for each kind of data, and for nested maps by induction.
-/

namespace DeltaReplica

/-- A value is related to one that may be missing, and is not. -/
def Matched {V : Type} (A : V → V → Prop) (v : V) (o : Option V) : Prop :=
  ∃ v', o = some v' ∧ A v v'

/-- What data hand over can be merged into an old value, and makes up for a lag. -/
structure Tracked.Delivers {σ δ : Type} [Tracked σ δ] (L A : σ → Option σ → Prop)
    (initial : Bool) (s : σ) (old : Option σ) : Prop where
  failure : (receive? (harvest initial s).1 old).failure = none
  lag : L (harvest initial s).2 (receive? (harvest initial s).1 old).state
  alike : A (harvest initial s).2 (receive? (harvest initial s).1 old).state

/-- What data hand over can be merged into an old value, and makes up for a lag. -/
structure Replicated.Delivers {σ : Type} [Replicated σ] (L A : σ → Option σ → Prop)
    (initial : Bool) (s : σ) (old : Option σ) : Prop where
  failure : (receive? (harvest initial s).1 old).failure = none
  lag : L (harvest initial s).2 (receive? (harvest initial s).1 old).state
  alike : A (harvest initial s).2 (receive? (harvest initial s).1 old).state

/-! ## Single values -/

theorem Counter.Lag.delivers_value {c : Counter} {old : Option Counter} (h : c.Lag old)
    (initial : Bool) :
    Tracked.Delivers Counter.Lag (fun c o => c.value = o.elim 0 Counter.value) initial c old := by
  unfold Counter.Lag at h
  have hharvest : (Tracked.harvest initial c).2 = ⟨c.value, 0⟩ ∧
      ((Tracked.harvest initial c).1 = none ∧ c.pending = 0 ∨
        (Tracked.harvest initial c).1 = some ⟨c.pending⟩) := by
    obtain ⟨value, pending⟩ := c
    simp only [Tracked.harvest, harvest]
    split
    · next hc =>
        simp only [Bool.and_eq_true, decide_eq_true_eq] at hc
        simp [hc.1]
    · simp
  obtain ⟨hkept, ⟨hnone, hpending⟩ | hsome⟩ := hharvest
  · have hvalue : c.value = old.elim 0 Counter.value := by simpa [hpending] using h
    constructor
    · rw [hnone]
      rfl
    · rw [hnone, hkept]
      simpa [Counter.Lag] using hvalue
    · rw [hnone, hkept]
      exact hvalue
  · have hstate : (Tracked.receive? (Tracked.harvest initial c).1 old).state =
        some ⟨old.elim 0 Counter.value + c.pending, (old.elim 0 Counter.pending)⟩ := by
      rw [hsome]
      cases old <;> rfl
    constructor
    · rw [hsome]
      cases old <;> rfl
    · rw [hstate, hkept]
      simpa [Counter.Lag] using h
    · rw [hstate, hkept]
      exact h

theorem Counter.Lag.delivers {c : Counter} {old : Option Counter} (h : c.Lag old)
    {initial : Bool} (hsome : old = none → initial = true) :
    Tracked.Delivers Counter.Lag (Matched fun c c' => c.value = c'.value) initial c old := by
  have hvalue := h.delivers_value initial
  refine ⟨hvalue.failure, hvalue.lag, ?_⟩
  have hdelivered := hvalue.alike
  cases hstate : (Tracked.receive? (Tracked.harvest initial c).1 old).state with
  | some c' =>
      rw [hstate] at hdelivered
      exact ⟨c', rfl, hdelivered⟩
  | none =>
      cases old with
      | some c' =>
          rw [Tracked.receive?_some_some] at hstate
          cases hstate
      | none =>
          rw [hsome rfl] at hstate
          simp [Tracked.harvest, harvest, Tracked.receive?, Tracked.create, Tracked.merge,
            Outcome.meet] at hstate

theorem Register.Lag.delivers {V : Type} [Element V] [LawfulElement V] {r : Register V}
    {old : Option (Register V)} (h : r.Lag old) (initial : Bool) :
    Tracked.Delivers Register.Lag (Matched fun r r' => r.value = r'.value) initial r old := by
  have hkept : (Tracked.harvest initial r).2 = ⟨r.value, none⟩ := rfl
  cases hd : (Tracked.harvest initial r).1 with
  | some d =>
      have hvalue := value_of_harvest hd
      have hreceive : Tracked.receive? (some d) old = .done (some ⟨r.value, none⟩) := by
        cases old with
        | none =>
            simp [Tracked.receive?, Outcome.meet, Tracked.create, create, Tracked.merge, merge,
              hvalue, Except.map]
        | some old =>
            simp only [Tracked.receive?, Outcome.meet, Tracked.merge, merge, hvalue,
              Payload.read_encode, Outcome.withResult_ok]
            rfl
      constructor
      · rw [hd, hreceive]
        rfl
      · rw [hd, hreceive, hkept]
        exact fun _ => rfl
      · rw [hd, hreceive, hkept]
        exact ⟨_, rfl, rfl⟩
  | none =>
      have hpending : r.pending = none := by
        cases hp : r.pending with
        | none => rfl
        | some t => simp [Tracked.harvest, harvest, hp] at hd
      obtain ⟨r', rfl, hr'⟩ := Option.map_eq_some_iff.mp (h hpending)
      constructor
      · rw [hd]
        rfl
      · rw [hd, hkept]
        intro _
        exact congrArg some hr'
      · rw [hd, hkept]
        exact ⟨r', rfl, hr'.symm⟩

theorem Vote.Lag.delivers {v : Vote} {old : Option Vote} (h : v.Lag old) {initial : Bool}
    (hsome : old = none → initial = true) :
    Tracked.Delivers Vote.Lag (Matched fun v v' => v.selfVote = v'.selfVote) initial v old := by
  have hkept : (Tracked.harvest initial v).2 = { v with pending := none } := rfl
  have hreceive : ∃ v', Tracked.receive? (Tracked.harvest initial v).1 old = .done (some v') ∧
      v.selfVote = v'.selfVote := by
    cases initial with
    | true => cases old <;> exact ⟨_, rfl, rfl⟩
    | false =>
        cases old with
        | none => exact absurd (hsome rfl) (by simp)
        | some w =>
            unfold Vote.Lag at h
            cases hp : v.pending with
            | none =>
                rw [hp] at h
                exact ⟨w, by simp [Tracked.harvest, harvest, hp], h.symm⟩
            | some b =>
                rw [hp] at h
                refine ⟨w.merge ⟨b, 0, 0⟩, ?_, h.symm⟩
                simp [Tracked.harvest, harvest, hp]
                rfl
  obtain ⟨v', hreceive, hself⟩ := hreceive
  constructor
  · rw [hreceive]
    rfl
  · rw [hreceive, hkept]
    exact hself.symm
  · rw [hreceive, hkept]
    exact ⟨v', rfl, hself⟩

/-! ## Sets -/

namespace AddRemoveSet

variable {E : Type} [Element E] [LawfulElement E] {s : AddRemoveSet E}
  {old : Option (AddRemoveSet E)}

/-- The staged changes turn what the receiver has into what the writer has. -/
theorem Lag.contains_merge (h : s.Lag old) :
    ((old.getD {}).merge s.delta).failure = none ∧ ∀ ck,
      s.elements.contains ck = ((old.getD {}).merge s.delta).state.elements.contains ck := by
  obtain ⟨hfailure, hcontains⟩ := merge_delta h.sound (old.getD {})
  refine ⟨hfailure, fun ck => ?_⟩
  have hself := h.contains_eq ck
  unfold base at hself
  rw [hcontains, stages, leaves]
  revert hself
  cases s.elements.contains ck <;> cases s.added.contains ck <;> cases s.cleared <;>
    cases s.removed.contains ck <;> cases (old.getD {}).elements.contains ck <;> simp

theorem Lag.delivers (h : s.Lag old) {initial : Bool}
    (hsome : old = none → (Tracked.harvest initial s).1.isSome = true) :
    Tracked.Delivers Lag (Matched AddRemoveSet.Alike) initial s old := by
  obtain ⟨hfailure, hcontains⟩ := h.contains_merge
  have hdelta (hold : old = none) : (Tracked.harvest initial s).1 = some s.delta := by
    obtain ⟨d, hd⟩ := Option.isSome_iff_exists.mp (hsome hold)
    rw [hd, eq_delta_of_harvest hd]
  obtain ⟨hok, hstate⟩ := Tracked.receive?_eq_of_merge old
    (receive_harvest initial s) rfl hdelta hfailure
  refine ⟨hok, ?_, ?_⟩
  · rw [hstate, snd_harvest]
    refine ⟨⟨h.sound.elements, FinMap.ordered_empty, .empty⟩, fun ck => ?_, ?_, ?_⟩
    · simpa [base, Tracked.merge] using hcontains ck
    · simp
    · simp
  · rw [hstate, snd_harvest]
    exact ⟨_, rfl, hcontains⟩

end AddRemoveSet

/-- A set with elements that lags with nothing at the receiver has something to hand over. -/
theorem MultiMap.SetLag.delivers {V : Type} [Element V] [LawfulElement V] {s : AddRemoveSet V}
    {old : Option (AddRemoveSet V)} (h : SetLag s old) :
    Tracked.Delivers SetLag (Matched AddRemoveSet.Alike) false s old := by
  have hsome (hold : old = none) : (Tracked.harvest false s).1.isSome = true := by
    subst hold
    have hadded : s.added.isEmpty = false := by
      cases ha : s.added.isEmpty with
      | false => rfl
      | true =>
          have hempty : s.elements = ∅ := by
            refine FinMap.Ordered.ext h.1.sound.elements.ordered FinMap.ordered_empty fun ck => ?_
            have hself := h.1.contains_eq ck
            rw [FinMap.isEmpty_iff.mp ha] at hself
            rw [FinMap.find?_empty, FinMap.find?_eq_none_iff, hself]
            simp [AddRemoveSet.base]
          have hne := h.2
          simp [AddRemoveSet.isEmpty, hempty, FinMap.isEmpty] at hne
    simp [Tracked.harvest, AddRemoveSet.harvest, hadded]
  have hdelivers := h.1.delivers hsome
  refine ⟨hdelivers.failure, ⟨hdelivers.lag, ?_⟩, hdelivers.alike⟩
  rw [AddRemoveSet.snd_harvest]
  exact h.2

/-! ## Maps with values of one tracked type -/

theorem Contents.alike_of_lifted {K V : Type} {A : V → V → Prop} {m w : Entries K V}
    (h : ∀ ck, Lifted (Matched A) (m.valueAt? ck) (w.valueAt? ck)) : Contents.Alike A m w := by
  constructor
  · intro ck
    have hck := h ck
    rw [FinMap.contains_eq_isSome_valueAt?, FinMap.contains_eq_isSome_valueAt?]
    cases hv : m.valueAt? ck with
    | none =>
        rw [hv] at hck
        rw [show w.valueAt? ck = none from hck]
    | some v =>
        rw [hv] at hck
        obtain ⟨v', hv', -⟩ := hck
        rw [hv']
        rfl
  · intro ck v v' hv hv'
    have hck := h ck
    rw [hv, hv'] at hck
    obtain ⟨v'', hv'', hA⟩ := hck
    cases hv''
    exact hA

namespace UniformMap

variable {K V δ : Type} [Element K] [LawfulElement K] [Tracked V δ] {L A : V → Option V → Prop}
  {m : UniformMap K V} {old : Option (UniformMap K V)}

/-- Maps whose values are related to those of another map, and whose keys are all of its keys. -/
def Follows (A : V → Option V → Prop) (m w : UniformMap K V) : Prop :=
  ∀ ck, Lifted A (m.entries.valueAt? ck) (w.entries.valueAt? ck)

omit [LawfulElement K] [Tracked V δ] in
theorem Lag.of_valueAt? {w : UniformMap K V} (h : Lag L m w) {ck : Key} {v : V}
    (hv : m.entries.valueAt? ck = some v) : L v (m.left w ck) := by
  have hck := h.values ck
  rwa [hv] at hck

omit [LawfulElement K] in
/-- What holds of each value and of what becomes of its old one holds under each key. -/
theorem Lag.lifted_arrives {w : UniformMap K V} (h : Lag L m w) {R : V → Option V → Prop}
    (hR : ∀ v o, L v o →
      R (Tracked.harvest false v).2 (Tracked.receive? (Tracked.harvest false v).1 o).state)
    (ck : Key) : Lifted R (m.kept.valueAt? ck) (m.arrives w ck) := by
  rw [arrives, valueAt?_kept]
  cases hv : m.entries.valueAt? ck with
  | none =>
      have hck := h.values ck
      rwa [hv] at hck
  | some v => exact hR v _ (h.of_valueAt? hv)

/-- The changes of the values reach the receiver after the removals, each under its own key. -/
theorem Lag.delivers (hvalues : ∀ v o, L v o → Tracked.Delivers L A false v o)
    (h : Lag L m (old.getD {})) {initial : Bool}
    (hsome : old = none → (Tracked.harvest initial m).1.isSome = true) :
    Tracked.Delivers (fun m o => Lag L m (o.getD {})) (Matched (Follows A)) initial m old := by
  obtain ⟨hfailure, harrives⟩ := merge_delta h.sound (old.getD {}) fun ck v hv =>
    (hvalues v _ (h.of_valueAt? hv)).failure
  have hdelta (hold : old = none) : (Tracked.harvest initial m).1 = some m.delta := by
    obtain ⟨d, hd⟩ := Option.isSome_iff_exists.mp (hsome hold)
    rw [hd, eq_delta_of_harvest hd]
  obtain ⟨hok, hstate⟩ := Tracked.receive?_eq_of_merge old
    (receive_harvest initial m) rfl hdelta hfailure
  have hsound := h.sound.harvest Tracked.keeps_true initial
  have hkept := snd_harvest initial m
  refine ⟨hok, ?_, ?_⟩
  · rw [hstate]
    refine ⟨hsound, fun ck => ?_⟩
    have hlifted := h.lifted_arrives (fun v o hv => (hvalues v o hv).lag) ck
    rw [← harrives] at hlifted
    rw [hkept]
    simpa [left, Contents.left, Tracked.merge] using hlifted
  · rw [hstate, hkept]
    refine ⟨_, rfl, fun ck => ?_⟩
    have hlifted := h.lifted_arrives (fun v o hv => (hvalues v o hv).alike) ck
    rw [← harrives] at hlifted
    exact hlifted

end UniformMap

section Maps

variable {K V : Type} [Element K]

theorem CounterMap.alikeByValue_of_follows {m w : CounterMap K}
    (h : UniformMap.Follows (fun c o => c.value = o.elim 0 Counter.value) m w) :
    m.AlikeByValue w := by
  intro k
  have hk := h (Element.key k)
  change (m.entries.valueAt? (Element.key k)).elim 0 Counter.value =
    (w.entries.valueAt? (Element.key k)).elim 0 Counter.value
  cases hv : m.entries.valueAt? (Element.key k) with
  | none =>
      rw [hv] at hk
      rw [show w.entries.valueAt? (Element.key k) = none from hk]
  | some c =>
      rw [hv] at hk
      exact hk

end Maps

/-! ## Maps to replicated data -/

namespace DataMap

variable {K V : Type} [Element K] [LawfulElement K] [Replicated V]
  {L A : V → Option V → Prop} {m w : DataMap K V}

omit [LawfulElement K] in
/-- A value that is staged as added finds nothing at the receiver and is shipped in full; another
one finds its old value and ships its changes. -/
theorem Lag.handOver (h : Lag L m w)
    (hvalues : ∀ ck v, m.entries.valueAt? ck = some v → ∀ initial o,
      (o = none → initial = true) → L v o → Replicated.Delivers L A initial v o)
    {ck : Key} {v : V} (hv : m.entries.valueAt? ck = some v) :
    (m.handOver ck v (m.left w ck)).failure = none ∧
      L (Replicated.harvest (m.added.contains ck) v).2
        (m.handOver ck v (m.left w ck)).state ∧
      A (Replicated.harvest (m.added.contains ck) v).2
        (m.handOver ck v (m.left w ck)).state := by
  have hlag := h.values ck
  rw [hv] at hlag
  have hadded := h.added ck (by simp [FinMap.contains_eq_isSome_valueAt?, hv])
  have hdelivers := hvalues ck v hv (m.added.contains ck) _
    (fun hnone => by simp [hadded, hnone]) hlag
  have heq : m.handOver ck v (m.left w ck) = Replicated.receive?
      (Replicated.harvest (m.added.contains ck) v).1 (m.left w ck) := by
    unfold DataMap.handOver
    cases hleft : m.left w ck with
    | none =>
        rw [hleft] at hadded
        simp [hadded]
    | some v' =>
        rw [hleft] at hadded
        simp [hadded, Replicated.touch?, Replicated.receive?_some_some]
  rw [heq]
  exact ⟨hdelivers.failure, hdelivers.lag, hdelivers.alike⟩

omit [LawfulElement K] in
/-- What holds of each value and of what becomes of its old one holds under each key. -/
theorem Lag.lifted_arrives (h : Lag L m w) {R : V → Option V → Prop}
    (hR : ∀ ck v, m.entries.valueAt? ck = some v →
      R (Replicated.harvest (m.added.contains ck) v).2 (m.handOver ck v (m.left w ck)).state)
    (ck : Key) : Lifted R (m.kept.valueAt? ck) (m.arrives w ck) := by
  rw [arrives, valueAt?_kept]
  cases hv : m.entries.valueAt? ck with
  | none =>
      have hck := h.values ck
      rwa [hv] at hck
  | some v => exact hR ck v hv

/-- What a map hands over makes up for the lag of the receiver. -/
theorem Lag.merge_delta (h : Lag L m w) {B : V → V → Prop}
    (hvalues : ∀ ck v, m.entries.valueAt? ck = some v → ∀ initial o,
      (o = none → initial = true) → L v o → Replicated.Delivers L (Matched B) initial v o)
    (initial : Bool) :
    (w.merge m.delta).failure = none ∧
      Lag L (Tracked.harvest initial m).2 (w.merge m.delta).state ∧
      Contents.Alike B (Tracked.harvest initial m).2.entries
        (w.merge m.delta).state.entries := by
  obtain ⟨hfailure, harrives⟩ := DataMap.merge_delta h.sound w fun ck v hv =>
    (h.handOver hvalues hv).1
  have halike : Contents.Alike B m.kept (w.merge m.delta).state.entries := by
    refine Contents.alike_of_lifted fun ck => ?_
    rw [harrives]
    exact h.lifted_arrives (fun ck v hv => (h.handOver hvalues hv).2.2) ck
  have hsound := h.sound.harvest (Q := fun _ => True) (fun _ _ _ => trivial) initial
  have hkept := snd_harvest initial m
  refine ⟨hfailure, ⟨hsound, fun ck => ?_, fun ck hck => ?_⟩, ?_⟩
  · have hlifted := h.lifted_arrives (fun ck v hv => (h.handOver hvalues hv).2.1) ck
    rw [← harrives] at hlifted
    rw [hkept]
    simpa [left, Contents.left] using hlifted
  · -- every key is there at the receiver now, and nothing is staged
    rw [hkept] at hck ⊢
    have hreceived := halike.contains_eq ck
    rw [hck, FinMap.contains_eq_isSome_valueAt?] at hreceived
    cases hw : (w.merge m.delta).state.entries.valueAt? ck with
    | none => simp [hw] at hreceived
    | some v => simp [left, Contents.left, hw]
  · rw [hkept]
    exact halike

theorem Lag.delivers {old : Option (DataMap K V)} (h : Lag L m (old.getD {})) {B : V → V → Prop}
    (hvalues : ∀ ck v, m.entries.valueAt? ck = some v → ∀ initial o,
      (o = none → initial = true) → L v o → Replicated.Delivers L (Matched B) initial v o)
    {initial : Bool} (hsome : old = none → initial = true) :
    Tracked.Delivers (fun m o => Lag L m (o.getD {}))
      (Matched fun m w => Contents.Alike B m.entries w.entries) initial m old := by
  obtain ⟨hfailure, hlag, halike⟩ := h.merge_delta hvalues initial
  have hdelta (hold : old = none) : (Tracked.harvest initial m).1 = some m.delta := by
    rw [hsome hold, m.harvest_true]
  obtain ⟨hok, hstate⟩ := Tracked.receive?_eq_of_merge old
    (receive_harvest initial m) rfl hdelta hfailure
  refine ⟨hok, ?_, ?_⟩
  · rw [hstate]
    exact hlag
  · rw [hstate]
    exact ⟨_, rfl, halike⟩

end DataMap

/-! ## Data of any kind -/

namespace Datum

variable {T : Type} [Element T] [LawfulElement T]

/-- Data at a receiver that are alike; maps of counters count the same. -/
def AlikeByValue : Datum T → Datum T → Prop := Alike CounterMap.AlikeByValue

omit [LawfulElement T] in
theorem Embeds.delivers {σ δ : Type} [Tracked σ δ] [DeltaForm δ] {mk : σ → Datum T}
    (h : Embeds mk) {L : σ → Option σ → Prop} {A : σ → σ → Prop} {initial : Bool} {s : σ}
    {old : Option σ} (hs : Tracked.Delivers L (Matched A) initial s old)
    (hL : ∀ s o, L s o → Lag (mk s) (o.map mk)) (hA : ∀ s s', A s s' → AlikeByValue (mk s) (mk s')) :
    Replicated.Delivers Lag (Matched AlikeByValue) initial (mk s) (old.map mk) := by
  have hreceive := h.receive? initial s old
  have hkept : (Replicated.harvest initial (mk s)).2 = mk (Tracked.harvest initial s).2 :=
    congrArg Prod.snd (h.harvest initial s)
  refine ⟨?_, ?_, ?_⟩
  · rw [hreceive]
    exact hs.failure
  · rw [hreceive, hkept]
    exact hL _ _ hs.lag
  · rw [hreceive, hkept]
    obtain ⟨s', hs', hA'⟩ := hs.alike
    exact ⟨mk s', congrArg (Option.map mk) hs', hA _ _ hA'⟩

theorem delivers_leaf {x : Datum T} (hleaf : x.kind ≠ .map) {initial : Bool}
    {old : Option (Datum T)} (hsome : old = none → initial = true) (h : Lag x old) :
    Replicated.Delivers Lag (Matched AlikeByValue) initial x old := by
  have hfull {σ δ : Type} [Tracked σ δ] [Tracked.Accepting σ] {mk : σ → Datum T} {o : Option σ}
      (s : σ) (ho : o.map mk = none → initial = true) :
      o = none → (Tracked.harvest initial s).1.isSome = true := by
    intro hnone
    obtain ⟨d, hd⟩ := Tracked.Accepting.initial (δ := δ) s
    rw [ho (by rw [hnone]; rfl), hd]
    rfl
  cases h with
  | counter old h =>
      exact embeds_counter.delivers (h.delivers fun ho => hsome (by rw [ho]; rfl))
        (fun _ o => .counter o) fun _ _ => .counter
  | register old h =>
      exact embeds_register.delivers (h.delivers initial) (fun _ o => .register o)
        fun _ _ => .register
  | set old h =>
      exact embeds_set.delivers (h.delivers (hfull _ hsome)) (fun _ o => .set o) fun _ _ => .set
  | vote old h =>
      exact embeds_vote.delivers (h.delivers fun ho => hsome (by rw [ho]; rfl))
        (fun _ o => .vote o) fun _ _ => .vote
  | map old hsound hmissing hvalues hadded => exact absurd rfl hleaf
  | counterMap old h =>
      exact embeds_counterMap.delivers
        (UniformMap.Lag.delivers (fun _ _ hc => hc.delivers_value false) h (hfull _ hsome))
        (fun _ o => .counterMap o)
        fun _ _ hm => .counterMap (CounterMap.alikeByValue_of_follows hm)
  | registerMap old h =>
      exact embeds_registerMap.delivers
        (UniformMap.Lag.delivers (fun _ _ hr => hr.delivers false) h (hfull _ hsome))
        (fun _ o => .registerMap o)
        fun _ _ hm => .registerMap (Contents.alike_of_lifted hm)
  | multiMap old h =>
      exact embeds_multiMap.delivers
        (UniformMap.Lag.delivers (fun _ _ hs => hs.delivers) h (hfull _ hsome))
        (fun _ o => .multiMap o)
        fun _ _ hm => .multiMap (Contents.alike_of_lifted hm)

/-- What data hand over makes up for the lag of a receiver; one that has no data gets them in full
from an initial harvest. -/
theorem Lag.delivers {x : Datum T} {initial : Bool} {old : Option (Datum T)} (h : Lag x old)
    (hsome : old = none → initial = true) :
    Replicated.Delivers Lag (Matched AlikeByValue) initial x old := by
  induction x using Datum.induction generalizing initial old with
  | leaf x hleaf => exact delivers_leaf hleaf hsome h
  | map m ih =>
      obtain ⟨o, rfl, hm⟩ := h.exists_map
      have hvalues (ck : Key) (v : Datum T) (hv : m.entries.valueAt? ck = some v)
          (initial : Bool) (o : Option (Datum T)) (ho : o = none → initial = true)
          (hlag : Lag v o) : Replicated.Delivers Lag (Matched AlikeByValue) initial v o := by
        obtain ⟨k, hf⟩ := FinMap.valueAt?_eq_some_iff.mp hv
        exact ih _ (FinMap.mem_entries_of_find?_eq_some hf) hlag ho
      exact embeds_map.delivers (hm.delivers hvalues fun ho => hsome (by rw [ho]; rfl))
        (fun _ o => .of_map o) fun _ _ => alike_map_iff.mpr

end Datum

/-! ## The run -/

namespace DataMap

variable {K T : Type} [Element K] [LawfulElement K] [Element T] [LawfulElement T]

/-- A writer and its replica, after some operations of the writer and some harvests of it that the
replica has merged. -/
inductive Paired : DataMap K (Datum T) → DataMap K (Datum T) → Prop
  | start (supply supply' : Option (K → Option (Noted (Datum T)))) :
      Paired { supply } { supply := supply' }
  | change {writer writer' replica : DataMap K (Datum T)} (h : Paired writer replica)
      (hstep : Step (Datum.Made .alone) (Datum.Step .alone) (Free .alone) writer writer') :
      Paired writer' replica
  | harvest {writer replica : DataMap K (Datum T)} (h : Paired writer replica) (initial : Bool) :
      Paired (Tracked.harvest initial writer).2
        (Tracked.receive (Tracked.harvest initial writer).1 replica).state

theorem Paired.lag {writer replica : DataMap K (Datum T)} (h : Paired writer replica) :
    Lag Datum.Lag writer replica := by
  induction h with
  | start supply supply' => exact .empty supply supply'
  | change h hstep ih => exact ih.step (Datum.kept_lag.mapStep hstep)
  | @harvest writer replica h initial ih =>
      rw [receive_harvest]
      exact (ih.merge_delta (fun _ _ _ _ _ ho hlag => hlag.delivers ho) initial).2.1

/-- In every run of a single writer the replica merges each delta without failure, and afterwards
it has the keys of the writer with alike values. -/
theorem replica_follows_single_writer {writer replica : DataMap K (Datum T)}
    (h : Paired writer replica) (initial : Bool) :
    (Tracked.receive (Tracked.harvest initial writer).1 replica).failure = none ∧
      DataMap.Alike CounterMap.AlikeByValue (Tracked.harvest initial writer).2
        (Tracked.receive (Tracked.harvest initial writer).1 replica).state := by
  rw [receive_harvest]
  obtain ⟨hfailure, -, halike⟩ :=
    h.lag.merge_delta (fun _ _ _ _ _ ho hlag => hlag.delivers ho) initial
  exact ⟨hfailure, halike⟩

/-- A counter enters a map, is handed over, and counts on inside the map. -/
theorem replica_follows_counter_in_place :
    let k : Payload := ⟨"", [1]⟩
    let start : DataMap Payload (Datum Payload) := {}
    let added := (start.set k (.counter {})).result
    let replica := (Tracked.receive (Tracked.harvest false added).1 start).state
    let writer := (Tracked.harvest false added).2.adjust k
      fun _ => .counter (Counter.Op.perform (.increment 5) {})
    let after := Tracked.receive (Tracked.harvest true writer).1 replica
    Paired writer replica ∧ after.failure = none ∧
      DataMap.Alike CounterMap.AlikeByValue (Tracked.harvest true writer).2 after.state := by
  intro k start added replica writer after
  have hadded : Paired added start := by
    refine .change (.start none none) (.set k (.start .counter) fun _ _ => ?_)
    rfl
  have hpaired : Paired writer replica := by
    refine .change (hadded.harvest false) (.adjust k ?_ (.operate (.counter (.increment 5) {})))
    rfl
  exact ⟨hpaired, replica_follows_single_writer hpaired true⟩

end DataMap

end DeltaReplica
