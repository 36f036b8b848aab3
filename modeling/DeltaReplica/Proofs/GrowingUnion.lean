import DeltaReplica.Proofs.Acceptance
import DeltaReplica.Proofs.Forms
import DeltaReplica.Proofs.Network

/-!
# Growing sets in a network

Deltas of growing sets may overtake each other and come again, since all they do is to put their
elements into the set.  An element that somebody has added is staged where it was added, or it has
been sent, and what has been sent is on its way to a replica or has reached it.  So when nothing is
staged and nothing is on its way, everybody has every element.
-/

namespace DeltaReplica

namespace GrowSet

variable {E : Type} [Element E]

/-! ## What one delta does -/

/-- A set does not shrink under a delta, of whatever kind, also if the delta fails part-way. -/
theorem has_apply {s : GrowSet E} {e : E} (h : s.has e = true) (d : Delta) :
    (Replicated.apply d s).state.has e = true := by
  rcases Tracked.apply_cases d s with ⟨-, hsame⟩ | ⟨d, -, hmerge⟩
  · rwa [hsame]
  · rw [hmerge]
    exact contains_merge h d

theorem names_of_contains_merge {s : GrowSet E} {d : GrowSetDelta} {ck : Key}
    (h : (s.merge d).state.elements.contains ck = true) :
    s.elements.contains ck = true ∨ Names E d.added ck := by
  revert h
  refine Outcome.each_keeps (σ := FinMap Key E)
    (P := fun m => m.contains ck = true → s.elements.contains ck = true ∨ Names E d.added ck)
    (fun p hp m hm h => ?_) Or.inl
  unfold mergeElement at h
  cases he : p.read (Element.decode (α := E)) with
  | error error =>
      rw [he] at h
      exact hm h
  | ok e =>
      rw [he] at h
      change (m.insert _ _).contains ck = true at h
      rw [FinMap.contains_insert, Bool.or_eq_true, decide_eq_true_eq] at h
      rcases h with rfl | h
      · exact Or.inr ⟨p, hp, e, he, rfl⟩
      · exact hm h

theorem contains_merge_of_names {s : GrowSet E} {d : GrowSetDelta} {ck : Key}
    (hok : (s.merge d).failure = none) (h : Names E d.added ck) :
    (s.merge d).state.elements.contains ck = true := by
  obtain ⟨p, hp, e, he, rfl⟩ := h
  obtain ⟨before, after, hsplit⟩ := List.append_of_mem hp
  simp only [merge, Outcome.failure_map, Outcome.state_map, hsplit] at hok ⊢
  rw [Outcome.each_append, Outcome.failure_andThen_eq_none_iff] at hok
  rw [Outcome.each_append, Outcome.state_andThen hok.1]
  rw [Outcome.each_cons, Outcome.failure_andThen_eq_none_iff] at hok
  rw [Outcome.each_cons, Outcome.state_andThen hok.2.1]
  -- what comes after the element in the delta keeps it
  refine contains_merge (s := { elements := _ }) ?_ ⟨after⟩
  simp [mergeElement, he, Outcome.done, FinMap.contains_insert]

/-- What a harvest names is what was staged. -/
theorem names_harvest [LawfulElement E] {s : GrowSet E} (hs : s.Sound) {initial : Bool}
    {d : GrowSetDelta} (hd : (Tracked.harvest initial s).1 = some d) (ck : Key) :
    Names E d.added ck ↔ s.added.contains ck = true ∧ s.elements.contains ck = true := by
  rw [added_of_harvest hd, names_stagedPayloads_iff hs.elements]

theorem staged_of_harvest_none {s : GrowSet E} {initial : Bool}
    (h : (Tracked.harvest (δ := GrowSetDelta) initial s).1 = none) : s.added = ∅ := by
  rcases harvest_cases initial s with ⟨-, hharvest⟩ | ⟨hadded, -, -⟩
  · rw [hharvest] at h
    cases h
  · exact hadded

theorem contains_add_iff {e : E} {s : GrowSet E} {ck : Key} :
    (s.add e).elements.contains ck = true ↔ ck = Element.key e ∨ s.elements.contains ck = true := by
  rcases add_cases e s with ⟨hhas, hadd⟩ | hadd
  · rw [hadd]
    refine ⟨Or.inr, ?_⟩
    rintro (rfl | h)
    · exact hhas
    · exact h
  · rw [hadd, FinMap.contains_insert, Bool.or_eq_true, decide_eq_true_eq]

end GrowSet

/-! ## What a network does -/

namespace Network

variable {ι E : Type} [DecidableEq ι] [Element E]

/-- Every replica may add anything, and deliveries may be repeated. -/
def growing (ι E : Type) [Element E] : Protocol ι (GrowSet E) E where
  perform e s := s.add e
  permits _ _ _ := True
  delivery := .repeated

omit [DecidableEq ι] in
theorem growing_keeps_sound : Kept (δ := GrowSetDelta) (growing ι E) fun _ s => s.Sound where
  change _ e _ _ hs := hs.add e
  harvest _ initial s hs := GrowSet.keeps_sound.harvest initial s hs
  merge _ d s hs := GrowSet.keeps_sound.merge d s hs

/-- Some replica added an element with the key. -/
def Added (N : Network ι (GrowSet E) E GrowSetDelta) (ck : Key) : Prop :=
  ∃ x ∈ N.made, Element.key x.2 = ck

/-- A replica has an element with the key. -/
def Holds (N : Network ι (GrowSet E) E GrowSetDelta) (i : ι) (ck : Key) : Prop :=
  (N.replica i).elements.contains ck = true

/-- Where the elements come from, and where they are while not everybody has them. -/
structure Spread (N : Network ι (GrowSet E) E GrowSetDelta) : Prop where
  added_of_holds : ∀ i ck, N.Holds i ck → N.Added ck
  added_of_sent : ∀ p ∈ N.sent, ∀ ck, Names E p.delta.added ck → N.Added ck
  holds_own : ∀ x ∈ N.made, N.Holds x.1 (Element.key x.2)
  staged_or_sent : ∀ i ck, N.Holds i ck →
    (N.replica i).added.contains ck = true ∨ ∃ p ∈ N.sent, Names E p.delta.added ck
  awaited_or_held : ∀ p ∈ N.sent, ∀ j,
    p ∈ N.awaited j ∨ ∀ ck, Names E p.delta.added ck → N.Holds j ck

variable {N N' : Network ι (GrowSet E) E GrowSetDelta} {i j : ι} {ck : Key}

/-- No step takes an element away from a replica. -/
theorem Step.holds (h : Step (growing ι E) N N') : N.Holds i ck → N'.Holds i ck := by
  refine h.relates
    (R := fun _ s s' => s.elements.contains ck = true → s'.elements.contains ck = true)
    (fun _ _ hs => hs) ?_ ?_ ?_ i
  · intro _ e s _ hs
    exact GrowSet.contains_add_iff.mpr (Or.inr hs)
  · intro _ initial s hs
    rwa [GrowSet.elements_harvest]
  · intro _ d s hs
    exact GrowSet.contains_merge hs d

/-! ### One step -/

theorem holds_change_iff {e : E} :
    (N.change GrowSet.add i e).Holds j ck ↔ j = i ∧ ck = Element.key e ∨ N.Holds j ck := by
  by_cases hj : j = i
  · subst hj
    simp [Holds, GrowSet.contains_add_iff]
  · simp [Holds, replica_change_of_ne hj, hj]

theorem holds_harvest_iff {initial : Bool} : (N.harvest i initial).Holds j ck ↔ N.Holds j ck := by
  by_cases hj : j = i
  · subst hj
    simp [Holds, GrowSet.elements_harvest]
  · simp [Holds, replica_harvest_of_ne hj]

theorem names_of_holds_receive {d : GrowSetDelta} (h : (N.receive j d).Holds i ck) :
    N.Holds i ck ∨ Names E d.added ck := by
  by_cases hi : i = j
  · subst hi
    rw [Holds, replica_receive_self] at h
    exact GrowSet.names_of_contains_merge h
  · rw [Holds, replica_receive_of_ne hi] at h
    exact Or.inl h

theorem added_receive {d : GrowSetDelta} :
    ((N.receive j d).replica i).added = (N.replica i).added := by
  by_cases hi : i = j
  · subst hi
    rw [replica_receive_self]
    rfl
  · rw [replica_receive_of_ne hi]

theorem Spread.change (h : N.Spread) (i : ι) (e : E) : (N.change GrowSet.add i e).Spread := by
  have hmono {j ck} (hj : N.Holds j ck) : (N.change GrowSet.add i e).Holds j ck :=
    holds_change_iff.mpr (Or.inr hj)
  have hadded {ck} (hck : N.Added ck) : (N.change GrowSet.add i e).Added ck := by
    obtain ⟨x, hx, hkey⟩ := hck
    exact ⟨x, List.mem_append_left _ hx, hkey⟩
  constructor
  case added_of_holds =>
    intro j ck hj
    rcases holds_change_iff.mp hj with ⟨-, rfl⟩ | hj
    · exact ⟨(i, e), List.mem_append_right _ List.mem_cons_self, rfl⟩
    · exact hadded (h.added_of_holds j ck hj)
  case added_of_sent =>
    intro p hp ck hck
    exact hadded (h.added_of_sent p hp ck hck)
  case holds_own =>
    intro x hx
    rcases List.mem_append.mp hx with hx | hx
    · exact hmono (h.holds_own x hx)
    · rw [List.mem_singleton.mp hx]
      exact holds_change_iff.mpr (Or.inl ⟨rfl, rfl⟩)
  case staged_or_sent =>
    intro j ck hj
    by_cases hji : j = i
    · subst hji
      rw [replica_change_self]
      -- an element that was there is no change, and a new one is staged
      rcases GrowSet.add_cases e (N.replica j) with ⟨hhas, hadd⟩ | hadd
      · rw [hadd]
        refine h.staged_or_sent j ck ?_
        rcases holds_change_iff.mp hj with ⟨-, rfl⟩ | hj
        · exact hhas
        · exact hj
      · rw [hadd, FinMap.contains_insert, Bool.or_eq_true, decide_eq_true_eq]
        rcases holds_change_iff.mp hj with ⟨-, rfl⟩ | hj
        · exact Or.inl (Or.inl rfl)
        · exact (h.staged_or_sent j ck hj).imp Or.inr id
    · rw [replica_change_of_ne hji]
      refine h.staged_or_sent j ck ?_
      exact (holds_change_iff.mp hj).resolve_left fun hne => hji hne.1
  case awaited_or_held =>
    intro p hp j
    exact (h.awaited_or_held p hp j).imp id fun hheld ck hck => hmono (hheld ck hck)

theorem Spread.harvest [LawfulElement E] (h : N.Spread) (hi : (N.replica i).Sound)
    (initial : Bool) : (N.harvest i initial).Spread := by
  have hnames {p : Parcel ι GrowSetDelta} (hp : p ∈ parcels i initial (N.replica i)) (ck : Key) :
      Names E p.delta.added ck ↔ (N.replica i).added.contains ck = true ∧ N.Holds i ck :=
    GrowSet.names_harvest hi (mem_parcels_iff.mp hp).2 ck
  constructor
  case added_of_holds =>
    intro j ck hj
    exact h.added_of_holds j ck (holds_harvest_iff.mp hj)
  case added_of_sent =>
    intro p hp ck hck
    rcases List.mem_append.mp hp with hp | hp
    · exact h.added_of_sent p hp ck hck
    · exact h.added_of_holds i ck ((hnames hp ck).mp hck).2
  case holds_own =>
    intro x hx
    exact holds_harvest_iff.mpr (h.holds_own x hx)
  case staged_or_sent =>
    intro j ck hj
    rw [holds_harvest_iff] at hj
    rw [sent_harvest]
    rcases h.staged_or_sent j ck hj with hstaged | ⟨p, hp, hck⟩
    · by_cases hji : j = i
      · subst hji
        -- what was staged is named by what is sent now
        cases hd : (Tracked.harvest (δ := GrowSetDelta) initial (N.replica j)).1 with
        | none =>
            rw [GrowSet.staged_of_harvest_none hd] at hstaged
            cases hstaged
        | some d =>
            have hp : ⟨j, d⟩ ∈ parcels j initial (N.replica j) := mem_parcels_iff.mpr ⟨rfl, hd⟩
            exact Or.inr ⟨_, List.mem_append_right _ hp, (hnames hp ck).mpr ⟨hstaged, hj⟩⟩
      · rw [replica_harvest_of_ne hji]
        exact Or.inl hstaged
    · exact Or.inr ⟨p, List.mem_append_left _ hp, hck⟩
  case awaited_or_held =>
    intro p hp j
    rcases List.mem_append.mp hp with hp | hp
    · refine (h.awaited_or_held p hp j).imp (fun hawaited => ?_) fun hheld ck hck => ?_
      · by_cases hji : j = i
        · subst hji
          rwa [awaited_harvest_self]
        · rw [awaited_harvest_of_ne hji]
          exact List.mem_append_left _ hawaited
      · exact holds_harvest_iff.mpr (hheld ck hck)
    · by_cases hji : j = i
      · subst hji
        exact Or.inr fun ck hck => holds_harvest_iff.mpr ((hnames hp ck).mp hck).2
      · rw [awaited_harvest_of_ne hji]
        exact Or.inl (List.mem_append_right _ hp)

/-- A replica receives what was sent, and may go on waiting for it or not. -/
theorem Spread.receive [LawfulElement E] (h : N.Spread) {p : Parcel ι GrowSetDelta}
    (hp : p ∈ N.sent) (hfrom : HandedOver (fun _ (s : GrowSet E) => s.Sound) p)
    (hstep : Step (growing ι E) N N') (hreplica : N'.replica = (N.receive j p.delta).replica)
    (hmade : N'.made = N.made) (hsent : N'.sent = N.sent)
    (hawaited : ∀ q i, q ∈ N.awaited i → q ∈ N'.awaited i ∨ q = p ∧ i = j) : N'.Spread := by
  have hnew {i ck} (hck : N'.Holds i ck) : N.Holds i ck ∨ Names E p.delta.added ck := by
    rw [Holds, hreplica] at hck
    exact names_of_holds_receive hck
  constructor
  case added_of_holds =>
    intro i ck hck
    rw [Added, hmade]
    rcases hnew hck with hck | hck
    · exact h.added_of_holds i ck hck
    · exact h.added_of_sent p hp ck hck
  case added_of_sent =>
    intro q hq ck hck
    rw [Added, hmade]
    exact h.added_of_sent q (hsent ▸ hq) ck hck
  case holds_own =>
    intro x hx
    exact hstep.holds (h.holds_own x (hmade ▸ hx))
  case staged_or_sent =>
    intro i ck hck
    rw [hreplica, added_receive, hsent]
    rcases hnew hck with hck | hck
    · exact h.staged_or_sent i ck hck
    · exact Or.inr ⟨p, hp, hck⟩
  case awaited_or_held =>
    intro q hq i
    rcases h.awaited_or_held q (hsent ▸ hq) i with hi | hheld
    · refine (hawaited q i hi).imp id ?_
      rintro ⟨rfl, rfl⟩ ck hck
      obtain ⟨s, initial, -, hd⟩ := hfrom
      rw [Holds, hreplica, replica_receive_self]
      exact GrowSet.contains_merge_of_names
        (Tracked.Accepting.merge initial s _ hd (N.replica i)) hck
    · exact Or.inr fun ck hck => hstep.holds (hheld ck hck)

theorem Spread.step [LawfulElement E] (h : N.Spread) (hN : N.Regular fun _ s => s.Sound)
    (hstep : Step (growing ι E) N N') : N'.Spread := by
  have hstep' := hstep
  cases hstep with
  | change i e _ => exact h.change i e
  | harvest i initial => exact h.harvest (hN.replica i) initial
  | @arrive j p before after hawaited _ =>
      have hp : p ∈ N.sent := (hN.awaited j p (by simp [hawaited])).1
      refine h.receive hp (hN.sent p hp) hstep' rfl rfl rfl fun q i hq => ?_
      by_cases hi : i = j
      · subst hi
        rw [awaited_arrive_self]
        rw [hawaited, List.mem_append, List.mem_cons] at hq
        rcases hq with hq | rfl | hq
        · exact Or.inl (List.mem_append_left _ hq)
        · exact Or.inr ⟨rfl, rfl⟩
        · exact Or.inl (List.mem_append_right _ hq)
      · rw [awaited_arrive_of_ne hi]
        exact Or.inl hq
  | @again j p _ hp =>
      exact h.receive hp (hN.sent p hp) hstep' rfl rfl rfl fun q i hq => Or.inl hq

/-! ### Runs -/

theorem Reached.spread [LawfulElement E] (h : Reached (growing ι E) (fun _ => {}) N) :
    N.Spread := by
  refine h.invariant growing_keeps_sound (fun _ => ⟨.empty, FinMap.ordered_empty⟩) ?_ ?_
  · constructor
    · intro i ck hck
      cases hck
    · intro p hp
      cases hp
    · intro x hx
      cases hx
    · intro i ck hck
      cases hck
    · intro p hp
      cases hp
  · intro N N' hN hstep h
    exact h.step hN hstep

omit [DecidableEq ι] in
/-- When nothing is staged and nothing is on its way, a replica has what anybody added. -/
theorem Spread.holds_iff_added (h : N.Spread) (hquiet : N.Quiet) :
    N.Holds i ck ↔ N.Added ck := by
  constructor
  · exact h.added_of_holds i ck
  · rintro ⟨x, hx, rfl⟩
    rcases h.staged_or_sent x.1 _ (h.holds_own x hx) with hstaged | ⟨p, hp, hck⟩
    · rw [GrowSet.staged_of_harvest_none (hquiet.idle x.1)] at hstaged
      cases hstaged
    · refine (h.awaited_or_held p hp i).resolve_left ?_ _ hck
      rw [hquiet.arrived i]
      exact List.not_mem_nil

/-- Growing sets that start empty never lose an element, whatever step is taken and whatever delta is
merged, and once nothing is pending and everything has arrived they all are the union of what was
added. -/
theorem growing_sets_reach_union [LawfulElement E] (h : Reached (growing ι E) (fun _ => {}) N) :
    (∀ N', Step (growing ι E) N N' → ∀ i e,
        (N.replica i).has e = true → (N'.replica i).has e = true) ∧
      (∀ (s : GrowSet E) (d : Delta) (e : E),
        s.has e = true → (Replicated.apply d s).state.has e = true) ∧
      (N.Quiet → ∀ i e, (N.replica i).has e = true ↔
        ∃ x ∈ N.made, Element.key x.2 = Element.key e) := by
  refine ⟨fun N' hstep i e he => ?_, fun s d e he => ?_, fun hquiet i e => ?_⟩
  · exact hstep.holds he
  · exact GrowSet.has_apply he d
  · exact h.spread.holds_iff_added hquiet

/-- Two replicas add an element independently of each other, and one delta comes twice. -/
theorem growing_sets_reach_union_of_two :
    let x : Payload := ⟨"", [1]⟩
    let y : Payload := ⟨"", [2]⟩
    let start : Network Bool (GrowSet Payload) Payload GrowSetDelta := { replica := fun _ => {} }
    let first := (start.change GrowSet.add false x).harvest false false
    let both := ((first.change GrowSet.add true x).change GrowSet.add true y).harvest true true
    let arrived := (both.arrive true ⟨[x]⟩ []).arrive false ⟨[x, y]⟩ []
    let after := arrived.receive true ⟨[x]⟩
    Reached (growing Bool Payload) (fun _ => {}) after ∧ after.Quiet ∧
      ∀ i e, (after.replica i).has e = true ↔
        ∃ z ∈ [(false, x), (true, x), (true, y)], Element.key z.2 = Element.key e := by
  intro x y start first both arrived after
  have hfirst : both.awaited true = [⟨false, ⟨[x]⟩⟩] := by decide
  have hsecond : (both.arrive true ⟨[x]⟩ []).awaited false = [⟨true, ⟨[x, y]⟩⟩] := by decide
  have hsent : ⟨false, ⟨[x]⟩⟩ ∈ arrived.sent := by decide
  have hboth : Reached (growing Bool Payload) (fun _ => {}) both :=
    Relation.ReflTransGen.refl.tail (.change false x trivial) |>.tail (.harvest _ false false)
      |>.tail (.change true x trivial) |>.tail (.change true y trivial)
      |>.tail (.harvest _ true true)
  have harrive := Step.arrive_next (P := growing Bool Payload) hfirst
  have harrive' := Step.arrive_next (P := growing Bool Payload) hsecond
  have hagain := Step.again (P := growing Bool Payload) true rfl hsent
  have hreached : Reached (growing Bool Payload) (fun _ => {}) after :=
    ((hboth.tail harrive).tail harrive').tail hagain
  have hquiet : after.Quiet :=
    ⟨Bool.forall_bool.mpr ⟨by decide, by decide⟩, Bool.forall_bool.mpr ⟨rfl, rfl⟩⟩
  exact ⟨hreached, hquiet, (growing_sets_reach_union hreached).2.2 hquiet⟩

end Network

end DeltaReplica
