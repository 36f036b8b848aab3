import DeltaReplica.Proofs.Handover
import Mathlib.Logic.Function.Basic
import Mathlib.Logic.Relation

/-!
# Networks of replicas

Any number of replicas are changed by their applications.  Now and then one of them is harvested,
and what it hands over is on its way to all others, each of which merges it when it arrives.  Steps
of different replicas interleave freely.

A network promises more or less about its deliveries.  In the least demanding one deltas overtake
each other and come again after they have arrived.  What the applications did, and what was ever
handed over, is kept as the history of the network, which no replica looks at.
-/

namespace DeltaReplica

/-- A delta with the replica that handed it over. -/
structure Parcel (ι δ : Type) where
  /-- The replica that was harvested. -/
  sender : ι
  /-- What it handed over. -/
  delta : δ
deriving DecidableEq

/-- Replicas, what is on its way to them, and their history. -/
structure Network (ι σ ω δ : Type) where
  /-- The replicas. -/
  replica : ι → σ
  /-- What the applications did, in order. -/
  made : List (ι × ω) := []
  /-- All that was handed over, in order. -/
  sent : List (Parcel ι δ) := []
  /-- What has still to reach a replica, in the order in which it was handed over. -/
  awaited : ι → List (Parcel ι δ) := fun _ => []

/-- What a network promises about deliveries. -/
inductive Delivery
  /-- Each delta arrives once. -/
  | once
  /-- Each delta arrives once, after all earlier ones of its sender. -/
  | inOrder
  /-- Each delta arrives, and may arrive again at any time. -/
  | repeated
deriving DecidableEq

/-- The rules by which the replicas of a network are changed. -/
structure Protocol (ι σ ω : Type) where
  /-- The state after an operation. -/
  perform : ω → σ → σ
  /-- Whether a replica may perform an operation in a state. -/
  permits : ι → ω → σ → Prop
  /-- What is promised about deliveries. -/
  delivery : Delivery

namespace Network

variable {ι σ ω δ : Type} [DecidableEq ι] [Tracked σ δ]

/-- The network after an operation at a replica. -/
def change (perform : ω → σ → σ) (i : ι) (op : ω) (N : Network ι σ ω δ) : Network ι σ ω δ :=
  { N with
    replica := Function.update N.replica i (perform op (N.replica i))
    made := N.made ++ [(i, op)] }

/-- What a replica hands over, if anything. -/
def parcels (i : ι) (initial : Bool) (s : σ) : List (Parcel ι δ) :=
  (Tracked.harvest initial s).1.toList.map (Parcel.mk i)

/-- The network after the harvest of a replica: all others await what it hands over. -/
def harvest (i : ι) (initial : Bool) (N : Network ι σ ω δ) : Network ι σ ω δ :=
  { N with
    replica := Function.update N.replica i (Tracked.harvest initial (N.replica i)).2
    sent := N.sent ++ parcels i initial (N.replica i)
    awaited := fun j =>
      if j = i then N.awaited j else N.awaited j ++ parcels i initial (N.replica i) }

/-- The network after a replica has merged a delta. -/
def receive (j : ι) (d : δ) (N : Network ι σ ω δ) : Network ι σ ω δ :=
  { N with replica := Function.update N.replica j (Tracked.merge d (N.replica j)).state }

/-- The network after the arrival of a delta at a replica, which goes on waiting for the rest. -/
def arrive (j : ι) (d : δ) (rest : List (Parcel ι δ)) (N : Network ι σ ω δ) : Network ι σ ω δ :=
  { N.receive j d with awaited := Function.update N.awaited j rest }

/-- A step of a network. -/
inductive Step (P : Protocol ι σ ω) : Network ι σ ω δ → Network ι σ ω δ → Prop
  | change {N : Network ι σ ω δ} (i : ι) (op : ω) (h : P.permits i op (N.replica i)) :
      Step P N (N.change P.perform i op)
  | harvest (N : Network ι σ ω δ) (i : ι) (initial : Bool) : Step P N (N.harvest i initial)
  | arrive {N : Network ι σ ω δ} {j : ι} {p : Parcel ι δ} {before after : List (Parcel ι δ)}
      (hawaited : N.awaited j = before ++ p :: after)
      (horder : P.delivery = .inOrder → ∀ q ∈ before, q.sender ≠ p.sender) :
      Step P N (N.arrive j p.delta (before ++ after))
  | again {N : Network ι σ ω δ} (j : ι) {p : Parcel ι δ} (hdelivery : P.delivery = .repeated)
      (hsent : p ∈ N.sent) : Step P N (N.receive j p.delta)

/-- What a network with nothing sent becomes by any number of steps. -/
def Reached (P : Protocol ι σ ω) (start : ι → σ) (N : Network ι σ ω δ) : Prop :=
  Relation.ReflTransGen (Step P) { replica := start } N

/-- Nothing is pending at a replica, and all that was handed over has reached all others. -/
structure Quiet (N : Network ι σ ω δ) : Prop where
  idle : ∀ i, (Tracked.harvest false (N.replica i)).1 = none
  arrived : ∀ j, N.awaited j = []

section Parts

variable {N : Network ι σ ω δ} {perform : ω → σ → σ} {i j : ι} {op : ω} {initial : Bool} {d : δ}
  {rest : List (Parcel ι δ)}

omit [Tracked σ δ] in
@[simp]
theorem replica_change_self : (N.change perform i op).replica i = perform op (N.replica i) :=
  Function.update_self ..

omit [Tracked σ δ] in
theorem replica_change_of_ne (h : j ≠ i) : (N.change perform i op).replica j = N.replica j :=
  Function.update_of_ne h ..

omit [Tracked σ δ] in
@[simp]
theorem made_change : (N.change perform i op).made = N.made ++ [(i, op)] := rfl

@[simp]
theorem replica_harvest_self :
    (N.harvest i initial).replica i = (Tracked.harvest initial (N.replica i)).2 :=
  Function.update_self ..

theorem replica_harvest_of_ne (h : j ≠ i) : (N.harvest i initial).replica j = N.replica j :=
  Function.update_of_ne h ..

@[simp]
theorem sent_harvest : (N.harvest i initial).sent = N.sent ++ parcels i initial (N.replica i) := rfl

@[simp]
theorem awaited_harvest_self : (N.harvest i initial).awaited i = N.awaited i := if_pos rfl

theorem awaited_harvest_of_ne (h : j ≠ i) :
    (N.harvest i initial).awaited j = N.awaited j ++ parcels i initial (N.replica i) :=
  if_neg h

@[simp]
theorem replica_receive_self :
    (N.receive j d).replica j = (Tracked.merge d (N.replica j)).state :=
  Function.update_self ..

theorem replica_receive_of_ne (h : i ≠ j) : (N.receive j d).replica i = N.replica i :=
  Function.update_of_ne h ..

@[simp]
theorem replica_arrive : (N.arrive j d rest).replica = (N.receive j d).replica := rfl

@[simp]
theorem awaited_arrive_self : (N.arrive j d rest).awaited j = rest :=
  Function.update_self ..

theorem awaited_arrive_of_ne (h : i ≠ j) : (N.arrive j d rest).awaited i = N.awaited i :=
  Function.update_of_ne h ..

end Parts

/-! ## What every run keeps -/

/-- A property of the single replicas that operations, harvests and deltas keep. -/
structure Kept (P : Protocol ι σ ω) (Q : ι → σ → Prop) : Prop where
  change : ∀ i op s, P.permits i op s → Q i s → Q i (P.perform op s)
  harvest : ∀ i initial s, Q i s → Q i (Tracked.harvest initial s).2
  merge : ∀ i (d : δ) s, Q i s → Q i (Tracked.merge d s).state

/-- The delta was handed over by a state with a property of its sender. -/
def HandedOver (Q : ι → σ → Prop) (p : Parcel ι δ) : Prop :=
  ∃ s initial, Q p.sender s ∧ (Tracked.harvest initial s).1 = some p.delta

/-- The replicas have a property, and so had the senders of all deltas.  What a replica awaits was
sent by others. -/
structure Regular (Q : ι → σ → Prop) (N : Network ι σ ω δ) : Prop where
  replica : ∀ i, Q i (N.replica i)
  sent : ∀ p ∈ N.sent, HandedOver Q p
  awaited : ∀ j, ∀ p ∈ N.awaited j, p ∈ N.sent ∧ p.sender ≠ j

variable {P : Protocol ι σ ω} {Q : ι → σ → Prop} {N N' : Network ι σ ω δ} {start : ι → σ}

omit [DecidableEq ι] in
theorem mem_parcels_iff {i : ι} {initial : Bool} {s : σ} {p : Parcel ι δ} :
    p ∈ parcels i initial s ↔ p.sender = i ∧ (Tracked.harvest initial s).1 = some p.delta := by
  obtain ⟨sender, d⟩ := p
  simp only [parcels, List.mem_map, Option.mem_toList, Parcel.mk.injEq]
  constructor
  · rintro ⟨d', hd, rfl, rfl⟩
    exact ⟨rfl, hd⟩
  · rintro ⟨rfl, hd⟩
    exact ⟨d, hd, rfl, rfl⟩

theorem mem_awaited_harvest {i j : ι} {initial : Bool} {p : Parcel ι δ}
    (hp : p ∈ (N.harvest i initial).awaited j) :
    p ∈ N.awaited j ∨ j ≠ i ∧ p ∈ parcels i initial (N.replica i) := by
  by_cases hj : j = i
  · subst hj
    rw [awaited_harvest_self] at hp
    exact Or.inl hp
  · rw [awaited_harvest_of_ne hj, List.mem_append] at hp
    exact hp.imp id fun hp => ⟨hj, hp⟩

theorem mem_awaited_arrive {i j : ι} {p q : Parcel ι δ} {before after : List (Parcel ι δ)}
    (hawaited : N.awaited j = before ++ p :: after)
    (hq : q ∈ (N.arrive j p.delta (before ++ after)).awaited i) : q ∈ N.awaited i := by
  by_cases hi : i = j
  · subst hi
    rw [awaited_arrive_self] at hq
    rw [hawaited]
    exact List.mem_append.mpr ((List.mem_append.mp hq).imp id (List.mem_cons_of_mem p))
  · rwa [awaited_arrive_of_ne hi] at hq

theorem relates_update {R : ι → σ → σ → Prop} (hrefl : ∀ i s, R i s s) {f : ι → σ} {i : ι} {s : σ}
    (hs : R i (f i) s) (j : ι) : R j (f j) (Function.update f i s j) := by
  by_cases hj : j = i
  · subst hj
    rwa [Function.update_self]
  · rw [Function.update_of_ne hj]
    exact hrefl j _

/-- What is awaited first can arrive, whatever is promised. -/
theorem Step.arrive_next {j : ι} {p : Parcel ι δ} {rest : List (Parcel ι δ)}
    (h : N.awaited j = p :: rest) : Step P N (N.arrive j p.delta rest) := by
  have hawaited : N.awaited j = [] ++ p :: rest := h
  exact .arrive hawaited fun _ _ hq => absurd hq List.not_mem_nil

/-- What each kind of step makes hold between the replica that it changes and what becomes of it holds
between all replicas before and after a step. -/
theorem Step.relates {R : ι → σ → σ → Prop} (h : Step P N N') (hrefl : ∀ i s, R i s s)
    (hchange : ∀ i op s, P.permits i op s → R i s (P.perform op s))
    (hharvest : ∀ i initial s, R i s (Tracked.harvest initial s).2)
    (hmerge : ∀ i (d : δ) s, R i s (Tracked.merge d s).state) (j : ι) :
    R j (N.replica j) (N'.replica j) := by
  cases h with
  | change i op hop => exact relates_update hrefl (hchange _ _ _ hop) j
  | harvest i initial => exact relates_update hrefl (hharvest i initial _) j
  | arrive _ _ => exact relates_update hrefl (hmerge _ _ _) j
  | again _ _ _ => exact relates_update hrefl (hmerge _ _ _) j

theorem Regular.step (hN : N.Regular Q) (hQ : Kept P Q) (h : Step P N N') : N'.Regular Q := by
  have hreplica : ∀ i, Q i (N'.replica i) := by
    intro i
    exact h.relates (R := fun i s s' => Q i s → Q i s') (fun _ _ hs => hs) hQ.change hQ.harvest
      hQ.merge i (hN.replica i)
  cases h with
  | change _ _ _ => exact ⟨hreplica, hN.sent, hN.awaited⟩
  | harvest i initial =>
      refine ⟨hreplica, ?_, ?_⟩
      · intro p hp
        rcases List.mem_append.mp hp with hp | hp
        · exact hN.sent p hp
        · obtain ⟨rfl, hd⟩ := mem_parcels_iff.mp hp
          exact ⟨N.replica p.sender, initial, hN.replica _, hd⟩
      · intro j p hp
        rcases mem_awaited_harvest hp with hp | ⟨hj, hp⟩
        · exact ⟨List.mem_append_left _ (hN.awaited j p hp).1, (hN.awaited j p hp).2⟩
        · refine ⟨List.mem_append_right _ hp, ?_⟩
          rw [(mem_parcels_iff.mp hp).1]
          exact hj.symm
  | arrive hawaited _ =>
      exact ⟨hreplica, hN.sent, fun j q hq => hN.awaited j q (mem_awaited_arrive hawaited hq)⟩
  | again _ _ _ => exact ⟨hreplica, hN.sent, hN.awaited⟩

theorem Reached.regular (h : Reached P start N) (hQ : Kept (δ := δ) P Q)
    (hstart : ∀ i, Q i (start i)) : N.Regular Q := by
  induction h with
  | refl => exact ⟨hstart, fun p hp => (by cases hp), fun j p hp => (by cases hp)⟩
  | tail _ hstep ih => exact Regular.step ih hQ hstep

/-- What holds at the start, and is kept by every step of a regular network, holds after every
run. -/
theorem Reached.invariant {I : Network ι σ ω δ → Prop} (h : Reached P start N)
    (hQ : Kept (δ := δ) P Q) (hstart : ∀ i, Q i (start i)) (hI : I { replica := start })
    (hstep : ∀ N N', N.Regular Q → Step P N N' → I N → I N') : I N := by
  induction h with
  | refl => exact hI
  | tail hreached hN ih =>
      exact hstep _ _ (Reached.regular hreached hQ hstart) hN ih

end Network

end DeltaReplica
