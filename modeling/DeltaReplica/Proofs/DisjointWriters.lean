import DeltaReplica.Proofs.Following
import DeltaReplica.Proofs.Network

/-!
# Writers of disjoint classes

The replicas of a set share its elements out among themselves: each of them adds and removes only
elements of its own class, never clears the set, and never removes the last element, which would
clear it as well.  Deltas of one replica then name elements of its class only, so for an element it
is only the deltas of one replica that matter, and these arrive in order.

What a replica has staged for its own elements is the difference between what it has and what
another replica will have when all that was sent has arrived there.
-/

namespace DeltaReplica

variable {ι E : Type} [Element E]

namespace AddRemoveSet

/-! ## One writer and one key -/

/-- The staged changes under a key are the difference between the set and what a receiver has. -/
structure Bridges (s : AddRemoveSet E) (ck : Key) (held : Prop) : Prop where
  added : s.added.contains ck = true ↔ s.elements.contains ck = true ∧ ¬held
  removed : s.removed.contains ck = true ↔ ¬s.elements.contains ck = true ∧ held

variable {s : AddRemoveSet E} {ck : Key} {held : Prop}

omit [Element E] in
/-- What a harvest leaves bridges nothing. -/
theorem bridges_harvested (elements : FinMap Key E) :
    ({ elements } : AddRemoveSet E).Bridges ck (elements.contains ck = true) :=
  ⟨by simp, by simp⟩

theorem settled_of_harvest_none {initial : Bool}
    (h : (Tracked.harvest (δ := SetDelta) initial s).1 = none) : s.Settled := by
  rcases harvest_cases initial s with ⟨-, hharvest⟩ | ⟨hs, -, -⟩
  · rw [hharvest] at h
    cases h
  · rw [hs]
    exact ⟨rfl, rfl, rfl⟩

/-- A removal that leaves other elements is staged, unless it undoes an addition. -/
theorem delete_cases_of_others {e : E} (h : ¬(s.has e = true ∧ s.size = 1)) :
    s.delete e = s ∨ s.has e = true ∧ ∃ stored, s.elements.find? (Element.key e) = some stored ∧
      s.delete e =
        { s with
          elements := s.elements.erase (Element.key e)
          added := s.added.erase (Element.key e)
          removed := if s.added.contains (Element.key e) then s.removed
            else s.removed.insert (Element.key e) stored } := by
  cases hf : s.elements.find? (Element.key e) with
  | none => exact Or.inl (by simp [delete, hf])
  | some stored =>
      have hhas : s.has e = true := FinMap.contains_of_find?_eq_some hf
      have hsize : s.size ≠ 1 := fun hsize => h ⟨hhas, hsize⟩
      exact Or.inr ⟨hhas, stored, rfl, by simp [delete, hf, hsize]⟩

namespace Bridges

theorem add (h : s.Bridges ck held) (e : E) : (s.add e).Bridges ck held := by
  rcases add_cases e s with hadd | ⟨hmissing, hadd⟩
  · rwa [hadd]
  · rw [hadd]
    by_cases hck : ck = Element.key e
    · subst hck
      have hadded := h.added
      have hremoved := h.removed
      simp only [hmissing, Bool.false_eq_true, false_and, iff_false, not_false_eq_true, true_and]
        at hadded hremoved
      -- the addition undoes a removal exactly if the receiver has the element
      by_cases hr : s.removed.contains (Element.key e) = true
      · have hheld := hremoved.mp hr
        constructor
        · simp [hr, hheld, hadded]
        · simp [FinMap.contains_erase, FinMap.contains_insert]
      · have hheld := mt hremoved.mpr hr
        constructor
        · simp [hr, hheld, FinMap.contains_insert]
        · simp [FinMap.contains_erase, FinMap.contains_insert]
    · constructor
      · rw [FinMap.contains_insert, decide_eq_false hck, Bool.false_or, ← h.added]
        split
        · rfl
        · rw [FinMap.contains_insert, decide_eq_false hck, Bool.false_or]
      · simp [FinMap.contains_insert, FinMap.contains_erase, hck, h.removed]

theorem delete (h : s.Bridges ck held) {e : E} (he : ¬(s.has e = true ∧ s.size = 1)) :
    (s.delete e).Bridges ck held := by
  rcases delete_cases_of_others he with hdelete | ⟨hhas, stored, -, hdelete⟩
  · rwa [hdelete]
  · rw [hdelete]
    by_cases hck : ck = Element.key e
    · subst hck
      have hthere : s.elements.contains (Element.key e) = true := hhas
      have hadded := h.added
      have hremoved := h.removed
      simp only [hthere, true_and, not_true_eq_false, false_and, iff_false] at hadded hremoved
      -- the removal undoes an addition exactly if the receiver lacks the element
      by_cases ha : s.added.contains (Element.key e) = true
      · have hheld := hadded.mp ha
        constructor
        · simp [FinMap.contains_erase]
        · simp [ha, hheld, hremoved]
      · have hheld := not_not.mp (mt hadded.mpr ha)
        constructor
        · simp [FinMap.contains_erase]
        · simp [ha, hheld, FinMap.contains_insert, FinMap.contains_erase]
    · constructor
      · simp [FinMap.contains_erase, hck, h.added]
      · rw [FinMap.contains_erase, decide_eq_true hck, Bool.true_and, ← h.removed]
        split
        · rfl
        · rw [FinMap.contains_insert, decide_eq_false hck, Bool.false_or]

omit [Element E] in
/-- When nothing is staged the receiver has what the writer has. -/
theorem held_iff_of_settled (h : s.Bridges ck held) (hs : s.Settled) :
    held ↔ s.elements.contains ck = true := by
  have hadded := h.added
  have hremoved := h.removed
  rw [hs.added] at hadded
  rw [hs.removed] at hremoved
  simp only [FinMap.contains_empty, Bool.false_eq_true, false_iff] at hadded hremoved
  constructor
  · intro hheld
    exact not_not.mp fun hmissing => hremoved ⟨hmissing, hheld⟩
  · intro hthere
    exact not_not.mp fun hne => hadded ⟨hthere, hne⟩

end Bridges

/-! ## One delta -/

/-- Whether a receiver has an element under a key after a delta, if `held` says whether it has one
before. -/
def HeldAfter (E : Type) [Element E] (ck : Key) (held : Prop) (d : SetDelta) : Prop :=
  Names E d.added ck ∨ d.cleared = false ∧ ¬Names E d.removed ck ∧ held

theorem heldAfter_of_not_names {d : SetDelta} (hcleared : d.cleared = false)
    (hadded : ¬Names E d.added ck) (hremoved : ¬Names E d.removed ck) :
    HeldAfter E ck held d ↔ held := by
  simp [HeldAfter, hcleared, hadded, hremoved]

variable [LawfulElement E]

theorem names_added_delta (hs : s.Sound) :
    Names E s.delta.added ck ↔ s.added.contains ck = true ∧ s.elements.contains ck = true :=
  names_stagedPayloads_iff hs.elements

theorem names_removed_delta (hs : s.Sound) :
    Names E s.delta.removed ck ↔ s.removed.contains ck = true :=
  names_encode_iff.trans hs.removed.contains_iff_mem_values.symm

theorem contains_merge_delta_iff (hs : s.Sound) (w : AddRemoveSet E) :
    (w.merge s.delta).state.elements.contains ck = true ↔
      HeldAfter E ck (w.elements.contains ck = true) s.delta := by
  rw [(merge_delta hs w).2, HeldAfter, names_added_delta hs, names_removed_delta hs, stages, leaves]
  simp [delta, and_assoc]

theorem Bridges.heldAfter_iff (h : s.Bridges ck held) (hs : s.Sound) (hcleared : s.cleared = false) :
    HeldAfter E ck held s.delta ↔ s.elements.contains ck = true := by
  rw [HeldAfter, names_added_delta hs, names_removed_delta hs, h.added, h.removed]
  by_cases hheld : held
  · simp [hheld, delta, hcleared]
  · simp [hheld]

end AddRemoveSet

/-! ## Networks -/

namespace Network

open AddRemoveSet

/-- The key belongs to an element of the class of a replica. -/
def Owns (C : ι → E → Prop) (i : ι) (ck : Key) : Prop := ∃ e, C i e ∧ Element.key e = ck

/-- No two classes have elements under the same key. -/
def Apart (C : ι → E → Prop) : Prop :=
  ∀ i j e e', C i e → C j e' → Element.key e = Element.key e' → i = j

/-- A replica may add and remove elements of its class, but neither clear the set nor remove the only
element. -/
def Within (C : ι → E → Prop) (i : ι) : AddRemoveSet.Op E → AddRemoveSet E → Prop
  | .add e, _ => C i e
  | .delete e, s => C i e ∧ ¬(s.has e = true ∧ s.size = 1)
  | .clear, _ => False

/-- The elements are shared out among the replicas, and deltas arrive in the order in which they were
sent. -/
def sharedOut (C : ι → E → Prop) : Protocol ι (AddRemoveSet E) (AddRemoveSet.Op E) where
  perform := AddRemoveSet.Op.perform
  permits := Within C
  delivery := .inOrder

/-- The set was not cleared, and what is staged belongs to the class of the replica. -/
structure StagesOwn (C : ι → E → Prop) (i : ι) (s : AddRemoveSet E) : Prop where
  sound : s.Sound
  cleared : s.cleared = false
  added : ∀ ck, s.added.contains ck = true → Owns C i ck
  removed : ∀ ck, s.removed.contains ck = true → Owns C i ck

variable {C : ι → E → Prop} {i j : ι} {ck : Key}

theorem Apart.eq_of_owns (h : Apart C) (hi : Owns C i ck) (hj : Owns C j ck) : i = j := by
  obtain ⟨e, he, rfl⟩ := hi
  obtain ⟨e', he', hkey⟩ := hj
  exact h i j e e' he he' hkey.symm

theorem StagesOwn.add {s : AddRemoveSet E} (h : StagesOwn C i s) {e : E} (he : C i e) :
    StagesOwn C i (s.add e) := by
  refine ⟨h.sound.add e, ?_, ?_, ?_⟩
  · rcases add_cases e s with hadd | ⟨-, hadd⟩
    · rw [hadd, h.cleared]
    · rw [hadd, h.cleared]
  · intro ck hck
    rcases add_cases e s with hadd | ⟨-, hadd⟩
    · exact h.added ck (hadd ▸ hck)
    · rw [hadd] at hck
      by_cases hr : s.removed.contains (Element.key e) = true
      · exact h.added ck (by simpa [hr] using hck)
      · rcases (by simpa [hr, FinMap.contains_insert] using hck : _ ∨ _) with rfl | hck
        · exact ⟨e, he, rfl⟩
        · exact h.added ck hck
  · intro ck hck
    rcases add_cases e s with hadd | ⟨-, hadd⟩
    · exact h.removed ck (hadd ▸ hck)
    · rw [hadd, FinMap.contains_erase, Bool.and_eq_true] at hck
      exact h.removed ck hck.2

theorem StagesOwn.delete {s : AddRemoveSet E} (h : StagesOwn C i s) {e : E} (he : C i e)
    (hother : ¬(s.has e = true ∧ s.size = 1)) : StagesOwn C i (s.delete e) := by
  rcases delete_cases_of_others hother with hdelete | ⟨-, stored, -, hdelete⟩
  · rwa [hdelete]
  · refine ⟨h.sound.delete e, ?_, ?_, ?_⟩
    · rw [hdelete, h.cleared]
    · intro ck hck
      rw [hdelete, FinMap.contains_erase, Bool.and_eq_true] at hck
      exact h.added ck hck.2
    · intro ck hck
      rw [hdelete] at hck
      by_cases ha : s.added.contains (Element.key e) = true
      · exact h.removed ck (by simpa [ha] using hck)
      · rcases (by simpa [ha, FinMap.contains_insert] using hck : _ ∨ _) with rfl | hck
        · exact ⟨e, he, rfl⟩
        · exact h.removed ck hck

theorem sharedOut_keeps_stagesOwn : Kept (δ := SetDelta) (sharedOut C) (StagesOwn C) where
  change i op s hop hs := by
    cases op with
    | add e => exact hs.add hop
    | delete e => exact hs.delete hop.1 hop.2
    | clear => exact hop.elim
  harvest i initial s hs := by
    refine ⟨keeps_sound.harvest initial s hs.sound, ?_, ?_, ?_⟩
    · rw [snd_harvest]
    · rw [snd_harvest]
      nofun
    · rw [snd_harvest]
      nofun
  merge i d s hs := ⟨keeps_sound.merge d s hs.sound, hs.cleared, hs.added, hs.removed⟩

/-- A network of sets. -/
abbrev Sets (ι E : Type) := Network ι (AddRemoveSet E) (AddRemoveSet.Op E) SetDelta

variable [DecidableEq ι]

/-- What is on its way from one replica to another one, in order. -/
def underway (i j : ι) (N : Sets ι E) : List SetDelta :=
  ((N.awaited j).filter fun p => p.sender = i).map Parcel.delta

/-- Whether a replica will have an element under a key when all that another one has sent has
arrived. -/
def Foreseen (i j : ι) (ck : Key) (N : Sets ι E) : Prop :=
  (N.underway i j).foldl (HeldAfter E ck) ((N.replica j).elements.contains ck = true)

/-- For the keys of a replica its staged changes lead to it from what any other replica will have.
The keys of nobody are everywhere or nowhere. -/
structure Shared (C : ι → E → Prop) (N : Sets ι E) : Prop where
  bridges : ∀ i j ck, j ≠ i → Owns C i ck → (N.replica i).Bridges ck (N.Foreseen i j ck)
  unowned : ∀ i j ck, (∀ k, ¬Owns C k ck) →
    (N.replica i).elements.contains ck = (N.replica j).elements.contains ck

variable {N N' : Sets ι E}

theorem foreseen_congr (hunderway : N'.underway i j = N.underway i j)
    (hcontains : (N'.replica j).elements.contains ck = (N.replica j).elements.contains ck) :
    N'.Foreseen i j ck = N.Foreseen i j ck := by
  rw [Foreseen, hunderway, hcontains, Foreseen]

/-! ### One step -/

omit [DecidableEq ι] in
theorem contains_perform {op : AddRemoveSet.Op E} {s : AddRemoveSet E} (hop : Within C i op s)
    (hck : ¬Owns C i ck) : (op.perform s).elements.contains ck = s.elements.contains ck := by
  cases op with
  | add e =>
      have hne : ck ≠ Element.key e := fun hkey => hck ⟨e, hop, hkey.symm⟩
      rcases add_cases e s with hadd | ⟨-, hadd⟩
      · exact congrArg (fun s : AddRemoveSet E => s.elements.contains ck) hadd
      · rw [AddRemoveSet.Op.perform, hadd, FinMap.contains_insert, decide_eq_false hne,
          Bool.false_or]
  | delete e =>
      have hne : ck ≠ Element.key e := fun hkey => hck ⟨e, hop.1, hkey.symm⟩
      rw [AddRemoveSet.Op.perform, elements_delete, FinMap.contains_erase, decide_eq_true hne,
        Bool.true_and]
  | clear => exact hop.elim

theorem Shared.change (h : N.Shared C) (hapart : Apart C) {op : AddRemoveSet.Op E}
    (hop : Within C i op (N.replica i)) : (N.change AddRemoveSet.Op.perform i op).Shared C := by
  have hcontains (j : ι) {ck : Key} (hck : ¬Owns C i ck) :
      ((N.change AddRemoveSet.Op.perform i op).replica j).elements.contains ck =
        (N.replica j).elements.contains ck := by
    by_cases hj : j = i
    · subst hj
      rw [replica_change_self, contains_perform hop hck]
    · rw [replica_change_of_ne hj]
  constructor
  case bridges =>
    intro k j ck hj hk
    have hbridges := h.bridges k j ck hj hk
    by_cases hki : k = i
    · subst hki
      have hforeseen : (N.change AddRemoveSet.Op.perform k op).Foreseen k j ck =
          N.Foreseen k j ck := foreseen_congr rfl (by rw [replica_change_of_ne hj])
      rw [hforeseen, replica_change_self]
      cases op with
      | add e => exact hbridges.add e
      | delete e => exact hbridges.delete hop.2
      | clear => exact hop.elim
    · have hck : ¬Owns C i ck := fun hi => hki (hapart.eq_of_owns hk hi)
      have hforeseen : (N.change AddRemoveSet.Op.perform i op).Foreseen k j ck =
          N.Foreseen k j ck := foreseen_congr rfl (hcontains j hck)
      rwa [hforeseen, replica_change_of_ne hki]
  case unowned =>
    intro k j ck hck
    rw [hcontains k (hck i), hcontains j (hck i)]
    exact h.unowned k j ck hck

theorem underway_harvest_self (hj : j ≠ i) (initial : Bool) :
    (N.harvest i initial).underway i j =
      N.underway i j ++ (Tracked.harvest initial (N.replica i)).1.toList := by
  rw [underway, awaited_harvest_of_ne hj, List.filter_append, List.map_append, underway]
  cases hd : (Tracked.harvest (δ := SetDelta) initial (N.replica i)).1 with
  | none => simp [parcels, hd]
  | some d => simp [parcels, hd]

theorem underway_harvest_of_ne {k : ι} (hk : k ≠ i) (initial : Bool) :
    (N.harvest i initial).underway k j = N.underway k j := by
  by_cases hj : j = i
  · subst hj
    rw [underway, awaited_harvest_self, underway]
  · rw [underway, awaited_harvest_of_ne hj, List.filter_append, List.map_append, underway]
    cases hd : (Tracked.harvest (δ := SetDelta) initial (N.replica i)).1 with
    | none => simp [parcels, hd]
    | some d => simp [parcels, hd, Ne.symm hk]

theorem contains_harvest (initial : Bool) :
    ((N.harvest i initial).replica j).elements.contains ck =
      (N.replica j).elements.contains ck := by
  by_cases hj : j = i
  · subst hj
    rw [replica_harvest_self, snd_harvest]
  · rw [replica_harvest_of_ne hj]

variable [LawfulElement E]

theorem Shared.harvest (h : N.Shared C) (hi : StagesOwn C i (N.replica i)) (initial : Bool) :
    (N.harvest i initial).Shared C := by
  constructor
  case bridges =>
    intro k j ck hj hk
    have hbridges := h.bridges k j ck hj hk
    by_cases hki : k = i
    · subst hki
      -- what is handed over makes the receiver have what the writer has
      have hforeseen : (N.harvest k initial).Foreseen k j ck =
          ((N.replica k).elements.contains ck = true) := by
        rw [Foreseen, underway_harvest_self hj, contains_harvest, List.foldl_append]
        cases hd : (Tracked.harvest (δ := SetDelta) initial (N.replica k)).1 with
        | none => exact propext (hbridges.held_iff_of_settled (settled_of_harvest_none hd))
        | some d =>
            rw [eq_delta_of_harvest hd]
            exact propext (hbridges.heldAfter_iff hi.sound hi.cleared)
      rw [hforeseen, replica_harvest_self, snd_harvest]
      exact bridges_harvested _
    · rwa [foreseen_congr (underway_harvest_of_ne hki initial) (contains_harvest initial),
        replica_harvest_of_ne hki]
  case unowned =>
    intro k j ck hck
    rw [contains_harvest, contains_harvest]
    exact h.unowned k j ck hck

/-- A delta leaves alone what does not belong to its sender. -/
theorem contains_receive {p : Parcel ι SetDelta} (hp : HandedOver (StagesOwn C) p)
    (hck : ¬Owns C p.sender ck) :
    ((N.receive j p.delta).replica i).elements.contains ck =
      (N.replica i).elements.contains ck := by
  by_cases hi : i = j
  · subst hi
    obtain ⟨s, initial, hs, hd⟩ := hp
    have hadded : ¬Names E s.delta.added ck := by
      rw [names_added_delta hs.sound]
      exact fun hstaged => hck (hs.added ck hstaged.1)
    have hremoved : ¬Names E s.delta.removed ck := by
      rw [names_removed_delta hs.sound]
      exact fun hstaged => hck (hs.removed ck hstaged)
    rw [replica_receive_self, eq_delta_of_harvest hd, Bool.eq_iff_iff]
    exact (contains_merge_delta_iff hs.sound (N.replica i)).trans
      (heldAfter_of_not_names hs.cleared hadded hremoved)
  · rw [replica_receive_of_ne hi]

omit [LawfulElement E] in
theorem underway_arrive_of_ne {k : ι} {p : Parcel ι SetDelta} {before after : List (Parcel ι SetDelta)}
    (hawaited : N.awaited j = before ++ p :: after) (hk : k ≠ p.sender) :
    (N.arrive j p.delta (before ++ after)).underway k i = N.underway k i := by
  by_cases hi : i = j
  · subst hi
    simp [underway, hawaited, Ne.symm hk]
  · rw [underway, awaited_arrive_of_ne hi, underway]

/-- The first delta of a sender that arrives was foreseen. -/
theorem foreseen_arrive {p : Parcel ι SetDelta} (hp : HandedOver (StagesOwn C) p)
    {before after : List (Parcel ι SetDelta)} (hawaited : N.awaited j = before ++ p :: after)
    (horder : ∀ q ∈ before, q.sender ≠ p.sender) :
    (N.arrive j p.delta (before ++ after)).Foreseen p.sender i ck = N.Foreseen p.sender i ck := by
  by_cases hi : i = j
  · subst hi
    have hbefore : before.filter (fun q => q.sender = p.sender) = [] := by
      simpa using horder
    obtain ⟨s, initial, hs, hd⟩ := hp
    have hmerge : ((Tracked.merge p.delta (N.replica i)).state.elements.contains ck = true) =
        HeldAfter E ck ((N.replica i).elements.contains ck = true) p.delta := by
      rw [eq_delta_of_harvest hd]
      exact propext (contains_merge_delta_iff hs.sound (N.replica i))
    rw [Foreseen, Foreseen, underway, underway, awaited_arrive_self, hawaited, replica_arrive,
      replica_receive_self, List.filter_append, List.filter_append, hbefore, List.nil_append,
      List.nil_append]
    simp only [List.filter_cons_of_pos, decide_true, List.map_cons, List.foldl_cons]
    exact congrArg (fun held => List.foldl (HeldAfter E ck) held _) hmerge
  · rw [foreseen_congr]
    · rw [underway, awaited_arrive_of_ne hi, underway]
    · rw [replica_arrive, replica_receive_of_ne hi]

theorem Shared.arrive (h : N.Shared C) (hapart : Apart C) {p : Parcel ι SetDelta}
    (hp : HandedOver (StagesOwn C) p) (hsender : p.sender ≠ j)
    {before after : List (Parcel ι SetDelta)} (hawaited : N.awaited j = before ++ p :: after)
    (horder : ∀ q ∈ before, q.sender ≠ p.sender) :
    (N.arrive j p.delta (before ++ after)).Shared C := by
  constructor
  case bridges =>
    intro k i ck hi hk
    have hbridges := h.bridges k i ck hi hk
    by_cases hkp : k = p.sender
    · subst hkp
      rwa [foreseen_arrive hp hawaited horder, replica_arrive, replica_receive_of_ne hsender]
    · have hck : ¬Owns C p.sender ck := fun hpk => hkp (hapart.eq_of_owns hk hpk)
      rw [foreseen_congr (underway_arrive_of_ne hawaited hkp) (contains_receive hp hck)]
      by_cases hkj : k = j
      · subst hkj
        -- the receiver has staged what it had staged before
        have hcontains := contains_receive (N := N) (i := k) (j := k) hp hck
        rw [replica_receive_self] at hcontains
        rw [replica_arrive, replica_receive_self]
        constructor
        · rw [hcontains]
          exact hbridges.added
        · rw [hcontains]
          exact hbridges.removed
      · rwa [replica_arrive, replica_receive_of_ne hkj]
  case unowned =>
    intro k i ck hck
    rw [replica_arrive, contains_receive hp (hck _), contains_receive hp (hck _)]
    exact h.unowned k i ck hck

theorem Shared.step (h : N.Shared C) (hapart : Apart C) (hN : N.Regular (StagesOwn C))
    (hstep : Step (sharedOut C) N N') : N'.Shared C := by
  cases hstep with
  | change i op hop => exact h.change hapart hop
  | harvest i initial => exact h.harvest (hN.replica i) initial
  | @arrive j p before after hawaited horder =>
      obtain ⟨hp, hsender⟩ := hN.awaited j p (by simp [hawaited])
      exact h.arrive hapart (hN.sent p hp) hsender hawaited (horder rfl)
  | again _ hdelivery _ => cases hdelivery

/-! ### Runs -/

omit [LawfulElement E] [DecidableEq ι] in
theorem stagesOwn_of_settled {s : AddRemoveSet E} (hsound : s.Sound) (hsettled : s.Settled) :
    StagesOwn C i s := by
  refine ⟨hsound, hsettled.cleared, ?_, ?_⟩
  · rw [hsettled.added]
    nofun
  · rw [hsettled.removed]
    nofun

theorem Reached.shared {start : ι → AddRemoveSet E} (h : Reached (sharedOut C) start N)
    (hapart : Apart C) (hsound : ∀ i, (start i).Sound) (hsettled : ∀ i, (start i).Settled)
    (halike : ∀ i j, (start i).Alike (start j)) : N.Shared C := by
  refine h.invariant sharedOut_keeps_stagesOwn
    (fun i => stagesOwn_of_settled (hsound i) (hsettled i)) ?_ ?_
  · constructor
    · intro i j ck _ _
      have hforeseen : Foreseen i j ck ({ replica := start } : Sets ι E) =
          ((start i).elements.contains ck = true) := by
        rw [halike i j ck]
        rfl
      rw [hforeseen]
      constructor
      · simp [(hsettled i).added]
      · simp [(hsettled i).removed]
    · intro i j ck _
      exact halike i j ck
  · intro N N' hN hstep h
    exact h.step hapart hN hstep

omit [LawfulElement E] in
/-- When everything has arrived, a replica has what the owner of an element has. -/
theorem Shared.contains_eq_of_owns (h : N.Shared C) (hquiet : N.Quiet) (hi : Owns C i ck) (j : ι) :
    (N.replica j).elements.contains ck = (N.replica i).elements.contains ck := by
  by_cases hj : j = i
  · rw [hj]
  · have hheld := (h.bridges i j ck hj hi).held_iff_of_settled
      (settled_of_harvest_none (hquiet.idle i))
    rw [Foreseen, underway, hquiet.arrived] at hheld
    exact Bool.eq_iff_iff.mpr hheld

/-- Replicas of a set that start alike, and each add and remove elements of a class of their own, are
alike again once nothing is pending and everything has arrived in order.  If elements are told apart
by their keys, they have the same elements. -/
theorem disjoint_writers_converge (hapart : Apart C) {start : ι → AddRemoveSet E}
    (hsound : ∀ i, (start i).Sound) (hsettled : ∀ i, (start i).Settled)
    (halike : ∀ i j, (start i).Alike (start j)) (h : Reached (sharedOut C) start N)
    (hquiet : N.Quiet) (i j : ι) :
    (N.replica i).Alike (N.replica j) ∧
      ((∀ e e' : E, Element.key e = Element.key e' → e = e') →
        (N.replica i).elements = (N.replica j).elements) := by
  have hshared : N.Shared C := h.shared hapart hsound hsettled halike
  have hreplicas : ∀ k, (N.replica k).Sound := fun k =>
    ((h.regular sharedOut_keeps_stagesOwn
      fun k => stagesOwn_of_settled (hsound k) (hsettled k)).replica k).sound
  have hij : (N.replica i).Alike (N.replica j) := by
    intro ck
    by_cases howned : ∃ k, Owns C k ck
    · obtain ⟨k, hk⟩ := howned
      rw [hshared.contains_eq_of_owns hquiet hk i, hshared.contains_eq_of_owns hquiet hk j]
    · exact hshared.unowned i j ck fun k hk => howned ⟨k, hk⟩
  exact ⟨hij, hij.elements_eq (hreplicas i) (hreplicas j)⟩

/-- One replica removes an element, brings it back in a second delta, and takes in an element of the
other one. -/
theorem disjoint_writers_converge_after_return :
    let x : Payload := ⟨"", [1]⟩
    let y : Payload := ⟨"", [2]⟩
    let z : Payload := ⟨"", [2, 0]⟩
    let C : Bool → Payload → Prop := fun i e => e.value.head? = some (if i then 2 else 1)
    let start : AddRemoveSet Payload := (Tracked.harvest false (addAll [x, y] {})).2
    let act := AddRemoveSet.Op.perform (E := Payload)
    let delete : AddRemoveSet.Op Payload := .delete x
    let restore : AddRemoveSet.Op Payload := .add x
    let add : AddRemoveSet.Op Payload := .add z
    let first : Sets Bool Payload := { replica := fun _ => start }
    let removed := (first.change act false delete).harvest false false
    let returned := (removed.change act false restore).harvest false false
    let both := (returned.change act true add).harvest true true
    let arrived := (both.arrive true ⟨false, [x], []⟩ [⟨false, ⟨false, [], [x]⟩⟩]).arrive true
      ⟨false, [], [x]⟩ []
    let after := arrived.arrive false ⟨false, [], [z]⟩ []
    Apart C ∧ start.Sound ∧ start.Settled ∧ Reached (sharedOut C) (fun _ => start) after ∧
      after.Quiet ∧ (after.replica false).toList = [x, y, z] ∧
      (after.replica false).elements = (after.replica true).elements := by
  intro x y z C start act delete restore add first removed returned both arrived after
  have hapart : Apart C := by
    intro i j e e' he he' hkey
    obtain rfl : e = e' := Payload.toKey_injective hkey
    have hclass : (if i then (2 : UInt8) else 1) = if j then 2 else 1 :=
      Option.some.inj (he.symm.trans he')
    clear he he'
    revert i j
    decide
  have hsound : start.Sound := keeps_sound.harvest false _ ((Sound.empty false).addAll [x, y])
  have hsettled : start.Settled := settles.harvest false (addAll [x, y] {})
  have hfirst : both.awaited true =
      [⟨false, ⟨false, [x], []⟩⟩, ⟨false, ⟨false, [], [x]⟩⟩] := by decide
  have hsecond : (both.arrive true ⟨false, [x], []⟩ [⟨false, ⟨false, [], [x]⟩⟩]).awaited true =
      [⟨false, ⟨false, [], [x]⟩⟩] := by decide
  have hthird : arrived.awaited false = [⟨true, ⟨false, [], [z]⟩⟩] := by decide
  have hdelete : Within C false delete start := ⟨rfl, by decide⟩
  have hrestore : Within C false restore (removed.replica false) := rfl
  have hadd : Within C true add (returned.replica true) := rfl
  have hboth : Reached (sharedOut C) (fun _ => start) both :=
    Relation.ReflTransGen.refl.tail (.change false delete hdelete)
      |>.tail (.harvest _ false false) |>.tail (.change false restore hrestore)
      |>.tail (.harvest _ false false) |>.tail (.change true add hadd)
      |>.tail (.harvest _ true true)
  have harrive := Step.arrive_next (P := sharedOut C) hfirst
  have harrive' := Step.arrive_next (P := sharedOut C) hsecond
  have harrive'' := Step.arrive_next (P := sharedOut C) hthird
  have hreached : Reached (sharedOut C) (fun _ => start) after :=
    ((hboth.tail harrive).tail harrive').tail harrive''
  have hquiet : after.Quiet :=
    ⟨Bool.forall_bool.mpr ⟨by decide, by decide⟩, Bool.forall_bool.mpr ⟨rfl, rfl⟩⟩
  have hconverge := disjoint_writers_converge hapart (fun _ => hsound) (fun _ => hsettled)
    (fun _ _ _ => rfl) hreached hquiet false true
  have hlist : (after.replica false).toList = [x, y, z] := by decide
  exact ⟨hapart, hsound, hsettled, hreached, hquiet, hlist,
    hconverge.2 fun _ _ => Payload.toKey_injective⟩

end Network

end DeltaReplica
