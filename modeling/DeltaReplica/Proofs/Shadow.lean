import DeltaReplica.Proofs.Acceptance

/-!
# Local changes among the deltas of peers

The shadow of a replica is what its peers know: it starts like the replica, merges each
delta that the replica merges, and each that the replica hands over.  When the last
change of a key since a harvest was made here, the shadow should follow it with the next
harvest.

Operations cancel what is staged in the opposite direction, as if nobody else had
changed the key since the last harvest.  When a peer has, the change of this replica is
staged no more.  The theorems below say exactly when the shadow follows.
-/

namespace DeltaReplica

/-- What happens to a replica. -/
inductive Event (ω δ : Type)
  /-- The application performs an operation. -/
  | change (op : ω)
  /-- The delta of a peer is merged. -/
  | receive (d : δ)
  /-- The changes are handed over. -/
  | harvest (initial : Bool)

/-- Where a change was made. -/
inductive Side
  /-- At the replica. -/
  | here
  /-- At a peer. -/
  | peer
deriving DecidableEq

/-- Data with keys that come and go under operations. -/
class Keyed (σ : Type) (ω : outParam Type) where
  /-- The state after an operation. -/
  perform : ω → σ → σ
  /-- Whether a key is there. -/
  holds : σ → Key → Bool

/-- A replica and its shadow, and where each key came or went last since the last harvest. -/
structure Shadowed (σ : Type) where
  /-- The replica. -/
  replica : σ
  /-- What the peers know. -/
  shadow : σ
  /-- Who made the last change of a key, if it has changed at all. -/
  changed : Key → Option Side := fun _ => none

namespace Shadowed

variable {σ ω δ : Type} [Tracked σ δ] [Keyed σ ω]

/-- The replica changes, and each key that came or went is marked with the side. -/
def move (side : Side) (replica shadow : σ) (s : Shadowed σ) : Shadowed σ where
  replica := replica
  shadow := shadow
  changed ck :=
    if Keyed.holds replica ck = Keyed.holds s.replica ck then s.changed ck else some side

/-- What an event does to a replica and its shadow. -/
def step (s : Shadowed σ) : Event ω δ → Shadowed σ
  | .change op => s.move .here (Keyed.perform op s.replica) s.shadow
  | .receive d =>
    s.move .peer (Tracked.merge d s.replica).state (Tracked.merge d s.shadow).state
  | .harvest initial =>
    { replica := (Tracked.harvest initial s.replica).2
      shadow := (Tracked.receive (Tracked.harvest initial s.replica).1 s.shadow).state }

/-- A replica and its shadow after a sequence of events. -/
def run (start : σ) (events : List (Event ω δ)) : Shadowed σ :=
  events.foldl step { replica := start, shadow := start }

theorem run_snoc (start : σ) (events : List (Event ω δ)) (e : Event ω δ) :
    run start (events ++ [e]) = (run start events).step e := by
  simp [run, List.foldl_append]

/-- What holds at the start and is kept by every event holds after every run. -/
theorem run_keeps {P : Shadowed σ → Prop} {start : σ}
    (hstart : P { replica := start, shadow := start })
    (hstep : ∀ s (e : Event ω δ), P s → P (s.step e)) (events : List (Event ω δ)) :
    P (run start events) := by
  suffices h : ∀ s, P s → P (events.foldl step s) from h _ hstart
  induction events with
  | nil => exact fun _ hs => hs
  | cons e events ih => exact fun s hs => ih _ (hstep s e hs)

theorem replica_run {P : σ → Prop} (hP : Tracked.Keeps P)
    (hperform : ∀ (op : ω) s, P s → P (Keyed.perform op s)) {start : σ} (hstart : P start)
    (events : List (Event ω δ)) : P (run start events).replica := by
  refine run_keeps (P := fun s => P s.replica) hstart (fun s e hs => ?_) events
  cases e with
  | change op => exact hperform op _ hs
  | receive d => exact hP.merge d _ hs
  | harvest initial => exact hP.harvest initial _ hs

/-- A property of a state and a key that operations establish where a key comes or goes, and that
is kept otherwise, holds whenever the last change of the key was made here. -/
theorem replica_of_changed_here {P : σ → Key → Prop}
    (hperform : ∀ (op : ω) s ck, (Keyed.holds (Keyed.perform op s) ck = Keyed.holds s ck →
      P s ck) → P (Keyed.perform op s) ck)
    (hmerge : ∀ (d : δ) s ck, Keyed.holds (Tracked.merge d s).state ck = Keyed.holds s ck →
      P s ck → P (Tracked.merge d s).state ck)
    (start : σ) (events : List (Event ω δ)) {ck : Key}
    (h : (run start events).changed ck = some .here) : P (run start events).replica ck := by
  revert h
  refine run_keeps (P := fun s => s.changed ck = some .here → P s.replica ck) ?_
    (fun s e hs => ?_) events
  · intro h
    cases h
  · cases e with
    | change op =>
        intro h
        refine hperform op s.replica ck fun hsame => hs ?_
        simpa [step, move, hsame] using h
    | receive d =>
        intro h
        by_cases hsame :
            Keyed.holds (Tracked.merge d s.replica).state ck = Keyed.holds s.replica ck
        · refine hmerge d s.replica ck hsame (hs ?_)
          simpa [step, move, hsame] using h
        · simp [step, move, hsame] at h
    | harvest initial =>
        intro h
        cases h

end Shadowed

/-! ## Sets -/

namespace AddRemoveSet

variable {E : Type} [Element E]

instance : Keyed (AddRemoveSet E) (Op E) where
  perform := Op.perform
  holds s ck := s.elements.contains ck

/-- An element that is there is not staged as removed. -/
def Unopposed (s : AddRemoveSet E) (ck : Key) : Prop :=
  s.elements.contains ck = true → s.removed.contains ck = false

/-- The shadow learns of an element with the next harvest: what is staged says whether it is
there, or else what the shadow knows already, after the staged clearing. -/
def Carried (replica shadow : AddRemoveSet E) (ck : Key) : Prop :=
  if replica.elements.contains ck then
    replica.added.contains ck = true ∨
      replica.cleared = false ∧ shadow.elements.contains ck = true
  else
    replica.removed.contains ck = true ∨ replica.cleared = true ∨
      shadow.elements.contains ck = false

omit [Element E] in
theorem unopposed_clear {s : AddRemoveSet E} {ck : Key}
    (h : s.clear.elements.contains ck = s.elements.contains ck → s.Unopposed ck) :
    s.clear.Unopposed ck := by
  rcases clear_cases s with hclear | hclear
  · rw [hclear] at h ⊢
    exact h rfl
  · simp [hclear, Unopposed]

theorem unopposed_add {s : AddRemoveSet E} {e : E} {ck : Key}
    (h : (s.add e).elements.contains ck = s.elements.contains ck → s.Unopposed ck) :
    (s.add e).Unopposed ck := by
  rcases add_cases e s with hadd | ⟨-, hadd⟩
  · rw [hadd] at h ⊢
    exact h rfl
  · rw [hadd] at h ⊢
    by_cases hck : ck = Element.key e
    · subst hck
      simp [Unopposed, FinMap.contains_insert, FinMap.contains_erase]
    · have hs := h (by simp [hck, FinMap.contains_insert])
      unfold Unopposed at hs ⊢
      simpa [hck, FinMap.contains_insert, FinMap.contains_erase] using hs

theorem unopposed_delete {s : AddRemoveSet E} {e : E} {ck : Key}
    (h : (s.delete e).elements.contains ck = s.elements.contains ck → s.Unopposed ck) :
    (s.delete e).Unopposed ck := by
  rcases delete_cases e s with hdelete | hdelete | ⟨stored, -, hdelete⟩
  · rw [hdelete] at h ⊢
    exact h rfl
  · rw [hdelete] at h ⊢
    exact unopposed_clear h
  · rw [hdelete] at h ⊢
    by_cases hck : ck = Element.key e
    · subst hck
      simp [Unopposed, FinMap.contains_erase]
    · have hs := h (by simp [FinMap.contains_erase, hck])
      unfold Unopposed at hs ⊢
      by_cases ha : s.added.contains (Element.key e) = true <;>
        simpa [hck, ha, FinMap.contains_insert, FinMap.contains_erase] using hs

theorem unopposed_perform (op : Op E) (s : AddRemoveSet E) (ck : Key)
    (h : Keyed.holds (Keyed.perform op s) ck = Keyed.holds s ck → s.Unopposed ck) :
    (Keyed.perform op s).Unopposed ck := by
  cases op with
  | add e => exact unopposed_add h
  | delete e => exact unopposed_delete h
  | clear => exact unopposed_clear h

theorem unopposed_merge (d : SetDelta) (s : AddRemoveSet E) (ck : Key)
    (hsame : Keyed.holds (Tracked.merge d s).state ck = Keyed.holds s ck)
    (h : s.Unopposed ck) : (Tracked.merge d s).state.Unopposed ck := by
  have hholds : (Tracked.merge d s).state.elements.contains ck = s.elements.contains ck := hsame
  unfold Unopposed at h ⊢
  rw [hholds]
  exact h

/-- If the last change of an element since a harvest was made here, then the shadow has it after
the next harvest just as the replica has, exactly when the change is carried: a removal that only
cancelled an addition is not, while the peers have the element, nor is an addition that only
cancelled a removal, while they have lost it. -/
theorem shadow_agrees_on_element_iff [LawfulElement E] (events : List (Event (Op E) SetDelta))
    (initial : Bool) (x : E)
    (h : (Shadowed.run ({} : AddRemoveSet E) events).changed (Element.key x) = some .here) :
    let before := Shadowed.run ({} : AddRemoveSet E) events
    let after := Shadowed.run ({} : AddRemoveSet E) (events ++ [.harvest initial])
    after.shadow.has x = after.replica.has x ↔
      Carried before.replica before.shadow (Element.key x) := by
  intro before after
  have hafter : after = before.step (.harvest initial) := Shadowed.run_snoc ..
  have hsound : before.replica.Sound :=
    Shadowed.replica_run keeps_sound (fun op _ hs => op.sound hs) (Sound.empty false) events
  have hstaged : before.replica.Unopposed (Element.key x) :=
    Shadowed.replica_of_changed_here unopposed_perform unopposed_merge {} events h
  have hreplica : after.replica.has x = before.replica.has x := by
    rw [hafter, Shadowed.step, has, snd_harvest, has]
  have hshadow : after.shadow.has x = (before.replica.stages (Element.key x) ||
      before.replica.leaves before.shadow (Element.key x)) := by
    rw [hafter, Shadowed.step, receive_harvest]
    exact (merge_delta hsound before.shadow).2 _
  rw [hreplica, hshadow, has, Carried, stages, leaves]
  cases hc : before.replica.elements.contains (Element.key x) with
  | true => simp [hstaged hc]
  | false =>
      cases before.replica.cleared <;>
        cases before.replica.removed.contains (Element.key x) <;> simp

/-- A peer delivers an element that was added here too, and then it is removed here: with another
element in the set the removal is staged. -/
theorem shadow_agrees_after_delivery_and_removal :
    let x : Payload := ⟨"", [1]⟩
    let y : Payload := ⟨"", [2]⟩
    let events : List (Event (Op Payload) SetDelta) :=
      [.receive ⟨false, [], [y]⟩, .change (.add x), .harvest false, .receive ⟨false, [], [x]⟩,
        .change (.delete x)]
    let before := Shadowed.run ({} : AddRemoveSet Payload) events
    let after := Shadowed.run ({} : AddRemoveSet Payload) (events ++ [.harvest false])
    before.changed (Element.key x) = some .here ∧
      Carried before.replica before.shadow (Element.key x) ∧
      after.shadow.has x = after.replica.has x := by
  intro x y events before after
  have hchanged : before.changed (Element.key x) = some .here := by decide
  have hagree : after.shadow.has x = after.replica.has x ↔
      Carried before.replica before.shadow (Element.key x) :=
    shadow_agrees_on_element_iff events false x hchanged
  refine ⟨hchanged, ?_⟩
  rw [hagree, and_self, Carried]
  decide

/-- An element is added here and by a peer, and removed here: the removal cancels the addition, and
the shadow keeps the element. -/
theorem shadow_keeps_removed_element :
    let x : Payload := ⟨"", [1]⟩
    let y : Payload := ⟨"", [2]⟩
    let events : List (Event (Op Payload) SetDelta) :=
      [.change (.add y), .change (.add x), .receive ⟨false, [], [x]⟩, .change (.delete x)]
    let before := Shadowed.run ({} : AddRemoveSet Payload) events
    let after := Shadowed.run ({} : AddRemoveSet Payload) (events ++ [.harvest false])
    before.changed (Element.key x) = some .here ∧
      after.replica.has x = false ∧ after.shadow.has x = true := by
  decide

end AddRemoveSet

/-! ## Maps to replicated data -/

namespace DataMap

variable {K V : Type} [Element K]

instance : Keyed (DataMap K V) (Op K V) where
  perform := Op.perform
  holds m ck := m.entries.contains ck

/-- A key that is there is staged as added. -/
def Announced (m : DataMap K V) (ck : Key) : Prop :=
  m.entries.contains ck = true → m.added.contains ck = true

/-- The shadow learns of a key with the next harvest: the key is there, or its removal is staged,
or the shadow does not have it anyway. -/
def Carried (replica shadow : DataMap K V) (ck : Key) : Prop :=
  replica.entries.contains ck = true ∨ replica.removed.contains ck = true ∨
    replica.cleared = true ∨ shadow.entries.contains ck = false

theorem announced_set {m : DataMap K V} {k : K} {v : V} {ck : Key}
    (h : (m.set k v).result.entries.contains ck = m.entries.contains ck → m.Announced ck) :
    (m.set k v).result.Announced ck := by
  intro hm
  by_cases hck : ck = Element.key k
  · subst hck
    rcases set_cases k v m with ⟨-, hset⟩ | ⟨-, hset⟩ | ⟨ha, hset⟩
    · simp [hset, FinMap.contains_insert]
    · simp [hset, FinMap.contains_insert]
    · rwa [hset]
  · have hsame : (m.set k v).result.entries.contains ck = m.entries.contains ck := by
      simp [FinMap.contains_insert, hck]
    have hadded : m.added.contains ck = true := h hsame (hsame ▸ hm)
    rcases set_cases k v m with ⟨-, hset⟩ | ⟨-, hset⟩ | ⟨-, hset⟩ <;>
      simp [hset, FinMap.contains_insert, hadded]

theorem contains_adjust (m : DataMap K V) (k : K) (f : V → V) (ck : Key) :
    (m.adjust k f).entries.contains ck = m.entries.contains ck := by
  rcases adjust_cases k f m with hadjust | ⟨e, hf, hadjust⟩
  · rw [hadjust]
  · rw [hadjust, FinMap.contains_insert]
    by_cases hck : ck = Element.key k
    · simp [hck, FinMap.contains_of_find?_eq_some hf]
    · simp [hck]

theorem added_adjust (m : DataMap K V) (k : K) (f : V → V) : (m.adjust k f).added = m.added := by
  unfold adjust
  split <;> rfl

theorem announced_reach {m : DataMap K V} {k : K} {ck : Key}
    (h : (m.reach k).result.entries.contains ck = m.entries.contains ck → m.Announced ck) :
    (m.reach k).result.Announced ck := by
  rcases reach_cases k m with hreach | ⟨f, n, -, -, -, hreach⟩
  · rw [hreach] at h ⊢
    exact h rfl
  · rw [hreach] at h ⊢
    exact announced_set h

theorem announced_adjust {m : DataMap K V} {k : K} {f : V → V} {ck : Key}
    (h : (m.adjust k f).entries.contains ck = m.entries.contains ck → m.Announced ck) :
    (m.adjust k f).Announced ck := by
  have hcontains := contains_adjust m k f ck
  intro hm
  rw [added_adjust]
  exact h hcontains (hcontains ▸ hm)

theorem announced_delete {m : DataMap K V} {k : K} {ck : Key}
    (h : (m.delete k).entries.contains ck = m.entries.contains ck → m.Announced ck) :
    (m.delete k).Announced ck := by
  intro hm
  rw [entries_delete, FinMap.contains_erase, Bool.and_eq_true, decide_eq_true_eq] at hm
  have ha := h (by simp [entries_delete, FinMap.contains_erase, hm.1]) hm.2
  rcases delete_cases k m with hdelete | ⟨e, -, hdelete⟩
  · rwa [hdelete]
  · simp [hdelete, FinMap.contains_erase, hm.1, ha]

theorem announced_perform (op : Op K V) (m : DataMap K V) (ck : Key)
    (h : Keyed.holds (Keyed.perform op m) ck = Keyed.holds m ck → m.Announced ck) :
    (Keyed.perform op m).Announced ck := by
  cases op with
  | set k v => exact announced_set h
  | reach k => exact announced_reach h
  | adjust k f => exact announced_adjust h
  | delete k => exact announced_delete h
  | clear =>
      intro hm
      change m.clear.entries.contains ck = true at hm
      rw [entries_clear] at hm
      cases hm

variable [Replicated V]

theorem announced_merge (d : MapDelta Delta) (m : DataMap K V) (ck : Key)
    (hsame : Keyed.holds (Tracked.merge d m).state ck = Keyed.holds m ck)
    (h : m.Announced ck) : (Tracked.merge d m).state.Announced ck := by
  have hholds : (Tracked.merge d m).state.entries.contains ck = m.entries.contains ck := hsame
  unfold Announced at h ⊢
  rw [hholds]
  exact h

omit [Element K] in
theorem contains_kept (m : DataMap K V) (ck : Key) :
    m.kept.contains ck = m.entries.contains ck := by
  simp [kept]

omit [Element K] in
/-- If the values accept what values of their type hand over, a receiver has the keys that are
staged as added, and of its own those that it is left. -/
theorem isSome_arrives [Replicated.Accepting V] (m w : DataMap K V) (ck : Key) :
    (m.arrives w ck).isSome =
      (m.entries.contains ck && m.added.contains ck || (m.left w ck).isSome) := by
  rw [arrives, FinMap.contains_eq_isSome_valueAt?]
  cases m.entries.valueAt? ck with
  | none => simp
  | some v =>
      simp only [handOver]
      by_cases ha : m.added.contains ck = true
      · simp only [ha, if_true, Replicated.Accepting.isSome_receive?_initial]
        simp
      · simp only [Bool.not_eq_true] at ha
        simp only [ha, Bool.false_eq_true, if_false, Replicated.Accepting.isSome_touch?]
        simp

/-- If the last change of a key since a harvest was made here, then the shadow has it after the
next harvest just as the replica has, exactly when the change is carried: a removal that only
cancelled an addition is not, while the peers have the key. -/
theorem shadow_agrees_on_key_iff [LawfulElement K] [Replicated.Accepting V]
    (supply : Option (K → Option (Noted V))) (events : List (Event (Op K V) (MapDelta Delta)))
    (initial : Bool) (k : K)
    (h : (Shadowed.run ({ supply } : DataMap K V) events).changed (Element.key k) =
      some .here) :
    let before := Shadowed.run ({ supply } : DataMap K V) events
    let after := Shadowed.run ({ supply } : DataMap K V) (events ++ [.harvest initial])
    after.shadow.has k = after.replica.has k ↔
      Carried before.replica before.shadow (Element.key k) := by
  intro before after
  have hafter : after = before.step (.harvest initial) := Shadowed.run_snoc ..
  have hsound : before.replica.Sound fun _ => True :=
    Shadowed.replica_run (keeps_sound Replicated.keeps_true) (fun op _ hs => op.sound hs)
      (Sound.empty false supply) events
  have hstaged : before.replica.Announced (Element.key k) :=
    Shadowed.replica_of_changed_here announced_perform announced_merge _ events h
  have hreplica : after.replica.has k = before.replica.has k := by
    rw [hafter, Shadowed.step, has, snd_harvest, has, contains_kept]
  have hshadow : after.shadow.has k =
      (before.replica.arrives before.shadow (Element.key k)).isSome := by
    rw [hafter, Shadowed.step, receive_harvest, has, FinMap.contains_eq_isSome_valueAt?]
    rw [(merge_delta hsound before.shadow fun ck v _ => ?_).2]
    unfold handOver
    split
    · exact Replicated.Accepting.failure_receive? ..
    · exact Replicated.Accepting.failure_touch? ..
  rw [hreplica, hshadow, isSome_arrives, has, Carried, left, Contents.left,
    FinMap.contains_eq_isSome_valueAt? before.shadow.entries]
  cases hc : before.replica.entries.contains (Element.key k) with
  | true => simp [hstaged hc]
  | false =>
      cases before.replica.cleared <;>
        cases before.replica.removed.contains (Element.key k) <;> simp

/-- A peer delivers a key that has been handed over from here, and then it is removed here: with
another key in the map the removal is staged. -/
theorem shadow_agrees_after_delivery_and_deletion :
    let x : Payload := ⟨"", [1]⟩
    let y : Payload := ⟨"", [2]⟩
    let delivery : MapDelta Delta := ⟨false, [], [⟨x, .counter ⟨1⟩⟩], []⟩
    let events : List (Event (Op Payload Counter) (MapDelta Delta)) :=
      [.change (.set y {}), .change (.set x {}), .harvest false, .receive delivery,
        .change (.delete x)]
    let before := Shadowed.run ({} : DataMap Payload Counter) events
    let after := Shadowed.run ({} : DataMap Payload Counter) (events ++ [.harvest false])
    before.changed (Element.key x) = some .here ∧
      Carried before.replica before.shadow (Element.key x) ∧
      after.shadow.has x = after.replica.has x := by
  intro x y delivery events before after
  have hchanged : before.changed (Element.key x) = some .here := by decide
  have hcarried : Carried before.replica before.shadow (Element.key x) := by
    unfold Carried
    decide
  exact ⟨hchanged, hcarried,
    (shadow_agrees_on_key_iff none events false x hchanged).mpr hcarried⟩

/-- A key is added here and by a peer, and removed here: the removal cancels the addition, and the
shadow keeps the key. -/
theorem shadow_keeps_deleted_key :
    let x : Payload := ⟨"", [1]⟩
    let y : Payload := ⟨"", [2]⟩
    let delivery : MapDelta Delta := ⟨false, [], [⟨x, .counter ⟨1⟩⟩], []⟩
    let events : List (Event (Op Payload Counter) (MapDelta Delta)) :=
      [.change (.set y {}), .change (.set x {}), .receive delivery, .change (.delete x)]
    let before := Shadowed.run ({} : DataMap Payload Counter) events
    let after := Shadowed.run ({} : DataMap Payload Counter) (events ++ [.harvest false])
    before.changed (Element.key x) = some .here ∧
      after.replica.has x = false ∧ after.shadow.has x = true := by
  decide

end DataMap

end DeltaReplica
