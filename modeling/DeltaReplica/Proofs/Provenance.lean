import DeltaReplica.Proofs.Quiescence
import DeltaReplica.Proofs.Shadow

/-!
# Where the writes in a delta come from

A map of registers hands over the value of a register if a write to it is pending, and in any
case if its key is staged as added.  A pending write is always the last one made here: the
write of a peer drops it.  What is staged as added is handed over in full, so it can be the
value of a peer.

The proofs follow the value that each register was created with here, or that was last written
to it here.  A register that a delta removes is another one when it comes back.
-/

namespace DeltaReplica

/-- A delta leaves a register as it is, or drops its pending write. -/
theorem Register.apply_cases {V : Type} [Element V] (d : Delta) (r : Register V) :
    (Replicated.apply d r).state = r ∨ (Replicated.apply d r).state.Settled := by
  simp only [Replicated.apply]
  cases DeltaForm.unwrap? (δ := RegisterDelta) d with
  | none => exact Or.inl rfl
  | some e =>
      rcases merge_cases e r with ⟨hsame, -⟩ | hsettled
      · exact Or.inl hsame
      · exact Or.inr hsettled

/-- A register hands over its value with the stamp of the pending write, or in an initial harvest
with that of none. -/
theorem Register.harvest_eq_some_iff {V : Type} [Element V] {initial : Bool} {r : Register V}
    {d : Delta} : (Replicated.harvest initial r).1 = some d ↔
      ∃ t : Stamp, r.pending.or (if initial then some {} else none) = some t ∧
        d = .register ⟨some (Element.encode r.value), t.clock, t.clockValue⟩ := by
  simp only [Replicated.harvest, Tracked.harvest, harvest, Option.map_map, Option.map_eq_some_iff,
    Function.comp_def, eq_comm (b := d)]
  rfl

theorem Element.encode_injective {α : Type} [Element α] [LawfulElement α] {a b : α}
    (h : encode a = encode b) : a = b := by
  have hdecode := congrArg (decode (α := α)) h
  simpa using hdecode

namespace DataMap

variable {K V : Type}

/-- What is done to a map of registers.  Registers enter it new, and are written to through their
keys. -/
inductive RegisterUse (K V : Type)
  /-- Giving a key a new register. -/
  | set (k : K) (v : V) (stamp : Stamp)
  /-- Reaching for the register of a key. -/
  | reach (k : K)
  /-- Reaching for the register of a key, and writing to it. -/
  | write (k : K) (v : V) (stamp : Stamp)
  /-- Removing a key. -/
  | delete (k : K)
  /-- Removing all keys. -/
  | clear

section

variable [Element K]

/-- The map after a use of it. -/
def RegisterUse.perform : RegisterUse K V → DataMap K (Register V) → DataMap K (Register V)
  | .set k v stamp, m => (m.set k (.new v stamp)).result
  | .reach k, m => (m.reach k).result
  | .write k v stamp, m => (m.reach k).result.adjust k (.set v stamp)
  | .delete k, m => m.delete k
  | .clear, m => m.clear

/-- The values written to the registers of a map, after one that is written under a key. -/
def record (ck : Key) (v : Option V) (written : Key → Option V) : Key → Option V :=
  fun ck' => if ck' = ck then v else written ck'

/-- The values that registers were created with here or that were last written to them here, after
a use of the map. -/
def RegisterUse.recorded (m : DataMap K (Register V)) (written : Key → Option V) :
    RegisterUse K V → Key → Option V
  | .set k v _ => record (Element.key k) (some v) written
  | .reach k =>
    if m.has k then written
    else record (Element.key k) (((m.reach k).result.get? k).map Register.value) written
  | .write k v _ =>
    if (m.reach k).result.has k then record (Element.key k) (some v) written else written
  | .delete k => record (Element.key k) none written
  | .clear => fun _ => none

/-- What stays in a map when a delta has dropped what it names. -/
def survivors {δ : Type} (d : MapDelta δ) (m : DataMap K V) : Entries K V :=
  (Contents.dropAll K .removesMissingKey d.removed (Contents.clearIf d.cleared m.entries)).state

end

/-- A map of registers, and the values that the registers were created with here or that were last
written to them here. -/
structure Authored (K V : Type) where
  /-- The map. -/
  map : DataMap K (Register V)
  /-- The values, by key; a register that a peer has created and that was not written to here has
  none. -/
  written : Key → Option V := fun _ => none

namespace Authored

variable [Element K] [Element V]

/-- What an event does to a map of registers. -/
def step (s : Authored K V) : Event (RegisterUse K V) (MapDelta Delta) → Authored K V
  | .change use => { map := use.perform s.map, written := use.recorded s.map s.written }
  | .receive d =>
    { map := (Tracked.merge d s.map).state
      written := fun ck => if (survivors d s.map).contains ck then s.written ck else none }
  | .harvest initial => { s with map := (Tracked.harvest initial s.map).2 }

/-- An empty map after a sequence of events. -/
def run (supply : Option (K → Option (Noted (Register V))))
    (events : List (Event (RegisterUse K V) (MapDelta Delta))) : Authored K V :=
  events.foldl step { map := { supply } }

end Authored

/-- A pending write is the last one made here. -/
def Authentic (written : Key → Option V) (ck : Key) (r : Register V) : Prop :=
  r.pending.isSome = true → written ck = some r.value

theorem Authentic.of_settled {written : Key → Option V} {ck : Key} {r : Register V}
    (h : r.Settled) : Authentic written ck r := by
  intro hpending
  rw [show r.pending = none from h] at hpending
  cases hpending

theorem Authentic.record {written : Key → Option V} {ck ck' : Key} {r : Register V}
    (h : Authentic written ck r) (hne : ck ≠ ck') (v : Option V) :
    Authentic (record ck' v written) ck r := by
  intro hpending
  rw [DataMap.record, if_neg hne]
  exact h hpending

/-- A register that enters under a key, where its value is recorded, leaves the others as they
are. -/
theorem every_authentic_insert {written : Key → Option V} {es : Entries K (Register V)} {ck : Key}
    (h : ∀ e ∈ es.entries, e.1 ≠ ck → Authentic written e.1 e.2.2) (k : K) (r : Register V) :
    Contents.Every (Authentic (record ck (some r.value) written)) (es.insert ck (k, r)) := by
  refine Contents.Every.insert_of_ne (fun e he hne => (h e he hne).record hne _) ?_
  intro _
  simp [record]

theorem every_authentic_erase {written : Key → Option V} {es : Entries K (Register V)}
    (h : Contents.Every (Authentic written) es) (ck : Key) :
    Contents.Every (Authentic (record ck none written)) (es.erase ck) := by
  intro e he
  have hne : e.1 ≠ ck := of_decide_eq_true (List.mem_filter.mp he).2
  exact (h e (FinMap.mem_entries_of_mem_erase he)).record hne none

section Uses

variable [Element K] {written : Key → Option V} {m : DataMap K (Register V)}

theorem every_authentic_reach (h : Contents.Every (Authentic written) m.entries) (k : K) :
    Contents.Every (Authentic ((RegisterUse.reach k).recorded m written))
      (m.reach k).result.entries := by
  rw [RegisterUse.recorded]
  by_cases hk : m.has k = true
  · rwa [if_pos hk, reach, if_pos hk]
  · rw [if_neg hk]
    rcases reach_cases k m with hreach | ⟨f, n, -, -, -, hreach⟩
    · have hmissing : m.entries.contains (Element.key k) = false := by simpa [has] using hk
      have hget : m.get? k = none := by simp [get?, FinMap.find?_eq_none_iff.mpr hmissing]
      have herase := every_authentic_erase h (Element.key k)
      rw [FinMap.erase_of_not_contains hmissing] at herase
      rw [hreach, hget]
      exact herase
    · rw [hreach, entries_set, get?_set_self]
      exact every_authentic_insert (fun e he _ => h e he) k n.result

theorem every_authentic_write (h : Contents.Every (Authentic written) m.entries) (k : K) (v : V)
    (stamp : Stamp) :
    Contents.Every (Authentic ((RegisterUse.write k v stamp).recorded m written))
      ((RegisterUse.write k v stamp).perform m).entries := by
  have hreach := every_authentic_reach h k
  -- away from the key nothing is recorded when it is reached for
  have hothers : ∀ e ∈ (m.reach k).result.entries.entries, e.1 ≠ Element.key k →
      Authentic written e.1 e.2.2 := by
    intro e he hne hpending
    have hrecorded := hreach e he hpending
    rw [RegisterUse.recorded] at hrecorded
    split at hrecorded
    · exact hrecorded
    · rwa [record, if_neg hne] at hrecorded
  rw [RegisterUse.recorded, RegisterUse.perform, has]
  cases hf : (m.reach k).result.entries.find? (Element.key k) with
  | some e =>
      rw [if_pos (FinMap.contains_of_find?_eq_some hf), adjust, hf]
      exact every_authentic_insert hothers e.1 (Register.set v stamp e.2)
  | none =>
      have hmissing := FinMap.find?_eq_none_iff.mp hf
      rw [if_neg (by simp [hmissing]), adjust, hf]
      intro e he
      refine hothers e he fun hkey => ?_
      have hthere : (m.reach k).result.entries.contains (Element.key k) = true :=
        FinMap.contains_iff_exists_mem.mpr ⟨e.2, hkey ▸ he⟩
      rw [hmissing] at hthere
      cases hthere

theorem every_authentic_perform (use : RegisterUse K V)
    (h : Contents.Every (Authentic written) m.entries) :
    Contents.Every (Authentic (use.recorded m written)) (use.perform m).entries := by
  cases use with
  | set k v stamp =>
      rw [RegisterUse.perform, entries_set]
      exact every_authentic_insert (fun e he _ => h e he) k (Register.new v stamp)
  | reach k => exact every_authentic_reach h k
  | write k v stamp => exact every_authentic_write h k v stamp
  | delete k =>
      have herase := every_authentic_erase h (Element.key k)
      rwa [RegisterUse.perform, entries_delete]
  | clear =>
      rw [RegisterUse.perform, entries_clear]
      exact .empty

theorem sound_perform (use : RegisterUse K V) (h : m.Sound fun _ => True) :
    (use.perform m).Sound fun _ => True := by
  cases use with
  | set k v stamp => exact h.set k trivial
  | reach k => exact h.reach k fun _ _ _ _ _ => trivial
  | write k v stamp =>
      have hreach := h.reach k fun _ _ _ _ _ => trivial
      exact hreach.adjust k fun _ _ _ => trivial
  | delete k => exact h.delete k
  | clear => exact h.clear

variable [Element V]

theorem upholds_authentic (written : Key → Option V) (e : EntryDelta Delta) :
    (changeOf (V := Register V) e).Upholds (Authentic written) := by
  constructor
  · intro ck r hr
    have hcases := Register.apply_cases e.delta r
    rcases hcases with hsame | hsettled
    · rwa [changeOf, hsame]
    · exact .of_settled hsettled
  · intro ck r hcreate hok
    exact .of_settled (Register.settles.replicated.created e.delta r hcreate hok)

/-- What a delta drops is not written to here any more, and what it leaves or creates has the write
of a peer, or its own. -/
theorem every_authentic_merge (h : Contents.Every (Authentic written) m.entries)
    (d : MapDelta Delta) :
    Contents.Every
      (Authentic fun ck => if (survivors d m).contains ck then written ck else none)
      (Tracked.merge d m).state.entries := by
  have hdrop : Contents.Every (Authentic written) (survivors d m) :=
    (h.clearIf d.cleared).dropAll _ d.removed
  have hkept : Contents.Every
      (Authentic fun ck => if (survivors d m).contains ck then written ck else none)
      (survivors d m) := by
    intro e he hpending
    have hthere : (survivors d m).contains e.1 = true :=
      FinMap.contains_iff_exists_mem.mpr ⟨e.2, he⟩
    have hwritten : written e.1 = some e.2.2.value := hdrop e he hpending
    simp only [hthere, if_true, hwritten]
  exact every_merge_of_dropAll hkept (fun e _ => upholds_authentic _ e)
    fun e _ => upholds_authentic _ e

end Uses

namespace Authored

variable [Element K] [Element V] {s : Authored K V}

/-- The map is sound, and its pending writes are the last ones made here. -/
structure Valid (s : Authored K V) : Prop where
  sound : s.map.Sound fun _ => True
  authentic : Contents.Every (Authentic s.written) s.map.entries

theorem Valid.step (h : s.Valid) (e : Event (RegisterUse K V) (MapDelta Delta)) :
    (s.step e).Valid := by
  have hkeeps := DataMap.keeps_sound (K := K) (Replicated.keeps_true (σ := Register V))
  cases e with
  | change use => exact ⟨sound_perform use h.sound, every_authentic_perform use h.authentic⟩
  | receive d => exact ⟨hkeeps.merge d _ h.sound, every_authentic_merge h.authentic d⟩
  | harvest initial =>
      refine ⟨hkeeps.harvest initial _ h.sound, ?_⟩
      rw [Authored.step, snd_harvest]
      intro e he
      obtain ⟨e', -, rfl⟩ := List.mem_map.mp he
      exact .of_settled (Register.settles.replicated.harvest (s.map.added.contains e'.1) e'.2.2)

theorem valid_run (supply : Option (K → Option (Noted (Register V))))
    (events : List (Event (RegisterUse K V) (MapDelta Delta))) : (run supply events).Valid :=
  List.foldlRecOn events Authored.step (motive := Valid) ⟨.empty false supply, .empty⟩
    fun _ hs e _ => hs.step e

end Authored

/-! ## What a delta carries -/

section Carries

variable [Element K] [Element V]

/-- Entries of a delta carry a write of a value to the register of a key. -/
def Carries (K : Type) [Element K] (es : List (EntryDelta Delta)) (ck : Key) (v : V) : Prop :=
  ∃ (k : K) (t : Stamp), Element.key k = ck ∧
    ⟨Element.encode k, .register ⟨some (Element.encode v), t.clock, t.clockValue⟩⟩ ∈ es

theorem carries_append_iff {es es' : List (EntryDelta Delta)} {ck : Key} {v : V} :
    Carries K (es ++ es') ck v ↔ Carries K es ck v ∨ Carries K es' ck v := by
  simp only [Carries, List.mem_append, and_or_left, exists_or]

variable [LawfulElement K] [LawfulElement V]

/-- An entry of a delta stands for a register whose key is staged as added, or for one with a
pending write, and carries its value. -/
theorem carries_changes_iff {P : Register V → Prop} {m : DataMap K (Register V)} (hm : m.Sound P)
    (isAdded : Bool) {ck : Key} {v : V} :
    Carries K (Contents.entryDeltas (m.changes isAdded)) ck v ↔
      ∃ r, m.entries.valueAt? ck = some r ∧ m.added.contains ck = isAdded ∧
        (isAdded = true ∨ r.pending.isSome = true) ∧ r.value = v := by
  have hindexed := indexedBy_changes hm isAdded
  constructor
  · rintro ⟨k, t, hk, hmem⟩
    obtain ⟨ck', k', d, hmem, heq⟩ := Contents.mem_entryDeltas hmem
    obtain ⟨hkey, rfl⟩ := EntryDelta.mk.inj heq
    have hsame : k' = k := (Element.encode_injective hkey).symm
    have hck : ck' = ck := by
      rw [← hk, ← hsame]
      exact (hindexed.key_eq _ hmem).symm
    subst hck
    have hfind := hindexed.ordered.find?_eq_some_iff.mpr hmem
    have hvalue : (m.changes isAdded).valueAt? ck' = some (some _) :=
      FinMap.valueAt?_eq_some_iff.mpr ⟨k', hfind⟩
    rw [valueAt?_changes, Option.map_eq_some_iff] at hvalue
    obtain ⟨r, hr, hdelta⟩ := hvalue
    split at hdelta
    · next hadded =>
        obtain ⟨t', ht', hwrite⟩ := Register.harvest_eq_some_iff.mp hdelta
        injection hwrite with hwrite
        have hv : v = r.value := by
          injection hwrite with hwrite
          exact Element.encode_injective (Option.some.inj hwrite)
        refine ⟨r, hr, hadded, ?_, hv.symm⟩
        cases isAdded with
        | true => exact Or.inl rfl
        | false =>
            have hpending : r.pending = some t' := by simpa using ht'
            exact Or.inr (by simp [hpending])
    · cases hdelta
  · rintro ⟨r, hr, hadded, hstamp, rfl⟩
    obtain ⟨k, hf⟩ := FinMap.valueAt?_eq_some_iff.mp hr
    obtain ⟨t, ht⟩ : ∃ t : Stamp, r.pending.or (if isAdded then some {} else none) = some t := by
      cases hpending : r.pending with
      | some t => exact ⟨t, rfl⟩
      | none =>
          rw [hpending] at hstamp
          have hadd : isAdded = true := hstamp.resolve_right (by simp)
          exact ⟨{}, by simp [hadd]⟩
    have hdelta := Register.harvest_eq_some_iff.mpr ⟨t, ht, rfl⟩
    have hchange : (m.changes isAdded).find? ck =
        some (k, (Replicated.harvest isAdded r).1) := by
      rw [changes, FinMap.find?_map, hf, Option.map_some, if_pos hadded]
    rw [hdelta] at hchange
    have hmem := FinMap.mem_entries_of_find?_eq_some hchange
    exact ⟨k, t, hm.contents.indexed.key_of_find? hf, Contents.mem_entryDeltas_of_mem hmem⟩

theorem carries_added_iff {P : Register V → Prop} {m : DataMap K (Register V)} (hm : m.Sound P)
    {ck : Key} {v : V} : Carries K m.delta.added ck v ↔
      ∃ r, m.entries.valueAt? ck = some r ∧ m.added.contains ck = true ∧ r.value = v := by
  rw [delta, carries_changes_iff hm true]
  simp

theorem carries_updated_iff {P : Register V → Prop} {m : DataMap K (Register V)} (hm : m.Sound P)
    {ck : Key} {v : V} : Carries K m.delta.updated ck v ↔
      ∃ r, m.entries.valueAt? ck = some r ∧ m.added.contains ck = false ∧
        r.pending.isSome = true ∧ r.value = v := by
  rw [delta, carries_changes_iff hm false]
  simp

/-- Among the registers whose keys are not staged as added, only those with a write of this replica
are in a delta. -/
theorem written_of_carries_updated {s : Authored K V} (h : s.Valid) {ck : Key} {v : V}
    (hcarries : Carries K s.map.delta.updated ck v) : s.written ck = some v := by
  obtain ⟨r, hr, -, hpending, rfl⟩ := (carries_updated_iff h.sound).mp hcarries
  exact h.authentic.of_valueAt? hr hpending

/-- In every run, what the next delta carries are values written here, exactly if each register
whose key is staged as added and that has lost its pending write to a peer has the value that was
written to it here last. -/
theorem harvest_carries_own_writes_iff (supply : Option (K → Option (Noted (Register V))))
    (events : List (Event (RegisterUse K V) (MapDelta Delta))) (initial : Bool) :
    let s := Authored.run supply events
    (∀ d, (Tracked.harvest initial s.map).1 = some d →
        ∀ ck v, Carries K (d.added ++ d.updated) ck v → s.written ck = some v) ↔
      ∀ ck r, s.map.added.contains ck = true → s.map.entries.valueAt? ck = some r →
        r.pending = none → s.written ck = some r.value := by
  intro s
  have hs : s.Valid := Authored.valid_run supply events
  constructor
  · intro hown ck r hadded hr hpending
    have hcarries : Carries K s.map.delta.added ck r.value :=
      (carries_added_iff hs.sound).mpr ⟨r, hr, hadded, rfl⟩
    obtain ⟨k, t, -, hmem⟩ := id hcarries
    have hsome : (Tracked.harvest initial s.map).1 = some s.map.delta :=
      harvest_eq_delta_of_added initial (List.ne_nil_of_mem hmem)
    exact hown _ hsome ck r.value (carries_append_iff.mpr (Or.inl hcarries))
  · intro hstaged d hd ck v hcarries
    rw [eq_delta_of_harvest hd] at hcarries
    rcases carries_append_iff.mp hcarries with hadded | hupdated
    · obtain ⟨r, hr, hstage, rfl⟩ := (carries_added_iff hs.sound).mp hadded
      cases hpending : r.pending with
      | none => exact hstaged ck r hstage hr hpending
      | some t => exact hs.authentic.of_valueAt? hr (by simp [hpending])
    · exact written_of_carries_updated hs hupdated

/-- A peer writes to a register that it knows, and then the register is written to here: the next
delta carries the write of this replica. -/
theorem harvest_carries_write_after_delivery :
    let k : Payload := ⟨"", [1]⟩
    let a : Payload := ⟨"", [2]⟩
    let b : Payload := ⟨"", [3]⟩
    let events : List (Event (RegisterUse Payload Payload) (MapDelta Delta)) :=
      [.change (.set k a {}), .harvest false,
        .receive ⟨false, [], [], [⟨k, .register ⟨some b, .standard, 0⟩⟩]⟩,
        .change (.write k a { clock := .reverse })]
    let s := Authored.run none events
    ∃ d, (Tracked.harvest false s.map).1 = some d ∧
      Carries Payload d.updated (Element.key k) a ∧
      ∀ ck v, Carries Payload (d.added ++ d.updated) ck v → s.written ck = some v := by
  intro k a b events s
  have hsome : (Tracked.harvest false s.map).1.isSome = true := by decide
  obtain ⟨d, hd⟩ := Option.isSome_iff_exists.mp hsome
  have hpending : (s.map.get? k).map Register.pending = some (some { clock := .reverse }) := by
    decide
  have hvalue : (s.map.get? k).map Register.value = some a := by decide
  obtain ⟨r, hr, hra⟩ := Option.map_eq_some_iff.mp hvalue
  have hcarries : Carries Payload d.updated (Element.key k) a := by
    rw [eq_delta_of_harvest hd]
    refine (carries_updated_iff (Authored.valid_run none events).sound).mpr
      ⟨r, hr, by decide, ?_, hra⟩
    rw [hr, Option.map_some] at hpending
    simp [Option.some.inj hpending]
  refine ⟨d, hd, hcarries, ?_⟩
  refine (harvest_carries_own_writes_iff none events false).mpr ?_ d hd
  intro ck r hadded
  -- the key was staged as added before the first harvest only
  cases hadded

/-- A peer writes to a register that is new here and still staged as added: the next delta carries
the write of the peer. -/
theorem harvest_carries_write_of_peer :
    let k : Payload := ⟨"", [1]⟩
    let a : Payload := ⟨"", [2]⟩
    let b : Payload := ⟨"", [3]⟩
    let events : List (Event (RegisterUse Payload Payload) (MapDelta Delta)) :=
      [.change (.set k a {}), .receive ⟨false, [], [⟨k, .register ⟨some b, .standard, 0⟩⟩], []⟩]
    let s := Authored.run none events
    ∃ d, (Tracked.harvest false s.map).1 = some d ∧
      Carries Payload (d.added ++ d.updated) (Element.key k) b ∧
      s.written (Element.key k) = some a ∧ a ≠ b := by
  intro k a b events s
  have hharvest : (Tracked.harvest false s.map).1 = some s.map.delta := rfl
  have hcarries : Carries Payload (s.map.delta.added ++ s.map.delta.updated) (Element.key k) b :=
    ⟨k, {}, rfl, List.mem_singleton.mpr rfl⟩
  exact ⟨s.map.delta, hharvest, hcarries, rfl, by decide⟩

end Carries

end DataMap

end DeltaReplica
