import DeltaReplica.Proofs.HollowDeltas
import DeltaReplica.Proofs.Quiescence
import DeltaReplica.Proofs.Shadow
import Mathlib.Data.List.Induction

/-!
# Writes that a register loses

The last write here is pending until it is handed over or the write of a peer takes its place.  So
when no write is pending, the value of a register should be known to its peers: a delta that was
handed over here, or merged, should carry it.

A delta without a value is no write, but merging it drops a pending one all the same, and the value
stays.  This is the only way to lose a write: the value is known whenever no write is pending
exactly if each delta without a value finds no pending write of a value that is still unknown
(`Register.remembers_run_iff`).  A pending write is the last one made here in any case, and is
handed over with its own stamp.

Each register in a map of registers has a journal of its own, whose deltas are entries in those of
the map, so that the law holds of it as well (`RegisterMap.Journal.known_of_settled`).
-/

namespace DeltaReplica

variable {V : Type}

/-- The delta is a write of the value. -/
def RegisterDelta.Writes [Element V] (d : RegisterDelta) (v : V) : Prop :=
  ∃ p, d.value = some p ∧ p.read Element.decode = .ok v

namespace Register

/-- A register with what has been written to it here, and what it has exchanged with its peers. -/
structure Journal (V : Type) where
  /-- The register. -/
  register : Register V
  /-- The last value that was written here, with the stamp of the write. -/
  written : V × Stamp
  /-- The deltas that the register has handed over. -/
  harvested : List RegisterDelta := []
  /-- The deltas of peers, also those that cannot be read. -/
  applied : List RegisterDelta := []

variable [Element V]

/-- A delta without a value drops the pending write, one with a value takes its place, and one that
cannot be read leaves the register as it is. -/
theorem state_merge_cases (d : RegisterDelta) (r : Register V) :
    d.value = none ∧ (Tracked.merge d r).state = { r with pending := none } ∨
      (∃ v, d.Writes v ∧ (Tracked.merge d r).state = ⟨v, none⟩) ∨
        d.value ≠ none ∧ (Tracked.merge d r).state = r := by
  simp only [Tracked.merge, merge]
  cases hd : d.value with
  | none => exact Or.inl ⟨rfl, rfl⟩
  | some p =>
      cases hp : p.read (Element.decode (α := V)) with
      | ok v => exact Or.inr (Or.inl ⟨v, ⟨p, hd, hp⟩, by simp [hp, Outcome.done]⟩)
      | error e => exact Or.inr (Or.inr ⟨Option.some_ne_none p, by simp [hp, Outcome.withResult]⟩)

namespace Journal

/-- The journal of a new register; one that is created for a delta is new as well. -/
def start (v : V) (stamp : Stamp) : Journal V where
  register := new v stamp
  written := (v, stamp)

/-- The journal after an event. -/
def step (j : Journal V) : Event (Op V) RegisterDelta → Journal V
  | .change (.set v stamp) =>
    { j with register := (Op.set v stamp).perform j.register, written := (v, stamp) }
  | .receive d =>
    { j with register := (Tracked.merge d j.register).state, applied := j.applied ++ [d] }
  | .harvest initial =>
    { j with
      register := (Tracked.harvest initial j.register).2
      harvested := j.harvested ++ (Tracked.harvest initial j.register).1.toList }

/-- The journal of a new register after a sequence of events. -/
def run (v : V) (stamp : Stamp) (events : List (Event (Op V) RegisterDelta)) : Journal V :=
  events.foldl step (start v stamp)

theorem run_snoc (v : V) (stamp : Stamp) (events : List (Event (Op V) RegisterDelta))
    (e : Event (Op V) RegisterDelta) :
    run v stamp (events ++ [e]) = (run v stamp events).step e := by
  simp [run, List.foldl_append]

/-- A delta that was exchanged with the peers carries the value of the register. -/
def Known (j : Journal V) : Prop :=
  ∃ d, (d ∈ j.harvested ∨ d ∈ j.applied) ∧ d.Writes j.register.value

/-- No write is forgotten: the value of the register is known unless a write is pending, and a
pending write is the last one here, which the next harvest hands over with its stamp. -/
structure Remembers (j : Journal V) : Prop where
  known : j.register.pending = none → j.Known
  latest : j.register.pending ≠ none → ∀ initial, (Tracked.harvest initial j.register).1 =
    some ⟨some (Element.encode j.written.1), j.written.2.clock, j.written.2.clockValue⟩

variable {j : Journal V}

/-! ## Pending writes -/

/-- A pending write is the last one here. -/
def Latest (j : Journal V) : Prop :=
  ∀ t, j.register.pending = some t → j.written = (j.register.value, t)

theorem Latest.step (h : j.Latest) (e : Event (Op V) RegisterDelta) : (j.step e).Latest := by
  intro t ht
  cases e with
  | change op =>
      cases op with
      | set v stamp =>
          obtain rfl := Option.some.inj ht
          rfl
  | receive d =>
      simp only [Journal.step] at ht ⊢
      rcases state_merge_cases d j.register with ⟨-, hstate⟩ | ⟨v, -, hstate⟩ | ⟨-, hstate⟩
      · rw [hstate] at ht
        cases ht
      · rw [hstate] at ht
        cases ht
      · rw [hstate] at ht ⊢
        exact h t ht
  | harvest initial => cases ht

theorem latest_run (v : V) (stamp : Stamp) (events : List (Event (Op V) RegisterDelta)) :
    (run v stamp events).Latest := by
  refine List.foldlRecOn events Journal.step (motive := Latest) (fun t ht => ?_)
    fun j hj e _ => hj.step e
  obtain rfl := Option.some.inj ht
  rfl

theorem Latest.harvest (h : j.Latest) (hpending : j.register.pending ≠ none) (initial : Bool) :
    (Tracked.harvest initial j.register).1 =
      some ⟨some (Element.encode j.written.1), j.written.2.clock, j.written.2.clockValue⟩ := by
  obtain ⟨t, ht⟩ := Option.ne_none_iff_exists'.mp hpending
  rw [h t ht]
  simp [Tracked.harvest, Register.harvest, ht]

theorem remembers_iff (h : j.Latest) : j.Remembers ↔ (j.register.pending = none → j.Known) :=
  ⟨Remembers.known, fun hknown => ⟨hknown, h.harvest⟩⟩

/-! ## Known values -/

/-- A value that is known stays so as long as it stays. -/
theorem Known.step (h : j.Known) {e : Event (Op V) RegisterDelta}
    (hvalue : (j.step e).register.value = j.register.value) : (j.step e).Known := by
  obtain ⟨d, hd, hwrites⟩ := h
  refine ⟨d, ?_, hvalue ▸ hwrites⟩
  cases e with
  | change op =>
      cases op with
      | set v stamp => exact hd
  | receive d' => exact hd.imp_right (List.mem_append_left _)
  | harvest initial => exact hd.imp_left (List.mem_append_left _)

theorem register_receive {d : RegisterDelta} (hd : d.value = none) :
    (j.step (.receive d)).register = { j.register with pending := none } := by
  simp [step, Tracked.merge, merge, hd, Outcome.done]

/-- A delta without a value makes nothing known. -/
theorem known_receive_iff {d : RegisterDelta} (hd : d.value = none) :
    (j.step (.receive d)).Known ↔ j.Known := by
  have hvalue : (j.step (.receive d)).register.value = j.register.value := by
    rw [register_receive hd]
  refine ⟨?_, fun h => h.step hvalue⟩
  rintro ⟨d', hmem | hmem, hwrites⟩
  · exact ⟨d', Or.inl hmem, hvalue ▸ hwrites⟩
  · rcases List.mem_append.mp hmem with hmem | hmem
    · exact ⟨d', Or.inr hmem, hvalue ▸ hwrites⟩
    · obtain ⟨p, hp, -⟩ := hwrites
      rw [List.mem_singleton.mp hmem, hd] at hp
      cases hp

/-- What is handed over is known. -/
theorem known_harvest [LawfulElement V] {initial : Bool}
    (h : j.register.pending ≠ none ∨ j.Known) : (j.step (.harvest initial)).Known := by
  rcases h with hpending | hknown
  · obtain ⟨t, ht⟩ := Option.ne_none_iff_exists'.mp hpending
    refine ⟨⟨some (Element.encode j.register.value), t.clock, t.clockValue⟩, Or.inl ?_, ?_⟩
    · simp [step, Tracked.harvest, harvest, ht]
    · exact ⟨_, rfl, Payload.read_encode _⟩
  · exact hknown.step rfl

/-- The only event that loses a write is a delta without a value. -/
theorem known_step_iff [LawfulElement V] (h : j.register.pending = none → j.Known)
    (e : Event (Op V) RegisterDelta) :
    ((j.step e).register.pending = none → (j.step e).Known) ↔
      ∀ d, e = .receive d → d.value = none → j.register.pending ≠ none → j.Known := by
  constructor
  · rintro hstep d rfl hd -
    refine (known_receive_iff hd).mp (hstep ?_)
    rw [register_receive hd]
  · intro hspared hnone
    cases e with
    | change op =>
        cases op with
        | set v stamp => cases hnone
    | receive d =>
        rcases state_merge_cases d j.register with ⟨hd, -⟩ | ⟨v, hwrites, hstate⟩ | ⟨-, hstate⟩
        · by_cases hpending : j.register.pending = none
          · exact (known_receive_iff hd).mpr (h hpending)
          · exact (known_receive_iff hd).mpr (hspared d rfl hd hpending)
        · refine ⟨d, Or.inr (List.mem_append_right _ List.mem_cons_self), ?_⟩
          simpa [step, hstate] using hwrites
        · have hsame : (j.step (.receive d)).register = j.register := hstate
          exact (h (hsame ▸ hnone)).step (congrArg value hsame)
    | harvest initial =>
        by_cases hpending : j.register.pending = none
        · exact known_harvest (Or.inr (h hpending))
        · exact known_harvest (Or.inl hpending)

theorem mem_applied_run {v : V} {stamp : Stamp} {events : List (Event (Op V) RegisterDelta)}
    {d : RegisterDelta} (h : .receive d ∈ events) : d ∈ (run v stamp events).applied := by
  induction events using List.reverseRecOn with
  | nil => cases h
  | append_singleton events e ih =>
      rw [run_snoc]
      rcases List.mem_append.mp h with hbefore | hlast
      · cases e with
        | change op =>
            cases op with
            | set v stamp => exact ih hbefore
        | receive d' => exact List.mem_append_left _ (ih hbefore)
        | harvest initial => exact ih hbefore
      · obtain rfl := List.mem_singleton.mp hlast
        exact List.mem_append_right _ List.mem_cons_self

/-- If no write is lost on the way, the value is known whenever no write is pending. -/
theorem known_run [LawfulElement V] {v : V} {stamp : Stamp}
    {events : List (Event (Op V) RegisterDelta)}
    (hspared : ∀ before d after, events = before ++ .receive d :: after → d.value = none →
      (run v stamp before).register.pending ≠ none → (run v stamp before).Known) :
    (run v stamp events).register.pending = none → (run v stamp events).Known := by
  induction events using List.reverseRecOn with
  | nil => exact fun hnone => nomatch hnone
  | append_singleton events e ih =>
      rw [run_snoc]
      refine (known_step_iff (ih fun before d after hsplit => ?_) e).mpr ?_
      · exact hspared before d (after ++ [e]) (by simp [hsplit])
      · rintro d rfl
        exact hspared events d [] rfl

end Journal

/-! ## The law -/

open Journal in
/-- A register remembers its writes all along a run exactly if each delta without a value that is
merged on the way finds no pending write of a value that is still unknown. -/
theorem remembers_run_iff [LawfulElement V] (v : V) (stamp : Stamp)
    (events : List (Event (Op V) RegisterDelta)) :
    (∀ before after, events = before ++ after → (run v stamp before).Remembers) ↔
      ∀ before d after, events = before ++ .receive d :: after → d.value = none →
        (run v stamp before).register.pending ≠ none → (run v stamp before).Known := by
  constructor
  · intro hall before d after hsplit
    have hbefore := hall before _ hsplit
    have hafter : (run v stamp (before ++ [.receive d])).Remembers := by
      refine hall _ after ?_
      rw [hsplit, List.append_assoc, List.singleton_append]
    rw [run_snoc] at hafter
    exact (known_step_iff hbefore.known _).mp hafter.known d rfl
  · intro hspared before after hsplit
    refine (remembers_iff (latest_run v stamp before)).mpr (known_run fun before' d after' h => ?_)
    exact hspared before' d (after' ++ after) (by simp [hsplit, h])

open Journal in
/-- The write that is lost repeats a value that was handed over before. -/
theorem remembers_repeated_value :
    let a : Payload := ⟨"", [1]⟩
    let events : List (Event (Op Payload) RegisterDelta) :=
      [.harvest false, .change (.set a ⟨.custom, 42⟩), .receive ⟨none, .standard, 0⟩]
    LawfulElement Payload ∧ (run a {} events).register.pending = none ∧
      (run a {} events).written = (a, ⟨.custom, 42⟩) ∧
      ∀ before after, events = before ++ after → (run a {} before).Remembers := by
  intro a events
  refine ⟨inferInstance, rfl, rfl, (remembers_run_iff a {} events).mpr ?_⟩
  intro before d after hsplit _ _
  have hbefore : before = [.harvest false, .change (.set a ⟨.custom, 42⟩)] := by
    rcases before with _ | ⟨b, _ | ⟨b', _ | ⟨b'', rest⟩⟩⟩ <;> simp_all [events]
  subst hbefore
  exact ⟨⟨some a, .standard, 0⟩, Or.inl List.mem_cons_self, a, rfl, rfl⟩

open Journal in
/-- A delta without a value comes before the first harvest, and the first value of the register is
never handed over. -/
theorem forgets_first_value :
    let a : Payload := ⟨"", [1]⟩
    let j := run a {} [.receive ⟨none, .standard, 0⟩]
    j.register.value = a ∧ j.register.clock? = none ∧ j.harvested = [] ∧
      (Tracked.harvest false j.register).1 = none ∧ ¬j.Remembers := by
  intro a j
  refine ⟨rfl, rfl, rfl, rfl, fun h => ?_⟩
  obtain ⟨d, hmem | hmem, p, hp, -⟩ := h.known rfl
  · cases hmem
  · rw [List.mem_singleton.mp hmem] at hp
    cases hp

end Register

/-! ## Registers in a map -/

theorem Register.exists_of_create_ok [Element V] {d : RegisterDelta} {r : Register V}
    (h : Tracked.create d = .ok r) : ∃ v, r = .new v {} := by
  simp only [Tracked.create, create] at h
  cases hd : d.value with
  | none => simp [hd] at h
  | some p =>
      cases hp : p.read (Element.decode (α := V)) with
      | error e => simp [hd, hp, Except.map] at h
      | ok v => exact ⟨v, by simpa [hd, hp, Except.map, eq_comm] using h⟩

/-- An updated entry of the delta of a map is a change of the value of a key. -/
def UniformMapDelta.Updates (K : Type) [Element K] {δ : Type} (D : UniformMapDelta δ) (ck : Key)
    (d : δ) : Prop :=
  ∃ e ∈ D.updated, e.delta = d ∧ ∃ k : K, e.key.read Element.decode = .ok k ∧ Element.key k = ck

namespace RegisterMap

variable {K : Type}

/-- A map of registers, and what it has exchanged with its peers. -/
structure Journal (K V : Type) where
  /-- The map. -/
  map : RegisterMap K V := {}
  /-- The deltas that the map has handed over. -/
  harvested : List (UniformMapDelta RegisterDelta) := []
  /-- The deltas of peers, also those that fail. -/
  applied : List (UniformMapDelta RegisterDelta) := []

namespace Journal

variable [Element K] [Element V]

/-- The journal after an event. -/
def step (J : Journal K V) : Event (Op K V) (UniformMapDelta RegisterDelta) → Journal K V
  | .change op => { J with map := op.perform J.map }
  | .receive D => { J with map := (Tracked.merge D J.map).state, applied := J.applied ++ [D] }
  | .harvest initial =>
    { J with
      map := (Tracked.harvest initial J.map).2
      harvested := J.harvested ++ (Tracked.harvest initial J.map).1.toList }

/-- The journal of an empty map after a sequence of events. -/
def run (events : List (Event (Op K V) (UniformMapDelta RegisterDelta))) : Journal K V :=
  events.foldl step {}

/-- A register under a key has a journal of its own, whose deltas are entries for the key in those
of the map. -/
def Holds (J : Journal K V) (ck : Key) (r : Register V) : Prop :=
  ∃ v stamp events, (Register.Journal.run v stamp events).register = r ∧
    (∀ d ∈ (Register.Journal.run v stamp events).harvested, ∃ D ∈ J.harvested, D.Updates K ck d) ∧
    ∀ d ∈ (Register.Journal.run v stamp events).applied, ∃ D ∈ J.applied, D.Updates K ck d

namespace Holds

variable {J J' : Journal K V} {ck : Key} {r : Register V}

theorem mono (h : J.Holds ck r) (hharvested : J.harvested ⊆ J'.harvested)
    (happlied : J.applied ⊆ J'.applied) : J'.Holds ck r := by
  obtain ⟨v, stamp, events, hr, hh, ha⟩ := h
  refine ⟨v, stamp, events, hr, fun d hd => ?_, fun d hd => ?_⟩
  · obtain ⟨D, hD, hupdates⟩ := hh d hd
    exact ⟨D, hharvested hD, hupdates⟩
  · obtain ⟨D, hD, hupdates⟩ := ha d hd
    exact ⟨D, happlied hD, hupdates⟩

theorem new (v : V) (stamp : Stamp) : J.Holds ck (.new v stamp) :=
  ⟨v, stamp, [], rfl, by simp [Register.Journal.run, Register.Journal.start],
    by simp [Register.Journal.run, Register.Journal.start]⟩

theorem set (h : J.Holds ck r) (v : V) (stamp : Stamp) : J.Holds ck (r.set v stamp) := by
  obtain ⟨v', stamp', events, rfl, hh, ha⟩ := h
  refine ⟨v', stamp', events ++ [.change (.set v stamp)], ?_⟩
  rw [Register.Journal.run_snoc]
  exact ⟨rfl, hh, ha⟩

theorem receive (h : J.Holds ck r) {D : UniformMapDelta RegisterDelta} (hD : D ∈ J.applied)
    {d : RegisterDelta} (hd : D.Updates K ck d) : J.Holds ck (Tracked.merge d r).state := by
  obtain ⟨v, stamp, events, rfl, hh, ha⟩ := h
  refine ⟨v, stamp, events ++ [.receive d], ?_⟩
  rw [Register.Journal.run_snoc]
  refine ⟨rfl, hh, List.forall_mem_append.mpr ⟨ha, ?_⟩⟩
  simpa using ⟨D, hD, hd⟩

theorem harvest (h : J.Holds ck r)
    (hd : ∀ d, (Tracked.harvest false r).1 = some d → ∃ D ∈ J.harvested, D.Updates K ck d) :
    J.Holds ck (Tracked.harvest false r).2 := by
  obtain ⟨v, stamp, events, rfl, hh, ha⟩ := h
  refine ⟨v, stamp, events ++ [.harvest false], ?_⟩
  rw [Register.Journal.run_snoc]
  refine ⟨rfl, List.forall_mem_append.mpr ⟨hh, fun d hmem => hd d ?_⟩, ha⟩
  simpa using hmem

end Holds

/-- The map is sound, and each of its registers has a journal of its own. -/
structure Valid (J : Journal K V) : Prop where
  sound : J.map.Sound fun _ => True
  holds : Contents.Every J.Holds J.map.entries

theorem Valid.change {J : Journal K V} (h : J.Valid) (op : Op K V) :
    (J.step (.change op)).Valid := by
  refine ⟨op.sound h.sound, ?_⟩
  cases op with
  | set k v stamp =>
      exact UniformMap.every_modify h.holds k (.new v stamp) fun _ hr => hr.set v stamp
  | delete k => exact UniformMap.every_delete h.holds k
  | clear =>
      rw [step, Op.perform, UniformMap.entries_clear]
      exact .empty

theorem Valid.receive {J : Journal K V} (h : J.Valid) (D : UniformMapDelta RegisterDelta) :
    (J.step (.receive D)).Valid := by
  refine ⟨h.sound.merge Tracked.keeps_true D, ?_⟩
  have hD : D ∈ (J.step (.receive D)).applied := List.mem_append_right _ List.mem_cons_self
  have hholds : Contents.Every (J.step (.receive D)).Holds J.map.entries := fun e he =>
    (h.holds e he).mono (List.Subset.refl _) (List.subset_append_left _ _)
  refine UniformMap.every_merge hholds D fun e he => ⟨fun k hk r hr => ?_, fun k hk r hr _ => ?_⟩
  · exact hr.receive hD ⟨e, he, rfl, k, hk, rfl⟩
  · obtain ⟨v, rfl⟩ := Register.exists_of_create_ok hr
    exact (Holds.new v {}).receive hD ⟨e, he, rfl, k, hk, rfl⟩

theorem Valid.harvest [LawfulElement K] {J : Journal K V} (h : J.Valid) (initial : Bool) :
    (J.step (.harvest initial)).Valid := by
  refine ⟨h.sound.harvest Tracked.keeps_true initial, ?_⟩
  have hholds : Contents.Every (J.step (.harvest initial)).Holds J.map.entries := fun e he =>
    (h.holds e he).mono (List.subset_append_left _ _) (List.Subset.refl _)
  have hkept : (J.step (.harvest initial)).map.entries = J.map.kept := by
    rw [step, UniformMap.snd_harvest]
  rw [hkept]
  intro e he
  obtain ⟨e', he', rfl⟩ := List.mem_map.mp he
  refine (hholds e' he').harvest fun d hd => ?_
  obtain ⟨hdelta, hmem⟩ := UniformMap.harvest_of_change he' hd initial
  refine ⟨J.map.delta, ?_, _, hmem, rfl, e'.2.1, Payload.read_encode _, ?_⟩
  · simp [step, hdelta]
  · exact h.sound.contents.indexed.key_eq e' he'

theorem valid_run [LawfulElement K]
    (events : List (Event (Op K V) (UniformMapDelta RegisterDelta))) : (run events).Valid := by
  refine List.foldlRecOn events step (motive := Valid) ⟨.empty false, .empty⟩ fun J hJ e _ => ?_
  cases e with
  | change op => exact hJ.change op
  | receive D => exact hJ.receive D
  | harvest initial => exact hJ.harvest initial

/-- The law for the registers in a map.  If the entries of all deltas of peers carry values, then
the value of a register without a pending write was carried by an entry for its key. -/
theorem known_of_settled [LawfulElement K] [LawfulElement V]
    {events : List (Event (Op K V) (UniformMapDelta RegisterDelta))}
    (hvalues : ∀ D ∈ (run events).applied, ∀ e ∈ D.updated, e.delta.value ≠ none)
    {k : K} {r : Register V} (hr : (run events).map.get? k = some r) (hsettled : r.Settled) :
    ∃ D, (D ∈ (run events).harvested ∨ D ∈ (run events).applied) ∧
      ∃ d, D.Updates K (Element.key k) d ∧ d.Writes r.value := by
  obtain ⟨v, stamp, events', rfl, hharvested, happlied⟩ := (valid_run events).holds.of_valueAt? hr
  have hspared (before : List (Event (Register.Op V) RegisterDelta)) (d : RegisterDelta)
      (after : List (Event (Register.Op V) RegisterDelta))
      (hsplit : events' = before ++ .receive d :: after) : d.value ≠ none := by
    have hmem : .receive d ∈ events' := by simp [hsplit]
    obtain ⟨D, hD, e, he, rfl, -⟩ := happlied d (Register.Journal.mem_applied_run hmem)
    exact hvalues D hD e he
  have hknown : (Register.Journal.run v stamp events').Known := Register.Journal.known_run
    (fun before d after hsplit hd => absurd hd (hspared before d after hsplit)) hsettled
  obtain ⟨d, hd | hd, hwrites⟩ := hknown
  · obtain ⟨D, hD, hupdates⟩ := hharvested d hd
    exact ⟨D, Or.inl hD, d, hupdates, hwrites⟩
  · obtain ⟨D, hD, hupdates⟩ := happlied d hd
    exact ⟨D, Or.inr hD, d, hupdates, hwrites⟩

end Journal

end RegisterMap

end DeltaReplica
