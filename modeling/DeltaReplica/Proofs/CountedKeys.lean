import DeltaReplica.Proofs.Acceptance
import DeltaReplica.Proofs.Lag
import DeltaReplica.Proofs.Locality

/-!
# The keys that a map of counters ships

A key of a counter map is there from its first use on, but a delta names it only with a change of
its counter, and changes that cancel out are none.  A replica thus lacks a key of the writer until
a harvest finds that the changes of the key since the one before do not add up to zero.

The account of a key is what the actions of the writer say about it.  After each harvest the
replica has just those keys of the writer that a harvest has told it of
(`CounterMap.replica_has_told_keys`).
-/

namespace DeltaReplica

variable {K V δ : Type}

/-! ## The elements of a map -/

/-- The bindings of those keys that satisfy a predicate. -/
def FinMap.restrict {κ α : Type} (p : κ → Bool) (m : FinMap κ α) : FinMap κ α :=
  ⟨m.entries.filter fun e => p e.1⟩

theorem FinMap.find?_restrict {κ α : Type} [DecidableEq κ] (p : κ → Bool) (m : FinMap κ α) (k : κ) :
    (m.restrict p).find? k = if p k then m.find? k else none := by
  simp only [find?, restrict, List.find?_filter]
  by_cases hp : p k = true
  · have hsame (e : κ × α) :
        decide (p e.1 = true ∧ decide (e.1 = k) = true) = decide (e.1 = k) := by
      by_cases he : e.1 = k
      · simp [he, hp]
      · simp [he]
    simp only [hsame, hp, if_true]
  · rw [if_neg hp, Option.map_eq_none_iff, List.find?_eq_none]
    rintro e - he
    simp only [decide_eq_true_eq] at he
    exact hp (he.2 ▸ he.1)

namespace UniformMap

theorem keys_eq_values_elements (m : UniformMap K V) : m.keys = m.entries.elements.values :=
  m.entries.values_elements.symm

theorem size_eq_length_keys (m : UniformMap K V) : m.size = m.keys.length := by
  simp [size, keys, toList, FinMap.size, FinMap.values]

/-- Two maps have the same keys, by whatever is asked about them. -/
structure SameKeys [Element K] (m m' : UniformMap K V) : Prop where
  has_eq : ∀ k, m'.has k = m.has k
  size_eq : m'.size = m.size
  keys_eq : m'.keys = m.keys

variable [Element K]

theorem has_eq_isSome (m : UniformMap K V) (k : K) :
    m.has k = (m.entries.elements.find? (Element.key k)).isSome := by
  rw [has, FinMap.contains_eq_isSome, FinMap.find?_elements, Option.isSome_map]

theorem Sound.exists_mem_keys {P : V → Prop} {m : UniformMap K V} (h : m.Sound P) {k : K}
    (hk : m.has k = true) : ∃ k' ∈ m.keys, Element.key k' = Element.key k := by
  rw [has_eq_isSome, ← FinMap.contains_eq_isSome, h.contents.indexed.elements.contains_iff_mem_values,
    ← keys_eq_values_elements] at hk
  exact List.mem_map.mp hk

/-- A map that has the elements of another one, but only under some keys. -/
theorem keys_eq_filter {P : V → Prop} {m m' : UniformMap K V} (hm : m.Sound P) (hm' : m'.Sound P)
    {p : Key → Bool}
    (h : ∀ ck, m'.entries.elements.find? ck = if p ck then m.entries.elements.find? ck else none) :
    m'.keys = m.keys.filter fun k => p (Element.key k) := by
  have hindexed := hm.contents.indexed.elements
  have hordered : (m.entries.elements.restrict p).Ordered :=
    List.Pairwise.filter _ hindexed.ordered
  have helements : m'.entries.elements = m.entries.elements.restrict p :=
    hm'.contents.indexed.elements.ordered.ext hordered fun ck => by rw [h, FinMap.find?_restrict]
  rw [keys_eq_values_elements, keys_eq_values_elements, helements, FinMap.values, FinMap.values,
    FinMap.restrict, List.filter_map]
  congr 1
  refine List.filter_congr fun e he => ?_
  rw [Function.comp, hindexed.key_eq e he]

theorem find?_elements_modify (m : UniformMap K V) (k : K) (fresh : V) (f : V → V) (ck : Key) :
    (m.modify k fresh f).entries.elements.find? ck =
      if ck = Element.key k then some ((m.entries.elements.find? ck).getD k)
      else m.entries.elements.find? ck := by
  by_cases hck : ck = Element.key k
  · subst hck
    cases hfind : m.entries.find? (Element.key k) <;>
      simp [FinMap.find?_elements, modify, hfind]
  · simp [FinMap.find?_elements, modify, FinMap.find?_insert_of_ne _ _ hck, hck]

end UniformMap

/-! ## What a delta makes of the elements -/

namespace Contents

variable [Element K]

/-- A change of a value leaves the element that is there, and comes with one if there is none. -/
theorem Item.map_fst_act_enter {present : Key → List Notice} {k : K} {c : Change V}
    {old : Option (K × V)} (h : ((enter present k c).act old).failure = none) :
    ((enter present k c).act old).state.map Prod.fst = (old.map Prod.fst).or (some k) := by
  cases old with
  | some e => rfl
  | none =>
      have hok : (Outcome.meet c.create c.apply none).failure = none := h
      obtain ⟨v, -, -, hmeet⟩ := Outcome.exists_of_meet_ok hok
      simp [enter, hmeet]

/-- Of items for the entries of a delta, at most one is for a given key. -/
theorem itemsAt_keyedDeltas {α : Type} {h : FinMap Key (K × Option δ)}
    (hindexed : h.IndexedBy entryKey) {item : Key × K × δ → Item α}
    (hkey : ∀ i ∈ keyedDeltas h, (item i).key = i.1) (ck : Key) :
    itemsAt ck ((keyedDeltas h).map item) =
      ((h.find? ck).bind fun e => e.2.map fun d => item (ck, e.1, d)).toList := by
  have hmem (i : Key × K × δ) : i ∈ keyedDeltas h ↔ h.find? i.1 = some (i.2.1, some i.2.2) := by
    rw [mem_keyedDeltas_iff, hindexed.ordered.find?_eq_some_iff]
  have hapart : ((keyedDeltas h).map item).Pairwise fun i j => i.key ≠ j.key := by
    have hnodup := nodup_keyedDeltas hindexed.ordered
    rw [List.Nodup, List.pairwise_map] at hnodup
    refine List.pairwise_map.mpr (hnodup.imp_of_mem fun hi hj hne => ?_)
    rwa [hkey _ hi, hkey _ hj]
  rcases itemsAt_eq_nil_or_singleton hapart ck with hnone | ⟨_, hi, hck, hone⟩
  · rw [hnone, eq_comm, Option.toList_eq_nil_iff, Option.bind_eq_none_iff]
    rintro ⟨k, _ | d⟩ hf
    · rfl
    · have hi : (ck, k, d) ∈ keyedDeltas h := (hmem _).mpr hf
      have hat := mem_itemsAt_iff.mpr ⟨List.mem_map_of_mem hi, hkey _ hi⟩
      rw [hnone] at hat
      cases hat
  · obtain ⟨i, hi', rfl⟩ := List.mem_map.mp hi
    rw [hkey i hi'] at hck
    subst hck
    rw [hone, (hmem i).mp hi']
    rfl

end Contents

namespace UniformMap

variable [Element K]

/-- What the staged removals leave a receiver of its elements. -/
def elementLeft (m w : UniformMap K V) (ck : Key) : Option K :=
  if m.cleared || m.removed.contains ck then none else w.entries.elements.find? ck

variable [Tracked V δ]

omit [Element K] in
theorem elements_kept (m : UniformMap K V) : m.kept.elements = m.entries.elements := by
  rw [FinMap.elements, kept, FinMap.map_map]
  rfl

omit [Element K] in
/-- Once nothing is staged, a receiver is left with all that it has. -/
theorem elementLeft_kept (m w : UniformMap K V) (ck : Key) :
    elementLeft ({ entries := m.kept } : UniformMap K V) w ck = w.entries.elements.find? ck := rfl

/-- The element that is shipped for a key, if its value has a change. -/
def elementShipped (m : UniformMap K V) (ck : Key) : Option K :=
  (m.changes.find? ck).bind fun e => e.2.map fun _ => e.1

/-- The change of a value that a delta ships, as an item of the delta. -/
def updateItem (V : Type) [Tracked V δ] (i : Key × K × δ) : Contents.Item (K × V) :=
  .enter (fun _ => []) i.2.1 (changeOf ⟨Element.encode i.2.1, i.2.2⟩)

theorem items_updated_delta [LawfulElement K] (m : UniformMap K V) :
    (m.delta.updated.map changeOf).map (Contents.Item.entered K fun _ => []) =
      (Contents.keyedDeltas m.changes).map (updateItem V) := by
  rw [delta, Contents.entryDeltas_eq_map, List.map_map, List.map_map]
  exact List.map_congr_left fun i _ => Contents.entered_of_read (Payload.read_encode _)

/-- Under each key a receiver has the element that it was left, or else the one that is shipped. -/
theorem find?_elements_merge_delta [LawfulElement K] {P : V → Prop} {m : UniformMap K V}
    (hm : m.Sound P) {w : UniformMap K V} (h : (w.merge m.delta).failure = none) (ck : Key) :
    (w.merge m.delta).state.entries.elements.find? ck =
      (m.elementLeft w ck).or (m.elementShipped ck) := by
  obtain ⟨hdrop, hleft⟩ := Contents.find?_dropAll_staged (K := K) .removesMissingKey m.cleared
    hm.removed w.entries
  have hindexed := indexedBy_changes hm
  have hkey : ∀ i ∈ Contents.keyedDeltas m.changes, (updateItem V i).key = i.1 := fun i hi =>
    hindexed.key_eq _ (Contents.mem_keyedDeltas_iff.mp hi)
  rw [merge, mergeEntries, Outcome.failure_map, Outcome.failure_andThen_eq_none_iff] at h
  have hupdate := h.2
  rw [Contents.each_addOrAlter_eq_each_step, items_updated_delta] at hupdate
  obtain ⟨hok, hfind⟩ := Contents.find?_each_step hupdate ck
  rw [FinMap.find?_elements, merge, mergeEntries, Outcome.state_map, Outcome.state_andThen h.1,
    Contents.each_addOrAlter_eq_each_step, items_updated_delta, hfind]
  have hold : ((Contents.dropAll K .removesMissingKey m.delta.removed
      (Contents.clearIf m.delta.cleared w.entries)).state.find? ck).map Prod.fst =
      m.elementLeft w ck := by
    rw [delta, hleft, elementLeft, FinMap.find?_elements]
    split <;> rfl
  rw [Contents.itemsAt_keyedDeltas hindexed hkey] at hok ⊢
  cases hshipped : m.changes.find? ck with
  | none => simp [hold, elementShipped, hshipped]
  | some e =>
      obtain ⟨k, _ | d⟩ := e
      · simp [hold, elementShipped, hshipped]
      · have hone : ((some (k, some d)).bind fun e =>
            e.2.map fun d => updateItem V (ck, e.1, d)).toList = [updateItem V (ck, k, d)] := rfl
        rw [hshipped, hone, Outcome.each_cons, Outcome.failure_andThen_eq_none_iff] at hok
        have hact := Contents.Item.map_fst_act_enter hok.1
        rw [hone, Outcome.each_cons, Outcome.state_andThen hok.1, Outcome.each_nil,
          Outcome.state_done, elementShipped, hshipped, updateItem, hact, hold]
        rfl

end UniformMap

/-! ## The account of a key -/

namespace CounterMap

/-- An action of a writer. -/
inductive Action (K : Type)
  /-- An operation on the map. -/
  | change (op : Op K)
  /-- The changes are handed over. -/
  | harvest (initial : Bool)

/-- What a writer has done to a key since the key last came into being. -/
structure Account where
  /-- The sum of the changes since the last harvest. -/
  sum : Int64 := 0
  /-- Whether a harvest has found a sum other than zero. -/
  told : Bool := false
deriving DecidableEq

/-- A writer, and the replica that merges all that the writer hands over. -/
structure Mirrored (K : Type) where
  /-- The writer. -/
  writer : CounterMap K := {}
  /-- The replica. -/
  replica : CounterMap K := {}

variable [Element K]

/-- The account of a key after an action. -/
def Account.after (ck : Key) (a : Account) : Action K → Account
  | .change (.increment k n) => if Element.key k = ck then { a with sum := a.sum + n } else a
  | .change (.decrement k n) => if Element.key k = ck then { a with sum := a.sum - n } else a
  | .change (.delete k) => if Element.key k = ck then {} else a
  | .change .clear => {}
  | .harvest _ => { told := a.told || a.sum ≠ 0 }

/-- The account of a key after a sequence of actions. -/
def account (actions : List (Action K)) (ck : Key) : Account := actions.foldl (Account.after ck) {}

/-- Whether a sequence of actions has told of a key. -/
def told (actions : List (Action K)) (k : K) : Bool := (account actions (Element.key k)).told

namespace Mirrored

/-- What an action does to a writer and its replica. -/
def step (s : Mirrored K) : Action K → Mirrored K
  | .change op => { s with writer := op.perform s.writer }
  | .harvest initial =>
    { writer := (Tracked.harvest initial s.writer).2
      replica := (Tracked.receive (Tracked.harvest initial s.writer).1 s.replica).state }

/-- An empty writer and its replica after a sequence of actions. -/
def run (actions : List (Action K)) : Mirrored K := actions.foldl step {}

theorem run_snoc (actions : List (Action K)) (action : Action K) :
    run (actions ++ [action]) = (run actions).step action := by
  simp [run, List.foldl_append]

theorem writer_step_harvest (s : Mirrored K) (initial : Bool) :
    (s.step (.harvest initial)).writer = { entries := s.writer.kept } :=
  UniformMap.snd_harvest initial s.writer

/-- The account of a key says how its counter has changed, and whether the replica is left with the
key when the staged removals have reached it. -/
structure Accounted (s : Mirrored K) (ck : Key) (a : Account) : Prop where
  missing : s.writer.entries.elements.find? ck = none → a = {}
  pending : ∀ c, s.writer.entries.valueAt? ck = some c → c.pending = a.sum
  left : s.writer.elementLeft s.replica ck =
    if a.told then s.writer.entries.elements.find? ck else none

variable {s : Mirrored K} {ck : Key} {a : Account}

omit [Element K] in
theorem accounted_empty (ck : Key) : Accounted ({} : Mirrored K) ck {} :=
  ⟨fun _ => rfl, fun _ h => (nomatch h), rfl⟩

/-- A replica accepts what the writer hands over. -/
theorem failure_merge [LawfulElement K] {m : CounterMap K} (hm : m.Sound fun _ => True)
    (w : CounterMap K) : (UniformMap.merge m.delta w).failure = none :=
  (UniformMap.merge_delta hm w fun ck c _ =>
    Tracked.Accepting.failure_receive? false c (m.left w ck)).1

omit [Element K] in
/-- The key of a counter is shipped if the pending changes make a difference. -/
theorem elementShipped_eq (m : CounterMap K) (ck : Key) :
    m.elementShipped ck = (m.entries.find? ck).bind fun e =>
      if e.2.pending = 0 then none else some e.1 := by
  rw [UniformMap.elementShipped, UniformMap.changes, FinMap.find?_map]
  cases m.entries.find? ck with
  | none => rfl
  | some e =>
      by_cases hpending : e.2.pending = 0 <;>
        simp [Tracked.harvest, Counter.harvest, hpending]

namespace Accounted

/-- A change of a counter that is not there starts from an empty account. -/
theorem modify (h : s.Accounted ck a) (k : K) {f : Counter → Counter} {g : Int64 → Int64}
    (hf : ∀ c, (f c).pending = g c.pending) :
    Accounted { s with writer := s.writer.modify k {} f } ck
      (if Element.key k = ck then { a with sum := g a.sum } else a) := by
  have hleft : (s.writer.modify k {} f).elementLeft s.replica ck =
      s.writer.elementLeft s.replica ck := rfl
  by_cases hck : Element.key k = ck
  · subst hck
    rw [if_pos rfl]
    refine ⟨fun hnone => ?_, fun c hc => ?_, ?_⟩
    · rw [UniformMap.find?_elements_modify, if_pos rfl] at hnone
      cases hnone
    · rw [UniformMap.valueAt?_modify, if_pos rfl] at hc
      obtain rfl := Option.some.inj hc
      rw [hf]
      cases hv : s.writer.entries.valueAt? (Element.key k) with
      | none =>
          rw [h.missing (FinMap.find?_elements_eq_none_iff.mpr hv)]
          rfl
      | some c => rw [Option.getD_some, h.pending c hv]
    · rw [hleft, h.left, UniformMap.find?_elements_modify, if_pos rfl]
      cases hfind : s.writer.entries.elements.find? (Element.key k) with
      | none => rw [h.missing hfind]; rfl
      | some k' => rfl
  · have hne : ck ≠ Element.key k := Ne.symm hck
    rw [if_neg hck]
    refine ⟨fun hnone => ?_, fun c hc => ?_, ?_⟩
    · rw [UniformMap.find?_elements_modify, if_neg hne] at hnone
      exact h.missing hnone
    · rw [UniformMap.valueAt?_modify, if_neg hne] at hc
      exact h.pending c hc
    · rw [hleft, h.left, UniformMap.find?_elements_modify, if_neg hne]

omit [Element K] in
/-- The account of a key that is gone, also from the replica, is empty. -/
theorem gone (hmissing : s.writer.entries.elements.find? ck = none)
    (hleft : s.writer.elementLeft s.replica ck = none) : s.Accounted ck {} := by
  refine ⟨fun _ => rfl, fun c hc => ?_, hleft⟩
  rw [FinMap.find?_elements_eq_none_iff.mp hmissing] at hc
  cases hc

theorem delete (h : s.Accounted ck a) (k : K) :
    Accounted { s with writer := UniformMap.delete k s.writer } ck
      (if Element.key k = ck then {} else a) := by
  rcases UniformMap.delete_cases k s.writer with ⟨hk, hdelete⟩ | ⟨e, -, hdelete⟩
  · rw [hdelete]
    split
    · next hck =>
        have hmissing : s.writer.entries.elements.find? ck = none := by
          rw [← hck, ← Option.isNone_iff_eq_none, ← Option.isSome_eq_false_iff,
            ← UniformMap.has_eq_isSome, hk]
        rwa [← h.missing hmissing]
    · exact h
  · by_cases hck : Element.key k = ck
    · subst hck
      rw [if_pos rfl]
      apply gone
      · simp [FinMap.find?_elements, hdelete]
      · simp [UniformMap.elementLeft, hdelete, FinMap.contains_insert]
    · have hne : ck ≠ Element.key k := Ne.symm hck
      rw [if_neg hck]
      have hfind : (s.writer.delete k).entries.find? ck = s.writer.entries.find? ck := by
        rw [hdelete, FinMap.find?_erase_of_ne _ hne]
      have helements : (s.writer.delete k).entries.elements.find? ck = s.writer.entries.elements.find? ck := by
        rw [FinMap.find?_elements, hfind, FinMap.find?_elements]
      refine ⟨fun hnone => h.missing (helements ▸ hnone), fun c hc => h.pending c ?_, ?_⟩
      · rwa [FinMap.valueAt?, hfind] at hc
      · rw [helements, ← h.left, hdelete]
        simp [UniformMap.elementLeft, FinMap.contains_insert, hne]

omit [Element K] in
theorem clear (h : s.Accounted ck a) :
    Accounted { s with writer := UniformMap.clear s.writer } ck {} := by
  have hmissing : (UniformMap.clear s.writer).entries.elements.find? ck = none := by
    simp [FinMap.find?_elements]
  rcases UniformMap.clear_cases s.writer with hclear | hclear
  · rw [hclear] at hmissing ⊢
    rwa [← h.missing hmissing]
  · apply gone hmissing
    simp [UniformMap.elementLeft, hclear]

theorem change (h : s.Accounted ck a) (op : Op K) :
    Accounted { s with writer := op.perform s.writer } ck (a.after ck (.change op)) := by
  cases op with
  | increment k n => exact h.modify k (g := fun sum => sum + n) fun _ => rfl
  | decrement k n => exact h.modify k (g := fun sum => sum - n) fun _ => rfl
  | delete k => exact h.delete k
  | clear => exact h.clear

theorem harvest [LawfulElement K] (h : s.Accounted ck a) (hw : s.writer.Sound fun _ => True)
    (initial : Bool) :
    (s.step (.harvest initial)).Accounted ck (a.after ck (.harvest (K := K) initial)) := by
  have hreplica : (s.step (.harvest initial)).replica = (s.replica.merge s.writer.delta).state := by
    rw [step, UniformMap.receive_harvest]
  have hwriter := s.writer_step_harvest initial
  have helements : (s.step (.harvest initial)).writer.entries.elements = s.writer.entries.elements := by
    rw [hwriter, UniformMap.elements_kept]
  refine ⟨fun hnone => ?_, fun c hc => ?_, ?_⟩
  · rw [h.missing (helements ▸ hnone)]
    rfl
  · rw [hwriter, UniformMap.valueAt?_kept, Option.map_eq_some_iff] at hc
    obtain ⟨c', -, rfl⟩ := hc
    rw [Counter.snd_harvest]
    rfl
  · rw [hreplica, helements, hwriter, UniformMap.elementLeft_kept,
      UniformMap.find?_elements_merge_delta hw (failure_merge hw s.replica), h.left,
      elementShipped_eq, FinMap.find?_elements]
    cases hf : s.writer.entries.find? ck with
    | none => simp
    | some e =>
        have hpending := h.pending e.2 (by simp [FinMap.valueAt?, hf])
        cases htold : a.told <;> by_cases hsum : a.sum = 0 <;>
          simp [Account.after, hpending, htold, hsum]

theorem step [LawfulElement K] (h : s.Accounted ck a) (hw : s.writer.Sound fun _ => True)
    (action : Action K) : (s.step action).Accounted ck (a.after ck action) := by
  cases action with
  | change op => exact h.change op
  | harvest initial => exact h.harvest hw initial

end Accounted

/-- Both maps are sound, and the accounts of all keys are right. -/
structure Valid (s : Mirrored K) (accounts : Key → Account) : Prop where
  writer : s.writer.Sound fun _ => True
  replica : s.replica.Sound fun _ => True
  accounted : ∀ ck, s.Accounted ck (accounts ck)

theorem Valid.step [LawfulElement K] {accounts : Key → Account} (h : s.Valid accounts)
    (action : Action K) : (s.step action).Valid fun ck => (accounts ck).after ck action := by
  refine ⟨?_, ?_, fun ck => (h.accounted ck).step h.writer action⟩
  · cases action with
    | change op => exact op.sound h.writer
    | harvest initial => exact h.writer.harvest Tracked.keeps_true initial
  · cases action with
    | change op => exact h.replica
    | harvest initial =>
        rw [Mirrored.step, UniformMap.receive_harvest]
        exact h.replica.merge Tracked.keeps_true _

theorem valid_run [LawfulElement K] (actions : List (Action K)) :
    (run actions).Valid (account actions) := by
  suffices h : ∀ (s : Mirrored K) (accounts : Key → Account), s.Valid accounts →
      (actions.foldl Mirrored.step s).Valid fun ck => actions.foldl (Account.after ck) (accounts ck)
    from h {} _ ⟨.empty false, .empty false, accounted_empty⟩
  induction actions with
  | nil => exact fun _ _ h => h
  | cons action actions ih => exact fun s accounts h => ih _ _ (h.step action)

/-- After a harvest the replica has what the harvests so far have told of. -/
theorem find?_elements_replica [LawfulElement K] (actions : List (Action K)) (initial : Bool)
    (ck : Key) :
    (run (actions ++ [.harvest initial])).replica.entries.elements.find? ck =
      if (account (actions ++ [.harvest initial]) ck).told then
        (run (actions ++ [.harvest initial])).writer.entries.elements.find? ck
      else none := by
  have hvalid := valid_run (actions ++ [.harvest initial])
  rw [← (hvalid.accounted ck).left, run_snoc, writer_step_harvest, UniformMap.elementLeft_kept]

end Mirrored

/-- After each harvest the replica of a writer has just those keys of the writer that a harvest has
told of since they last came into being.  So it has all of them only if that is so for every key of
the writer. -/
theorem replica_has_told_keys [LawfulElement K] (actions : List (Action K)) (initial : Bool) :
    let before := Mirrored.run actions
    let after := Mirrored.run (actions ++ [.harvest initial])
    let isTold := told (actions ++ [.harvest initial])
    (Tracked.receive (Tracked.harvest initial before.writer).1 before.replica).failure = none ∧
      after.replica.keys = after.writer.keys.filter isTold ∧
      after.replica.size = after.writer.keys.countP isTold ∧
      (∀ k, after.replica.has k = (after.writer.has k && isTold k)) ∧
      (after.writer.SameKeys after.replica ↔ ∀ k ∈ after.writer.keys, isTold k = true) := by
  intro before after isTold
  have hbefore := Mirrored.valid_run actions
  have hafter := Mirrored.valid_run (actions ++ [.harvest initial])
  have helements := Mirrored.find?_elements_replica actions initial
  have hkeys : after.replica.keys = after.writer.keys.filter isTold :=
    UniformMap.keys_eq_filter hafter.writer hafter.replica helements
  have hhas (k : K) : after.replica.has k = (after.writer.has k && isTold k) := by
    have htold : (account (actions ++ [.harvest initial]) (Element.key k)).told = isTold k := rfl
    rw [UniformMap.has_eq_isSome, helements, htold, UniformMap.has_eq_isSome]
    cases isTold k with
    | false => rw [if_neg Bool.false_ne_true, Bool.and_false, Option.isSome_none]
    | true => rw [if_pos rfl, Bool.and_true]
  refine ⟨?_, hkeys, ?_, hhas, fun hsame => ?_, fun htold => ?_⟩
  · rw [UniformMap.receive_harvest]
    exact Mirrored.failure_merge hbefore.writer before.replica
  · rw [UniformMap.size_eq_length_keys, hkeys, List.countP_eq_length_filter]
  · exact List.filter_eq_self.mp (hkeys.symm.trans hsame.keys_eq)
  · have hall : after.replica.keys = after.writer.keys := by
      rw [hkeys, List.filter_eq_self.mpr htold]
    refine ⟨fun k => ?_, ?_, hall⟩
    · rw [hhas]
      cases hk : after.writer.has k with
      | false => rfl
      | true =>
          obtain ⟨k', hmem, hkey⟩ := hafter.writer.exists_mem_keys hk
          have hsame : isTold k = isTold k' := by simp only [isTold, told, hkey]
          rw [hsame, htold k' hmem]
          rfl
    · rw [UniformMap.size_eq_length_keys, hall, UniformMap.size_eq_length_keys]

/-- The changes of one key cancel out after it has come back, and those of another one wrap around
to zero; a third key is told of, and keeps its place. -/
theorem replica_lacks_key_that_came_back :
    let i : Payload := ⟨"", [1]⟩
    let j : Payload := ⟨"", [2]⟩
    let k : Payload := ⟨"", [3]⟩
    let actions : List (Action Payload) :=
      [.change (.increment i 1), .change (.increment k 1), .harvest false, .change (.delete i),
        .change (.increment i 2), .change (.decrement i 2), .change (.decrement k 1),
        .change (.increment j Int64.minValue), .change (.increment j Int64.minValue)]
    let after := Mirrored.run (actions ++ [.harvest true])
    LawfulElement Payload ∧ after.writer.keys = [i, j, k] ∧ after.replica.keys = [k] := by
  intro i j k actions after
  refine ⟨inferInstance, by decide, ?_⟩
  rw [(replica_has_told_keys actions true).2.1]
  decide

/-- A key that comes into being by a change of zero is not shipped. -/
theorem replica_lacks_key_of_no_change :
    let k : Payload := ⟨"", [1]⟩
    let after := Mirrored.run [.change (.increment k 0), .harvest false]
    after.writer.keys = [k] ∧ after.replica.keys = [] ∧
      ¬after.writer.SameKeys after.replica := by
  intro k after
  refine ⟨by decide, by decide, fun hsame => ?_⟩
  exact absurd hsame.keys_eq (by decide)

end CounterMap

end DeltaReplica
