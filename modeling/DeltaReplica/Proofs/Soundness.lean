import DeltaReplica.Proofs.Merging
import DeltaReplica.Proofs.Operations

/-!
# Sound states

In a sound state every finite map has its keys in order, and every element and every key
of a map stands under its own comparable key, in the contents and in what is staged.
Operations keep a state sound, and so do harvests and deltas, also a delta that fails
part-way; `Tracked.Keeps` and `Replicated.Keeps` name the latter.
-/

namespace DeltaReplica

/-! ## Contents of maps -/

namespace Contents

variable {K V : Type} [Element K] {P : V → Prop} {m : Entries K V}

/-- The values stand under the keys of their elements, and each of them has a property. -/
structure Sound (P : V → Prop) (m : Entries K V) : Prop where
  indexed : m.IndexedBy entryKey
  values : ∀ e ∈ m.entries, P e.2.2

/-- A change creates values with a property and keeps it. -/
structure Change.Keeps (P : V → Prop) (c : Change V) : Prop where
  create : ∀ v, c.create = .ok v → P v
  apply : ∀ v, P v → P (c.apply v).state

namespace Sound

theorem empty : Sound P (∅ : Entries K V) :=
  ⟨.empty, by simp⟩

theorem insert (h : Sound P m) {ck : Key} {k : K} {v : V} (hk : Element.key k = ck) (hv : P v) :
    Sound P (m.insert ck (k, v)) := by
  refine ⟨h.indexed.insert hk, fun e he => ?_⟩
  rcases FinMap.mem_entries_of_mem_insert he with rfl | ⟨he, -⟩
  · exact hv
  · exact h.values e he

theorem erase (h : Sound P m) (ck : Key) : Sound P (m.erase ck) :=
  ⟨h.indexed.erase ck, fun e he => h.values e (FinMap.mem_entries_of_mem_erase he)⟩

theorem clearIf (h : Sound P m) (cleared : Bool) : Sound P (Contents.clearIf cleared m) := by
  cases cleared
  · exact h
  · exact empty

theorem map (h : Sound P m) {W : Type} {Q : W → Prop} {f : Key → V → W}
    (hf : ∀ ck v, P v → Q (f ck v)) :
    Sound Q (m.map fun ck e => (e.1, f ck e.2) : Entries K W) := by
  refine ⟨⟨h.indexed.ordered.map _, fun e he => ?_⟩, fun e he => ?_⟩
  · rw [FinMap.entries_map] at he
    obtain ⟨e', he', rfl⟩ := List.mem_map.mp he
    exact h.indexed.key_eq e' he'
  · rw [FinMap.entries_map] at he
    obtain ⟨e', he', rfl⟩ := List.mem_map.mp he
    exact hf e'.1 e'.2.2 (h.values e' he')

theorem of_find? (h : Sound P m) {ck : Key} {k : K} {v : V} (hf : m.find? ck = some (k, v)) :
    Element.key k = ck ∧ P v :=
  ⟨h.indexed.key_of_find? hf, h.values _ (FinMap.mem_entries_of_find?_eq_some hf)⟩

theorem of_valueAt? (h : Sound P m) {ck : Key} {v : V} (hv : m.valueAt? ck = some v) : P v := by
  obtain ⟨k, hf⟩ := FinMap.valueAt?_eq_some_iff.mp hv
  exact (h.of_find? hf).2

theorem dropAll (h : Sound P m) (remark : Remark) (ps : List Payload) :
    Sound P (Contents.dropAll K remark ps m).state :=
  dropAll_keeps (fun _ ck hm => hm.erase ck) remark ps h

theorem addOrAlter (h : Sound P m) {c : Change V} (hc : c.Keeps P)
    (present : Key → List Notice) : Sound P (Contents.addOrAlter present c m).state := by
  rcases addOrAlter_cases present c m with
    hsame | ⟨k, -, ⟨e, hf, hfound⟩ | ⟨v, hv, -, hentered⟩⟩
  · rwa [hsame]
  · obtain ⟨hk, he⟩ := h.of_find? hf
    rw [hfound]
    exact h.insert hk (hc.apply _ he)
  · rw [hentered]
    exact h.insert rfl (hc.apply v (hc.create v hv))

theorem alterPresent (h : Sound P m) {c : Change V} (hc : c.Keeps P) (remark : Remark) :
    Sound P (Contents.alterPresent remark c m).state := by
  rcases alterPresent_cases remark c m with hsame | ⟨ck, e, hf, hfound⟩
  · rwa [hsame]
  · obtain ⟨hk, he⟩ := h.of_find? hf
    rw [hfound]
    exact h.insert hk (hc.apply _ he)

end Sound

/-- A list of changes keeps contents sound if each of them keeps the values. -/
theorem Sound.each {step : Change V → Entries K V → Outcome (Entries K V)}
    (hstep : ∀ c m, c.Keeps P → Sound P m → Sound P (step c m).state) {cs : List (Change V)}
    (hcs : ∀ c ∈ cs, c.Keeps P) (h : Sound P m) : Sound P (Outcome.each step cs m).state :=
  Outcome.each_keeps (fun c hc m hm => hstep c m (hcs c hc) hm) h

end Contents

/-! ## What keeps a property -/

/-- A property of tracked data that harvests and deltas keep, and that created data have. -/
structure Tracked.Keeps {σ δ : Type} [Tracked σ δ] (P : σ → Prop) : Prop where
  harvest : ∀ initial s, P s → P (Tracked.harvest initial s).2
  merge : ∀ d s, P s → P (Tracked.merge d s).state
  create : ∀ (d : δ) s, Tracked.create d = .ok s → P s

/-- A property of replicated data that harvests and deltas keep, and that created data have. -/
structure Replicated.Keeps {σ : Type} [Replicated σ] (P : σ → Prop) : Prop where
  harvest : ∀ initial s, P s → P (Replicated.harvest initial s).2
  apply : ∀ d s, P s → P (Replicated.apply d s).state
  createFor : ∀ d s, Replicated.createFor d = .ok s → P s

theorem Tracked.keeps_true {σ δ : Type} [Tracked σ δ] : Tracked.Keeps fun _ : σ => True :=
  ⟨fun _ _ _ => trivial, fun _ _ _ => trivial, fun _ _ _ => trivial⟩

theorem Replicated.keeps_true {σ : Type} [Replicated σ] : Replicated.Keeps fun _ : σ => True :=
  ⟨fun _ _ _ => trivial, fun _ _ _ => trivial, fun _ _ _ => trivial⟩

/-- Deltas of other kinds are refused, so they keep every property. -/
theorem Tracked.Keeps.replicated {σ δ : Type} [Tracked σ δ] [DeltaForm δ] {P : σ → Prop}
    (h : Tracked.Keeps P) : Replicated.Keeps P := by
  refine ⟨h.harvest, fun d s hs => ?_, fun d s hs => ?_⟩
  · rcases apply_cases d s with ⟨-, hsame⟩ | ⟨e, -, hmerge⟩
    · rwa [hsame]
    · rw [hmerge]
      exact h.merge e s hs
  · obtain ⟨e, -, he⟩ := exists_of_createFor_ok hs
    exact h.create e s he

/-! ## Sets -/

namespace AddRemoveSet

variable {E : Type} [Element E]

/-- Elements and pending removals stand under their own keys. -/
structure Sound (s : AddRemoveSet E) : Prop where
  elements : s.elements.IndexedBy Element.key
  added : s.added.Ordered
  removed : s.removed.IndexedBy Element.key

namespace Sound

variable {s : AddRemoveSet E}

theorem empty (cleared : Bool) : Sound ({ cleared } : AddRemoveSet E) :=
  ⟨.empty, FinMap.ordered_empty, .empty⟩

theorem clear (h : s.Sound) : s.clear.Sound := by
  rcases clear_cases s with hclear | hclear
  · rwa [hclear]
  · rw [hclear]
    exact empty true

theorem add (h : s.Sound) (e : E) : (s.add e).Sound := by
  rcases add_cases e s with hadd | ⟨-, hadd⟩
  · rwa [hadd]
  · rw [hadd]
    refine ⟨h.elements.insert rfl, ?_, h.removed.erase _⟩
    by_cases hr : s.removed.contains (Element.key e)
    · simpa [hr] using h.added
    · simpa [hr] using h.added.insert _ _

theorem addAll (h : s.Sound) (es : List E) : (s.addAll es).Sound := by
  induction es generalizing s with
  | nil => exact h
  | cons e es ih => exact ih (h.add e)

theorem delete (h : s.Sound) (e : E) : (s.delete e).Sound := by
  rcases delete_cases e s with hdelete | hdelete | ⟨stored, hf, hdelete⟩
  · rwa [hdelete]
  · rw [hdelete]
    exact h.clear
  · rw [hdelete]
    refine ⟨h.elements.erase _, h.added.erase _, ?_⟩
    by_cases ha : s.added.contains (Element.key e)
    · simpa [ha] using h.removed
    · simpa [ha] using h.removed.insert (h.elements.key_of_find? hf)

theorem harvest (h : s.Sound) (initial : Bool) : (s.harvest initial).2.Sound := by
  unfold AddRemoveSet.harvest
  split
  · exact h
  · exact ⟨h.elements, FinMap.ordered_empty, .empty⟩

theorem merge (h : s.Sound) (d : SetDelta) : (s.merge d).state.Sound := by
  refine ⟨?_, h.added, h.removed⟩
  refine Outcome.andThen_keeps (P := FinMap.IndexedBy Element.key) ?_ fun m hm => ?_
  · exact Contents.dropAll_keeps (fun _ ck hm => hm.erase ck) _ _ (h.elements.clearIf _)
  · refine Outcome.each_keeps (P := FinMap.IndexedBy Element.key) (fun p _ m hm => ?_) hm
    unfold mergeElement
    cases p.read (Element.decode (α := E)) with
    | ok e => exact hm.insert rfl
    | error e => exact hm

end Sound

theorem keeps_sound : Tracked.Keeps (Sound (E := E)) where
  harvest initial _ h := h.harvest initial
  merge d _ h := h.merge d
  create _ s h := by
    cases h
    exact Sound.empty false

end AddRemoveSet

/-! ## Maps with values of one tracked type -/

namespace UniformMap

variable {K V δ : Type} [Element K]

/-- The contents are sound, and pending removals stand under their own keys. -/
structure Sound (P : V → Prop) (m : UniformMap K V) : Prop where
  contents : Contents.Sound P m.entries
  removed : m.removed.IndexedBy Element.key

namespace Sound

variable {P : V → Prop} {m : UniformMap K V}

theorem empty (cleared : Bool) : Sound P ({ cleared } : UniformMap K V) :=
  ⟨.empty, .empty⟩

theorem clear (h : m.Sound P) : m.clear.Sound P := by
  rcases clear_cases m with hclear | hclear
  · rwa [hclear]
  · rw [hclear]
    exact empty true

theorem modify (h : m.Sound P) (k : K) {fresh : V} {f : V → V} (hfresh : P fresh)
    (hf : ∀ v, P v → P (f v)) : (m.modify k fresh f).Sound P := by
  refine ⟨?_, h.removed⟩
  unfold UniformMap.modify
  cases hfind : m.entries.find? (Element.key k) with
  | none => exact h.contents.insert rfl (hf fresh hfresh)
  | some e =>
      obtain ⟨hk, hv⟩ := h.contents.of_find? hfind
      exact h.contents.insert hk (hf _ hv)

theorem delete (h : m.Sound P) (k : K) : (m.delete k).Sound P := by
  rcases delete_cases k m with ⟨-, hdelete⟩ | ⟨e, hf, hdelete⟩
  · rwa [hdelete]
  · rw [hdelete]
    exact ⟨h.contents.erase _, h.removed.insert (h.contents.of_find? hf).1⟩

variable [Tracked V δ]

theorem harvest (h : m.Sound P) (hP : Tracked.Keeps P) (initial : Bool) :
    (m.harvest initial).2.Sound P := by
  have hkept := h.contents.map (f := fun _ v => (Tracked.harvest false v).2)
    fun _ v hv => hP.harvest false v hv
  simp only [UniformMap.harvest, FinMap.map_map]
  split
  · exact ⟨hkept, h.removed⟩
  · exact ⟨hkept, .empty⟩

theorem merge (h : m.Sound P) (hP : Tracked.Keeps P) (d : UniformMapDelta δ) :
    (m.merge d).state.Sound P := by
  refine ⟨?_, h.removed⟩
  refine Outcome.andThen_keeps (P := Contents.Sound P) ?_ fun m hm => ?_
  · exact (h.contents.clearIf _).dropAll _ _
  · refine Contents.Sound.each (fun c m hc hm => hm.addOrAlter hc _) (fun c hc => ?_) hm
    obtain ⟨e, -, rfl⟩ := List.mem_map.mp hc
    exact ⟨hP.create e.delta, hP.merge e.delta⟩

end Sound

theorem keeps_sound [Tracked V δ] {P : V → Prop} (hP : Tracked.Keeps P) :
    Tracked.Keeps (Sound (K := K) P) where
  harvest initial _ h := h.harvest hP initial
  merge d _ h := h.merge hP d
  create _ s h := by
    cases h
    exact Sound.empty false

end UniformMap

theorem MultiMap.sound_putAll {K V : Type} [Element K] [Element V] {m : MultiMap K V}
    (h : m.Sound AddRemoveSet.Sound) (k : K) (vs : List V) :
    UniformMap.Sound AddRemoveSet.Sound (m.putAll k vs) := by
  unfold MultiMap.putAll
  split
  · exact h
  · exact h.modify k (.empty false) fun s hs => AddRemoveSet.Sound.addAll hs vs

theorem MultiMap.sound_deleteValue {K V : Type} [Element K] [Element V] {m : MultiMap K V}
    (h : m.Sound AddRemoveSet.Sound) (k : K) (v : V) :
    UniformMap.Sound AddRemoveSet.Sound (m.deleteValue k v) := by
  unfold MultiMap.deleteValue
  have hmodify := h.modify k (.empty false) fun s (hs : s.Sound) => hs.delete v
  cases m.get? k with
  | none => exact h
  | some values =>
      simp only
      split
      · exact hmodify.delete k
      · exact hmodify

/-! ## Maps to replicated data -/

namespace DataMap

variable {K V : Type} [Element K]

/-- The contents are sound, the staged keys are in order, and pending removals stand under their
own keys. -/
structure Sound (P : V → Prop) (m : DataMap K V) : Prop where
  contents : Contents.Sound P m.entries
  added : m.added.Ordered
  removed : m.removed.IndexedBy Element.key

namespace Sound

variable {P : V → Prop} {m : DataMap K V}

theorem empty (cleared : Bool) (supply : Option (K → Option (Noted V))) :
    Sound P ({ cleared, supply } : DataMap K V) :=
  ⟨.empty, FinMap.ordered_empty, .empty⟩

theorem clear (h : m.Sound P) : m.clear.Sound P := by
  rcases clear_cases m with hclear | hclear
  · rwa [hclear]
  · rw [hclear]
    exact empty true m.supply

theorem set (h : m.Sound P) (k : K) {v : V} (hv : P v) : (m.set k v).result.Sound P := by
  have hentries := h.contents.insert (rfl : Element.key k = _) hv
  rcases set_cases k v m with ⟨-, hset⟩ | ⟨-, hset⟩ | ⟨-, hset⟩
  · rw [hset]
    exact ⟨hentries, h.added.insert _ _, h.removed.erase _⟩
  · rw [hset]
    exact ⟨hentries, h.added.insert _ _, h.removed.insert rfl⟩
  · rw [hset]
    exact ⟨hentries, h.added, h.removed⟩

theorem reach (h : m.Sound P) (k : K)
    (hsupply : ∀ f n, m.supply = some f → f k = some n → m.has k = false → P n.result) :
    (m.reach k).result.Sound P := by
  rcases reach_cases k m with hreach | ⟨f, n, hf, hn, hk, hreach⟩
  · rwa [hreach]
  · rw [hreach]
    exact h.set k (hsupply f n hf hn hk)

theorem adjust (h : m.Sound P) (k : K) {f : V → V} (hf : ∀ v, m.get? k = some v → P v → P (f v)) :
    (m.adjust k f).Sound P := by
  rcases adjust_cases k f m with hadjust | ⟨e, hfind, hadjust⟩
  · rwa [hadjust]
  · rw [hadjust]
    obtain ⟨hk, hv⟩ := h.contents.of_find? hfind
    have hget : m.get? k = some e.2 := by simp [get?, hfind]
    exact ⟨h.contents.insert hk (hf e.2 hget hv), h.added, h.removed⟩

/-- The entry of a key that is there is changed where it stands. -/
theorem adjust_append_cons (h : m.Sound P) {before after : List (Key × K × V)} {ck : Key} {k : K}
    {v : V} (hentries : m.entries = ⟨before ++ (ck, k, v) :: after⟩) (v' : V) :
    m.get? k = some v ∧
      m.adjust k (fun _ => v') = { m with entries := ⟨before ++ (ck, k, v') :: after⟩ } := by
  have hordered := h.contents.indexed.ordered
  have hfind : m.entries.find? ck = some (k, v) := by
    rw [hordered.find?_eq_some_iff, hentries]
    exact List.mem_append_right before List.mem_cons_self
  obtain ⟨rfl, -⟩ := h.contents.of_find? hfind
  rw [hentries] at hordered
  constructor
  · rw [get?, hfind, Option.map_some]
  · rw [DataMap.adjust, hfind, ← FinMap.insert_append_cons hordered (k, v'), ← hentries]

theorem delete (h : m.Sound P) (k : K) : (m.delete k).Sound P := by
  rcases delete_cases k m with hdelete | ⟨e, hf, hdelete⟩
  · rwa [hdelete]
  · rw [hdelete]
    refine ⟨h.contents.erase _, h.added.erase _, ?_⟩
    by_cases ha : m.added.contains (Element.key k)
    · simpa [ha] using h.removed
    · simpa [ha] using h.removed.insert (h.contents.of_find? hf).1

variable [Replicated V]

theorem merge (h : m.Sound P) (d : MapDelta Delta)
    (hadded : ∀ e ∈ d.added, (changeOf (V := V) e).Keeps P)
    (hupdated : ∀ e ∈ d.updated, (changeOf (V := V) e).Keeps P) : (m.merge d).state.Sound P := by
  have hadd := List.forall_mem_map.mpr hadded
  have hupdate := List.forall_mem_map.mpr hupdated
  refine ⟨?_, h.added, h.removed⟩
  refine Outcome.andThen_keeps (P := Contents.Sound P) ?_ fun m hm => ?_
  · refine Outcome.andThen_keeps (P := Contents.Sound P) ?_ fun m hm => ?_
    · exact (h.contents.clearIf _).dropAll _ _
    · exact Contents.Sound.each (fun c m hc hm => hm.addOrAlter hc _) hadd hm
  · exact Contents.Sound.each (fun c m hc hm => hm.alterPresent hc _) hupdate hm

theorem harvest {Q : V → Prop} (h : m.Sound P)
    (hQ : ∀ initial v, P v → Q (Replicated.harvest initial v).2) (initial : Bool) :
    (m.harvest initial).2.Sound Q := by
  have hkept := h.contents.map
    (f := fun ck v => (Replicated.harvest (m.added.contains ck) v).2)
    fun ck v hv => hQ (m.added.contains ck) v hv
  simp only [DataMap.harvest, DataMap.harvestWith, harvestEntries, FinMap.map_map]
  split
  · exact ⟨hkept, FinMap.ordered_empty, h.removed⟩
  · exact ⟨hkept, FinMap.ordered_empty, .empty⟩

end Sound

theorem keeps_sound [Replicated V] {P : V → Prop} (hP : Replicated.Keeps P) :
    Tracked.Keeps (Sound (K := K) P) where
  harvest initial _ h := h.harvest hP.harvest initial
  merge d _ h := by
    have hentry (e : EntryDelta Delta) : (changeOf (V := V) e).Keeps P :=
      ⟨hP.createFor e.delta, hP.apply e.delta⟩
    exact h.merge d (fun e _ => hentry e) fun e _ => hentry e
  create _ s h := by
    cases h
    exact Sound.empty false none

theorem Sound.and_values {P : V → Prop} {m : DataMap K V} (h : m.Sound fun _ => True)
    (hvalues : ∀ e ∈ m.entries.entries, P e.2.2) : m.Sound P :=
  ⟨⟨h.contents.indexed, hvalues⟩, h.added, h.removed⟩

theorem Sound.forget {P : V → Prop} {m : DataMap K V} (h : m.Sound P) :
    m.Sound fun _ => True :=
  ⟨⟨h.contents.indexed, fun _ _ => trivial⟩, h.added, h.removed⟩

end DataMap

/-! ## Data of any kind -/

namespace Datum

variable {T : Type} [Element T]

/-- Data whose collections are sound, at every depth. -/
inductive Sound : Datum T → Prop
  | counter (c : Counter) : Sound (.counter c)
  | register (r : Register T) : Sound (.register r)
  | set {s : AddRemoveSet T} (h : s.Sound) : Sound (.set s)
  | vote (v : Vote) : Sound (.vote v)
  | map {m : DataMap T (Datum T)} (h : m.Sound fun _ => True)
      (hvalues : ∀ e ∈ m.entries.entries, Sound e.2.2) : Sound (.map m)
  | counterMap {m : CounterMap T} (h : UniformMap.Sound (fun _ => True) m) :
      Sound (.counterMap m)
  | registerMap {m : RegisterMap T T} (h : UniformMap.Sound (fun _ => True) m) :
      Sound (.registerMap m)
  | multiMap {m : MultiMap T T} (h : UniformMap.Sound AddRemoveSet.Sound m) :
      Sound (.multiMap m)

theorem sound_map_iff {m : DataMap T (Datum T)} : Sound (.map m) ↔ m.Sound Sound := by
  constructor
  · intro h
    cases h with
    | map h hvalues => exact h.and_values hvalues
  · intro h
    exact .map h.forget h.contents.values

theorem sound_harvest (initial : Bool) {x : Datum T} (h : x.Sound) :
    (harvest initial x).2.Sound := by
  induction x using Datum.induction generalizing initial with
  | leaf x hx =>
      cases h with
      | counter c => exact .counter _
      | register r => exact .register _
      | set h => exact .set (h.harvest initial)
      | vote v => exact .vote _
      | map h hvalues => exact absurd rfl hx
      | counterMap h => exact .counterMap (h.harvest Tracked.keeps_true initial)
      | registerMap h => exact .registerMap (h.harvest Tracked.keeps_true initial)
      | multiMap h => exact .multiMap (h.harvest AddRemoveSet.keeps_sound initial)
  | map m ih =>
      have hm := sound_map_iff.mp h
      have hvalues : m.Sound fun v => ∀ initial, (harvest initial v).2.Sound :=
        hm.forget.and_values fun e he initial => ih e he initial (hm.contents.values e he)
      rw [harvest_map]
      exact sound_map_iff.mpr (hvalues.harvest (fun initial v hv => hv initial) initial)

theorem sound_createFor {d : Delta} {x : Datum T} (h : createFor d = .ok x) : x.Sound := by
  cases d with
  | register d =>
      simp only [createFor] at h
      cases hr : Register.create (V := T) d with
      | error e => simp [hr, Except.map] at h
      | ok r =>
          simp only [hr, Except.map, Except.ok.injEq] at h
          exact h ▸ .register r
  | counter d => exact Except.ok.inj h ▸ .counter _
  | set d => exact Except.ok.inj h ▸ .set (.empty false)
  | vote d => exact Except.ok.inj h ▸ .vote _
  | map d => exact Except.ok.inj h ▸ sound_map_iff.mpr (.empty false none)
  | counterMap d => exact Except.ok.inj h ▸ .counterMap (.empty false)
  | registerMap d => exact Except.ok.inj h ▸ .registerMap (.empty false)
  | multiMap d => exact Except.ok.inj h ▸ .multiMap (.empty false)
  | flag d => cases h
  | growSet d => cases h

theorem sound_apply_leaf (d : Delta) {x : Datum T} (hx : x.kind ≠ .map) (h : x.Sound) :
    (apply d x).state.Sound := by
  cases h with
  | counter c =>
      rw [apply]
      exact .counter _
  | register r =>
      rw [apply]
      exact .register _
  | set h =>
      rw [apply]
      exact .set (AddRemoveSet.keeps_sound.replicated.apply d _ h)
  | vote v =>
      rw [apply]
      exact .vote _
  | map h hvalues => exact absurd rfl hx
  | counterMap h =>
      rw [apply]
      exact .counterMap ((UniformMap.keeps_sound Tracked.keeps_true).replicated.apply d _ h)
  | registerMap h =>
      rw [apply]
      exact .registerMap ((UniformMap.keeps_sound Tracked.keeps_true).replicated.apply d _ h)
  | multiMap h =>
      rw [apply]
      exact .multiMap
        ((UniformMap.keeps_sound AddRemoveSet.keeps_sound).replicated.apply d _ h)

theorem sound_apply (d : Delta) {x : Datum T} (h : x.Sound) : (apply d x).state.Sound := by
  induction d, x using deltaInduction with
  | leaf d x hx => exact sound_apply_leaf d hx h
  | refused d m hd => cases d <;> first | exact h | exact absurd rfl hd
  | map d m hadded hupdated =>
      rw [apply_map]
      exact sound_map_iff.mpr ((sound_map_iff.mp h).merge d
        (fun e he => ⟨fun _ => sound_createFor, hadded e he⟩)
        fun e he => ⟨fun _ => sound_createFor, hupdated e he⟩)

theorem keeps_sound : Replicated.Keeps (Sound (T := T)) where
  harvest initial _ h := sound_harvest initial h
  apply d _ h := sound_apply d h
  createFor _ _ h := sound_createFor h

end Datum

/-! ## Operations -/

theorem AddRemoveSet.Op.sound {E : Type} [Element E] (op : Op E) {s : AddRemoveSet E}
    (h : s.Sound) : (op.perform s).Sound := by
  cases op with
  | add e => exact h.add e
  | delete e => exact h.delete e
  | clear => exact h.clear

section Maps

variable {K V : Type} [Element K]

theorem CounterMap.Op.sound (op : Op K) {m : CounterMap K}
    (h : UniformMap.Sound (fun _ => True) m) :
    UniformMap.Sound (fun _ => True) (op.perform m) := by
  cases op with
  | increment k n => exact h.modify k trivial fun _ _ => trivial
  | decrement k n => exact h.modify k trivial fun _ _ => trivial
  | delete k => exact h.delete k
  | clear => exact h.clear

theorem RegisterMap.Op.sound (op : Op K V) {m : RegisterMap K V}
    (h : UniformMap.Sound (fun _ => True) m) :
    UniformMap.Sound (fun _ => True) (op.perform m) := by
  cases op with
  | set k v stamp => exact h.modify k trivial fun _ _ => trivial
  | delete k => exact h.delete k
  | clear => exact h.clear

theorem MultiMap.Op.sound [Element V] (op : Op K V) {m : MultiMap K V}
    (h : UniformMap.Sound AddRemoveSet.Sound m) :
    UniformMap.Sound AddRemoveSet.Sound (op.perform m) := by
  cases op with
  | put k v => exact h.modify k (.empty false) fun s hs => AddRemoveSet.Sound.add hs v
  | putAll k vs => exact MultiMap.sound_putAll h k vs
  | deleteValue k v => exact MultiMap.sound_deleteValue h k v
  | delete k => exact h.delete k
  | clear => exact h.clear

theorem DataMap.Op.sound (op : Op K V) {m : DataMap K V} (h : m.Sound fun _ => True) :
    (op.perform m).Sound fun _ => True := by
  cases op with
  | set k v => exact h.set k trivial
  | reach k => exact h.reach k fun _ _ _ _ _ => trivial
  | adjust k f => exact h.adjust k fun _ _ _ => trivial
  | delete k => exact h.delete k
  | clear => exact h.clear

end Maps

end DeltaReplica
