import DeltaReplica.Proofs.Handover
import DeltaReplica.Proofs.Reachability
import DeltaReplica.Proofs.Upkeep

/-!
# Staging in sets

No element of a set is staged both as added and as removed, although deltas make staged
elements leave the contents or come back to them.  For the contents of a set decide
which elements an operation stages, but each time an element is staged one way it is
unstaged the other way, and deltas stage nothing.

This holds of every set with a history, in whatever data it is
(`Replicated.Form.Made.stagedApart`).
-/

namespace DeltaReplica

variable {K V E T : Type}

/-! ## Sets -/

namespace AddRemoveSet

/-- No element is staged both as added and as removed. -/
def StagedApart (s : AddRemoveSet E) : Prop :=
  ∀ ck, s.added.contains ck = true → s.removed.contains ck = false

theorem stagedApart_empty (cleared : Bool) : StagedApart ({ cleared } : AddRemoveSet E) :=
  fun _ h => nomatch h

variable [Element E] {s : AddRemoveSet E}

namespace StagedApart

omit [Element E] in
theorem clear (h : s.StagedApart) : s.clear.StagedApart := by
  rcases clear_cases s with hclear | hclear
  · rwa [hclear]
  · rw [hclear]
    exact stagedApart_empty true

theorem add (h : s.StagedApart) (e : E) : (s.add e).StagedApart := by
  rcases add_cases e s with hadd | ⟨-, hadd⟩
  · rwa [hadd]
  · rw [hadd]
    intro ck hck
    rw [FinMap.contains_erase]
    by_cases hr : s.removed.contains (Element.key e) = true
    · rw [if_pos hr] at hck
      rw [h ck hck, Bool.and_false]
    · rw [if_neg hr, FinMap.contains_insert, Bool.or_eq_true, decide_eq_true_eq] at hck
      rcases hck with rfl | hck
      · simp
      · rw [h ck hck, Bool.and_false]

theorem addAll (h : s.StagedApart) (es : List E) : (s.addAll es).StagedApart := by
  induction es generalizing s with
  | nil => exact h
  | cons e es ih => exact ih (h.add e)

theorem delete (h : s.StagedApart) (e : E) : (s.delete e).StagedApart := by
  rcases delete_cases e s with hdelete | hdelete | ⟨stored, -, hdelete⟩
  · rwa [hdelete]
  · rw [hdelete]
    exact h.clear
  · rw [hdelete]
    intro ck hck
    rw [FinMap.contains_erase, Bool.and_eq_true, decide_eq_true_eq] at hck
    obtain ⟨hne, hck⟩ := hck
    by_cases ha : s.added.contains (Element.key e) = true
    · rw [if_pos ha]
      exact h ck hck
    · rw [if_neg ha, FinMap.contains_insert, h ck hck, Bool.or_false]
      exact decide_eq_false hne

end StagedApart

theorem Op.stagedApart (op : Op E) (h : s.StagedApart) : (op.perform s).StagedApart := by
  cases op with
  | add e => exact h.add e
  | delete e => exact h.delete e
  | clear => exact h.clear

/-- Harvests unstage everything, and deltas change the contents only. -/
theorem keeps_stagedApart : Tracked.Keeps (StagedApart (E := E)) where
  harvest initial s _ := by
    rw [snd_harvest]
    exact stagedApart_empty false
  merge _ _ h := h
  create _ _ h := by
    cases h
    exact stagedApart_empty false

end AddRemoveSet

/-! ## Values of maps -/

section Maps

variable [Element K] {P : V → Prop}

theorem UniformMap.keeps_every {δ : Type} [Tracked V δ] (hP : Tracked.Keeps P) :
    Tracked.Keeps fun m : UniformMap K V => Contents.Every (fun _ => P) m.entries where
  harvest initial m h := by
    rw [snd_harvest]
    intro e he
    obtain ⟨e', he', rfl⟩ := List.mem_map.mp he
    exact hP.harvest false _ (h e' he')
  merge d m h := every_merge h d fun e _ =>
    ⟨fun _ _ => hP.merge e.delta, fun _ _ v hv _ => hP.merge e.delta v (hP.create e.delta v hv)⟩
  create _ _ h := by
    cases h
    exact .empty

theorem UniformMap.every_modify {P : Key → V → Prop} {m : UniformMap K V}
    (h : Contents.Every P m.entries) (k : K) {fresh : V} {f : V → V}
    (hfresh : P (Element.key k) fresh)
    (hf : ∀ v, P (Element.key k) v → P (Element.key k) (f v)) :
    Contents.Every P (m.modify k fresh f).entries := by
  unfold modify
  cases hfind : m.entries.find? (Element.key k) with
  | none => exact h.insert (hf fresh hfresh)
  | some e => exact h.insert (hf _ (h.of_find? hfind))

theorem UniformMap.every_delete {P : Key → V → Prop} {m : UniformMap K V}
    (h : Contents.Every P m.entries) (k : K) : Contents.Every P (m.delete k).entries := by
  rw [entries_delete]
  exact h.erase _

theorem MultiMap.every_putAll [Element V] {m : MultiMap K V}
    (h : Contents.Every (fun _ => AddRemoveSet.StagedApart) m.entries) (k : K) (vs : List V) :
    Contents.Every (fun _ => AddRemoveSet.StagedApart) (UniformMap.entries (m.putAll k vs)) := by
  unfold putAll
  split
  · exact h
  · exact UniformMap.every_modify h k (AddRemoveSet.stagedApart_empty false)
      fun _ hs => hs.addAll vs

theorem MultiMap.every_deleteValue [Element V] {m : MultiMap K V}
    (h : Contents.Every (fun _ => AddRemoveSet.StagedApart) m.entries) (k : K) (v : V) :
    Contents.Every (fun _ => AddRemoveSet.StagedApart)
      (UniformMap.entries (m.deleteValue k v)) := by
  have hmodify := UniformMap.every_modify h k (AddRemoveSet.stagedApart_empty false)
    fun _ hs => hs.delete v
  unfold deleteValue
  split
  · exact h
  · split
    · exact UniformMap.every_delete hmodify k
    · exact hmodify

theorem MultiMap.Op.every_stagedApart [Element V] (op : Op K V) {m : MultiMap K V}
    (h : Contents.Every (fun _ => AddRemoveSet.StagedApart) m.entries) :
    Contents.Every (fun _ => AddRemoveSet.StagedApart)
      (UniformMap.entries (op.perform m)) := by
  cases op with
  | put k v =>
      exact UniformMap.every_modify h k (AddRemoveSet.stagedApart_empty false)
        fun _ hs => hs.add v
  | putAll k vs => exact MultiMap.every_putAll h k vs
  | deleteValue k v => exact MultiMap.every_deleteValue h k v
  | delete k => exact UniformMap.every_delete h k
  | clear =>
      rw [perform, UniformMap.entries_clear]
      exact .empty

theorem DataMap.keeps_every [Replicated V] (hP : Replicated.Keeps P) :
    Tracked.Keeps fun m : DataMap K V => Contents.Every (fun _ => P) m.entries where
  harvest initial m h := by
    rw [snd_harvest]
    intro e he
    obtain ⟨e', he', rfl⟩ := List.mem_map.mp he
    exact hP.harvest _ _ (h e' he')
  merge d m h := by
    have hentry (e : EntryDelta Delta) : (changeOf (V := V) e).Upholds fun _ => P :=
      ⟨fun _ => hP.apply e.delta, fun _ v hv _ => hP.apply e.delta v (hP.createFor e.delta v hv)⟩
    exact every_merge h d (fun e _ => hentry e) fun e _ => hentry e
  create _ _ h := by
    cases h
    exact .empty

theorem DataMap.Step.every {Inner : V → V → Prop} {Free : DataMap K V → K → Prop}
    {m m' : DataMap K V} (h : Step P Inner Free m m') (hinner : ∀ v v', Inner v v' → P v → P v')
    (hm : Contents.Every (fun _ => P) m.entries) : Contents.Every (fun _ => P) m'.entries := by
  have hset (k : K) {v : V} (hv : P v) :
      Contents.Every (fun _ => P) (m.set k v).result.entries := by
    rw [entries_set]
    exact hm.insert hv
  cases h with
  | set k hv hfree => exact hset k hv
  | reach k hsupply hfree =>
      rcases reach_cases k m with hreach | ⟨f, n, hf, hn, hk, hreach⟩
      · rwa [hreach]
      · rw [hreach]
        exact hset k (hsupply f n hf hn hk)
  | adjust k hv h =>
      obtain ⟨e, hfind, rfl⟩ := Option.map_eq_some_iff.mp hv
      have hadjust := hinner _ _ h (hm.of_find? hfind)
      rcases adjust_cases k _ m with hsame | ⟨e, -, hchanged⟩
      · rwa [hsame]
      · rw [hchanged]
        exact hm.insert hadjust
  | delete k =>
      rw [entries_delete]
      exact hm.erase _
  | clear =>
      rw [entries_clear]
      exact .empty

end Maps

/-! ## Data of any kind -/

namespace Datum

/-- Data in whose sets no element is staged both ways, at any depth. -/
inductive StagedApart : Datum T → Prop
  | counter (c : Counter) : StagedApart (.counter c)
  | register (r : Register T) : StagedApart (.register r)
  | set {s : AddRemoveSet T} (h : s.StagedApart) : StagedApart (.set s)
  | vote (v : Vote) : StagedApart (.vote v)
  | map {m : DataMap T (Datum T)} (h : ∀ e ∈ m.entries.entries, StagedApart e.2.2) :
      StagedApart (.map m)
  | counterMap (m : CounterMap T) : StagedApart (.counterMap m)
  | registerMap (m : RegisterMap T T) : StagedApart (.registerMap m)
  | multiMap {m : MultiMap T T}
      (h : Contents.Every (fun _ => AddRemoveSet.StagedApart) m.entries) :
      StagedApart (.multiMap m)

theorem stagedApart_map_iff {m : DataMap T (Datum T)} :
    StagedApart (.map m) ↔ Contents.Every (fun _ => StagedApart) m.entries :=
  ⟨fun h => by cases h; assumption, .map⟩

theorem Start.stagedApart {x : Datum T} (h : Start x) : x.StagedApart := by
  cases h with
  | counter => exact .counter _
  | register v stamp => exact .register _
  | set => exact .set (AddRemoveSet.stagedApart_empty false)
  | vote n => exact .vote _
  | map supply => exact stagedApart_map_iff.mpr .empty
  | counterMap => exact .counterMap _
  | registerMap => exact .registerMap _
  | multiMap => exact .multiMap .empty

variable [Element T]

theorem stagedApart_harvest (initial : Bool) {x : Datum T} (h : x.StagedApart) :
    (harvest initial x).2.StagedApart := by
  induction x using Datum.induction generalizing initial with
  | leaf x hx =>
      cases h with
      | counter c => exact .counter _
      | register r => exact .register _
      | set h =>
          rw [embeds_set.snd_harvest]
          exact .set (AddRemoveSet.keeps_stagedApart.harvest initial _ h)
      | vote v => exact .vote _
      | map h => exact absurd rfl hx
      | counterMap m => exact .counterMap _
      | registerMap m => exact .registerMap _
      | multiMap h =>
          rw [embeds_multiMap.snd_harvest]
          exact .multiMap
            ((UniformMap.keeps_every AddRemoveSet.keeps_stagedApart).harvest initial _ h)
  | map m ih =>
      have hm := stagedApart_map_iff.mp h
      rw [embeds_map.snd_harvest, DataMap.snd_harvest]
      refine stagedApart_map_iff.mpr fun e he => ?_
      obtain ⟨e', he', rfl⟩ := List.mem_map.mp he
      exact ih e' he' _ (hm e' he')

theorem Operate.stagedApart {x y : Datum T} (h : Operate x y) (hx : x.StagedApart) :
    y.StagedApart := by
  cases h with
  | counter op c => exact .counter _
  | register op r => exact .register _
  | set op s =>
      cases hx with
      | set hs => exact .set (op.stagedApart hs)
  | vote op v => exact .vote _
  | counterMap op m => exact .counterMap _
  | registerMap op m => exact .registerMap _
  | multiMap op m =>
      cases hx with
      | multiMap hm => exact .multiMap (op.every_stagedApart hm)

theorem stagedApart_apply (d : Delta) {x : Datum T} (h : x.StagedApart) :
    (apply d x).state.StagedApart := by
  induction d, x using deltaInduction with
  | leaf d x hx =>
      cases h with
      | counter c =>
          rw [apply]
          exact .counter _
      | register r =>
          rw [apply]
          exact .register _
      | set h =>
          rw [apply]
          exact .set (AddRemoveSet.keeps_stagedApart.replicated.apply d _ h)
      | vote v =>
          rw [apply]
          exact .vote _
      | map h => exact absurd rfl hx
      | counterMap m =>
          rw [apply]
          exact .counterMap _
      | registerMap m =>
          rw [apply]
          exact .registerMap _
      | multiMap h =>
          rw [apply]
          exact .multiMap
            ((UniformMap.keeps_every AddRemoveSet.keeps_stagedApart).replicated.apply d _ h)
  | refused d m hd => cases d <;> first | exact h | exact absurd rfl hd
  | map d m hadded hupdated =>
      have hentry {e : EntryDelta Delta}
          (ih : ∀ x : Datum T, x.StagedApart → (apply e.delta x).state.StagedApart) :
          (DataMap.changeOf (V := Datum T) e).Upholds fun _ => StagedApart :=
        ⟨fun _ => ih, fun _ v hv _ => ih v (start_of_createFor hv).stagedApart⟩
      rw [apply_map]
      exact stagedApart_map_iff.mpr (DataMap.every_merge (stagedApart_map_iff.mp h) d
        (fun e he => hentry (hadded e he)) fun e he => hentry (hupdated e he))

theorem kept_stagedApart (company : Company) :
    Kept company (StagedApart (T := T)) fun x y => x.StagedApart → y.StagedApart where
  start _ h := h.stagedApart
  created _ _ _ h := (start_of_createFor h).stagedApart
  step _ _ hx h := h hx
  operate _ _ h := h.stagedApart
  map _ _ h hm :=
    stagedApart_map_iff.mpr (h.every (fun _ _ hvv' => hvv') (stagedApart_map_iff.mp hm))
  harvest _ initial _ h := stagedApart_harvest initial h
  apply _ d _ h := stagedApart_apply d h

theorem keeps_stagedApart : Replicated.Keeps (StagedApart (T := T)) where
  harvest initial _ h := stagedApart_harvest initial h
  apply d _ h := stagedApart_apply d h
  createFor _ _ h := (start_of_createFor h).stagedApart

end Datum

/-! ## All types -/

namespace Replicated

/-- Data in whose sets no element is staged both ways, at any depth. -/
def Form.StagedApart : {σ : Type} → {inst : Replicated σ} → Form σ inst → σ → Prop
  | _, _, @set _ _, s => AddRemoveSet.StagedApart s
  | _, _, @multiMap _ _ _ _, m => Contents.Every (fun _ => AddRemoveSet.StagedApart) m.entries
  | _, _, @datum _ _, x => Datum.StagedApart x
  | _, _, @map _ _ _ _ values, m => Contents.Every (fun _ => values.StagedApart) m.entries
  | _, _, _, _ => True

theorem Form.keeps_stagedApart {σ : Type} {inst : Replicated σ} (form : Form σ inst) :
    Keeps form.StagedApart := by
  induction form with
  | counter | register | flag | vote | growSet | counterMap | registerMap =>
      exact Tracked.keeps_true.replicated
  | set V => exact AddRemoveSet.keeps_stagedApart.replicated
  | multiMap K V => exact (UniformMap.keeps_every AddRemoveSet.keeps_stagedApart).replicated
  | datum T => exact Datum.keeps_stagedApart
  | map K values ih => exact (DataMap.keeps_every ih).replicated

theorem Form.Start.stagedApart {σ : Type} {inst : Replicated σ} {form : Form σ inst} {s : σ}
    (h : form.Start s) : form.StagedApart s := by
  cases form with
  | counter | register | flag | vote | growSet | counterMap | registerMap => trivial
  | set => exact h ▸ AddRemoveSet.stagedApart_empty false
  | multiMap => exact h ▸ .empty
  | datum => exact Datum.Start.stagedApart h
  | map =>
      obtain ⟨supply, rfl⟩ := h
      exact .empty

/-- That no element of a set is staged both ways is an invariant. -/
theorem Form.invariant_stagedApart {σ : Type} {inst : Replicated σ} (form : Form σ inst) :
    Invariant form.Start form.Operate form.StagedApart := by
  refine ⟨fun s h => Form.Start.stagedApart h, ?_, form.keeps_stagedApart⟩
  induction form with
  | counter | register | flag | vote | growSet | counterMap | registerMap =>
      exact fun _ _ _ _ => trivial
  | set =>
      rintro s _ ⟨op, rfl⟩ hs
      exact op.stagedApart hs
  | multiMap =>
      rintro m _ ⟨op, rfl⟩ hm
      exact op.every_stagedApart hm
  | datum => exact fun _ _ h => (Datum.kept_stagedApart .peers).steps h
  | map K values ih =>
      have hvalues : Invariant values.Start values.Operate values.StagedApart :=
        ⟨fun v h => Form.Start.stagedApart h, ih, values.keeps_stagedApart⟩
      exact fun m m' h hm => (h.mono (fun _ => hvalues.made) fun _ _ => hvalues.change).every
        (fun _ _ hvv' => hvv') hm

theorem Form.Made.stagedApart {σ : Type} {inst : Replicated σ} {form : Form σ inst} {s : σ}
    (h : form.Made s) : form.StagedApart s :=
  form.invariant_stagedApart.made h

end Replicated

end DeltaReplica
