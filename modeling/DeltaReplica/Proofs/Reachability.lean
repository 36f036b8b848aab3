import DeltaReplica.Proofs.Forms
import DeltaReplica.Proofs.History
import Mathlib.Logic.Relation

/-!
# Reachable states

How data of any type come about: they start new or are created for a delta, and change by
local operations, harvests and deltas, of which each may fail part-way.  Values of a map
have a history of their own before they enter it, and go on with it inside.

An invariant is a property of new data that all changes keep (`Replicated.Invariant`), and
data with a history have it.  Soundness is an invariant of every type.

Going through a map and changing its values in place leads to no states that single changes
do not lead to (`Replicated.Form.Made.mapValues`).
-/

namespace DeltaReplica

namespace Replicated

section Histories

variable {σ : Type} [Replicated σ] {Start : σ → Prop} {Operate : σ → σ → Prop}

/-- A change of data: a local operation, a harvest, or a delta, however far it goes. -/
inductive ChangedBy (Operate : σ → σ → Prop) : σ → σ → Prop
  | operate {s s' : σ} (h : Operate s s') : ChangedBy Operate s s'
  | harvest (initial : Bool) (s : σ) : ChangedBy Operate s (harvest initial s).2
  | apply (d : Delta) (s : σ) : ChangedBy Operate s (apply d s).state

/-- Data that come about by changes of new data, or of data created for a delta. -/
inductive MadeBy (Start : σ → Prop) (Operate : σ → σ → Prop) : σ → Prop
  | start {s : σ} (h : Start s) : MadeBy Start Operate s
  | created {d : Delta} {s : σ} (h : createFor d = .ok s) : MadeBy Start Operate s
  | change {s s' : σ} (hs : MadeBy Start Operate s) (h : ChangedBy Operate s s') :
      MadeBy Start Operate s'

/-- A property of new data that operations, harvests and deltas keep. -/
structure Invariant (Start : σ → Prop) (Operate : σ → σ → Prop) (P : σ → Prop) : Prop where
  start : ∀ s, Start s → P s
  operate : ∀ s s', Operate s s' → P s → P s'
  keeps : Keeps P

variable {P : σ → Prop} {s s' : σ}

theorem Invariant.change (h : Invariant Start Operate P) (hchange : ChangedBy Operate s s')
    (hs : P s) : P s' := by
  cases hchange with
  | operate hop => exact h.operate _ _ hop hs
  | harvest initial => exact h.keeps.harvest initial s hs
  | apply d => exact h.keeps.apply d s hs

theorem Invariant.made (h : Invariant Start Operate P) (hs : MadeBy Start Operate s) : P s := by
  induction hs with
  | start hstart => exact h.start _ hstart
  | created hd => exact h.keeps.createFor _ _ hd
  | change _ hchange ih => exact h.change hchange ih

end Histories

/-! ## The types -/

/-- New data of a type. -/
def Form.Start : {σ : Type} → {inst : Replicated σ} → Form σ inst → σ → Prop
  | _, _, counter, c => c = {}
  | _, _, @register _ _, r => ∃ v stamp, r = .new v stamp
  | _, _, flag, f => f = {}
  | _, _, vote, v => ∃ totalVoters, v = { totalVoters }
  | _, _, @growSet _ _, s => s = {}
  | _, _, @set _ _, s => s = {}
  | _, _, @counterMap _ _, m => m = {}
  | _, _, @registerMap _ _ _ _, m => m = {}
  | _, _, @multiMap _ _ _ _, m => m = {}
  | _, _, @datum _ _, x => Datum.Start x
  | _, _, @map _ _ _ _ _, m => ∃ supply, m = { supply }

/-- The local operations on data of a type, at every depth. -/
def Form.Operate : {σ : Type} → {inst : Replicated σ} → Form σ inst → σ → σ → Prop
  | _, _, counter, c, c' => ∃ op : Counter.Op, c' = op.perform c
  | _, _, @register _ _, r, r' => ∃ op : Register.Op _, r' = op.perform r
  | _, _, flag, f, f' => f' = Flag.enable f
  | _, _, vote, v, v' => ∃ op : Vote.Op, v' = op.perform v
  | _, _, @growSet _ _, s, s' => ∃ e, s' = GrowSet.add e s
  | _, _, @set _ _, s, s' => ∃ op : AddRemoveSet.Op _, s' = op.perform s
  | _, _, @counterMap _ _, m, m' => ∃ op : CounterMap.Op _, m' = op.perform m
  | _, _, @registerMap _ _ _ _, m, m' => ∃ op : RegisterMap.Op _ _, m' = op.perform m
  | _, _, @multiMap _ _ _ _, m, m' => ∃ op : MultiMap.Op _ _, m' = op.perform m
  | _, _, @datum _ _, x, y => Datum.Step .peers x y
  | _, _, @map _ _ _ _ values, m, m' =>
    DataMap.Step (MadeBy values.Start values.Operate) (ChangedBy values.Operate)
      (fun _ _ => True) m m'

/-- Data of a type that have a history. -/
def Form.Made {σ : Type} {inst : Replicated σ} (form : Form σ inst) : σ → Prop :=
  MadeBy form.Start form.Operate

theorem Form.Start.sound {σ : Type} {inst : Replicated σ} {form : Form σ inst} {s : σ}
    (h : form.Start s) : form.Sound s := by
  cases form with
  | counter | register | flag | vote => trivial
  | growSet => exact h ▸ ⟨.empty, FinMap.ordered_empty⟩
  | set => exact h ▸ .empty false
  | counterMap | registerMap | multiMap => exact h ▸ .empty false
  | datum => exact Datum.Start.sound h
  | map =>
      obtain ⟨supply, rfl⟩ := h
      exact .empty false supply

/-- The values that enter a map have a history, and go on with it inside. -/
theorem Form.invariant_sound {σ : Type} {inst : Replicated σ} (form : Form σ inst) :
    Invariant form.Start form.Operate form.Sound := by
  refine ⟨fun s h => Form.Start.sound h, ?_, form.keeps_sound⟩
  induction form with
  | counter | register | flag | vote => exact fun _ _ _ _ => trivial
  | growSet =>
      rintro s _ ⟨e, rfl⟩ hs
      exact GrowSet.Sound.add hs e
  | set | counterMap | registerMap | multiMap =>
      rintro s _ ⟨op, rfl⟩ hs
      exact op.sound hs
  | datum => exact fun _ _ h => (Datum.kept_sound .peers).steps h
  | map K values ih =>
      have hvalues : Invariant values.Start values.Operate values.Sound :=
        ⟨fun v h => Form.Start.sound h, ih, values.keeps_sound⟩
      exact fun m m' h hm => (h.mono (fun _ => hvalues.made) fun _ _ => hvalues.change).sound
        (fun _ _ hvv' => hvv') hm

theorem Form.Made.sound {σ : Type} {inst : Replicated σ} {form : Form σ inst} {s : σ}
    (h : form.Made s) : form.Sound s :=
  form.invariant_sound.made h

/-! ## Changes in place -/

section InPlace

variable {K σ : Type} [Element K] {inst : Replicated σ} {values : Form σ inst} {m : DataMap K σ}

/-- Any number of changes of data, none at all included. -/
abbrev Form.Changes (values : Form σ inst) : σ → σ → Prop :=
  Relation.ReflTransGen (ChangedBy values.Operate)

/-- A value of a map may change several times in place. -/
theorem Form.Made.adjust (hm : (Form.map K values).Made m) {k : K} {v v' : σ}
    (hv : m.get? k = some v) (h : values.Changes v v') :
    (Form.map K values).Made (m.adjust k fun _ => v') := by
  obtain ⟨⟨k', v⟩, hfind, rfl⟩ := Option.map_eq_some_iff.mp hv
  have hadjust (v' : σ) : m.adjust k (fun _ => v') =
      { m with entries := m.entries.insert (Element.key k) (k', v') } := by
    rw [DataMap.adjust, hfind]
  induction h with
  | refl => rwa [hadjust, hm.sound.contents.indexed.ordered.insert_of_find? hfind]
  | @tail v' v'' _ hlast ih =>
      have hget : (m.adjust k fun _ => v').get? k = some v' := by
        rw [DataMap.get?_adjust_self, hv, Option.map_some]
      have hlater : (m.adjust k fun _ => v').adjust k (fun _ => v'') =
          m.adjust k fun _ => v'' := by
        rw [hadjust, hadjust, DataMap.adjust, FinMap.find?_insert_self]
        simp only [FinMap.insert_insert]
      rw [← hlater]
      exact ih.change (.operate (.adjust k hget hlast))

/-- The values of the last entries of a map may change in place, one after the other. -/
theorem Form.Made.adjustLast (hm : (Form.map K values).Made m) {f : K → σ → σ}
    (before : List (Key × K × σ)) {after : List (Key × K × σ)}
    (hentries : m.entries = ⟨before ++ after⟩)
    (hf : ∀ e ∈ after, values.Changes e.2.2 (f e.2.1 e.2.2)) :
    (Form.map K values).Made
      { m with entries := ⟨before ++ after.map fun e => (e.1, e.2.1, f e.2.1 e.2.2)⟩ } := by
  induction after generalizing before m with
  | nil => rwa [List.map_nil, ← hentries]
  | cons e after ih =>
      obtain ⟨ck, k, v⟩ := e
      obtain ⟨hget, hadjust⟩ := hm.sound.adjust_append_cons hentries (f k v)
      have hfirst := hm.adjust hget (hf _ List.mem_cons_self)
      rw [hadjust] at hfirst
      have hrest := ih hfirst (before ++ [(ck, k, f k v)]) (by simp)
        fun e he => hf e (List.mem_cons_of_mem _ he)
      simpa using hrest

/-- Whoever goes through a map may change each value in place. -/
theorem Form.Made.mapValues (hm : (Form.map K values).Made m) {f : K → σ → σ}
    (hf : ∀ e ∈ m.entries.entries, values.Changes e.2.2 (f e.2.1 e.2.2)) :
    (Form.map K values).Made (m.mapValuesM (M := Id) f) := by
  rw [DataMap.mapValuesM_id]
  exact hm.adjustLast [] rfl hf

end InPlace

end Replicated

end DeltaReplica
