import DeltaReplica.Proofs.Quiescence
import Mathlib.Data.List.Forall2

/-!
# Harvests and contents

A harvest hands over what is pending and keeps the contents: afterwards there is the same
to be seen in the data, at every depth, and nothing left to hand over
(`Replicated.harvest_keeps_contents`).

Contents are compared entry by entry, in the order in which they are stored, so nothing is
asked of the data: neither that they are sound nor that keys are told apart.
-/

namespace DeltaReplica

variable {K V E T : Type}

/-! ## The same contents -/

/-- Votes with the same vote and the same tallies. -/
structure Vote.SameContents (v v' : Vote) : Prop where
  selfVote : v.selfVote = v'.selfVote
  votesFor : v.votesFor = v'.votesFor
  totalVoters : v.totalVoters = v'.totalVoters

/-- Contents with the same keys in the same order, and with related values under them. -/
structure Contents.Aligned (S : V → V → Prop) (m m' : Entries K V) : Prop where
  keys : m.entries.map (fun e => (e.1, e.2.1)) = m'.entries.map fun e => (e.1, e.2.1)
  values : List.Forall₂ (fun e e' => S e.2.2 e'.2.2) m.entries m'.entries

/-- Maps to replicated data with the same entries, which supply the same values for keys that are
missing. -/
structure DataMap.SameContents (S : V → V → Prop) (m m' : DataMap K V) : Prop where
  entries : Contents.Aligned S m.entries m'.entries
  supply : m.supply = m'.supply

/-- Data of the same kind with the same contents. -/
inductive Datum.SameContents : Datum T → Datum T → Prop
  | counter {c c' : Counter} (h : c.value = c'.value) : SameContents (.counter c) (.counter c')
  | register {r r' : Register T} (h : r.value = r'.value) :
      SameContents (.register r) (.register r')
  | set {s s' : AddRemoveSet T} (h : s.elements = s'.elements) : SameContents (.set s) (.set s')
  | vote {v v' : Vote} (h : v.SameContents v') : SameContents (.vote v) (.vote v')
  | map {m m' : DataMap T (Datum T)}
      (hkeys : m.entries.entries.map (fun e => (e.1, e.2.1)) =
        m'.entries.entries.map fun e => (e.1, e.2.1))
      (hvalues : List.Forall₂ (fun e e' => SameContents e.2.2 e'.2.2)
        m.entries.entries m'.entries.entries)
      (hsupply : m.supply = m'.supply) : SameContents (.map m) (.map m')
  | counterMap {m m' : CounterMap T}
      (h : Contents.Aligned (fun c c' => c.value = c'.value) m.entries m'.entries) :
      SameContents (.counterMap m) (.counterMap m')
  | registerMap {m m' : RegisterMap T T}
      (h : Contents.Aligned (fun r r' => r.value = r'.value) m.entries m'.entries) :
      SameContents (.registerMap m) (.registerMap m')
  | multiMap {m m' : MultiMap T T}
      (h : Contents.Aligned (fun s s' => s.elements = s'.elements) m.entries m'.entries) :
      SameContents (.multiMap m) (.multiMap m')

/-- Data of the same type with the same contents, at every depth: the same numbers, values, votes
and tallies, the same elements, and the same keys with the same contents under them. -/
def Replicated.Form.SameContents :
    {σ : Type} → {inst : Replicated σ} → Form σ inst → σ → σ → Prop
  | _, _, counter, c, c' => c.value = c'.value
  | _, _, @register _ _, r, r' => r.value = r'.value
  | _, _, flag, f, f' => f.value = f'.value
  | _, _, vote, v, v' => Vote.SameContents v v'
  | _, _, @growSet _ _, s, s' => s.elements = s'.elements
  | _, _, @set _ _, s, s' => s.elements = s'.elements
  | _, _, @counterMap _ _, m, m' =>
    Contents.Aligned (fun c c' => c.value = c'.value) m.entries m'.entries
  | _, _, @registerMap _ _ _ _, m, m' =>
    Contents.Aligned (fun r r' => r.value = r'.value) m.entries m'.entries
  | _, _, @multiMap _ _ _ _, m, m' =>
    Contents.Aligned (fun s s' => s.elements = s'.elements) m.entries m'.entries
  | _, _, @datum _ _, x, x' => Datum.SameContents x x'
  | _, _, @map _ _ _ _ values, m, m' => DataMap.SameContents values.SameContents m m'

/-! ## Harvests -/

/-- Tracked data keep what `S` relates when they are harvested, and an initial harvest always hands
something over. -/
structure Tracked.Retains {σ δ : Type} [Tracked σ δ] (S : σ → σ → Prop) : Prop where
  contents : ∀ initial s, S s (harvest initial s).2
  initial : ∀ s : σ, (harvest true s).1.isSome = true

/-- The same of replicated data. -/
structure Replicated.Retains {σ : Type} [Replicated σ] (S : σ → σ → Prop) : Prop where
  contents : ∀ initial s, S s (harvest initial s).2
  initial : ∀ s : σ, (harvest true s).1.isSome = true

theorem Tracked.Retains.replicated {σ δ : Type} [Tracked σ δ] [DeltaForm δ] {S : σ → σ → Prop}
    (h : Tracked.Retains S) : Replicated.Retains S where
  contents := h.contents
  initial s := by
    have hinitial := h.initial s
    simpa [Replicated.harvest] using hinitial

theorem Contents.aligned_map {S : V → V → Prop} {m : Entries K V} (f : Key → V → V)
    (h : ∀ e ∈ m.entries, S e.2.2 (f e.1 e.2.2)) :
    Contents.Aligned S m (m.map fun ck (k, v) => (k, f ck v)) where
  keys := by simp [FinMap.map, Function.comp_def]
  values := List.forall₂_map_right_iff.mpr (List.forall₂_same.mpr h)

theorem Counter.retains : Tracked.Retains fun c c' : Counter => c.value = c'.value where
  contents initial c := by rw [snd_harvest]
  initial c := by simp [Tracked.harvest, harvest]

theorem Flag.retains : Tracked.Retains fun f f' : Flag => f.value = f'.value where
  contents _ _ := rfl
  initial f := by simp [Tracked.harvest, harvest]

theorem Vote.retains : Tracked.Retains Vote.SameContents where
  contents _ _ := ⟨rfl, rfl, rfl⟩
  initial _ := rfl

section Elements

variable [Element V]

theorem Register.retains : Tracked.Retains fun r r' : Register V => r.value = r'.value where
  contents _ _ := rfl
  initial r := by cases h : r.pending <;> simp [Tracked.harvest, harvest, h]

theorem GrowSet.retains : Tracked.Retains fun s s' : GrowSet V => s.elements = s'.elements where
  contents initial s := (s.elements_harvest initial).symm
  initial s := by simp [Tracked.harvest, harvest]

theorem AddRemoveSet.retains :
    Tracked.Retains fun s s' : AddRemoveSet V => s.elements = s'.elements where
  contents initial s := by rw [snd_harvest]
  initial s := by simp [Tracked.harvest, harvest]

end Elements

section Maps

variable [Element K]

theorem UniformMap.retains {δ : Type} [Tracked V δ] {S : V → V → Prop} (hS : Tracked.Retains S) :
    Tracked.Retains fun m m' : UniformMap K V => Contents.Aligned S m.entries m'.entries where
  contents initial m := by
    rw [snd_harvest]
    exact Contents.aligned_map (fun _ v => (Tracked.harvest false v).2) fun e _ =>
      hS.contents false e.2.2
  initial m := by simp [Tracked.harvest, harvest]

theorem DataMap.retains_contents [Replicated V] {S : V → V → Prop} (initial : Bool)
    {m : DataMap K V}
    (hS : ∀ e ∈ m.entries.entries, ∀ b, S e.2.2 (Replicated.harvest b e.2.2).2) :
    DataMap.SameContents S m (Tracked.harvest initial m).2 := by
  rw [snd_harvest]
  exact ⟨Contents.aligned_map (fun ck v => (Replicated.harvest (m.added.contains ck) v).2)
    fun e he => hS e he _, rfl⟩

theorem DataMap.isSome_harvest_true [Replicated V] (m : DataMap K V) :
    (Tracked.harvest true m).1.isSome = true := by
  rw [m.harvest_true, Option.isSome_some]

theorem DataMap.retains [Replicated V] {S : V → V → Prop} (hS : Replicated.Retains S) :
    Tracked.Retains (DataMap.SameContents (K := K) S) where
  contents initial _ := retains_contents initial fun e _ b => hS.contents b e.2.2
  initial := isSome_harvest_true

end Maps

namespace Datum

variable [Element T]

theorem Embeds.retains {σ δ : Type} [Tracked σ δ] [DeltaForm δ] {mk : σ → Datum T}
    (hmk : Embeds mk) {S : σ → σ → Prop} (hS : Tracked.Retains S)
    (hsame : ∀ {s s'}, S s s' → SameContents (mk s) (mk s')) (s : σ) :
    (∀ initial, SameContents (mk s) (Datum.harvest initial (mk s)).2) ∧
      (Datum.harvest true (mk s)).1.isSome = true := by
  refine ⟨fun initial => ?_, ?_⟩
  · rw [hmk.snd_harvest]
    exact hsame (hS.contents initial s)
  · rw [hmk.harvest]
    exact hS.replicated.initial s

theorem retains : Replicated.Retains (SameContents (T := T)) := by
  suffices h : ∀ x : Datum T, (∀ initial, SameContents x (harvest initial x).2) ∧
      (harvest true x).1.isSome = true from
    ⟨fun initial x => (h x).1 initial, fun x => (h x).2⟩
  intro x
  induction x using Datum.induction with
  | leaf x hx =>
      cases x with
      | counter c => exact embeds_counter.retains Counter.retains .counter c
      | register r => exact embeds_register.retains Register.retains .register r
      | set s => exact embeds_set.retains AddRemoveSet.retains .set s
      | vote v => exact embeds_vote.retains Vote.retains .vote v
      | map m => exact absurd rfl hx
      | counterMap m =>
          exact embeds_counterMap.retains (UniformMap.retains Counter.retains) .counterMap m
      | registerMap m =>
          exact embeds_registerMap.retains (UniformMap.retains Register.retains) .registerMap m
      | multiMap m =>
          exact embeds_multiMap.retains (UniformMap.retains AddRemoveSet.retains) .multiMap m
  | map m ih =>
      refine ⟨fun initial => ?_, ?_⟩
      · have h := DataMap.retains_contents initial fun e he => (ih e he).1
        rw [harvest_map]
        exact .map h.entries.keys h.entries.values h.supply
      · rw [harvest_map]
        simpa [Replicated.harvest] using DataMap.isSome_harvest_true m

end Datum

/-! ## All types -/

namespace Replicated

theorem Form.retains {σ : Type} {inst : Replicated σ} (form : Form σ inst) :
    Retains form.SameContents := by
  induction form with
  | counter => exact Counter.retains.replicated
  | register V => exact Register.retains.replicated
  | flag => exact Flag.retains.replicated
  | vote => exact Vote.retains.replicated
  | growSet V => exact GrowSet.retains.replicated
  | set V => exact AddRemoveSet.retains.replicated
  | counterMap K => exact (UniformMap.retains Counter.retains).replicated
  | registerMap K V => exact (UniformMap.retains Register.retains).replicated
  | multiMap K V => exact (UniformMap.retains AddRemoveSet.retains).replicated
  | datum T => exact Datum.retains
  | map K values ih => exact (DataMap.retains ih).replicated

/-- A harvest of any state leaves its contents as they were, and nothing more to hand over.  An
initial harvest always hands something over. -/
theorem harvest_keeps_contents {σ : Type} {inst : Replicated σ} (form : Form σ inst)
    (initial : Bool) (s : σ) :
    form.SameContents s (harvest initial s).2 ∧
      (harvest false (harvest initial s).2).1 = none ∧
      (harvest true s).1.isSome = true := by
  obtain ⟨P, hP⟩ := form.exists_settles
  exact ⟨form.retains.contents initial s, hP.silent _ (hP.harvest initial s),
    form.retains.initial s⟩

end Replicated

end DeltaReplica
