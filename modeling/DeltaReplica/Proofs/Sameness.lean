import DeltaReplica.Proofs.Following
import DeltaReplica.Proofs.Forms

/-!
# Sameness

States are the same if they have the same contents and the same pending changes, at every depth.
Elements and keys that stand under one comparable key are not told apart.  For types whose elements
all have comparable keys of their own, states that are the same are equal.
-/

namespace DeltaReplica

variable {K V E T : Type}

/-- Growing sets with the same elements and the same staged additions. -/
structure GrowSet.Same (s s' : GrowSet E) : Prop where
  contains_eq : ∀ ck, s.elements.contains ck = s'.elements.contains ck
  added : s.added = s'.added

/-- Sets with the same elements and the same staged changes. -/
structure AddRemoveSet.Same (s s' : AddRemoveSet E) : Prop where
  alike : s.Alike s'
  added : s.added = s'.added
  removed : s.removed = s'.removed
  cleared : s.cleared = s'.cleared

/-- Maps with the same keys, the same values under them, and the same staged changes. -/
structure UniformMap.Same (S : V → V → Prop) (m m' : UniformMap K V) : Prop where
  alike : Contents.Alike S m.entries m'.entries
  removed : m.removed = m'.removed
  cleared : m.cleared = m'.cleared

/-- Maps to replicated data with the same keys, the same values, and the same staged changes. -/
structure DataMap.Same (S : V → V → Prop) (m m' : DataMap K V) : Prop where
  alike : Contents.Alike S m.entries m'.entries
  added : m.added = m'.added
  removed : m.removed = m'.removed
  cleared : m.cleared = m'.cleared
  supply : m.supply = m'.supply

/-- Data of the same kind with the same contents and the same staged changes. -/
inductive Datum.Same : Datum T → Datum T → Prop
  | counter (c : Counter) : Same (.counter c) (.counter c)
  | register (r : Register T) : Same (.register r) (.register r)
  | set {s s' : AddRemoveSet T} (h : s.Same s') : Same (.set s) (.set s')
  | vote (v : Vote) : Same (.vote v) (.vote v)
  | map {m m' : DataMap T (Datum T)}
      (hcontains : ∀ ck, m.entries.contains ck = m'.entries.contains ck)
      (hvalues : ∀ ck v v', m.entries.valueAt? ck = some v → m'.entries.valueAt? ck = some v' →
        Same v v')
      (hadded : m.added = m'.added) (hremoved : m.removed = m'.removed)
      (hcleared : m.cleared = m'.cleared) (hsupply : m.supply = m'.supply) :
      Same (.map m) (.map m')
  | counterMap {m m' : CounterMap T} (h : UniformMap.Same Eq m m') :
      Same (.counterMap m) (.counterMap m')
  | registerMap {m m' : RegisterMap T T} (h : UniformMap.Same Eq m m') :
      Same (.registerMap m) (.registerMap m')
  | multiMap {m m' : MultiMap T T} (h : UniformMap.Same AddRemoveSet.Same m m') :
      Same (.multiMap m) (.multiMap m')

theorem Datum.Same.of_map {m m' : DataMap T (Datum T)} (h : m.Same Datum.Same m') :
    Datum.Same (.map m) (.map m') :=
  .map h.alike.contains_eq h.alike.values h.added h.removed h.cleared h.supply

/-! ## Every state is the same as itself -/

theorem Contents.Alike.refl {S : V → V → Prop} {m : Entries K V}
    (h : ∀ ck v, m.valueAt? ck = some v → S v v) : Contents.Alike S m m := by
  refine ⟨fun _ => rfl, fun ck v v' hv hv' => ?_⟩
  rw [hv] at hv'
  cases hv'
  exact h ck v hv

theorem AddRemoveSet.Same.refl (s : AddRemoveSet E) : s.Same s :=
  ⟨fun _ => rfl, rfl, rfl, rfl⟩

theorem UniformMap.Same.refl {S : V → V → Prop} (hS : ∀ v, S v v) (m : UniformMap K V) :
    m.Same S m :=
  ⟨.refl fun _ v _ => hS v, rfl, rfl⟩

theorem Datum.Same.refl (x : Datum T) : Datum.Same x x := by
  induction x using Datum.induction with
  | leaf x hx =>
      cases x with
      | counter c => exact .counter c
      | register r => exact .register r
      | set s => exact .set (.refl s)
      | vote v => exact .vote v
      | map m => exact absurd rfl hx
      | counterMap m => exact .counterMap (.refl (fun _ => rfl) m)
      | registerMap m => exact .registerMap (.refl (fun _ => rfl) m)
      | multiMap m => exact .multiMap (.refl AddRemoveSet.Same.refl m)
  | map m ih =>
      refine .of_map ⟨.refl fun ck v hv => ?_, rfl, rfl, rfl, rfl⟩
      obtain ⟨k, hf⟩ := FinMap.valueAt?_eq_some_iff.mp hv
      exact ih _ (FinMap.mem_entries_of_find?_eq_some hf)

/-! ## States that are the same are equal -/

/-- The elements of a type are told apart by their comparable keys. -/
def KeyedApart (E : Type) [Element E] : Prop := ∀ e e' : E, Element.key e = Element.key e' → e = e'

theorem GrowSet.Same.eq [Element E] {s s' : GrowSet E} (h : s.Same s') (hs : s.Sound)
    (hs' : s'.Sound) (hkey : KeyedApart E) : s = s' := by
  obtain ⟨elements, added⟩ := s
  obtain ⟨elements', added'⟩ := s'
  obtain ⟨hcontains, rfl⟩ := h
  obtain rfl := hs.elements.eq_of_contains_eq hs'.elements hkey hcontains
  rfl

theorem AddRemoveSet.Same.eq [Element E] {s s' : AddRemoveSet E} (h : s.Same s') (hs : s.Sound)
    (hs' : s'.Sound) (hkey : KeyedApart E) : s = s' := by
  obtain ⟨elements, added, removed, cleared⟩ := s
  obtain ⟨elements', added', removed', cleared'⟩ := s'
  obtain ⟨halike, rfl, rfl, rfl⟩ := h
  obtain rfl := hs.elements.eq_of_contains_eq hs'.elements hkey halike
  rfl

theorem Contents.Alike.eq [Element K] {S : V → V → Prop} {P : V → Prop} {m m' : Entries K V}
    (h : Contents.Alike S m m') (hm : Sound P m) (hm' : Sound P m') (hkey : KeyedApart K)
    (hvalues : ∀ v v', S v v' → P v → P v' → v = v') : m = m' := by
  refine hm.indexed.ordered.ext hm'.indexed.ordered fun ck => ?_
  have hck := h.contains_eq ck
  rw [FinMap.contains_eq_isSome, FinMap.contains_eq_isSome] at hck
  cases hf : m.find? ck with
  | none =>
      rw [hf] at hck
      exact (Option.isNone_iff_eq_none.mp (Option.isSome_eq_false_iff.mp hck.symm)).symm
  | some e =>
      obtain ⟨k, v⟩ := e
      rw [hf] at hck
      obtain ⟨⟨k', v'⟩, hf'⟩ := Option.isSome_iff_exists.mp hck.symm
      obtain ⟨hk, hv⟩ := hm.of_find? hf
      obtain ⟨hk', hv'⟩ := hm'.of_find? hf'
      have hvalue : S v v' := h.values ck v v' (FinMap.valueAt?_eq_some_iff.mpr ⟨k, hf⟩)
        (FinMap.valueAt?_eq_some_iff.mpr ⟨k', hf'⟩)
      rw [hf', hkey k k' (hk.trans hk'.symm), hvalues v v' hvalue hv hv']

theorem UniformMap.Same.eq [Element K] {S : V → V → Prop} {P : V → Prop} {m m' : UniformMap K V}
    (h : m.Same S m') (hm : m.Sound P) (hm' : m'.Sound P) (hkey : KeyedApart K)
    (hvalues : ∀ v v', S v v' → P v → P v' → v = v') : m = m' := by
  obtain ⟨entries, removed, cleared⟩ := m
  obtain ⟨entries', removed', cleared'⟩ := m'
  obtain ⟨halike, rfl, rfl⟩ := h
  obtain rfl := halike.eq hm.contents hm'.contents hkey hvalues
  rfl

theorem DataMap.Same.eq [Element K] {S : V → V → Prop} {P : V → Prop} {m m' : DataMap K V}
    (h : m.Same S m') (hm : m.Sound P) (hm' : m'.Sound P) (hkey : KeyedApart K)
    (hvalues : ∀ v v', S v v' → P v → P v' → v = v') : m = m' := by
  obtain ⟨entries, added, removed, cleared, supply⟩ := m
  obtain ⟨entries', added', removed', cleared', supply'⟩ := m'
  obtain ⟨halike, rfl, rfl, rfl, rfl⟩ := h
  obtain rfl := halike.eq hm.contents hm'.contents hkey hvalues
  rfl

theorem Datum.Same.eq [Element T] {x x' : Datum T} (h : x.Same x') (hx : x.Sound) (hx' : x'.Sound)
    (hkey : KeyedApart T) : x = x' := by
  induction h with
  | counter c => rfl
  | register r => rfl
  | set h =>
      cases hx with
      | set hs =>
          cases hx' with
          | set hs' => rw [h.eq hs hs' hkey]
  | vote v => rfl
  | @map m m' hcontains hvalues hadded hremoved hcleared hsupply ih =>
      have hm := sound_map_iff.mp hx
      have hm' := sound_map_iff.mp hx'
      -- values that are found under one key are equal by induction
      have halike : Contents.Alike Eq m.entries m'.entries := by
        refine ⟨hcontains, fun ck v v' hv hv' => ?_⟩
        exact ih ck v v' hv hv' (hm.contents.of_valueAt? hv) (hm'.contents.of_valueAt? hv')
      have hsame : m.Same Eq m' := ⟨halike, hadded, hremoved, hcleared, hsupply⟩
      rw [hsame.eq hm hm' hkey fun _ _ hv _ _ => hv]
  | counterMap h =>
      cases hx with
      | counterMap hm =>
          cases hx' with
          | counterMap hm' => rw [h.eq hm hm' hkey fun _ _ hv _ _ => hv]
  | registerMap h =>
      cases hx with
      | registerMap hm =>
          cases hx' with
          | registerMap hm' => rw [h.eq hm hm' hkey fun _ _ hv _ _ => hv]
  | multiMap h =>
      cases hx with
      | multiMap hm =>
          cases hx' with
          | multiMap hm' => rw [h.eq hm hm' hkey fun _ _ hv hs hs' => hv.eq hs hs' hkey]

namespace Replicated

/-- States with the same contents and the same pending changes, at every depth. -/
def Form.Same : {σ : Type} → {inst : Replicated σ} → Form σ inst → σ → σ → Prop
  | _, _, counter, c, c' => c = c'
  | _, _, @register _ _, r, r' => r = r'
  | _, _, flag, f, f' => f = f'
  | _, _, vote, v, v' => v = v'
  | _, _, @growSet _ _, s, s' => GrowSet.Same s s'
  | _, _, @set _ _, s, s' => AddRemoveSet.Same s s'
  | _, _, @counterMap _ _, m, m' => UniformMap.Same Eq m m'
  | _, _, @registerMap _ _ _ _, m, m' => UniformMap.Same Eq m m'
  | _, _, @multiMap _ _ _ _, m, m' => UniformMap.Same AddRemoveSet.Same m m'
  | _, _, @datum _ _, x, x' => Datum.Same x x'
  | _, _, @map _ _ _ _ values, m, m' => DataMap.Same values.Same m m'

/-- All elements and keys in the data are told apart by their comparable keys. -/
def Form.KeyedApart : {σ : Type} → {inst : Replicated σ} → Form σ inst → Prop
  | _, _, counter => True
  | _, _, @register _ _ => True
  | _, _, flag => True
  | _, _, vote => True
  | _, _, @growSet V _ => DeltaReplica.KeyedApart V
  | _, _, @set V _ => DeltaReplica.KeyedApart V
  | _, _, @counterMap K _ => DeltaReplica.KeyedApart K
  | _, _, @registerMap K _ _ _ => DeltaReplica.KeyedApart K
  | _, _, @multiMap K V _ _ => DeltaReplica.KeyedApart K ∧ DeltaReplica.KeyedApart V
  | _, _, @datum T _ => DeltaReplica.KeyedApart T
  | _, _, @map K _ _ _ values => DeltaReplica.KeyedApart K ∧ values.KeyedApart

theorem Form.eq_of_same {σ : Type} {inst : Replicated σ} (form : Form σ inst)
    (hkey : form.KeyedApart) {s s' : σ} (h : form.Same s s') (hs : form.Sound s)
    (hs' : form.Sound s') : s = s' := by
  induction form with
  | counter => exact h
  | register V => exact h
  | flag => exact h
  | vote => exact h
  | growSet V => exact GrowSet.Same.eq h hs hs' hkey
  | set V => exact AddRemoveSet.Same.eq h hs hs' hkey
  | counterMap K => exact UniformMap.Same.eq h hs hs' hkey fun _ _ hv _ _ => hv
  | registerMap K V => exact UniformMap.Same.eq h hs hs' hkey fun _ _ hv _ _ => hv
  | multiMap K V =>
      exact UniformMap.Same.eq h hs hs' hkey.1 fun _ _ hv hsv hsv' => hv.eq hsv hsv' hkey.2
  | datum T => exact Datum.Same.eq h hs hs' hkey
  | map K values ih =>
      exact DataMap.Same.eq h hs hs' hkey.1 fun _ _ hv hsv hsv' => ih hkey.2 hv hsv hsv'

end Replicated

end DeltaReplica
