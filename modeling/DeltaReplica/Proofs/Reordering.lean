import DeltaReplica.Proofs.Repetition

/-!
# Deltas in another order

The lists of a delta stand for sets, and a sender may write what is in them in any order, at every
depth.  A receiver does not notice (`Replicated.apply_reordered`): if each list names a key or an
element at most once, then the delta goes through in whatever order it is written or in none, and
it leads to the same state.

Two outcomes agree if they are of merges that go through in the same cases and then lead to the
same state.  A list of items is merged key by key, and of items for different keys there is at most
one for each key, whatever their order.  An entry of a map is moved together with its delta, which
may be reordered itself, so that the values agree by induction over the nesting.
-/

namespace DeltaReplica

variable {σ τ α β δ E K V T : Type}

/-! ## Outcomes that agree -/

namespace Outcome

/-- Outcomes of merges that go through in the same cases, and then lead to the same state. -/
structure Agree (o o' : Outcome σ) : Prop where
  ok_iff : o.failure = none ↔ o'.failure = none
  state_eq : o.failure = none → o.state = o'.state

namespace Agree

variable {o o' o'' : Outcome σ}

theorem refl (o : Outcome σ) : Agree o o :=
  ⟨Iff.rfl, fun _ => rfl⟩

theorem trans (h : Agree o o') (h' : Agree o' o'') : Agree o o'' :=
  ⟨h.ok_iff.trans h'.ok_iff, fun hok => (h.state_eq hok).trans (h'.state_eq (h.ok_iff.mp hok))⟩

theorem map (h : Agree o o') (f : σ → τ) : Agree (o.map f) (o'.map f) :=
  ⟨h.ok_iff, fun hok => congrArg f (h.state_eq hok)⟩

theorem after (h : Agree o o') (notices : List Notice) :
    Agree (o.after notices) (o'.after notices) :=
  ⟨h.ok_iff, h.state_eq⟩

/-- Steps that agree on states with a property agree after outcomes that have it. -/
theorem andThen {P : σ → Prop} {next next' : σ → Outcome σ} (h : Agree o o') (ho : P o.state)
    (hnext : ∀ s, P s → Agree (next s) (next' s)) : Agree (o.andThen next) (o'.andThen next') := by
  have hsecond (hok : o.failure = none) : Agree (next o.state) (next' o'.state) :=
    h.state_eq hok ▸ hnext o.state ho
  constructor
  case ok_iff =>
    rw [failure_andThen_eq_none_iff, failure_andThen_eq_none_iff]
    constructor
    · rintro ⟨hok, hrest⟩
      exact ⟨h.ok_iff.mp hok, (hsecond hok).ok_iff.mp hrest⟩
    · rintro ⟨hok', hrest'⟩
      have hok := h.ok_iff.mpr hok'
      exact ⟨hok, (hsecond hok).ok_iff.mpr hrest'⟩
  case state_eq =>
    intro hok
    obtain ⟨hfirst, hrest⟩ := failure_andThen_eq_none_iff.mp hok
    rw [state_andThen hfirst, state_andThen (h.ok_iff.mp hfirst)]
    exact (hsecond hfirst).state_eq hrest

/-- Lists of steps agree if the steps do, in pairs. -/
theorem each {P : σ → Prop} {step : α → σ → Outcome σ} {ps : List (α × α)}
    (hstep : ∀ p ∈ ps, ∀ s, P s → Agree (step p.1 s) (step p.2 s))
    (hkeeps : ∀ p ∈ ps, ∀ s, P s → P (step p.1 s).state) {s : σ} (hs : P s) :
    Agree (Outcome.each step (ps.map Prod.fst) s) (Outcome.each step (ps.map Prod.snd) s) := by
  induction ps generalizing s with
  | nil => exact refl _
  | cons p ps ih =>
      have hfirst := hstep p List.mem_cons_self s hs
      refine hfirst.andThen (hkeeps p List.mem_cons_self s hs) fun s hs => ?_
      exact ih (fun q hq => hstep q (List.mem_cons_of_mem p hq))
        (fun q hq => hkeeps q (List.mem_cons_of_mem p hq)) hs

end Agree

end Outcome

/-! ## Items in another order -/

/-- No two of the payloads are read as elements with the same key. -/
def NamesApart (E : Type) [Element E] (ps : List Payload) : Prop :=
  ps.Pairwise fun p q => ∀ e e' : E, p.read Element.decode = .ok e →
    q.read Element.decode = .ok e' → Element.key e ≠ Element.key e'

theorem NamesApart.perm [Element E] {ps ps' : List Payload} (h : NamesApart E ps)
    (hperm : ps.Perm ps') : NamesApart E ps' :=
  hperm.pairwise h fun hne e e' he he' => (hne e' e he' he).symm

namespace Contents

variable [Element K] {m : FinMap Key α}

/-- Items for different keys can be exchanged: if they go through in one order, then they do so in
every other one, and lead to the same contents. -/
theorem each_step_of_perm {is is' : List (Item α)} (hperm : is.Perm is')
    (hapart : is.Pairwise fun i j => i.key ≠ j.key) (hm : m.Ordered)
    (hok : (Outcome.each Item.step is m).failure = none) :
    (Outcome.each Item.step is' m).failure = none ∧
      (Outcome.each Item.step is m).state = (Outcome.each Item.step is' m).state := by
  have hsame (ck : Key) : itemsAt ck is = itemsAt ck is' := by
    have hat : (itemsAt ck is).Perm (itemsAt ck is') := hperm.filter _
    rcases itemsAt_eq_nil_or_singleton hapart ck with hnone | ⟨i, -, -, hone⟩
    · rw [hnone] at hat ⊢
      exact hat.nil_eq
    · rw [hone] at hat ⊢
      exact hat.singleton_eq
  have hat := find?_each_step hok
  have hok' : (Outcome.each Item.step is' m).failure = none := by
    refine failure_each_step fun ck => ?_
    rw [← hsame ck]
    exact (hat ck).1
  refine ⟨hok', (ordered_each_step is hm).ext (ordered_each_step is' hm) fun ck => ?_⟩
  rw [(hat ck).2, (find?_each_step hok' ck).2, hsame ck]

/-- An item that goes through has been read, and is for the key that a payload names. -/
def Item.Named (K : Type) [Element K] (p : Payload) (i : Item α) : Prop :=
  ∀ m, (i.step m).failure = none →
    ∃ k : K, p.read Element.decode = .ok k ∧ i.key = Element.key k

theorem Item.named_ofRead {p : Payload} {f : K → Item α} (hf : ∀ k, (f k).key = Element.key k) :
    Item.Named K p (ofRead (p.read Element.decode) f) := by
  intro m hok
  cases hp : p.read (Element.decode (α := K)) with
  | ok k => exact ⟨k, rfl, hf k⟩
  | error e =>
      rw [hp] at hok
      exact absurd hok (Option.some_ne_none e)

theorem Item.named_dropped (remark : Remark) (p : Payload) :
    Item.Named K p (Item.dropped K remark p : Item α) :=
  named_ofRead fun _ => rfl

theorem Item.named_bound [Element E] (notices : E → FinMap Key E → List Notice) (p : Payload) :
    Item.Named E p (Item.bound notices p) :=
  named_ofRead fun _ => rfl

theorem Item.named_entered (present : Key → List Notice) (c : Change V) :
    Item.Named K c.key (Item.entered K present c) :=
  named_ofRead fun _ => rfl

theorem Item.named_touched (remark : Remark) (c : Change V) :
    Item.Named K c.key (Item.touched K remark c) :=
  named_ofRead fun _ => rfl

section Permutations

variable {item : β → Item α} (name : β → Payload) {bs bs' : List β}

theorem named_each_of_perm (hitem : ∀ b, Item.Named K (name b) (item b)) (hperm : bs.Perm bs')
    (hapart : NamesApart K (bs.map name)) (hm : m.Ordered)
    (hok : (Outcome.each Item.step (bs.map item) m).failure = none) :
    (Outcome.each Item.step (bs'.map item) m).failure = none ∧
      (Outcome.each Item.step (bs.map item) m).state =
        (Outcome.each Item.step (bs'.map item) m).state := by
  refine each_step_of_perm (hperm.map item) ?_ hm hok
  have hread : ∀ b ∈ bs, ∃ k : K, (name b).read Element.decode = .ok k ∧
      (item b).key = Element.key k := by
    intro b hb
    obtain ⟨m', hm'⟩ := Outcome.exists_of_each_ok hok (List.mem_map_of_mem hb)
    exact hitem b m' hm'
  rw [List.pairwise_map]
  refine (List.pairwise_map.mp hapart).imp_of_mem fun {b b'} hb hb' hne => ?_
  obtain ⟨k, hk, hkey⟩ := hread b hb
  obtain ⟨k', hk', hkey'⟩ := hread b' hb'
  rw [hkey, hkey']
  exact hne k k' hk hk'

/-- Items that name different keys agree in every order: they go through in all of them, or one of
them fails in each. -/
theorem agree_of_perm (hitem : ∀ b, Item.Named K (name b) (item b)) (hperm : bs.Perm bs')
    (hapart : NamesApart K (bs.map name)) (hm : m.Ordered) :
    Outcome.Agree (Outcome.each Item.step (bs.map item) m)
      (Outcome.each Item.step (bs'.map item) m) := by
  have hapart' : NamesApart K (bs'.map name) := hapart.perm (hperm.map name)
  constructor
  case ok_iff =>
    exact ⟨fun hok => (named_each_of_perm name hitem hperm hapart hm hok).1,
      fun hok => (named_each_of_perm name hitem hperm.symm hapart' hm hok).1⟩
  case state_eq =>
    exact fun hok => (named_each_of_perm name hitem hperm hapart hm hok).2

end Permutations

theorem agree_dropAll {ps ps' : List Payload} (hperm : ps.Perm ps') (hapart : NamesApart K ps)
    (hm : m.Ordered) (remark : Remark) :
    Outcome.Agree (dropAll K remark ps m) (dropAll K remark ps' m) := by
  rw [dropAll_eq_each_step, dropAll_eq_each_step]
  exact agree_of_perm id (Item.named_dropped remark) hperm (by simpa using hapart) hm

theorem agree_bound [Element E] {ps ps' : List Payload} (hperm : ps.Perm ps')
    (hapart : NamesApart E ps) {m : FinMap Key E} (hm : m.Ordered)
    (notices : E → FinMap Key E → List Notice) :
    Outcome.Agree (Outcome.each Item.step (ps.map (Item.bound notices)) m)
      (Outcome.each Item.step (ps'.map (Item.bound notices)) m) :=
  agree_of_perm id (Item.named_bound notices) hperm (by simpa using hapart) hm

/-! ## Entries in another order -/

/-- Changes to the same key that create the same and agree on values with a property. -/
structure Change.Alike (P : V → Prop) (c c' : Change V) : Prop where
  key_eq : c.key = c'.key
  create_eq : c.create = c'.create
  agree : ∀ v, P v → Outcome.Agree (c.apply v) (c'.apply v)

section Changes

variable {P : V → Prop} {c c' : Change V} {m : Entries K V}

omit [Element K] in
theorem agree_introduce (h : c.Alike P c') (hcreate : ∀ v, c.create = .ok v → P v) (ck : Key)
    (k : K) (m : Entries K V) : Outcome.Agree (introduce ck k c m) (introduce ck k c' m) := by
  cases hc : c.create with
  | error e =>
      have hc' : c'.create = .error e := h.create_eq ▸ hc
      rw [introduce, introduce, hc, hc']
      exact .refl _
  | ok v =>
      have hc' : c'.create = .ok v := h.create_eq ▸ hc
      have hv := h.agree v (hcreate v hc)
      rw [introduce, introduce, hc, hc', Outcome.withResult_ok, Outcome.withResult_ok]
      cases hok : (c.apply v).failure with
      | none =>
          have hok' := hv.ok_iff.mp hok
          simp only [hok, hok']
          exact ⟨Iff.rfl, fun _ => by rw [hv.state_eq hok]⟩
      | some e =>
          cases hok' : (c'.apply v).failure with
          | none => exact absurd (hv.ok_iff.mpr hok') (by simp [hok])
          | some e' => simp only [hok, hok']; constructor <;> simp

theorem agree_addOrAlter (h : c.Alike P c') (hc : c.Keeps P) (hm : Sound P m)
    (present : Key → List Notice) :
    Outcome.Agree (addOrAlter present c m) (addOrAlter present c' m) := by
  rw [addOrAlter, addOrAlter, ← h.key_eq]
  cases c.key.read (Element.decode (α := K)) with
  | error e => exact .refl _
  | ok k =>
      simp only [Outcome.withResult_ok]
      cases hf : m.find? (Element.key k) with
      | some e => exact ((h.agree e.2 (hm.of_find? hf).2).map _).after _
      | none => exact agree_introduce h hc.create _ k m

theorem agree_alterPresent (h : c.Alike P c') (hm : Sound P m) (remark : Remark) :
    Outcome.Agree (alterPresent remark c m) (alterPresent remark c' m) := by
  rw [alterPresent, alterPresent, ← h.key_eq]
  cases c.key.read (Element.decode (α := K)) with
  | error e => exact .refl _
  | ok k =>
      simp only [Outcome.withResult_ok]
      cases hf : m.find? (Element.key k) with
      | some e => exact (h.agree e.2 (hm.of_find? hf).2).map _
      | none => exact .refl _

/-- Items that make changes to a map, each for the key that the change names. -/
structure Handles (P : V → Prop) (item : Change V → Item (K × V)) : Prop where
  named : ∀ c, Item.Named K c.key (item c)
  keeps : ∀ c m, c.Keeps P → Sound P m → Sound P ((item c).step m).state
  agree : ∀ c c' m, c.Alike P c' → c.Keeps P → Sound P m →
    Outcome.Agree ((item c).step m) ((item c').step m)

theorem handles_entered (P : V → Prop) (present : Key → List Notice) :
    Handles (K := K) P (Item.entered K present) := by
  refine ⟨Item.named_entered present, fun c m hc hm => ?_, fun c c' m h hc hm => ?_⟩
  · rw [← addOrAlter_eq_step]
    exact hm.addOrAlter hc present
  · rw [← addOrAlter_eq_step, ← addOrAlter_eq_step]
    exact agree_addOrAlter h hc hm present

theorem handles_touched (P : V → Prop) (remark : Remark) :
    Handles (K := K) P (Item.touched K remark) := by
  refine ⟨Item.named_touched remark, fun c m hc hm => ?_, fun c c' m h _ hm => ?_⟩
  · rw [← alterPresent_eq_step]
    exact hm.alterPresent hc remark
  · rw [← alterPresent_eq_step, ← alterPresent_eq_step]
    exact agree_alterPresent h hm remark

end Changes

end Contents

/-- Entries in another order, each with the delta of the same value, as it is related by `R`. -/
inductive EntryDelta.Rearranged (R : δ → δ → Prop) :
    List (EntryDelta δ) → List (EntryDelta δ) → Prop
  | of_pairs {es' : List (EntryDelta δ)} (ps : List (EntryDelta δ × EntryDelta δ))
      (hkey : ∀ p ∈ ps, p.1.key = p.2.key) (hdelta : ∀ p ∈ ps, R p.1.delta p.2.delta)
      (hperm : (ps.map Prod.snd).Perm es') : Rearranged R (ps.map Prod.fst) es'

theorem EntryDelta.rearranged_nil (R : δ → δ → Prop) : EntryDelta.Rearranged R [] [] :=
  .of_pairs [] (by simp) (by simp) .nil

theorem EntryDelta.rearranged_swap {R : δ → δ → Prop} {x x' y y' : δ} (hx : R x x') (hy : R y y')
    (k l : Payload) : EntryDelta.Rearranged R [⟨k, x⟩, ⟨l, y⟩] [⟨l, y'⟩, ⟨k, x'⟩] :=
  .of_pairs [(⟨k, x⟩, ⟨k, x'⟩), (⟨l, y⟩, ⟨l, y'⟩)] (by simp) (by simpa using ⟨hx, hy⟩)
    (.swap _ _ [])

namespace Contents

variable [Element K] {P : V → Prop} {R : δ → δ → Prop} {m : Entries K V}

theorem keysApart_iff_namesApart {es : List (EntryDelta δ)} :
    KeysApart K es ↔ NamesApart K (es.map EntryDelta.key) := by
  rw [NamesApart, List.pairwise_map]
  rfl

/-- First each entry takes the delta that it has in the other list, then the entries move. -/
theorem Handles.agree_rearranged {item : Change V → Item (K × V)} (h : Handles P item)
    {change : EntryDelta δ → Change V} (hkey : ∀ e, (change e).key = e.key)
    {es es' : List (EntryDelta δ)} (hes : EntryDelta.Rearranged R es es') (hapart : KeysApart K es)
    (hkeeps : ∀ e ∈ es, (change e).Keeps P)
    (halike : ∀ e ∈ es, ∀ e', e.key = e'.key → R e.delta e'.delta → (change e).Alike P (change e'))
    (hm : Sound P m) :
    Outcome.Agree (Outcome.each Item.step (es.map fun e => item (change e)) m)
      (Outcome.each Item.step (es'.map fun e => item (change e)) m) := by
  obtain ⟨ps, hpskey, hdelta, hperm⟩ := hes
  have hfst : ∀ p ∈ ps, p.1 ∈ ps.map Prod.fst := fun p hp => List.mem_map_of_mem hp
  have hpairs : Outcome.Agree
      (Outcome.each Item.step ((ps.map Prod.fst).map fun e => item (change e)) m)
      (Outcome.each Item.step ((ps.map Prod.snd).map fun e => item (change e)) m) := by
    rw [Outcome.each_map _ _ (ps.map Prod.fst), Outcome.each_map _ _ (ps.map Prod.snd)]
    refine .each (P := Sound P) (fun p hp m hm => ?_) (fun p hp m hm => ?_) hm
    · refine h.agree _ _ m (halike p.1 (hfst p hp) p.2 (hpskey p hp) (hdelta p hp)) ?_ hm
      exact hkeeps p.1 (hfst p hp)
    · exact h.keeps _ m (hkeeps p.1 (hfst p hp)) hm
  have hnames : (ps.map Prod.snd).map EntryDelta.key = (ps.map Prod.fst).map EntryDelta.key := by
    rw [List.map_map, List.map_map]
    exact List.map_congr_left fun p hp => (hpskey p hp).symm
  have hapart' : NamesApart K ((ps.map Prod.snd).map EntryDelta.key) :=
    hnames ▸ keysApart_iff_namesApart.mp hapart
  refine hpairs.trans (agree_of_perm EntryDelta.key (fun e => ?_) hperm hapart' hm.indexed.ordered)
  exact hkey e ▸ h.named (change e)

end Contents

/-! ## Deltas in another order -/

/-- A delta with the same effect when a value is created for it, and when it is merged into data
with a property. -/
structure Tracked.Alike {σ δ : Type} [Tracked σ δ] (P : σ → Prop) (d d' : δ) : Prop where
  create_eq : (Tracked.create d : Except DeltaError σ) = Tracked.create d'
  agree : ∀ s, P s → Outcome.Agree (Tracked.merge d s) (Tracked.merge d' s)

@[inherit_doc Tracked.Alike]
structure Replicated.Alike {σ : Type} [Replicated σ] (P : σ → Prop) (d d' : Delta) : Prop where
  create_eq : (Replicated.createFor d : Except DeltaError σ) = Replicated.createFor d'
  agree : ∀ s, P s → Outcome.Agree (Replicated.apply d s) (Replicated.apply d' s)

section Alike

variable [Tracked σ δ] {P : σ → Prop}

theorem Tracked.Alike.refl (P : σ → Prop) (d : δ) : Tracked.Alike P d d :=
  ⟨rfl, fun _ _ => .refl _⟩

theorem Tracked.Alike.replicated [DeltaForm δ] {d d' : δ} (h : Tracked.Alike P d d') :
    Replicated.Alike P (DeltaForm.wrap d) (DeltaForm.wrap d') := by
  refine ⟨by simpa [Replicated.createFor] using h.create_eq, fun s hs => ?_⟩
  rw [apply_wrap, apply_wrap]
  exact h.agree s hs

/-- Two deltas of the same other kind are refused alike. -/
theorem Tracked.alike_of_refused [DeltaForm δ] {d d' : Delta} (hd : d.kind ≠ DeltaForm.kind δ)
    (hkind : d.kind = d'.kind) : Replicated.Alike P d d' := by
  have hnone : DeltaForm.unwrap? (δ := δ) d = none := DeltaForm.unwrap?_of_kind_ne hd
  have hnone' : DeltaForm.unwrap? (δ := δ) d' = none := DeltaForm.unwrap?_of_kind_ne (hkind ▸ hd)
  constructor
  case create_eq => simp only [Replicated.createFor, hnone, hnone', hkind]
  case agree =>
    intro s _
    simp only [Replicated.apply, hnone, hnone', hkind]
    exact .refl _

end Alike

/-- The delta of a set with its lists in another order. -/
structure SetDelta.Reordered (d d' : SetDelta) : Prop where
  cleared : d.cleared = d'.cleared
  removed : d.removed.Perm d'.removed
  added : d.added.Perm d'.added

/-- The delta of a map with its lists in another order, and with deltas of values as `R` relates
them. -/
structure UniformMapDelta.Reordered (R : δ → δ → Prop) (d d' : UniformMapDelta δ) : Prop where
  cleared : d.cleared = d'.cleared
  removed : d.removed.Perm d'.removed
  updated : EntryDelta.Rearranged R d.updated d'.updated

@[inherit_doc UniformMapDelta.Reordered]
inductive MapDelta.Reordered (R : δ → δ → Prop) : MapDelta δ → MapDelta δ → Prop
  | intro {cleared : Bool} {removed removed' : List Payload}
      {added added' updated updated' : List (EntryDelta δ)} (hremoved : removed.Perm removed')
      (hadded : EntryDelta.Rearranged R added added')
      (hupdated : EntryDelta.Rearranged R updated updated') :
      Reordered R ⟨cleared, removed, added, updated⟩ ⟨cleared, removed', added', updated'⟩

theorem MapDelta.Reordered.fields {R : δ → δ → Prop} {d d' : MapDelta δ} (h : d.Reordered R d') :
    d.cleared = d'.cleared ∧ d.removed.Perm d'.removed ∧
      EntryDelta.Rearranged R d.added d'.added ∧ EntryDelta.Rearranged R d.updated d'.updated := by
  obtain ⟨hremoved, hadded, hupdated⟩ := h
  exact ⟨rfl, hremoved, hadded, hupdated⟩

/-- A delta with the lists in it in another order, at any depth. -/
inductive Delta.Reordered : Delta → Delta → Prop
  | counter (d : CounterDelta) : Reordered (.counter d) (.counter d)
  | register (d : RegisterDelta) : Reordered (.register d) (.register d)
  | flag (d : FlagDelta) : Reordered (.flag d) (.flag d)
  | growSet {d d' : GrowSetDelta} (h : d.added.Perm d'.added) :
      Reordered (.growSet d) (.growSet d')
  | set {d d' : SetDelta} (h : d.Reordered d') : Reordered (.set d) (.set d')
  | vote (d : VoteDelta) : Reordered (.vote d) (.vote d)
  | map {d d' : MapDelta Delta} (h : d.Reordered Reordered d') : Reordered (.map d) (.map d')
  | counterMap {d d' : UniformMapDelta CounterDelta} (h : d.Reordered Eq d') :
      Reordered (.counterMap d) (.counterMap d')
  | registerMap {d d' : UniformMapDelta RegisterDelta} (h : d.Reordered Eq d') :
      Reordered (.registerMap d) (.registerMap d')
  | multiMap {d d' : UniformMapDelta SetDelta} (h : d.Reordered SetDelta.Reordered d') :
      Reordered (.multiMap d) (.multiMap d')

/-! ## Deltas that name everything once -/

/-- Each list in the delta of a set names an element at most once. -/
structure SetDelta.NamesOnce (E : Type) [Element E] (d : SetDelta) : Prop where
  removed : NamesApart E d.removed
  added : NamesApart E d.added

/-- Each list in the delta of a map names a key at most once, and so do the deltas of values. -/
structure UniformMapDelta.NamesOnce (K : Type) [Element K] (P : δ → Prop)
    (d : UniformMapDelta δ) : Prop where
  removed : NamesApart K d.removed
  updated : Contents.KeysApart K d.updated
  values : ∀ e ∈ d.updated, P e.delta

/-- Each list in the delta of a map names a key at most once, and so do the deltas of values.  A key
may be in several lists, since these take effect one after the other. -/
structure MapDelta.NamesOnce (K : Type) [Element K] (P : δ → Prop) (d : MapDelta δ) : Prop where
  removed : NamesApart K d.removed
  added : Contents.KeysApart K d.added
  updated : Contents.KeysApart K d.updated
  addedValues : ∀ e ∈ d.added, P e.delta
  updatedValues : ∀ e ∈ d.updated, P e.delta

/-- Deltas of data of any kind in which each list names everything at most once, at every depth. -/
inductive Delta.NamesOnce (T : Type) [Element T] : Delta → Prop
  | counter (d : CounterDelta) : NamesOnce T (.counter d)
  | register (d : RegisterDelta) : NamesOnce T (.register d)
  | flag (d : FlagDelta) : NamesOnce T (.flag d)
  | growSet (d : GrowSetDelta) : NamesOnce T (.growSet d)
  | set {d : SetDelta} (h : d.NamesOnce T) : NamesOnce T (.set d)
  | vote (d : VoteDelta) : NamesOnce T (.vote d)
  | map {d : MapDelta Delta} (h : d.NamesOnce T fun _ => True)
      (hadded : ∀ e ∈ d.added, NamesOnce T e.delta)
      (hupdated : ∀ e ∈ d.updated, NamesOnce T e.delta) : NamesOnce T (.map d)
  | counterMap {d : UniformMapDelta CounterDelta} (h : d.NamesOnce T fun _ => True) :
      NamesOnce T (.counterMap d)
  | registerMap {d : UniformMapDelta RegisterDelta} (h : d.NamesOnce T fun _ => True) :
      NamesOnce T (.registerMap d)
  | multiMap {d : UniformMapDelta SetDelta} (h : d.NamesOnce T (SetDelta.NamesOnce T)) :
      NamesOnce T (.multiMap d)

/-- Deltas for data of a type in which each list names everything at most once, at every depth. -/
def Replicated.Form.NamesOnce : {σ : Type} → {inst : Replicated σ} → Form σ inst → Delta → Prop
  | _, _, counter, _ => True
  | _, _, register _, _ => True
  | _, _, flag, _ => True
  | _, _, vote, _ => True
  | _, _, growSet V, d => ∀ e, d = .growSet e → NamesApart V e.added
  | _, _, set V, d => ∀ e, d = .set e → SetDelta.NamesOnce V e
  | _, _, counterMap K, d =>
    ∀ e, d = .counterMap e → UniformMapDelta.NamesOnce K (fun _ => True) e
  | _, _, registerMap K _, d =>
    ∀ e, d = .registerMap e → UniformMapDelta.NamesOnce K (fun _ => True) e
  | _, _, multiMap K V, d =>
    ∀ e, d = .multiMap e → UniformMapDelta.NamesOnce K (SetDelta.NamesOnce V) e
  | _, _, datum T, d => Delta.NamesOnce T d
  | _, _, map K values, d => ∀ e, d = .map e → MapDelta.NamesOnce K values.NamesOnce e

/-! ## Sets and maps -/

theorem GrowSet.alike [Element E] {d d' : GrowSetDelta} (h : d.added.Perm d'.added)
    (honce : NamesApart E d.added) : Tracked.Alike (GrowSet.Sound (E := E)) d d' := by
  have hagree (s : GrowSet E) (hs : s.Sound) : Outcome.Agree
      (Outcome.each mergeElement d.added s.elements)
      (Outcome.each mergeElement d'.added s.elements) := by
    rw [each_mergeElement_eq_each_step, each_mergeElement_eq_each_step]
    exact Contents.agree_bound h honce hs.elements.ordered _
  exact ⟨rfl, fun s hs => (hagree s hs).map fun m => ({ s with elements := m } : GrowSet E)⟩

namespace AddRemoveSet

variable [Element E] {d d' : SetDelta}

theorem agree_mergeElements (h : d.Reordered d') (honce : d.NamesOnce E) {m : FinMap Key E}
    (hm : m.IndexedBy Element.key) :
    Outcome.Agree (mergeElements d m) (mergeElements d' m) := by
  have hstart := hm.clearIf d.cleared
  rw [mergeElements, mergeElements, ← h.cleared]
  refine (Contents.agree_dropAll h.removed honce.removed hstart.ordered _).andThen
    (P := FinMap.IndexedBy Element.key) ?_ fun m hm => ?_
  · exact Contents.dropAll_keeps (fun _ ck hm => hm.erase ck) _ _ hstart
  · rw [each_mergeElement_eq_each_step, each_mergeElement_eq_each_step]
    exact Contents.agree_bound h.added honce.added hm.ordered _

theorem alike (h : d.Reordered d') (honce : d.NamesOnce E) :
    Tracked.Alike (Sound (E := E)) d d' := by
  refine ⟨rfl, fun s hs => ?_⟩
  exact (agree_mergeElements h honce hs.elements).map
    fun m => ({ s with elements := m } : AddRemoveSet E)

end AddRemoveSet

namespace UniformMap

variable [Element K] [Tracked V δ] {P : V → Prop} {R : δ → δ → Prop} {Q : δ → Prop}
  {d d' : UniformMapDelta δ}

theorem agree_mergeEntries (hP : Tracked.Keeps P) (h : d.Reordered R d') (honce : d.NamesOnce K Q)
    (hvalues : ∀ e ∈ d.updated, ∀ d', R e.delta d' → Tracked.Alike P e.delta d')
    {m : Entries K V} (hm : Contents.Sound P m) :
    Outcome.Agree (mergeEntries d m) (mergeEntries d' m) := by
  have hstart := hm.clearIf d.cleared
  rw [mergeEntries, mergeEntries, ← h.cleared]
  refine (Contents.agree_dropAll h.removed honce.removed hstart.indexed.ordered _).andThen
    (hstart.dropAll _ _) fun m hm => ?_
  rw [Contents.each_addOrAlter_eq_each_step, Contents.each_addOrAlter_eq_each_step, List.map_map,
    List.map_map]
  refine (Contents.handles_entered P _).agree_rearranged (fun _ => rfl) h.updated honce.updated
    (fun e _ => ⟨hP.create e.delta, hP.merge e.delta⟩) (fun e he e' hkey hR => ?_) hm
  have halike := hvalues e he e'.delta hR
  exact ⟨hkey, halike.create_eq, halike.agree⟩

theorem alike (hP : Tracked.Keeps P) (h : d.Reordered R d') (honce : d.NamesOnce K Q)
    (hvalues : ∀ e ∈ d.updated, ∀ d', R e.delta d' → Tracked.Alike P e.delta d') :
    Tracked.Alike (Sound (K := K) P) d d' := by
  refine ⟨rfl, fun m hm => ?_⟩
  exact (agree_mergeEntries hP h honce hvalues hm.contents).map
    fun es => ({ m with entries := es } : UniformMap K V)

end UniformMap

namespace DataMap

variable [Element K] [Replicated V] {P : V → Prop} {R : Delta → Delta → Prop} {Q : Delta → Prop}
  {d d' : MapDelta Delta}

/-- Entries that stand for alike deltas stand for alike changes. -/
theorem alike_changeOf {es : List (EntryDelta Delta)}
    (hvalues : ∀ e ∈ es, ∀ d', R e.delta d' → Replicated.Alike P e.delta d') :
    ∀ e ∈ es, ∀ e', e.key = e'.key → R e.delta e'.delta →
      (changeOf (V := V) e).Alike P (changeOf e') := by
  intro e he e' hkey hR
  have h := hvalues e he e'.delta hR
  exact ⟨hkey, h.create_eq, h.agree⟩

theorem agree_mergeEntries (hP : Replicated.Keeps P) (h : d.Reordered R d')
    (honce : d.NamesOnce K Q)
    (hadded : ∀ e ∈ d.added, ∀ d', R e.delta d' → Replicated.Alike P e.delta d')
    (hupdated : ∀ e ∈ d.updated, ∀ d', R e.delta d' → Replicated.Alike P e.delta d')
    {m : Entries K V} (hm : Contents.Sound P m) :
    Outcome.Agree
      (mergeEntries d.cleared d.removed (d.added.map changeOf) (d.updated.map changeOf) m)
      (mergeEntries d'.cleared d'.removed (d'.added.map changeOf) (d'.updated.map changeOf) m) := by
  obtain ⟨hcleared, hremoved, haddedPairs, hupdatedPairs⟩ := h.fields
  have hkeeps (e : EntryDelta Delta) : (changeOf (V := V) e).Keeps P :=
    ⟨hP.createFor e.delta, hP.apply e.delta⟩
  have hstart := hm.clearIf d.cleared
  have hdropped := hstart.dropAll .removesMissingKey d.removed
  rw [mergeEntries, mergeEntries, ← hcleared]
  refine Outcome.Agree.andThen (P := Contents.Sound P) ?_ ?_ fun m hm => ?_
  · refine (Contents.agree_dropAll hremoved honce.removed hstart.indexed.ordered _).andThen
      hdropped fun m hm => ?_
    rw [Contents.each_addOrAlter_eq_each_step, Contents.each_addOrAlter_eq_each_step, List.map_map,
      List.map_map]
    exact (Contents.handles_entered P _).agree_rearranged (fun _ => rfl) haddedPairs honce.added
      (fun e _ => hkeeps e) (alike_changeOf hadded) hm
  · refine Outcome.andThen_keeps hdropped fun m hm => ?_
    refine Contents.Sound.each (fun c m hc hm => hm.addOrAlter hc _) (fun c hc => ?_) hm
    obtain ⟨e, -, rfl⟩ := List.mem_map.mp hc
    exact hkeeps e
  · rw [Contents.each_alterPresent_eq_each_step, Contents.each_alterPresent_eq_each_step,
      List.map_map, List.map_map]
    exact (Contents.handles_touched P _).agree_rearranged (fun _ => rfl) hupdatedPairs
      honce.updated (fun e _ => hkeeps e) (alike_changeOf hupdated) hm

theorem alike (hP : Replicated.Keeps P) (h : d.Reordered R d') (honce : d.NamesOnce K Q)
    (hadded : ∀ e ∈ d.added, ∀ d', R e.delta d' → Replicated.Alike P e.delta d')
    (hupdated : ∀ e ∈ d.updated, ∀ d', R e.delta d' → Replicated.Alike P e.delta d') :
    Tracked.Alike (Sound (K := K) P) d d' := by
  refine ⟨rfl, fun m hm => ?_⟩
  exact (agree_mergeEntries hP h honce hadded hupdated hm.contents).map
    fun es => ({ m with entries := es } : DataMap K V)

end DataMap

/-! ## Data of one kind -/

section Kinds

variable {d d' : Delta}

theorem Delta.Reordered.kind_eq (h : d.Reordered d') : d.kind = d'.kind := by
  cases h <;> rfl

/-- The kinds of data whose deltas have no lists. -/
def Kind.isPlain : Kind → Bool
  | .counter | .register | .flag | .vote => true
  | _ => false

theorem Delta.Reordered.eq_of_isPlain (h : d.Reordered d') (hplain : d.kind.isPlain = true) :
    d = d' := by
  cases h with
  | counter | register | flag | vote => rfl
  | _ => cases hplain

theorem Tracked.alike_of_isPlain {σ δ : Type} [Tracked σ δ] [DeltaForm δ] {P : σ → Prop}
    (hplain : (DeltaForm.kind δ).isPlain = true) (h : d.Reordered d') :
    Replicated.Alike P d d' := by
  by_cases hkind : d.kind = DeltaForm.kind δ
  · rw [← h.eq_of_isPlain (hkind ▸ hplain)]
    exact ⟨rfl, fun _ _ => .refl _⟩
  · exact alike_of_refused hkind h.kind_eq

theorem GrowSet.alike_of_reordered [Element E] (h : d.Reordered d')
    (honce : ∀ e, d = .growSet e → NamesApart E e.added) :
    Replicated.Alike (GrowSet.Sound (E := E)) d d' := by
  cases h with
  | growSet h => exact (GrowSet.alike h (honce _ rfl)).replicated
  | _ => exact Tracked.alike_of_refused nofun rfl

theorem AddRemoveSet.alike_of_reordered [Element E] (h : d.Reordered d')
    (honce : ∀ e, d = .set e → SetDelta.NamesOnce E e) :
    Replicated.Alike (AddRemoveSet.Sound (E := E)) d d' := by
  cases h with
  | set h => exact (AddRemoveSet.alike h (honce _ rfl)).replicated
  | _ => exact Tracked.alike_of_refused nofun rfl

theorem CounterMap.alike_of_reordered [Element K] (h : d.Reordered d')
    (honce : ∀ e, d = .counterMap e → UniformMapDelta.NamesOnce K (fun _ => True) e) :
    Replicated.Alike (σ := CounterMap K) (UniformMap.Sound fun _ => True) d d' := by
  cases h with
  | counterMap h =>
      refine (UniformMap.alike Tracked.keeps_true h (honce _ rfl) fun e _ d' hsame => ?_).replicated
      exact hsame ▸ .refl _ _
  | _ => exact Tracked.alike_of_refused nofun rfl

theorem RegisterMap.alike_of_reordered [Element K] [Element V] (h : d.Reordered d')
    (honce : ∀ e, d = .registerMap e → UniformMapDelta.NamesOnce K (fun _ => True) e) :
    Replicated.Alike (σ := RegisterMap K V) (UniformMap.Sound fun _ => True) d d' := by
  cases h with
  | registerMap h =>
      refine (UniformMap.alike Tracked.keeps_true h (honce _ rfl) fun e _ d' hsame => ?_).replicated
      exact hsame ▸ .refl _ _
  | _ => exact Tracked.alike_of_refused nofun rfl

theorem MultiMap.alike_of_reordered [Element K] [Element V] (h : d.Reordered d')
    (honce : ∀ e, d = .multiMap e → UniformMapDelta.NamesOnce K (SetDelta.NamesOnce V) e) :
    Replicated.Alike (σ := MultiMap K V) (UniformMap.Sound AddRemoveSet.Sound) d d' := by
  cases h with
  | multiMap h =>
      have honce := honce _ rfl
      refine (UniformMap.alike AddRemoveSet.keeps_sound h honce fun e he d' hvalue => ?_).replicated
      exact AddRemoveSet.alike hvalue (honce.values e he)
  | _ => exact Tracked.alike_of_refused nofun rfl

end Kinds

/-! ## Data of any kind -/

namespace Datum

variable [Element T] {d d' : Delta}

theorem Embeds.agree {σ δ : Type} [Tracked σ δ] [DeltaForm δ] {mk : σ → Datum T} (h : Embeds mk)
    {P : σ → Prop} (halike : Replicated.Alike P d d') {s : σ} (hs : P s) :
    Outcome.Agree (Datum.apply d (mk s)) (Datum.apply d' (mk s)) := by
  rw [h.apply, h.apply]
  exact (halike.agree s hs).map mk

theorem Embeds.agree_of_isPlain {σ δ : Type} [Tracked σ δ] [DeltaForm δ] {mk : σ → Datum T}
    (hmk : Embeds mk) (hplain : (DeltaForm.kind δ).isPlain = true) (h : d.Reordered d') (s : σ) :
    Outcome.Agree (Datum.apply d (mk s)) (Datum.apply d' (mk s)) :=
  hmk.agree (P := fun _ => True) (Tracked.alike_of_isPlain hplain h) trivial

theorem createFor_eq_of_reordered (h : d.Reordered d') :
    (createFor d : Except DeltaError (Datum T)) = createFor d' := by
  cases h <;> rfl

theorem agree_leaf (h : d.Reordered d') (honce : Delta.NamesOnce T d) {x : Datum T}
    (hx : x.kind ≠ .map) (hs : x.Sound) : Outcome.Agree (apply d x) (apply d' x) := by
  cases hs with
  | counter c => exact embeds_counter.agree_of_isPlain rfl h c
  | register r => exact embeds_register.agree_of_isPlain rfl h r
  | vote v => exact embeds_vote.agree_of_isPlain rfl h v
  | map hm hvalues => exact absurd rfl hx
  | set hs =>
      refine embeds_set.agree (AddRemoveSet.alike_of_reordered h fun e he => ?_) hs
      subst he
      cases honce with
      | set honce => exact honce
  | counterMap hm =>
      refine embeds_counterMap.agree (CounterMap.alike_of_reordered h fun e he => ?_) hm
      subst he
      cases honce with
      | counterMap honce => exact honce
  | registerMap hm =>
      refine embeds_registerMap.agree (RegisterMap.alike_of_reordered h fun e he => ?_) hm
      subst he
      cases honce with
      | registerMap honce => exact honce
  | multiMap hm =>
      refine embeds_multiMap.agree (MultiMap.alike_of_reordered h fun e he => ?_) hm
      subst he
      cases honce with
      | multiMap honce => exact honce

theorem agree_of_reordered (h : d.Reordered d') (honce : Delta.NamesOnce T d) {x : Datum T}
    (hs : x.Sound) : Outcome.Agree (apply d x) (apply d' x) := by
  induction d, x using deltaInduction generalizing d' with
  | leaf d x hx => exact agree_leaf h honce hx hs
  | refused d m hd =>
      rw [apply_of_kind_ne hd, apply_of_kind_ne (h.kind_eq ▸ hd), h.kind_eq]
      exact .refl _
  | map d m ihadded ihupdated =>
      cases h with
      | map h =>
          cases honce with
          | map honce hadded hupdated =>
              refine embeds_map.agree (P := DataMap.Sound Sound) ?_ (sound_map_iff.mp hs)
              refine (DataMap.alike keeps_sound h honce (fun e he d' hd' => ?_)
                fun e he d' hd' => ?_).replicated
              · exact ⟨createFor_eq_of_reordered hd',
                  fun x hx => ihadded e he x hd' (hadded e he) hx⟩
              · exact ⟨createFor_eq_of_reordered hd',
                  fun x hx => ihupdated e he x hd' (hupdated e he) hx⟩

theorem alike_of_reordered (h : d.Reordered d') (honce : Delta.NamesOnce T d) :
    Replicated.Alike (Sound (T := T)) d d' :=
  ⟨createFor_eq_of_reordered h, fun _ hs => agree_of_reordered h honce hs⟩

end Datum

/-! ## All types -/

namespace Replicated

theorem Form.alike_of_reordered {σ : Type} {inst : Replicated σ} (form : Form σ inst) {d d' : Delta}
    (h : d.Reordered d') (honce : form.NamesOnce d) : Alike form.Sound d d' := by
  induction form generalizing d d' with
  | counter | register | flag | vote => exact Tracked.alike_of_isPlain rfl h
  | growSet V => exact GrowSet.alike_of_reordered h honce
  | set V => exact AddRemoveSet.alike_of_reordered h honce
  | counterMap K => exact CounterMap.alike_of_reordered h honce
  | registerMap K V => exact RegisterMap.alike_of_reordered h honce
  | multiMap K V => exact MultiMap.alike_of_reordered h honce
  | datum T => exact Datum.alike_of_reordered h honce
  | map K values ih =>
      cases h with
      | map h =>
          have honce := honce _ rfl
          refine (DataMap.alike values.keeps_sound h honce (fun e he d' hd' => ?_)
            fun e he d' hd' => ?_).replicated
          · exact ih hd' (honce.addedValues e he)
          · exact ih hd' (honce.updatedValues e he)
      | _ => exact Tracked.alike_of_refused nofun rfl

/-- A delta that names everything once goes through just if it does so with its lists in another
order, at any depth, and then it leads to the same state. -/
theorem apply_reordered {σ : Type} {inst : Replicated σ} (form : Form σ inst) {d d' : Delta}
    (h : d.Reordered d') (honce : form.NamesOnce d) {s : σ} (hs : form.Sound s) :
    ((apply d s).failure = none ↔ (apply d' s).failure = none) ∧
      ((apply d s).failure = none → (apply d s).state = (apply d' s).state) := by
  have hagree := (form.alike_of_reordered h honce).agree s hs
  exact ⟨hagree.ok_iff, hagree.state_eq⟩

/-- Two values of a map change, a set that gains two elements and a map that gains two values.  The
entries, the elements and the values all come the other way round. -/
theorem apply_reordered_below_keys :
    let a : Payload := ⟨"", [1]⟩
    let b : Payload := ⟨"", [2]⟩
    let form : Form (DataMap Payload (Datum Payload)) inferInstance := .map _ (.datum _)
    let start : DataMap Payload (Datum Payload) :=
      (apply (.map
        ⟨false, [], [⟨a, .set ⟨true, [], []⟩⟩, ⟨b, .map ⟨true, [], [], []⟩⟩], []⟩) {}).state
    let values : MapDelta Delta := ⟨false, [], [⟨a, .vote ⟨true, 1, 1⟩⟩, ⟨b, .counter ⟨1⟩⟩], []⟩
    let values' : MapDelta Delta := ⟨false, [], [⟨b, .counter ⟨1⟩⟩, ⟨a, .vote ⟨true, 1, 1⟩⟩], []⟩
    let d : Delta := .map ⟨false, [], [], [⟨a, .set ⟨false, [], [a, b]⟩⟩, ⟨b, .map values⟩]⟩
    let d' : Delta := .map ⟨false, [], [], [⟨b, .map values'⟩, ⟨a, .set ⟨false, [], [b, a]⟩⟩]⟩
    (d.Reordered d' ∧ form.NamesOnce d ∧ form.Sound start) ∧ (apply d start).failure = none ∧
      (apply d' start).failure = none ∧ (apply d start).state = (apply d' start).state := by
  intro a b form start values values' d d'
  have hpair : NamesApart Payload [a, b] := by
    refine List.pairwise_pair.mpr fun p p' hp hp' => ?_
    cases hp
    cases hp'
    decide
  have hvalues : values.Reordered Delta.Reordered values' :=
    .intro .nil (EntryDelta.rearranged_swap (.vote _) (.counter _) a b)
      (EntryDelta.rearranged_nil _)
  have hset : SetDelta.Reordered ⟨false, [], [a, b]⟩ ⟨false, [], [b, a]⟩ :=
    ⟨rfl, .nil, .swap b a []⟩
  have hreordered : d.Reordered d' :=
    .map (.intro .nil (EntryDelta.rearranged_nil _)
      (EntryDelta.rearranged_swap (.set hset) (.map hvalues) a b))
  have honce : form.NamesOnce d := by
    intro e he
    obtain rfl := Delta.map.inj he
    refine ⟨.nil, .nil, Contents.keysApart_iff_namesApart.mpr hpair, by simp, ?_⟩
    have hset : Delta.NamesOnce Payload (.set ⟨false, [], [a, b]⟩) := .set ⟨.nil, hpair⟩
    have hmap : Delta.NamesOnce Payload (.map values) := by
      refine .map ⟨.nil, Contents.keysApart_iff_namesApart.mpr hpair, .nil, by simp, by simp⟩ ?_
        (by simp [values])
      simpa [values] using ⟨Delta.NamesOnce.vote _, Delta.NamesOnce.counter _⟩
    simpa using ⟨hset, hmap⟩
  have hsound : form.Sound start := form.keeps_sound.apply _ _ (DataMap.Sound.empty false none)
  have hok : (apply d start).failure = none := by decide
  obtain ⟨hiff, hstate⟩ := apply_reordered form hreordered honce hsound
  exact ⟨⟨hreordered, honce, hsound⟩, hok, hiff.mp hok, hstate hok⟩

end Replicated

end DeltaReplica
