import DeltaReplica.Proofs.Handover
import DeltaReplica.Proofs.History

/-!
# A receiver that lags behind

The replica of a single writer lags behind by what the writer has staged.  Data lag if
the old value that the receiver has, if any, and what is staged make up the contents of
the writer.  For maps this says of each key what the staged removals leave the receiver,
and that the value under the key lags behind that.

New values lag with nothing at the receiver, and local operations keep up the lag.  The
one exception is a key that comes back while its removal is staged.
-/

namespace DeltaReplica

/-- A relation between a value and an old one that may be missing, for a value that may be missing
too: what the writer lacks, the receiver lacks. -/
def Lifted {V : Type} (L : V → Option V → Prop) : Option V → Option V → Prop
  | some v, old => L v old
  | none, old => old = none

/-! ## Single values -/

/-- The counter is ahead by its pending changes. -/
def Counter.Lag (c : Counter) (old : Option Counter) : Prop :=
  c.value = old.elim 0 Counter.value + c.pending

/-- Unless a write is pending, the receiver has the value. -/
def Register.Lag {V : Type} (r : Register V) (old : Option (Register V)) : Prop :=
  r.pending = none → old.map Register.value = some r.value

/-- A pending vote is the current one; if there is none, the receiver has the current vote, which is
against in a new vote. -/
def Vote.Lag (v : Vote) (old : Option Vote) : Prop :=
  match v.pending with
  | some b => b = v.selfVote
  | none => old.elim false Vote.selfVote = v.selfVote

theorem Counter.Op.lag (op : Op) {c : Counter} {old : Option Counter} (h : c.Lag old) :
    (op.perform c).Lag old := by
  cases op with
  | increment n =>
      simp only [Counter.Lag, perform, Counter.increment] at h ⊢
      rw [h, Int64.add_assoc]
  | decrement n =>
      simp only [Counter.Lag, perform, Counter.decrement] at h ⊢
      rw [h, Int64.sub_eq_add_neg, Int64.sub_eq_add_neg, Int64.add_assoc]

theorem Register.lag_new {V : Type} (v : V) (stamp : Stamp) (old : Option (Register V)) :
    (Register.new v stamp).Lag old := by
  intro h
  cases h

theorem Register.Op.lag {V : Type} (op : Op V) (r : Register V) (old : Option (Register V)) :
    (op.perform r).Lag old := by
  cases op with
  | set v stamp => exact lag_new v stamp old

theorem Vote.Op.lag (op : Op) {v : Vote} {old : Option Vote} (h : v.Lag old) :
    (op.perform v).Lag old := by
  cases op with
  | cast b =>
      by_cases hb : v.selfVote = b
      · simpa [perform, Vote.cast, hb] using h
      · simp [perform, Vote.cast, hb, Vote.Lag]

/-! ## Sets -/

namespace AddRemoveSet

variable {E : Type} [Element E]

/-- Whether the receiver has an element after the staged clearing. -/
def base (s : AddRemoveSet E) (old : Option (AddRemoveSet E)) (ck : Key) : Bool :=
  !s.cleared && (old.getD {}).elements.contains ck

/-- Staged additions are new to the receiver, staged removals are not, and together they make the
elements of the receiver those of the writer. -/
structure Lag (s : AddRemoveSet E) (old : Option (AddRemoveSet E)) : Prop where
  sound : s.Sound
  contains_eq : ∀ ck, s.elements.contains ck =
    (s.added.contains ck || s.base old ck && !s.removed.contains ck)
  added : ∀ ck, s.added.contains ck = true → s.base old ck = false
  removed : ∀ ck, s.removed.contains ck = true → s.base old ck = true

namespace Lag

variable {s : AddRemoveSet E} {old : Option (AddRemoveSet E)}

theorem empty : Lag ({} : AddRemoveSet E) none :=
  ⟨.empty false, by simp [base], by simp, by simp⟩

theorem clear (h : s.Lag old) : s.clear.Lag old := by
  rcases clear_cases s with hclear | hclear
  · rwa [hclear]
  · rw [hclear]
    exact ⟨.empty true, by simp [base], by simp, by simp⟩

/-- A missing element is not staged as added, and is there at the receiver only if its removal is
staged. -/
theorem of_missing (h : s.Lag old) {ck : Key} (hc : s.elements.contains ck = false) :
    s.added.contains ck = false ∧ s.base old ck = s.removed.contains ck := by
  have hcontains := h.contains_eq ck
  have hremoved := h.removed ck
  rw [hc] at hcontains
  revert hcontains hremoved
  cases s.added.contains ck <;> cases s.base old ck <;> cases s.removed.contains ck <;> simp

/-- The removal of an element that is there is not staged, and the element is there at the receiver
unless it is staged as added. -/
theorem of_present (h : s.Lag old) {ck : Key} (hc : s.elements.contains ck = true) :
    s.removed.contains ck = false ∧ s.base old ck = !s.added.contains ck := by
  have hcontains := h.contains_eq ck
  have hadded := h.added ck
  have hremoved := h.removed ck
  rw [hc] at hcontains
  revert hcontains hadded hremoved
  cases s.added.contains ck <;> cases s.base old ck <;> cases s.removed.contains ck <;> simp

theorem add (h : s.Lag old) (e : E) : (s.add e).Lag old := by
  rcases add_cases e s with hadd | ⟨hc, hadd⟩
  · rwa [hadd]
  · obtain ⟨hself, hback⟩ := h.of_missing hc
    have hbase (ck : Key) : (s.add e).base old ck = s.base old ck := by
      rw [hadd]
      rfl
    refine ⟨h.sound.add e, fun ck => ?_, fun ck => ?_, fun ck => ?_⟩
    · rw [hbase, hadd]
      by_cases hck : ck = Element.key e
      · subst hck
        cases hr : s.removed.contains (Element.key e) <;>
          simp [FinMap.contains_insert, FinMap.contains_erase, hback, hr]
      · have hother := h.contains_eq ck
        cases hr : s.removed.contains (Element.key e) <;>
          simpa [FinMap.contains_insert, FinMap.contains_erase, hck] using hother
    · rw [hbase, hadd]
      by_cases hck : ck = Element.key e
      · subst hck
        cases hr : s.removed.contains (Element.key e) <;> simp [hself, hback, hr]
      · have hother := h.added ck
        cases hr : s.removed.contains (Element.key e) <;>
          simpa [FinMap.contains_insert, hck] using hother
    · rw [hbase, hadd]
      intro hr
      have hr' : s.removed.contains ck = true := by
        simp only [FinMap.contains_erase, Bool.and_eq_true] at hr
        exact hr.2
      exact h.removed ck hr'

theorem addAll (h : s.Lag old) (es : List E) : (s.addAll es).Lag old := by
  induction es generalizing s with
  | nil => exact h
  | cons e es ih => exact ih (h.add e)

theorem delete (h : s.Lag old) (e : E) : (s.delete e).Lag old := by
  rcases delete_cases e s with hdelete | hdelete | ⟨stored, hf, hdelete⟩
  · rwa [hdelete]
  · rw [hdelete]
    exact h.clear
  · obtain ⟨hself, hback⟩ := h.of_present (FinMap.contains_of_find?_eq_some hf)
    have hbase (ck : Key) : (s.delete e).base old ck = s.base old ck := by
      rw [hdelete]
      rfl
    refine ⟨h.sound.delete e, fun ck => ?_, fun ck => ?_, fun ck => ?_⟩
    · rw [hbase, hdelete]
      by_cases hck : ck = Element.key e
      · subst hck
        cases ha : s.added.contains (Element.key e) <;>
          simp [FinMap.contains_insert, FinMap.contains_erase, hback, ha]
      · have hother := h.contains_eq ck
        cases ha : s.added.contains (Element.key e) <;>
          simpa [FinMap.contains_insert, FinMap.contains_erase, hck] using hother
    · rw [hbase, hdelete]
      intro ha
      have ha' : s.added.contains ck = true := by
        simp only [FinMap.contains_erase, Bool.and_eq_true] at ha
        exact ha.2
      exact h.added ck ha'
    · rw [hbase, hdelete]
      by_cases hck : ck = Element.key e
      · subst hck
        cases ha : s.added.contains (Element.key e) <;> simp [hself, hback, ha]
      · have hother := h.removed ck
        cases ha : s.added.contains (Element.key e) <;>
          simpa [FinMap.contains_insert, hck] using hother

end Lag

theorem Op.lag (op : Op E) {s : AddRemoveSet E} {old : Option (AddRemoveSet E)}
    (h : s.Lag old) : (op.perform s).Lag old := by
  cases op with
  | add e => exact h.add e
  | delete e => exact h.delete e
  | clear => exact h.clear

end AddRemoveSet

/-! ## Maps with values of one tracked type -/

namespace UniformMap

variable {K V : Type} [Element K] {L : V → Option V → Prop} {m w : UniformMap K V}

theorem valueAt?_modify (m : UniformMap K V) (k : K) (fresh : V) (f : V → V) (ck : Key) :
    (m.modify k fresh f).entries.valueAt? ck =
      if ck = Element.key k then some (f ((m.entries.valueAt? ck).getD fresh))
      else m.entries.valueAt? ck := by
  by_cases hck : ck = Element.key k
  · subst hck
    cases hfind : m.entries.find? (Element.key k) <;>
      simp [modify, FinMap.valueAt?, hfind]
  · simp [modify, FinMap.valueAt?_insert, hck]

/-- The receiver lags behind under each key. -/
structure Lag (L : V → Option V → Prop) (m w : UniformMap K V) : Prop where
  sound : m.Sound fun _ => True
  values : ∀ ck, Lifted L (m.entries.valueAt? ck) (m.left w ck)

namespace Lag

theorem empty : Lag L ({} : UniformMap K V) {} :=
  ⟨.empty false, fun ck => by simp [Lifted, left]⟩

theorem clear (h : Lag L m w) : Lag L m.clear w := by
  rcases clear_cases m with hclear | hclear
  · rwa [hclear]
  · rw [hclear]
    exact ⟨.empty true, fun ck => by simp [Lifted, left]⟩

theorem modify (h : Lag L m w) (k : K) {fresh : V} {f : V → V}
    (hfresh : m.get? k = none → L (f fresh) none)
    (hf : ∀ v old, m.get? k = some v → L v old → L (f v) old) : Lag L (m.modify k fresh f) w := by
  refine ⟨h.sound.modify k trivial fun _ _ => trivial, fun ck => ?_⟩
  have hleft : (m.modify k fresh f).left w ck = m.left w ck := rfl
  have hold := h.values ck
  rw [hleft, valueAt?_modify]
  split
  · next hck =>
      subst hck
      cases hv : m.entries.valueAt? (Element.key k) with
      | none =>
          rw [hv] at hold
          rw [show m.left w (Element.key k) = none from hold]
          exact hfresh hv
      | some v =>
          rw [hv] at hold
          exact hf v _ hv hold
  · exact hold

/-- A removal makes up for the value under its key, whether that lags or not. -/
theorem delete_of_ne {k : K} (hsound : m.Sound fun _ => True) (hk : m.has k = true)
    (h : ∀ ck, ck ≠ Element.key k → Lifted L (m.entries.valueAt? ck) (m.left w ck)) :
    Lag L (m.delete k) w := by
  refine ⟨hsound.delete k, fun ck => ?_⟩
  rcases delete_cases k m with ⟨hmissing, -⟩ | ⟨e, -, hdelete⟩
  · rw [hmissing] at hk
    cases hk
  · rw [hdelete, FinMap.valueAt?_erase]
    by_cases hck : ck = Element.key k
    · simp [hck, Lifted, left, Contents.left, FinMap.contains_insert]
    · have hother := h ck hck
      simpa [hck, left, Contents.left, FinMap.contains_insert] using hother

theorem delete (h : Lag L m w) (k : K) : Lag L (m.delete k) w := by
  rcases delete_cases k m with ⟨-, hdelete⟩ | ⟨e, hf, -⟩
  · rwa [hdelete]
  · exact delete_of_ne h.sound (FinMap.contains_of_find?_eq_some hf) fun ck _ => h.values ck

end Lag

end UniformMap

section Maps

variable {K V : Type} [Element K]

theorem CounterMap.Op.lag (op : Op K) {m w : CounterMap K}
    (h : UniformMap.Lag Counter.Lag m w) : UniformMap.Lag Counter.Lag (op.perform m) w := by
  have hfresh : Counter.Lag {} none := by
    unfold Counter.Lag
    decide
  cases op with
  | increment k n =>
      exact h.modify k (fun _ => Counter.Op.lag (.increment n) hfresh)
        fun _ _ _ hc => Counter.Op.lag (.increment n) hc
  | decrement k n =>
      exact h.modify k (fun _ => Counter.Op.lag (.decrement n) hfresh)
        fun _ _ _ hc => Counter.Op.lag (.decrement n) hc
  | delete k => exact h.delete k
  | clear => exact h.clear

theorem RegisterMap.Op.lag (op : Op K V) {m w : RegisterMap K V}
    (h : UniformMap.Lag Register.Lag m w) : UniformMap.Lag Register.Lag (op.perform m) w := by
  cases op with
  | set k v stamp =>
      exact h.modify k (fun _ => Register.lag_new v stamp none)
        fun r old _ _ => Register.Op.lag (.set v stamp) r old
  | delete k => exact h.delete k
  | clear => exact h.clear

namespace MultiMap

variable [Element V]

/-- The set of a key lags behind and is not empty. -/
def SetLag (s : AddRemoveSet V) (old : Option (AddRemoveSet V)) : Prop :=
  s.Lag old ∧ s.isEmpty = false

omit [Element V] in
theorem not_isEmpty_of_contains {s : AddRemoveSet V} {ck : Key}
    (h : s.elements.contains ck = true) : s.isEmpty = false := by
  cases he : s.isEmpty with
  | false => rfl
  | true =>
      rw [FinMap.isEmpty_iff.mp he] at h
      cases h

theorem not_isEmpty_add (s : AddRemoveSet V) (v : V) : (s.add v).isEmpty = false := by
  have hv : (s.add v).has v = true := by simp [AddRemoveSet.has_add]
  exact not_isEmpty_of_contains hv

theorem not_isEmpty_addAll (s : AddRemoveSet V) {vs : List V}
    (h : s.isEmpty = false ∨ vs ≠ []) : (s.addAll vs).isEmpty = false := by
  induction vs generalizing s with
  | nil => exact h.resolve_right fun hne => hne rfl
  | cons v vs ih => exact ih (s.add v) (Or.inl (not_isEmpty_add s v))

theorem lag_putAll {m w : MultiMap K V} (h : UniformMap.Lag SetLag m w) (k : K) (vs : List V) :
    UniformMap.Lag SetLag (m.putAll k vs) w := by
  unfold putAll
  split
  · exact h
  · next hvs =>
      have hne : vs ≠ [] := by simpa using hvs
      exact UniformMap.Lag.modify h k
        (fun _ => ⟨AddRemoveSet.Lag.empty.addAll vs, not_isEmpty_addAll _ (Or.inr hne)⟩)
        fun s _ _ hs => ⟨hs.1.addAll vs, not_isEmpty_addAll s (Or.inr hne)⟩

theorem lag_deleteValue {m w : MultiMap K V} (h : UniformMap.Lag SetLag m w) (k : K) (v : V) :
    UniformMap.Lag SetLag (m.deleteValue k v) w := by
  unfold deleteValue
  cases hget : m.get? k with
  | none => exact h
  | some s =>
      simp only
      split
      · -- the set is empty now, and its key goes as well
        refine UniformMap.Lag.delete_of_ne (h.sound.modify k trivial fun _ _ => trivial) ?_ ?_
        · simp [UniformMap.has, UniformMap.modify, FinMap.contains_insert]
        · intro ck hck
          rw [UniformMap.valueAt?_modify, if_neg hck]
          exact h.values ck
      · next he =>
          refine UniformMap.Lag.modify h k (fun hnone => ?_) fun s' old hs' hlag => ?_
          · rw [hget] at hnone
            cases hnone
          · rw [hget] at hs'
            cases hs'
            exact ⟨hlag.1.delete v, by simpa using he⟩

theorem Op.lag (op : Op K V) {m w : MultiMap K V} (h : UniformMap.Lag SetLag m w) :
    UniformMap.Lag SetLag (op.perform m) w := by
  cases op with
  | put k v =>
      exact UniformMap.Lag.modify h k
        (fun _ => ⟨AddRemoveSet.Lag.empty.add v, not_isEmpty_add _ v⟩)
        fun s _ _ hs => ⟨hs.1.add v, not_isEmpty_add s v⟩
  | putAll k vs => exact lag_putAll h k vs
  | deleteValue k v => exact lag_deleteValue h k v
  | delete k => exact UniformMap.Lag.delete h k
  | clear => exact UniformMap.Lag.clear h

end MultiMap

end Maps

/-! ## Maps to replicated data -/

namespace DataMap

variable {K V : Type} [Element K] {L : V → Option V → Prop} {m m' w : DataMap K V}

/-- The receiver lags behind under each key, and just those keys are staged as added that the
staged removals leave it without. -/
structure Lag (L : V → Option V → Prop) (m w : DataMap K V) : Prop where
  sound : m.Sound fun _ => True
  values : ∀ ck, Lifted L (m.entries.valueAt? ck) (m.left w ck)
  added : ∀ ck, m.entries.contains ck = true →
    m.added.contains ck = (m.left w ck).isNone

namespace Lag

theorem empty (supply supply' : Option (K → Option (Noted V))) :
    Lag L ({ supply } : DataMap K V) { supply := supply' } :=
  ⟨.empty false supply, fun ck => by simp [Lifted, left],
    fun ck h => by cases h⟩

theorem clear (h : Lag L m w) : Lag L m.clear w := by
  rcases clear_cases m with hclear | hclear
  · rwa [hclear]
  · rw [hclear]
    exact ⟨.empty true m.supply, fun ck => by simp [Lifted, left],
      fun ck h => by cases h⟩

/-- Whether a key that is there is left to the receiver is read off what is staged. -/
theorem left_eq_none (h : Lag L m w) {ck : Key}
    (hck : m.entries.contains ck = true → m.added.contains ck = true) : m.left w ck = none := by
  cases hc : m.entries.contains ck with
  | true =>
      have hadded := h.added ck hc
      rw [hck hc] at hadded
      simpa using hadded.symm
  | false =>
      have hvalue := h.values ck
      rw [FinMap.valueAt?_eq_none_iff.mpr hc] at hvalue
      exact hvalue

/-- A key that gets a value is staged as added, and the receiver is left without it.  When a missing
key comes back, its removal is staged no more, so the receiver must not have it. -/
theorem set_self (h : Lag L m w) (k : K) (v : V)
    (hfree : m.has k = false → m.removed.contains (Element.key k) = true →
      w.entries.contains (Element.key k) = false) :
    (m.set k v).result.added.contains (Element.key k) = true ∧
      (m.set k v).result.left w (Element.key k) = none := by
  rcases set_cases k v m with ⟨hc, hset⟩ | ⟨-, hset⟩ | ⟨ha, hset⟩
  · have hleft : m.left w (Element.key k) = none :=
      h.left_eq_none fun hc' => absurd hc' (by simp [hc])
    rw [hset]
    constructor
    · simp [FinMap.contains_insert]
    · cases hr : m.removed.contains (Element.key k) with
      | true =>
          have hnone := FinMap.valueAt?_eq_none_iff.mpr (hfree hc hr)
          simp [left, Contents.left, FinMap.contains_erase, hnone]
      | false => simpa [left, Contents.left, FinMap.contains_erase, hr] using hleft
  · rw [hset]
    simp [left, Contents.left, FinMap.contains_insert]
  · rw [hset]
    exact ⟨ha, h.left_eq_none fun _ => ha⟩

theorem set_of_ne (m w : DataMap K V) (k : K) (v : V) {ck : Key}
    (hck : ck ≠ Element.key k) :
    (m.set k v).result.left w ck = m.left w ck ∧
      (m.set k v).result.added.contains ck = m.added.contains ck := by
  rcases set_cases k v m with ⟨-, hset⟩ | ⟨-, hset⟩ | ⟨-, hset⟩ <;>
    simp [hset, left, Contents.left, FinMap.contains_insert, FinMap.contains_erase, hck]

theorem set (h : Lag L m w) (k : K) {v : V} (hv : L v none)
    (hfree : m.has k = false → m.removed.contains (Element.key k) = true →
      w.entries.contains (Element.key k) = false) :
    Lag L (m.set k v).result w := by
  obtain ⟨hadded, hleft⟩ := h.set_self k v hfree
  refine ⟨h.sound.set k trivial, fun ck => ?_, fun ck => ?_⟩
  · rw [entries_set, FinMap.valueAt?_insert]
    by_cases hck : ck = Element.key k
    · subst hck
      rw [if_pos rfl, hleft]
      exact hv
    · rw [if_neg hck, (set_of_ne m w k v hck).1]
      exact h.values ck
  · rw [entries_set, FinMap.contains_insert]
    by_cases hck : ck = Element.key k
    · subst hck
      simp [hadded, hleft]
    · obtain ⟨hleft', hadded'⟩ := set_of_ne m w k v hck
      rw [hleft', hadded']
      simpa [hck] using h.added ck

theorem delete (h : Lag L m w) (k : K) : Lag L (m.delete k) w := by
  rcases delete_cases k m with hdelete | ⟨e, -, hdelete⟩
  · rwa [hdelete]
  · have hself : (m.delete k).left w (Element.key k) = none := by
      cases ha : m.added.contains (Element.key k) with
      | true =>
          have hleft := h.left_eq_none fun _ => ha
          simpa [hdelete, ha, left, Contents.left] using hleft
      | false => simp [hdelete, ha, left, Contents.left, FinMap.contains_insert]
    have hother (ck : Key) (hck : ck ≠ Element.key k) :
        (m.delete k).left w ck = m.left w ck ∧
          (m.delete k).added.contains ck = m.added.contains ck := by
      by_cases ha : m.added.contains (Element.key k) = true <;>
        simp [hdelete, ha, left, Contents.left, FinMap.contains_insert,
          FinMap.contains_erase, hck]
    refine ⟨h.sound.delete k, fun ck => ?_, fun ck hc => ?_⟩
    · rw [entries_delete, FinMap.valueAt?_erase]
      by_cases hck : ck = Element.key k
      · rw [if_pos hck, hck, hself]
        rfl
      · rw [if_neg hck, (hother ck hck).1]
        exact h.values ck
    · rw [entries_delete, FinMap.contains_erase, Bool.and_eq_true, decide_eq_true_eq] at hc
      rw [(hother ck hc.1).1, (hother ck hc.1).2]
      exact h.added ck hc.2

theorem adjust (h : Lag L m w) (k : K) {f : V → V}
    (hf : ∀ v, m.get? k = some v → L v (m.left w (Element.key k)) →
      L (f v) (m.left w (Element.key k))) : Lag L (m.adjust k f) w := by
  rcases adjust_cases k f m with hadjust | ⟨e, hfind, hadjust⟩
  · rwa [hadjust]
  · refine ⟨h.sound.adjust k fun _ _ _ => trivial, fun ck => ?_, fun ck hc => ?_⟩
    · rw [hadjust, FinMap.valueAt?_insert]
      by_cases hck : ck = Element.key k
      · subst hck
        have hvalue := h.values (Element.key k)
        rw [FinMap.valueAt?, hfind] at hvalue
        rw [if_pos rfl]
        exact hf e.2 (by simp [get?, hfind]) hvalue
      · rw [if_neg hck]
        exact h.values ck
    · rw [hadjust] at hc ⊢
      refine h.added ck ?_
      rw [FinMap.contains_insert, Bool.or_eq_true, decide_eq_true_eq] at hc
      rcases hc with hck | hc
      · rw [hck]
        exact FinMap.contains_of_find?_eq_some hfind
      · exact hc

/-- An operation keeps up the lag if the values that enter lag with nothing at the receiver, and the
changes in place keep up the lag of a value. -/
theorem step (h : Lag L m w)
    (hstep : Step (fun v => L v none) (fun v v' => ∀ old, L v old → L v' old) (Free .alone) m m') :
    Lag L m' w := by
  have hunstaged {k : K} (hfree : Free .alone m k)
      (hr : m.removed.contains (Element.key k) = true) :
      w.entries.contains (Element.key k) = false := by
    rw [hfree rfl] at hr
    cases hr
  cases hstep with
  | set k hv hfree => exact h.set k hv fun hk => hunstaged (hfree hk)
  | reach k hsupply hfree =>
      rcases reach_cases k m with hreach | ⟨f, n, hf, hn, hk, hreach⟩
      · rwa [hreach]
      · rw [hreach]
        exact h.set k (hsupply f n hf hn hk) fun _ => hunstaged (hfree f n hf hn hk)
  | adjust k hv hvv' =>
      refine h.adjust k fun v hv' hold => ?_
      rw [hv] at hv'
      cases hv'
      exact hvv' _ hold
  | delete k => exact h.delete k
  | clear => exact h.clear

end Lag

end DataMap

/-! ## Data of any kind -/

namespace Datum

variable {T : Type} [Element T]

/-- The receiver has data of the same kind that lag behind, or no data, like new data. -/
inductive Lag : Datum T → Option (Datum T) → Prop
  | counter {c : Counter} (old : Option Counter) (h : c.Lag old) :
      Lag (.counter c) (old.map .counter)
  | register {r : Register T} (old : Option (Register T)) (h : r.Lag old) :
      Lag (.register r) (old.map .register)
  | set {s : AddRemoveSet T} (old : Option (AddRemoveSet T)) (h : s.Lag old) :
      Lag (.set s) (old.map .set)
  | vote {v : Vote} (old : Option Vote) (h : v.Lag old) : Lag (.vote v) (old.map .vote)
  | map {m : DataMap T (Datum T)} (old : Option (DataMap T (Datum T)))
      (hsound : m.Sound fun _ => True)
      (hmissing : ∀ ck, m.entries.valueAt? ck = none → m.left (old.getD {}) ck = none)
      (hvalues : ∀ ck v, m.entries.valueAt? ck = some v → Lag v (m.left (old.getD {}) ck))
      (hadded : ∀ ck, m.entries.contains ck = true →
        m.added.contains ck = (m.left (old.getD {}) ck).isNone) :
      Lag (.map m) (old.map .map)
  | counterMap {m : CounterMap T} (old : Option (CounterMap T))
      (h : UniformMap.Lag Counter.Lag m (old.getD {})) :
      Lag (.counterMap m) (old.map .counterMap)
  | registerMap {m : RegisterMap T T} (old : Option (RegisterMap T T))
      (h : UniformMap.Lag Register.Lag m (old.getD {})) :
      Lag (.registerMap m) (old.map .registerMap)
  | multiMap {m : MultiMap T T} (old : Option (MultiMap T T))
      (h : UniformMap.Lag MultiMap.SetLag m (old.getD {})) :
      Lag (.multiMap m) (old.map .multiMap)

theorem Lag.of_map {m : DataMap T (Datum T)} (old : Option (DataMap T (Datum T)))
    (h : DataMap.Lag Lag m (old.getD {})) : Lag (.map m) (old.map .map) := by
  refine .map old h.sound (fun ck hv => ?_) (fun ck v hv => ?_) h.added
  · have hvalue := h.values ck
    rwa [hv] at hvalue
  · have hvalue := h.values ck
    rwa [hv] at hvalue

theorem Lag.exists_map {m : DataMap T (Datum T)} {x : Option (Datum T)} (h : Lag (.map m) x) :
    ∃ old : Option (DataMap T (Datum T)), x = old.map .map ∧ DataMap.Lag Lag m (old.getD {}) := by
  cases h with
  | map old hsound hmissing hvalues hadded =>
      refine ⟨old, rfl, hsound, fun ck => ?_, hadded⟩
      cases hv : m.entries.valueAt? ck with
      | none => exact hmissing ck hv
      | some v => exact hvalues ck v hv

theorem Start.lag {x : Datum T} (h : Start x) : Lag x none := by
  cases h with
  | counter =>
      refine .counter none ?_
      unfold Counter.Lag
      decide
  | register v stamp => exact .register none (Register.lag_new v stamp none)
  | set => exact .set none .empty
  | vote n => exact .vote none rfl
  | map supply => exact .of_map none (.empty supply none)
  | counterMap => exact .counterMap none .empty
  | registerMap => exact .registerMap none .empty
  | multiMap => exact .multiMap none .empty

theorem Operate.lag {x y : Datum T} (h : Operate x y) {old : Option (Datum T)}
    (hx : Lag x old) : Lag y old := by
  cases h with
  | counter op c =>
      cases hx with
      | counter old h => exact .counter old (op.lag h)
  | register op r =>
      cases hx with
      | register old h => exact .register old (op.lag r _)
  | set op s =>
      cases hx with
      | set old h => exact .set old (op.lag h)
  | vote op v =>
      cases hx with
      | vote old h => exact .vote old (op.lag h)
  | counterMap op m =>
      cases hx with
      | counterMap old h => exact .counterMap old (op.lag h)
  | registerMap op m =>
      cases hx with
      | registerMap old h => exact .registerMap old (op.lag h)
  | multiMap op m =>
      cases hx with
      | multiMap old h => exact .multiMap old (op.lag h)

/-- Data that are changed alone lag with nothing at the receiver, and keep up the lag with what is
there. -/
theorem kept_lag :
    Kept .alone (fun x : Datum T => Lag x none) fun x y => ∀ old, Lag x old → Lag y old where
  start _ h := h.lag
  created h := by cases h
  step _ _ hx h := h none hx
  operate _ _ h _ hx := h.lag hx
  map m m' h x hx := by
    obtain ⟨old, rfl, hlag⟩ := hx.exists_map
    exact .of_map old (hlag.step h)
  harvest h := by cases h
  apply h := by cases h

end Datum

end DeltaReplica
