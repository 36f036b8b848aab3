import DeltaReplica.Proofs.Soundness

/-!
# Histories of data

How data come about: they start empty, and change by operations, at any depth.  Values
that enter a map have a history of their own.  Data with peers are harvested and merge
deltas as well, wherever they are in the nesting.

Data that are changed alone are those of a single writer before its first harvest.  Such
a writer does not give a key back while the removal of the key is still staged.
-/

namespace DeltaReplica

/-- Whether data are changed by the application alone, or have peers. -/
inductive Company
  /-- There are local operations only. -/
  | alone
  /-- There are harvests and the deltas of peers as well. -/
  | peers

namespace DataMap

variable {K V : Type} [Element K]

/-- A missing key can be given a value: when data are changed alone, its removal is not staged. -/
def Free (company : Company) (m : DataMap K V) (k : K) : Prop :=
  company = .alone → m.removed.contains (Element.key k) = false

/-- An operation on a map, given the values that may enter it and the changes that values may
undergo in place. -/
inductive Step (Made : V → Prop) (Inner : V → V → Prop) (Free : DataMap K V → K → Prop) :
    DataMap K V → DataMap K V → Prop
  | set (k : K) {v : V} {m : DataMap K V} (hv : Made v) (hfree : m.has k = false → Free m k) :
      Step Made Inner Free m (m.set k v).result
  | reach (k : K) {m : DataMap K V}
      (hsupply : ∀ f n, m.supply = some f → f k = some n → m.has k = false → Made n.result)
      (hfree : ∀ f n, m.supply = some f → f k = some n → m.has k = false → Free m k) :
      Step Made Inner Free m (m.reach k).result
  | adjust (k : K) {v v' : V} {m : DataMap K V} (hv : m.get? k = some v) (h : Inner v v') :
      Step Made Inner Free m (m.adjust k fun _ => v')
  | delete (k : K) (m : DataMap K V) : Step Made Inner Free m (m.delete k)
  | clear (m : DataMap K V) : Step Made Inner Free m m.clear

section Step

variable {Made Made' : V → Prop} {Inner Inner' : V → V → Prop} {Free : DataMap K V → K → Prop}
  {m m' : DataMap K V}

theorem Step.mono (h : Step Made Inner Free m m') (hmade : ∀ v, Made v → Made' v)
    (hinner : ∀ v v', Inner v v' → Inner' v v') : Step Made' Inner' Free m m' := by
  cases h with
  | set k hv hfree => exact .set k (hmade _ hv) hfree
  | reach k hsupply hfree =>
      exact .reach k (fun f n hf hn hk => hmade _ (hsupply f n hf hn hk)) hfree
  | adjust k hv h => exact .adjust k hv (hinner _ _ h)
  | delete k => exact .delete k m
  | clear => exact .clear m

theorem Step.sound {P : V → Prop} (h : Step P Inner Free m m')
    (hinner : ∀ v v', Inner v v' → P v → P v') (hm : m.Sound P) : m'.Sound P := by
  cases h with
  | set k hv hfree => exact hm.set k hv
  | reach k hsupply hfree => exact hm.reach k hsupply
  | adjust k hv h =>
      refine hm.adjust k fun v hv' hP => ?_
      rw [hv] at hv'
      cases hv'
      exact hinner _ _ h hP
  | delete k => exact hm.delete k
  | clear => exact hm.clear

end Step

end DataMap

namespace Datum

variable {T : Type} [Element T]

/-- New data. -/
inductive Start : Datum T → Prop
  | counter : Start (.counter {})
  | register (v : T) (stamp : Stamp) : Start (.register (.new v stamp))
  | set : Start (.set {})
  | vote (totalVoters : UInt32) : Start (.vote { totalVoters })
  | map (supply : Option (T → Option (Noted (Datum T)))) : Start (.map { supply })
  | counterMap : Start (.counterMap {})
  | registerMap : Start (.registerMap {})
  | multiMap : Start (.multiMap {})

/-- Data that are created for a delta are new. -/
theorem start_of_createFor {d : Delta} {x : Datum T} (h : createFor d = .ok x) : Start x := by
  cases d with
  | register d =>
      obtain ⟨value, clock, clockValue⟩ := d
      cases value with
      | none => cases h
      | some p =>
          rw [createFor, Register.create] at h
          cases hp : p.read (Element.decode (α := T)) with
          | error e => simp [hp, Except.map] at h
          | ok v =>
              simp only [hp, Except.map, Except.ok.injEq] at h
              exact h ▸ .register v {}
  | counter d => exact Except.ok.inj h ▸ .counter
  | set d => exact Except.ok.inj h ▸ .set
  | vote d => exact Except.ok.inj h ▸ .vote 1
  | map d => exact Except.ok.inj h ▸ .map none
  | counterMap d => exact Except.ok.inj h ▸ .counterMap
  | registerMap d => exact Except.ok.inj h ▸ .registerMap
  | multiMap d => exact Except.ok.inj h ▸ .multiMap
  | flag d => cases h
  | growSet d => cases h

/-- An operation on data that hold no data. -/
inductive Operate : Datum T → Datum T → Prop
  | counter (op : Counter.Op) (c : Counter) : Operate (.counter c) (.counter (op.perform c))
  | register (op : Register.Op T) (r : Register T) :
      Operate (.register r) (.register (op.perform r))
  | set (op : AddRemoveSet.Op T) (s : AddRemoveSet T) : Operate (.set s) (.set (op.perform s))
  | vote (op : Vote.Op) (v : Vote) : Operate (.vote v) (.vote (op.perform v))
  | counterMap (op : CounterMap.Op T) (m : CounterMap T) :
      Operate (.counterMap m) (.counterMap (op.perform m))
  | registerMap (op : RegisterMap.Op T T) (m : RegisterMap T T) :
      Operate (.registerMap m) (.registerMap (op.perform m))
  | multiMap (op : MultiMap.Op T T) (m : MultiMap T T) :
      Operate (.multiMap m) (.multiMap (op.perform m))

mutual

/-- Data with a history. -/
inductive Made (company : Company) : Datum T → Prop
  | start {x : Datum T} (h : Start x) : Made company x
  | created {d : Delta} {x : Datum T} (hpeers : company = .peers) (h : createFor d = .ok x) :
      Made company x
  | step {x y : Datum T} (hx : Made company x) (h : Step company x y) : Made company y

/-- A step in the history of data. -/
inductive Step (company : Company) : Datum T → Datum T → Prop
  | operate {x y : Datum T} (h : Operate x y) : Step company x y
  | map {m m' : DataMap T (Datum T)}
      (h : DataMap.Step (Made company) (Step company) (DataMap.Free company) m m') :
      Step company (.map m) (.map m')
  | harvest (hpeers : company = .peers) (initial : Bool) (x : Datum T) :
      Step company x (harvest initial x).2
  | apply (hpeers : company = .peers) (d : Delta) (x : Datum T) :
      Step company x (apply d x).state

end

/-- A property of data and a relation that fit the ways in which data come about. -/
structure Kept (company : Company) (P : Datum T → Prop) (Q : Datum T → Datum T → Prop) :
    Prop where
  start : ∀ x, Start x → P x
  created : company = .peers → ∀ d x, createFor d = .ok x → P x
  step : ∀ x y, P x → Q x y → P y
  operate : ∀ x y, Operate x y → Q x y
  map : ∀ m m', DataMap.Step P Q (DataMap.Free company) m m' → Q (.map m) (.map m')
  harvest : company = .peers → ∀ initial x, Q x (harvest initial x).2
  apply : company = .peers → ∀ d x, Q x (apply d x).state

namespace Kept

variable {company : Company} {P : Datum T → Prop} {Q : Datum T → Datum T → Prop}

-- A history, its last step, and the operation on a map that the step may be: the values that enter
-- the map have histories of their own, so the three are one induction.
mutual

theorem made (h : Kept company P Q) {x : Datum T} : Made company x → P x
  | .start hstart => h.start _ hstart
  | .created hpeers hd => h.created hpeers _ _ hd
  | .step hx hxy => h.step _ _ (made h hx) (steps h hxy)

theorem steps (h : Kept company P Q) {x y : Datum T} : Step company x y → Q x y
  | .operate hop => h.operate _ _ hop
  | .map hm => h.map _ _ (nestedStep h hm)
  | .harvest hpeers initial x => h.harvest hpeers initial x
  | .apply hpeers d x => h.apply hpeers d x

theorem nestedStep (h : Kept company P Q) {m m' : DataMap T (Datum T)} :
    DataMap.Step (Made company) (Step company) (DataMap.Free company) m m' →
      DataMap.Step P Q (DataMap.Free company) m m'
  | .set k hv hfree => .set k (made h hv) hfree
  | .reach k hsupply hfree => .reach k (fun f n hf hn hk => made h (hsupply f n hf hn hk)) hfree
  | .adjust k hv hvv' => .adjust k hv (steps h hvv')
  | .delete k m => .delete k m
  | .clear m => .clear m

end

/-- The operations on a map, whose keys may be of another type than those inside. -/
theorem mapStep (h : Kept company P Q) {K : Type} [Element K]
    {Free : DataMap K (Datum T) → K → Prop} {m m' : DataMap K (Datum T)}
    (hm : DataMap.Step (Made company) (Step company) Free m m') :
    DataMap.Step P Q Free m m' :=
  hm.mono (fun _ hv => h.made hv) fun _ _ hvv' => h.steps hvv'

end Kept

theorem Start.sound {x : Datum T} (h : Start x) : x.Sound := by
  cases h with
  | counter => exact .counter _
  | register v stamp => exact .register _
  | set => exact .set (.empty false)
  | vote n => exact .vote _
  | map supply => exact sound_map_iff.mpr (.empty false supply)
  | counterMap => exact .counterMap (.empty false)
  | registerMap => exact .registerMap (.empty false)
  | multiMap => exact .multiMap (.empty false)

theorem Operate.sound {x y : Datum T} (h : Operate x y) (hx : x.Sound) : y.Sound := by
  cases h with
  | counter op c => exact .counter _
  | register op r => exact .register _
  | set op s =>
      cases hx with
      | set hs => exact .set (op.sound hs)
  | vote op v => exact .vote _
  | counterMap op m =>
      cases hx with
      | counterMap hm => exact .counterMap (op.sound hm)
  | registerMap op m =>
      cases hx with
      | registerMap hm => exact .registerMap (op.sound hm)
  | multiMap op m =>
      cases hx with
      | multiMap hm => exact .multiMap (op.sound hm)

theorem kept_sound (company : Company) :
    Kept company (Sound (T := T)) fun x y => x.Sound → y.Sound where
  start _ h := h.sound
  created _ _ _ h := sound_createFor h
  step _ _ hx h := h hx
  operate _ _ h := h.sound
  map _ _ h hm := sound_map_iff.mpr (h.sound (fun _ _ hvv' => hvv') (sound_map_iff.mp hm))
  harvest _ initial _ h := sound_harvest initial h
  apply _ d _ h := sound_apply d h

/-- Data are sound whatever their history. -/
theorem Made.sound {company : Company} {x : Datum T} (h : Made company x) : x.Sound :=
  (kept_sound company).made h

end Datum

end DeltaReplica
