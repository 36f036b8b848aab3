import DeltaReplica.Proofs.Acceptance
import DeltaReplica.Proofs.Lag
import DeltaReplica.Proofs.Network
import Mathlib.Algebra.BigOperators.Group.Finset.Basic
import Mathlib.Algebra.BigOperators.Pi
import Mathlib.Algebra.Ring.Int.Defs

/-!
# Maps of counters in a network

As long as nothing is removed, the counts of a key do not depend on the order in which deltas
arrive.  What has been counted for the key anywhere is at each replica in its own count, on its way
there, or still pending at another replica.  The sum of these parts is kept by every step, so the
replicas agree as soon as nothing is on its way and nothing is pending.

All sums are sums of 64-bit integers, which wrap.
-/

namespace DeltaReplica

/-- The 64-bit integers under addition that wraps. -/
instance addCommGroupInt64 : AddCommGroup Int64 where
  add_assoc := Int64.add_assoc
  zero_add := Int64.zero_add
  add_zero := Int64.add_zero
  nsmul := nsmulRec
  neg_add_cancel := Int64.add_left_neg
  zsmul := zsmulRec
  sub_eq_add_neg := Int64.sub_eq_add_neg
  add_comm := Int64.add_comm

theorem sum_update {ι : Type} [Fintype ι] [DecidableEq ι] (f : ι → Int64) (i : ι) (n : Int64) :
    ∑ j, Function.update f i n j = ∑ j, f j - f i + n := by
  have hrest := Finset.sum_sdiff (f := f) (Finset.subset_univ {i})
  rw [Finset.sum_singleton] at hrest
  rw [Finset.sum_update_of_mem (Finset.mem_univ i), ← hrest, add_sub_cancel_right, add_comm]

namespace CounterMap

variable {K : Type} [Element K]

/-! ## Single maps -/

/-- What is counted under a key; a missing counter stands at zero. -/
def countAt (ck : Key) (m : CounterMap K) : Int64 := (m.entries.valueAt? ck).elim 0 Counter.value

/-- What is pending under a key. -/
def pendingAt (ck : Key) (m : CounterMap K) : Int64 :=
  (m.entries.valueAt? ck).elim 0 Counter.pending

/-- What a delta adds to the count under a key. -/
def carried (K : Type) [Element K] (ck : Key) (d : UniformMapDelta CounterDelta) : Int64 :=
  countAt ck (UniformMap.merge d ({} : CounterMap K)).state

/-- Nothing has been removed since the last harvest. -/
structure Plain (m : CounterMap K) : Prop where
  sound : m.Sound fun _ => True
  removed : m.removed = ∅
  cleared : m.cleared = false

/-- The operations that count up or down. -/
def Op.Counts : Op K → Prop
  | .increment _ _ => True
  | .decrement _ _ => True
  | .delete _ => False
  | .clear => False

/-- What an operation adds to the count under a key, as an integer without bounds. -/
def Op.amount (ck : Key) : Op K → Int
  | .increment k n => if ck = Element.key k then n.toInt else 0
  | .decrement k n => if ck = Element.key k then -n.toInt else 0
  | .delete _ => 0
  | .clear => 0

theorem elim_modify (m : CounterMap K) (k : K) {f : Counter → Counter} {g : Counter → Int64}
    {n : Int64} (hfresh : g {} = 0) (hf : ∀ c, g (f c) = g c + n) (ck : Key) :
    ((m.modify k {} f).entries.valueAt? ck).elim 0 g =
      (m.entries.valueAt? ck).elim 0 g + if ck = Element.key k then n else 0 := by
  rw [UniformMap.valueAt?_modify]
  by_cases hck : ck = Element.key k
  · rw [if_pos hck, if_pos hck]
    cases m.entries.valueAt? ck with
    | none =>
        rw [Option.getD_none, Option.elim_some, hf, hfresh]
        rfl
    | some c => exact hf c
  · rw [if_neg hck, if_neg hck, add_zero]

theorem ofInt_ite (P : Prop) [Decidable P] (n : Int) :
    Int64.ofInt (if P then n else 0) = if P then Int64.ofInt n else 0 :=
  apply_ite Int64.ofInt P n 0

/-- An operation changes what it counts, be it the value of a counter or what is pending, by its
amount. -/
theorem Op.Counts.elim_perform {op : Op K} (h : op.Counts) {g : Counter → Int64}
    (hfresh : g {} = 0) (hincrement : ∀ n c, g (Counter.increment n c) = g c + n)
    (hdecrement : ∀ n c, g (Counter.decrement n c) = g c - n) (ck : Key) (m : CounterMap K) :
    ((op.perform m).entries.valueAt? ck).elim 0 g =
      (m.entries.valueAt? ck).elim 0 g + Int64.ofInt (op.amount ck) := by
  cases op with
  | increment k n =>
      rw [amount, ofInt_ite, Int64.ofInt_toInt]
      exact elim_modify m k hfresh (hincrement n) ck
  | decrement k n =>
      rw [amount, ofInt_ite, Int64.ofInt_neg, Int64.ofInt_toInt]
      exact elim_modify m k hfresh
        (fun c => (hdecrement n c).trans (Int64.sub_eq_add_neg (g c) n)) ck
  | delete k => exact h.elim
  | clear => exact h.elim

theorem Op.Counts.countAt_perform {op : Op K} (h : op.Counts) (ck : Key) (m : CounterMap K) :
    countAt ck (op.perform m) = countAt ck m + Int64.ofInt (op.amount ck) :=
  h.elim_perform rfl (fun _ _ => rfl) (fun _ _ => rfl) ck m

theorem Op.Counts.pendingAt_perform {op : Op K} (h : op.Counts) (ck : Key) (m : CounterMap K) :
    pendingAt ck (op.perform m) = pendingAt ck m + Int64.ofInt (op.amount ck) :=
  h.elim_perform rfl (fun _ _ => rfl) (fun _ _ => rfl) ck m

theorem Plain.perform {m : CounterMap K} (h : m.Plain) {op : Op K} (hop : op.Counts) :
    (op.perform m).Plain := by
  cases op with
  | increment k n => exact ⟨h.sound.modify k trivial fun _ _ => trivial, h.removed, h.cleared⟩
  | decrement k n => exact ⟨h.sound.modify k trivial fun _ _ => trivial, h.removed, h.cleared⟩
  | delete k => exact hop.elim
  | clear => exact hop.elim

theorem plain_empty : Plain ({} : CounterMap K) := ⟨.empty false, rfl, rfl⟩

theorem countAt_harvest (initial : Bool) (ck : Key) (m : CounterMap K) :
    countAt ck (Tracked.harvest initial m).2 = countAt ck m := by
  rw [countAt, UniformMap.snd_harvest, UniformMap.valueAt?_kept, countAt]
  cases m.entries.valueAt? ck with
  | none => rfl
  | some c =>
      rw [Option.map_some, Option.elim_some, Counter.snd_harvest]
      rfl

theorem pendingAt_harvest (initial : Bool) (ck : Key) (m : CounterMap K) :
    pendingAt ck (Tracked.harvest initial m).2 = 0 := by
  rw [pendingAt, UniformMap.snd_harvest, UniformMap.valueAt?_kept]
  cases m.entries.valueAt? ck with
  | none => rfl
  | some c =>
      rw [Option.map_some, Option.elim_some, Counter.snd_harvest]

/-! ## Handing over -/

/-- A counter that arrives adds what was pending at its sender, and stages nothing. -/
theorem receive?_counter (c : Counter) (old : Option Counter) :
    (Tracked.receive? (Tracked.harvest false c).1 old).state.elim 0 Counter.value =
        old.elim 0 Counter.value + c.pending ∧
      (Tracked.receive? (Tracked.harvest false c).1 old).state.elim 0 Counter.pending =
        old.elim 0 Counter.pending := by
  by_cases h : c.pending = 0
  · have hnone : (Tracked.harvest false c).1 = none := by simp [Tracked.harvest, Counter.harvest, h]
    rw [hnone, h, add_zero]
    exact ⟨rfl, rfl⟩
  · have hsome : (Tracked.harvest false c).1 = some ⟨c.pending⟩ := by
      simp [Tracked.harvest, Counter.harvest, h]
    rw [hsome]
    cases old with
    | none => exact ⟨rfl, rfl⟩
    | some o => exact ⟨rfl, rfl⟩

variable [LawfulElement K] {m : CounterMap K}

theorem Plain.valueAt?_merge (h : m.Plain) (w : CounterMap K) (ck : Key) :
    (w.merge m.delta).state.entries.valueAt? ck =
      match m.entries.valueAt? ck with
      | some c => (Tracked.receive? (Tracked.harvest false c).1 (w.entries.valueAt? ck)).state
      | none => w.entries.valueAt? ck := by
  have hleft : m.left w ck = w.entries.valueAt? ck := by
    simp [UniformMap.left, Contents.left, h.removed, h.cleared]
  have harrives := (UniformMap.merge_delta h.sound w fun ck c _ =>
    Tracked.Accepting.failure_receive? false c (m.left w ck)).2 ck
  rw [harrives, UniformMap.arrives, hleft]
  cases m.entries.valueAt? ck with
  | none => rfl
  | some c => rfl

theorem Plain.countAt_merge (h : m.Plain) (ck : Key) (w : CounterMap K) :
    countAt ck (w.merge m.delta).state = countAt ck w + pendingAt ck m := by
  rw [countAt, h.valueAt?_merge, pendingAt]
  cases m.entries.valueAt? ck with
  | none => exact (add_zero _).symm
  | some c => exact (receive?_counter c (w.entries.valueAt? ck)).1

theorem Plain.pendingAt_merge (h : m.Plain) (ck : Key) (w : CounterMap K) :
    pendingAt ck (w.merge m.delta).state = pendingAt ck w := by
  rw [pendingAt, h.valueAt?_merge]
  cases m.entries.valueAt? ck with
  | none => rfl
  | some c => exact (receive?_counter c (w.entries.valueAt? ck)).2

theorem Plain.carried_delta (h : m.Plain) (ck : Key) : carried K ck m.delta = pendingAt ck m := by
  rw [carried, h.countAt_merge]
  exact zero_add _

theorem Plain.pendingAt_of_harvest_none (h : m.Plain) {initial : Bool}
    (hnone : (Tracked.harvest (δ := UniformMapDelta CounterDelta) initial m).1 = none) (ck : Key) :
    pendingAt ck m = 0 := by
  -- merging the delta is the same as merging nothing
  have hsame := UniformMap.receive_harvest initial m {}
  rw [hnone] at hsame
  have hcount := h.countAt_merge ck {}
  rw [← hsame] at hcount
  exact left_eq_add.mp hcount

end CounterMap

/-! ## Networks -/

namespace Network

open CounterMap

variable {ι K : Type} [DecidableEq ι] [Element K]

/-- Every replica may count, and each delta arrives once, in any order. -/
def counting (ι K : Type) [Element K] : Protocol ι (CounterMap K) (CounterMap.Op K) where
  perform := CounterMap.Op.perform
  permits _ op _ := op.Counts
  delivery := .once

omit [DecidableEq ι] in
theorem counting_keeps_plain :
    Kept (δ := UniformMapDelta CounterDelta) (counting ι K) fun _ m => m.Plain where
  change _ _ _ hop hm := hm.perform hop
  harvest _ initial m hm := by
    refine ⟨(UniformMap.keeps_sound Tracked.keeps_true).harvest initial m hm.sound, ?_, ?_⟩
    · rw [UniformMap.snd_harvest]
    · rw [UniformMap.snd_harvest]
  merge _ d m hm :=
    ⟨(UniformMap.keeps_sound Tracked.keeps_true).merge d m hm.sound, hm.removed, hm.cleared⟩

/-- A network of counter maps. -/
abbrev Counters (ι K : Type) :=
  Network ι (CounterMap K) (CounterMap.Op K) (UniformMapDelta CounterDelta)

/-- What has been counted under a key anywhere, as an integer without bounds. -/
def total (ck : Key) (N : Counters ι K) : Int := (N.made.map fun x => x.2.amount ck).sum

/-- What is on its way to the count of a replica. -/
def awaitedCount (ck : Key) (j : ι) (N : Counters ι K) : Int64 :=
  ((N.awaited j).map fun p => carried K ck p.delta).sum

/-- At each replica, its own count, what is on its way to it, and what is pending at the others add up
to what has been counted anywhere. -/
def Balanced [Fintype ι] (ck : Key) (N : Counters ι K) : Prop :=
  ∀ j, countAt ck (N.replica j) + awaitedCount ck j N + ∑ i, pendingAt ck (N.replica i) =
    Int64.ofInt (N.total ck) + pendingAt ck (N.replica j)

omit [Element K] in
theorem sum_pendingAt_update [Fintype ι] (ck : Key) (f : ι → CounterMap K) (i : ι)
    (m : CounterMap K) :
    ∑ j, pendingAt ck (Function.update f i m j) =
      ∑ j, pendingAt ck (f j) - pendingAt ck (f i) + pendingAt ck m := by
  have hupdate : (fun j => pendingAt ck (Function.update f i m j)) =
      Function.update (fun j => pendingAt ck (f j)) i (pendingAt ck m) :=
    funext fun j => Function.apply_update (fun _ => pendingAt ck) f i m j
  rw [hupdate, sum_update]

variable [Fintype ι] {N N' : Counters ι K} {ck : Key}

/-! ### One step -/

theorem Balanced.change (h : N.Balanced ck) (i : ι) {op : CounterMap.Op K} (hop : op.Counts) :
    (N.change CounterMap.Op.perform i op).Balanced ck := by
  intro j
  have hsum : ∑ j, pendingAt ck ((N.change CounterMap.Op.perform i op).replica j) =
      ∑ j, pendingAt ck (N.replica j) + Int64.ofInt (op.amount ck) := by
    rw [Network.change, sum_pendingAt_update, hop.pendingAt_perform]
    grind
  have htotal : Int64.ofInt ((N.change CounterMap.Op.perform i op).total ck) =
      Int64.ofInt (N.total ck) + Int64.ofInt (op.amount ck) := by
    rw [total, made_change, List.map_append, List.sum_append, Int64.ofInt_add]
    simp [total]
  have hj := h j
  rw [hsum, htotal]
  by_cases hji : j = i
  · subst hji
    rw [replica_change_self, hop.countAt_perform, hop.pendingAt_perform]
    change countAt ck (N.replica j) + _ + awaitedCount ck j N + _ = _
    grind
  · rw [replica_change_of_ne hji]
    change countAt ck (N.replica j) + awaitedCount ck j N + _ = _
    grind

variable [LawfulElement K]

omit [DecidableEq ι] [Fintype ι] in
theorem sum_parcels {m : CounterMap K} (hm : m.Plain) (i : ι) (initial : Bool) :
    ((parcels i initial m).map fun p => carried K ck p.delta).sum = pendingAt ck m := by
  cases hd : (Tracked.harvest (δ := UniformMapDelta CounterDelta) initial m).1 with
  | none =>
      rw [hm.pendingAt_of_harvest_none hd]
      simp [parcels, hd]
  | some d =>
      rw [← hm.carried_delta, ← UniformMap.eq_delta_of_harvest hd]
      simp [parcels, hd]

theorem Balanced.harvest (h : N.Balanced ck) {i : ι} (hi : (N.replica i).Plain)
    (initial : Bool) : (N.harvest i initial).Balanced ck := by
  intro j
  have hsum : ∑ j, pendingAt ck ((N.harvest i initial).replica j) =
      ∑ j, pendingAt ck (N.replica j) - pendingAt ck (N.replica i) := by
    rw [Network.harvest, sum_pendingAt_update, pendingAt_harvest, add_zero]
  have htotal : (N.harvest i initial).total ck = N.total ck := rfl
  have hj := h j
  rw [hsum, htotal]
  by_cases hji : j = i
  · subst hji
    rw [replica_harvest_self, countAt_harvest, pendingAt_harvest, awaitedCount,
      awaited_harvest_self]
    rw [awaitedCount] at hj
    grind
  · rw [replica_harvest_of_ne hji, awaitedCount, awaited_harvest_of_ne hji, List.map_append,
      List.sum_append, sum_parcels hi]
    rw [awaitedCount] at hj
    grind

theorem Balanced.arrive (h : N.Balanced ck) {j : ι} {p : Parcel ι (UniformMapDelta CounterDelta)}
    (hfrom : HandedOver (fun _ (m : CounterMap K) => m.Plain) p)
    {before after : List (Parcel ι (UniformMapDelta CounterDelta))}
    (hawaited : N.awaited j = before ++ p :: after) :
    (N.arrive j p.delta (before ++ after)).Balanced ck := by
  intro i
  obtain ⟨m, initial, hm, hd⟩ := hfrom
  have hdelta : p.delta = m.delta := UniformMap.eq_delta_of_harvest hd
  have hpending : pendingAt ck (Tracked.merge p.delta (N.replica j)).state =
      pendingAt ck (N.replica j) := by
    rw [hdelta]
    exact hm.pendingAt_merge ck (N.replica j)
  have hsum : ∑ i, pendingAt ck ((N.arrive j p.delta (before ++ after)).replica i) =
      ∑ i, pendingAt ck (N.replica i) := by
    rw [replica_arrive, receive, sum_pendingAt_update, hpending, sub_add_cancel]
  have htotal : (N.arrive j p.delta (before ++ after)).total ck = N.total ck := rfl
  have hi := h i
  rw [hsum, htotal, replica_arrive]
  by_cases hij : i = j
  · subst hij
    have hcount : countAt ck (Tracked.merge p.delta (N.replica i)).state =
        countAt ck (N.replica i) + carried K ck p.delta := by
      rw [hdelta, hm.carried_delta]
      exact hm.countAt_merge ck (N.replica i)
    rw [replica_receive_self, hcount, hpending, awaitedCount, awaited_arrive_self]
    rw [awaitedCount, hawaited] at hi
    simp only [List.map_append, List.map_cons, List.sum_append, List.sum_cons] at hi ⊢
    grind
  · rw [replica_receive_of_ne hij, awaitedCount, awaited_arrive_of_ne hij]
    exact hi

theorem Balanced.step (h : N.Balanced ck) (hN : N.Regular fun _ m => m.Plain)
    (hstep : Step (counting ι K) N N') : N'.Balanced ck := by
  cases hstep with
  | change i op hop => exact h.change i hop
  | harvest i initial => exact h.harvest (hN.replica i) initial
  | @arrive j p before after hawaited _ =>
      have hp : p ∈ N.sent := (hN.awaited j p (by simp [hawaited])).1
      exact h.arrive (hN.sent p hp) hawaited
  | again _ hdelivery _ => cases hdelivery

/-! ### Runs -/

theorem Reached.balanced (h : Reached (counting ι K) (fun _ => {}) N) (ck : Key) :
    N.Balanced ck := by
  refine h.invariant (I := Balanced ck) counting_keeps_plain (fun _ => plain_empty) ?_ ?_
  · intro j
    have hpending : ∑ i : ι, pendingAt ck ({} : CounterMap K) = 0 := Finset.sum_const_zero
    change 0 + 0 + ∑ i : ι, pendingAt ck ({} : CounterMap K) = 0 + 0
    rw [hpending, add_zero]
  · intro N N' hN hstep h
    exact h.step hN hstep

/-- Maps of counters that start empty, and whose keys are only counted up and down, agree on every
key once nothing is pending and everything has arrived: each replica has the sum of all changes,
wrapped to 64 bits. -/
theorem counter_maps_converge (h : Reached (counting ι K) (fun _ => {}) N) (hquiet : N.Quiet)
    (i : ι) (k : K) :
    (N.replica i).value k =
      Int64.ofInt (N.made.map fun x => x.2.amount (Element.key k)).sum := by
  have hplain : ∀ j, (N.replica j).Plain :=
    (h.regular counting_keeps_plain fun _ => plain_empty).replica
  have hpending : ∀ j, pendingAt (Element.key k) (N.replica j) = 0 := by
    intro j
    exact (hplain j).pendingAt_of_harvest_none (hquiet.idle j) _
  have hbalance := h.balanced (Element.key k) i
  simp only [hpending, awaitedCount, hquiet.arrived, List.map_nil, List.sum_nil,
    Finset.sum_const_zero, add_zero] at hbalance
  exact hbalance

/-- Two replicas count the same key past the largest number, and a second key up and down again. -/
theorem counter_maps_converge_beyond_largest :
    let k : Payload := ⟨"", [1]⟩
    let k' : Payload := ⟨"", [2]⟩
    let count := CounterMap.Op.perform (K := Payload)
    let start : Counters Bool Payload := { replica := fun _ => {} }
    let most : CounterMap.Op Payload := .increment k Int64.maxValue
    let one : CounterMap.Op Payload := .increment k 1
    let up : CounterMap.Op Payload := .increment k' 5
    let down : CounterMap.Op Payload := .decrement k' 5
    let first := (start.change count false most).harvest false false
    let both := (((first.change count true up).change count true down).change count true
      one).harvest true false
    let arrived := both.arrive true ⟨false, [], [⟨k, ⟨Int64.maxValue⟩⟩]⟩ []
    let after := arrived.arrive false ⟨false, [], [⟨k, ⟨1⟩⟩]⟩ []
    Reached (counting Bool Payload) (fun _ => {}) after ∧ after.Quiet ∧
      (∀ i, (after.replica i).value k = Int64.minValue) ∧ ∀ i, (after.replica i).value k' = 0 := by
  intro k k' count start most one up down first both arrived after
  have hfirst : both.awaited true = [⟨false, ⟨false, [], [⟨k, ⟨Int64.maxValue⟩⟩]⟩⟩] := by decide
  have hsecond : arrived.awaited false = [⟨true, ⟨false, [], [⟨k, ⟨1⟩⟩]⟩⟩] := by decide
  have hboth : Reached (counting Bool Payload) (fun _ => {}) both :=
    Relation.ReflTransGen.refl.tail (.change false most trivial) |>.tail (.harvest _ false false)
      |>.tail (.change true up trivial) |>.tail (.change true down trivial)
      |>.tail (.change true one trivial) |>.tail (.harvest _ true false)
  have harrive := Step.arrive_next (P := counting Bool Payload) hfirst
  have harrive' := Step.arrive_next (P := counting Bool Payload) hsecond
  have hreached : Reached (counting Bool Payload) (fun _ => {}) after :=
    (hboth.tail harrive).tail harrive'
  have hquiet : after.Quiet :=
    ⟨Bool.forall_bool.mpr ⟨by decide, by decide⟩, Bool.forall_bool.mpr ⟨rfl, rfl⟩⟩
  refine ⟨hreached, hquiet, fun i => ?_, fun i => ?_⟩
  · rw [counter_maps_converge hreached hquiet i k]
    decide
  · rw [counter_maps_converge hreached hquiet i k']
    decide

end Network

end DeltaReplica
