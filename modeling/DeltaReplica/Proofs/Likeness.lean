import DeltaReplica.Data.Datum
import DeltaReplica.Proofs.Lookup

/-!
# Likeness

Replicas are alike if applications see the same in them: the numbers of counters, the
values of registers, the elements of sets, one's own vote, and the keys and values of
maps, at every depth.  What is staged, and the tallies of votes, make no difference.

Elements and keys are seen through their comparable keys.  Maps of counters can be
compared by their entries or by what they count for each key, where a missing key counts
nothing.
-/

namespace DeltaReplica

variable {K V T : Type}

/-- Sets with the same elements. -/
def AddRemoveSet.Alike (s s' : AddRemoveSet V) : Prop :=
  ∀ ck, s.elements.contains ck = s'.elements.contains ck

/-- Contents with the same keys, and with alike values under them. -/
structure Contents.Alike (A : V → V → Prop) (m m' : Entries K V) : Prop where
  contains_eq : ∀ ck, m.contains ck = m'.contains ck
  values : ∀ ck v v', m.valueAt? ck = some v → m'.valueAt? ck = some v' → A v v'

/-- Maps of counters that count the same for each key. -/
def CounterMap.AlikeByValue [Element K] (m m' : CounterMap K) : Prop :=
  ∀ k, m.value k = m'.value k

/-- Maps of counters with the same keys and the same counts under them. -/
def CounterMap.AlikeByEntry (m m' : CounterMap K) : Prop :=
  Contents.Alike (fun c c' => c.value = c'.value) m.entries m'.entries

/-- Maps of registers with the same keys and the same values under them. -/
def RegisterMap.Alike (m m' : RegisterMap K V) : Prop :=
  Contents.Alike (fun r r' => r.value = r'.value) m.entries m'.entries

/-- Maps of sets with the same keys and the same elements under them. -/
def MultiMap.Alike (m m' : MultiMap K V) : Prop :=
  Contents.Alike AddRemoveSet.Alike m.entries m'.entries

/-- Data of the same kind with alike contents, given when maps of counters are alike. -/
inductive Datum.Alike (R : CounterMap T → CounterMap T → Prop) : Datum T → Datum T → Prop
  | counter {c c' : Counter} (h : c.value = c'.value) : Alike R (.counter c) (.counter c')
  | register {r r' : Register T} (h : r.value = r'.value) : Alike R (.register r) (.register r')
  | set {s s' : AddRemoveSet T} (h : s.Alike s') : Alike R (.set s) (.set s')
  | vote {v v' : Vote} (h : v.selfVote = v'.selfVote) : Alike R (.vote v) (.vote v')
  | map {m m' : DataMap T (Datum T)}
      (hcontains : ∀ ck, m.entries.contains ck = m'.entries.contains ck)
      (hvalues : ∀ ck v v', m.entries.valueAt? ck = some v → m'.entries.valueAt? ck = some v' →
        Alike R v v') :
      Alike R (.map m) (.map m')
  | counterMap {m m' : CounterMap T} (h : R m m') : Alike R (.counterMap m) (.counterMap m')
  | registerMap {m m' : RegisterMap T T} (h : RegisterMap.Alike m m') :
      Alike R (.registerMap m) (.registerMap m')
  | multiMap {m m' : MultiMap T T} (h : MultiMap.Alike m m') :
      Alike R (.multiMap m) (.multiMap m')

/-- Maps to data with the same keys and with alike data under them. -/
def DataMap.Alike (R : CounterMap T → CounterMap T → Prop) (m m' : DataMap K (Datum T)) : Prop :=
  Contents.Alike (Datum.Alike R) m.entries m'.entries

namespace Datum

variable {R : CounterMap T → CounterMap T → Prop}

@[simp]
theorem alike_counter_iff {c c' : Counter} :
    Alike R (.counter c) (.counter c') ↔ c.value = c'.value :=
  ⟨fun h => by cases h; assumption, .counter⟩

@[simp]
theorem alike_register_iff {r r' : Register T} :
    Alike R (.register r) (.register r') ↔ r.value = r'.value :=
  ⟨fun h => by cases h; assumption, .register⟩

@[simp]
theorem alike_set_iff {s s' : AddRemoveSet T} : Alike R (.set s) (.set s') ↔ s.Alike s' :=
  ⟨fun h => by cases h; assumption, .set⟩

@[simp]
theorem alike_vote_iff {v v' : Vote} :
    Alike R (.vote v) (.vote v') ↔ v.selfVote = v'.selfVote :=
  ⟨fun h => by cases h; assumption, .vote⟩

@[simp]
theorem alike_map_iff {m m' : DataMap T (Datum T)} :
    Alike R (.map m) (.map m') ↔ m.Alike R m' :=
  ⟨fun h => by cases h with | map hcontains hvalues => exact ⟨hcontains, hvalues⟩,
    fun h => .map h.contains_eq h.values⟩

@[simp]
theorem alike_counterMap_iff {m m' : CounterMap T} :
    Alike R (.counterMap m) (.counterMap m') ↔ R m m' :=
  ⟨fun h => by cases h; assumption, .counterMap⟩

@[simp]
theorem alike_registerMap_iff {m m' : RegisterMap T T} :
    Alike R (.registerMap m) (.registerMap m') ↔ RegisterMap.Alike m m' :=
  ⟨fun h => by cases h; assumption, .registerMap⟩

@[simp]
theorem alike_multiMap_iff {m m' : MultiMap T T} :
    Alike R (.multiMap m) (.multiMap m') ↔ MultiMap.Alike m m' :=
  ⟨fun h => by cases h; assumption, .multiMap⟩

end Datum

end DeltaReplica
