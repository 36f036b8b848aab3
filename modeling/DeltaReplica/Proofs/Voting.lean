import DeltaReplica.Proofs.Operations
import DeltaReplica.Proofs.Shadow
import Mathlib.Data.List.Induction

/-!
# Votes and their tallies

Two writers share the fields of a vote: casting adjusts the tallies here, and the proxy overwrites
them together with the vote.

The tallies stay consistent under both (`Vote.counts_run`).  A vote that is counted leaves a vote to
withdraw, and one that is not counted leaves room to be cast, so that casting never meets the
limits of a tally, and what it adds is taken away again when it is withdrawn.

The vote that is pending is another matter, since the proxy does not touch it.  Casting compares
with the vote that shows, so repeating a vote of the proxy stages nothing, and an older vote that
is still pending is handed over in its place.  The next vote is the one handed over unless the
proxy has overturned a pending one, and all that came after agreed with the proxy
(`Vote.handsOverLatest_run_iff`).
-/

namespace DeltaReplica

/-- No more votes than voters; the own vote is among those in favour, or else among the others. -/
structure Consistent (selfVote : Bool) (votesFor totalVoters : UInt32) : Prop where
  within : votesFor.toNat ≤ totalVoters.toNat
  counted : selfVote = true → 1 ≤ votesFor.toNat
  uncounted : selfVote = false → votesFor.toNat < totalVoters.toNat

/-- The tallies that the proxy reports are consistent with the vote that it reports. -/
def VoteDelta.Consistent (d : VoteDelta) : Prop :=
  DeltaReplica.Consistent d.selfVote d.votesFor d.totalVoters

namespace Vote

/-- What an event does to a vote. -/
def step (v : Vote) : Event Op VoteDelta → Vote
  | .change op => op.perform v
  | .receive d => (Tracked.merge d v).state
  | .harvest initial => (Tracked.harvest initial v).2

/-- A new vote after a sequence of events. -/
def run (events : List (Event Op VoteDelta)) : Vote := events.foldl step {}

theorem run_snoc (events : List (Event Op VoteDelta)) (e : Event Op VoteDelta) :
    run (events ++ [e]) = (run events).step e := by
  simp [run, List.foldl_append]

variable {v : Vote} {b : Bool}

/-- A vote that repeats the one that shows changes nothing, and any other is staged. -/
theorem cast_cases (b : Bool) (v : Vote) :
    v.selfVote = b ∧ v.cast b = v ∨
      v.selfVote = !b ∧ v.cast b =
        { v with
          selfVote := b
          votesFor := if b then raise v.votesFor else lower v.votesFor
          pending := some b } := by
  by_cases h : v.selfVote = b
  · exact Or.inl ⟨h, if_pos h⟩
  · exact Or.inr ⟨Bool.eq_not_of_ne h, if_neg h⟩

/-! ## Tallies -/

/-- The tallies of a vote are consistent with it. -/
def Consistent (v : Vote) : Prop := DeltaReplica.Consistent v.selfVote v.votesFor v.totalVoters

/-- The event is no delta of the proxy. -/
def Local : Event Op VoteDelta → Prop
  | .receive _ => False
  | _ => True

/-- The tallies are consistent and votes are counted exactly: a change of the vote counts one up or
down, tallies return with the vote as long as the proxy reports nothing, and the queries say of the
tallies what they are named for. -/
structure Counts (v : Vote) : Prop where
  consistent : v.Consistent
  cast : ∀ b, b ≠ v.selfVote →
    ((v.cast b).votesFor.toNat : Int) = v.votesFor.toNat + if b then 1 else -1
  returns : ∀ events : List (Event Op VoteDelta), (∀ e ∈ events, Local e) →
    (events.foldl step v).selfVote = v.selfVote →
      (events.foldl step v).votesFor = v.votesFor ∧
        (events.foldl step v).totalVoters = v.totalVoters
  majority_iff : v.majority = true ↔ v.totalVoters.toNat < 2 * v.votesFor.toNat
  majority_of_all : v.all = true → v.majority = true
  atLeastOne_of_majority : v.majority = true → v.atLeastOne = true

theorem toNat_raise {n m : UInt32} (h : n.toNat < m.toNat) : (raise n).toNat = n.toNat + 1 := by
  have hm := m.toNat_lt
  have hsize : n.toNat + 1 < UInt32.size := by simp only [UInt32.size]; omega
  rw [raise, if_pos hsize, UInt32.toNat_add, UInt32.toNat_one, Nat.mod_eq_of_lt (by omega)]

theorem toNat_lower {n : UInt32} (h : 1 ≤ n.toNat) : (lower n).toNat + 1 = n.toNat := by
  have hne : n ≠ 0 := by rintro rfl; simp at h
  have hle : (1 : UInt32) ≤ n := UInt32.le_iff_toNat_le.mpr h
  rw [lower, if_neg hne, UInt32.toNat_sub_of_le n 1 hle, UInt32.toNat_one]
  omega

/-- What others have in a tally is not moved by casting. -/
theorem Consistent.cast (h : v.Consistent) (b : Bool) :
    (v.cast b).Consistent ∧ (v.cast b).totalVoters = v.totalVoters ∧
      (v.cast b).votesFor.toNat + v.selfVote.toNat =
        v.votesFor.toNat + (v.cast b).selfVote.toNat := by
  rcases cast_cases b v with ⟨-, hsame⟩ | ⟨hself, hcast⟩
  · rw [hsame]
    exact ⟨h, rfl, rfl⟩
  · rw [hcast]
    cases b with
    | true =>
        have hraise : (raise v.votesFor).toNat = v.votesFor.toNat + 1 :=
          toNat_raise (h.uncounted hself)
        have hroom := h.uncounted hself
        refine ⟨⟨?_, fun _ => ?_, fun hb => (nomatch hb)⟩, rfl, ?_⟩
        · change (raise v.votesFor).toNat ≤ v.totalVoters.toNat
          omega
        · change 1 ≤ (raise v.votesFor).toNat
          omega
        · rw [hself]
          exact hraise
    | false =>
        have hlower : (lower v.votesFor).toNat + 1 = v.votesFor.toNat :=
          toNat_lower (h.counted hself)
        have hwithin := h.within
        refine ⟨⟨?_, fun hb => (nomatch hb), fun _ => ?_⟩, rfl, ?_⟩
        · change (lower v.votesFor).toNat ≤ v.totalVoters.toNat
          omega
        · change (lower v.votesFor).toNat < v.totalVoters.toNat
          omega
        · rw [hself]
          exact hlower

/-- Every event keeps the tallies consistent, provided the proxy reports consistent ones. -/
theorem Consistent.step (h : v.Consistent) {e : Event Op VoteDelta}
    (he : ∀ d, e = .receive d → d.Consistent) : (v.step e).Consistent := by
  cases e with
  | change op => cases op with | cast b => exact (h.cast b).1
  | receive d => exact he d rfl
  | harvest initial => exact h

theorem consistent_run {events : List (Event Op VoteDelta)}
    (h : ∀ d, .receive d ∈ events → d.Consistent) : (run events).Consistent := by
  refine List.foldlRecOn events step (motive := Consistent) ?_ fun v hv e he => ?_
  · exact ⟨by decide, fun h => (nomatch h), fun _ => by decide⟩
  · exact hv.step fun d hd => h d (hd ▸ he)

/-- As long as the proxy reports nothing, the tally follows the own vote. -/
theorem Consistent.foldl_local (h : v.Consistent) {events : List (Event Op VoteDelta)}
    (hlocal : ∀ e ∈ events, Local e) :
    (events.foldl Vote.step v).totalVoters = v.totalVoters ∧
      (events.foldl Vote.step v).votesFor.toNat + v.selfVote.toNat =
        v.votesFor.toNat + (events.foldl Vote.step v).selfVote.toNat := by
  induction events generalizing v with
  | nil => exact ⟨rfl, rfl⟩
  | cons e events ih =>
      obtain ⟨he, hevents⟩ := List.forall_mem_cons.mp hlocal
      rw [List.foldl_cons]
      cases e with
      | change op =>
          cases op with
          | cast b =>
              obtain ⟨hcons, htotal, hmoved⟩ := h.cast b
              obtain ⟨htotal', hmoved'⟩ := ih hcons hevents
              refine ⟨htotal'.trans htotal, ?_⟩
              simp only [Vote.step, Op.perform] at hmoved' ⊢
              omega
      | receive d => exact he.elim
      | harvest initial => exact ih h hevents

theorem majority_iff : v.majority = true ↔ v.totalVoters.toNat < 2 * v.votesFor.toNat := by
  simp only [majority, decide_eq_true_eq, UInt32.lt_iff_toNat_lt, UInt32.toNat_div]
  have htwo : (2 : UInt32).toNat = 2 := rfl
  rw [htwo]
  omega

theorem atLeastOne_iff : v.atLeastOne = true ↔ 0 < v.votesFor.toNat := by
  simp only [atLeastOne, decide_eq_true_eq, UInt32.lt_iff_toNat_lt, UInt32.toNat_zero]

theorem all_iff : v.all = true ↔ v.votesFor.toNat = v.totalVoters.toNat := by
  simp only [all, decide_eq_true_eq, UInt32.toNat_inj]

/-- There is always a voter, since the own vote has to be counted somewhere. -/
theorem Consistent.totalVoters_pos (h : v.Consistent) : 0 < v.totalVoters.toNat := by
  have hwithin := h.within
  cases hself : v.selfVote with
  | true => have hcounted := h.counted hself; omega
  | false => have huncounted := h.uncounted hself; omega

theorem Consistent.counts (h : v.Consistent) : v.Counts where
  consistent := h
  cast b hb := by
    obtain ⟨-, -, hmoved⟩ := h.cast b
    rcases cast_cases b v with ⟨hself, -⟩ | ⟨hself, hcast⟩
    · exact absurd hself.symm hb
    · have hb' : (v.cast b).selfVote = b := by rw [hcast]
      rw [hb', hself] at hmoved
      cases b <;> simp at hmoved ⊢ <;> omega
  returns events hlocal hself := by
    obtain ⟨htotal, hmoved⟩ := h.foldl_local hlocal
    rw [hself] at hmoved
    exact ⟨UInt32.toNat_inj.mp (Nat.add_right_cancel hmoved), htotal⟩
  majority_iff := majority_iff
  majority_of_all hall := by
    have hpos := h.totalVoters_pos
    rw [all_iff] at hall
    rw [majority_iff]
    omega
  atLeastOne_of_majority hmajority := by
    rw [majority_iff] at hmajority
    rw [atLeastOne_iff]
    omega

/-- The tallies of a vote are consistent all along a run in which the proxy reports consistent
ones. -/
theorem counts_run (events : List (Event Op VoteDelta))
    (h : ∀ d, .receive d ∈ events → d.Consistent) : (run events).Counts :=
  (consistent_run h).counts

/-- The own vote is the only one that is missing from the greatest tally. -/
theorem counts_at_greatest_tally :
    let d : VoteDelta := ⟨false, 0xFFFFFFFE, 0xFFFFFFFF⟩
    let events : List (Event Op VoteDelta) := [.receive d, .change (.cast true), .harvest false]
    (∀ d', .receive d' ∈ events → d'.Consistent) ∧ (run events).votesFor = 0xFFFFFFFF ∧
      (run events).Counts := by
  intro d events
  have hd : ∀ d', .receive d' ∈ events → d'.Consistent := by
    intro d' hd'
    have he : d' = d := by simpa [events] using hd'
    rw [he]
    exact ⟨by decide, fun h => (nomatch h), fun _ => by decide⟩
  exact ⟨hd, rfl, counts_run events hd⟩

/-! ## The vote that is handed over -/

/-- The vote that is cast next is handed over, unless nothing is. -/
def HandsOverLatest (v : Vote) : Prop :=
  ∀ b d, (Tracked.harvest false (v.cast b)).1 = some d → d.selfVote = b

/-- The event leaves a vote as the proxy had it. -/
def Upholds (b : Bool) : Event Op VoteDelta → Prop
  | .change (.cast b') => b' = b
  | .receive d => d.selfVote = b
  | .harvest _ => False

/-- While a vote was pending, the proxy reported the other one, and everything since then has agreed
with the proxy. -/
def Overturned (events : List (Event Op VoteDelta)) (b : Bool) : Prop :=
  ∃ before d after, events = before ++ .receive d :: after ∧ (run before).pending = some b ∧
    d.selfVote = (!b) ∧ ∀ e ∈ after, Upholds (!b) e

/-- A vote that changes the one that shows is staged itself, so it is the repeated one that
matters. -/
theorem handsOverLatest_iff : v.HandsOverLatest ↔ v.pending ≠ some (!v.selfVote) := by
  constructor
  · intro h hpending
    have hsame : v.cast v.selfVote = v := if_pos rfl
    have hd := h v.selfVote ⟨!v.selfVote, 0, 0⟩
      (by simp [hsame, Tracked.harvest, harvest, hpending])
    simp at hd
  · intro h b d hd
    rcases cast_cases b v with ⟨hself, hsame⟩ | ⟨-, hcast⟩
    · rw [hsame] at hd
      cases hpending : v.pending with
      | none => simp [Tracked.harvest, harvest, hpending] at hd
      | some p =>
          have hp : p = b := by
            rw [hpending, hself] at h
            simpa using h
          simp only [Tracked.harvest, harvest, hpending] at hd
          cases hd
          exact hp
    · rw [hcast] at hd
      simp only [Tracked.harvest, harvest] at hd
      cases hd
      rfl

/-- After an event, another vote than the one that shows is pending either because it was so before
and the event agrees with the one that shows, or because the proxy has just reported the other
one. -/
theorem opposed_step_iff (e : Event Op VoteDelta) (b : Bool) :
    ((v.step e).pending = some b ∧ (v.step e).selfVote = !b) ↔
      (v.pending = some b ∧ v.selfVote = !b) ∧ Upholds (!b) e ∨
        ∃ d, e = .receive d ∧ v.pending = some b ∧ d.selfVote = !b := by
  cases e with
  | change op =>
      cases op with
      | cast b' =>
          rcases cast_cases b' v with ⟨hself, hsame⟩ | ⟨hself, hcast⟩
          · simp only [step, Op.perform, hsame, Upholds]
            grind
          · simp only [step, Op.perform, hcast, Upholds]
            grind
  | receive d =>
      simp only [step, Tracked.merge, merge, Outcome.done, Upholds]
      grind
  | harvest initial => simp [step, Tracked.harvest, harvest, Upholds]

theorem overturned_snoc_iff (events : List (Event Op VoteDelta)) (e : Event Op VoteDelta)
    (b : Bool) :
    Overturned (events ++ [e]) b ↔
      Overturned events b ∧ Upholds (!b) e ∨
        ∃ d, e = .receive d ∧ (run events).pending = some b ∧ d.selfVote = !b := by
  constructor
  · rintro ⟨before, d, after, hsplit, hpending, hd, hafter⟩
    rcases List.eq_nil_or_concat after with rfl | ⟨after, e', rfl⟩
    · obtain ⟨rfl, he⟩ := List.append_inj' hsplit rfl
      exact Or.inr ⟨d, List.singleton_inj.mp he, hpending, hd⟩
    · have hsplit' : events ++ [e] = (before ++ .receive d :: after) ++ [e'] := by
        simpa using hsplit
      obtain ⟨hevents, he⟩ := List.append_inj' hsplit' rfl
      obtain rfl := List.singleton_inj.mp he
      rw [List.concat_eq_append] at hafter
      obtain ⟨hafter, he⟩ := List.forall_mem_append.mp hafter
      exact Or.inl ⟨⟨before, d, after, hevents, hpending, hd, hafter⟩,
        he e (List.mem_singleton_self e)⟩
  · rintro (⟨⟨before, d, after, rfl, hpending, hd, hafter⟩, he⟩ | ⟨d, rfl, hpending, hd⟩)
    · refine ⟨before, d, after ++ [e], by simp, hpending, hd, ?_⟩
      exact List.forall_mem_append.mpr ⟨hafter, List.forall_mem_singleton.mpr he⟩
    · exact ⟨events, d, [], rfl, hpending, hd, fun _ hx => nomatch hx⟩

/-- Another vote than the one that shows is pending exactly if it has been overturned. -/
theorem opposed_run_iff (events : List (Event Op VoteDelta)) (b : Bool) :
    ((run events).pending = some b ∧ (run events).selfVote = !b) ↔ Overturned events b := by
  induction events using List.reverseRecOn with
  | nil =>
      constructor
      · rintro ⟨hpending, -⟩
        cases hpending
      · rintro ⟨before, d, after, hsplit, -⟩
        simp at hsplit
  | append_singleton events e ih => rw [run_snoc, opposed_step_iff, overturned_snoc_iff, ih]

/-- In each state that a vote can come to, the vote that is cast next is the one that is handed over
unless a pending vote has been overturned. -/
theorem handsOverLatest_run_iff (events : List (Event Op VoteDelta)) :
    (run events).HandsOverLatest ↔ ∀ b, ¬Overturned events b := by
  simp only [← opposed_run_iff, handsOverLatest_iff]
  constructor
  · rintro h b ⟨hpending, hself⟩
    rw [hpending, hself, Bool.not_not] at h
    exact h rfl
  · intro h hpending
    exact h _ ⟨hpending, (Bool.not_not _).symm⟩

/-- A vote is cast and overturned by the proxy.  It is withdrawn as well, but handed over all the
same. -/
theorem hands_over_withdrawn_vote :
    let v := run [.change (.cast true), .receive ⟨false, 0, 1⟩]
    (Tracked.harvest false (v.cast false)).1 = some ⟨true, 0, 0⟩ ∧ ¬v.HandsOverLatest := by
  intro v
  have hd : (Tracked.harvest false (v.cast false)).1 = some ⟨true, 0, 0⟩ := rfl
  exact ⟨hd, fun h => nomatch h false _ hd⟩

end Vote

end DeltaReplica
