import DeltaReplica.Replicated

/-!
# Votes

A vote for or against, with the tallies of all votes.  The tallies are kept by the
proxy; a local vote only adjusts them until the proxy reports the next ones.
-/

namespace DeltaReplica

/-- A vote, the tallies, and the vote that has still to be handed over. -/
structure Vote where
  /-- The vote of this replica. -/
  selfVote : Bool := false
  /-- How many votes are in favour. -/
  votesFor : UInt32 := 0
  /-- How many have a vote. -/
  totalVoters : UInt32 := 1
  /-- The vote cast here since the last harvest. -/
  pending : Option Bool := none
deriving DecidableEq, Inhabited

namespace Vote

/-- One vote more, up to the greatest tally. -/
def raise (n : UInt32) : UInt32 := if n.toNat + 1 < UInt32.size then n + 1 else n

/-- One vote less, down to zero. -/
def lower (n : UInt32) : UInt32 := if n = 0 then n else n - 1

/-- The state after a vote; repeating the current vote is no change. -/
def cast (vote : Bool) (v : Vote) : Vote :=
  if v.selfVote = vote then v
  else
    { v with
      selfVote := vote
      votesFor := if vote then raise v.votesFor else lower v.votesFor
      pending := some vote }

/-- Whether there is a vote in favour. -/
def atLeastOne (v : Vote) : Bool := 0 < v.votesFor

/-- Whether more than half of the votes are in favour. -/
def majority (v : Vote) : Bool := v.totalVoters / 2 < v.votesFor

/-- Whether all votes are in favour. -/
def all (v : Vote) : Bool := v.votesFor = v.totalVoters

/-- Only the vote is handed over; the tallies are for the proxy to compute. -/
def harvest (initial : Bool) (v : Vote) : Option VoteDelta × Vote :=
  let vote := if initial then some v.selfVote else v.pending
  (vote.map fun b => ⟨b, 0, 0⟩, { v with pending := none })

/-- The state with the vote and the tallies that the proxy reports. -/
def merge (d : VoteDelta) (v : Vote) : Vote :=
  { v with selfVote := d.selfVote, votesFor := d.votesFor, totalVoters := d.totalVoters }

end Vote

instance : DeltaForm VoteDelta where
  kind := .vote
  wrap := .vote
  unwrap?
    | .vote d => some d
    | _ => none
  unwrap?_eq_some_iff {d e} := by cases d <;> simp
  kind_wrap _ := rfl

instance : Tracked Vote VoteDelta where
  harvest := Vote.harvest
  merge d v := .done (v.merge d)
  create _ := .ok {}

end DeltaReplica
