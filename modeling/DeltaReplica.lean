import DeltaReplica.Element.Builtin
import DeltaReplica.Element.Json
import DeltaReplica.FinMap.Order
import DeltaReplica.Outline.Data
import DeltaReplica.Proofs.Acceptance
import DeltaReplica.Proofs.Additive
import DeltaReplica.Proofs.CanonicalTexts
import DeltaReplica.Proofs.CanonicalValues
import DeltaReplica.Proofs.CountedKeys
import DeltaReplica.Proofs.DisjointWriters
import DeltaReplica.Proofs.Exchange
import DeltaReplica.Proofs.FilledKeys
import DeltaReplica.Proofs.Following
import DeltaReplica.Proofs.Forms
import DeltaReplica.Proofs.FullState
import DeltaReplica.Proofs.GrowingUnion
import DeltaReplica.Proofs.Handover
import DeltaReplica.Proofs.History
import DeltaReplica.Proofs.HollowDeltas
import DeltaReplica.Proofs.Indexing
import DeltaReplica.Proofs.Labels
import DeltaReplica.Proofs.Lag
import DeltaReplica.Proofs.Likeness
import DeltaReplica.Proofs.Locality
import DeltaReplica.Proofs.Lookup
import DeltaReplica.Proofs.LostWrites
import DeltaReplica.Proofs.Merging
import DeltaReplica.Proofs.Network
import DeltaReplica.Proofs.Operations
import DeltaReplica.Proofs.Parsing
import DeltaReplica.Proofs.Provenance
import DeltaReplica.Proofs.Quiescence
import DeltaReplica.Proofs.Reachability
import DeltaReplica.Proofs.Reordering
import DeltaReplica.Proofs.Repetition
import DeltaReplica.Proofs.Replacement
import DeltaReplica.Proofs.Retention
import DeltaReplica.Proofs.RoundTrip
import DeltaReplica.Proofs.Sameness
import DeltaReplica.Proofs.Scanning
import DeltaReplica.Proofs.Shadow
import DeltaReplica.Proofs.SingleWriter
import DeltaReplica.Proofs.Soundness
import DeltaReplica.Proofs.Staging
import DeltaReplica.Proofs.Tally
import DeltaReplica.Proofs.TextOrder
import DeltaReplica.Proofs.Truncation
import DeltaReplica.Proofs.Voting
import DeltaReplica.Proofs.WellFormed
import DeltaReplica.Proofs.WireForms
import DeltaReplica.Text.Field
import DeltaReplica.Wire.Delta
