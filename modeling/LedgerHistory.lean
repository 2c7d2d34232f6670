import LedgerHistory.Main
import LedgerHistory.Store.Interleaving
import LedgerHistory.Proofs.Script.Runs
import LedgerHistory.Proofs.Script.Strict
import LedgerHistory.Proofs.Dictionary
import LedgerHistory.Proofs.Store.Sequences
import LedgerHistory.Proofs.Json.RoundTrip
import LedgerHistory.Proofs.Store.Copy
import LedgerHistory.Proofs.Script.Calm
import LedgerHistory.Proofs.Store.Writes
import LedgerHistory.Proofs.Invocation.Grouping
import LedgerHistory.Proofs.Store.Directory
import LedgerHistory.Proofs.Domain.Meaning
import LedgerHistory.Proofs.Recording.Routing
import LedgerHistory.Proofs.Store.Latest
import LedgerHistory.Proofs.Invocation.Allocator
import LedgerHistory.Proofs.Aggregate.Steps
import LedgerHistory.Proofs.Domain.Tables
import LedgerHistory.Proofs.Recording.Stages
import LedgerHistory.Proofs.Recording.Preparation
import LedgerHistory.Proofs.Domain.Rows
import LedgerHistory.Proofs.Recording.Provenance
import LedgerHistory.Proofs.Recording.Outcome
import LedgerHistory.Proofs.Recording.AllOrNothing
import LedgerHistory.Proofs.Aggregate.Chronicle
import LedgerHistory.Proofs.Aggregate.Simulation
import LedgerHistory.Proofs.Aggregate.Consistent
import LedgerHistory.Proofs.Aggregate.Prior
import LedgerHistory.Proofs.Recording.Making
import LedgerHistory.Proofs.Recording.Domains
import LedgerHistory.Proofs.Recording.Storable
import LedgerHistory.Proofs.Aggregate.Grouped
import LedgerHistory.Proofs.Recording.Sound
import LedgerHistory.Proofs.Recording.Completion
import LedgerHistory.Proofs.Recording.Growth
import LedgerHistory.Proofs.Recording.History
import LedgerHistory.Proofs.Recording.Reaches
import LedgerHistory.Proofs.Recording.AsOf
import LedgerHistory.Proofs.Recording.OwnerRoles
import LedgerHistory.Proofs.Store.Offering
import LedgerHistory.Proofs.Recording.Refusals
import LedgerHistory.Proofs.Recording.Fitting
import LedgerHistory.Proofs.Recording.Acceptance
import LedgerHistory.Proofs.Recording.Replay
import LedgerHistory.Proofs.Interleaved.Tidy
import LedgerHistory.Proofs.Interleaved.Safe
import LedgerHistory.Proofs.Interleaved.Making
import LedgerHistory.Proofs.Interleaved.Stages
import LedgerHistory.Proofs.Interleaved.Identifiers
import LedgerHistory.Proofs.Aggregate.Renaming
import LedgerHistory.Proofs.Recording.Renaming
import LedgerHistory.Proofs.Recording.Batching
import LedgerHistory.Proofs.Ledger.Input
import LedgerHistory.Proofs.Recording.Stored
import LedgerHistory.Proofs.Aggregate.Alike
import LedgerHistory.Proofs.Aggregate.Moves
import LedgerHistory.Proofs.Aggregate.Coupling
import LedgerHistory.Proofs.Aggregate.Composition
import LedgerHistory.Proofs.Aggregate.Known
import LedgerHistory.Proofs.Aggregate.ClosedForm
import LedgerHistory.Proofs.Aggregate.MoveToFront
import LedgerHistory.Proofs.Aggregate.Apart
import LedgerHistory.Proofs.Aggregate.Interleaving
import LedgerHistory.Proofs.Recording.Alike
import LedgerHistory.Proofs.Recording.Mirroring
import LedgerHistory.Proofs.Recording.Failures
import LedgerHistory.Proofs.Recording.Isolation
import LedgerHistory.Proofs.Recording.Arrangement
import LedgerHistory.Proofs.Recording.Conservation
import LedgerHistory.Proofs.Recording.PointInTime
import LedgerHistory.Proofs.Recording.Touched
import LedgerHistory.Proofs.Transactions.Steps
import LedgerHistory.Proofs.Transactions.Sequences
import LedgerHistory.Proofs.Transactions.Settings
import LedgerHistory.Proofs.Transactions.Isolation
import LedgerHistory.Proofs.Transactions.Durability
import LedgerHistory.Proofs.Store.Answers
import LedgerHistory.Proofs.Store.Bounds
import LedgerHistory.Proofs.Store.Delimiting
import LedgerHistory.Proofs.Transactions.Loading
import LedgerHistory.Proofs.Domain.Entries
import LedgerHistory.Proofs.Invocation.Inquiries
import LedgerHistory.Proofs.Transactions.Keys
import LedgerHistory.Proofs.Json.Decoding
import LedgerHistory.Proofs.Ledger.RoundTrip
import LedgerHistory.Proofs.Aggregate.Layouts
import LedgerHistory.Proofs.Invocation.Multimap
