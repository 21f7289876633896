import GroupedLedger.Main
import GroupedLedger.Script
import GroupedLedger.Proofs.Completeness
import GroupedLedger.Proofs.Conservation
import GroupedLedger.Proofs.Halting
import GroupedLedger.Proofs.Isolation
import GroupedLedger.Proofs.ResourceBlocks
import GroupedLedger.Proofs.Runners
import GroupedLedger.Proofs.Serializability
import GroupedLedger.Proofs.Cancellations
import GroupedLedger.Proofs.Verdicts
import GroupedLedger.Proofs.Receipts
import GroupedLedger.Proofs.Persistence
import GroupedLedger.Proofs.Locality
import GroupedLedger.Proofs.Reorderings
import GroupedLedger.Proofs.Streams
import GroupedLedger.Proofs.Slots
import GroupedLedger.Proofs.Components
import GroupedLedger.Proofs.SenderGroups
import GroupedLedger.Proofs.Declarations
import GroupedLedger.Proofs.Validation
import GroupedLedger.Proofs.Merging
import GroupedLedger.Proofs.Solvency
import GroupedLedger.Proofs.Returns
import GroupedLedger.Proofs.Interruptions
import GroupedLedger.Proofs.Spellings
import GroupedLedger.Proofs.Identities
import GroupedLedger.Proofs.Edits
import GroupedLedger.Proofs.Queues
import GroupedLedger.Proofs.Ranks
import GroupedLedger.Proofs.Generation
import GroupedLedger.Proofs.Tallies
import GroupedLedger.Proofs.Namespaces
