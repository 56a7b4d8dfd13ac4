import FirstFit.Run
import FirstFit.Text.Numbers
import FirstFit.Record
import FirstFit.Summary
import FirstFit.Word
import FirstFit.Word.Fields
import FirstFit.Link
import FirstFit.Fault
import FirstFit.Table.Basic
import FirstFit.Table.Links
import FirstFit.Table.Tags
import FirstFit.Table.FreeList
import FirstFit.Table.Runs
import FirstFit.Allocator.Basic
import FirstFit.Ledger
import FirstFit.Allocator.Calls
import FirstFit.Table.Tiling
import FirstFit.Allocator.History
import FirstFit.Arena
import FirstFit.Table.Agreement
import FirstFit.Proofs.Circle
import FirstFit.Proofs.Partition
import FirstFit.Proofs.Writes
import FirstFit.Proofs.Marks
import FirstFit.Proofs.Surgery
import FirstFit.Proofs.Sound
import FirstFit.Proofs.Walks
import FirstFit.Proofs.Shows
import FirstFit.Proofs.Answers
import FirstFit.Proofs.Merging
import FirstFit.Proofs.Splitting
import FirstFit.Proofs.Simulation
import FirstFit.Proofs.Histories
import FirstFit.Proofs.Invariant
import FirstFit.Proofs.Coverage
import FirstFit.Proofs.Refinement
import FirstFit.Proofs.Refusals
import FirstFit.Proofs.Vacancy
import FirstFit.Proofs.Exhaustion
import FirstFit.Proofs.Sessions
import FirstFit.Proofs.Independence
import FirstFit.Proofs.Draining
import FirstFit.Proofs.Effects
import FirstFit.Proofs.Rebuilding
import FirstFit.Proofs.RoundTrips
import FirstFit.Proofs.Blocks
import FirstFit.Proofs.Enumeration
import FirstFit.Proofs.Frames
import FirstFit.Proofs.Taking
import FirstFit.Proofs.Composition
import FirstFit.Proofs.Footprints
import FirstFit.Proofs.Traversal
import FirstFit.Proofs.Texts
import FirstFit.Proofs.Logs
import FirstFit.Proofs.Relinking
import FirstFit.Proofs.BoundaryTags
import FirstFit.Proofs.Lenses
import FirstFit.Proofs.Boundaries
import FirstFit.Proofs.Preconditions
