import VersionedTree.Archive.Directories
import VersionedTree.Command.Run
import VersionedTree.Command.Words
import VersionedTree.Main
import VersionedTree.Proofs.Archive.Acceptance
import VersionedTree.Proofs.Archive.Directories
import VersionedTree.Proofs.Archive.Expansions
import VersionedTree.Proofs.Archive.Isolation
import VersionedTree.Proofs.Archive.LifeCycle
import VersionedTree.Proofs.Archive.MissingPayloads
import VersionedTree.Proofs.Archive.Moves
import VersionedTree.Proofs.Archive.SingleRemovals
import VersionedTree.Proofs.Archive.Sweeps
import VersionedTree.Proofs.Archive.UndoneCopies
import VersionedTree.Proofs.Archive.Walks
import VersionedTree.Proofs.Tables.Commit
import VersionedTree.Proofs.Tables.CopiedHistories
import VersionedTree.Proofs.Archive.NewDirectories
import VersionedTree.Proofs.Path.Spellings
import VersionedTree.Proofs.Archive.SegmentNames
import VersionedTree.Proofs.Json
import VersionedTree.Proofs.Path.UserForm
import VersionedTree.Proofs.Path.Building
import VersionedTree.Proofs.Record
import VersionedTree.Proofs.Archive.DeleteReports
import VersionedTree.Proofs.Tables.Transfers
import VersionedTree.Proofs.Command.ShownNames
import VersionedTree.Proofs.State
import VersionedTree.Proofs.Tables.StoredOrder
