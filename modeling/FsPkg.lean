import FsPkg.Machine.Run
import FsPkg.ToMathlib.DisjointIntervals
import FsPkg.Proofs.BallocMemoryRuns
import FsPkg.Proofs.BallocBlocks
import FsPkg.Proofs.PkgCacheOwnership
import FsPkg.Proofs.PkgImportLeaks
import FsPkg.Proofs.DbSqlitePaths
import FsPkg.Proofs.PkgImportTransactions
import FsPkg.Proofs.PkgImportFollows
import FsPkg.Proofs.VfsInotifyEvents
import FsPkg.Proofs.VfsWalkOrders
import FsPkg.Proofs.VfsInotifyEnds
import FsPkg.Proofs.VfsPackageTest
import FsPkg.Proofs.VfsWalkBounds
import FsPkg.Proofs.VfsWatchRuns
import FsPkg.Proofs.VfsFuseRuns
import FsPkg.Proofs.VfsFuseGetattr
import FsPkg.Proofs.DbQueryDecode
import FsPkg.Proofs.DbQueryRows
import FsPkg.Proofs.DbFileAdd
import FsPkg.Proofs.PkgMapSpec
import FsPkg.Proofs.TimestrFormat
import FsPkg.Proofs.ConfBlocks
import FsPkg.Proofs.DictionaryFailure
import FsPkg.Proofs.PkgTocXmlLayout
import FsPkg.Proofs.DlinkMemoryRuns
import FsPkg.Proofs.EvRuns
import FsPkg.Proofs.XarTocRows
import FsPkg.Proofs.XarB64Decode
import FsPkg.Proofs.FuseServe
import FsPkg.Proofs.FuseRest
