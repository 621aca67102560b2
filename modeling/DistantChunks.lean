import DistantChunks.Main
import DistantChunks.Proofs.Collapse
import DistantChunks.Proofs.CopiedTrails
import DistantChunks.Proofs.Expiry
import DistantChunks.Proofs.FailedBuilds
import DistantChunks.Proofs.FineTiles
import DistantChunks.Proofs.Handles
import DistantChunks.Proofs.Hiding
import DistantChunks.Proofs.OptimizedParts
import DistantChunks.Proofs.OptimizedSight
import DistantChunks.Proofs.PinnedTemplates
import DistantChunks.Proofs.SynthesisDrawing
import DistantChunks.Proofs.WholeTiles
import DistantChunks.Records.WorldJson
import DistantChunks.Proofs.Rereading
import DistantChunks.Proofs.SavedWorlds
import DistantChunks.Proofs.IndexedWorlds
import DistantChunks.Proofs.StableHandles
import DistantChunks.Proofs.JoinedMeshes
import DistantChunks.Proofs.TightBoxes
import DistantChunks.Proofs.RealGeometry
import DistantChunks.Proofs.Images
import DistantChunks.Proofs.ZeroSigns
import DistantChunks.Proofs.MovedAxes
import DistantChunks.Proofs.MovedChunks
import DistantChunks.Proofs.CoincidingCells
import DistantChunks.Proofs.CountedRequests
import DistantChunks.Proofs.OverlappedCells
import DistantChunks.Proofs.Accounts
import DistantChunks.Proofs.ActiveDrawables
import DistantChunks.Proofs.GroupedReferences
import DistantChunks.Proofs.BakedPositions
import DistantChunks.Proofs.MergedRows
import DistantChunks.Proofs.SettledTrees
import DistantChunks.Proofs.ChunkLedger
import DistantChunks.Proofs.EntryHistories
import DistantChunks.Proofs.CellPieces
import DistantChunks.Proofs.FarScans
import DistantChunks.Proofs.FirstFailures
import DistantChunks.Proofs.CountedCopies
import DistantChunks.Proofs.MergeDecisions
import DistantChunks.Proofs.UploadAccounts
import DistantChunks.Proofs.EnclosingBounds
