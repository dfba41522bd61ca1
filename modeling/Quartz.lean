import Quartz.Proofs.AcknowledgedWrites
import Quartz.Proofs.AllocatorCounts
import Quartz.Proofs.ByteOrders
import Quartz.Proofs.CheckpointRoundTrip
import Quartz.Proofs.ConsistencyChecks
import Quartz.Proofs.CrashRecovery
import Quartz.Proofs.DuplicateReplay
import Quartz.Proofs.FlushRetries
import Quartz.Proofs.FreeLists
import Quartz.Proofs.FreeSets
import Quartz.Proofs.FreeSpaceRuns
import Quartz.Proofs.Keys
import Quartz.Proofs.LeafRotations
import Quartz.Proofs.LogCodecs
import Quartz.Proofs.LogSeeking
import Quartz.Proofs.LogSessions
import Quartz.Proofs.MapRefinement
import Quartz.Proofs.ObjectIds
import Quartz.Proofs.PageFiles
import Quartz.Proofs.Plans
import Quartz.Proofs.ReaderBounds
import Quartz.Proofs.RestoredPages
import Quartz.Proofs.RetriedOpens
import Quartz.Proofs.SnapshotWalks
import Quartz.Proofs.SpaceStatistics
import Quartz.Proofs.SplitPropagation
import Quartz.Proofs.StreamRuns
