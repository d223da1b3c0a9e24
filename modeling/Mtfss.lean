import Mtfss.Client.Client
import Mtfss.Properties.SessionSync
import Mtfss.Server.Shutdown
import Mtfss.Properties.FramingRoundTrip
import Mtfss.Properties.ShutdownWaits
import Mtfss.Server.Footprint
import Mtfss.Properties.StorageRoot
import Mtfss.Server.FileRules
import Mtfss.Properties.FailedUpload
import Mtfss.Properties.FileIdentity
import Mtfss.Effects.Safety
import Mtfss.Effects.Threads
import Mtfss.Server.LockUse
import Mtfss.Server.Requests
import Mtfss.Properties.LockBalance
import Mtfss.Properties.LockExclusion
import Mtfss.Server.TaskQueue
import Mtfss.Properties.TaskOrder
import Mtfss.Properties.StoredUpload
import Mtfss.Properties.LoginGate
import Mtfss.Properties.Release
import Mtfss.Properties.Restart
import Mtfss.Properties.ListSnapshot
import Mtfss.Properties.ExactTransfer
import Mtfss.Client.Uploading
import Mtfss.Properties.AnnouncedUpload
import Mtfss.Properties.WholeDownload
import Mtfss.Properties.TruthfulRename
import Mtfss.Properties.UploadConsumption
import Mtfss.Effects.Backing
import Mtfss.Properties.WakeUps
import Mtfss.Server.Logger
import Mtfss.Properties.LoggerShutdown
import Mtfss.Properties.LoggedOrder
import Mtfss.Properties.StopRequests
import Mtfss.Client.Cli
import Mtfss.Properties.CommandLines
import Mtfss.Effects.Unwinding
import Mtfss.Server.Regions
import Mtfss.Properties.UserIsolation
import Mtfss.Maps.Keying
import Mtfss.Properties.IndexSpelling
import Mtfss.Effects.Custody
import Mtfss.Server.FileWork
import Mtfss.Properties.FileRequests
import Mtfss.Properties.Agreement
import Mtfss.Server.Delivery
import Mtfss.Properties.FramedDownload
import Mtfss.Effects.Once
import Mtfss.Server.Waiting
import Mtfss.Server.SessionLocks
import Mtfss.Properties.LockProgress
import Mtfss.Properties.PoolProgress
import Mtfss.Properties.ServerProgress
import Mtfss.Maps.Deeds
import Mtfss.Server.Course
import Mtfss.Properties.FileOrder
import Mtfss.Properties.SerialFiles
import Mtfss.Effects.Termination
import Mtfss.Server.SessionEnds
import Mtfss.Properties.Settling
import Mtfss.Properties.ProgramEnds
import Mtfss.Properties.LoggerRest
