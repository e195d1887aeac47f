import ComputeSideLog.Lib.Trace
import ComputeSideLog.Lib.Bytes
import ComputeSideLog.Lib.Least
import ComputeSideLog.Client
import ComputeSideLog.Server
import ComputeSideLog.Posts
import ComputeSideLog.Recover
import ComputeSideLog.Image
import ComputeSideLog.Restart
import ComputeSideLog.Epochs
import ComputeSideLog.Quorum
import ComputeSideLog.Lib.Dma
import ComputeSideLog.System
import ComputeSideLog.Delivery
import ComputeSideLog.Agreement
import ComputeSideLog.Acknowledge
import ComputeSideLog.Fixed
import ComputeSideLog.Trailer
import ComputeSideLog.Replace
import ComputeSideLog.Durable
import ComputeSideLog.Ops
import ComputeSideLog.Truncate
import ComputeSideLog.Recycle
import ComputeSideLog.Stranded
import ComputeSideLog.Watcher
import ComputeSideLog.Suspend
import ComputeSideLog.Membership
import ComputeSideLog.IpString
import ComputeSideLog.Record
import ComputeSideLog.Lib.Assoc
import ComputeSideLog.ClientPool
import ComputeSideLog.Interpose
import ComputeSideLog.Isolation
import ComputeSideLog.Transparent
import ComputeSideLog.MrPool
import ComputeSideLog.Serve
import ComputeSideLog.Reuse
import ComputeSideLog.Lib.PosixFile
import ComputeSideLog.PosixLog
import ComputeSideLog.Bounds
import ComputeSideLog.PastEnd
import ComputeSideLog.Kept
import ComputeSideLog.TrailerPlace
import ComputeSideLog.Refit
import ComputeSideLog.Ownership
import ComputeSideLog.Replies
import ComputeSideLog.QpPool
import ComputeSideLog.GetLine
import ComputeSideLog.Reported
import ComputeSideLog.IpParse
import ComputeSideLog.MrRuns
import ComputeSideLog.ClientRuns
import ComputeSideLog.Opening
import ComputeSideLog.Stdio
import ComputeSideLog.Lengths
import ComputeSideLog.Lib.Tiles
import ComputeSideLog.Concurrent
import ComputeSideLog.Connections
import ComputeSideLog.FailedAddition
import ComputeSideLog.Survive
import ComputeSideLog.FileName
import ComputeSideLog.IoStat
import ComputeSideLog.MainLoop
import ComputeSideLog.Sessions
import ComputeSideLog.Lib.Product
import ComputeSideLog.Private
import ComputeSideLog.Wire
import ComputeSideLog.Files
import ComputeSideLog.Sync
import ComputeSideLog.Disk
import ComputeSideLog.Lib.Program
import ComputeSideLog.PosixClient
import ComputeSideLog.Lossy
import ComputeSideLog.Lib.Peak
import ComputeSideLog.Capacity
import ComputeSideLog.Detection
import ComputeSideLog.Threads
import ComputeSideLog.Linear
