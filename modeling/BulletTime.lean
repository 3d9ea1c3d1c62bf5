import BulletTime.Lib.Transition
import BulletTime.Lib.FairRun
import BulletTime.Lib.Pipe
import BulletTime.Lib.PosFile
import BulletTime.Lib.Word
import BulletTime.Lib.RunningMax
import BulletTime.Lib.Window
import BulletTime.Common
import BulletTime.Pintool.AppThread
import BulletTime.Consumer.Output
import BulletTime.Consumer.CompressedFile
import BulletTime.Handoff.Model
import BulletTime.Handoff.Protocol
import BulletTime.Handoff.History
import BulletTime.Handoff.Ownership
import BulletTime.Handoff.Commits
import BulletTime.Handoff.Shutdown
import BulletTime.Handoff.Feed
import BulletTime.Balance.Shared
import BulletTime.Balance.Atomic
import BulletTime.Kernel.SleepDilation
import BulletTime.Balance.Delay
import BulletTime.Balance.KernelFactor
import BulletTime.Balance.FunctionCalls
import BulletTime.Balance.Cover
import BulletTime.Consumer.Rename
import BulletTime.Lib.Decimal
import BulletTime.Lib.LastOf
import BulletTime.Lib.Directory
import BulletTime.Setup.Names
import BulletTime.Setup.Receiver
import BulletTime.Setup.SharedFile
import BulletTime.Lib.Interleave
import BulletTime.Setup.Connect
import BulletTime.Setup.Discovery
import BulletTime.Consumer.Traces
import BulletTime.Balance.Indices
import BulletTime.Balance.Owner
import BulletTime.Balance.Locks
import BulletTime.Pintool.Calls
import BulletTime.Balance.Sleep
import BulletTime.Consumer.Blocks
import BulletTime.Lib.Ring
import BulletTime.Consumer.RawFile
import BulletTime.Lib.Records
import BulletTime.Consumer.TraceFormat
import BulletTime.Balance.Doubles
import BulletTime.Handoff.Tokens
import BulletTime.Balance.Totals
import BulletTime.Balance.Finiteness
import BulletTime.Balance.Rationals
import BulletTime.Balance.Windows
import BulletTime.Consumer.CpuMonitor
import BulletTime.Consumer.ScaledCounts
import BulletTime.Pintool.BufferList
import BulletTime.Pintool.BufferExit
import BulletTime.Pintool.ThreadBuffers
import BulletTime.Pintool.CheckSkip
import BulletTime.Handoff.BufferSize
import BulletTime.Lib.PosixPath
import BulletTime.Setup.Session
import BulletTime.Kernel.TargetPid
import BulletTime.Lib.Checked
import BulletTime.Kernel.SplitProduct
import BulletTime.Lib.Tally
import BulletTime.Pintool.Statistics
import BulletTime.Pintool.FillCalls
import BulletTime.Pintool.Ratios
import BulletTime.Lib.Accounts
import BulletTime.Pintool.InsCounts
import BulletTime.Pintool.Figures
import BulletTime.Handoff.Progress
import BulletTime.Handoff.Written
import BulletTime.Pipeline.Model
import BulletTime.Pipeline.Complete
import BulletTime.Pipeline.Dilation
import BulletTime.Balance.Pace
import BulletTime.Pintool.FreqTable
import BulletTime.Balance.KeyThreads
import BulletTime.Lib.Handles
import BulletTime.Setup.Resources
import BulletTime.Consumer.Sizes
import BulletTime.Kernel.Module
import BulletTime.Launch.CollectTrace
