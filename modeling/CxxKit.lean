import CxxKit.Containers.ControlReads
import CxxKit.Containers.MapRefinement
import CxxKit.Containers.Resizing
import CxxKit.Kernel.Combiners
import CxxKit.Kernel.ConnectOnce
import CxxKit.Kernel.ConnectQueued
import CxxKit.Kernel.Dangling
import CxxKit.Kernel.Destruction
import CxxKit.Kernel.EventRuns
import CxxKit.Kernel.ExecExit
import CxxKit.Kernel.FilterChains
import CxxKit.Kernel.ParentRuns
import CxxKit.Kernel.PlaceRuns
import CxxKit.Kernel.TimerRuns
import CxxKit.Media.BufferPool
import CxxKit.Media.SlideShow
import CxxKit.Network.AsioWrites
import CxxKit.Network.HttpHeaders
import CxxKit.Network.TcpHandles
import CxxKit.Network.TcpRetry
import CxxKit.Network.TcpWrites
import CxxKit.Network.TlsEntry
import CxxKit.Network.TlsWrites
import CxxKit.Network.UdpSends
import CxxKit.Numerics.DivideRound
import CxxKit.Numerics.RunningStatistics
import CxxKit.Numerics.SafeConversions
import CxxKit.Numerics.SafeMinmax
import CxxKit.Numerics.SequenceNumberUtil
import CxxKit.Text.AsciiConversions
import CxxKit.Text.Base64White
import CxxKit.Text.BitLanguages
import CxxKit.Text.Crc32
import CxxKit.Text.Tokenize
import CxxKit.Thread.Barrier
import CxxKit.Thread.QueuedTasks
import CxxKit.Thread.RepeatingTask
import CxxKit.Thread.TaskQueueThread
import CxxKit.Thread.WaitForDone
import CxxKit.Time.LocalTime
import CxxKit.Tools.ErrorDomains
import CxxKit.Tools.IdRegistry
import CxxKit.Tools.Random
import CxxKit.Tools.SharedRuns
import CxxKit.Units.Rounding
