import Obsd.Getlbns
import Obsd.ExtentCount
import Obsd.TcpShift
import Obsd.TcpPredict
import Obsd.TcpFin
import Obsd.LockfDeadlock
import Obsd.BpfMbuf
import Obsd.SynCacheRuns
import Obsd.SockbufFifo
import Obsd.TimeoutRuns
import Obsd.RwlockRuns
import Obsd.PfTrack
import Obsd.PfCreateUndo
import Obsd.PfRuleEval
import Obsd.AmapRuns
import Obsd.AmapRefs
import Obsd.FfsInodeRuns
import Obsd.EspReplay
import Obsd.SemWakeup
import Obsd.UnpRightsRuns
import Obsd.MsdosConvRound
import Obsd.BlockAckRuns
import Obsd.TcpOptionsAgree
import Obsd.Frag6Runs
import Obsd.MsdosAllocRuns
import Obsd.TcpSackScore
import Obsd.FdescWords
import Obsd.TcpXmitTimer
import Obsd.PfFrag6
import Obsd.ExtentBestFit
import Obsd.PfStateExpires
import Obsd.IpReassEcn
import Obsd.PfMapAddr
import Obsd.PfFragCompare
import Obsd.PfSackSum
import Obsd.MbufCopyRuns
import Obsd.MbufSplit
import Obsd.MbufPulldown
import Obsd.MbufPullup
import Obsd.ClistQuote
import Obsd.EspHeader
import Obsd.SlcompressMemory
import Obsd.DirhashBuild
import Obsd.FfsCluster
import Obsd.Itimer
import Obsd.RadixMask
import Obsd.PfTransaddr
import Obsd.DosTime
import Obsd.PoolLayout
import Obsd.In4Cksum
import Obsd.Defrag
import Obsd.Kprintf
