import SamaraOS.Net.Mss
import SamaraOS.Net.AcceptQueue
import SamaraOS.Net.Receive
import SamaraOS.Net.Send
import SamaraOS.Proc.Seccomp
import SamaraOS.Proc.Deadlock
import SamaraOS.Proc.FastPath
import SamaraOS.Proc.PipeStream
import SamaraOS.Proc.RightsHeld
import SamaraOS.Proc.CloseLocks
import SamaraOS.Proc.ExecveFails
import SamaraOS.Proc.MemfdSeals
import SamaraOS.Proc.SignalFrame
import SamaraOS.Proc.SignalsKept
import SamaraOS.Proc.ZombiesReaped
import SamaraOS.Proc.FutexWakes
import SamaraOS.Proc.NsRefs
import SamaraOS.Proc.KillEffective
import SamaraOS.Proc.UringCq
import SamaraOS.Proc.UringOnce
import SamaraOS.Core.PageCacheClean
import SamaraOS.Core.WaitQueueRuns
import SamaraOS.Fs.Links
import SamaraOS.Fs.Namespace
import SamaraOS.Fs.Ext2Owners
import SamaraOS.Fs.Part
import SamaraOS.Proc.Elf
import SamaraOS.Proc.PtyLossless
import SamaraOS.Fs.FatData
import SamaraOS.Proc.ShmLazy
import SamaraOS.Fs.QuotaKept
import SamaraOS.Fs.Ext2Write
import SamaraOS.Core.HeapSearch
import SamaraOS.Proc.LockErrors
import SamaraOS.Core.FindFree
import SamaraOS.Core.Discard
import SamaraOS.Proc.CopyTo
import SamaraOS.Core.Swap
import SamaraOS.Drivers.Keyboard
import SamaraOS.Fs.Ext2DirData
import SamaraOS.Fs.Ext2Alloc
import SamaraOS.Proc.EpollOnce
import SamaraOS.Proc.MemfdZero
import SamaraOS.Proc.PosixTimer
import SamaraOS.Proc.TimerFd
