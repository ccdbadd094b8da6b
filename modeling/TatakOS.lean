import TatakOS.Proc.ExitWait
import TatakOS.Proc.SleepLock
import TatakOS.Log.Reserve
import TatakOS.Log.Crash
import TatakOS.Proc.Loops
import TatakOS.Log.Coherence
import TatakOS.Fs.Balance
import TatakOS.Fs.ReadBack
import TatakOS.Fs.InodeTable
import TatakOS.Fs.Trunc
import TatakOS.Virtio.Protocol
import TatakOS.Proc.Pids
import TatakOS.Sched.OneCpu
import TatakOS.Fs.Paths
import TatakOS.Mem.Arguments
import TatakOS.Mem.Contents
import TatakOS.Mem.Files
import TatakOS.Mem.SysExec
import TatakOS.Mem.PageMap
import TatakOS.Shell.Run
import TatakOS.Log.Pointers
import TatakOS.Console.Editor
import TatakOS.User.Sbrk
import TatakOS.Sched.Nesting
import TatakOS.User.Printf
import TatakOS.User.Grep
import TatakOS.Console.Uart
