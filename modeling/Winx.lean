import Winx.Boot.KernelInit
import Winx.Device.Cmos
import Winx.Device.Console
import Winx.Device.DiskTables
import Winx.Device.Ide
import Winx.Device.IdeInterrupts
import Winx.Device.Keyboard
import Winx.Device.LostWakeup
import Winx.Fs.FormatLayout
import Winx.Fs.Getcwd
import Winx.Fs.HandleRuns
import Winx.Fs.OffsetRuns
import Winx.Fs.PathFaults
import Winx.Fs.PathSplit
import Winx.Fs.Read
import Winx.Fs.Resolve
import Winx.Fs.SharedSlots
import Winx.Impl.Math
import Winx.Impl.Stdio
import Winx.Kernel.BitmapScan
import Winx.Kernel.List
import Winx.Memory.LifeCycle
import Winx.Memory.Malloc
import Winx.Shell.Editor
import Winx.Shell.MyShell
import Winx.Shell.PipeCounts
import Winx.Shell.PipeTransfer
import Winx.Shell.WashPath
import Winx.Thread.MutualExclusion
import Winx.Userprog.ElfLoad
import Winx.Userprog.Reaping
import Winx.Userprog.SegmentLoad
import Winx.Userprog.TimeSlices
import Winx.Userprog.UserEntry
