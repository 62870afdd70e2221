import TrazelOs.Verify.HeapRun
import TrazelOs.Verify.VmmRun
import TrazelOs.Verify.Context
import TrazelOs.Verify.Wakeup
import TrazelOs.Verify.Places
import TrazelOs.Verify.Idle
import TrazelOs.Verify.Parents
import TrazelOs.Verify.Waits
import TrazelOs.Verify.Keyboard
import TrazelOs.Verify.OpenFiles
import TrazelOs.Verify.Cursor
import TrazelOs.Verify.Execve
import TrazelOs.Verify.Resolution
import TrazelOs.Verify.FileCursor
import TrazelOs.Verify.PageClone
import TrazelOs.Verify.Segment
import TrazelOs.Verify.LargeBlocks
import TrazelOs.Verify.NewQueue
import TrazelOs.Verify.FailedOpen
import TrazelOs.Verify.ClusterChains
import TrazelOs.Verify.Brk
import TrazelOs.Verify.BlockDevice
import TrazelOs.Verify.Layout
import TrazelOs.Verify.Madt
import TrazelOs.Verify.FileBounds
import TrazelOs.Verify.ClusterZero
import TrazelOs.Verify.Fat12Heap
import TrazelOs.Verify.MemUtils
import TrazelOs.Verify.PackedBitmap
import TrazelOs.Verify.PackedFat
import TrazelOs.Verify.ShortName
import TrazelOs.Verify.Cmos
import TrazelOs.Verify.IntegerUtils
import TrazelOs.Verify.Listing
import TrazelOs.Verify.TaskQueues
import TrazelOs.Verify.Framebuffer
import TrazelOs.Verify.Console
import TrazelOs.Verify.RoundRobin
import TrazelOs.Verify.Spaces
import TrazelOs.Verify.AtaPio
import TrazelOs.Verify.EntryCode
import TrazelOs.Verify.Interrupts
import TrazelOs.Verify.TimeOfDay
