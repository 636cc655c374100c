import CoreX.Pmm.Bounds
import CoreX.Avl.Runs
import CoreX.Dev.Event
import CoreX.Vfs.Stat
import CoreX.Vfs.At
import CoreX.Ext2.Lba
import CoreX.Ext2.Shared
import CoreX.Ext2.CacheOverlap
import CoreX.Ext2.Symlink
import CoreX.Ext2.DirRemove
import CoreX.Ext2.Walks
import CoreX.Ext2.InodeTable
import CoreX.Ext2.Race
import CoreX.Pipe.Fifo
import CoreX.Pipe.Handles
import CoreX.Sched.Killed
import CoreX.Futex.LostWakeup
import CoreX.Fat32.Cached
import CoreX.Fat32.Behind
import CoreX.Fat32.Seek
import CoreX.Fat32.Corrupted
import CoreX.Signals.Context
import CoreX.Net.Send
import CoreX.Net.Checksum
import CoreX.Net.Ports
import CoreX.Net.Udp
import CoreX.Mem.Translation
import CoreX.Elf.Leak
import CoreX.Graphical.Fb
import CoreX.Graphical.Escapes
import CoreX.Drivers.Pci
import CoreX.Drivers.Rtl8139
import CoreX.Md5.Digest
import CoreX.Fakefs.Lookup
import CoreX.Utilities.Dents
import CoreX.Utilities.SpinlockCnt
import CoreX.Elf.StackAlign
import CoreX.Net.ArpQueue
import CoreX.Syscalls.Scans
import CoreX.Syscalls.Eventfd
import CoreX.Syscalls.Vectors
import CoreX.Dev.Pty
import CoreX.Futex.Sweep
import CoreX.Mem.Frames
import CoreX.Net.UdpLocks
import CoreX.Sched.TaskInfo
import CoreX.Net.Slip
import CoreX.Drivers.Disk
import CoreX.Cpu.Rtc
import CoreX.Ext2.Sizes
import CoreX.Fat32.LongName
import CoreX.Circular.Alone
import CoreX.Bitmap.Regions
import CoreX.Utilities.Strtol
import CoreX.Drivers.Mouse
