import SnowOs.Linked
import SnowOs.PhysicalMemory
import SnowOs.FrameInv
import SnowOs.BootMap
import SnowOs.PageRuns
import SnowOs.Radix
import SnowOs.Entry
import SnowOs.Paging
import SnowOs.MapPage
import SnowOs.PageMap
import SnowOs.Kfree
import SnowOs.Forest
import SnowOs.Cow
import SnowOs.Bytes
import SnowOs.AddressSpace
import SnowOs.CowIsolation
import SnowOs.Account
import SnowOs.ForkRuns
import SnowOs.Work
import SnowOs.Ledger
import SnowOs.Exhaustion
import SnowOs.Ownership
import SnowOs.HeapData
import SnowOs.Ring
import SnowOs.Process
import SnowOs.WaitAll
import SnowOs.RunQueue
import SnowOs.ProcessRing
import SnowOs.Wait
import SnowOs.Lifecycle
import SnowOs.CString
import SnowOs.Terminal
import SnowOs.Polling
import SnowOs.Tarfs
import SnowOs.FileReads
import SnowOs.ByteMemory
import SnowOs.Descriptors
import SnowOs.DescriptorTable
import SnowOs.ZeroedFrames
import SnowOs.DirectMap
import SnowOs.KernelBlocks
import SnowOs.Reaping
import SnowOs.World
import SnowOs.Boot
import SnowOs.DirectHeap
import SnowOs.KernelHalf
import SnowOs.ProcessRounds
import SnowOs.FreeInput
import SnowOs.Cells
import SnowOs.Console
import SnowOs.Itoa
import SnowOs.StatusLine
import SnowOs.Printf
import SnowOs.OctalSize
import SnowOs.TarWalk
import SnowOs.KeyBuffer
import SnowOs.Sbush
import SnowOs.SbushParse
import SnowOs.Tokens
import SnowOs.History
import SnowOs.Background
import SnowOs.Script
import SnowOs.DirStreams
import SnowOs.Folder
import SnowOs.TarHeader
import SnowOs.WorkingDir
import SnowOs.Keyboard
import SnowOs.Kill
import SnowOs.CowClone
import SnowOs.CowFaults
import SnowOs.UserPages
import SnowOs.VmaList
import SnowOs.ElfLoad
import SnowOs.StackGrowth
import SnowOs.UserMalloc
import SnowOs.ForkMap
import SnowOs.KernelHeap
import SnowOs.Overtaking
import SnowOs.ExecArgs
import SnowOs.LastFrames
import SnowOs.CommandLine
import SnowOs.Spacing
import SnowOs.PathLookup
import SnowOs.SwitchRuns
import SnowOs.UserEntry
import SnowOs.Hardware
import SnowOs.Sleep
import SnowOs.Streams
import SnowOs.Programs
import SnowOs.Listing
