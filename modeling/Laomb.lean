import Laomb.Base.BitMemory
import Laomb.Base.Transition
import Laomb.Base.FirstFit
import Laomb.Base.Word
import Laomb.Base.Intervals
import Laomb.PMM.Ownership
import Laomb.PMM.Boot
import Laomb.PMM.Handout
import Laomb.PMM.BootBounds
import Laomb.Liballoc.PageSource
import Laomb.Base.Chain
import Laomb.VFS.Mount
import Laomb.VFS.Forest
import Laomb.VFS.Siblings
import Laomb.VFS.Removal
import Laomb.Base.Fields
import Laomb.VFS.Walk
import Laomb.VFS.Calls
import Laomb.VFS.Runs
import Laomb.VFS.CreateOpen
import Laomb.VFS.MountTable
import Laomb.VFS.Names
import Laomb.VFS.PathMap
import Laomb.VFS.Overlay
import Laomb.VFS.RamFile
import Laomb.Fshell.Commands
import Laomb.VFS.Tidy
import Laomb.Fshell.UniqueNames
import Laomb.VFS.FileContent
import Laomb.Fshell.Redirection
import Laomb.Fshell.Readers
import Laomb.RBTree.Runs
import Laomb.RBTree.Erase
import Laomb.Proc.Isolation
import Laomb.FS.Sessions
import Laomb.Fshell.Keyboard
import Laomb.VFS.StaleBytes
import Laomb.VFS.Release
import Laomb.Pci.Search
import Laomb.Fshell.PathBuffers
import Laomb.VMM.MapFrame
import Laomb.FS.OpenBalance
import Laomb.FS.Search
import Laomb.PMM.ExactFit
import Laomb.PMM.Reclaim
import Laomb.FS.PartitionBounds
import Laomb.Fshell.FixedPoint
import Laomb.FS.History
import Laomb.FS.CacheCoherence
import Laomb.FS.PathNames
import Laomb.FS.ShortNames
import Laomb.Fshell.LineReader
import Laomb.Fshell.Console
import Laomb.Fshell.Scroll
import Laomb.Fshell.Editor
import Laomb.Libc.Copy
import Laomb.Libc.Numbers
import Laomb.Libc.Convert
import Laomb.Libc.Move
import Laomb.Libc.Tokens
import Laomb.Base.Sampling
import Laomb.Io.Rtc
import Laomb.Liballoc.Heap
import Laomb.Proc.AddressSpaces
import Laomb.Liballoc.Sections
import Laomb.VFS.TokenWalk
import Laomb.Fshell.TokenPointers
import Laomb.Fshell.Trim
import Laomb.Base.DoublyLinked
import Laomb.Base.Tiling
import Laomb.Liballoc.Blocks
import Laomb.Liballoc.Fit
import Laomb.Liballoc.HeapRuns
import Laomb.RBTree.Contents
import Laomb.Proc.Mutex
