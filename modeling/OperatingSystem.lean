import OperatingSystem.Filesys.FreeSpace
import OperatingSystem.Filesys.Reclaim
import OperatingSystem.Filesys.Ownership
import OperatingSystem.Filesys.InodeReuse
import OperatingSystem.Filesys.GapFree
import OperatingSystem.Filesys.FileContents
import OperatingSystem.Filesys.Descriptors
import OperatingSystem.Filesys.OpenFiles
import OperatingSystem.Filesys.AccessModes
import OperatingSystem.Filesys.AtomicCreate
import OperatingSystem.Filesys.ClimbingPaths
import OperatingSystem.Filesys.InodeTable
import OperatingSystem.Filesys.InvalidDescriptors
import OperatingSystem.Filesys.DiskLayout
import OperatingSystem.Filesys.Reading
import OperatingSystem.Fifos.Queue
import OperatingSystem.Fifos.Preemption
import OperatingSystem.Fifos.SavedContexts
import OperatingSystem.Fifos.InitialFrame
import OperatingSystem.Filesys.MappedBlocks
import OperatingSystem.Filesys.EntryRemoval
import OperatingSystem.Filesys.Reservation
import OperatingSystem.Filesys.WholeFiles
import OperatingSystem.Filesys.LastBlock
import OperatingSystem.Filesys.OwnWrites
import OperatingSystem.Filesys.Translation
import OperatingSystem.Filesys.PathBuffers
import OperatingSystem.Filesys.SplitPaths
import OperatingSystem.Filesys.NameCheck
import OperatingSystem.Fifos.Terminal
import OperatingSystem.Memos.NumberText
import OperatingSystem.Memos.MultibootMap
import OperatingSystem.Memos.BiosMap
import OperatingSystem.Keyboard.KeyPresses
import OperatingSystem.Lib.LinkedList
import OperatingSystem.Filesys.TableHeap
import OperatingSystem.Filesys.LinkedTables
import OperatingSystem.Filesys.ProcessTables
import OperatingSystem.Lib.Lockstep
import OperatingSystem.Lib.Interleaving
import OperatingSystem.Lib.ServiceRounds
import OperatingSystem.Lib.TextCells
import OperatingSystem.Filesys.LinkedRefinement
import OperatingSystem.Filesys.Unload
import OperatingSystem.Filesys.QuietCalls
import OperatingSystem.Filesys.UserRuns
import OperatingSystem.Filesys.PathnameReuse
import OperatingSystem.Fifos.Screen
import OperatingSystem.Keyboard.SingleReader
import OperatingSystem.Lib.ReadyQueue
import OperatingSystem.Fifos.PreemptiveQueue
import OperatingSystem.Filesys.SharedBlock
import OperatingSystem.Filesys.DiskModule
