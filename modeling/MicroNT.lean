import MicroNT.Base.Machine
import MicroNT.Base.Radix
import MicroNT.Ntdef
import MicroNT.PhysicalMemory
import MicroNT.PhysicalMemoryPool
import MicroNT.PhysicalMemoryRuns
import MicroNT.VirtualMemory
import MicroNT.VirtualMemoryMap
import MicroNT.PageRoles
import MicroNT.AddressSpaces
import MicroNT.Permissions
import MicroNT.Boot
import MicroNT.KernelTables
import MicroNT.KernelBoot
import MicroNT.BootSucceeds
import MicroNT.KernelSpaces
import MicroNT.IdentityMap
import MicroNT.NtProtect
import MicroNT.UserAccess
import MicroNT.PeLoader
import MicroNT.PeIsolation
import MicroNT.SyscallEntry
import MicroNT.Base.Chain
import MicroNT.Blocking
import MicroNT.Event
import MicroNT.EventTokens
import MicroNT.Semaphore
import MicroNT.SemaphoreRuns
import MicroNT.Mutant
import MicroNT.Base.Forest
import MicroNT.Trees
import MicroNT.SpaceTrees
import MicroNT.MemoryCalls
import MicroNT.FailedCalls
import MicroNT.Base.Reads
import MicroNT.PeReads
import MicroNT.PeExports
import MicroNT.PeBounds
import MicroNT.PageBytes
import MicroNT.PageLayout
import MicroNT.PeImage
import MicroNT.Base.Simulation
import MicroNT.Vfs
import MicroNT.VfsMap
import MicroNT.Base.Tally
import MicroNT.ObjectManager
import MicroNT.ObjectReferences
import MicroNT.ObjectNames
import MicroNT.Exceptions
import MicroNT.Scheduler
import MicroNT.MachineContext
import MicroNT.ProcessExit
import MicroNT.ProcessWaiters
import MicroNT.ProcessAccounting
import MicroNT.ObjectCalls
import MicroNT.ObjectLookups
import MicroNT.ObjectLookupRuns
import MicroNT.SignalCalls
import MicroNT.SignalsReach
import MicroNT.FileCalls
import MicroNT.NamedPipes
import MicroNT.FileHandles
import MicroNT.FileReads
import MicroNT.ResultBounds
import MicroNT.ImportPatches
import MicroNT.ImportsComplete
import MicroNT.Relocations
import MicroNT.ProcAddress
import MicroNT.SpacePages
import MicroNT.HeapCalls
import MicroNT.FileSections
import MicroNT.MappingSucceeds
import MicroNT.Base.Ring
import MicroNT.PoolAccounting
import MicroNT.SvgaFifo
import MicroNT.BootMemoryMap
import MicroNT.ElfLoader
import MicroNT.SharedPage
import MicroNT.Base.Layers
import MicroNT.ClickPositions
import MicroNT.ProtectQuery
import MicroNT.Base.Bytes
import MicroNT.Base.Fat
import MicroNT.DiskImage
import MicroNT.DiskRoundTrip
import MicroNT.IsoImage
import MicroNT.IsoRoundTrip
import MicroNT.FirstFit
import MicroNT.KernelStacks
import MicroNT.HandleTable
import MicroNT.HeapBlocks
import MicroNT.HardwareWalk
import MicroNT.Preemption
import MicroNT.ContextSwitch
import MicroNT.Base.Deque
import MicroNT.ReadyQueues
import MicroNT.SleepList
import MicroNT.OrderlyRuns
import MicroNT.PriorityOrder
import MicroNT.SleepLength
import MicroNT.PageFrames
import MicroNT.UnmapViews
import MicroNT.AllocSizes
import MicroNT.ObjectTypes
import MicroNT.FileNames
import MicroNT.StoredFiles
import MicroNT.FileWrites
import MicroNT.StartMenuTiles
import MicroNT.KillCommand
import MicroNT.LineEditor
import MicroNT.LineBounds
import MicroNT.LineHistory
import MicroNT.KeyboardInput
import MicroNT.TypedLines
import MicroNT.WaitMultiple
import MicroNT.ThreadPlaces
import MicroNT.WaitPlaces
import MicroNT.ReleasePlaces
import MicroNT.ProcessPlaces
import MicroNT.PlacementRuns
import MicroNT.WindowManager
import MicroNT.MousePackets
import MicroNT.KeyModifiers
import MicroNT.WindowList
import MicroNT.TaskbarButtons
import MicroNT.FatSizing
import MicroNT.ElfMemory
import MicroNT.MemoryLine
import MicroNT.Framebuffer
import MicroNT.Console
import MicroNT.SharedTimes
import MicroNT.NumberFormats
import MicroNT.StatusBar
import MicroNT.InputRings
import MicroNT.UserReads
import MicroNT.ReadyLists
import MicroNT.SleepPartition
import MicroNT.DiskInspector
import MicroNT.Base.Outputs
import MicroNT.SchedulePlan
import MicroNT.BoundedOvertaking
import MicroNT.Descriptors
import MicroNT.Interrupts
import MicroNT.InterruptLines
import MicroNT.Base.Iso9660
import MicroNT.IsoVolume
import MicroNT.PageFields
import MicroNT.Environment
import MicroNT.EnvironmentRuns
