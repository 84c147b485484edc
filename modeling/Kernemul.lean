import Kernemul.Win.Views
import Kernemul.Win.UserMem.Residency
import Kernemul.Lib.SegmentEdit
import Kernemul.Win.Pool.Sizes
import Kernemul.Emu.X86.KernelHalf
import Kernemul.Emu.X86.Access
import Kernemul.Emu.X86.Cursor
import Kernemul.Emu.X86.Shadow
import Kernemul.Emu.X86.Frames
import Kernemul.Kernel.Terminate
import Kernemul.Kernel.BoundedWaiting
import Kernemul.Win.ThreadLists
import Kernemul.Emu.Pause
import Kernemul.Emu.Tables
import Kernemul.Emu.Alloc
import Kernemul.Kernel.Context
import Kernemul.Kernel.SpinLock
import Kernemul.Win.Resume
import Kernemul.Win.Unwind.Arm64.Inversion
import Kernemul.Win.Resource
import Kernemul.Win.Rundown
import Kernemul.Win.Sync.Mutant
import Kernemul.Win.Sync.Semaphore
import Kernemul.Win.Sync.KeyedEvent
import Kernemul.Win.Sync.Completion
import Kernemul.Win.Lpc.Delivery
import Kernemul.Win.UserMem.Ranges
import Kernemul.Win.UserMem.Allocation
import Kernemul.Win.UserMem.QueryWalk
import Kernemul.Win.UserMem.GuestMemory
import Kernemul.Win.UserMem.ExactMmu
import Kernemul.Win.Sync.Timeout
import Kernemul.Win.Notify.Noticed
import Kernemul.Win.Device.Books
import Kernemul.Win.Device.Lifecycle
import Kernemul.Win.CopyMemory
import Kernemul.Win.Registry
import Kernemul.Win.Handles
import Kernemul.Win.SelfMap
import Kernemul.Win.PfnDatabase
import Kernemul.Win.Requests.Lifetime
import Kernemul.Win.Requests.Mdl
import Kernemul.Emu.Arm64.KernelHalf
import Kernemul.Win.PushLock
import Kernemul.Win.Wnf
import Kernemul.Win.Dpc
import Kernemul.Win.Unwind.Chain
import Kernemul.Win.Unwind.Walkers
import Kernemul.Win.Continue
import Kernemul.Win.GuestCall.Runs
import Kernemul.Win.Sync.FastIrql
import Kernemul.Win.Unwind.Arm64.Packed
import Kernemul.Win.DeviceNames
import Kernemul.Win.DirectoryObjects
import Kernemul.Win.ObCallbacks
import Kernemul.Win.ApiSet
import Kernemul.Kernel.VirtualImage
import Kernemul.Kernel.Exports
import Kernemul.Kernel.Relocation
import Kernemul.Win.KeyValues
import Kernemul.Win.InformationClasses
import Kernemul.Win.RegistryPaths
import Kernemul.Win.FileSystem
import Kernemul.Win.FilePaths
import Kernemul.Win.Directories
import Kernemul.Win.FileIo
import Kernemul.Win.SystemProcesses
import Kernemul.Win.SystemModules
import Kernemul.Kernel.ContextRecords.RegView
import Kernemul.Kernel.ContextRecords.X64
import Kernemul.Kernel.ContextRecords.Arm64
import Kernemul.Kernel.ContextRecords
import Kernemul.Lib.ByteMemory
import Kernemul.Lib.Lexicographic
import Kernemul.Win.GuestLists.Runs
import Kernemul.Win.GuestStrings
import Kernemul.Win.StringCompare
import Kernemul.Win.StringRoutines
import Kernemul.Win.Format
import Kernemul.Win.FormatGrammar
import Kernemul.Win.FormattedOutput
import Kernemul.Win.UserMem.PickBase
import Kernemul.Win.Unwind.Lookup
import Kernemul.Emu.X86.PhysRuns
import Kernemul.Win.CallbackBuffers
import Kernemul.Win.ThreadServices
import Kernemul.Win.SortSearch
import Kernemul.Win.CallingConv
import Kernemul.Kernel.Loader
import Kernemul.Lib.LastWrite
import Kernemul.Kernel.Symbols
import Kernemul.Win.Syscalls
import Kernemul.Lib.KeyedTable
import Kernemul.Win.ExCallbacks
import Kernemul.Win.Cng.Handlers
import Kernemul.Win.Cng.Hashes
import Kernemul.Win.Cng.Keys
import Kernemul.Lib.Calendar
import Kernemul.Win.SystemTime
