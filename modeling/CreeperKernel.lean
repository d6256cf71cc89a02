import CreeperKernel.PmmRuns
import CreeperKernel.ForkFrames
import CreeperKernel.ExecFiles
import CreeperKernel.MissingOperations
import CreeperKernel.LastingPaths
import CreeperKernel.ReferenceCounts
import CreeperKernel.OpenFiles
import CreeperKernel.ProcessLinks
import CreeperKernel.DescriptorCalls
import CreeperKernel.PathArguments
import CreeperKernel.KeyboardRing
import CreeperKernel.RamFiles
import CreeperKernel.PmmContiguous
import CreeperKernel.PmmInit
import CreeperKernel.HeapLocking
import CreeperKernel.UnmapAgreement
import CreeperKernel.PageTableTeardown
import CreeperKernel.DirectMapping
import CreeperKernel.PageProtection
import CreeperKernel.FailedCreation
import CreeperKernel.EmptyDirectories
import CreeperKernel.PathComposition
import CreeperKernel.RoundRobin
import CreeperKernel.ElfBounds
import CreeperKernel.DirectoryCursor
import CreeperKernel.SharedPages
import CreeperKernel.TidRuns
import CreeperKernel.RtcClock
import CreeperKernel.KeyboardModifiers
import CreeperKernel.ReapAccesses
import CreeperKernel.StackRelease
import CreeperKernel.UserPointers
import CreeperKernel.ArchiveBounds
import CreeperKernel.DeviceLists
import CreeperKernel.TimerRegistry
import CreeperKernel.SizeFormat
import CreeperKernel.AlignedBlocks
import CreeperKernel.ByteBitmaps
import CreeperKernel.MemoryMoves
import CreeperKernel.SpinLocks
