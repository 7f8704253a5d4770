import Tori.Lib.Loop
import Tori.Lib.Word
import Tori.Lib.ByteMem
import Tori.Lib.Sum
import Tori.Lib.Radix
import Tori.Lib.Linked
import Tori.Lib.DList
import Tori.Lib.Buckets
import Tori.Spec.Pmm
import Tori.Spec.Vmm
import Tori.Spec.Cow
import Tori.Spec.Heap
import Tori.Spec.HeapRun
import Tori.Spec.Kalloc
import Tori.Sanity.Pmm
import Tori.Proofs.PmmInvariant
import Tori.Sanity.Vmm
import Tori.Sanity.Heap
import Tori.Proofs.VmmClone
import Tori.Proofs.VmmAccount
import Tori.Proofs.VmmMap
import Tori.Proofs.FrameAccounting
import Tori.Proofs.CowRefinement
import Tori.Proofs.CowIsolation
import Tori.Proofs.HeapOps
import Tori.Proofs.HeapFree
import Tori.Proofs.HeapSafety
import Tori.Sanity.Kalloc
import Tori.Spec.Vfs
import Tori.Spec.Ramfs
import Tori.Spec.Overlay
import Tori.Spec.FsRun
import Tori.Sanity.Ramfs
import Tori.Sanity.Overlay
import Tori.Proofs.VfsResolve
import Tori.Proofs.FsSteady
import Tori.Proofs.FsCalls
import Tori.Proofs.FsDescriptors
import Tori.Proofs.FsPaths
import Tori.Proofs.FsCreate
import Tori.Proofs.FsMounts
import Tori.Proofs.OverlayReadOnly
import Tori.Proofs.FsRefcounts
import Tori.Spec.Process
import Tori.Sanity.Process
import Tori.Proofs.ProcessPids
import Tori.Proofs.ProcessTree
import Tori.Spec.Wait
import Tori.Proofs.WaitWake
import Tori.Spec.Sched
import Tori.Proofs.SchedQueue
import Tori.Proofs.SchedTurns
import Tori.Proofs.SchedExit
import Tori.Spec.Machine
import Tori.Sanity.Machine
import Tori.Proofs.ForkCopy
import Tori.Proofs.ExecSwitch
import Tori.Proofs.ProcessLifetime
import Tori.Spec.FileBuffers
import Tori.Spec.Syscall
import Tori.Sanity.FileBuffers
import Tori.Proofs.UserPointers
import Tori.Proofs.DescriptorRead
import Tori.Lib.Threads
import Tori.Spec.Seqlock
import Tori.Proofs.Seqlock
import Tori.Lib.Ring
import Tori.Spec.Log
import Tori.Proofs.LogRing
import Tori.Proofs.LogText
import Tori.Spec.Keyboard
import Tori.Proofs.Keyboard
import Tori.Spec.Acpi
import Tori.Proofs.AcpiAgree
import Tori.Spec.KernelHalf
import Tori.Proofs.KernelTables
import Tori.Proofs.KernelHalf
import Tori.Spec.OverlayDir
import Tori.Proofs.OverlayMerge
import Tori.Proofs.OverlayUnmount
import Tori.Proofs.OverlayListing
import Tori.Sanity.VmmBlank
import Tori.Spec.UserHeap
import Tori.Proofs.UserHeap
import Tori.Spec.SliceRun
import Tori.Proofs.SliceOps
import Tori.Proofs.SliceInvariant
import Tori.Proofs.HeapOdd
import Tori.Proofs.KallocRoute
import Tori.Spec.RwLock
import Tori.Proofs.RwLock
import Tori.Spec.PmmPages
import Tori.Proofs.PmmPages
import Tori.Spec.Vmem
import Tori.Proofs.Vmem
import Tori.Lib.RadixWalk
import Tori.Spec.PageTables
import Tori.Sanity.PageTables
import Tori.Proofs.MapExact
import Tori.Proofs.UnmapExact
import Tori.Spec.CloneFail
import Tori.Proofs.CloneFail
import Tori.Spec.KernelStore
import Tori.Proofs.KernelStore
import Tori.Spec.HeapWalk
import Tori.Proofs.HeapWalk
import Tori.Spec.Timer
import Tori.Proofs.TimerWheel
import Tori.Proofs.Timer
import Tori.Proofs.TimerExact
import Tori.Spec.KallocFail
import Tori.Proofs.KallocFail
import Tori.Spec.HeapStats
import Tori.Proofs.HeapStats
import Tori.Spec.Brk
import Tori.Proofs.Brk
import Tori.Spec.FileRun
import Tori.Proofs.FileContents
import Tori.Proofs.DescriptorWrite
import Tori.Spec.PerCpu
import Tori.Proofs.PerCpu
import Tori.Proofs.TimerPeriodic
import Tori.Proofs.Runtime
