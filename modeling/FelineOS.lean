import FelineOS.Verif.Spinlock
import FelineOS.Verif.LockHandOff
import FelineOS.Verif.CarvingEnds
import FelineOS.Verif.OwnChunk
import FelineOS.Verif.NotAllocatable
import FelineOS.Verif.Bootstrap
import FelineOS.Verif.AvailableArm
import FelineOS.Verif.PmmLedger
import FelineOS.Verif.Heap
import FelineOS.Verif.PagingCalls
import FelineOS.Verif.MemAtomic
import FelineOS.Verif.Mem
import FelineOS.Verif.DeviceTreeEnds
import FelineOS.Verif.ChunkGrowth
import FelineOS.Verif.HeaderPlace
import FelineOS.Verif.ArmPlace
import FelineOS.Verif.ScratchPlace
import FelineOS.Verif.VirtSearch
import FelineOS.Verif.KVectorStorage
import FelineOS.Verif.PrintfAppend
import FelineOS.Verif.MapAny
import FelineOS.Verif.CleanupTasks
import FelineOS.Verif.TaskSwitchI386
import FelineOS.Verif.InterruptArm
import FelineOS.Verif.PrintfNumber
import FelineOS.Verif.PrintfBuffer
import FelineOS.Verif.PrintfCount
import FelineOS.Verif.StrDebug
import FelineOS.Verif.KVectorAppend
import FelineOS.Verif.Strtoul
import FelineOS.Verif.Memmove
import FelineOS.Verif.PageObjects
import FelineOS.Verif.Icxxabi
import FelineOS.Verif.VgaText
import FelineOS.Verif.FramebufferMemory
import FelineOS.Verif.StringOrder
import FelineOS.Verif.Strstr
import FelineOS.Verif.BoundedCopy
import FelineOS.Verif.KernelHeap
import FelineOS.Verif.NewTaskI386
import FelineOS.Verif.NewTaskArm
import FelineOS.Verif.SyscallI386
import FelineOS.Verif.KoutAtOnce
import FelineOS.Verif.BootI386
import FelineOS.Verif.BootArm
import FelineOS.Verif.WalkStackI386
import FelineOS.Verif.WalkStackArm
