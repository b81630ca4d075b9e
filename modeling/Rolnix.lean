import Rolnix.Lib.ByteMem
import Rolnix.Lib.Linked
import Rolnix.Lib.Radix
import Rolnix.Lib.Word
import Rolnix.Machine
import Rolnix.Allocator
import Rolnix.FreeLists
import Rolnix.Untyped
import Rolnix.Boot
import Rolnix.Pmm
import Rolnix.BootProof
import Rolnix.PmmProof
import Rolnix.Heap
import Rolnix.HeapProof
import Rolnix.HeapRun
import Rolnix.Vmm
import Rolnix.PageTree
import Rolnix.PageEntry
import Rolnix.Descend
import Rolnix.PageAddr
import Rolnix.VmmProof
import Rolnix.VmmInit
import Rolnix.VmmRun
import Rolnix.Rights
import Rolnix.KernelSpace
import Rolnix.BootLayout
import Rolnix.BootOwners
import Rolnix.BootGaps
import Rolnix.Lib.Cyclic
import Rolnix.OneRegion
import Rolnix.Sched
import Rolnix.SchedProof
import Rolnix.ProcRegions
import Rolnix.Spawn
import Rolnix.UserSpace
import Rolnix.SpawnProof
import Rolnix.SpawnRun
import Rolnix.Callers
import Rolnix.CallersProof
import Rolnix.DrainRace
import Rolnix.LostDrain
import Rolnix.AddrField
import Rolnix.LeafCount
import Rolnix.MapCount
import Rolnix.MapWrap
import Rolnix.SchedContext
import Rolnix.Generations
import Rolnix.Grants
import Rolnix.HeapFit
import Rolnix.MapAtomic
import Rolnix.SpawnPanic
import Rolnix.Exhaustion
import Rolnix.BootReserved
import Rolnix.Harness
import Rolnix.HarnessProof
import Rolnix.BootBump
import Rolnix.EffectiveMap
import Rolnix.FrameIndex
import Rolnix.PoolDrain
import Rolnix.LegacyArea
import Rolnix.HeapUndo
import Rolnix.HeapReinit
import Rolnix.Lib.RingBuffer
import Rolnix.Keyboard
import Rolnix.Descriptors
import Rolnix.KeyDecode
import Rolnix.Lib.ReadM
import Rolnix.Multiboot
import Rolnix.RegionList
import Rolnix.Interrupt
import Rolnix.Lib.Terminal
import Rolnix.Lib.X86Prog
import Rolnix.Processes
import Rolnix.ProcessesProof
import Rolnix.Serial
import Rolnix.Shell
import Rolnix.UserProg
import Rolnix.UserProgProof
import Rolnix.UserRuns
import Rolnix.KeyboardInit
import Rolnix.Pic
import Rolnix.SpinLock
import Rolnix.Tlb
import Rolnix.Uart
import Rolnix.UserAccess
import Rolnix.BootTables
import Rolnix.RamRuns
