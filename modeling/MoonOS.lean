import MoonOS.Lib.ByteMemory
import MoonOS.Lib.ByteString
import MoonOS.Lib.Numeral
import MoonOS.Lib.LinkedMemory
import MoonOS.Lib.TableForest
import MoonOS.Lib.GuardedRun
import MoonOS.Lib.SlotTree
import MoonOS.Base.Mem
import MoonOS.Base.Bootargs
import MoonOS.Base.Fmt
import MoonOS.Base.Str
import MoonOS.Trace.Log
import MoonOS.Mm.Addr
import MoonOS.Mm.Paging
import MoonOS.Mm.Virt
import MoonOS.Mm.Tables
import MoonOS.Mm.Refine
import MoonOS.Mm.Spaces
import MoonOS.Mm.UserView
import MoonOS.Mm.MapRange
import MoonOS.Mm.Separation
import MoonOS.Mm.KernelHalf
import MoonOS.Mm.Phys
import MoonOS.Mm.PhysRun
import MoonOS.Mm.PhysLock
import MoonOS.Mm.PhysBlock
import MoonOS.Mm.BuddyBits
import MoonOS.Mm.BuddyTree
import MoonOS.Mm.BuddyReads
import MoonOS.Mm.BuddyAlloc
import MoonOS.Mm.BuddyEmbed
import MoonOS.Mm.BuddyRun
import MoonOS.Mm.BuddyPhys
import MoonOS.Mm.InitPaging
import MoonOS.Mm.Unmap
import MoonOS.Mm.Slab
import MoonOS.Mm.Bufctls
import MoonOS.Mm.SlabList
import MoonOS.Mm.SlabPage
import MoonOS.Mm.SlabLayout
import MoonOS.Mm.SlabGrow
import MoonOS.Mm.SlabUse
import MoonOS.Mm.SlabOverlap
import MoonOS.Mm.SlabRun
import MoonOS.Mm.SlabSafe
import MoonOS.Mm.SlabAccounts
import MoonOS.Mm.SlabDestroy
import MoonOS.Mm.SlabLife
import MoonOS.Ds.Vec
import MoonOS.Lib.GrowingRing
import MoonOS.Sched.Scheduler
import MoonOS.Sched.Table
import MoonOS.Sched.Exit
import MoonOS.Sched.RoundRobin
import MoonOS.Ipc.Ipc
import MoonOS.Ipc.Payload
import MoonOS.Abi.Syscalls
import MoonOS.Abi.Dispatch
import MoonOS.Abi.Send
import MoonOS.Abi.RoundTrip
import MoonOS.Abi.Ownership
import MoonOS.Service.Elf
import MoonOS.Service.ElfHeaders
import MoonOS.Service.ElfContent
import MoonOS.Service.Capability
import MoonOS.Service.CapabilityPool
import MoonOS.Service.ExecutionSpace
import MoonOS.Service.Acquisition
import MoonOS.Service.Start
import MoonOS.Service.Layout
import MoonOS.Service.Arguments
import MoonOS.Ipc.Ports
import MoonOS.Ipc.PortTable
import MoonOS.Ipc.Assignment
import MoonOS.Ipc.PortWidth
import MoonOS.Service.InitTask
import MoonOS.Service.RegionCaps
import MoonOS.Service.Tar
import MoonOS.Service.Strtoul
import MoonOS.Platform.Madt
import MoonOS.Platform.Acpi
import MoonOS.Trace.Sym
import MoonOS.Trace.Printk
