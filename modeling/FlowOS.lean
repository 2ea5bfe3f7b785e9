import FlowOS.Lib.Word
import FlowOS.Lib.Mem
import FlowOS.Lib.CString
import FlowOS.Lib.Loop
import FlowOS.Lib.Scan
import FlowOS.Lib.Bitmap
import FlowOS.Lib.Tiling
import FlowOS.Lib.Linked
import FlowOS.Lib.Fifo
import FlowOS.Lib.Frames
import FlowOS.Lib.Prog
import FlowOS.Lib.Trace
import FlowOS.Lib.Ring
import FlowOS.Lib.Reader
import FlowOS.Lib.Rotation
import FlowOS.Lib.X86
import FlowOS.Lib.Trap
import FlowOS.Lib.Descriptor
import FlowOS.Lib.AtaBus
import FlowOS.Lib.AtaDisk
import FlowOS.Lib.I8259
import FlowOS.Gdt
import FlowOS.Heap.Basic
import FlowOS.Heap.Layout
import FlowOS.Heap.Edit
import FlowOS.Heap.Blocks
import FlowOS.Heap.Alloc
import FlowOS.Heap.Run
import FlowOS.Heap.Footprint
import FlowOS.Heap.Outgrown
import FlowOS.Heap.Coalesced
import FlowOS.Heap.FreeTwice
import FlowOS.Heap.Sizes
import FlowOS.Pmm.Basic
import FlowOS.Pmm.Run
import FlowOS.Pmm.Count
import FlowOS.Pmm.Search
import FlowOS.Pmm.MemoryMap
import FlowOS.Paging.Basic
import FlowOS.Paging.Map
import FlowOS.Paging.Run
import FlowOS.Process.Basic
import FlowOS.Process.Queue
import FlowOS.Process.ReadyQueue
import FlowOS.Process.Run
import FlowOS.Process.Slots
import FlowOS.Process.Timing
import FlowOS.Process.Fair
import FlowOS.Process.Switch
import FlowOS.Process.Frame
import FlowOS.Process.Machine
import FlowOS.Process.Flags
import FlowOS.Process.Saved
import FlowOS.Process.Resume
import FlowOS.Process.Traps
import FlowOS.Fat32.Basic
import FlowOS.Fat32.Read
import FlowOS.Fat32.Dir
import FlowOS.Fat32.Names
import FlowOS.Fat32.Listing
import FlowOS.Fat32.Bounded
import FlowOS.Fat32.Init
import FlowOS.Fat32.Length
import FlowOS.Fat32.Walk
import FlowOS.Fat32.Visible
import FlowOS.Fat32.Lookup
import FlowOS.Fat32.Vfs
import FlowOS.Fat32.Calls
import FlowOS.Fat32.Inside
import FlowOS.Fat32.Requests
import FlowOS.Fat32.Faulty
import FlowOS.Elf.Basic
import FlowOS.Elf.Moves
import FlowOS.Elf.Failure
import FlowOS.Elf.Effect
import FlowOS.Elf.Load
import FlowOS.Elf.Refill
import FlowOS.Elf.Exec
import FlowOS.Elf.Extent
import FlowOS.Vm.Basic
import FlowOS.Vm.Tables
import FlowOS.Vm.Roles
import FlowOS.Vm.Boot
import FlowOS.Vm.Calls
import FlowOS.Vm.Machine
import FlowOS.Vm.Access
import FlowOS.Vm.Private
import FlowOS.Vm.KernelSpace
import FlowOS.Vm.HeapRun
import FlowOS.Vm.HeapGrowth
import FlowOS.Vm.Create
import FlowOS.Vm.Aligned
import FlowOS.Vm.Steady
import FlowOS.Vm.Driver
import FlowOS.Vm.Exec
import FlowOS.Vm.Shared
import FlowOS.Vm.Pointer
import FlowOS.Keyboard
import FlowOS.Syscalls
import FlowOS.LineInput
import FlowOS.Vga
import FlowOS.Pic
import FlowOS.Idt
import FlowOS.ReadInput
import FlowOS.Echo
import FlowOS.Ata
import FlowOS.Disk.Write
import FlowOS.Disk.Identify
import FlowOS.Disk.Files
import FlowOS.Console.Typing
import FlowOS.Console.SysRead
import FlowOS.Console.Screens
import FlowOS.Console.Login
import FlowOS.Console.Shell
import FlowOS.Console.Prompt
import FlowOS.Console.Startup
