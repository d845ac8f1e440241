import YamKernel.Fs.Bcache.Acknowledged
import YamKernel.Fs.Fat32.Termination
import YamKernel.Fs.Vfs.ReadOnly
import YamKernel.Sched.Waiting
import YamKernel.Sched.Fairness
import YamKernel.Mem.Pmm.Zones
import YamKernel.Mem.Pmm.Reuse
import YamKernel.Mem.Heap.Leaks
import YamKernel.Mem.Heap.Interference
import YamKernel.Mem.Vmm.Mmap
import YamKernel.Mem.Vmm.WriteProtection
import YamKernel.Mem.Vmm.Mprotect
import YamKernel.Mem.Vmm.StackRuns
import YamKernel.Mem.Vmm.MappingCalls
import YamKernel.Cpu.OutputPointers
import YamKernel.Ipc.Pipe
import YamKernel.Fs.Elf.Loading
import YamKernel.Libc.Condvar
import YamKernel.Nexus.Capability
import YamKernel.Ipc.Channel
import YamKernel.Net.Stream
import YamKernel.Os.Login
import YamKernel.Os.Calculator
import YamKernel.Net.Calendar
import YamKernel.Net.Udp
