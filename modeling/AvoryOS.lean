import AvoryOS.Ext3.Sequence
import AvoryOS.Ext3.Ownership
import AvoryOS.Ext2.Coherence
import AvoryOS.Ext4.History
import AvoryOS.Mm.Pages
import AvoryOS.Vfs.Coherence
import AvoryOS.Vfs.Rcu
import AvoryOS.Vfs.PathLog
import AvoryOS.Sched.Seccomp
import AvoryOS.Zram.Pins
import AvoryOS.Radix.Lockless
import AvoryOS.Eevfd.History
import AvoryOS.Ext2.Concurrent
import AvoryOS.Zram.Coherent
import AvoryOS.Vmm.SharedFile
import AvoryOS.Shm.Segments
import AvoryOS.Vmm.Mmap
import AvoryOS.Futex.Pi
import AvoryOS.Ipc.Semop
import AvoryOS.Unix.Credentials
import AvoryOS.Net.Ipv4
import AvoryOS.Vma.Search
import AvoryOS.Zram.Decoder
