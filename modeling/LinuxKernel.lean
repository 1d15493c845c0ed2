import LinuxKernel.Bitmap.Area
import LinuxKernel.Buddy.Safety
import LinuxKernel.Cts.Invert
import LinuxKernel.E820.Sanitize
import LinuxKernel.Ebitmap.Accept
import LinuxKernel.Ebitmap.Set
import LinuxKernel.Filter.Insns
import LinuxKernel.Filter.Sound
import LinuxKernel.Genalloc.Exclusive
import LinuxKernel.Gf128.Product
import LinuxKernel.Hugetlb.Reserve
import LinuxKernel.Ida.Simple
import LinuxKernel.Idr.Beyond
import LinuxKernel.Kallsyms.Lookup
import LinuxKernel.Kconfig.Compare
import LinuxKernel.Kconfig.Dups
import LinuxKernel.Locks.Deadlock
import LinuxKernel.Memblock.Find
import LinuxKernel.Mmap.Merge
import LinuxKernel.Mmap.Reach
import LinuxKernel.Nand.Correct
import LinuxKernel.Nls.RoundTrip
import LinuxKernel.Percpu.Safety
import LinuxKernel.Plist.Order
import LinuxKernel.Raid10.Placement
import LinuxKernel.Raid5.Inverse
import LinuxKernel.Raid6.Recover
import LinuxKernel.Range.Subtract
import LinuxKernel.Rational.Best
import LinuxKernel.Resource.Safety
import LinuxKernel.Rwsem.Handover
import LinuxKernel.Sem.Sleepers
import LinuxKernel.Swap.Retry
import LinuxKernel.Textsearch.Kmp
import LinuxKernel.Timer.Next
import LinuxKernel.Timer.Round
import LinuxKernel.Xfrm.Esn
