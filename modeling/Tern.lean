import Tern.Precision
import Tern.Completeness
import Tern.Watermark
import Tern.Arguments
import Tern.Transfer
import Tern.Queues
import Tern.Runnable
import Tern.Replies
import Tern.Ports
import Tern.Failures
import Tern.Lineage
import Tern.Badges
import Tern.AddressSpaces
import Tern.Arrivals
import Tern.Stubs
import Tern.Rendezvous
import Tern.Signals
import Tern.Wakeups
import Tern.Lib.Tickets
import Tern.Locks
import Tern.Cptrs
import Tern.Pages
import Tern.Bindings
import Tern.Irqs
import Tern.Parked
import Tern.Deaths
import Tern.Suspensions
import Tern.Callers
import Tern.Lib.While
import Tern.Serial
import Tern.PciManager
import Tern.Carving
import Tern.Lib.Chains
import Tern.Exactness
import Tern.Reuse
import Tern.Deliveries
import Tern.Pointers
import Tern.Configuration
import Tern.FirstFits
import Tern.Extents
import Tern.Handover
import Tern.KernelPages
import Tern.KernelHalf
import Tern.Lib.Trees
import Tern.PageTrees
import Tern.Mappings
import Tern.MapPage
import Tern.Chacha
import Tern.LocalBuffers
import Tern.Lib.Strings
import Tern.Strtol
import Tern.Tar
import Tern.Archives
import Tern.Lib.Partition
import Tern.Qsort
import Tern.Lib.Bounded
import Tern.Print
import Tern.Formats
import Tern.Texts
import Tern.Numbers
import Tern.Lib.Bytes
import Tern.Lib.Patches
import Tern.Elf
import Tern.Loading
import Tern.Images
import Tern.Lib.Bitfields
import Tern.CapWords
import Tern.Lib.Stack
import Tern.Traps
import Tern.Containment
import Tern.Contexts
import Tern.Completion
import Tern.Generator
import Tern.Generated
import Tern.RemoteCalls
import Tern.Calculator
