import Prometheos.Lib.Prog
import Prometheos.Lib.Dyadic
import Prometheos.Lib.Linked
import Prometheos.Machine
import Prometheos.Pmm.Model
import Prometheos.Pmm.Blocks
import Prometheos.Pmm.Rep
import Prometheos.Pmm.Spec
import Prometheos.Pmm.Runs
import Prometheos.Pmm.AddRange
import Prometheos.Pmm.Links
import Prometheos.Pmm.Ownership
import Prometheos.Boot.Model
import Prometheos.Boot.Init
import Prometheos.Boot.Seeding
import Prometheos.Boot.Memmap
import Prometheos.Boot.Reclaim
import Prometheos.Boot.Runs
import Prometheos.Heap.Model
import Prometheos.Heap.Layout
import Prometheos.Heap.Rep
import Prometheos.Heap.Spec
import Prometheos.Heap.Clients
import Prometheos.Heap.Runs
import Prometheos.Lib.Radix
import Prometheos.Vmm.Model
import Prometheos.Vmm.Tables
import Prometheos.Vmm.Edits
import Prometheos.Vmm.Spec
import Prometheos.Vmm.Runs
import Prometheos.Vmm.Clone
import Prometheos.Vmm.CloneUndo
import Prometheos.Vmm.Architecture
import Prometheos.Vmm.Exact
import Prometheos.Vmm.Populated
import Prometheos.Vmm.Ranges
import Prometheos.Vmm.Tlb
import Prometheos.Vmm.CloneEnds
import Prometheos.Vmm.Space
import Prometheos.Vmm.Footprint
import Prometheos.Mm.Model
import Prometheos.Mm.Frames
import Prometheos.Mm.Joint
import Prometheos.Mm.Runs
import Prometheos.Lib.Simulation
import Prometheos.Mm.AddressSpace
import Prometheos.Mm.Init
import Prometheos.Mm.Exhaustion
import Prometheos.Acpi.Model
import Prometheos.Acpi.Request
import Prometheos.Acpi.Map
import Prometheos.Lib.Linearize
import Prometheos.Acpi.Event
import Prometheos.Lib.Interleave
import Prometheos.Tsc
import Prometheos.Acpi.Mutex
import Prometheos.Acpi.Wait
import Prometheos.Lib.Interrupts
import Prometheos.Sync.Model
import Prometheos.Sync.Preemption
import Prometheos.Sync.Sections
import Prometheos.Sync.Steps
import Prometheos.Serial
import Prometheos.Idt.Model
import Prometheos.Idt.Delivery
import Prometheos.Idt.Concurrent
import Prometheos.Idt.SlotLocks
import Prometheos.Lib.Walks
import Prometheos.Pci.Model
import Prometheos.Pci.Window
import Prometheos.Pci.Exact
import Prometheos.Pci.Paths
import Prometheos.Apic.Model
import Prometheos.Apic.Routing
import Prometheos.Lib.Stack
import Prometheos.Isr.Model
import Prometheos.Isr.Service
import Prometheos.Isr.Nesting
