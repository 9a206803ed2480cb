import Terrakernel.Syscall.Path
import Terrakernel.Tmpfs.Files
import Terrakernel.Vmm.Permissions
import Terrakernel.Pcie.Enumerate
import Terrakernel.Acpi.Interrupts
import Terrakernel.Acpi.Sync
import Terrakernel.Heap.Bytes
import Terrakernel.Tmpfs.Confine
import Terrakernel.Vmm.SpaceRuns
import Terrakernel.Tmpfs.Complete
import Terrakernel.Tmpfs.HardLinks
import Terrakernel.Tmpfs.Truncate
import Terrakernel.Tmpfs.Positioned
import Terrakernel.Tmpfs.Clean
import Terrakernel.Tmpfs.Atomic
import Terrakernel.Tmpfs.ArchiveReads
import Terrakernel.Tmpfs.Renamed
import Terrakernel.Tmpfs.Symlinks
import Terrakernel.Heap.Exact
import Terrakernel.Heap.Start
import Terrakernel.Vmm.Exhaustion
import Terrakernel.Pit.Sleep
import Terrakernel.Ps2m.Position
import Terrakernel.Pci.Enumerate
import Terrakernel.Acpi.Cover
import Terrakernel.Elf.Reads
import Terrakernel.Elf.Relocate
import Terrakernel.Tmpfs.Tokens
import Terrakernel.Ata.Disk
import Terrakernel.Ldisc.Keyboard
import Terrakernel.Printf.Output
