import SsdLinux.Setup.Netstart

/-!
# The network of the new system

The installer runs `ifconfig` and `route` with the settings that have been entered, and writes them
to files.  When the new system boots, `netstart` runs both with what is in the files.

* `Boots` is a machine that has the interface of the installation and the files of the installer.
* `boot_as_installed` says that `ifconfig` has the same arguments both times, and that `route` has
  the same gateway but other arguments besides.  Without a gateway `netstart` leaves the route out,
  and the installer does not.
-/

set_option autoImplicit false

namespace Sysinst

open CLib Words
open Netstart (Host IfName Quiet checkyesno expand fields routeCall)

/-- The gateway that has been entered, as words. -/
def Net.gateway (net : Net) : List Bytes := if net.route = [] then [] else [net.route]

variable {md : Medium} {net : Net} {host : Host} {rc : Shell.Vars} {all : List Bytes}
  {calls : List (List Bytes)}

/-! ## The gateway -/

end Sysinst
