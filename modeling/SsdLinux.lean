import SsdLinux.Keyed
import SsdLinux.CLib.Bytes
import SsdLinux.CLib.Int
import SsdLinux.CLib.Dotted
import SsdLinux.CLib.Stdio
import SsdLinux.CLib.Printf
import SsdLinux.Words
import SsdLinux.Nesting
import SsdLinux.Setup.List
import SsdLinux.Setup.Token
import SsdLinux.Setup.Quoted
import SsdLinux.Setup.Conf
import SsdLinux.Setup.Valtab
import SsdLinux.Setup.RoundTrip
import SsdLinux.Setup.Getarg
import SsdLinux.Setup.Ok
import SsdLinux.Setup.Session
import SsdLinux.Setup.Main
import SsdLinux.Setup.Rows
import SsdLinux.Setup.Access
import SsdLinux.CLib.Shell
import SsdLinux.Setup.Commands
import SsdLinux.CLib.Source
import SsdLinux.Setup.ShellReader
import SsdLinux.Setup.Pending
import SsdLinux.Setup.Validation
import SsdLinux.Setup.History
import SsdLinux.Setup.Registry
import SsdLinux.Setup.Duplicate
import SsdLinux.Setup.Nextval
import SsdLinux.Setup.Writes
import SsdLinux.Setup.Moves
import SsdLinux.Setup.Delete
import SsdLinux.Setup.Integrity
import SsdLinux.Setup.Sysupdate
import SsdLinux.Setup.Rc2conf
import SsdLinux.Setup.Zones
import SsdLinux.Setup.Zonedb
import SsdLinux.Setup.Required
import SsdLinux.Setup.Generators
import SsdLinux.Setup.Named
import SsdLinux.Setup.Address
import SsdLinux.Tcpdwl
import SsdLinux.Setup.Eval
import SsdLinux.Setup.Netmask
import SsdLinux.Setup.Nextid
import SsdLinux.Setup.Readln
import SsdLinux.Setup.Form
import SsdLinux.Setup.Quote
import SsdLinux.Calls
import SsdLinux.Setup.Macro
import SsdLinux.Setup.Macrorun
import SsdLinux.Setup.Template
import SsdLinux.Setup.Overlay
import SsdLinux.Linked
import SsdLinux.Slots
import SsdLinux.CLib.Block
import SsdLinux.Setup.Str
import SsdLinux.Setup.Alloc
import SsdLinux.Setup.Envtop
import SsdLinux.Setup.Copies
import SsdLinux.Setup.Buffer
import SsdLinux.Setup.Safe
import SsdLinux.Setup.Arguments
import SsdLinux.Setup.Argspec
import SsdLinux.Nor
import SsdLinux.Flashcfg
import SsdLinux.Srecord
import SsdLinux.Convert
import SsdLinux.Runled.Options
import SsdLinux.Runled.Pattern
import SsdLinux.Sysinst.Partition
import SsdLinux.Sysinst.Boot
import SsdLinux.Sysinst.Menu
import SsdLinux.Sysinst.Select
import SsdLinux.Sysinst.Ip
import SsdLinux.Sysinst.Network
import SsdLinux.Sysinst.Getarg
import SsdLinux.Sysinst.Listing
import SsdLinux.Sysinst.Root
import SsdLinux.Sysinst.Commands
import SsdLinux.Sysinst.Fstab
import SsdLinux.Sysinst.Mount
import SsdLinux.Download
import SsdLinux.Flashruns
import SsdLinux.Runled.Lamps
import SsdLinux.Dialog
import SsdLinux.Sysinst.Tasks
import SsdLinux.Sysinst.Media
import SsdLinux.Sysinst.Fetch
import SsdLinux.Sysinst.Etc
import SsdLinux.Sysinst.Install
import SsdLinux.Sysinst.Confirm
import SsdLinux.Sysinst.Unmount
import SsdLinux.Sysinst.Devices
import SsdLinux.Sysinst.Rootdev
import SsdLinux.Sysinst.Netstart
import SsdLinux.Setup.Saving
import SsdLinux.Setup.Admission
import SsdLinux.Setup.Netstart
import SsdLinux.Sysinst.Installed
import SsdLinux.Setup.Booted
