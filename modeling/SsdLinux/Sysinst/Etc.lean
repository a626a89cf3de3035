import SsdLinux.Sysinst.Fetch

/-!
# `sysinst`: the files of the new system

When the binaries are there, the installer sets up the new system: the boot block, the devices, the
menu of the boot loader, `rc.conf`, the files of the network, and the passwords.  What it writes
below `/mnt/etc` about the network is what it has run `ifconfig` and `route` with before.

* The name of a partition ends with a letter for the disk and a number (`getdevnum`, `getlu`).  The
  boot loader counts both from 0.
* A program that has been compiled without `CONF_NETWORK` copies the files of the network, as far as
  they are there, from where it runs.
* What is written to a file is one action, which comes after it could be opened.
-/

set_option autoImplicit false

namespace Sysinst

open CLib Words

/-! ## PC cards -/

/-- A line of `/proc/devices`: whether it has the driver of the PC cards. -/
def pccardLine (buf : Bytes) : Option Bool :=
  if (cString buf).length = 1 ∨ (tab2sp buf).head? = some hash then some false
  else
    (getarg (fun _ ↦ []) (tab2sp buf)).map fun (i, word) ↦
      decide (i = 2 ∧ word 0 = cstr "254" ∧ word 1 = cstr "pcmcia")

/-- The lines up to the one that is looked for. -/
def findPccard : List Bytes → Option Bool
  | [] => some false
  | buf :: bufs =>
    (pccardLine buf).bind fun found ↦ if found then some true else findPccard bufs

/-- `probe_pccard`. -/
def probePccard (devices : Option Bytes) : Prog ℤ := do
  if ← .ofOption (devices.bind fun text ↦ findPccard (fgetsAll (BUFSIZ - 1) text)) then
    run .cardmgr
    pure 1
  else pure 0

/-! ## The network -/

/-- `set_dhcp`, with `run_dhclient`. -/
def setDhcp (b : Build) (md : Medium) : Prog ℤ := do
  if (← ask b.signed .dhcp) = 121 then
    run (.dhclient md.name)
    pure 1
  else pure 0

/-- The command that sets up the interface. -/
def ifconfigTask (md : Medium) (net : Net) : Task := .ifconfig md.name net.ip net.cast net.mask

/-- `do_network`. -/
def doNetwork (md : Medium) (net : Net) : Prog Unit := do
  run (ifconfigTask md net)
  run (.route net.route)

/-- A file below the new system. -/
def inTarget (path : Bytes) : Bytes := printBuf (target ++ path)

def ifconfigFile (md : Medium) : Bytes := inTarget (cstr "/etc/ifconfig." ++ md.name)

/-- `net_conf`. -/
def netConf : List Bytes :=
  [cstr "/etc/myname", cstr "/etc/mygate", cstr "/etc/ifconfig.eth0", cstr "/etc/ifconfig.eth1",
    cstr "/etc/resolv.conf", cstr "/etc/hosts", cstr "/etc/hosts.allow", cstr "/etc/hosts.deny"]

/-- The services of `hosts.allow`, with what stands behind them. -/
def allowLines (domain : Bytes) : Bytes :=
  let line (service : Bytes) : Bytes := hash :: service ++ cstr ": ." ++ domain ++ [nl]
  line (cstr "ftpd") ++ line (cstr "telnetd") ++ line (cstr "rshd") ++ line (cstr "rlogind")
    ++ line (cstr "rexecd") ++ line (cstr "fingerd") ++ cstr "#identd: ALL\n" ++ line (cstr "tftpd")
    ++ line (cstr "rsync")

/-- The files that `wr_network` writes. -/
def networkFiles (md : Medium) (net : Net) : List Act :=
  [.write (inTarget (cstr "/etc/myname")) (net.hostname ++ [nl]),
    .write (inTarget (cstr "/etc/mygate")) (net.route ++ [nl]),
    .write (ifconfigFile md) (cstr "inet " ++ net.ip ++ cstr " broadcast " ++ net.cast
      ++ cstr " netmask " ++ net.mask ++ [nl]),
    .write (inTarget (cstr "/etc/resolv.conf")) (cstr "domain " ++ net.domain
      ++ cstr "\nnameserver " ++ net.dns ++ cstr "\nsearch " ++ net.domain ++ [nl]),
    .append (inTarget (cstr "/etc/hosts")) (net.ip ++ tab :: (net.hostname ++ cstr "." ++ net.domain
      ++ tab :: (net.hostname ++ [nl]))),
    .write (inTarget (cstr "/etc/hosts.allow")) (allowLines net.domain)]

/-- A file of `net_conf` is copied if it is there. -/
def copyIfThere (file : Bytes) : Prog Unit := do
  if ← isThere file then run (.copyNetwork file)

/-- `wr_network`. -/
def wrNetwork (b : Build) (md : Medium) (net : Net) : Prog Unit := do
  if b.network then
    let _ ← Dialog.forEach (networkFiles md net) printFile
  else
    let _ ← Dialog.forEach netConf copyIfThere

/-! ## The boot loader -/

/-- `do_installboot`. -/
def doInstallboot (name : Bytes) : Prog Unit := do
  run .linkBoot
  run (.installboot name)

/-- `getdevnum`: the number of the letter behind `n` bytes. -/
def getdevnum (signed : Bool) (source : Bytes) (n : ℕ) : Option ℤ :=
  if n ≤ source.length then some (charInt signed ((source.drop n).headD 0) - 97) else none

/-- The lines for the boot loader and for the kernel. -/
def rootLines (disk part : ℤ) (bp : Bytes) : Bytes :=
  cstr "root\t(hd" ++ decInt disk ++ cstr "," ++ decInt part ++ cstr ")\nkernel\t/vmlinuz root=" ++
    bp ++ [nl]

/-- `wr_menulst`. -/
def wrMenulst (b : Build) (bp : Bytes) : Option Bytes :=
  (getdevnum b.signed bp 7).bind fun disk ↦ (getlu bp 8).map fun part ↦
    let release := cstr "SSD/Linux " ++ b.release ++ cstr "/" ++ b.version
    (cstr "# Boot automatically after 30 secs.\ntimeout\t30\n\n"
      ++ cstr "# By default, boot the first entry.\ndefault\t0\n\n"
      ++ cstr "# Fallback to the second entry.\nfallback\t1\n\n"
      ++ cstr "# For booting " ++ release ++ cstr "\ntitle\t" ++ release ++ [nl])
      ++ rootLines disk (part - 1) bp
      ++ (cstr "\n# For booting " ++ release ++ cstr " from FD\ntitle\t" ++ release
      ++ cstr " from FD\nroot\t(fd0)\nkernel\t/bzImage root=/dev/ram\n"
      ++ cstr "pause\tInsert instfs floppy disk and type any key.\ninitrd\t/initrd.fs.gz\n")

/-! ## The other files -/

def menulstFile : Bytes := inTarget (cstr "/boot/grub/menu.lst")

def fstabFile : Bytes := inTarget (cstr "/etc/fstab")

def rcconfFile : Bytes := inTarget (cstr "/etc/rc.conf")

/-- The lines for `rc.conf`. -/
def rcconfLines (b : Build) (pccard dhcp : ℤ) (md : Medium) : Bytes :=
  (if b.pccard = true ∧ pccard ≠ 0 then cstr "pcmcia=YES\n" else [])
    ++ if b.network = true ∧ dhcp ≠ 0 then
      cstr "dhclient=YES\tdhclient_flags=\"-q " ++ md.name ++ cstr "\"\n" else []

/-- `wr_rcconf`. -/
def wrRcconf (b : Build) (pccard dhcp : ℤ) (md : Medium) : Prog Unit := do
  if b.pccard || b.network then printFile (.append rcconfFile (rcconfLines b pccard dhcp md))
  else run .copyRcconf

/-- `do_rminst`. -/
def doRminst (b : Build) (ftp : Ftp) : Prog Unit := do
  if ← isskip b.signed .remove then run (.removeLocal ftp.localDir)

/-- `do_passwd`. -/
def doPasswd (b : Build) : Prog Unit := do
  if ← isskip b.signed .passwd then
    run .passwd
    run (.copyPasswd (cstr "/etc/passwd"))
    run (.copyPasswd (cstr "/etc/shadow"))
    run (.chmodPasswd (cstr "/etc/passwd"))
    run (.chmodPasswd (cstr "/etc/shadow"))

end Sysinst
