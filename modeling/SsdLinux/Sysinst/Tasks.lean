import SsdLinux.Dialog
import SsdLinux.Sysinst.Commands
import SsdLinux.Sysinst.Getarg

/-!
# `sysinst`: what the installer does

The installer is a program that asks, runs commands and writes files.  An `Act` is one thing of
these: an answer that it gets to a question, a command (`Task`), a look whether a file is there, or
a file that is written.  `Prog` are the parts of the installer.

* What comes from `Outside` is the standard input, and which of the calls succeed.  A call is one of
  `system`, `popen`, `stat` and `fopen`.
* If a command cannot be started the installer ends.  If a file cannot be opened for writing, it
  writes to a null pointer, and nothing is known from there on.
* A command is printed into an array of `BUFSIZ` bytes, and only the first 8191 bytes of it are run.

What is shown to the user is left out.
-/

set_option autoImplicit false

namespace Sysinst

open CLib

/-! ## Builds -/

/-- What is chosen when the installer is compiled. -/
structure Build where
  /-- `PROBE_PCCARD`. -/
  pccard : Bool
  /-- `INSTALLBOOT`. -/
  installboot : Bool
  /-- `HAVE_GRUB`. -/
  grub : Bool
  /-- `CONF_NETWORK`. -/
  network : Bool
  /-- `HAVE_KERNEL`. -/
  kernel : Bool
  /-- `HAVE_CONTRIB`. -/
  contrib : Bool
  /-- Whether a `char` has a sign. -/
  signed : Bool
  /-- `SSDRELEASENAME`. -/
  release : Bytes
  /-- `KERNEL_VERSION`. -/
  version : Bytes
  /-- `DIST_ARCH`. -/
  arch : Bytes

/-- `CDROM_MOUNT_POINT`. -/
def cdrom : Bytes := cstr "/cdrom"

/-- What is printed into an array of `BUFSIZ` bytes. -/
def printBuf (s : Bytes) : Bytes := s.take (BUFSIZ - 1)

/-! ## Questions and tasks -/

/-- The questions that are answered with `y`. -/
inductive Question
  | sure
  | really
  /-- "Taking mkswap and mke2fs." -/
  | format
  /-- "Extract binaries from CDROM." -/
  | fromCdrom
  /-- "Using DHCP client on". -/
  | dhcp
  /-- "Start fetch binaries and extract." -/
  | fetch
  /-- "Install boot block." -/
  | boot
  /-- "Write entered network parameters to /etc." -/
  | network
  | remove
  /-- "Set root passwd". -/
  | passwd
  deriving DecidableEq

/-- The commands that are run. -/
inductive Task
  | cardmgr
  | fdisk (name : Bytes)
  /-- What is done with the partitions. -/
  | disk (c : Command)
  | mountCdrom (name : Bytes)
  | umountCdrom
  /-- `tar` on an archive of the CD-ROM, or on one that has been fetched. -/
  | untar (fromCdrom : Bool) (archive : Bytes)
  | dhclient (name : Bytes)
  | ifconfig (name ip cast mask : Bytes)
  | route (gateway : Bytes)
  | proxy (url : Bytes)
  | makeLocal (dir : Bytes)
  | fetch (dir login word server remote name : Bytes)
  | linkBoot
  | installboot (name : Bytes)
  | makedev
  | copyRcconf
  /-- A file of `net_conf`. -/
  | copyNetwork (file : Bytes)
  | removeLocal (dir : Bytes)
  | passwd
  | copyPasswd (file : Bytes)
  | chmodPasswd (file : Bytes)
  deriving DecidableEq

/-- The text of a command. -/
def Task.text : Task → Bytes
  | cardmgr => cstr "/sbin/cardmgr"
  | fdisk name => printBuf (cstr "/sbin/fdisk -l /dev/" ++ name)
  | disk c => c.text
  | mountCdrom name => printBuf (cstr "/sbin/mount -rt iso9660 " ++ name ++ blank :: cdrom)
  | umountCdrom => cstr "/sbin/umount " ++ cdrom
  | untar _ archive => printBuf (cstr "cd " ++ target ++ cstr " && /usr/bin/tar xvpzf " ++ archive)
  | dhclient name => printBuf (cstr "/sbin/dhclient -q " ++ name)
  | ifconfig name ip cast mask => printBuf (cstr "/sbin/ifconfig " ++ name ++ cstr " inet " ++ ip
      ++ cstr " broadcast " ++ cast ++ cstr " netmask " ++ mask)
  | route gateway =>
    printBuf (cstr "/sbin/route add defualt gw " ++ gateway ++ cstr " 0.0.0.0 metric 1")
  | proxy url => printBuf (cstr "set ftp_proxy=" ++ url ++ cstr " && export ftp_proxy")
  | makeLocal dir => printBuf (cstr "/bin/mkdir -p " ++ target ++ dir)
  | fetch dir login word server remote name => printBuf (cstr "cd " ++ target ++ dir
      ++ cstr " && /usr/bin/ftp ftp://" ++ login ++ cstr ":" ++ word ++ cstr "@" ++ server
      ++ remote ++ cstr "/" ++ name ++ cstr ".tgz")
  | linkBoot => cstr "ln -sf " ++ target ++ cstr "/boot /boot"
  | installboot name =>
    cstr "/usr/mdec/installboot --root-directory=" ++ target ++ blank :: name
  | makedev => cstr "cd " ++ target ++ cstr "/dev && " ++ target ++ cstr "/dev/MAKEDEV generic"
  | copyRcconf => cstr "/bin/cp /etc/rc.conf " ++ target ++ cstr "/etc/rc.conf"
  | copyNetwork file => cstr "/bin/cp " ++ file ++ blank :: (target ++ file)
  | removeLocal dir => printBuf (cstr "/bin/rm -rf " ++ target ++ dir)
  | passwd => cstr "/usr/bin/passwd"
  | copyPasswd file => cstr "/bin/cp " ++ file ++ blank :: (target ++ file)
  | chmodPasswd file => cstr "/bin/chmod 600 " ++ target ++ file

/-- What passes between the installer and the world. -/
inductive Act
  | answer (q : Question) (c : ℤ)
  | task (t : Task)
  | stat (path : Bytes) (found : Bool)
  | write (path text : Bytes)
  | append (path text : Bytes)
  deriving DecidableEq

/-! ## Parts of the installer -/

/-- What the installer gets. -/
structure Outside where
  stdin : Bytes
  /-- Which of the calls succeed, one after the other.  All that come later do. -/
  calls : List Bool
  deriving DecidableEq

/-- A part of the installer. -/
abbrev Prog : Type → Type := Dialog Act Outside

/-- Something is read from the standard input. -/
def fromStdin {α : Type} (f : Bytes → Option (α × Bytes)) : Prog α :=
  .take fun s ↦ (f s.stdin).map fun x ↦ (x.1, { s with stdin := x.2 })

/-- Whether the next call succeeds. -/
def succeeds : Prog Bool :=
  .take fun s ↦ some (s.calls.headD true, { s with calls := s.calls.tail })

/-- What comes of a command that cannot be started.  `rd_partition` reads from `fdisk` in any case,
and `run_mkswap` writes to a file that it may not have opened. -/
def Task.failed : Task → Prog Unit
  | fdisk _ | disk (.addSwap _) => .ofOption none
  | _ => .exit 1

/-- `s_system` and `s_popen`, and `popen`. -/
def run (t : Task) : Prog Unit := do
  .act (.task t)
  if ← succeeds then pure () else t.failed

/-- Whether a file is there, or can be opened for reading. -/
def isThere (path : Bytes) : Prog Bool := do
  let found ← succeeds
  .act (.stat path found)
  pure found

/-- A file is opened, and written as `file` says. -/
def printFile (file : Act) : Prog Unit := do
  if ← succeeds then .act file else .ofOption none

/-- Commands for the partitions. -/
def disks (cs : List Command) : Prog Unit := do
  let _ ← Dialog.forEach cs fun c ↦ run (.disk c)

/-- The answer to a question. -/
def ask (signed : Bool) (q : Question) : Prog ℤ := do
  let c ← fromStdin (getanswer signed)
  .act (.answer q c)
  pure c

/-- `isexit`. -/
def isexit (signed : Bool) (q : Question) : Prog Unit := do
  if (← ask signed q) ≠ 121 then .exit 0

/-- `isskip`. -/
def isskip (signed : Bool) (q : Question) : Prog Bool := do
  pure (decide ((← ask signed q) = 121))

/-! ## What they come to -/

variable {s rest : Outside} {t : List Act} {task : Task} {path : Bytes} {found : Bool}

theorem failed_ne_value : task.failed s ≠ (t, .value () rest) := by
  intro h
  rw [Task.failed.eq_def] at h
  split at h <;> cases h

/-- A command that could be started. -/
theorem run_value (h : run task s = (t, .value () rest)) : t = [.task task] := by
  obtain ⟨t₁, ⟨⟩, mid, t₂, hact, hrest, rfl⟩ := Dialog.bind_eq_value_iff.1 h
  obtain ⟨t₃, ok, mid', t₄, hok, hend, rfl⟩ := Dialog.bind_eq_value_iff.1 hrest
  cases hact
  cases hok
  split at hend
  · cases hend
    rfl
  · exact absurd hend failed_ne_value

theorem isThere_value (h : isThere path s = (t, .value found rest)) : t = [.stat path found] := by
  cases h
  rfl

/-- `start_msg`. -/
def startMsg (signed : Bool) : Prog Unit := do
  isexit signed .sure
  isexit signed .really

end Sysinst
