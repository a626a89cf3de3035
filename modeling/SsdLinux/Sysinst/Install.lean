import SsdLinux.Sysinst.Boot
import SsdLinux.Sysinst.Etc
import SsdLinux.Sysinst.Root

/-!
# `sysinst`: the installer

`main` from the disks to the end.  It finds the disks, asks twice whether the user means it, lets
him edit the table, formats and mounts, gets the binaries, sets up the new system and unmounts.

* `Machine` is what the installer reads of the machine, and `Locals` what is in its variables before
  anything is put there.
* `install` is `main` without the last `exit`.  It comes to its end if the program says that the
  installation is complete.
* `pat_array` has a result only if it stays in its arrays, and an index that is out of range has
  none either.
-/

set_option autoImplicit false

namespace Sysinst

open CLib

/-! ## What it begins with -/

/-- What the kernel tells in `/proc`, if it does, and what a command prints. -/
structure Machine where
  /-- `/proc/devices`. -/
  devices : Option Bytes
  /-- `/proc/partitions`. -/
  partitions : Option Bytes
  /-- `/proc/net/dev`. -/
  netDev : Option Bytes
  /-- `/proc/sys/dev/cdrom/info`. -/
  cdromInfo : Option Bytes
  popen : Bytes → Bytes

/-- What is in the variables. -/
structure Locals where
  pccard : ℤ
  dhcp : ℤ
  /-- `m` of `set_partition`. -/
  m : ℤ
  /-- `j` of `set_root_partition`. -/
  rootPat : ℤ
  existRoot : ℤ
  reading : Reading
  net : Net
  /-- The name of an interface, behind its first four bytes. -/
  behind : Bytes
  fresh : ℕ → Fresh

/-! ## The parts of `main` -/

/-- The loop of `rd_partition`, with its commands. -/
def readDisks (popen : Bytes → Bytes) : Reading → List Hd → Prog (List Hd × Reading)
  | r, [] => pure ([], r)
  | r, h :: hd =>
    if h.flagCd then do
      let x ← readDisks popen r hd
      pure (h :: x.1, x.2)
    else do
      run (.fdisk h.disk.name)
      let y ← .ofOption (rdDisk popen h.disk r)
      let x ← readDisks popen y.2 hd
      pure ({ h with disk := y.1 } :: x.1, x.2)

/-- The variable `pccard`. -/
def getPccard (b : Build) (x : Machine) (v : Locals) : Prog ℤ :=
  if b.pccard then probePccard x.devices else pure v.pccard

/-- The disks and the media, and `pccard`. -/
def probe (b : Build) (x : Machine) (v : Locals) : Prog (ℤ × List Medium × List Hd) := do
  let pccard ← getPccard b x v
  let hd ← .ofOption (x.partitions.bind (probeHd v.fresh))
  let found ← .ofOption (probeMd v.behind x.netDev x.cdromInfo hd)
  if found.1 = [] then .exit 1 else pure (pccard, found)

/-- What is known when the user has left the table. -/
structure Chosen where
  numPat : ℕ
  pa : List Entry
  bp : List Boot
  rootPat : ℤ
  actBp : ℕ

/-- The place for the boot block. -/
def chooseBoot (b : Build) (bp : List Boot) : Prog ℕ :=
  if b.installboot then fromStdin (setBootPartition b.signed bp.length) else pure 0

/-- From the table that `pat_array` makes to the boot partition. -/
def choose (b : Build) (v : Locals) (numPat : ℕ) (pa : List Entry) (bp : List Boot) :
    Prog Chosen := do
  let pa ← fromStdin (setPartition b.signed pa numPat v.m)
  let found := setRootPartition v.rootPat v.existRoot pa numPat
  if found.2.1 = 0 then .exit 1
  else
    let actBp ← chooseBoot b bp
    pure ⟨numPat, found.2.2, bp, found.1, actBp⟩

/-- From the messages at the start to the table as the user leaves it. -/
def begin (b : Build) (x : Machine) (v : Locals) (hd : List Hd) : Prog Chosen := do
  startMsg b.signed
  let read ← readDisks x.popen { v.reading with bootableExist := 1 } hd
  if read.2.bootableExist ≠ 0 then .exit 1
  else
    let made ← .ofOption (patArrayIn (read.1.map Hd.disk))
    if made.1 = 0 then .exit 1 else choose b v made.1 made.2.1 made.2.2

/-- The partitions are formatted. -/
def format (b : Build) (t : Chosen) : Prog Unit := do
  if ← isskip b.signed .format then
    disks (runMkswap t.pa t.numPat)
    disks (runMke2fs t.pa t.numPat)

/-- The root partition, and where it is in the table. -/
def Chosen.root? (t : Chosen) : Option (ℕ × Entry) :=
  if 0 ≤ t.rootPat then t.pa[t.rootPat.toNat]?.map fun e ↦ (t.rootPat.toNat, e) else none

/-- The binaries from the CD-ROM. -/
def fromCdrom (b : Build) (md : Medium) (l : List Dist) : Prog Unit := do
  if ← isskip b.signed .fromCdrom then
    let _ ← doExtractFromCdrom b md l

/-- The settings of the network: `dhcp`, and those that are entered. -/
def setUpNetwork (b : Build) (v : Locals) (md : Medium) : Prog (ℤ × Net) :=
  if b.network then do
    let dhcp ← setDhcp b md
    if dhcp = 0 then do
      let net ← fromStdin (setNetwork b.signed v.net)
      doNetwork md net
      pure (dhcp, net)
    else pure (dhcp, v.net)
  else pure (v.dhcp, v.net)

/-- The archives are fetched and unpacked. -/
def fetchAll (b : Build) (ftp : Ftp) (l : List Dist) : Prog Unit := do
  if ← isskip b.signed .fetch then
    doFtp b ftp l
    let _ ← doExtractFromFtp b ftp l

/-- The binaries from the net. -/
def fromNet (b : Build) (v : Locals) (md : Medium) (l : List Dist) : Prog (ℤ × Net × Ftp) := do
  let set ← setUpNetwork b v md
  let ftp ← fromStdin (setFtp b set.2)
  setProxy ftp
  fetchAll b ftp l
  pure (set.1, set.2, ftp)

/-- What is known of the binaries: the medium, `dhcp`, and the settings if they came from the
net. -/
structure Source where
  md : Medium
  dhcp : ℤ
  settings : Option (Net × Ftp)

/-- The binaries. -/
def getBinaries (b : Build) (v : Locals) (media : List Medium) : Prog Source := do
  let l ← fromStdin (setDistributions b.signed (NUM_DIST b) (distList b))
  let act_md ← fromStdin (setInstallMedia b.signed media.length)
  let md ← .ofOption media[act_md]?
  if md.cdrom then
    fromCdrom b md l
    pure ⟨md, v.dhcp, none⟩
  else
    let x ← fromNet b v md l
    pure ⟨md, x.1, some x.2⟩

/-- The boot block. -/
def bootBlock (b : Build) (t : Chosen) : Prog Unit := do
  if b.installboot then
    if ← isskip b.signed .boot then
      let name ← .ofOption (t.bp[t.actBp]?.bind Boot.name)
      doInstallboot name

/-- The menu of the boot loader. -/
def bootMenu (b : Build) (root : Entry) : Prog Unit := do
  if b.grub then
    let text ← .ofOption (wrMenulst b root.name)
    printFile (.write menulstFile text)

/-- The settings are written, if they have been entered. -/
def keepNetwork (b : Build) (x : Source) (net : Net) : Prog Unit :=
  if x.dhcp = 0 then do
    if ← isskip b.signed .network then wrNetwork b x.md net
  else pure ()

/-- What is done at the end if the binaries came from the net. -/
def netFiles (b : Build) (x : Source) : Prog Unit :=
  match x.settings with
  | none => pure ()
  | some (net, ftp) => do
    keepNetwork b x net
    doRminst b ftp

/-- The new system is set up. -/
def configure (b : Build) (pccard : ℤ) (t : Chosen) (root : Entry) (x : Source) : Prog Unit := do
  bootBlock b t
  run .makedev
  bootMenu b root
  printFile (.write fstabFile (wrFstab t.pa t.numPat))
  wrRcconf b pccard x.dhcp x.md
  netFiles b x
  doPasswd b

/-- From the formatting to the end. -/
def fill (b : Build) (v : Locals) (pccard : ℤ) (media : List Medium) (t : Chosen) : Prog Unit := do
  format b t
  let root ← .ofOption t.root?
  disks (doMount t.pa t.numPat root.1)
  let source ← getBinaries b v media
  configure b pccard t root.2 source
  disks (doUmount t.pa t.numPat root.1)

def install (b : Build) (x : Machine) (v : Locals) : Prog Unit := do
  let found ← probe b x v
  let t ← begin b x v found.2.2
  fill b v found.1 found.2.1 t

def main (b : Build) (x : Machine) (v : Locals) : Prog Unit := do
  install b x v
  .exit 0

end Sysinst
