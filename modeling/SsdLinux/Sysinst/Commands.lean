import SsdLinux.Sysinst.Partition

/-!
# `sysinst`: what is done with the table

The functions that go through the table when the user has left it: `run_mkswap` and `run_mke2fs`
format the partitions, `do_mount` and `do_umount` mount and unmount them below `/mnt`, and
`wr_fstab` writes the file that the new system will mount them by.

All of them leave out what is not in use.  The first four run commands (`Command.text`), and
`run_mkswap` also adds lines to `/etc/fstab`, for `swapon`.  A command that fails does not stop the
installer.
-/

set_option autoImplicit false

namespace Sysinst

open CLib

/-! ## Commands -/

/-- `TARGET_MOUNT_POINT`. -/
def target : Bytes := cstr "/mnt"

/-- What the functions do one after the other. -/
inductive Command
  | mkswap (ck : Bool) (name : Bytes)
  /-- A line of `/etc/fstab`, not a command. -/
  | addSwap (name : Bytes)
  | swapon
  | mke2fs (journal ck : Bool) (bsize : ℤ) (name : Bytes)
  | mount (fst name dir : Bytes)
  | mkdir (dir : Bytes)
  | mkdirParents (dir : Bytes)
  | chmod (dir : Bytes)
  | tmpdir (dir : Bytes)
  | umount (dir : Bytes)
  deriving DecidableEq

/-- `FSCKOPT`. -/
def fsckOpt (ck : Bool) : Bytes := if ck then cstr "-c" else []

/-- The text of a command, or of the line. -/
def Command.text : Command → Bytes
  | mkswap ck name => cstr "/sbin/mkswap " ++ fsckOpt ck ++ cstr " " ++ name
  | addSwap name => name ++ cstr " swap swap defaults 0 0\n"
  | swapon => cstr "/sbin/swapon -a"
  | mke2fs journal ck bsize name => cstr "/sbin/mke2fs " ++ (if journal then cstr "-j " else [])
      ++ fsckOpt ck ++ cstr " -b " ++ decInt bsize ++ cstr " " ++ name
  | mount fst name dir => cstr "/sbin/mount -t " ++ fst ++ cstr " " ++ name ++ cstr " " ++ dir
  | mkdir dir => cstr "/bin/mkdir " ++ dir
  | mkdirParents dir => cstr "/bin/mkdir -p " ++ dir
  | chmod dir => cstr "/bin/chmod 1777 " ++ dir
  | tmpdir dir => cstr "TMPDIR=" ++ dir ++ cstr " && export TMPDIR"
  | umount dir => cstr "/sbin/umount " ++ dir

/-! ## Formatting -/

def runMkswap (pa : List Entry) (numPat : ℕ) : List Command :=
  ((pa.take numPat).flatMap fun e ↦
    if e.flagAct && e.flagSwap then [.mkswap e.flagCk e.name, .addSwap e.name] else [])
  ++ [.swapon]

def runMke2fs (pa : List Entry) (numPat : ℕ) : List Command :=
  (pa.take numPat).flatMap fun e ↦
    if e.flagAct && !e.flagSwap then
      [if e.fst = ext2 then .mke2fs false e.flagCk e.bsize e.name
        else .mke2fs true e.flagCk e.bsize e.name]
    else []

/-! ## Mounting -/

/-- The entries that the loops of `do_mount` and `do_umount` do something about.  The root is
mounted before. -/
def mounted (pa : List Entry) (numPat rootPat : ℕ) : List Entry :=
  ((pa.take numPat).zipIdx.filter fun (e, i) ↦ i != rootPat && e.flagAct && !e.flagSwap).map
    Prod.fst

def doMount (pa : List Entry) (numPat rootPat : ℕ) : List Command :=
  match pa[rootPat]? with
  | none => []
  | some root =>
    [.mount root.fst root.name target, .mkdir (target ++ cstr "/tmp"),
      .chmod (target ++ cstr "/tmp"), .tmpdir (target ++ cstr "/tmp")]
    ++ (mounted pa numPat rootPat).flatMap fun e ↦
      [.mkdirParents (target ++ e.mntp), .mount e.fst e.name (target ++ cstr "/" ++ e.mntp)]

def doUmount (pa : List Entry) (numPat rootPat : ℕ) : List Command :=
  ((mounted pa numPat rootPat).map fun e ↦ .umount (target ++ cstr "/" ++ e.mntp))
  ++ [.tmpdir (cstr "/tmp"), .umount target]

/-! ## The file -/

/-- A line of `fstab`, without its newline. -/
def fstabLine (e : Entry) : Bytes :=
  e.name ++ 9 :: (e.mntp ++ 9 :: (e.fst ++ 9 :: (e.opt ++ 9 :: (decInt e.fck1 ++ blank ::
    decInt e.fck2))))

/-- `wr_fstab`, which takes the two entries behind the partitions too. -/
def wrFstab (pa : List Entry) (numPat : ℕ) : Bytes :=
  (((pa.take (numPat + 2)).filter Entry.flagAct).map fun e ↦ fstabLine e ++ [nl]).flatten

end Sysinst
