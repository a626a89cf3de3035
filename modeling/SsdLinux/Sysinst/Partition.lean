import SsdLinux.CLib.Bytes
import Mathlib.Data.List.Nodup
import Mathlib.Data.List.FinRange

/-!
# `sysinst`: the table of partitions

The installer finds out which disks there are and what partitions they have (`Disk`), and
`pat_array` makes the table `pa` of them that the user edits.  Swap partitions are for use at once;
a Linux partition has no mount point yet.  Then the first partition *of either kind* becomes the
root, and `/proc` and `/dev/pts` come behind the last one.

* An array of the source is a list, and as long as it gets.  The names have room for 15 bytes.
* `bp` has the places for a boot block.  The one on a disk is named after `hd[i]`, where `i` counts
  the partitions, not the disks.
* The flags are Booleans.  The type of partition 0 is never set, so it is anything.

`entries_eq` says without a loop which partitions are in the table.
-/

set_option autoImplicit false

namespace Sysinst

open CLib

def MAXHDDEV : ℕ := 16
def MAXHDPAT : ℕ := 64
def NAMELEN : ℕ := 16

/-- A name that is printed into an array of `NAMELEN` bytes. -/
def printName (s : Bytes) : Bytes := s.take (NAMELEN - 1)

/-! ## The tables -/

/-- `hd_t`.  The name is a word of three characters, as `probe_hd` takes it. -/
structure Disk where
  name : Bytes
  flagBootable : Bool
  type : ℕ → ℕ
  size : ℕ → ℤ
  bootable : ℕ → Bool
  length_name : name.length = 3
  name_chars : ∀ c ∈ name, c ≠ blank ∧ c ≠ 9 ∧ c ≠ nl

/-- The name of the first disk. -/
theorem length_hda : (cstr "hda").length = 3 := rfl

theorem chars_hda : ∀ c ∈ cstr "hda", c ≠ blank ∧ c ≠ 9 ∧ c ≠ nl := by decide

/-- `pa_t`. -/
structure Entry where
  name : Bytes
  mntp : Bytes
  fst : Bytes
  opt : Bytes
  size : ℤ
  bsize : ℤ
  bootable : Bool
  fck1 : ℤ
  fck2 : ℤ
  flagAct : Bool
  flagCk : Bool
  flagSwap : Bool
  deriving DecidableEq

/-- `bp_t`.  There is no name if it is read from behind the last disk. -/
structure Boot where
  name : Option Bytes
  type : ℕ
  deriving DecidableEq

/-- `EXT2_FS`, which is `DEFAULT_FS` too. -/
def ext2 : Bytes := cstr "ext2"

/-- `EXT3_FS`. -/
def ext3 : Bytes := cstr "ext3"

/-- The partition `k` of a disk. -/
def partName (d : Disk) (k : ℕ) : Bytes := printName (cstr "/dev/" ++ d.name ++ dec k)

def swapEntry (d : Disk) (k : ℕ) : Entry :=
  ⟨partName d k, cstr "swap", cstr "swap", cstr "defaults", d.size k, 0, false, 0, 0, true, false,
    true⟩

def linuxEntry (d : Disk) (k : ℕ) : Entry :=
  ⟨partName d k, [], ext2, cstr "defaults", d.size k, 4096, d.bootable k, 1, 1, false, false, false⟩

def procEntry : Entry :=
  ⟨cstr "none", cstr "/proc", cstr "proc", cstr "defaults", 0, 0, false, 0, 0, true, false, false⟩

def devptsEntry : Entry :=
  ⟨cstr "none", cstr "/dev/pts", cstr "devpts", cstr "gid=4,mode=620", 0, 0, false, 0, 0, true,
    false, false⟩

/-- The arrays that `pat_array` fills. -/
structure Arrays where
  pa : List Entry
  bp : List Boot

/-- One round of the inner loop. -/
def addPart (d : Disk) (t : Arrays) (k : ℕ) : Arrays :=
  if d.type k = 0x82 then { t with pa := t.pa ++ [swapEntry d k] }
  else if d.type k = 0x83 ∨ d.type k = 0x85 then
    { pa := t.pa ++ [linuxEntry d k]
      bp := if d.bootable k then t.bp ++ [⟨some (partName d k), 1⟩] else t.bp }
  else t

/-- `hd[i]->name`.  Behind the disks that there are, the names are empty. -/
def hdName (hd : List Disk) (i : ℕ) : Option Bytes :=
  match hd[i]? with
  | some d => some d.name
  | none => if i < MAXHDDEV then some [] else none

/-- One round of the outer loop. -/
def addDisk (hd : List Disk) (t : Arrays) (d : Disk) : Arrays :=
  let t := if d.flagBootable then
    { t with bp := t.bp ++ [⟨(hdName hd t.pa.length).map fun name ↦
        printName (cstr "/dev/" ++ name), 0⟩] }
    else t
  (List.range MAXHDPAT).foldl (addPart d) t

/-- `pa[0]` is the root, whatever it is. -/
def rootFirst : List Entry → List Entry
  | [] => []
  | e :: pa => { e with mntp := cstr "/", flagAct := true } :: pa

/-- `pat_array`: the number of partitions, `pa` and `bp`. -/
def patArray (hd : List Disk) : ℕ × List Entry × List Boot :=
  let t := hd.foldl (addDisk hd) ⟨[], []⟩
  (t.pa.length, rootFirst t.pa ++ [procEntry, devptsEntry], t.bp)

/-! ## What is in the table -/

/-- The entry of a partition, if it gets any. -/
def entry (d : Disk) (k : ℕ) : Option Entry :=
  if d.type k = 0x82 then some (swapEntry d k)
  else if d.type k = 0x83 ∨ d.type k = 0x85 then some (linuxEntry d k)
  else none

/-- The partitions of all disks. -/
def entries (hd : List Disk) : List Entry :=
  hd.flatMap fun d ↦ (List.range MAXHDPAT).filterMap (entry d)

theorem pa_addPart (d : Disk) (t : Arrays) (k : ℕ) :
    (addPart d t k).pa = t.pa ++ (entry d k).toList := by
  rw [addPart, entry]
  by_cases hswap : d.type k = 0x82
  · rw [if_pos hswap, if_pos hswap]
    rfl
  by_cases hlinux : d.type k = 0x83 ∨ d.type k = 0x85
  · rw [if_neg hswap, if_neg hswap, if_pos hlinux, if_pos hlinux]
    rfl
  · rw [if_neg hswap, if_neg hswap, if_neg hlinux, if_neg hlinux]
    exact (List.append_nil _).symm

theorem pa_foldl_addPart (d : Disk) (ks : List ℕ) (t : Arrays) :
    (ks.foldl (addPart d) t).pa = t.pa ++ ks.filterMap (entry d) := by
  induction ks generalizing t with
  | nil => exact (List.append_nil _).symm
  | cons k ks ih =>
    rw [List.foldl_cons, ih, pa_addPart, List.append_assoc]
    cases h : entry d k with
    | none => rw [List.filterMap_cons_none h]; rfl
    | some e => rw [List.filterMap_cons_some h]; rfl

theorem pa_addDisk (hd : List Disk) (t : Arrays) (d : Disk) :
    (addDisk hd t d).pa = t.pa ++ (List.range MAXHDPAT).filterMap (entry d) := by
  rw [addDisk, pa_foldl_addPart]
  split_ifs <;> rfl

theorem pa_foldl_addDisk (hd : List Disk) (ds : List Disk) (t : Arrays) :
    (ds.foldl (addDisk hd) t).pa
      = t.pa ++ ds.flatMap fun d ↦ (List.range MAXHDPAT).filterMap (entry d) := by
  induction ds generalizing t with
  | nil => exact (List.append_nil _).symm
  | cons d ds ih =>
    rw [List.foldl_cons, ih, pa_addDisk, List.append_assoc, List.flatMap_cons]

/-- **The table**: the partitions of all disks with the first one as the root, `/proc` and
`/dev/pts`. -/
theorem entries_eq (hd : List Disk) : (patArray hd).1 = (entries hd).length ∧
    (patArray hd).2.1 = rootFirst (entries hd) ++ [procEntry, devptsEntry] := by
  have h := pa_foldl_addDisk hd hd ⟨[], []⟩
  rw [List.nil_append] at h
  rw [patArray, h]
  exact ⟨rfl, rfl⟩

theorem length_rootFirst (pa : List Entry) : (rootFirst pa).length = pa.length := by
  cases pa <;> rfl

theorem map_name_rootFirst (pa : List Entry) :
    (rootFirst pa).map Entry.name = pa.map Entry.name := by
  cases pa <;> rfl

/-! ## Names -/

/-- The disks of a machine, which have names of their own. -/
structure Layout where
  disks : List Disk
  distinct : (disks.map Disk.name).Nodup

theorem name_entry {d : Disk} {k : ℕ} {e : Entry} (h : e ∈ entry d k) : e.name = partName d k := by
  rw [entry] at h
  split_ifs at h
  · cases h
    rfl
  · cases h
    rfl
  · cases h

/-- A name fits. -/
theorem partName_eq (d : Disk) {k : ℕ} (hk : k < MAXHDPAT) :
    partName d k = cstr "/dev/" ++ (d.name ++ dec k) := by
  have hdec : ∀ k < MAXHDPAT, (dec k).length ≤ 2 := by decide +kernel
  have hdev : (cstr "/dev/").length = 5 := rfl
  rw [partName, printName, List.append_assoc, List.take_of_length_le]
  have := hdec k hk
  rw [List.length_append, List.length_append, hdev, d.length_name, NAMELEN]
  omega

/-- The name says which disk it is, and which partition. -/
theorem partName_inj {d d' : Disk} {k k' : ℕ} (hk : k < MAXHDPAT) (hk' : k' < MAXHDPAT)
    (h : partName d k = partName d' k') : d.name = d'.name ∧ k = k' := by
  rw [partName_eq d hk, partName_eq d' hk', List.append_cancel_left_eq] at h
  obtain ⟨hname, hdec⟩ := List.append_inj h (d.length_name.trans d'.length_name.symm)
  exact ⟨hname, dec_injective hdec⟩

/-- The entry of a partition of a disk has the name of that partition. -/
theorem mem_names {d : Disk} {b : Bytes}
    (h : b ∈ ((List.range MAXHDPAT).filterMap (entry d)).map Entry.name) :
    ∃ k < MAXHDPAT, b = partName d k := by
  obtain ⟨e, he, rfl⟩ := List.mem_map.1 h
  obtain ⟨k, hk, hentry⟩ := List.mem_filterMap.1 he
  exact ⟨k, List.mem_range.1 hk, name_entry hentry⟩

/-- No two partitions have the same name. -/
theorem nodup_names (l : Layout) : ((entries l.disks).map Entry.name).Nodup := by
  rw [entries, List.map_flatMap, List.nodup_flatMap]
  refine ⟨fun d _ ↦ ?_, (List.pairwise_map.1 l.distinct).imp fun {d d'} hne b hb hb' ↦ ?_⟩
  · rw [List.map_filterMap, List.Nodup, List.pairwise_filterMap]
    refine List.Pairwise.imp_of_mem (fun hk hk' hne b hb b' hb' heq ↦ hne ?_) List.nodup_range
    obtain ⟨e, he, rfl⟩ := Option.map_eq_some_iff.1 hb
    obtain ⟨e', he', rfl⟩ := Option.map_eq_some_iff.1 hb'
    rw [name_entry he, name_entry he'] at heq
    exact (partName_inj (List.mem_range.1 hk) (List.mem_range.1 hk') heq).2
  · obtain ⟨k, hk, rfl⟩ := mem_names hb
    obtain ⟨k', hk', heq⟩ := mem_names hb'
    exact hne (partName_inj hk hk' heq).1

end Sysinst
