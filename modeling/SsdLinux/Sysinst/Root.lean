import SsdLinux.Sysinst.Menu

/-!
# `sysinst`: the root partition

When the user has left the menu, `main` looks for the partition to mount on `/`.
`set_root_partition` takes the first one that is in use and has this mount point, and reports what
it has found in two variables of `main`, `root_pat` and `exist_root`.

* It does not look at `flag_swap`.  A swap partition that comes first has the mount point `/` from
  `pat_array`.
* If it finds nothing, it sets neither variable.  Both are local and have anything in the beginning.
* The arrays of `pat_array` are taken as long enough, which they are for at most 254 partitions
  (`patArrayIn`).

`root_right_iff` says when the decision is right in spite of that.
-/

set_option autoImplicit false

namespace Sysinst

open CLib

/-! ## The decision -/

/-- What `set_root_partition` looks for. -/
def claimsRoot (e : Entry) : Bool := e.mntp == cstr "/" && e.flagAct

/-- The root is not checked at boot. -/
def notChecked (e : Entry) : Entry := { e with fck1 := 0, fck2 := 0 }

/-- `set_root_partition`: what it returns, `*exist_root`, and the table.  The first two are as they
were if it finds nothing. -/
def setRootPartition (j existRoot : ℤ) (pa : List Entry) (numPat : ℕ) : ℤ × ℤ × List Entry :=
  match (pa.take numPat).findIdx? claimsRoot with
  | some i => (i, 1, pa.modify i notChecked)
  | none => (j, existRoot, pa)

/-- How `main` goes on. -/
inductive Start
  | noPartition
  | noRoot
  | install (rootPat : ℤ) (pa : List Entry)

/-- `main` with the table that `set_partition` has left. -/
def decideRoot (j existRoot : ℤ) (pa : List Entry) (numPat : ℕ) : Start :=
  let (rootPat, existRoot, pa) := setRootPartition j existRoot pa numPat
  if existRoot = 0 then .noRoot else .install rootPat pa

/-- `main` from the disks to the test of `exist_root`. -/
def start (signed : Bool) (hd : List Disk) (m j existRoot : ℤ) (input : Bytes) : Option Start :=
  let (numPat, pa, _) := patArray hd
  if numPat = 0 then some .noPartition
  else (setPartition signed pa numPat m input).map fun (pa, _) ↦
    decideRoot j existRoot pa numPat

/-- The table as the user leaves it.  If there are no partitions, he is not asked. -/
def edited (signed : Bool) (hd : List Disk) (m : ℤ) (input : Bytes) : Option (List Entry) :=
  let (numPat, pa, _) := patArray hd
  if numPat = 0 then some pa else (setPartition signed pa numPat m input).map Prod.fst

/-! ## When it is right -/

/-- A partition for `/`. -/
structure Entry.IsRoot (e : Entry) : Prop where
  act : e.flagAct = true
  notSwap : e.flagSwap = false
  mntp : e.mntp = cstr "/"

/-- **The right decision** about the first `num_pat` entries of a table: the installation goes on if
one of them is for `/`, and then with such a partition, which is not checked at boot. -/
structure RootRight (numPat : ℕ) (pa : List Entry) (r : Start) : Prop where
  goesOn : (∃ rootPat pa', r = .install rootPat pa') ↔ ∃ e ∈ pa.take numPat, e.IsRoot
  isRoot : ∀ rootPat pa', r = .install rootPat pa' →
    ∃ i < numPat, rootPat = (i : ℕ) ∧ ∃ e ∈ pa'[i]?, e.IsRoot ∧ e.fck1 = 0 ∧ e.fck2 = 0

/-- The first partition in use with the mount point `/` is not for swap; or there is none, and
`exist_root` happens to be 0. -/
def RootFound (existRoot : ℤ) (pa : List Entry) : Prop :=
  (∀ e ∈ pa.find? claimsRoot, e.flagSwap = false) ∧
    (pa.find? claimsRoot = none → existRoot = 0)

instance decidableRootFound (existRoot : ℤ) (pa : List Entry) :
    Decidable (RootFound existRoot pa) :=
  inferInstanceAs (Decidable (_ ∧ _))

variable {numPat i : ℕ} {pa : List Entry} {e : Entry} {j existRoot : ℤ}

theorem claimsRoot_iff : claimsRoot e = true ↔ e.mntp = cstr "/" ∧ e.flagAct = true := by
  rw [claimsRoot, Bool.and_eq_true, beq_iff_eq]

theorem Entry.IsRoot.claimsRoot (h : e.IsRoot) : claimsRoot e = true :=
  claimsRoot_iff.2 ⟨h.mntp, h.act⟩

/-- The search finds nothing. -/
theorem rootRight_none (h : (pa.take numPat).find? claimsRoot = none) :
    RootRight numPat pa (decideRoot j existRoot pa numPat) ↔ existRoot = 0 := by
  have hnone : ¬∃ e ∈ pa.take numPat, e.IsRoot := by
    rintro ⟨e, he, hroot⟩
    exact List.find?_eq_none.1 h e he hroot.claimsRoot
  have hidx : (pa.take numPat).findIdx? claimsRoot = none := by
    rw [List.findIdx?_eq_none_iff]
    exact fun e he ↦ by simpa using List.find?_eq_none.1 h e he
  rw [decideRoot, setRootPartition, hidx]
  dsimp only
  split_ifs with h0
  · refine iff_of_true ⟨iff_of_false ?_ hnone, ?_⟩ h0
    · rintro ⟨_, _, heq⟩
      cases heq
    · intro _ _ heq
      cases heq
  · exact iff_of_false (fun hr ↦ hnone (hr.goesOn.1 ⟨_, _, rfl⟩)) h0

/-- The search finds a partition. -/
theorem rootRight_some (h : (pa.take numPat).find? claimsRoot = some e) :
    RootRight numPat pa (decideRoot j existRoot pa numPat) ↔ e.flagSwap = false := by
  obtain ⟨hmntp, hact⟩ := claimsRoot_iff.1 (List.find?_some h)
  have hmem := List.mem_of_find?_eq_some h
  have hidx := List.findIdx?_eq_some_of_exists ⟨e, hmem, List.find?_some h⟩
  rw [List.find?_eq_getElem?_findIdx] at h
  rw [decideRoot, setRootPartition, hidx]
  generalize (pa.take numPat).findIdx claimsRoot = i at h ⊢
  have hi : i < numPat := by
    obtain ⟨hi, -⟩ := List.getElem?_eq_some_iff.1 h
    exact (List.length_take ▸ hi).trans_le (Nat.min_le_left _ _)
  rw [List.getElem?_take_of_lt hi] at h
  have hget : (pa.modify i notChecked)[i]? = some (notChecked e) := by
    rw [List.getElem?_modify_eq, h]
    rfl
  dsimp only
  rw [if_neg Int.one_ne_zero]
  constructor
  · intro hright
    obtain ⟨k, -, hk, e', he', hroot, -⟩ := hright.isRoot _ _ rfl
    obtain rfl : i = k := by exact_mod_cast hk
    rw [hget] at he'
    cases he'
    exact hroot.notSwap
  · intro hswap
    refine ⟨iff_of_true ⟨_, _, rfl⟩ ⟨e, hmem, ⟨hact, hswap, hmntp⟩⟩, ?_⟩
    rintro _ _ ⟨⟩
    exact ⟨i, hi, rfl, _, hget, ⟨hact, hswap, hmntp⟩, rfl, rfl⟩

theorem rootRight_iff (numPat : ℕ) (pa : List Entry) (j existRoot : ℤ) :
    RootRight numPat pa (decideRoot j existRoot pa numPat)
      ↔ RootFound existRoot (pa.take numPat) := by
  rw [RootFound]
  cases h : (pa.take numPat).find? claimsRoot with
  | none => simpa using rootRight_none h
  | some e => simpa using rootRight_some h

/-- With a partition, `main` decides on the table that the user leaves. -/
theorem start_of_edited {signed : Bool} {hd : List Disk} {m : ℤ} {input : Bytes}
    (h0 : (patArray hd).1 ≠ 0) (h : edited signed hd m input = some pa) :
    start signed hd m j existRoot input
      = some (decideRoot j existRoot pa (patArray hd).1) := by
  rw [edited] at h
  dsimp only at h
  rw [if_neg h0] at h
  obtain ⟨⟨pa, rest⟩, hset, rfl⟩ := Option.map_eq_some_iff.1 h
  rw [start]
  dsimp only
  rw [if_neg h0, hset]
  rfl

/-- **When the root decision is right**: there is no partition at all, or the first partition in use
with the mount point `/` is not for swap, or there is none and `exist_root` is 0 by chance. -/
theorem root_right_iff (signed : Bool) (hd : List Disk) (m j existRoot : ℤ) (input : Bytes)
    (pa : List Entry) (h : edited signed hd m input = some pa) :
    ∃ r, start signed hd m j existRoot input = some r ∧
      (RootRight (patArray hd).1 pa r ↔
        (patArray hd).1 = 0 ∨ RootFound existRoot (pa.take (patArray hd).1)) := by
  by_cases h0 : (patArray hd).1 = 0
  · refine ⟨.noPartition, if_pos h0, iff_of_true ⟨iff_of_false ?_ ?_, ?_⟩ (Or.inl h0)⟩
    · rintro ⟨_, _, heq⟩
      cases heq
    · rw [h0, List.take_zero]
      rintro ⟨e, he, -⟩
      exact absurd he List.not_mem_nil
    · intro _ _ heq
      cases heq
  · refine ⟨_, start_of_edited h0 h, ?_⟩
    rw [or_iff_right h0]
    exact rootRight_iff _ pa j existRoot

/-- A disk with a swap partition, and a Linux partition behind it. -/
def swapFirst : Disk :=
  ⟨cstr "hda", true, fun k ↦ if k = 1 then 0x82 else if k = 2 then 0x83 else 0, fun _ ↦ 100,
    fun _ ↦ false, length_hda, chars_hda⟩

/-- A disk with a Linux partition. -/
def linuxOnly : Disk :=
  ⟨cstr "hda", true, fun k ↦ if k = 1 then 0x83 else 0, fun _ ↦ 100, fun _ ↦ false, length_hda,
    chars_hda⟩

/-- The user leaves the only partition as it is. -/
theorem root_right_linuxOnly :
    ∃ r, start true [linuxOnly] 0 7 9 (cstr "x\n") = some r ∧
      RootRight (patArray [linuxOnly]).1 (patArray [linuxOnly]).2.1 r := by
  obtain ⟨r, hr, hiff⟩ := root_right_iff true [linuxOnly] 0 7 9 (cstr "x\n")
    (patArray [linuxOnly]).2.1 (by decide +kernel)
  exact ⟨r, hr, hiff.2 (by decide +kernel)⟩

/-- The table of the first disk, with the mount point `/` for both partitions. -/
def twoRoots : List Entry :=
  [{ swapEntry swapFirst 1 with mntp := cstr "/" },
    { linuxEntry swapFirst 2 with mntp := cstr "/", flagAct := true }, procEntry, devptsEntry]

/-- The table of the second disk, with the root out of use. -/
def noRoots : List Entry :=
  [{ linuxEntry linuxOnly 1 with mntp := cstr "/" }, procEntry, devptsEntry]

/-- The user gives the Linux partition the mount point `/`, and the installation goes on with the
swap partition.  Where there is only a Linux partition, he takes it out of use, and the installation
goes on all the same if `exist_root` is not 0. -/
theorem root_not_right :
    (edited true [swapFirst] 0 (cstr "1\nm\n/\nx\nx\n") = some twoRoots ∧
      ∃ r, start true [swapFirst] 0 7 9 (cstr "1\nm\n/\nx\nx\n") = some r ∧
        ¬RootRight 2 twoRoots r) ∧
    (edited true [linuxOnly] 0 (cstr "0\na\nx\nx\n") = some noRoots ∧
      ∃ r, start true [linuxOnly] 0 7 9 (cstr "0\na\nx\nx\n") = some r ∧
        ¬RootRight 1 noRoots r) := by
  have hswap : edited true [swapFirst] 0 (cstr "1\nm\n/\nx\nx\n") = some twoRoots := by
    decide +kernel
  have hlinux : edited true [linuxOnly] 0 (cstr "0\na\nx\nx\n") = some noRoots := by
    decide +kernel
  have htwo : (patArray [swapFirst]).1 = 2 := by decide +kernel
  have hone : (patArray [linuxOnly]).1 = 1 := by decide +kernel
  refine ⟨⟨hswap, _, start_of_edited (by rw [htwo]; decide) hswap, ?_⟩,
    hlinux, _, start_of_edited (by rw [hone]; decide) hlinux, ?_⟩
  · rw [htwo, rootRight_iff]
    decide +kernel
  · rw [hone, rootRight_iff]
    decide +kernel

end Sysinst
