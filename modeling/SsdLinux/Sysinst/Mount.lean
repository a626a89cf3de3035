import SsdLinux.Words
import SsdLinux.Nesting
import SsdLinux.Sysinst.Commands

/-!
# `sysinst`: mounting and unmounting

`do_mount` mounts the root, and then every other file system in the order of the partitions.  A file
system must be mounted after the one that its mount point is on, or it is hidden by it; and it must
be unmounted before that one, which is busy until then.

`do_umount` takes the same order as `do_mount`.  So neither of them can be right about two
partitions inside each other unless the other one is wrong, and `mounts_right_iff` says that nesting
below the root is all that goes wrong.

A mount point is a list of names here, as it is spelled.
-/

set_option autoImplicit false

namespace Sysinst

open CLib Nesting

/-! ## What should be done -/

/-- The names on the way to a mount point. -/
def Entry.dir (e : Entry) : List Bytes := Words.split (· == slash) e.mntp

/-- A partition that is mounted. -/
def Entry.Mountable (e : Entry) : Prop := e.flagAct = true ∧ e.flagSwap = false

instance decidableMountable (e : Entry) : Decidable e.Mountable :=
  inferInstanceAs (Decidable (_ ∧ _))

/-- The partitions that are mounted. -/
def mountables (pa : List Entry) (numPat : ℕ) : List Entry :=
  (pa.take numPat).filter fun e ↦ decide e.Mountable

/-- A table with a root, in which no mount point is entered twice. -/
structure MountTable (pa : List Entry) (numPat rootPat : ℕ) (root : Entry) : Prop where
  lt : rootPat < numPat
  get : pa[rootPat]? = some root
  mountable : root.Mountable
  mntp : root.mntp = cstr "/"
  distinct : ∀ i < numPat, ∀ k < numPat, ∀ a ∈ pa[i]?, ∀ b ∈ pa[k]?,
    a.Mountable ∧ b.Mountable → a.mntp = b.mntp → i = k

/-- Where a partition is mounted. -/
def mountDir (root e : Entry) : Bytes :=
  if e = root then target else target ++ cstr "/" ++ e.mntp

/-- The command that mounts a partition. -/
def mountOf (root e : Entry) : Command := .mount e.fst e.name (mountDir root e)

/-- The command that unmounts it. -/
def umountOf (root e : Entry) : Command := .umount (mountDir root e)

/-- **The order respects the tree.** -/
structure MountsRight (pa : List Entry) (numPat rootPat : ℕ) (root : Entry) : Prop where
  all : ∀ e ∈ mountables pa numPat, mountOf root e ∈ doMount pa numPat rootPat ∧
    umountOf root e ∈ doUmount pa numPat rootPat
  mount : ∀ a ∈ mountables pa numPat, ∀ b ∈ mountables pa numPat,
    Nearest Entry.dir (mountables pa numPat) a b →
      Precedes (doMount pa numPat rootPat) (mountOf root a) (mountOf root b) ∧
      Precedes (doMount pa numPat rootPat) (mountOf root a) (.mkdirParents (target ++ b.mntp))
  umount : ∀ a ∈ mountables pa numPat, ∀ b ∈ mountables pa numPat, Above Entry.dir a b →
    Precedes (doUmount pa numPat rootPat) (umountOf root b) (umountOf root a)

/-! ## The partitions besides the root -/

variable {pa : List Entry} {numPat rootPat : ℕ} {root e a b : Entry}

theorem getElem?_take_eq_some {i : ℕ} :
    (pa.take numPat)[i]? = some e ↔ i < numPat ∧ pa[i]? = some e := by
  rw [List.getElem?_take]
  split_ifs with h
  · exact (and_iff_right h).symm
  · exact iff_of_false (by simp) fun hi ↦ h hi.1

theorem mem_mountables : e ∈ mountables pa numPat ↔
    ∃ i < numPat, pa[i]? = some e ∧ e.Mountable := by
  rw [mountables, List.mem_filter, decide_eq_true_iff, List.mem_iff_getElem?]
  simp only [getElem?_take_eq_some, ← and_assoc, exists_and_right]

/-- An entry that a loop does something about, with its place. -/
theorem mem_mounted : e ∈ mounted pa numPat rootPat ↔
    ∃ i < numPat, pa[i]? = some e ∧ i ≠ rootPat ∧ e.Mountable := by
  rw [mounted, List.mem_map]
  constructor
  · rintro ⟨⟨e, i⟩, hmem, rfl⟩
    obtain ⟨hz, hf⟩ := List.mem_filter.1 hmem
    obtain ⟨hi, hget⟩ := getElem?_take_eq_some.1 (List.mem_zipIdx_iff_getElem?.1 hz)
    simp only [Bool.and_eq_true, bne_iff_ne, Bool.not_eq_true'] at hf
    exact ⟨i, hi, hget, hf.1.1, hf.1.2, hf.2⟩
  · rintro ⟨i, hi, hget, hne, hact, hswap⟩
    refine ⟨(e, i), List.mem_filter.2 ⟨?_, ?_⟩, rfl⟩
    · exact List.mem_zipIdx_iff_getElem?.2 (getElem?_take_eq_some.2 ⟨hi, hget⟩)
    · simp only [Bool.and_eq_true, bne_iff_ne, Bool.not_eq_true']
      exact ⟨⟨hne, hact⟩, hswap⟩

/-- The loops leave out the root and nothing else. -/
theorem MountTable.mem_mounted_iff (h : MountTable pa numPat rootPat root) :
    e ∈ mounted pa numPat rootPat ↔ e ∈ mountables pa numPat ∧ e ≠ root := by
  rw [mem_mounted, mem_mountables]
  constructor
  · rintro ⟨i, hi, hget, hne, hm⟩
    refine ⟨⟨i, hi, hget, hm⟩, ?_⟩
    rintro rfl
    exact hne (h.distinct i hi rootPat h.lt e hget e h.get ⟨hm, hm⟩ rfl)
  · rintro ⟨⟨i, hi, hget, hm⟩, hne⟩
    refine ⟨i, hi, hget, ?_, hm⟩
    rintro rfl
    exact hne (Option.some.inj (hget.symm.trans h.get))

/-- The mount point says which partition it is. -/
theorem MountTable.eq_of_mntp (h : MountTable pa numPat rootPat root)
    (ha : a ∈ mountables pa numPat) (hb : b ∈ mountables pa numPat) (heq : a.mntp = b.mntp) :
    a = b := by
  obtain ⟨i, hi, hgeta, hma⟩ := mem_mountables.1 ha
  obtain ⟨k, hk, hgetb, hmb⟩ := mem_mountables.1 hb
  obtain rfl := h.distinct i hi k hk a hgeta b hgetb ⟨hma, hmb⟩ heq
  exact Option.some.inj (hgeta.symm.trans hgetb)

/-- Nothing is above the root. -/
theorem MountTable.not_above_root (h : MountTable pa numPat rootPat root) (a : Entry) :
    ¬Above Entry.dir a root := by
  intro habove
  have hlt := habove.length_lt
  have hdir : root.dir = [] := by
    rw [Entry.dir, h.mntp]
    decide +kernel
  rw [hdir] at hlt
  exact absurd hlt (Nat.not_lt_zero _)

/-! ## Commands -/

theorem mountOf_of_ne (h : e ≠ root) :
    mountOf root e = .mount e.fst e.name (target ++ cstr "/" ++ e.mntp) := by
  rw [mountOf, mountDir, if_neg h]

theorem umountOf_of_ne (h : e ≠ root) :
    umountOf root e = .umount (target ++ cstr "/" ++ e.mntp) := by
  rw [umountOf, mountDir, if_neg h]

/-- The commands for the root that `do_mount` begins with. -/
def rootCommands (root : Entry) : List Command :=
  [mountOf root root, .mkdir (target ++ cstr "/tmp"), .chmod (target ++ cstr "/tmp"),
    .tmpdir (target ++ cstr "/tmp")]

/-- The commands of the loop in `do_mount`. -/
def mountCommands (e : Entry) : List Command :=
  [.mkdirParents (target ++ e.mntp), .mount e.fst e.name (target ++ cstr "/" ++ e.mntp)]

/-- The command of the loop in `do_umount`. -/
def umountCommands (e : Entry) : List Command := [.umount (target ++ cstr "/" ++ e.mntp)]

theorem MountTable.doMount_eq (h : MountTable pa numPat rootPat root) :
    doMount pa numPat rootPat
      = rootCommands root ++ ((mounted pa numPat rootPat).flatMap mountCommands ++ []) := by
  rw [doMount, h.get, rootCommands, mountOf, mountDir, if_pos rfl, List.append_nil]
  rfl

theorem doUmount_eq (pa : List Entry) (numPat rootPat : ℕ) (root : Entry) :
    doUmount pa numPat rootPat = [] ++ ((mounted pa numPat rootPat).flatMap umountCommands
      ++ [.tmpdir (cstr "/tmp"), umountOf root root]) := by
  rw [doUmount, umountOf, mountDir, if_pos rfl, List.nil_append, List.map_eq_flatMap]
  rfl

/-- The root is mounted elsewhere. -/
theorem target_ne (e : Entry) : target ++ cstr "/" ++ e.mntp ≠ target := by
  intro heq
  have hlen := congrArg List.length heq
  have hslash : (cstr "/").length = 1 := rfl
  rw [List.length_append, List.length_append, hslash] at hlen
  omega

theorem mountOf_not_mem (h : e ≠ root) : mountOf root e ∉ rootCommands root := by
  intro hmem
  rw [mountOf_of_ne h, rootCommands, mountOf, mountDir, if_pos rfl] at hmem
  rcases List.mem_cons.1 hmem with heq | hmem
  · exact target_ne e (Command.mount.inj heq).2.2
  · simp at hmem

section

variable (h : MountTable pa numPat rootPat root)
include h

theorem MountTable.mem_mountables (he : e ∈ mounted pa numPat rootPat) :
    e ∈ mountables pa numPat ∧ e ≠ root :=
  h.mem_mounted_iff.1 he

theorem MountTable.eq_of_mountDir (ha : a ∈ mounted pa numPat rootPat)
    (hb : b ∈ mounted pa numPat rootPat)
    (heq : target ++ cstr "/" ++ a.mntp = target ++ cstr "/" ++ b.mntp) : a = b :=
  h.eq_of_mntp (h.mem_mountables ha).1 (h.mem_mountables hb).1 (List.append_cancel_left heq)

/-- **Nesting below the root goes wrong.** -/
theorem MountTable.antichain (hr : MountsRight pa numPat rootPat root) :
    ∀ a ∈ mounted pa numPat rootPat, ∀ b ∈ mounted pa numPat rootPat,
      ¬Above Entry.dir a b := by
  refine antichain_of_walk (fun a ha b hb hnear ↦ ?_) fun a ha b hb habove ↦ ?_
  · obtain ⟨hma, hna⟩ := h.mem_mountables ha
    obtain ⟨hmb, hnb⟩ := h.mem_mountables hb
    have hnear' : Nearest Entry.dir (mountables pa numPat) a b := by
      refine ⟨hnear.1, fun c hc hmid ↦ hnear.2 c (h.mem_mounted_iff.2 ⟨hc, ?_⟩) hmid⟩
      rintro rfl
      exact h.not_above_root a hmid.1
    have hprec := (hr.mount a hma b hmb hnear').1
    rw [h.doMount_eq] at hprec
    refine hprec.of_flatMap ?_ (mountOf_not_mem hna) (fun e he hmem ↦ ?_) ?_
    · rw [mountOf_of_ne hnb]
      exact List.mem_cons_of_mem _ List.mem_cons_self
    · rw [mountOf_of_ne hna] at hmem
      rcases List.mem_pair.1 hmem with heq | heq
      · cases heq
      · exact h.eq_of_mountDir he ha (Command.mount.inj heq).2.2.symm
    · rintro rfl
      exact hnear.1.2 rfl
  · obtain ⟨hma, hna⟩ := h.mem_mountables ha
    obtain ⟨hmb, hnb⟩ := h.mem_mountables hb
    have hprec := hr.umount a hma b hmb habove
    rw [doUmount_eq pa numPat rootPat root] at hprec
    refine hprec.of_flatMap ?_ List.not_mem_nil (fun e he hmem ↦ ?_) ?_
    · rw [umountOf_of_ne hna]
      exact List.mem_cons_self
    · rw [umountOf_of_ne hnb] at hmem
      exact h.eq_of_mountDir he hb (Command.umount.inj (List.mem_singleton.1 hmem)).symm
    · rintro rfl
      exact habove.2 rfl

/-- **Nothing else goes wrong.** -/
theorem MountTable.right (hflat : ∀ a ∈ mountables pa numPat, ∀ b ∈ mountables pa numPat,
    a ≠ root → b ≠ root → ¬Above Entry.dir a b) : MountsRight pa numPat rootPat root := by
  have hroot {a b : Entry} (ha : a ∈ mountables pa numPat) (hb : b ∈ mountables pa numPat)
      (habove : Above Entry.dir a b) : a = root ∧ b ≠ root := by
    have hb0 : b ≠ root := fun heq ↦ h.not_above_root a (heq ▸ habove)
    exact ⟨by_contra fun ha0 ↦ hflat a ha b hb ha0 hb0 habove, hb0⟩
  have hlast : umountOf root root ∉ (mounted pa numPat rootPat).flatMap umountCommands := by
    rw [umountOf, mountDir, if_pos rfl]
    intro hmem
    obtain ⟨e, -, hmem⟩ := List.mem_flatMap.1 hmem
    exact target_ne e (Command.umount.inj (List.mem_singleton.1 hmem)).symm
  have humount {e : Entry} (he : e ∈ mountables pa numPat) (hne : e ≠ root) :
      umountOf root e ∈ (mounted pa numPat rootPat).flatMap umountCommands := by
    refine List.mem_flatMap.2 ⟨e, h.mem_mounted_iff.2 ⟨he, hne⟩, ?_⟩
    rw [umountOf_of_ne hne]
    exact List.mem_cons_self
  refine ⟨fun e he ↦ ⟨?_, ?_⟩, fun a ha b hb hnear ↦ ?_, fun a ha b hb habove ↦ ?_⟩
  · rw [h.doMount_eq]
    by_cases hne : e = root
    · rw [hne]
      exact List.mem_append_left _ List.mem_cons_self
    · refine List.mem_append_right _ (List.mem_append_left _ (List.mem_flatMap.2
        ⟨e, h.mem_mounted_iff.2 ⟨he, hne⟩, ?_⟩))
      rw [mountOf_of_ne hne]
      exact List.mem_cons_of_mem _ List.mem_cons_self
  · rw [doUmount_eq pa numPat rootPat root, List.nil_append]
    by_cases hne : e = root
    · rw [hne]
      exact List.mem_append_right _ (List.mem_cons_of_mem _ List.mem_cons_self)
    · exact List.mem_append_left _ (humount he hne)
  · obtain ⟨rfl, hb0⟩ := hroot ha hb hnear.1
    rw [h.doMount_eq, rootCommands, ← List.singleton_append, List.append_assoc]
    refine ⟨Precedes.of_not_mem List.mem_cons_self (fun hmem ↦ ?_) _,
      Precedes.of_not_mem List.mem_cons_self (fun hmem ↦ ?_) _⟩
    · exact mountOf_not_mem hb0 (List.mem_cons.2 (Or.inl (List.mem_singleton.1 hmem)))
    · cases List.mem_singleton.1 hmem
  · obtain ⟨rfl, hb0⟩ := hroot ha hb habove
    rw [doUmount_eq pa numPat rootPat a, List.nil_append]
    exact Precedes.of_not_mem (humount hb hb0) hlast _

end

/-- **When the order respects the tree**: no partition but the root has a mount point above that of
another one. -/
theorem mounts_right_iff (pa : List Entry) (numPat rootPat : ℕ) (root : Entry)
    (h : MountTable pa numPat rootPat root) :
    MountsRight pa numPat rootPat root ↔
      ∀ a ∈ mountables pa numPat, ∀ b ∈ mountables pa numPat, a ≠ root → b ≠ root →
        ¬Above Entry.dir a b :=
  ⟨fun hr a ha b hb ha0 hb0 ↦ h.antichain hr a (h.mem_mounted_iff.2 ⟨ha, ha0⟩) b
    (h.mem_mounted_iff.2 ⟨hb, hb0⟩), h.right⟩

/-- A Linux partition in use. -/
def linuxPart (name mntp : Bytes) : Entry :=
  ⟨name, mntp, ext2, cstr "defaults", 100, 4096, false, 1, 1, true, false, false⟩

/-- The root and `/usr`. -/
def flatTable : List Entry :=
  [linuxPart (cstr "/dev/hda1") (cstr "/"), linuxPart (cstr "/dev/hda2") (cstr "/usr")]

/-- The root, `/usr` and `/usr/local`. -/
def nestedTable : List Entry :=
  flatTable ++ [linuxPart (cstr "/dev/hda3") (cstr "/usr/local")]

theorem mounts_right_flatTable :
    MountsRight flatTable 2 0 (linuxPart (cstr "/dev/hda1") (cstr "/")) :=
  (mounts_right_iff flatTable 2 0 (linuxPart (cstr "/dev/hda1") (cstr "/"))
    ⟨by decide, rfl, by decide, rfl, by decide +kernel⟩).2 (by decide +kernel)

/-- `/usr` is unmounted before `/usr/local`. -/
theorem nestedTable_not_right :
    MountTable nestedTable 3 0 (linuxPart (cstr "/dev/hda1") (cstr "/")) ∧
      ¬MountsRight nestedTable 3 0 (linuxPart (cstr "/dev/hda1") (cstr "/")) := by
  have h : MountTable nestedTable 3 0 (linuxPart (cstr "/dev/hda1") (cstr "/")) :=
    ⟨by decide, rfl, by decide, rfl, by decide +kernel⟩
  refine ⟨h, fun hr ↦ h.antichain hr (linuxPart (cstr "/dev/hda2") (cstr "/usr")) ?_
    (linuxPart (cstr "/dev/hda3") (cstr "/usr/local")) ?_ ?_⟩
  · decide +kernel
  · decide +kernel
  · decide +kernel

end Sysinst
