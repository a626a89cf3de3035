import SsdLinux.Sysinst.Partition

/-!
# `sysinst`: the table of partitions and its bounds

`pat_array` fills two arrays of fixed size, and puts the name of a disk into the second one that it
takes from `hd[i]`, where `i` counts the partitions so far.  `patArrayIn` is `pat_array` with its
accesses: it has no result if one is behind the end of an array.

* `expectedEntries` and `expectedBoots` are what the arrays should hold: the swap and Linux
  partitions 1 to 63 of each disk, and for each disk with a bootable partition the disk itself and
  its bootable Linux partitions.
* A `Probed` is a list of disks as the installer finds them: there are at most 16, and a disk is
  flagged if one of its partitions is bootable.
* `patArray_iff` says when the arrays hold what they should.

`bp_foldl_addDisk` says without a loop what is in the second array.
-/

set_option autoImplicit false

namespace Sysinst

open CLib

def MAXPAT : ℕ := 256
def MAXBOOTDEV : ℕ := 16

/-! ## The accesses -/

/-- There is room for what has been stored. -/
def Arrays.Room (t : Arrays) : Prop := t.pa.length ≤ MAXPAT ∧ t.bp.length ≤ MAXBOOTDEV

instance decidableRoom (t : Arrays) : Decidable t.Room := inferInstanceAs (Decidable (_ ∧ _))

def Arrays.checked (t : Arrays) : Option Arrays := if t.Room then some t else none

/-- One round of the outer loop. -/
def addDiskIn (hd : List Disk) (t : Arrays) (d : Disk) : Option Arrays :=
  (if d.flagBootable then
      (hdName hd t.pa.length).bind fun name ↦
        Arrays.checked { t with bp := t.bp ++ [⟨some (printName (cstr "/dev/" ++ name)), 0⟩] }
    else some t).bind fun t ↦
  (List.range MAXHDPAT).foldlM (fun t k ↦ (addPart d t k).checked) t

/-- `pat_array`; there is no result if it stores or reads behind the end of an array. -/
def patArrayIn (hd : List Disk) : Option (ℕ × List Entry × List Boot) :=
  (hd.foldlM (addDiskIn hd) ⟨[], []⟩).bind fun t ↦
    if t.pa.length + 2 ≤ MAXPAT then
      some (t.pa.length, rootFirst t.pa ++ [procEntry, devptsEntry], t.bp)
    else none

/-! ## What the arrays should hold -/

/-- The numbers of the partitions of a disk. -/
def partNumbers : List ℕ := List.range' 1 63

/-- The place for a boot block in a partition, if it is one. -/
def bootEntry (d : Disk) (k : ℕ) : Option Boot :=
  if (d.type k = 0x83 ∨ d.type k = 0x85) ∧ d.bootable k = true then some ⟨some (partName d k), 1⟩
  else none

/-- The swap and Linux partitions. -/
def expectedEntries (hd : List Disk) : List Entry :=
  hd.flatMap fun d ↦ partNumbers.filterMap (entry d)

def HasBootable (d : Disk) : Prop := ∃ k ∈ partNumbers, d.bootable k = true

instance decidableHasBootable (d : Disk) : Decidable (HasBootable d) :=
  inferInstanceAs (Decidable (∃ k ∈ partNumbers, _))

/-- The disks with a bootable partition, each with its bootable Linux partitions. -/
def expectedBoots (hd : List Disk) : List Boot :=
  hd.flatMap fun d ↦
    if HasBootable d then
      ⟨some (cstr "/dev/" ++ d.name), 0⟩ :: partNumbers.filterMap (bootEntry d)
    else []

/-- The disks that have been found. -/
structure Probed where
  disks : List Disk
  length_le : disks.length ≤ MAXHDDEV
  flags : ∀ d ∈ disks, d.flagBootable = true ↔ HasBootable d

/-! ## The second array without a loop -/

variable {hd ds : List Disk} {d : Disk} {t : Arrays} {i : ℕ}

theorem bp_addPart (d : Disk) (t : Arrays) (k : ℕ) :
    (addPart d t k).bp = t.bp ++ (bootEntry d k).toList := by
  by_cases hswap : d.type k = 0x82
  · simp [addPart, bootEntry, hswap]
  by_cases hlinux : d.type k = 0x83 ∨ d.type k = 0x85
  · by_cases hboot : d.bootable k = true
    · simp [addPart, bootEntry, hswap, hlinux, hboot]
    · simp [addPart, bootEntry, hswap, hlinux, hboot]
  · simp [addPart, bootEntry, hswap, hlinux]

theorem bp_foldl_addPart (d : Disk) (ks : List ℕ) (t : Arrays) :
    (ks.foldl (addPart d) t).bp = t.bp ++ ks.filterMap (bootEntry d) := by
  induction ks generalizing t with
  | nil => exact (List.append_nil _).symm
  | cons k ks ih =>
    rw [List.foldl_cons, ih, bp_addPart, List.append_assoc]
    cases h : bootEntry d k with
    | none => rw [List.filterMap_cons_none h]; rfl
    | some b => rw [List.filterMap_cons_some h]; rfl

/-- The place for a boot block on a disk, if `i` partitions have been found before it. -/
def bootDisk (hd : List Disk) (i : ℕ) (d : Disk) : List Boot :=
  if d.flagBootable then
    [⟨(hdName hd i).map fun name ↦ printName (cstr "/dev/" ++ name), 0⟩]
  else []

/-- The places for a boot block on some disks. -/
def bootsFrom (hd : List Disk) : ℕ → List Disk → List Boot
  | _, [] => []
  | i, d :: ds =>
    bootDisk hd i d ++ ((List.range MAXHDPAT).filterMap (bootEntry d) ++
      bootsFrom hd (i + ((List.range MAXHDPAT).filterMap (entry d)).length) ds)

theorem bp_addDisk (hd : List Disk) (t : Arrays) (d : Disk) :
    (addDisk hd t d).bp
      = t.bp ++ (bootDisk hd t.pa.length d ++ (List.range MAXHDPAT).filterMap (bootEntry d)) := by
  rw [addDisk, bp_foldl_addPart, bootDisk, ← List.append_assoc]
  split_ifs
  · rfl
  · exact congrArg (· ++ _) (List.append_nil _).symm

/-- **The places for a boot block.** -/
theorem bp_foldl_addDisk (hd ds : List Disk) (t : Arrays) :
    (ds.foldl (addDisk hd) t).bp = t.bp ++ bootsFrom hd t.pa.length ds := by
  induction ds generalizing t with
  | nil => exact (List.append_nil _).symm
  | cons d ds ih =>
    rw [List.foldl_cons, ih, bp_addDisk, pa_addDisk, List.length_append, bootsFrom,
      List.append_assoc, List.append_assoc]

/-! ## When the accesses are in range -/

/-- There is room, and every name has been read from a disk. -/
def Arrays.InRange (t : Arrays) : Prop := t.Room ∧ ∀ b ∈ t.bp, b.name.isSome = true

instance decidableInRange (t : Arrays) : Decidable t.InRange :=
  inferInstanceAs (Decidable (_ ∧ _))

/-- What comes later is behind what is there. -/
theorem Arrays.Room.of_append {t t' : Arrays} {xs : List Entry} {ys : List Boot} (h : t'.Room)
    (hpa : t'.pa = t.pa ++ xs) (hbp : t'.bp = t.bp ++ ys) : t.Room := by
  rw [Arrays.Room, hpa, hbp, List.length_append, List.length_append] at h
  exact ⟨(Nat.le_add_right _ _).trans h.1, (Nat.le_add_right _ _).trans h.2⟩

theorem foldlM_addPart (ks : List ℕ) (ht : t.Room) :
    ks.foldlM (fun t k ↦ (addPart d t k).checked) t = (ks.foldl (addPart d) t).checked := by
  induction ks generalizing t with
  | nil => exact (if_pos ht).symm
  | cons k ks ih =>
    rw [List.foldlM_cons, List.foldl_cons]
    by_cases hroom : (addPart d t k).Room
    · rw [Arrays.checked, if_pos hroom]
      exact ih hroom
    · rw [Arrays.checked, if_neg hroom, Arrays.checked, if_neg fun h ↦ hroom <|
        h.of_append (pa_foldl_addPart d ks _) (bp_foldl_addPart d ks _)]
      rfl

/-- The places in partitions have their names. -/
theorem isSome_bootEntry {b : Boot} {ks : List ℕ} (hb : b ∈ ks.filterMap (bootEntry d)) :
    b.name.isSome = true := by
  obtain ⟨k, -, hk⟩ := List.mem_filterMap.1 hb
  rw [bootEntry] at hk
  split_ifs at hk
  cases hk
  rfl

theorem inRange_addDisk_iff (ht : t.InRange) : (addDisk hd t d).InRange ↔
    (addDisk hd t d).Room ∧ ∀ b ∈ bootDisk hd t.pa.length d, b.name.isSome = true := by
  rw [Arrays.InRange, bp_addDisk, List.forall_mem_append, List.forall_mem_append,
    and_iff_right ht.2, and_iff_left fun b hb ↦ isSome_bootEntry hb]

theorem addDiskIn_eq (ht : t.InRange) :
    addDiskIn hd t d = if (addDisk hd t d).InRange then some (addDisk hd t d) else none := by
  simp only [inRange_addDisk_iff ht]
  rw [addDiskIn, addDisk, bootDisk]
  by_cases hflag : d.flagBootable = true
  · simp only [if_pos hflag]
    cases hname : hdName hd t.pa.length with
    | none => exact (if_neg fun h ↦ by simpa using h.2).symm
    | some name =>
      have hall : ∀ b ∈ [(⟨(some name).map fun name ↦ printName (cstr "/dev/" ++ name), 0⟩ : Boot)],
          b.name.isSome = true := List.forall_mem_singleton.2 rfl
      simp only [and_iff_left hall]
      rw [Option.bind_some, Arrays.checked, Option.map_some]
      split_ifs with hroom hfull hfull
      · exact (foldlM_addPart _ hroom).trans (if_pos hfull)
      · exact (foldlM_addPart _ hroom).trans (if_neg hfull)
      · exact absurd (hfull.of_append (pa_foldl_addPart d _ _) (bp_foldl_addPart d _ _)) hroom
      · rfl
  · simp only [if_neg hflag, and_iff_left (List.forall_mem_nil _)]
    exact foldlM_addPart _ ht.1

theorem foldlM_addDiskIn (ds : List Disk) (ht : t.InRange) :
    ds.foldlM (addDiskIn hd) t =
      if (ds.foldl (addDisk hd) t).InRange then some (ds.foldl (addDisk hd) t) else none := by
  induction ds generalizing t with
  | nil => exact (if_pos ht).symm
  | cons d ds ih =>
    rw [List.foldlM_cons, List.foldl_cons, addDiskIn_eq ht]
    by_cases hrange : (addDisk hd t d).InRange
    · rw [if_pos hrange]
      exact ih hrange
    · have hbp := bp_foldl_addDisk hd ds (addDisk hd t d)
      rw [if_neg hrange, if_neg fun h ↦ hrange ⟨h.1.of_append (pa_foldl_addDisk hd ds _) hbp, ?_⟩]
      · rfl
      · exact fun b hb ↦ h.2 b (hbp ▸ List.mem_append_left _ hb)

/-- **The accesses are in range** exactly if there is room for all that is stored and a name in each
place that is read. -/
theorem patArrayIn_eq_some_iff {r : ℕ × List Entry × List Boot} :
    patArrayIn hd = some r ↔ patArray hd = r ∧ (entries hd).length + 2 ≤ MAXPAT ∧
      r.2.2.length ≤ MAXBOOTDEV ∧ ∀ b ∈ r.2.2, b.name.isSome = true := by
  have hpa := pa_foldl_addDisk hd hd ⟨[], []⟩
  rw [List.nil_append] at hpa
  have hempty : Arrays.InRange ⟨[], []⟩ :=
    ⟨⟨Nat.zero_le _, Nat.zero_le _⟩, List.forall_mem_nil _⟩
  have hentries : (hd.foldl (addDisk hd) ⟨[], []⟩).pa = entries hd := hpa
  rw [patArrayIn, foldlM_addDiskIn hd hempty]
  constructor
  · intro h
    split_ifs at h with hrange
    · rw [Option.bind_some] at h
      split_ifs at h with hlen
      cases h
      exact ⟨rfl, hentries ▸ hlen, hrange.1.2, hrange.2⟩
    · cases h
  · rintro ⟨rfl, hlen, hboots, hnames⟩
    rw [← hentries] at hlen
    have hrange : (hd.foldl (addDisk hd) ⟨[], []⟩).InRange :=
      ⟨⟨(Nat.le_add_right _ 2).trans hlen, hboots⟩, hnames⟩
    rw [if_pos hrange, Option.bind_some, if_pos hlen]
    rfl

/-! ## The partition 0 -/

theorem filterMap_range {β : Type*} (f : ℕ → Option β) :
    (List.range MAXHDPAT).filterMap f = (f 0).toList ++ partNumbers.filterMap f := by
  have hrange : List.range MAXHDPAT = 0 :: partNumbers := rfl
  rw [hrange]
  cases h : f 0 with
  | none => rw [List.filterMap_cons_none h]; rfl
  | some b => rw [List.filterMap_cons_some h]; rfl

/-- There is no partition 0 in the table. -/
def NoPartZero (d : Disk) : Prop := d.type 0 ∉ [0x82, 0x83, 0x85]

instance decidableNoPartZero (d : Disk) : Decidable (NoPartZero d) :=
  inferInstanceAs (Decidable (_ ∉ _))

theorem entry_zero_iff : entry d 0 = none ↔ NoPartZero d := by
  rw [entry, NoPartZero]
  split_ifs with hswap hlinux
  · simp [hswap]
  · rcases hlinux with h | h <;> simp [h]
  · rw [not_or] at hlinux
    simp [hswap, hlinux]

theorem NoPartZero.bootEntry (h : NoPartZero d) : bootEntry d 0 = none := by
  rw [NoPartZero, List.mem_cons, List.mem_cons, List.mem_singleton, not_or] at h
  exact if_neg fun hb ↦ h.2 hb.1

theorem entries_cons (d : Disk) (ds : List Disk) :
    entries (d :: ds) = ((entry d 0).toList ++ partNumbers.filterMap (entry d)) ++ entries ds := by
  rw [entries, List.flatMap_cons, filterMap_range, entries]

theorem expectedEntries_cons (d : Disk) (ds : List Disk) :
    expectedEntries (d :: ds) = partNumbers.filterMap (entry d) ++ expectedEntries ds := by
  rw [expectedEntries, List.flatMap_cons, expectedEntries]

theorem length_expectedEntries_le (ds : List Disk) :
    (expectedEntries ds).length ≤ (entries ds).length := by
  induction ds with
  | nil => exact le_rfl
  | cons d ds ih =>
    simp only [entries_cons, expectedEntries_cons, List.length_append]
    omega

/-- The table has as many entries as it should exactly if there is no partition 0 in it. -/
theorem length_entries_iff (ds : List Disk) :
    (entries ds).length = (expectedEntries ds).length ↔ ∀ d ∈ ds, NoPartZero d := by
  induction ds with
  | nil => exact iff_of_true rfl (List.forall_mem_nil _)
  | cons d ds ih =>
    have hle := length_expectedEntries_le ds
    rw [List.forall_mem_cons, ← ih, ← entry_zero_iff]
    simp only [entries_cons, expectedEntries_cons, List.length_append]
    cases entry d 0 with
    | none =>
      simp only [Option.toList_none, List.length_nil, true_and]
      omega
    | some e =>
      simp only [Option.toList_some, List.length_singleton, reduceCtorEq, false_and, iff_false]
      omega

theorem entries_eq_expected {ds : List Disk} (h : ∀ d ∈ ds, NoPartZero d) :
    entries ds = expectedEntries ds := by
  induction ds with
  | nil => rfl
  | cons d ds ih =>
    rw [List.forall_mem_cons, ← entry_zero_iff] at h
    rw [entries_cons, expectedEntries_cons, h.1, ih h.2]
    rfl

/-! ## The names of the disks -/

theorem length_of_hdName {name : Bytes} (h : hdName hd i = some name) : name.length ≤ 3 := by
  rw [hdName] at h
  split at h
  · cases h
    exact le_of_eq (Disk.length_name _)
  · split_ifs at h
    cases h
    exact Nat.zero_le _

/-- The name that is printed for a disk is right exactly if it is read from that disk. -/
theorem printed_iff (d : Disk) :
    ((hdName hd i).map fun name ↦ printName (cstr "/dev/" ++ name)) =
        some (cstr "/dev/" ++ d.name) ↔
      hdName hd i = some d.name := by
  cases h : hdName hd i with
  | none => simp
  | some name =>
    have hlen := length_of_hdName h
    have hdev : (cstr "/dev/").length = 5 := rfl
    rw [Option.map_some, Option.some.injEq, Option.some.injEq, printName, List.take_of_length_le]
    · exact List.append_right_inj _
    · rw [List.length_append, hdev, NAMELEN]
      omega

/-- Where no partition of a disk is bootable, none has a place for a boot block. -/
theorem filterMap_bootEntry_eq_nil (h : ¬HasBootable d) :
    partNumbers.filterMap (bootEntry d) = [] :=
  List.filterMap_eq_nil_iff.2 fun k hk ↦ if_neg fun hb ↦ h ⟨k, hk, hb.2⟩

/-- For each flagged disk, the name is read from that disk. -/
def NamesRight (hd : List Disk) (i : ℕ) (ds : List Disk) : Prop :=
  ∀ pre d post, ds = pre ++ d :: post → d.flagBootable = true →
    hdName hd (i + (expectedEntries pre).length) = some d.name

theorem namesRight_cons : NamesRight hd i (d :: ds) ↔
    (d.flagBootable = true → hdName hd i = some d.name) ∧
      NamesRight hd (i + (partNumbers.filterMap (entry d)).length) ds := by
  constructor
  · refine fun h ↦ ⟨h [] d ds rfl, fun pre x post hds hx ↦ ?_⟩
    have := h (d :: pre) x post (congrArg _ hds) hx
    rwa [expectedEntries_cons, List.length_append, ← Nat.add_assoc] at this
  · rintro ⟨hhead, htail⟩ pre x post hds hx
    cases pre with
    | nil =>
      cases hds
      exact hhead hx
    | cons d' pre =>
      cases hds
      rw [expectedEntries_cons, List.length_append, ← Nat.add_assoc]
      exact htail pre x post rfl hx

theorem bootsFrom_eq_iff (h0 : ∀ d ∈ ds, NoPartZero d)
    (hflags : ∀ d ∈ ds, d.flagBootable = true ↔ HasBootable d) :
    bootsFrom hd i ds = expectedBoots ds ↔ NamesRight hd i ds := by
  induction ds generalizing i with
  | nil =>
    refine iff_of_true rfl fun pre d post h ↦ ?_
    exact absurd h.symm (List.append_ne_nil_of_right_ne_nil _ (List.cons_ne_nil _ _))
  | cons d ds ih =>
    rw [List.forall_mem_cons] at h0 hflags
    have hzero := h0.1.bootEntry
    have hentry := entry_zero_iff.2 h0.1
    rw [namesRight_cons, bootsFrom, filterMap_range, filterMap_range, hzero, hentry, expectedBoots,
      List.flatMap_cons, ← expectedBoots]
    simp only [Option.toList_none, List.nil_append]
    rw [← ih h0.2 hflags.2, bootDisk]
    by_cases hflag : d.flagBootable = true
    · rw [if_pos hflag, if_pos (hflags.1.1 hflag), List.cons_append, List.cons_append,
        List.nil_append, List.cons.injEq, List.append_cancel_left_eq, Boot.mk.injEq, printed_iff,
        and_iff_left rfl]
      simp [hflag]
    · rw [if_neg hflag, if_neg fun h ↦ hflag (hflags.1.2 h),
        filterMap_bootEntry_eq_nil fun h ↦ hflag (hflags.1.2 h)]
      simp [hflag]

/-! ## The table -/

theorem isSome_expectedBoots {b : Boot} (hb : b ∈ expectedBoots ds) : b.name.isSome = true := by
  obtain ⟨d, -, hb⟩ := List.mem_flatMap.1 hb
  split_ifs at hb
  · rcases List.mem_cons.1 hb with rfl | hb
    · rfl
    · exact isSome_bootEntry hb
  · cases hb

/-- **The arrays hold what they should, and every access is in range**, exactly if no disk has a
partition 0, there is room for all entries, and the name of each disk with a bootable partition is
what stands in `hd[i]`, where `i` is the number of partitions on the disks before it. -/
theorem patArray_iff (p : Probed) :
    patArrayIn p.disks = some ((expectedEntries p.disks).length,
        rootFirst (expectedEntries p.disks) ++ [procEntry, devptsEntry],
        expectedBoots p.disks) ↔
      (∀ d ∈ p.disks, NoPartZero d) ∧ (expectedEntries p.disks).length + 2 ≤ MAXPAT ∧
        (expectedBoots p.disks).length ≤ MAXBOOTDEV ∧ NamesRight p.disks 0 p.disks := by
  have htable := entries_eq p.disks
  have hbp : (patArray p.disks).2.2 = bootsFrom p.disks 0 p.disks :=
    (bp_foldl_addDisk p.disks p.disks ⟨[], []⟩).trans (List.nil_append _)
  rw [patArrayIn_eq_some_iff]
  constructor
  · rintro ⟨heq, hlen, hboots, -⟩
    rw [heq] at htable hbp
    have hcount : (expectedEntries p.disks).length = (entries p.disks).length := htable.1
    have h0 := (length_entries_iff p.disks).1 hcount.symm
    exact ⟨h0, hcount ▸ hlen, hboots, (bootsFrom_eq_iff h0 p.flags).1 hbp.symm⟩
  · rintro ⟨h0, hlen, hboots, hnames⟩
    have heq := entries_eq_expected h0
    rw [heq] at htable ⊢
    rw [(bootsFrom_eq_iff h0 p.flags).2 hnames] at hbp
    exact ⟨Prod.ext htable.1 (Prod.ext htable.2 hbp), hlen, hboots, fun b hb ↦
      isSome_expectedBoots hb⟩

/-- A disk with two Linux partitions, and one with a bootable one. -/
def twoDisks : Probed where
  disks :=
    [⟨cstr "hda", false, fun k ↦ if k = 1 ∨ k = 2 then 0x83 else 0, fun _ ↦ 0, fun _ ↦ false,
        length_hda, chars_hda⟩,
      ⟨cstr "hdb", true, fun k ↦ if k = 1 then 0x83 else 0, fun _ ↦ 0, fun k ↦ k == 1, rfl,
        by decide⟩]
  length_le := by decide
  flags := by decide

/-- The boot block of the second disk would be written to `/dev/`. -/
theorem boots_of_twoDisks :
    (patArrayIn twoDisks.disks).map (fun r ↦ r.2.2)
        = some [⟨some (cstr "/dev/"), 0⟩, ⟨some (cstr "/dev/hdb1"), 1⟩] ∧
      patArrayIn twoDisks.disks ≠ some ((expectedEntries twoDisks.disks).length,
        rootFirst (expectedEntries twoDisks.disks) ++ [procEntry, devptsEntry],
        expectedBoots twoDisks.disks) := by
  decide +kernel

end Sysinst
