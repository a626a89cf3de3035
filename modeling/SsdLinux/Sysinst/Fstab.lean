import SsdLinux.Words
import SsdLinux.CLib.Shell
import SsdLinux.Sysinst.Root
import SsdLinux.Sysinst.Commands

/-!
# `sysinst`: the file of file systems

`wr_fstab` writes a line for every entry in use, and the lines are read by their fields.  They
should say what was done with the partitions: a line for swap where `run_mkswap` has been, and a
journal where `run_mke2fs` has made one (`FstabRight`).

Whatever the user does, a partition that is not for swap has the type `ext2` or `ext3`
(`Formed.edit`), and that is what decides about the journal.  What he can get wrong is left for
`Writable`: a mount point that is empty or is not a single field, and a swap partition whose type or
mount point is no longer `swap`.  The latter is what `pat_array` makes of a swap partition that
comes first.  As in `SsdLinux.Sysinst.Root`, there are at most 254 partitions.
-/

set_option autoImplicit false

namespace Sysinst

open CLib Shell Words

/-! ## What the file should say -/

/-- The fields of a line. -/
def Entry.fields (e : Entry) : List Bytes :=
  [e.name, e.mntp, e.fst, e.opt, decInt e.fck1, decInt e.fck2]

/-- `fstab` matches what was formatted. -/
structure FstabRight (numPat : ℕ) (pa : List Entry) : Prop where
  lines : List.Forall₂ (fun line e ↦ split isBlank line = e.fields ∧ ∀ f ∈ e.fields, f ≠ [])
    (split (· == nl) (wrFstab pa numPat)) ((pa.take (numPat + 2)).filter Entry.flagAct)
  swap : ∀ e ∈ pa.take numPat, e.flagAct = true →
    ((e.fst = cstr "swap" ∧ e.mntp = cstr "swap") ↔
      ∃ ck, .mkswap ck e.name ∈ runMkswap pa numPat)
  journal : ∀ e ∈ pa.take numPat, e.flagAct = true →
    (e.fst = ext3 ↔ ∃ ck bsize, .mke2fs true ck bsize e.name ∈ runMke2fs pa numPat)

/-- The mount point is a field, and a swap partition is for swap in `fstab`. -/
def Entry.Writable (e : Entry) : Prop :=
  e.flagAct = true →
    IsWord isBlank e.mntp ∧ (e.flagSwap = true → e.fst = cstr "swap" ∧ e.mntp = cstr "swap")

instance decidableWritable (e : Entry) : Decidable e.Writable :=
  inferInstanceAs (Decidable (_ → (_ ∧ _) ∧ (_ → _)))

/-! ## Entries -/

variable {numPat : ℕ} {pa pa' : List Entry} {e e' : Entry} {d : Disk} {k : ℕ}

/-- A field that is also on one line. -/
def IsField (s : Bytes) : Prop := IsWord isBlank s ∧ nl ∉ s

instance decidableIsField (s : Bytes) : Decidable (IsField s) :=
  inferInstanceAs (Decidable ((_ ∧ _) ∧ _))

/-- What is always true of an entry. -/
structure Formed (e : Entry) : Prop where
  name : IsField e.name
  fst : IsField e.fst
  opt : IsField e.opt
  mntp : nl ∉ e.mntp

/-- What is always true of the type of a partition. -/
def FstFormed (e : Entry) : Prop :=
  e.fst = ext2 ∨ e.fst = ext3 ∨ e.flagSwap = true ∧ e.fst = cstr "swap"

theorem isField_decInt (n : ℤ) : IsField (decInt n) := by
  have hchars : ∀ c ∈ decInt n, isBlank c = false ∧ c ≠ nl := by
    intro c hc
    rcases decInt_chars n c hc with h | rfl
    · have h32 : c ≠ 32 := ne_of_class h rfl
      have h9 : c ≠ 9 := ne_of_class h rfl
      exact ⟨by simp [isBlank, h32, h9], ne_of_class h rfl⟩
    · exact ⟨rfl, by decide⟩
  exact ⟨⟨decInt_ne_nil n, fun c hc ↦ (hchars c hc).1⟩, fun h ↦ (hchars nl h).2 rfl⟩

/-- **One command of the user.** -/
theorem Formed.edit (h : Edit e e') (hf : Formed e ∧ FstFormed e) :
    (Formed e' ∧ FstFormed e') ∧ e'.name = e.name := by
  obtain ⟨⟨hname, hfst, hopt, hmntp⟩, htype⟩ := hf
  cases h with
  | act | ck | bsize => exact ⟨⟨⟨hname, hfst, hopt, hmntp⟩, htype⟩, rfl⟩
  | fst =>
    refine ⟨⟨⟨hname, ?_, hopt, hmntp⟩, ?_⟩, rfl⟩
    · rw [toggleFst]
      split_ifs
      · exact (by decide : IsField ext3)
      · exact (by decide : IsField ext2)
    · rw [toggleFst, FstFormed]
      split_ifs
      · exact Or.inr (Or.inl rfl)
      · exact Or.inl rfl
  | mntp buf =>
    refine ⟨⟨⟨hname, hfst, hopt, fun hnl ↦ ?_⟩, htype⟩, rfl⟩
    have := List.mem_takeWhile_imp hnl
    simp at this

/-- The partitions and the two entries behind them, as the user leaves them. -/
structure Table (numPat : ℕ) (pa : List Entry) : Prop where
  formed : ∀ e ∈ pa.take numPat, Formed e ∧ FstFormed e
  distinct : ((pa.take numPat).map Entry.name).Nodup
  behind : pa.drop numPat = [procEntry, devptsEntry]

theorem isField_partName (d : Disk) (hk : k < MAXHDPAT) : IsField (partName d k) := by
  rw [partName_eq d hk]
  have hdev : ∀ c ∈ cstr "/dev/", isBlank c = false ∧ c ≠ nl := by decide
  have hname : ∀ c ∈ d.name, isBlank c = false ∧ c ≠ nl := fun c hc ↦ by
    obtain ⟨h32, h9, hnl⟩ := d.name_chars c hc
    exact ⟨by simp [isBlank, h32, h9], hnl⟩
  have hdec : ∀ c ∈ dec k, isBlank c = false ∧ c ≠ nl := fun c hc ↦ by
    have h32 : c ≠ 32 := ne_of_class (dec_isdigit k c hc) rfl
    have h9 : c ≠ 9 := ne_of_class (dec_isdigit k c hc) rfl
    exact ⟨by simp [isBlank, h32, h9], ne_of_class (dec_isdigit k c hc) rfl⟩
  have hall : ∀ c ∈ cstr "/dev/" ++ (d.name ++ dec k), isBlank c = false ∧ c ≠ nl :=
    List.forall_mem_append.2 ⟨hdev, List.forall_mem_append.2 ⟨hname, hdec⟩⟩
  exact ⟨⟨by simp [cstr], fun c hc ↦ (hall c hc).1⟩, fun h ↦ (hall nl h).2 rfl⟩

theorem formed_entry (hk : k < MAXHDPAT) (h : e ∈ entry d k) : Formed e ∧ FstFormed e := by
  have hname := isField_partName d hk
  have hopt : IsField (cstr "defaults") := by decide
  rw [entry] at h
  split_ifs at h
  · cases h
    have hswap : IsField (cstr "swap") := by decide
    exact ⟨⟨hname, hswap, hopt, hswap.2⟩, Or.inr (Or.inr ⟨rfl, rfl⟩)⟩
  · cases h
    exact ⟨⟨hname, (by decide : IsField ext2), hopt, List.not_mem_nil⟩, Or.inl rfl⟩
  · cases h

theorem formed_rootFirst (h : ∀ e ∈ pa, Formed e ∧ FstFormed e) :
    ∀ e ∈ rootFirst pa, Formed e ∧ FstFormed e := by
  cases pa with
  | nil => exact h
  | cons e pa =>
    obtain ⟨⟨⟨hname, hfst, hopt, -⟩, htype⟩, hrest⟩ := List.forall_mem_cons.1 h
    have hroot : nl ∉ cstr "/" := by decide
    exact List.forall_mem_cons.2 ⟨⟨⟨hname, hfst, hopt, hroot⟩, htype⟩, hrest⟩

/-- The table before the user has seen it. -/
theorem table_patArray (l : Layout) : Table (patArray l.disks).1 (patArray l.disks).2.1 := by
  obtain ⟨hnum, hpa⟩ := entries_eq l.disks
  have hlen : (patArray l.disks).1 = (rootFirst (entries l.disks)).length := by
    rw [hnum, length_rootFirst]
  rw [hpa, hlen]
  refine ⟨?_, ?_, List.drop_left⟩
  · rw [List.take_left]
    refine formed_rootFirst fun e he ↦ ?_
    obtain ⟨d, -, he⟩ := List.mem_flatMap.1 he
    obtain ⟨k, hk, he⟩ := List.mem_filterMap.1 he
    exact formed_entry (List.mem_range.1 hk) he
  · rw [List.take_left, map_name_rootFirst]
    exact nodup_names l

/-- Formed entries stay formed, however they are edited, and keep their names. -/
theorem formed_edits (h : Relation.ReflTransGen Edit e e') (hf : Formed e ∧ FstFormed e) :
    (Formed e' ∧ FstFormed e') ∧ e'.name = e.name := by
  induction h with
  | refl => exact ⟨hf, rfl⟩
  | tail _ hstep ih =>
    obtain ⟨hf', hname⟩ := ih
    obtain ⟨hf'', hname'⟩ := Formed.edit hstep hf'
    exact ⟨hf'', hname'.trans hname⟩

theorem formed_forall₂ (h : List.Forall₂ (Relation.ReflTransGen Edit) pa pa')
    (hf : ∀ e ∈ pa, Formed e ∧ FstFormed e) :
    (∀ e ∈ pa', Formed e ∧ FstFormed e) ∧ pa'.map Entry.name = pa.map Entry.name := by
  induction h with
  | nil => exact ⟨hf, rfl⟩
  | cons he _ ih =>
    obtain ⟨hfe, hrest⟩ := List.forall_mem_cons.1 hf
    obtain ⟨hfe', hname⟩ := formed_edits he hfe
    obtain ⟨hall, hnames⟩ := ih hrest
    exact ⟨List.forall_mem_cons.2 ⟨hfe', hall⟩, by rw [List.map_cons, List.map_cons, hname, hnames]⟩

/-- **The table stays in order.** -/
theorem Table.edited (h : Table numPat pa) (hpa : Edited numPat pa pa') : Table numPat pa' := by
  obtain ⟨hformed, hnames⟩ := formed_forall₂ (List.forall₂_take numPat hpa.entries) h.formed
  exact ⟨hformed, hnames ▸ h.distinct, hpa.behind.trans h.behind⟩

/-! ## Lines -/

/-- A line has the fields of its entry, unless the mount point is none. -/
theorem fields_fstabLine (h : Formed e) :
    (split isBlank (fstabLine e) = e.fields ∧ ∀ f ∈ e.fields, f ≠ []) ↔ IsWord isBlank e.mntp := by
  have htab : isBlank 9 = true := rfl
  have hsplit : split isBlank (fstabLine e)
      = e.name :: (split isBlank e.mntp ++ [e.fst, e.opt, decInt e.fck1, decInt e.fck2]) := by
    rw [fstabLine, split_append_cons _ htab, split_append_cons _ htab, split_append_cons _ htab,
      split_append_cons _ htab, split_append_cons _ (rfl : isBlank blank = true),
      split_of_isWord h.name.1, split_of_isWord h.fst.1, split_of_isWord h.opt.1,
      split_of_isWord (isField_decInt e.fck1).1, split_of_isWord (isField_decInt e.fck2).1]
    rfl
  have hfields : e.fields = e.name :: ([e.mntp] ++ [e.fst, e.opt, decInt e.fck1, decInt e.fck2]) :=
    rfl
  rw [hsplit, hfields, List.cons_inj_right, List.append_cancel_right_eq, split_eq_singleton_iff,
    and_iff_left_iff_imp]
  intro hmntp
  simp only [List.cons_append, List.nil_append, List.forall_mem_cons]
  exact ⟨h.name.1.1, hmntp.1, h.fst.1.1, h.opt.1.1, decInt_ne_nil _, decInt_ne_nil _,
    List.forall_mem_nil _⟩

theorem isWord_fstabLine (h : Formed e) : IsWord (· == nl) (fstabLine e) := by
  refine ⟨fun hnil ↦ by simp [fstabLine] at hnil, fun c hc ↦ ?_⟩
  have hnl : nl ∉ fstabLine e := by
    simp only [fstabLine, List.mem_append, List.mem_cons, not_or]
    exact ⟨h.name.2, by decide, h.mntp, by decide, h.fst.2, by decide, h.opt.2, by decide,
      (isField_decInt _).2, by decide, (isField_decInt _).2⟩
  simpa using fun heq : c = nl ↦ hnl (heq ▸ hc)

/-- The entries that `wr_fstab` looks at. -/
theorem Table.take_add_two (h : Table numPat pa) :
    pa.take (numPat + 2) = pa.take numPat ++ [procEntry, devptsEntry] := by
  rw [List.take_add, h.behind]
  rfl

theorem formed_procEntry : Formed procEntry := ⟨by decide, by decide, by decide, by decide⟩

theorem formed_devptsEntry : Formed devptsEntry := ⟨by decide, by decide, by decide, by decide⟩

theorem Table.lines_iff (h : Table numPat pa) :
    List.Forall₂ (fun line e ↦ split isBlank line = e.fields ∧ ∀ f ∈ e.fields, f ≠ [])
      (split (· == nl) (wrFstab pa numPat)) ((pa.take (numPat + 2)).filter Entry.flagAct) ↔
    ∀ e ∈ pa.take numPat, e.flagAct = true → IsWord isBlank e.mntp := by
  have hall : ∀ e ∈ pa.take (numPat + 2), Formed e := by
    rw [h.take_add_two]
    refine List.forall_mem_append.2 ⟨fun e he ↦ (h.formed e he).1, ?_⟩
    exact List.forall_mem_cons.2 ⟨formed_procEntry, List.forall_mem_singleton.2 formed_devptsEntry⟩
  have hactive : ∀ e ∈ (pa.take (numPat + 2)).filter Entry.flagAct, Formed e :=
    fun e he ↦ hall e (List.mem_filter.1 he).1
  have hlines : split (· == nl) (wrFstab pa numPat)
      = ((pa.take (numPat + 2)).filter Entry.flagAct).map fstabLine := by
    have := @split_flatten UInt8 (· == nl)
      (((pa.take (numPat + 2)).filter Entry.flagAct).map fstabLine)
      (List.forall_mem_map.2 fun e he ↦ isWord_fstabLine (hactive e he)) nl (by decide)
    rwa [List.map_map] at this
  rw [hlines, List.forall₂_map_left_iff, List.forall₂_same]
  have hiff : (∀ e ∈ (pa.take (numPat + 2)).filter Entry.flagAct,
      split isBlank (fstabLine e) = e.fields ∧ ∀ f ∈ e.fields, f ≠ []) ↔
      ∀ e ∈ (pa.take (numPat + 2)).filter Entry.flagAct, IsWord isBlank e.mntp :=
    forall₂_congr fun e he ↦ fields_fstabLine (hactive e he)
  rw [hiff, h.take_add_two]
  simp only [List.mem_filter, List.mem_append, and_imp]
  refine ⟨fun hw e he hact ↦ hw e (Or.inl he) hact, fun hw e he hact ↦ ?_⟩
  rcases he with he | he
  · exact hw e he hact
  · rcases List.mem_pair.1 he with rfl | rfl
    · exact ⟨by decide, by decide⟩
    · exact ⟨by decide, by decide⟩

/-! ## Formatting -/

/-- The names tell the partitions apart. -/
theorem Table.eq_of_name (h : Table numPat pa) (he : e ∈ pa.take numPat)
    (he' : e' ∈ pa.take numPat) (hname : e'.name = e.name) : e' = e :=
  List.inj_on_of_nodup_map h.distinct he' he hname

theorem Table.mkswap_iff (h : Table numPat pa) (he : e ∈ pa.take numPat)
    (hact : e.flagAct = true) :
    (∃ ck, .mkswap ck e.name ∈ runMkswap pa numPat) ↔ e.flagSwap = true := by
  constructor
  · rintro ⟨ck, hmem⟩
    rcases List.mem_append.1 hmem with hmem | hmem
    · obtain ⟨e', he', hmem⟩ := List.mem_flatMap.1 hmem
      split_ifs at hmem with hflags
      · rcases List.mem_pair.1 hmem with heq | heq
        · obtain ⟨-, hname⟩ := Command.mkswap.inj heq
          rw [← h.eq_of_name he he' hname.symm]
          exact ((Bool.and_eq_true _ _).mp hflags).2
        · cases heq
      · exact absurd hmem List.not_mem_nil
    · cases List.mem_singleton.1 hmem
  · intro hswap
    refine ⟨e.flagCk, List.mem_append_left _ (List.mem_flatMap.2 ⟨e, he, ?_⟩)⟩
    rw [hact, hswap]
    exact List.mem_cons_self

theorem Table.journal_iff (h : Table numPat pa) (he : e ∈ pa.take numPat)
    (hact : e.flagAct = true) :
    (∃ ck bsize, .mke2fs true ck bsize e.name ∈ runMke2fs pa numPat) ↔
      e.flagSwap = false ∧ e.fst ≠ ext2 := by
  constructor
  · rintro ⟨ck, bsize, hmem⟩
    obtain ⟨e', he', hmem⟩ := List.mem_flatMap.1 hmem
    split_ifs at hmem with hflags hext2
    · cases List.mem_singleton.1 hmem
    · obtain ⟨-, -, -, hname⟩ := Command.mke2fs.inj (List.mem_singleton.1 hmem)
      obtain rfl := h.eq_of_name he he' hname.symm
      rw [Bool.and_eq_true, Bool.not_eq_true'] at hflags
      exact ⟨hflags.2, hext2⟩
    · exact absurd hmem List.not_mem_nil
  · rintro ⟨hswap, hext2⟩
    refine ⟨e.flagCk, e.bsize, List.mem_flatMap.2 ⟨e, he, ?_⟩⟩
    rw [hact, hswap, if_neg hext2]
    exact List.mem_singleton_self _

/-! ## The table and the file -/

theorem swap_ne_ext : cstr "swap" ≠ ext2 ∧ cstr "swap" ≠ ext3 ∧ ext3 ≠ ext2 := by decide

/-- For a partition whose mount point is a field. -/
theorem FstFormed.right_iff (h : FstFormed e) :
    (((e.fst = cstr "swap" ∧ e.mntp = cstr "swap") ↔ e.flagSwap = true) ∧
      (e.fst = ext3 ↔ e.flagSwap = false ∧ e.fst ≠ ext2)) ↔
    (e.flagSwap = true → e.fst = cstr "swap" ∧ e.mntp = cstr "swap") := by
  obtain ⟨hne2, hne3, hne32⟩ := swap_ne_ext
  constructor
  · exact fun hr ↦ hr.1.2
  intro hswap
  cases hflag : e.flagSwap with
  | true =>
    obtain ⟨hfst, hmntp⟩ := hswap hflag
    exact ⟨iff_of_true ⟨hfst, hmntp⟩ rfl,
      iff_of_false (fun h3 ↦ hne3 (hfst.symm.trans h3)) (by simp)⟩
  | false =>
    rcases h with h2 | h3 | ⟨htrue, -⟩
    · exact ⟨iff_of_false (fun hs ↦ hne2 (hs.1.symm.trans h2)) (by simp),
        iff_of_false (fun h3 ↦ hne32 (h3.symm.trans h2)) fun hs ↦ hs.2 h2⟩
    · exact ⟨iff_of_false (fun hs ↦ hne3 (hs.1.symm.trans h3)) (by simp),
        iff_of_true h3 ⟨rfl, fun h2 ↦ hne32 (h3.symm.trans h2)⟩⟩
    · rw [htrue] at hflag
      cases hflag

/-- **What the file says** of a table in order. -/
theorem Table.fstabRight_iff (h : Table numPat pa) :
    FstabRight numPat pa ↔ ∀ e ∈ pa.take numPat, e.Writable := by
  constructor
  · rintro ⟨hlines, hswap, -⟩ e he hact
    exact ⟨h.lines_iff.1 hlines e he hact,
      fun hflag ↦ (hswap e he hact).2 ((h.mkswap_iff he hact).2 hflag)⟩
  · intro hw
    refine ⟨h.lines_iff.2 fun e he hact ↦ (hw e he hact).1, fun e he hact ↦ ?_, fun e he hact ↦ ?_⟩
    · rw [h.mkswap_iff he hact]
      exact ((h.formed e he).2.right_iff.2 (hw e he hact).2).1
    · rw [h.journal_iff he hact]
      exact ((h.formed e he).2.right_iff.2 (hw e he hact).2).2

/-! ## With the root -/

/-- What `notChecked` leaves alone is the same in the whole table. -/
theorem map_modify_notChecked {β : Type*} {f : Entry → β} (hf : ∀ e, f (notChecked e) = f e)
    (pa : List Entry) (i : ℕ) : (pa.modify i notChecked).map f = pa.map f := by
  induction pa generalizing i with
  | nil => rw [List.modify_nil]
  | cons e pa ih =>
    cases i with
    | zero => rw [List.modify_zero_cons, List.map_cons, List.map_cons, hf]
    | succ i => rw [List.modify_succ_cons, List.map_cons, List.map_cons, ih]

theorem forall_mem_modify {P : Entry → Prop} (hP : ∀ e, P (notChecked e) ↔ P e) (pa : List Entry)
    (i : ℕ) : (∀ e ∈ pa.modify i notChecked, P e) ↔ ∀ e ∈ pa, P e := by
  have hmap := map_modify_notChecked (fun e ↦ propext (hP e)) pa i
  have hall (l : List Entry) : (∀ q ∈ l.map P, q) ↔ ∀ e ∈ l, P e := List.forall_mem_map
  rw [← hall, hmap, hall]

theorem formed_notChecked (e : Entry) :
    Formed (notChecked e) ∧ FstFormed (notChecked e) ↔ Formed e ∧ FstFormed e :=
  ⟨fun ⟨hf, ht⟩ ↦ ⟨⟨hf.name, hf.fst, hf.opt, hf.mntp⟩, ht⟩,
    fun ⟨hf, ht⟩ ↦ ⟨⟨hf.name, hf.fst, hf.opt, hf.mntp⟩, ht⟩⟩

/-- `set_root_partition` changes neither names nor anything else that the file depends on. -/
theorem Table.set_root (h : Table numPat pa) (j existRoot : ℤ) :
    Table numPat (setRootPartition j existRoot pa numPat).2.2 ∧
      ((∀ e ∈ (setRootPartition j existRoot pa numPat).2.2.take numPat, e.Writable) ↔
        ∀ e ∈ pa.take numPat, e.Writable) := by
  rw [setRootPartition]
  cases hidx : (pa.take numPat).findIdx? claimsRoot with
  | none => exact ⟨h, Iff.rfl⟩
  | some i =>
    have hi : i < numPat := by
      obtain ⟨hi, -⟩ := List.findIdx?_eq_some_iff_getElem.1 hidx
      exact (List.length_take ▸ hi).trans_le (Nat.min_le_left _ _)
    dsimp only
    have htake := List.take_modify notChecked i numPat pa
    refine ⟨⟨?_, ?_, ?_⟩, htake ▸ forall_mem_modify (fun _ ↦ Iff.rfl) _ i⟩
    · exact htake ▸ (forall_mem_modify formed_notChecked _ i).2 h.formed
    · rw [htake, map_modify_notChecked fun _ ↦ rfl]
      exact h.distinct
    · rw [List.drop_modify_of_lt _ _ _ _ hi]
      exact h.behind

theorem table_of_edited {signed : Bool} {l : Layout} {m : ℤ} {input : Bytes}
    (h : edited signed l.disks m input = some pa) : Table (patArray l.disks).1 pa := by
  rw [edited] at h
  dsimp only at h
  split_ifs at h with h0
  · cases h
    exact table_patArray l
  · obtain ⟨⟨pa, rest⟩, hset, rfl⟩ := Option.map_eq_some_iff.1 h
    exact (table_patArray l).edited (edited_of_setPartition hset)

/-- **When the written `fstab` matches what was formatted**, on any disks and after any session:
every partition in use has a mount point that is a field, and every swap partition in use still has
the type and the mount point `swap`. -/
theorem fstab_right_iff (signed : Bool) (l : Layout) (m j existRoot : ℤ) (input : Bytes)
    (pa : List Entry) (h : edited signed l.disks m input = some pa) :
    FstabRight (patArray l.disks).1
        (setRootPartition j existRoot pa (patArray l.disks).1).2.2 ↔
      ∀ e ∈ pa.take (patArray l.disks).1, e.Writable := by
  obtain ⟨hroot, hiff⟩ := (table_of_edited h).set_root j existRoot
  rw [hroot.fstabRight_iff, hiff]

/-- A machine with one Linux partition. -/
def linuxLayout : Layout := ⟨[linuxOnly], by decide⟩

/-- A machine whose first partition is for swap. -/
def swapLayout : Layout := ⟨[swapFirst], by decide⟩

/-- The user leaves the only partition as it is. -/
theorem fstab_right_linuxLayout :
    FstabRight (patArray linuxLayout.disks).1
      (setRootPartition 7 9 (patArray linuxLayout.disks).2.1
        (patArray linuxLayout.disks).1).2.2 :=
  (fstab_right_iff true linuxLayout 0 7 9 (cstr "x\n") (patArray linuxLayout.disks).2.1
    (by decide +kernel)).2 (by decide +kernel)

/-- The table of the first machine, with a blank in a mount point. -/
def blankTable : List Entry :=
  [{ linuxEntry linuxOnly 1 with mntp := cstr "/a b", flagAct := true }, procEntry, devptsEntry]

/-- The user enters a mount point with a blank; or he leaves a swap partition that comes first as it
is. -/
theorem fstab_not_right :
    (edited true linuxLayout.disks 0 (cstr "0\nm\n/a b\nx\nx\n") = some blankTable ∧
      ¬FstabRight (patArray linuxLayout.disks).1 (setRootPartition 7 9 blankTable
        (patArray linuxLayout.disks).1).2.2) ∧
    (edited true swapLayout.disks 0 (cstr "x\n") = some (patArray swapLayout.disks).2.1 ∧
      ¬FstabRight (patArray swapLayout.disks).1 (setRootPartition 7 9
        (patArray swapLayout.disks).2.1 (patArray swapLayout.disks).1).2.2) := by
  have hblank : edited true linuxLayout.disks 0 (cstr "0\nm\n/a b\nx\nx\n") = some blankTable := by
    decide +kernel
  have hswap : edited true swapLayout.disks 0 (cstr "x\n")
      = some (patArray swapLayout.disks).2.1 := by
    decide +kernel
  refine ⟨⟨hblank, ?_⟩, hswap, ?_⟩
  · obtain ⟨hroot, hiff⟩ := (table_of_edited hblank).set_root 7 9
    rw [hroot.fstabRight_iff, hiff]
    decide +kernel
  · obtain ⟨hroot, hiff⟩ := (table_of_edited hswap).set_root 7 9
    rw [hroot.fstabRight_iff, hiff]
    decide +kernel

end Sysinst
