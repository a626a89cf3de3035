import SsdLinux.Sysinst.Confirm
import SsdLinux.Sysinst.Fstab

/-!
# `sysinst`: the devices of an installation

Which devices a run of the installer touches follows from what the machine shows of its disks, and
from what the user enters.  `readHd` are the disks as they are read, and `leftTable` is the table as
the user leaves it.

`exists_fill_of_mem` and `exists_fill_of_value` are about the beginning of a run, and
`formatted_right` says what is formatted in it.
-/

set_option autoImplicit false

namespace Sysinst

open CLib

/-! ## What a run begins with -/

/-- The disks, and what `rd_partition` returns. -/
def readDisksOf (x : Machine) (v : Locals) : Option (List Hd × ℤ) :=
  (x.partitions.bind (probeHd v.fresh)).bind fun hd ↦
    (probeMd v.behind x.netDev x.cdromInfo hd).bind fun found ↦
      rdPartition x.popen v.reading found.2

/-- The disks as they are read. -/
def readHd (x : Machine) (v : Locals) : Option (List Hd) := (readDisksOf x v).map Prod.fst

/-- What `pat_array` makes of them. -/
def madeTable (x : Machine) (v : Locals) : Option (ℕ × List Entry × List Boot) :=
  (readHd x v).bind fun hd ↦ patArrayIn (hd.map Hd.disk)

/-- The input behind the two questions at the start. -/
def afterStart (signed : Bool) (stdin : Bytes) : Option Bytes :=
  (getanswer signed stdin).bind fun x ↦ (getanswer signed x.2).map Prod.snd

/-- The table as the user leaves it, and the input behind. -/
def leftTable (b : Build) (x : Machine) (v : Locals) (stdin : Bytes) :
    Option (List Entry × Bytes) :=
  (madeTable x v).bind fun made ↦ (afterStart b.signed stdin).bind fun input ↦
    setPartition b.signed made.2.1 made.1 v.m input

/-- What is known when the table has been left. -/
structure Begun (b : Build) (x : Machine) (v : Locals) (stdin : Bytes) (t : Chosen) : Prop where
  made : ∃ pa, madeTable x v = some (t.numPat, pa, t.bp)
  left : ∃ pa input, leftTable b x v stdin = some (pa, input) ∧
    (∃ existRoot ≠ 0, setRootPartition v.rootPat v.existRoot pa t.numPat =
      (t.rootPat, existRoot, t.pa)) ∧
    (b.installboot = true →
      ∃ rest, setBootPartition b.signed t.bp.length input = some (t.actBp, rest))

variable {b : Build} {x : Machine} {v : Locals} {s rest : Outside} {tr : List Act} {t : Chosen}
  {task : Task} {signed : Bool} {q : Question} {hd : List Hd}

theorem fromStdin_value {α : Type} {f : Bytes → Option (α × Bytes)} {a : α}
    (h : fromStdin f s = (tr, .value a rest)) : f s.stdin = some (a, rest.stdin) := by
  rw [fromStdin, Dialog.take] at h
  rcases hf : f s.stdin with - | ⟨a', rest'⟩
  · rw [hf] at h
    cases h
  · rw [hf] at h
    cases h
    rfl

theorem ofOption_value {α : Type} {o : Option α} {a : α}
    (h : (Dialog.ofOption o : Prog α) s = (tr, .value a rest)) : o = some a ∧ rest = s := by
  cases o with
  | none => cases h
  | some a' =>
    cases h
    exact ⟨rfl, rfl⟩

/-- A command reads nothing of the standard input. -/
theorem run_stdin (h : run task s = (tr, .value () rest)) : rest.stdin = s.stdin := by
  obtain ⟨t₁, ⟨⟩, mid, t₂, hact, hrest, rfl⟩ := Dialog.bind_eq_value_iff.1 h
  obtain ⟨t₃, ok, mid', t₄, hok, hend, rfl⟩ := Dialog.bind_eq_value_iff.1 hrest
  cases hact
  cases hok
  split at hend
  · cases hend
    rfl
  · exact absurd hend failed_ne_value

theorem isexit_value (h : isexit signed q s = (tr, .value () rest)) :
    getanswer signed s.stdin = some (121, rest.stdin) := by
  obtain ⟨t₁, c, mid, t₂, hask, hrest, rfl⟩ := Dialog.bind_eq_value_iff.1 h
  obtain ⟨t₃, c', mid', t₄, hget, hend, rfl⟩ := Dialog.bind_eq_value_iff.1 hask
  cases hend
  have hc := fromStdin_value hget
  split at hrest
  · cases hrest
  · rename_i heq
    cases hrest
    rw [hc, not_not.1 heq]

theorem startMsg_value (h : startMsg signed s = (tr, .value () rest)) :
    afterStart signed s.stdin = some rest.stdin := by
  obtain ⟨t₁, ⟨⟩, mid, t₂, hsure, hreally, rfl⟩ := Dialog.bind_eq_value_iff.1 h
  rw [afterStart, isexit_value hsure, Option.bind_some, isexit_value hreally]
  rfl

theorem readDisks_value {popen : Bytes → Bytes} {r : Reading} {out : List Hd × Reading}
    (h : readDisks popen r hd s = (tr, .value out rest)) :
    rdDisks popen r hd = some out ∧ rest.stdin = s.stdin := by
  induction hd generalizing r s rest tr out with
  | nil =>
    cases h
    exact ⟨rfl, rfl⟩
  | cons d hd ih =>
    rw [readDisks] at h
    rw [rdDisks]
    split at h
    · rename_i hcd
      obtain ⟨t₁, y, mid, t₂, hrest, hend, rfl⟩ := Dialog.bind_eq_value_iff.1 h
      obtain ⟨heq, hstdin⟩ := ih hrest
      cases hend
      rw [if_pos hcd, heq]
      exact ⟨rfl, hstdin⟩
    · rename_i hcd
      obtain ⟨t₁, ⟨⟩, mid, t₂, hrun, hread, rfl⟩ := Dialog.bind_eq_value_iff.1 h
      obtain ⟨t₃, y, mid', t₄, hdisk, hrest, rfl⟩ := Dialog.bind_eq_value_iff.1 hread
      obtain ⟨t₅, z, mid'', t₆, hmore, hend, rfl⟩ := Dialog.bind_eq_value_iff.1 hrest
      obtain ⟨heq, rfl⟩ := ofOption_value hdisk
      obtain ⟨heq', hstdin⟩ := ih hmore
      cases hend
      obtain ⟨d', r'⟩ := y
      rw [if_neg hcd, heq, Option.bind_some]
      dsimp only at heq' ⊢
      rw [heq']
      exact ⟨rfl, hstdin.trans (run_stdin hrun)⟩

theorem probe_value {out : ℤ × List Medium × List Hd}
    (h : probe b x v s = (tr, .value out rest)) :
    (x.partitions.bind (probeHd v.fresh)).bind (probeMd v.behind x.netDev x.cdromInfo) =
        some out.2 ∧ rest.stdin = s.stdin := by
  obtain ⟨t₁, pccard, mid, t₂, hpccard, hrest, rfl⟩ := Dialog.bind_eq_value_iff.1 h
  obtain ⟨t₃, hd, mid', t₄, hhd, hrest', rfl⟩ := Dialog.bind_eq_value_iff.1 hrest
  obtain ⟨t₅, found, mid'', t₆, hmd, hend, rfl⟩ := Dialog.bind_eq_value_iff.1 hrest'
  have hpccard' : mid.stdin = s.stdin := by
    rw [getPccard] at hpccard
    split at hpccard
    · obtain ⟨t₇, found', mid₁, t₈, hfind, hrun, rfl⟩ := Dialog.bind_eq_value_iff.1 hpccard
      obtain ⟨-, rfl⟩ := ofOption_value hfind
      split at hrun
      · obtain ⟨t₉, ⟨⟩, mid₂, t₁₀, hrun', hend', rfl⟩ := Dialog.bind_eq_value_iff.1 hrun
        cases hend'
        exact run_stdin hrun'
      · cases hrun
        rfl
    · cases hpccard
      rfl
  obtain ⟨heq, rfl⟩ := ofOption_value hhd
  obtain ⟨heq', rfl⟩ := ofOption_value hmd
  rw [heq, Option.bind_some, heq']
  split at hend
  · cases hend
  · cases hend
    exact ⟨rfl, hpccard'⟩

/-- The end of `choose`. -/
theorem choose_value {numPat : ℕ} {pa : List Entry} {bp : List Boot}
    (h : choose b v numPat pa bp s = (tr, .value t rest)) : t.numPat = numPat ∧ t.bp = bp ∧
      ∃ pa' input, setPartition b.signed pa numPat v.m s.stdin = some (pa', input) ∧
        (∃ existRoot ≠ 0, setRootPartition v.rootPat v.existRoot pa' numPat =
          (t.rootPat, existRoot, t.pa)) ∧
        (b.installboot = true →
          ∃ rest, setBootPartition b.signed bp.length input = some (t.actBp, rest)) := by
  obtain ⟨t₁, pa', mid, t₂, hpa, hrest, rfl⟩ := Dialog.bind_eq_value_iff.1 h
  have hpa' := fromStdin_value hpa
  split at hrest
  · cases hrest
  · rename_i hexist
    obtain ⟨t₃, actBp, mid', t₄, hboot, hend, rfl⟩ := Dialog.bind_eq_value_iff.1 hrest
    cases hend
    refine ⟨rfl, rfl, pa', mid.stdin, hpa', ⟨_, hexist, rfl⟩, fun hinst ↦ ?_⟩
    rw [chooseBoot, if_pos hinst] at hboot
    exact ⟨_, fromStdin_value hboot⟩

/-- **The beginning of a run.** -/
theorem begin_value {stdin : Bytes} {media : List Medium} (hstdin : s.stdin = stdin)
    (hfound : (x.partitions.bind (probeHd v.fresh)).bind (probeMd v.behind x.netDev x.cdromInfo) =
      some (media, hd))
    (h : begin b x v hd s = (tr, .value t rest)) : Begun b x v stdin t := by
  obtain ⟨t₁, ⟨⟩, mid, t₂, hstart, hrest, rfl⟩ := Dialog.bind_eq_value_iff.1 h
  obtain ⟨t₃, read, mid', t₄, hread, hrest', rfl⟩ := Dialog.bind_eq_value_iff.1 hrest
  have hstart' := hstdin ▸ startMsg_value hstart
  obtain ⟨hdisks, hmid⟩ := readDisks_value hread
  have hreadHd : readHd x v = some read.1 := by
    rw [readHd, readDisksOf, ← Option.bind_assoc, hfound, Option.bind_some, rdPartition, hdisks]
    rfl
  split at hrest'
  · cases hrest'
  obtain ⟨t₅, made, mid'', t₆, hmade, hend, rfl⟩ := Dialog.bind_eq_value_iff.1 hrest'
  obtain ⟨hmade', rfl⟩ := ofOption_value hmade
  have hmadeTable : madeTable x v = some made := by
    rw [madeTable, hreadHd, Option.bind_some, hmade']
  split at hend
  · cases hend
  obtain ⟨hnum, hbp, pa, input, hleft, hroot, hboot⟩ := choose_value hend
  rw [← hnum] at hroot
  rw [← hbp] at hboot
  refine ⟨⟨made.2.1, ?_⟩, pa, input, ?_, hroot, hboot⟩
  · rw [hmadeTable, hnum, hbp]
  · rw [leftTable, hmadeTable, Option.bind_some, hstart', Option.bind_some, ← hmid, hleft]

/-- An action of a run that formats, mounts or unmounts. -/
theorem exists_fill_of_mem {a : Act} (ha : a.plain = false) (h : a ∈ (main b x v s).1) :
    ∃ pccard media t s', Begun b x v s.stdin t ∧ a ∈ (fill b v pccard media t s').1 := by
  have hasked : Asked [] (.sure :: .really :: laterQuestions) [] :=
    ⟨List.Subset.refl _, fun q _ ↦ List.not_mem_nil⟩
  have hprobe : Part (fun a ↦ a.plain = true) [] (.sure :: .really :: laterQuestions) (probe b x v)
      (fun _ ↦ []) (.sure :: .really :: laterQuestions) := part_probe fun _ ha ↦ ha
  have hbegin (hd : List Hd) : Part (fun a ↦ a.plain = true) [] (.sure :: .really :: laterQuestions)
      (begin b x v hd) (fun _ ↦ atStart) laterQuestions := part_begin fun _ ha ↦ ha
  rcases Dialog.mem_bind_iff.1 h with h | ⟨⟨⟩, mid, -, h⟩
  · rcases Dialog.mem_bind_iff.1 h with h | ⟨found, mid, hfound, h⟩
    · exact absurd (hprobe.expected hasked s a h) (by simp [ha])
    · obtain ⟨heq, hstdin⟩ := probe_value <|
        show probe b x v s = ((probe b x v s).1, _) from Prod.ext rfl hfound
      rcases Dialog.mem_bind_iff.1 h with h | ⟨t, mid', ht, h⟩
      · exact absurd ((hbegin found.2.2).expected hasked mid a h) (by simp [ha])
      · exact ⟨found.1, found.2.1, t, mid', begin_value hstdin heq (Prod.ext rfl ht), h⟩
  · cases h

theorem exists_of_mapM {α β : Type} {f : α → Option β} {l : List α} {l' : List β}
    (h : l.mapM f = some l') {y : β} (hy : y ∈ l') : ∃ a ∈ l, f a = some y := by
  induction l generalizing l' with
  | nil =>
    cases h
    cases hy
  | cons a l ih =>
    rw [List.mapM_cons] at h
    obtain ⟨y', hy', h⟩ := Option.bind_eq_some_iff.1 h
    obtain ⟨ys, hys, h⟩ := Option.bind_eq_some_iff.1 h
    cases h
    rcases List.mem_cons.1 hy with rfl | hy
    · exact ⟨a, List.mem_cons_self, hy'⟩
    · obtain ⟨a', ha', heq⟩ := ih hys hy
      exact ⟨a', List.mem_cons_of_mem _ ha', heq⟩

/-- The types are those that `probe_hd` leaves. -/
def Untouched (fresh : ℕ → Fresh) (h : Hd) : Prop :=
  ∃ j, ∀ k, h.disk.type k = if k = 0 then (fresh j).type else 0

theorem untouched_probeHd {fresh : ℕ → Fresh} {text : Bytes} (h : probeHd fresh text = some hd) :
    ∀ h ∈ hd, Untouched fresh h := by
  intro y hy
  obtain ⟨names, -, h⟩ := Option.bind_eq_some_iff.1 h
  obtain ⟨⟨name, j⟩, -, heq⟩ := exists_of_mapM h hy
  refine ⟨j, fun k ↦ ?_⟩
  dsimp only [freshDisk] at heq
  split at heq
  · cases heq
    rfl
  · cases heq

theorem untouched_markCd {fresh : ℕ → Fresh} (name : Bytes) (h : ∀ h ∈ hd, Untouched fresh h) :
    ∀ h ∈ markCd name hd, Untouched fresh h := by
  induction hd with
  | nil => exact h
  | cons y hd ih =>
    obtain ⟨hy, hrest⟩ := List.forall_mem_cons.1 h
    rw [markCd]
    split
    · exact List.forall_mem_cons.2 ⟨hy, hrest⟩
    · exact List.forall_mem_cons.2 ⟨hy, ih hrest⟩

theorem untouched_foldlM {α : Type} {fresh : ℕ → Fresh}
    {f : List Medium × List Hd → α → Option (List Medium × List Hd)} {l : List α}
    {y y' : List Medium × List Hd}
    (hf : ∀ y a y', f y a = some y' → (∀ h ∈ y.2, Untouched fresh h) →
      ∀ h ∈ y'.2, Untouched fresh h)
    (h : l.foldlM f y = some y') (hy : ∀ h ∈ y.2, Untouched fresh h) :
    ∀ h ∈ y'.2, Untouched fresh h := by
  induction l generalizing y with
  | nil =>
    cases h
    exact hy
  | cons a l ih =>
    rw [List.foldlM_cons] at h
    obtain ⟨y₁, hy₁, h⟩ := Option.bind_eq_some_iff.1 h
    exact ih h (hf y a y₁ hy₁ hy)

theorem untouched_probeDrive {fresh : ℕ → Fresh} {y y' : List Medium × List Hd} {word : Bytes}
    (h : probeDrive y word = some y') (hy : ∀ h ∈ y.2, Untouched fresh h) :
    ∀ h ∈ y'.2, Untouched fresh h := by
  obtain ⟨md, hd⟩ := y
  rw [probeDrive] at h
  split_ifs at h
  · cases h
    exact hy
  · obtain ⟨n, -, rfl⟩ := Option.map_eq_some_iff.1 h
    exact hy
  · cases h
    exact hy
  · cases h
    exact untouched_markCd word hy
  · cases h
    exact hy

theorem untouched_probeMd {fresh : ℕ → Fresh} {behind : Bytes} {netDev cdromInfo : Option Bytes}
    {found : List Medium × List Hd} (h : probeMd behind netDev cdromInfo hd = some found)
    (hhd : ∀ h ∈ hd, Untouched fresh h) : ∀ h ∈ found.2, Untouched fresh h := by
  obtain ⟨md, -, h⟩ := Option.bind_eq_some_iff.1 h
  refine untouched_foldlM (fun y buf y' hline hy ↦ ?_) h hhd
  rw [driveLine] at hline
  split at hline
  · cases hline
    exact hy
  · obtain ⟨⟨i, word⟩, -, hline⟩ := Option.bind_eq_some_iff.1 hline
    dsimp only at hline
    split at hline
    · exact untouched_foldlM (fun y a y' ↦ untouched_probeDrive) hline hy
    · cases hline
      exact hy

/-- A CD-ROM is not read. -/
theorem mem_of_rdDisks {popen : Bytes → Bytes} {r r' : Reading} {hd' : List Hd}
    (h : rdDisks popen r hd = some (hd', r')) : ∀ y ∈ hd', y.flagCd = true → y ∈ hd := by
  induction hd generalizing r hd' with
  | nil =>
    cases h
    exact fun y hy ↦ absurd hy List.not_mem_nil
  | cons d hd ih =>
    rw [rdDisks] at h
    split at h
    · obtain ⟨⟨ds, r₁⟩, hds, h⟩ := Option.map_eq_some_iff.1 h
      cases h
      intro y hy hcd
      rcases List.mem_cons.1 hy with rfl | hy
      · exact List.mem_cons_self
      · exact List.mem_cons_of_mem _ (ih hds y hy hcd)
    · rename_i hno
      obtain ⟨⟨d', r₁⟩, -, h⟩ := Option.bind_eq_some_iff.1 h
      obtain ⟨⟨ds, r₂⟩, hds, h⟩ := Option.map_eq_some_iff.1 h
      cases h
      intro y hy hcd
      rcases List.mem_cons.1 hy with rfl | hy
      · exact absurd hcd hno
      · exact List.mem_cons_of_mem _ (ih hds y hy hcd)

/-- A CD-ROM has no types, save for the one that has never been set. -/
theorem untouched_readHd (h : readHd x v = some hd) {y : Hd} (hy : y ∈ hd)
    (hcd : y.flagCd = true) : Untouched v.fresh y := by
  rw [readHd, readDisksOf] at h
  obtain ⟨⟨hd', exist⟩, hof, rfl⟩ := Option.map_eq_some_iff.1 h
  obtain ⟨hd₀, hhd, hof⟩ := Option.bind_eq_some_iff.1 hof
  obtain ⟨found, hmd, hof⟩ := Option.bind_eq_some_iff.1 hof
  obtain ⟨text, -, hprobe⟩ := Option.bind_eq_some_iff.1 hhd
  obtain ⟨⟨hd'', r⟩, hread, heq⟩ := Option.map_eq_some_iff.1 hof
  cases heq
  exact untouched_probeMd hmd (untouched_probeHd hprobe) y (mem_of_rdDisks hread y hy hcd)

/-! ## The table -/

variable {e e' : Entry} {c : Command} {pa : List Entry} {input : Bytes}

/-- What the menu does not change. -/
theorem same_of_edits (h : Relation.ReflTransGen Edit e e') :
    e'.name = e.name ∧ e'.flagSwap = e.flagSwap := by
  induction h with
  | refl => exact ⟨rfl, rfl⟩
  | tail _ hedit ih =>
    have hstep : ∀ {a b : Entry}, Edit a b → b.name = a.name ∧ b.flagSwap = a.flagSwap := by
      intro a b hab
      cases hab with
      | mntp buf =>
        rw [enterMntp]
        exact ⟨rfl, rfl⟩
      | _ => exact ⟨rfl, rfl⟩
    exact ⟨(hstep hedit).1.trans ih.1, (hstep hedit).2.trans ih.2⟩

/-- An entry that `pat_array` makes for a partition. -/
def IsPart (e : Entry) (d : Disk) (k : ℕ) : Prop :=
  e.name = partName d k ∧ ((e.flagSwap = true ∧ d.type k = 0x82) ∨
    (e.flagSwap = false ∧ (d.type k = 0x83 ∨ d.type k = 0x85)))

theorem isPart_of_entry {d : Disk} {k : ℕ} (h : e ∈ entry d k) : IsPart e d k := by
  rw [entry] at h
  split_ifs at h with hswap hlinux
  · cases h
    exact ⟨rfl, .inl ⟨rfl, hswap⟩⟩
  · cases h
    exact ⟨rfl, .inr ⟨rfl, hlinux⟩⟩
  · cases h

theorem IsPart.same {d : Disk} {k : ℕ} (h : IsPart e d k) (hname : e'.name = e.name)
    (hswap : e'.flagSwap = e.flagSwap) : IsPart e' d k := by
  rw [IsPart, hname, hswap]
  exact h

theorem exists_of_rootFirst (h : e ∈ rootFirst pa) :
    ∃ e' ∈ pa, e.name = e'.name ∧ e.flagSwap = e'.flagSwap := by
  cases pa with
  | nil => cases h
  | cons a pa =>
    rcases List.mem_cons.1 h with rfl | h
    · exact ⟨a, List.mem_cons_self, rfl, rfl⟩
    · exact ⟨e, List.mem_cons_of_mem _ h, rfl, rfl⟩

theorem exists_of_forall₂ {R : Entry → Entry → Prop} {pa' : List Entry}
    (h : List.Forall₂ R pa pa') (he : e' ∈ pa') : ∃ e ∈ pa, R e e' := by
  induction h with
  | nil => cases he
  | cons hr _ ih =>
    rcases List.mem_cons.1 he with rfl | he
    · exact ⟨_, List.mem_cons_self, hr⟩
    · obtain ⟨e, hmem, hr'⟩ := ih he
      exact ⟨e, List.mem_cons_of_mem _ hmem, hr'⟩

/-- The entries of the table as it is left are partitions of the disks. -/
theorem isPart_of_left {made : ℕ × List Entry × List Boot} (hmade : madeTable x v = some made)
    {stdin : Bytes} (hleft : leftTable b x v stdin = some (pa, input)) (he : e ∈ pa.take made.1) :
    ∃ hd, readHd x v = some hd ∧ ∃ h ∈ hd, ∃ k < MAXHDPAT, IsPart e h.disk k := by
  obtain ⟨hd, hread, hpat⟩ := Option.bind_eq_some_iff.1 hmade
  rw [patArrayIn_eq_some_iff] at hpat
  obtain ⟨rfl, -⟩ := hpat
  rw [leftTable, hmade, Option.bind_some] at hleft
  obtain ⟨input₁, -, hleft⟩ := Option.bind_eq_some_iff.1 hleft
  obtain ⟨hcount, htable⟩ := entries_eq (hd.map Hd.disk)
  obtain ⟨hedited, -⟩ := edited_of_setPartition hleft
  rw [htable] at hedited
  rw [hcount] at he
  -- the entry of which this one has been edited
  have htake := List.forall₂_take (entries (hd.map Hd.disk)).length hedited
  rw [List.take_left' (length_rootFirst _)] at htake
  obtain ⟨e₀, he₀, hedit⟩ := exists_of_forall₂ htake he
  obtain ⟨e₁, he₁, hname, hswap⟩ := exists_of_rootFirst he₀
  obtain ⟨d, hd', he₁⟩ := List.mem_flatMap.1 he₁
  obtain ⟨k, hk, hentry⟩ := List.mem_filterMap.1 he₁
  obtain ⟨y, hy, rfl⟩ := List.mem_map.1 hd'
  obtain ⟨hname', hswap'⟩ := same_of_edits hedit
  refine ⟨hd, hread, y, hy, k, List.mem_range.1 hk, ?_⟩
  exact (isPart_of_entry hentry).same (hname'.trans hname) (hswap'.trans hswap)

/-- What is formatted and mounted is taken from an entry as it is left. -/
theorem exists_of_set_root {j existRoot : ℤ} {numPat : ℕ}
    (h : e ∈ (setRootPartition j existRoot pa numPat).2.2.take numPat) :
    ∃ e' ∈ pa.take numPat, e = e' ∨ e = notChecked e' := by
  rw [setRootPartition] at h
  split at h
  · rename_i i _
    rw [List.take_modify, List.mem_iff_getElem?] at h
    obtain ⟨k, hk⟩ := h
    rw [List.getElem?_modify] at hk
    obtain ⟨e', he', heq⟩ := Option.map_eq_some_iff.1 hk
    refine ⟨e', List.mem_of_getElem? he', ?_⟩
    split_ifs at heq
    · exact .inr heq.symm
    · exact .inl heq.symm
  · exact ⟨e, h, .inl rfl⟩

/-- The command that formats the partition of an entry. -/
def Entry.format (e : Entry) : Command :=
  if e.flagSwap then .mkswap e.flagCk e.name
  else .mke2fs (decide (e.fst ≠ ext2)) e.flagCk e.bsize e.name

/-- A command that formats. -/
def Command.formats : Command → Bool
  | mkswap _ _ | mke2fs _ _ _ _ => true
  | _ => false

/-- What is formatted is in use. -/
theorem exists_of_formats (hc : c.formats = true) {numPat : ℕ}
    (h : c ∈ runMkswap pa numPat ++ runMke2fs pa numPat) :
    ∃ e ∈ pa.take numPat, e.flagAct = true ∧ c = e.format := by
  rw [runMkswap, runMke2fs, List.append_assoc, List.mem_append, List.mem_append,
    List.mem_flatMap, List.mem_singleton, List.mem_flatMap] at h
  rcases h with ⟨e, he, h⟩ | rfl | ⟨e, he, h⟩
  · split_ifs at h with hswap
    · rw [Bool.and_eq_true] at hswap
      rcases List.mem_cons.1 h with rfl | h
      · exact ⟨e, he, hswap.1, by rw [Entry.format, if_pos hswap.2]⟩
      · rw [List.mem_singleton.1 h] at hc
        cases hc
    · cases h
  · cases hc
  · split_ifs at h with huse hfst
    · rw [Bool.and_eq_true, Bool.not_eq_true'] at huse
      refine ⟨e, he, huse.1, ?_⟩
      rw [List.mem_singleton.1 h, Entry.format, if_neg (by simp [huse.2])]
      simp [hfst]
    · rw [Bool.and_eq_true, Bool.not_eq_true'] at huse
      refine ⟨e, he, huse.1, ?_⟩
      rw [List.mem_singleton.1 h, Entry.format, if_neg (by simp [huse.2])]
      simp [hfst]
    · cases h

theorem formats_of_mount {numPat rootPat : ℕ}
    (h : c ∈ doMount pa numPat rootPat ++ doUmount pa numPat rootPat) :
    c.formats = false := by
  rcases List.mem_append.1 h with h | h
  · rw [doMount] at h
    split at h
    · cases h
    · simp only [List.mem_append, List.mem_cons, List.mem_flatMap, List.not_mem_nil,
        or_false] at h
      rcases h with (rfl | rfl | rfl | rfl) | ⟨e, -, rfl | rfl⟩ <;> rfl
  · simp only [doUmount, List.mem_append, List.mem_map, List.mem_cons, List.not_mem_nil,
      or_false] at h
    rcases h with ⟨e, -, rfl⟩ | rfl | rfl <;> rfl

/-- What a run does with the disks, it does with the table that has been left. -/
theorem mem_commands {pccard : ℤ} {media : List Medium}
    (h : .task (.disk c) ∈ (fill b v pccard media t s).1) : c ∈ t.commands := by
  have hP : ∀ a : Act, a.plain = true → ∀ c, a = .task (.disk c) → c ∈ t.commands := by
    rintro _ hplain c rfl
    cases hplain
  have hfill : Part (fun a ↦ ∀ c, a = .task (.disk c) → c ∈ t.commands) atStart laterQuestions
      (fill b v pccard media t) (fun _ ↦ atStart) [] :=
    part_fill hP (fun c hc _ heq ↦ by cases heq; exact hc) (fun _ _ heq ↦ by cases heq)
      fun _ heq ↦ by cases heq
  exact hfill.expected (asked_atStart (by decide)) s _ h c rfl

theorem formats_of_commands (hc : c.formats = true) (h : c ∈ t.commands) :
    c ∈ runMkswap t.pa t.numPat ++ runMke2fs t.pa t.numPat := by
  rcases List.mem_append.1 h with h | h
  · exact h
  · cases hroot : t.root? with
    | none =>
      rw [hroot] at h
      cases h
    | some root =>
      rw [hroot] at h
      rw [formats_of_mount h] at hc
      cases hc

/-- A disk with such a partition is no CD-ROM. -/
theorem flagCd_eq_false (hfresh : ∀ j, (v.fresh j).type ∉ [0x82, 0x83, 0x85])
    (hhd : readHd x v = some hd) {y : Hd} (hy : y ∈ hd) {k : ℕ} (hpart : IsPart e y.disk k) :
    y.flagCd = false := by
  by_contra hcd
  obtain ⟨j, htype⟩ := untouched_readHd hhd hy (by simpa using hcd)
  have hlinux : y.disk.type k ∈ [0x82, 0x83, 0x85] := by
    rcases hpart.2 with ⟨-, h⟩ | ⟨-, h | h⟩ <;> simp [h]
  rw [htype] at hlinux
  split_ifs at hlinux
  · exact hfresh j hlinux
  · simp at hlinux

/-- **What is formatted**: in every run, only a partition that is in use in the table as the user
leaves it, with what he has chosen for it; and it is a partition of a disk that is no CD-ROM, with
the type of a swap partition if it is formatted for swap, and that of a Linux partition if not. -/
theorem formatted_right (b : Build) (x : Machine) (v : Locals) (s : Outside) (c : Command)
    (hfresh : ∀ j, (v.fresh j).type ∉ [0x82, 0x83, 0x85]) (hc : c.formats = true)
    (h : .task (.disk c) ∈ (main b x v s).1) :
    ∃ hd pa input, readHd x v = some hd ∧ leftTable b x v s.stdin = some (pa, input) ∧
      ∃ e ∈ pa.take (entries (hd.map Hd.disk)).length, e.flagAct = true ∧ c = e.format ∧
        ∃ y ∈ hd, y.flagCd = false ∧ ∃ k < MAXHDPAT, IsPart e y.disk k := by
  obtain ⟨pccard, media, t, s', hbegun, hfill⟩ := exists_fill_of_mem rfl h
  obtain ⟨e, he, hact, heq⟩ := exists_of_formats hc (formats_of_commands hc (mem_commands hfill))
  obtain ⟨pa₀, hmade⟩ := hbegun.made
  obtain ⟨pa, input, hleft, ⟨existRoot, -, hroot⟩, -⟩ := hbegun.left
  have hpa : t.pa = (setRootPartition v.rootPat v.existRoot pa t.numPat).2.2 := by rw [hroot]
  obtain ⟨e', he', hsame⟩ := exists_of_set_root (hpa ▸ he)
  obtain ⟨hd, hhd, y, hy, k, hk, hpart⟩ := isPart_of_left hmade hleft he'
  have hcount : t.numPat = (entries (hd.map Hd.disk)).length := by
    obtain ⟨hd', hhd', hpat⟩ := Option.bind_eq_some_iff.1 hmade
    obtain rfl := Option.some.inj (hhd.symm.trans hhd')
    rw [patArrayIn_eq_some_iff] at hpat
    exact (congrArg Prod.fst hpat.1).symm.trans (entries_eq _).1
  refine ⟨hd, pa, input, hhd, hleft, e', hcount ▸ he', ?_, ?_, y, hy,
    flagCd_eq_false hfresh hhd hy hpart, k, hk, hpart⟩
  · rcases hsame with rfl | rfl
    · exact hact
    · exact hact
  · rcases hsame with rfl | rfl
    · exact heq
    · exact heq

theorem formatted_right_cdAnswers : ∃ hd pa input, readHd cdMachine zeroLocals = some hd ∧
    leftTable cdBuild cdMachine zeroLocals cdAnswers.stdin = some (pa, input) ∧
      ∃ e ∈ pa.take (entries (hd.map Hd.disk)).length, e.flagAct = true ∧
        Command.mke2fs false false 4096 (cstr "/dev/hda1") = e.format ∧
        ∃ y ∈ hd, y.flagCd = false ∧ ∃ k < MAXHDPAT, IsPart e y.disk k :=
  formatted_right cdBuild cdMachine zeroLocals cdAnswers _
    (fun _ ↦ (by decide : 0 ∉ [0x82, 0x83, 0x85])) rfl (by decide +kernel)

end Sysinst
