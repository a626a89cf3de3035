import SsdLinux.Sysinst.Install

/-!
# `sysinst`: nothing is done unasked

Every action of the installer has questions that must have been answered before it (`Act.needs`):
the two at the start for whatever is done, and one more for the formatting, for the binaries, for
the boot block, for the files of the network, for what is removed, and for the passwords.

`Asked` is what holds between two parts of a run.  Each part of `main` meets the condition from such
a point to the next one, so that a whole run does (`nothing_unasked`).
-/

set_option autoImplicit false

namespace Sysinst

open CLib

/-! ## What must have been answered -/

/-- The answers of a history, and whether they were a `y`. -/
def answered (h : List Act) : List (Question × Bool) :=
  h.filterMap fun
    | .answer q c => some (q, decide (c = 121))
    | _ => none

/-- The two questions at the start. -/
def atStart : List (Question × Bool) := [(.sure, true), (.really, true)]

def Command.needs : Command → List (Question × Bool)
  | mkswap _ _ | addSwap _ | swapon | mke2fs _ _ _ _ => [(.format, true)]
  | _ => []

def Task.needs : Task → List (Question × Bool)
  | cardmgr => []
  | disk c => atStart ++ c.needs
  | mountCdrom _ | umountCdrom | untar true _ => atStart ++ [(.fromCdrom, true)]
  | dhclient _ => atStart ++ [(.dhcp, true)]
  | ifconfig _ _ _ _ | route _ => atStart ++ [(.dhcp, false)]
  | makeLocal _ | fetch _ _ _ _ _ _ | untar false _ => atStart ++ [(.fetch, true)]
  | linkBoot | installboot _ => atStart ++ [(.boot, true)]
  | copyNetwork _ => atStart ++ [(.network, true)]
  | removeLocal _ => atStart ++ [(.remove, true)]
  | passwd | copyPasswd _ | chmodPasswd _ => atStart ++ [(.passwd, true)]
  | fdisk _ | proxy _ | makedev | copyRcconf => atStart

/-- What must have been answered, and how.  The only files that are written without a question of
their own are the menu of the boot loader, `fstab` and `rc.conf`. -/
def Act.needs : Act → List (Question × Bool)
  | answer .sure _ => []
  | answer .really _ => [(.sure, true)]
  | answer _ _ | stat _ _ => atStart
  | task t => t.needs
  | write path _ =>
    atStart ++ if path = menulstFile ∨ path = fstabFile then [] else [(.network, true)]
  | append path _ => atStart ++ if path = rcconfFile then [] else [(.network, true)]

/-- What an action needs has been answered, no question is asked twice, and the action is one that
is expected. -/
structure Confirmed (P : Act → Prop) (h : List Act) (a : Act) : Prop where
  needs : ∀ x ∈ a.needs, x ∈ answered h
  once : ∀ q c, a = .answer q c → q ∉ (answered h).map Prod.fst
  expected : P a

/-- Neither the disks nor the CD-ROM are formatted, mounted or unmounted. -/
def Act.plain : Act → Bool
  | task (.disk _) | task (.mountCdrom _) | task .umountCdrom => false
  | _ => true

/-- The answers `given` have been given, and the questions `later` have not been asked. -/
def Asked (given : List (Question × Bool)) (later : List Question) (h : List Act) : Prop :=
  given ⊆ answered h ∧ ∀ q ∈ later, q ∉ (answered h).map Prod.fst

/-- From such a point, a part of the installer only does what has been confirmed, and comes to such
a point. -/
abbrev Part (P : Act → Prop) (given : List (Question × Bool)) (later : List Question) {α : Type}
    (d : Prog α) (given' : α → List (Question × Bool)) (later' : List Question) : Prop :=
  Dialog.Meets (Confirmed P) (Asked given later) d fun a ↦ Asked (given' a) later'

/-! ## Single actions -/

variable {b : Build} {md : Medium} {net : Net} {ftp : Ftp} {l : List Dist} {P : Act → Prop}
  {given given' : List (Question × Bool)} {later later' : List Question} {h : List Act}
  {α β : Type} {a : Act} {t : Task} {q : Question} {signed : Bool}

theorem Asked.mono (ha : Asked given later h) (hg : given' ⊆ given) (hl : later' ⊆ later) :
    Asked given' later' h :=
  ⟨List.Subset.trans hg ha.1, fun q hq ↦ ha.2 q (hl hq)⟩

theorem answered_append (h t : List Act) : answered (h ++ t) = answered h ++ answered t :=
  List.filterMap_append

/-- An action that is no answer. -/
theorem Asked.step (ha : Asked given later h) (hno : answered [a] = []) :
    Asked given later (h ++ [a]) := by
  rw [Asked, answered_append, hno, List.append_nil]
  exact ha

/-- What is not asked now can still be asked later. -/
theorem part_act (hno : answered [a] = []) (hneeds : a.needs ⊆ given) (ha : P a) :
    Part P given later (Dialog.act a) (fun _ ↦ given) later := by
  refine Dialog.Meets.act fun h hh ↦ ⟨⟨fun x hx ↦ hh.1 (hneeds hx), ?_, ha⟩, hh.step hno⟩
  rintro q c rfl
  cases hno

/-- Whatever is taken from outside is no action. -/
theorem part_take {f : Outside → Option (α × Outside)} :
    Part P given later (Dialog.take f) (fun _ ↦ given) later :=
  Dialog.Meets.take f fun _ hh _ _ _ _ ↦ hh

theorem part_ofOption {o : Option α} :
    Part P given later (Dialog.ofOption o : Prog α) (fun _ ↦ given) later :=
  Dialog.Meets.ofOption o fun _ hh _ _ ↦ hh

theorem part_exit {g : α → List (Question × Bool)} (code : ℕ) :
    Part P given later (Dialog.exit code : Prog α) g later' :=
  Dialog.Meets.exit code

theorem part_pure {g : α → List (Question × Bool)} (x : α) (hg : g x ⊆ given) :
    Part P given later (pure x : Prog α) g later :=
  Dialog.Meets.pure x fun _ hh ↦ hh.mono hg (List.Subset.refl _)

theorem Part.bind {g : α → List (Question × Bool)} {g' : β → List (Question × Bool)}
    {d : Prog α} {f : α → Prog β} {later'' : List Question} (hd : Part P given later d g later')
    (hf : ∀ x, Part P (g x) later' (f x) g' later'') : Part P given later (d >>= f) g' later'' :=
  Dialog.Meets.bind hd hf

theorem Part.mono {g g' : α → List (Question × Bool)} {d : Prog α} {more less : List Question}
    (hd : Part P given later d g later') (hgiven : given ⊆ given') (hlater : later ⊆ more)
    (hg : ∀ x, g' x ⊆ g x) (hless : less ⊆ later') : Part P given' more d g' less :=
  Dialog.Meets.mono hd (fun _ hh ↦ hh.mono hgiven hlater) fun x _ hh ↦ hh.mono (hg x) hless

/-- Fewer questions are asked than could be. -/
theorem Part.more {g : α → List (Question × Bool)} {d : Prog α} {more : List Question}
    (hd : Part P given later d g later') (hlater : later ⊆ more) : Part P given more d g later' :=
  hd.mono (List.Subset.refl _) hlater (fun _ ↦ List.Subset.refl _) (List.Subset.refl _)

/-- A command that needs no more than what has been answered. -/
theorem part_run (hneeds : t.needs ⊆ given) (ha : P (.task t)) :
    Part P given later (run t) (fun _ ↦ given) later := by
  refine Part.bind (part_act rfl hneeds ha) fun _ ↦ Part.bind part_take fun ok ↦ ?_
  split
  · exact part_pure () (List.Subset.refl _)
  · rw [Task.failed.eq_def]
    split
    · exact part_ofOption
    · exact part_ofOption
    · exact part_exit 1

/-! ## Loops and branches -/

theorem part_ite {c : Prop} [Decidable c] {g : α → List (Question × Bool)} {d d' : Prog α}
    (h : c → Part P given later d g later') (h' : ¬c → Part P given later d' g later') :
    Part P given later (if c then d else d') g later' :=
  Dialog.Meets.ite h h'

/-- A loop of things that have been confirmed. -/
theorem part_forEach {l : List β} {f : β → Prog α}
    (hf : ∀ x ∈ l, Part P given later (f x) (fun _ ↦ given) later) :
    Part P given later (Dialog.forEach l f) (fun _ ↦ given) later :=
  Dialog.Meets.forEach hf

/-- Nothing is done, and nothing asked. -/
theorem part_skip {more : List Question} (hmore : later ⊆ more) :
    Part P atStart more (pure () : Prog Unit) (fun _ ↦ atStart) later :=
  Part.more (part_pure (g := fun _ ↦ atStart) () (List.Subset.refl _)) hmore

theorem part_choose {v : Locals} {numPat : ℕ} {pa : List Entry} {bp : List Boot} :
    Part P given later (choose b v numPat pa bp) (fun _ ↦ given) later := by
  refine Part.bind part_take fun pa ↦ part_ite (fun _ ↦ part_exit 1) fun _ ↦ ?_
  refine Part.bind (part_ite (fun _ ↦ part_take) fun _ ↦ ?_) fun _ ↦ ?_
  · exact part_pure _ (List.Subset.refl _)
  · exact part_pure _ (List.Subset.refl _)

theorem part_printFile (hno : answered [a] = []) (hneeds : a.needs ⊆ given) (ha : P a) :
    Part P given later (printFile a) (fun _ ↦ given) later :=
  Part.bind part_take fun _ ↦ part_ite (fun _ ↦ part_act hno hneeds ha) fun _ ↦ part_ofOption

theorem part_disks {cs : List Command} (hneeds : ∀ c ∈ cs, (Task.disk c).needs ⊆ given)
    (hcs : ∀ c ∈ cs, P (.task (.disk c))) : Part P given later (disks cs) (fun _ ↦ given) later :=
  Part.bind (part_forEach fun c hc ↦ part_run (hneeds c hc) (hcs c hc)) fun _ ↦
    part_pure () (List.Subset.refl _)

/-! ## What the commands and the files need -/

theorem needs_command (c : Command) : c.needs ⊆ [(.format, true)] := by
  have hneeds : c.needs = [(.format, true)] ∨ c.needs = [] := by
    cases c <;> simp [Command.needs]
  rcases hneeds with h | h
  · rw [h]
    exact List.Subset.refl _
  · rw [h]
    exact List.nil_subset _

/-- What mounts and unmounts needs nothing more. -/
theorem needs_doMount {pa : List Entry} {numPat rootPat : ℕ} {c : Command}
    (hc : c ∈ doMount pa numPat rootPat ∨ c ∈ doUmount pa numPat rootPat) :
    (Task.disk c).needs ⊆ atStart := by
  have hneeds : c.needs = [] := by
    rcases hc with hc | hc
    · rw [doMount] at hc
      split at hc
      · cases hc
      · simp only [List.mem_append, List.mem_cons, List.mem_flatMap, List.not_mem_nil,
          or_false] at hc
        rcases hc with (rfl | rfl | rfl | rfl) | ⟨e, -, rfl | rfl⟩ <;> rfl
    · simp only [doUmount, List.mem_append, List.mem_map, List.mem_cons, List.not_mem_nil,
        or_false] at hc
      rcases hc with ⟨e, -, rfl⟩ | rfl | rfl <;> rfl
  rw [Task.needs, hneeds, List.append_nil]
  exact List.Subset.refl _

/-- What is expected of the disks. -/
def Chosen.commands (t : Chosen) : List Command :=
  runMkswap t.pa t.numPat ++ runMke2fs t.pa t.numPat ++
    t.root?.elim [] fun root ↦
      doMount t.pa t.numPat root.1 ++ doUmount t.pa t.numPat root.1

/-- What is written about the network needs no more than that question. -/
theorem needs_networkFiles (ha : a ∈ networkFiles md net) :
    answered [a] = [] ∧ a.plain = true ∧ a.needs ⊆ atStart ++ [(.network, true)] := by
  have hneeds : ∀ c : Prop, [Decidable c] →
      atStart ++ (if c then [] else [(Question.network, true)]) ⊆
        atStart ++ [(Question.network, true)] := by
    intro c _
    split_ifs
    · rw [List.append_nil]
      exact List.subset_append_left _ _
    · exact List.Subset.refl _
  simp only [networkFiles, List.mem_cons, List.not_mem_nil, or_false] at ha
  rcases ha with rfl | rfl | rfl | rfl | rfl | rfl <;> exact ⟨rfl, rfl, hneeds _⟩

/-! ## Questions and looks -/

section

variable (hP : ∀ a : Act, a.plain = true → P a)

include hP

/-- **A question** that has not been asked. -/
theorem part_ask (hneeds : ∀ c, (Act.answer q c).needs ⊆ given) (hlater : q ∉ later) :
    Part P given (q :: later) (ask signed q) (fun c ↦ (q, decide (c = 121)) :: given) later := by
  refine Part.bind part_take fun c ↦ ?_
  refine Dialog.Meets.bind (Q := fun _ ↦ Asked ((q, decide (c = 121)) :: given) later)
    (Dialog.Meets.act fun h hh ↦ ⟨⟨fun x hx ↦ hh.1 (hneeds c hx), ?_, hP _ rfl⟩, ?_⟩) fun _ ↦
      part_pure c (List.Subset.refl _)
  · rintro q' c' heq
    cases heq
    exact hh.2 q List.mem_cons_self
  · have hone : answered [Act.answer q c] = [(q, decide (c = 121))] := rfl
    rw [Asked, answered_append, hone]
    refine ⟨List.cons_subset.2 ⟨by simp, List.Subset.trans hh.1 (List.subset_append_left _ _)⟩, ?_⟩
    intro q' hq'
    rw [List.map_append, List.mem_append, not_or]
    refine ⟨hh.2 q' (List.mem_cons_of_mem _ hq'), fun hmem ↦ hlater ?_⟩
    rw [List.map_singleton, List.mem_singleton] at hmem
    exact (show q' = q from hmem) ▸ hq'

theorem part_isThere {path : Bytes} (hneeds : atStart ⊆ given) :
    Part P given later (isThere path) (fun _ ↦ given) later :=
  Part.bind part_take fun found ↦
    Part.bind (part_act rfl hneeds (hP (.stat path found) rfl)) fun _ ↦
      part_pure found (List.Subset.refl _)

/-- **A question and what is done after a `y`**, which is forgotten behind it. -/
theorem part_isskip {d : Prog Unit} (hneeds : ∀ c, (Act.answer q c).needs ⊆ given)
    (hlater : q ∉ later)
    (hd : Part P ((q, true) :: given) later d (fun _ ↦ given) later) :
    Part P given (q :: later) (do if ← isskip signed q then d) (fun _ ↦ given) later := by
  refine Part.bind (Part.bind (part_ask hP hneeds hlater) fun c ↦
    part_pure (g := fun ok ↦ (q, ok) :: given) _ (List.Subset.refl _)) fun ok ↦ ?_
  cases ok with
  | true => exact hd
  | false => exact part_pure () (List.subset_cons_self _ _)

/-! ## The parts of `main` -/

theorem part_extract {fromCd : Bool} {archive : Dist → Bytes} {d : Dist}
    (hstart : atStart ⊆ given) (hneeds : (Task.untar fromCd (archive d)).needs ⊆ given) :
    Part P given later (extract fromCd archive d) (fun _ ↦ given) later := by
  refine part_ite (fun _ ↦ Part.bind (part_isThere hP hstart) fun found ↦ ?_) fun _ ↦
    part_pure d (List.Subset.refl _)
  refine part_ite (fun _ ↦ Part.bind (part_run hneeds (hP _ rfl)) fun _ ↦ ?_) fun _ ↦ ?_
  · exact part_pure _ (List.Subset.refl _)
  · exact part_pure _ (List.Subset.refl _)

theorem part_cdrom (hstart : atStart ++ [(.fromCdrom, true)] ⊆ given)
    (hmount : P (.task (.mountCdrom md.name))) (humount : P (.task .umountCdrom)) :
    Part P given later (doExtractFromCdrom b md l) (fun _ ↦ given) later := by
  refine Part.bind (part_run hstart hmount) fun _ ↦ ?_
  refine Part.bind (part_forEach fun d _ ↦ part_extract hP ?_ hstart) fun _ ↦ ?_
  · exact List.Subset.trans (List.subset_append_left _ _) hstart
  · exact Part.bind (part_run hstart humount) fun _ ↦ part_pure _ (List.Subset.refl _)

theorem part_ftp (hstart : atStart ++ [(.fetch, true)] ⊆ given) :
    Part P given later (doFtp b ftp l) (fun _ ↦ given) later := by
  refine Part.bind (part_run hstart (hP _ rfl)) fun _ ↦ ?_
  exact Part.bind (part_forEach fun d _ ↦ part_run hstart (hP _ rfl)) fun _ ↦
    part_pure () (List.Subset.refl _)

theorem part_extract_ftp (hstart : atStart ++ [(.fetch, true)] ⊆ given) :
    Part P given later (doExtractFromFtp b ftp l) (fun _ ↦ given) later := by
  refine Part.bind (part_forEach fun d _ ↦ part_extract hP ?_ hstart) fun _ ↦
    part_pure _ (List.Subset.refl _)
  exact List.Subset.trans (List.subset_append_left _ _) hstart

theorem part_probePccard {devices : Option Bytes} :
    Part P given later (probePccard devices) (fun _ ↦ given) later := by
  refine Part.bind part_ofOption fun found ↦ ?_
  refine part_ite (fun _ ↦ ?_) fun _ ↦ part_pure 0 (List.Subset.refl _)
  exact Part.bind (part_run (List.nil_subset _) (hP _ rfl)) fun _ ↦ part_pure 1 (List.Subset.refl _)

theorem part_probe {x : Machine} {v : Locals} :
    Part P given later (probe b x v) (fun _ ↦ given) later := by
  have hpccard : Part P given later (getPccard b x v) (fun _ ↦ given) later :=
    part_ite (fun _ ↦ part_probePccard hP) fun _ ↦ part_pure _ (List.Subset.refl _)
  refine Part.bind hpccard fun pccard ↦ Part.bind part_ofOption fun hd ↦ ?_
  refine Part.bind part_ofOption fun found ↦ part_ite (fun _ ↦ part_exit 1) fun _ ↦ ?_
  exact part_pure _ (List.Subset.refl _)

theorem part_readDisks {popen : Bytes → Bytes} (hstart : atStart ⊆ given) (r : Reading)
    (hd : List Hd) : Part P given later (readDisks popen r hd) (fun _ ↦ given) later := by
  induction hd generalizing r with
  | nil => exact part_pure _ (List.Subset.refl _)
  | cons h hd ih =>
    refine part_ite (fun _ ↦ ?_) fun _ ↦ ?_
    · exact Part.bind (ih r) fun _ ↦ part_pure _ (List.Subset.refl _)
    · refine Part.bind (part_run hstart (hP _ rfl)) fun _ ↦ Part.bind part_ofOption fun y ↦ ?_
      exact Part.bind (ih y.2) fun _ ↦ part_pure _ (List.Subset.refl _)

/-- `isexit`: what comes behind it has been confirmed. -/
theorem part_isexit (hneeds : ∀ c, (Act.answer q c).needs ⊆ given) (hlater : q ∉ later) :
    Part P given (q :: later) (isexit signed q) (fun _ ↦ (q, true) :: given) later := by
  refine Part.bind (part_ask hP hneeds hlater) fun c ↦ part_ite (fun _ ↦ part_exit 0) fun hc ↦ ?_
  rw [decide_eq_true (not_not.1 hc)]
  exact part_pure () (List.Subset.refl _)

/-- What is asked behind the start. -/
def laterQuestions : List Question :=
  [.format, .fromCdrom, .dhcp, .fetch, .boot, .network, .remove, .passwd]

theorem part_begin {x : Machine} {v : Locals} {hd : List Hd} :
    Part P [] (.sure :: .really :: laterQuestions) (begin b x v hd) (fun _ ↦ atStart)
      laterQuestions := by
  have hstart : Part P [] (.sure :: .really :: laterQuestions) (startMsg b.signed)
      (fun _ ↦ atStart) laterQuestions := by
    refine Part.bind (part_isexit hP (fun c ↦ List.Subset.refl _) (by decide)) fun _ ↦ ?_
    refine (part_isexit hP (fun c ↦ List.Subset.refl _) (by decide)).mono (List.Subset.refl _)
      (List.Subset.refl _) (fun _ ↦ ?_) (List.Subset.refl _)
    decide
  refine Part.bind hstart fun _ ↦
    Part.bind (part_readDisks hP (List.Subset.refl _) _ _) fun read ↦ ?_
  refine part_ite (fun _ ↦ part_exit 1) fun _ ↦ Part.bind part_ofOption fun made ↦ ?_
  exact part_ite (fun _ ↦ part_exit 1) fun _ ↦ part_choose

theorem part_format {t : Chosen} (hlater : .format ∉ later)
    (hcs : ∀ c ∈ runMkswap t.pa t.numPat ++ runMke2fs t.pa t.numPat, P (.task (.disk c))) :
    Part P atStart (.format :: later) (format b t) (fun _ ↦ atStart) later := by
  have hneeds : ∀ c : Command, (Task.disk c).needs ⊆ (.format, true) :: atStart := fun c ↦ by
    refine List.append_subset.2 ⟨List.subset_cons_self _ _, ?_⟩
    exact List.Subset.trans (needs_command c) (by decide)
  refine part_isskip hP (fun c ↦ List.Subset.refl _) hlater ?_
  refine Part.bind (part_disks (fun c _ ↦ hneeds c) fun c hc ↦
    hcs c (List.mem_append_left _ hc)) fun _ ↦ ?_
  have hmke2fs : Part P ((.format, true) :: atStart) later (disks (runMke2fs t.pa t.numPat))
      (fun _ ↦ (.format, true) :: atStart) later :=
    part_disks (fun c _ ↦ hneeds c) fun c hc ↦ hcs c (List.mem_append_right _ hc)
  exact hmke2fs.mono (List.Subset.refl _) (List.Subset.refl _)
    (fun _ ↦ List.subset_cons_self _ _) (List.Subset.refl _)

theorem part_setDhcp (hlater : .dhcp ∉ later) :
    Part P atStart (.dhcp :: later) (setDhcp b md)
      (fun dhcp ↦ if dhcp = 0 then (.dhcp, false) :: atStart else atStart) later := by
  refine Part.bind (part_ask hP (fun c ↦ List.Subset.refl _) hlater) fun c ↦
    part_ite (fun hc ↦ ?_) fun hc ↦ ?_
  · rw [decide_eq_true hc]
    have hneeds : (Task.dhclient md.name).needs ⊆ (.dhcp, true) :: atStart :=
      List.append_subset.2 (by decide)
    exact Part.bind (part_run hneeds (hP _ rfl)) fun _ ↦ part_pure 1 (List.subset_cons_self _ _)
  · rw [decide_eq_false hc]
    exact part_pure 0 (List.Subset.refl _)

theorem part_setUpNetwork {v : Locals} (hlater : .dhcp ∉ later) :
    Part P atStart (.dhcp :: later) (setUpNetwork b v md) (fun _ ↦ atStart) later := by
  refine part_ite (fun _ ↦ Part.bind (part_setDhcp hP hlater) fun dhcp ↦ ?_) fun _ ↦ ?_
  · refine part_ite (fun hzero ↦ ?_) fun hone ↦ ?_
    · rw [if_pos hzero]
      have hneeds : atStart ++ [(.dhcp, false)] ⊆ (.dhcp, false) :: atStart := by decide
      refine Part.bind part_take fun net ↦ Part.bind (Part.bind (part_run hneeds (hP _ rfl)) fun _ ↦
        part_run hneeds (hP _ rfl)) fun _ ↦ ?_
      exact part_pure _ (List.subset_cons_self _ _)
    · rw [if_neg hone]
      exact part_pure _ (List.Subset.refl _)
  · exact Part.more (part_pure (g := fun _ ↦ atStart) (v.dhcp, v.net) (List.Subset.refl _))
      (List.subset_cons_self _ _)

theorem part_fetchAll (hlater : .fetch ∉ later) :
    Part P atStart (.fetch :: later) (fetchAll b ftp l) (fun _ ↦ atStart) later := by
  refine part_isskip hP (fun c ↦ List.Subset.refl _) hlater ?_
  refine Part.bind (part_ftp hP (by decide)) fun _ ↦
    Part.bind (part_extract_ftp hP (by decide)) fun _ ↦ ?_
  exact part_pure () (List.subset_cons_self _ _)

theorem part_setProxy (hstart : atStart ⊆ given) :
    Part P given later (setProxy ftp) (fun _ ↦ given) later :=
  part_ite (fun _ ↦ part_run hstart (hP _ rfl)) fun _ ↦ part_pure () (List.Subset.refl _)

/-- What is asked behind the binaries. -/
def lastQuestions : List Question := [.boot, .network, .remove, .passwd]

theorem part_fromCdrom (hlater : .fromCdrom ∉ later)
    (hmount : P (.task (.mountCdrom md.name))) (humount : P (.task .umountCdrom)) :
    Part P atStart (.fromCdrom :: later) (fromCdrom b md l) (fun _ ↦ atStart) later := by
  refine part_isskip hP (fun c ↦ List.Subset.refl _) hlater ?_
  refine Part.bind (part_cdrom hP (by decide) hmount humount) fun _ ↦ ?_
  exact part_pure () (List.subset_cons_self _ _)

theorem part_fromNet {v : Locals} (hdhcp : .dhcp ∉ .fetch :: later) (hfetch : .fetch ∉ later) :
    Part P atStart (.dhcp :: .fetch :: later) (fromNet b v md l) (fun _ ↦ atStart) later := by
  refine Part.bind (part_setUpNetwork hP hdhcp) fun set ↦ Part.bind part_take fun ftp ↦ ?_
  refine Part.bind (part_setProxy hP (List.Subset.refl _)) fun _ ↦ ?_
  exact Part.bind (part_fetchAll hP hfetch) fun _ ↦ part_pure _ (List.Subset.refl _)

theorem part_getBinaries {v : Locals} {media : List Medium}
    (hmount : ∀ name, P (.task (.mountCdrom name))) (humount : P (.task .umountCdrom)) :
    Part P atStart (.fromCdrom :: .dhcp :: .fetch :: lastQuestions) (getBinaries b v media)
      (fun _ ↦ atStart) lastQuestions := by
  refine Part.bind part_take fun l ↦ Part.bind part_take fun act_md ↦
    Part.bind part_ofOption fun md ↦ part_ite (fun _ ↦ ?_) fun _ ↦ ?_
  · have hsource : Part P atStart (.fromCdrom :: lastQuestions) (do
        fromCdrom b md l
        pure (⟨md, v.dhcp, none⟩ : Source)) (fun _ ↦ atStart) lastQuestions :=
      Part.bind (part_fromCdrom hP (by decide) (hmount _) humount) fun _ ↦
        part_pure _ (List.Subset.refl _)
    exact hsource.more (by decide)
  · have hsource : Part P atStart (.dhcp :: .fetch :: lastQuestions) (do
        let x ← fromNet b v md l
        pure (⟨md, x.1, some x.2⟩ : Source)) (fun _ ↦ atStart) lastQuestions :=
      Part.bind (part_fromNet hP (by decide) (by decide)) fun _ ↦ part_pure _ (List.Subset.refl _)
    exact hsource.more (by decide)

theorem part_bootBlock {t : Chosen} (hlater : .boot ∉ later) :
    Part P atStart (.boot :: later) (bootBlock b t) (fun _ ↦ atStart) later := by
  refine part_ite (fun _ ↦ part_isskip hP (fun c ↦ List.Subset.refl _) hlater ?_) fun _ ↦ ?_
  · have hneeds : atStart ++ [(.boot, true)] ⊆ (.boot, true) :: atStart := by decide
    refine Part.bind part_ofOption fun name ↦ Part.bind (part_run hneeds (hP _ rfl)) fun _ ↦ ?_
    exact (part_run hneeds (hP _ rfl)).mono (List.Subset.refl _) (List.Subset.refl _)
      (fun _ ↦ List.subset_cons_self _ _) (List.Subset.refl _)
  · exact Part.more (part_pure (g := fun _ ↦ atStart) () (List.Subset.refl _))
      (List.subset_cons_self _ _)

theorem part_bootMenu {root : Entry} :
    Part P atStart later (bootMenu b root) (fun _ ↦ atStart) later := by
  refine part_ite (fun _ ↦ Part.bind part_ofOption fun text ↦ ?_) fun _ ↦
    part_pure () (List.Subset.refl _)
  refine part_printFile rfl ?_ (hP _ rfl)
  rw [Act.needs, if_pos (.inl rfl), List.append_nil]
  exact List.Subset.refl _

theorem part_wrRcconf {pccard dhcp : ℤ} :
    Part P atStart later (wrRcconf b pccard dhcp md) (fun _ ↦ atStart) later := by
  refine part_ite (fun _ ↦ part_printFile rfl ?_ (hP _ rfl)) fun _ ↦
    part_run (List.Subset.refl _) (hP _ rfl)
  rw [Act.needs, if_pos rfl, List.append_nil]
  exact List.Subset.refl _

theorem part_wrNetwork (hgiven : atStart ++ [(.network, true)] ⊆ given) :
    Part P given later (wrNetwork b md net) (fun _ ↦ given) later := by
  refine part_ite (fun _ ↦ ?_) fun _ ↦ ?_
  · refine Part.bind (part_forEach fun a ha ↦ ?_) fun _ ↦ part_pure () (List.Subset.refl _)
    obtain ⟨hno, hplain, hneeds⟩ := needs_networkFiles ha
    exact part_printFile hno (List.Subset.trans hneeds hgiven) (hP a hplain)
  · refine Part.bind (part_forEach fun file _ ↦ ?_) fun _ ↦ part_pure () (List.Subset.refl _)
    refine Part.bind (part_isThere hP ?_) fun _ ↦ part_ite (fun _ ↦ ?_) fun _ ↦ ?_
    · exact List.Subset.trans (List.subset_append_left _ _) hgiven
    · exact part_run hgiven (hP _ rfl)
    · exact part_pure () (List.Subset.refl _)

theorem part_keepNetwork {x : Source} (hlater : .network ∉ later) :
    Part P atStart (.network :: later) (keepNetwork b x net) (fun _ ↦ atStart) later := by
  refine part_ite (fun _ ↦ part_isskip hP (fun c ↦ List.Subset.refl _) hlater ?_) fun _ ↦
    part_skip (List.subset_cons_self _ _)
  exact (part_wrNetwork hP (by decide)).mono (List.Subset.refl _) (List.Subset.refl _)
    (fun _ ↦ List.subset_cons_self _ _) (List.Subset.refl _)

theorem part_doRminst (hlater : .remove ∉ later) :
    Part P atStart (.remove :: later) (doRminst b ftp) (fun _ ↦ atStart) later := by
  refine part_isskip hP (fun c ↦ List.Subset.refl _) hlater ?_
  refine (part_run ?_ (hP _ rfl)).mono (List.Subset.refl _) (List.Subset.refl _)
    (fun _ ↦ List.subset_cons_self _ _) (List.Subset.refl _)
  exact List.append_subset.2 (by decide)

theorem part_netFiles {x : Source} :
    Part P atStart [.network, .remove, .passwd] (netFiles b x) (fun _ ↦ atStart) [.passwd] := by
  rw [netFiles.eq_def]
  split
  · exact part_skip (by decide)
  · exact Part.bind (part_keepNetwork hP (by decide)) fun _ ↦ part_doRminst hP (by decide)

theorem part_doPasswd : Part P atStart [.passwd] (doPasswd b) (fun _ ↦ atStart) [] := by
  have hneeds : atStart ++ [(.passwd, true)] ⊆ (.passwd, true) :: atStart := by decide
  refine part_isskip hP (fun c ↦ List.Subset.refl _) List.not_mem_nil ?_
  refine Part.bind (part_run hneeds (hP _ rfl)) fun _ ↦
    Part.bind (part_run hneeds (hP _ rfl)) fun _ ↦
    Part.bind (part_run hneeds (hP _ rfl)) fun _ ↦
    Part.bind (part_run hneeds (hP _ rfl)) fun _ ↦ ?_
  exact (part_run hneeds (hP _ rfl)).mono (List.Subset.refl _) (List.Subset.refl _)
    (fun _ ↦ List.subset_cons_self _ _) (List.Subset.refl _)

theorem part_configure {pccard : ℤ} {t : Chosen} {root : Entry} {x : Source} :
    Part P atStart lastQuestions (configure b pccard t root x) (fun _ ↦ atStart) [] := by
  refine Part.bind (part_bootBlock hP (by decide)) fun _ ↦
    Part.bind (part_run (List.Subset.refl _) (hP _ rfl)) fun _ ↦
    Part.bind (part_bootMenu hP) fun _ ↦ ?_
  refine Part.bind (part_printFile rfl ?_ (hP _ rfl)) fun _ ↦
    Part.bind (part_wrRcconf hP) fun _ ↦ ?_
  · rw [Act.needs, if_pos (.inr rfl), List.append_nil]
    exact List.Subset.refl _
  · exact Part.bind (part_netFiles hP) fun _ ↦ part_doPasswd hP

theorem part_fill {v : Locals} {pccard : ℤ} {media : List Medium} {t : Chosen}
    (hcs : ∀ c ∈ t.commands, P (.task (.disk c)))
    (hmount : ∀ name, P (.task (.mountCdrom name))) (humount : P (.task .umountCdrom)) :
    Part P atStart laterQuestions (fill b v pccard media t) (fun _ ↦ atStart) [] := by
  refine Part.bind (part_format hP (by decide) fun c hc ↦ hcs c (List.mem_append_left _ hc))
    fun _ ↦ Dialog.Meets.ofOption_bind fun root hroot ↦ ?_
  have hroot' : ∀ c ∈ doMount t.pa t.numPat root.1 ++ doUmount t.pa t.numPat root.1,
      P (.task (.disk c)) := by
    intro c hc
    refine hcs c (List.mem_append_right _ ?_)
    rw [Option.mem_def.1 hroot]
    exact hc
  refine Part.bind (part_disks (fun c hc ↦ needs_doMount (.inl hc)) fun c hc ↦
    hroot' c (List.mem_append_left _ hc)) fun _ ↦ ?_
  refine Part.bind (part_getBinaries hP hmount humount) fun source ↦
    Part.bind (part_configure hP) fun _ ↦ ?_
  exact part_disks (fun c hc ↦ needs_doMount (.inr hc)) fun c hc ↦
    hroot' c (List.mem_append_right _ hc)

end

/-! ## Whole runs -/

/-- A history in which the questions at the start have been answered, and no other. -/
theorem asked_atStart (hlater : ∀ q ∈ later, q ≠ .sure ∧ q ≠ .really) :
    Asked atStart later [.answer .sure 121, .answer .really 121] := by
  refine ⟨List.Subset.refl _, fun q hq hmem ↦ ?_⟩
  rcases List.mem_cons.1 hmem with h | h
  · exact (hlater q hq).1 h
  · exact (hlater q hq).2 (List.mem_singleton.1 h)

/-- What a part of the installer does is expected. -/
theorem Part.expected {g : α → List (Question × Bool)} {d : Prog α}
    (hd : Part P given later d g later') (hh : Asked given later h) (s : Outside) :
    ∀ a ∈ (d s).1, P a := by
  intro a ha
  obtain ⟨before, after, heq⟩ := List.append_of_mem ha
  exact (Dialog.allowed_iff.1 (hd h s hh).1 before a after heq).expected

/-- A disk with a Linux and a swap partition, and a CD-ROM. -/
def cdMachine : Machine where
  devices := none
  partitions := some (cstr "   3 0 1000 hda\n   3 1 500 hda1\n  22 0 1000 hdc\n")
  netDev := none
  cdromInfo := some (cstr "drive name:\t\thdc\n")
  popen _ := cstr "/dev/hda1   *   1   500  1 83  Linux\n/dev/hda2   501   600  1 82  Linux swap\n"

def cdBuild : Build :=
  ⟨false, true, true, true, false, false, true, cstr "0.2", cstr "2.4.26", cstr "i386"⟩

def zeroLocals : Locals where
  pccard := 0
  dhcp := 0
  m := 0
  rootPat := 0
  existRoot := 0
  reading := ⟨1, fun _ ↦ [], 0⟩
  net := ⟨[], [], [], [], [], [], []⟩
  behind := []
  fresh _ := ⟨0, 0, false⟩

/-- The partitions are formatted, and the binaries come from the CD-ROM. -/
def cdAnswers : Outside := ⟨cstr "y\ny\nx\nx\ny\nx\nx\ny\ny\nn\n", []⟩

end Sysinst
