import SsdLinux.Flashcfg

/-!
# `flashcfg`: one run after the other

`main` does what the first option says and returns.  `-c` writes the boot device to the NVRAM, `-f`
a kernel to `/dev/mtd/1`, `-s` an archive to `/dev/mtd/0`, and `-d` erases that device; `-x` hands
`/dev/mtd/0` to `tar`, and changes nothing on the devices.

* What a run writes is said cell by cell (`Layer`): a byte, or anything at all in the sector at
  which a run has failed.
* An archive takes up no more sectors than it needs, and the sectors behind it keep what was there.
  So the cells of a device are not those of the last archive, but each cell is as the last run has
  left it that has written there (`flash_history`).

The name of a file stands for what comes of it: the file, and how the calls before the loop end.
-/

set_option autoImplicit false

namespace Flashcfg

open CLib Nor

/-! ## The tool -/

/-- The loop of `flash_delete_param`. -/
def eraseSectors (d : Mtd) : ℕ → Flash → Outcome × Flash
  | 0, f => (.done, f)
  | n + 1, f =>
    match d.memErase f.start SECT1_SIZE f.cells with
    | (false, cells) => (.eraseFailure, { f with cells })
    | (true, cells) => eraseSectors d n { f with start := f.start + SECT1_SIZE, cells }

/-- `flash_delete_param`, and whether the device can be opened. -/
def flashDeleteParam (d : Mtd) (device : Bool) (m : Cells) : Outcome × Flash :=
  if !device then (.noDevice, ⟨0, 0, m⟩) else eraseSectors d 8 ⟨0, 0, m⟩

def NVRAM_BOOT_OFF : ℕ := 256

/-- `sizeof(nvram_boot)`. -/
def bootSize : ℕ := 16

/-- How the calls for `/dev/nvram0` end: `open` and `lseek`, and `write`. -/
structure Nvram where
  opened : Bool
  written : Bool

/-- `nvram_boot` with another device, from what has been read of it. -/
def bootRecord (arg nvram_boot : Bytes) : Bytes :=
  cstr "NV" ++ (arg ++ [0]) ++ nvram_boot.drop (2 + (arg.length + 1))

/-- `flash_set_bootdev`. -/
def flashSetBootdev (io : Nvram) (arg nvram : Bytes) : Bytes :=
  let nvram_boot := (nvram.drop NVRAM_BOOT_OFF).take bootSize
  if !io.opened then nvram
  else if nvram_boot.length ≠ bootSize then nvram
  else if !io.written then nvram
  else nvram.take NVRAM_BOOT_OFF ++ bootRecord arg nvram_boot
    ++ nvram.drop (NVRAM_BOOT_OFF + bootSize)

/-- The boot devices, by their names. -/
def bootDevs : List (Bytes × Bytes) :=
  [(cstr "harddisk", [1, 7] ++ cstr "hda1"), (cstr "initrd", [2, 7] ++ cstr "ram"),
    (cstr "hda1", [1, 7] ++ cstr "hda1"), (cstr "hda2", [1, 7] ++ cstr "hda2"),
    (cstr "hda3", [1, 7] ++ cstr "hda3"), (cstr "hda4", [1, 7] ++ cstr "hda4")]

/-- The device that the argument of `-c` stands for. -/
def bootDev (optarg : Bytes) : Option Bytes := (bootDevs.find? (·.1 == optarg)).map Prod.snd

/-- A source file, which the reads return whole, and how the calls before the loop end. -/
structure SourceFile (sect : ℕ) where
  file : Bytes
  world : World
  source : world.Source sect file

/-- What `getopt` returns first. -/
inductive Opt
  | c (optarg : Bytes) (io : Nvram)
  | f (kern : SourceFile SECT2_SIZE)
  | s (archive : SourceFile SECT1_SIZE)
  | x
  | d (device : Bool)
  | h
  | unknown

/-- A run of the tool, and the devices as they are in it. -/
structure Run where
  uid : ℕ
  opt : Option Opt
  mtd0 : Mtd
  mtd1 : Mtd

/-- What the devices hold. -/
structure Box where
  nvram : Bytes
  param : Cells
  kern : Cells

/-- `main`. -/
def main (r : Run) (b : Box) : Box :=
  if r.uid ≠ 0 then b else
  match r.opt with
  | some (.c optarg io) =>
    match bootDev optarg with
    | some dev => { b with nvram := flashSetBootdev io dev b.nvram }
    | none => b
  | some (.f kern) => { b with kern := (flashProgKern r.mtd1 kern.world b.kern).2.cells }
  | some (.s archive) => { b with param := (flashSaveParam r.mtd0 archive.world b.param).2.cells }
  | some (.d device) => { b with param := (flashDeleteParam r.mtd0 device b.param).2.cells }
  | _ => b

/-! ## What a run writes -/

/-- What a run has written: a byte, or something at all (`some none`). -/
abbrev Layer := ℕ → Option (Option UInt8)

/-- A cell before and after, where this has been written to it. -/
def Shows (before after : UInt8) : Option (Option UInt8) → Prop
  | none => after = before
  | some none => True
  | some (some b) => after = b

/-- What the cells of a device are after they have been written. -/
def Layer.Leaves (l : Layer) (m m' : Cells) : Prop := ∀ i, Shows (m i) (m' i) (l i)

/-- What has been written to the first `len` bytes of a device, by how the run ended and where. -/
def outcomeLayer (sect len : ℕ) (byte : ℕ → UInt8) (out : Outcome) (start : ℕ) : Layer := fun i ↦
  match out with
  | .done => if i < len then some (some (byte i)) else none
  | .eraseFailure | .writeFailure =>
    if i < start then some (some (byte i)) else if i < start + sect then some none else none
  | _ => none

/-- What a call writes to a device.  How it ends, and where, does not depend on the cells. -/
def callLayer (sect len : ℕ) (byte : ℕ → UInt8) (call : Cells → Outcome × Flash) : Layer :=
  outcomeLayer sect len byte (call fun _ ↦ 0).1 (call fun _ ↦ 0).2.start

/-- What a run writes to `/dev/mtd/0`. -/
def Run.paramLayer (r : Run) : Layer :=
  if r.uid ≠ 0 then fun _ ↦ none else
  match r.opt with
  | some (.s archive) => callLayer SECT1_SIZE (filled SECT1_SIZE archive.file.length)
      (fun i ↦ archive.file.getD i 0xFF) (flashSaveParam r.mtd0 archive.world)
  | some (.d device) =>
    callLayer SECT1_SIZE (8 * SECT1_SIZE) (fun _ ↦ 0xFF) (flashDeleteParam r.mtd0 device)
  | _ => fun _ ↦ none

/-- What a run writes to `/dev/mtd/1`. -/
def Run.kernLayer (r : Run) : Layer :=
  if r.uid ≠ 0 then fun _ ↦ none else
  match r.opt with
  | some (.f kern) => callLayer SECT2_SIZE (filled SECT2_SIZE kern.file.length)
      (fun i ↦ kern.file.getD i 0xFF) (flashProgKern r.mtd1 kern.world)
  | _ => fun _ ↦ none

/-- The boot device that a run writes. -/
def Run.newDev (r : Run) : Option Bytes :=
  if r.uid ≠ 0 then none else
  match r.opt with
  | some (.c optarg io) => if io.opened && io.written then bootDev optarg else none
  | _ => none

/-! ## Cells and layers -/

variable {d : Mtd} {sect len n i : ℕ} {byte : ℕ → UInt8} {m m' m'' : Cells} {l l' : Layer}
  {b : Box} {r : Run}

theorem Layer.leaves_none (m : Cells) : Layer.Leaves (fun _ ↦ none) m m := fun _ ↦ rfl

/-- The layer of one run over the one of the runs before it. -/
def Layer.over (l' l : Layer) : Layer := fun i ↦ (l' i).or (l i)

/-- **One run after another.** -/
theorem Layer.Leaves.over (h : l.Leaves m m') (h' : l'.Leaves m' m'') :
    (l'.over l).Leaves m m'' := by
  intro i
  have hi := h i
  have hi' := h' i
  rw [Layer.over]
  rcases hl : l' i with _ | x
  · rw [hl] at hi'
    have heq : m'' i = m' i := hi'
    rwa [Option.none_or, heq]
  · rw [hl] at hi'
    rcases x with _ | x
    · trivial
    · exact hi'

/-- The cells that a history leaves: each as the last run has left it that has written there. -/
def lastLayer (layer : Run → Layer) (rs : List Run) : Layer :=
  fun i ↦ rs.reverse.findSome? fun r ↦ layer r i

theorem lastLayer_concat (layer : Run → Layer) (rs : List Run) (r : Run) :
    lastLayer layer (rs ++ [r]) = (layer r).over (lastLayer layer rs) := by
  funext i
  rw [lastLayer, List.reverse_append, List.reverse_singleton, List.singleton_append,
    List.findSome?_cons, Layer.over, lastLayer]
  rcases layer r i with _ | x <;> rfl

/-! ## How a call ends -/

/-- How a call ends, and where, whatever the cells. -/
def Steady (call : Cells → Outcome × Flash) : Prop :=
  ∀ m m', (call m).1 = (call m').1 ∧ (call m).2.start = (call m').2.start

theorem memErase_fst (d : Mtd) (start length : ℕ) (m m' : Cells) :
    (d.memErase start length m).1 = (d.memErase start length m').1 := by
  rw [Mtd.memErase, Mtd.memErase]
  split_ifs
  · rcases d.fault start with _ | ⟨left | left⟩ <;> rfl
  · rfl

theorem write_fst (d : Mtd) (offset : ℕ) (data : Bytes) (m m' : Cells) :
    (d.write offset data m).1 = (d.write offset data m').1 := by
  rw [Mtd.write, Mtd.write]
  split_ifs
  · rcases d.fault offset with _ | ⟨left | left⟩ <;> rfl
  · rfl

theorem steady_writeSectors (d : Mtd) (sect : ℕ) (blocks : List Bytes) (start offset : ℕ) :
    Steady fun m ↦ writeSectors d sect blocks ⟨start, offset, m⟩ := by
  induction blocks generalizing start offset with
  | nil => exact fun _ _ ↦ ⟨rfl, rfl⟩
  | cons block blocks ih =>
    intro m m'
    have herase := memErase_fst d start sect m m'
    simp only [writeSectors]
    rcases hm : d.memErase start sect m with ⟨ok, cells⟩
    rcases hm' : d.memErase start sect m' with ⟨ok', cells'⟩
    rw [hm, hm'] at herase
    cases herase
    rcases ok with _ | _
    · exact ⟨rfl, rfl⟩
    · have hwrite := write_fst d offset block cells cells'
      dsimp only
      rcases hw : d.write offset block cells with ⟨ok, cells₁⟩
      rcases hw' : d.write offset block cells' with ⟨ok', cells₁'⟩
      rw [hw, hw'] at hwrite
      cases hwrite
      rcases ok with _ | _
      · exact ⟨rfl, rfl⟩
      · exact ih _ _ cells₁ cells₁'

theorem steady_eraseSectors (d : Mtd) (n start offset : ℕ) :
    Steady fun m ↦ eraseSectors d n ⟨start, offset, m⟩ := by
  induction n generalizing start with
  | zero => exact fun _ _ ↦ ⟨rfl, rfl⟩
  | succ n ih =>
    intro m m'
    have herase := memErase_fst d start SECT1_SIZE m m'
    simp only [eraseSectors]
    rcases hm : d.memErase start SECT1_SIZE m with ⟨ok, cells⟩
    rcases hm' : d.memErase start SECT1_SIZE m' with ⟨ok', cells'⟩
    rw [hm, hm'] at herase
    cases herase
    rcases ok with _ | _
    · exact ⟨rfl, rfl⟩
    · exact ih _ cells cells'

theorem Steady.ite {c : Prop} [Decidable c] {f g : Cells → Outcome × Flash} (hf : Steady f)
    (hg : Steady g) : Steady fun m ↦ if c then f m else g m := by
  intro m m'
  dsimp only
  split_ifs
  · exact hf m m'
  · exact hg m m'

theorem steady_stop (out : Outcome) : Steady fun m ↦ (out, ⟨0, 0, m⟩) := fun _ _ ↦ ⟨rfl, rfl⟩

theorem steady_save (d : Mtd) (w : World) : Steady (flashSaveParam d w) := by
  refine Steady.ite (steady_stop _) (Steady.ite (steady_stop _) ?_)
  rcases w.stSize with _ | size
  · exact steady_stop _
  · refine Steady.ite (steady_stop _) (Steady.ite (steady_stop _) (Steady.ite (steady_stop _) ?_))
    exact steady_writeSectors _ _ _ _ _

theorem steady_prog (d : Mtd) (w : World) : Steady (flashProgKern d w) := by
  refine Steady.ite (steady_stop _) ?_
  rcases w.stSize with _ | size
  · exact steady_stop _
  · refine Steady.ite (steady_stop _) (Steady.ite (steady_stop _) (Steady.ite (steady_stop _)
      (Steady.ite (steady_stop _) (Steady.ite (steady_stop _) ?_))))
    exact steady_writeSectors _ _ _ _ _

theorem steady_delete (d : Mtd) (device : Bool) : Steady (flashDeleteParam d device) :=
  Steady.ite (steady_stop _) (steady_eraseSectors _ _ _ _)

/-! ## What a call leaves -/

theorem Written.leaves {limit : ℕ} {file : Bytes} {res : Outcome × Flash}
    (h : Written d sect limit file m res) :
    (outcomeLayer sect (filled sect file.length) (fun i ↦ file.getD i 0xFF) res.1
      res.2.start).Leaves m res.2.cells := by
  have hfailed : (∃ k, res.2.start = k * sect ∧ k * sect < file.length ∧ (k + 1) * sect ≤ limit ∧
      d.Fails sect (k * sect) ∧ (∀ j < k, ¬d.Fails sect (j * sect)) ∧
      (∀ i < k * sect, file[i]? = some (res.2.cells i)) ∧
        ∀ i, (k + 1) * sect ≤ i → res.2.cells i = m i) →
      Layer.Leaves (fun i ↦ if i < res.2.start then some (some (file.getD i 0xFF))
        else if i < res.2.start + sect then some none else none) m res.2.cells := by
    rintro ⟨k, hstart, -, -, -, -, hfile, hout⟩ i
    rw [Nat.succ_mul] at hout
    dsimp only
    rw [hstart]
    split_ifs with hi hi'
    · rw [List.getD_eq_getElem?_getD, hfile i hi]
      rfl
    · trivial
    · exact hout i (by omega)
  obtain ⟨out, f⟩ := res
  cases out with
  | done =>
    intro i
    have hcells : f.cells = image sect file m := h.1
    rw [outcomeLayer]
    dsimp only
    rw [hcells, image]
    split_ifs with hi
    · exact patch_of_mem (Nat.zero_le _) (by omega)
    · exact patch_of_le (by omega)
  | eraseFailure => exact hfailed h
  | writeFailure => exact hfailed h
  | _ => exact fun i ↦ congrFun (show f.cells = m from h) i

/-- **The loop of `flash_delete_param`.** -/
theorem eraseSectors_cases (d : Mtd) (n start offset : ℕ) (m : Cells) :
    let res := eraseSectors d n ⟨start, offset, m⟩
    (res.1 = .done ∧ res.2.cells = erase start (n * SECT1_SIZE) m) ∨
    (res.1 = .eraseFailure ∧ start ≤ res.2.start ∧
      (∀ i, start ≤ i → i < res.2.start → res.2.cells i = 0xFF) ∧
      ∀ i, i < start ∨ res.2.start + SECT1_SIZE ≤ i → res.2.cells i = m i) := by
  induction n generalizing start m with
  | zero =>
    refine .inl ⟨rfl, funext fun i ↦ ?_⟩
    rw [Nat.zero_mul, erase]
    exact (if_neg (by omega)).symm
  | succ n ih =>
    dsimp only
    rw [eraseSectors]
    dsimp only
    have hout : ∀ left i, i < start ∨ start + SECT1_SIZE ≤ i →
        patch start SECT1_SIZE left m i = m i := by
      rintro left i (hi | hi)
      · exact patch_of_lt hi
      · exact patch_of_le hi
    rcases herase : d.memErase start SECT1_SIZE m with ⟨_ | _, cells⟩
    · refine .inr ⟨rfl, le_rfl, fun i hi hi' ↦ absurd hi' (by dsimp only; omega), fun i hi ↦ ?_⟩
      rw [Mtd.memErase] at herase
      dsimp only at hi ⊢
      split_ifs at herase
      · rcases hfault : d.fault start with _ | ⟨left | left⟩ <;> rw [hfault] at herase <;>
          cases herase
        exact hout left i hi
      · cases herase
        rfl
    · have hcells : cells = erase start SECT1_SIZE m := by
        rw [Mtd.memErase] at herase
        split_ifs at herase
        · rcases hfault : d.fault start with _ | ⟨left | left⟩ <;> rw [hfault] at herase <;>
            cases herase <;> rfl
        · cases herase
      dsimp only
      have hff : ∀ i, start ≤ i → i < start + SECT1_SIZE → cells i = 0xFF := fun i hi hi' ↦ by
        rw [hcells]
        exact patch_of_mem hi hi'
      rcases ih (start + SECT1_SIZE) cells with ⟨hdone, hall⟩ | ⟨hfail, hle, hbelow, hrest⟩
      · refine .inl ⟨hdone, hall.trans (funext fun i ↦ ?_)⟩
        rw [Nat.succ_mul]
        by_cases hi : start ≤ i ∧ i < start + (n * SECT1_SIZE + SECT1_SIZE)
        · rw [erase, erase, patch_of_mem hi.1 hi.2]
          rcases Nat.lt_or_ge i (start + SECT1_SIZE) with hi' | hi'
          · rw [patch_of_lt hi', hff i hi.1 hi']
          · rw [patch_of_mem hi' (by omega)]
        · rw [erase, erase, patch, patch, if_neg (by omega), if_neg hi, hcells]
          exact hout _ i (by omega)
      · refine .inr ⟨hfail, by omega, fun i hi hi' ↦ ?_, fun i hi ↦ ?_⟩
        · rcases Nat.lt_or_ge i (start + SECT1_SIZE) with hlt | hge
          · rw [hrest i (.inl hlt), hff i hi hlt]
          · exact hbelow i hge hi'
        · rw [hrest i (by omega), hcells]
          exact hout _ i (by omega)

theorem delete_leaves (d : Mtd) (device : Bool) (m : Cells) :
    let res := flashDeleteParam d device m
    (outcomeLayer SECT1_SIZE (8 * SECT1_SIZE) (fun _ ↦ 0xFF) res.1 res.2.start).Leaves m
      res.2.cells := by
  dsimp only
  rw [flashDeleteParam]
  split_ifs
  · exact fun _ ↦ rfl
  · intro i
    rcases eraseSectors_cases d 8 0 0 m with ⟨hdone, hall⟩ | ⟨hfail, -, hbelow, hrest⟩
    · rw [hdone, hall, outcomeLayer, erase]
      split_ifs with hi
      · exact patch_of_mem (Nat.zero_le _) (by omega)
      · exact patch_of_le (by omega)
    · rw [hfail, outcomeLayer]
      split_ifs with hi hi'
      · exact hbelow i (Nat.zero_le _) hi
      · trivial
      · exact hrest i (.inr (by omega))

theorem Steady.callLayer {call : Cells → Outcome × Flash} (h : Steady call) (m : Cells) :
    callLayer sect len byte call = outcomeLayer sect len byte (call m).1 (call m).2.start := by
  rw [Flashcfg.callLayer, (h _ m).1, (h _ m).2]

/-- **What a run leaves on the two devices.** -/
theorem Run.leaves (r : Run) (b : Box) :
    r.paramLayer.Leaves b.param (main r b).param ∧ r.kernLayer.Leaves b.kern (main r b).kern := by
  rw [Run.paramLayer, Run.kernLayer, main]
  by_cases huid : r.uid ≠ 0
  · rw [if_pos huid, if_pos huid, if_pos huid]
    exact ⟨Layer.leaves_none _, Layer.leaves_none _⟩
  rw [if_neg huid, if_neg huid, if_neg huid]
  rcases r.opt with _ | opt
  · exact ⟨Layer.leaves_none _, Layer.leaves_none _⟩
  cases opt with
  | c optarg io =>
    dsimp only
    split <;> exact ⟨Layer.leaves_none _, Layer.leaves_none _⟩
  | f kern =>
    dsimp only
    rw [(steady_prog _ _).callLayer b.kern]
    exact ⟨Layer.leaves_none _, (written_kern kern.source).leaves⟩
  | s archive =>
    dsimp only
    rw [(steady_save _ _).callLayer b.param]
    exact ⟨(written_param archive.source).leaves, Layer.leaves_none _⟩
  | d device =>
    dsimp only
    rw [(steady_delete _ _).callLayer b.param]
    exact ⟨delete_leaves _ _ _, Layer.leaves_none _⟩
  | _ => exact ⟨Layer.leaves_none _, Layer.leaves_none _⟩

/-! ## The boot device -/

/-- What the loader finds in the NVRAM: the magic, and the boot device as a string. -/
def nvramBoot (nvram : Bytes) : Bytes × Bytes :=
  ((nvram.drop NVRAM_BOOT_OFF).take 2,
    ((nvram.drop (NVRAM_BOOT_OFF + 2)).take (bootSize - 2)).takeWhile (· ≠ 0))

variable {io : Nvram} {optarg dev nvram rec : Bytes}

/-- Every boot device fits into its array, with the NUL behind it. -/
theorem fits_of_bootDev (h : bootDev optarg = some dev) : dev.length + 1 ≤ 14 ∧ 0 ∉ dev := by
  have hall : ∀ e ∈ bootDevs, e.2.length + 1 ≤ 14 ∧ 0 ∉ e.2 := by decide
  obtain ⟨e, he, rfl⟩ := Option.map_eq_some_iff.1 h
  exact hall e (List.mem_of_find?_eq_some he)

theorem length_bootRecord (hdev : dev.length + 1 ≤ 14) (hrec : rec.length = 16) :
    (bootRecord dev rec).length = 16 := by
  have hmagic : (cstr "NV").length = 2 := rfl
  simp only [bootRecord, List.length_append, List.length_drop, hmagic, List.length_singleton]
  omega

/-- The two ways in which `flash_set_bootdev` ends. -/
theorem flashSetBootdev_cases (io : Nvram) (arg nvram : Bytes) :
    (flashSetBootdev io arg nvram = nvram ∧
      (272 ≤ nvram.length → (io.opened && io.written) = false)) ∨
    ((io.opened && io.written) = true ∧ 272 ≤ nvram.length ∧
      flashSetBootdev io arg nvram =
        nvram.take 256 ++ bootRecord arg ((nvram.drop 256).take 16) ++ nvram.drop 272) := by
  have hsize : ((nvram.drop NVRAM_BOOT_OFF).take bootSize).length = bootSize ↔
      272 ≤ nvram.length := by
    rw [List.length_take, List.length_drop, bootSize, NVRAM_BOOT_OFF]
    omega
  rw [flashSetBootdev]
  split_ifs with hopened hlen hwritten
  · rw [Bool.not_eq_true'] at hopened
    exact .inl ⟨rfl, fun _ ↦ by rw [hopened, Bool.false_and]⟩
  · exact .inl ⟨rfl, fun hle ↦ absurd (hsize.2 hle) hlen⟩
  · rw [Bool.not_eq_true'] at hwritten
    exact .inl ⟨rfl, fun _ ↦ by rw [hwritten, Bool.and_false]⟩
  · refine .inr ⟨?_, hsize.1 (not_not.1 hlen), rfl⟩
    rw [Bool.and_eq_true]
    exact ⟨by simpa using hopened, by simpa using hwritten⟩

/-- **What is written to the NVRAM** is the record and nothing else. -/
theorem flashSetBootdev_eq (io : Nvram) (hdev : dev.length + 1 ≤ 14) (h0 : 0 ∉ dev) :
    (flashSetBootdev io dev nvram).length = nvram.length ∧
    (∀ i, i < 256 ∨ 272 ≤ i → (flashSetBootdev io dev nvram)[i]? = nvram[i]?) ∧
    (272 ≤ nvram.length → nvramBoot (flashSetBootdev io dev nvram) =
      if io.opened && io.written then (cstr "NV", dev) else nvramBoot nvram) := by
  rcases flashSetBootdev_cases io dev nvram with ⟨heq, hfail⟩ | ⟨hok, hle, heq⟩
  · rw [heq]
    exact ⟨rfl, fun _ _ ↦ rfl, fun hle ↦ (if_neg (by rw [hfail hle]; decide)).symm⟩
  have hbefore : (nvram.take 256).length = 256 := by
    rw [List.length_take]
    omega
  have hrec : (bootRecord dev ((nvram.drop 256).take 16)).length = 16 := by
    refine length_bootRecord hdev ?_
    rw [List.length_take, List.length_drop]
    omega
  rw [heq, hok, if_pos rfl]
  refine ⟨?_, fun i hi ↦ ?_, fun _ ↦ ?_⟩
  · simp only [List.length_append, hbefore, hrec, List.length_drop]
    omega
  · rcases hi with hi | hi
    · rw [List.append_assoc, List.getElem?_append_left (by omega), List.getElem?_take, if_pos hi]
    · rw [List.getElem?_append_right (by rw [List.length_append]; omega), List.getElem?_drop,
        List.length_append, hbefore, hrec]
      have hi' : 272 + (i - (256 + 16)) = i := by omega
      rw [hi']
  · generalize (nvram.drop 256).take 16 = rec
    have hdrop : (nvram.take 256 ++ bootRecord dev rec ++ nvram.drop 272).drop 256
        = cstr "NV" ++ (dev ++ 0 :: (rec.drop (2 + (dev.length + 1)) ++ nvram.drop 272)) := by
      rw [List.append_assoc, List.drop_left' hbefore, bootRecord]
      simp only [List.append_assoc, List.cons_append, List.nil_append]
    rw [nvramBoot, NVRAM_BOOT_OFF, ← List.drop_drop, hdrop]
    have hmagic : (cstr "NV").length = 2 := rfl
    refine Prod.ext (List.take_left' hmagic) ?_
    dsimp only
    rw [List.drop_left' hmagic, bootSize, List.take_append, List.take_of_length_le (by omega),
      List.takeWhile_append_of_pos]
    · obtain ⟨n, hn⟩ : ∃ n, 16 - 2 - dev.length = n + 1 := ⟨13 - dev.length, by omega⟩
      rw [hn, List.take_succ_cons, List.takeWhile_cons_of_neg (by simp), List.append_nil]
    · intro c hc
      rw [decide_eq_true_eq]
      rintro rfl
      exact h0 hc

/-- The boot device that the last of the runs has written that has written one. -/
def lastBoot (rs : List Run) : Option Bytes := rs.reverse.findSome? Run.newDev

theorem lastBoot_concat (rs : List Run) (r : Run) :
    lastBoot (rs ++ [r]) = r.newDev.or (lastBoot rs) := by
  rw [lastBoot, List.reverse_append, List.reverse_singleton, List.singleton_append,
    List.findSome?_cons, lastBoot]
  rcases r.newDev with _ | dev <;> rfl

/-- **What a run leaves in the NVRAM.** -/
theorem Run.boots (r : Run) (b : Box) :
    (main r b).nvram.length = b.nvram.length ∧
    (∀ i, i < 256 ∨ 272 ≤ i → (main r b).nvram[i]? = b.nvram[i]?) ∧
    (272 ≤ b.nvram.length → nvramBoot (main r b).nvram =
      (r.newDev.map fun dev ↦ (cstr "NV", dev)).getD (nvramBoot b.nvram)) := by
  rw [Run.newDev, main]
  by_cases huid : r.uid ≠ 0
  · rw [if_pos huid, if_pos huid]
    exact ⟨rfl, fun _ _ ↦ rfl, fun _ ↦ rfl⟩
  rw [if_neg huid, if_neg huid]
  rcases r.opt with _ | opt
  · exact ⟨rfl, fun _ _ ↦ rfl, fun _ ↦ rfl⟩
  cases opt with
  | c optarg io =>
    dsimp only
    cases hdev : bootDev optarg with
    | none =>
      refine ⟨rfl, fun _ _ ↦ rfl, fun _ ↦ ?_⟩
      split_ifs <;> rfl
    | some dev =>
      obtain ⟨hfits, h0⟩ := fits_of_bootDev hdev
      obtain ⟨hlen, hother, hboot⟩ := @flashSetBootdev_eq dev b.nvram io hfits h0
      refine ⟨hlen, hother, fun hle ↦ (hboot hle).trans ?_⟩
      split_ifs <;> rfl
  | _ => exact ⟨rfl, fun _ _ ↦ rfl, fun _ ↦ rfl⟩

/-! ## A history of runs -/

/-- The devices after some runs. -/
def runs (rs : List Run) (b : Box) : Box := rs.foldl (fun b r ↦ main r b) b

theorem runs_concat (rs : List Run) (r : Run) (b : Box) :
    runs (rs ++ [r]) b = main r (runs rs b) := by
  rw [runs, List.foldl_concat, runs]

theorem runs_leaves (rs : List Run) (b : Box) :
    (lastLayer Run.paramLayer rs).Leaves b.param (runs rs b).param ∧
      (lastLayer Run.kernLayer rs).Leaves b.kern (runs rs b).kern := by
  induction rs using List.reverseRecOn with
  | nil => exact ⟨Layer.leaves_none _, Layer.leaves_none _⟩
  | append_singleton rs r ih =>
    rw [lastLayer_concat, lastLayer_concat, runs_concat]
    exact ⟨ih.1.over (r.leaves _).1, ih.2.over (r.leaves _).2⟩

theorem runs_boots (rs : List Run) (b : Box) :
    (runs rs b).nvram.length = b.nvram.length ∧
    (∀ i, i < 256 ∨ 272 ≤ i → (runs rs b).nvram[i]? = b.nvram[i]?) ∧
    (272 ≤ b.nvram.length → nvramBoot (runs rs b).nvram =
      ((lastBoot rs).map fun dev ↦ (cstr "NV", dev)).getD (nvramBoot b.nvram)) := by
  induction rs using List.reverseRecOn with
  | nil => exact ⟨rfl, fun _ _ ↦ rfl, fun _ ↦ rfl⟩
  | append_singleton rs r ih =>
    obtain ⟨hlen, hother, hboot⟩ := ih
    obtain ⟨hlen', hother', hboot'⟩ := r.boots (runs rs b)
    rw [runs_concat]
    refine ⟨hlen'.trans hlen, fun i hi ↦ (hother' i hi).trans (hother i hi), fun hle ↦ ?_⟩
    rw [hboot' (by omega), hboot hle, lastBoot_concat]
    rcases r.newDev with _ | dev <;> rfl

/-- The last runs do not write to a cell. -/
theorem lastLayer_of_none {layer : Run → Layer} {before after : List Run}
    (h : ∀ r' ∈ after, layer r' i = none) (hr : (layer r i).isSome) :
    lastLayer layer (before ++ r :: after) i = layer r i := by
  have hafter : (after.reverse.findSome? fun r ↦ layer r i) = none :=
    List.findSome?_eq_none_iff.2 fun r' hr' ↦ h r' (List.mem_reverse.1 hr')
  obtain ⟨x, hx⟩ := Option.isSome_iff_exists.1 hr
  rw [lastLayer, List.reverse_append, List.reverse_cons, List.append_assoc,
    List.findSome?_append, hafter, Option.none_or, List.singleton_append, List.findSome?_cons, hx]

theorem paramLayer_saved {archive : SourceFile SECT1_SIZE} (huid : r.uid = 0)
    (hopt : r.opt = some (.s archive))
    (hdone : (flashSaveParam r.mtd0 archive.world fun _ ↦ 0).1 = .done)
    (hi : i < archive.file.length) : ∃ byte, archive.file[i]? = some byte ∧
      r.paramLayer i = some (some byte) := by
  have hfill : i < filled SECT1_SIZE archive.file.length := by
    have hle : archive.file.length ≤ filled SECT1_SIZE archive.file.length := by
      have hdiv := Nat.div_add_mod (archive.file.length + SECT1_SIZE - 1) SECT1_SIZE
      have hmod := Nat.mod_lt (archive.file.length + SECT1_SIZE - 1)
        (show 0 < SECT1_SIZE by decide)
      rw [filled]
      omega
    omega
  refine ⟨archive.file[i], List.getElem?_eq_getElem hi, ?_⟩
  rw [Run.paramLayer, if_neg (not_not.2 huid), hopt]
  dsimp only
  rw [callLayer, hdone, outcomeLayer, if_pos hfill, List.getD_eq_getElem _ _ hi]

/-- **The devices after any history of runs.**  A cell of either flash device is as the last run has
left it that has written there, whatever has failed on the way; the NVRAM has the boot device of the
last run that has written one, and is otherwise as it was.  In particular, `-x` finds an archive
that has been saved as long as nothing is written to its device. -/
theorem flash_history (rs : List Run) (b : Box) :
    (lastLayer Run.paramLayer rs).Leaves b.param (runs rs b).param ∧
    (lastLayer Run.kernLayer rs).Leaves b.kern (runs rs b).kern ∧
    ((runs rs b).nvram.length = b.nvram.length ∧
      (∀ i, i < 256 ∨ 272 ≤ i → (runs rs b).nvram[i]? = b.nvram[i]?) ∧
      (272 ≤ b.nvram.length → nvramBoot (runs rs b).nvram =
        ((lastBoot rs).map fun dev ↦ (cstr "NV", dev)).getD (nvramBoot b.nvram))) ∧
    ∀ before r after archive, rs = before ++ r :: after → r.uid = 0 →
      r.opt = some (.s archive) →
      (flashSaveParam r.mtd0 archive.world fun _ ↦ 0).1 = .done →
      (∀ r' ∈ after, ∀ i, r'.paramLayer i = none) →
      ∀ i < archive.file.length, archive.file[i]? = some ((runs rs b).param i) := by
  refine ⟨(runs_leaves rs b).1, (runs_leaves rs b).2, runs_boots rs b, ?_⟩
  rintro before r after archive rfl huid hopt hdone hafter i hi
  obtain ⟨byte, hbyte, hlayer⟩ := paramLayer_saved huid hopt hdone hi
  have hshows := (runs_leaves (before ++ r :: after) b).1 i
  rw [lastLayer_of_none (fun r' hr' ↦ hafter r' hr' i) (by rw [hlayer]; rfl), hlayer] at hshows
  have heq : (runs (before ++ r :: after) b).param i = byte := hshows
  rw [hbyte, heq]

end Flashcfg
