import SsdLinux.CLib.Bytes
import SsdLinux.Nor

/-!
# `flashcfg`: writing a file to flash

`flash_prog_kern` writes a kernel to `/dev/mtd/1`, `flash_save_param` an archive of saved files to
`/dev/mtd/0`.  Both check the size of the file and then go through the same loop (`writeSectors`): a
read of a block as long as a sector, `MEMERASE` at `erase.start`, and a write at the offset of the
descriptor.  Both positions move on by what was read.

* The sectors of the device are as long as the blocks, 64K for the kernel and 8K for the archive.
* A call fails when it does not suit the device (`Mtd.Accepts`), or for a reason of its own
  (`Mtd.fault`), and leaves anything in the range that it was about.
* What the source file is, and what the calls before the loop return, is in `World`.  Every read
  returns a whole block of the file, or what is left of it.  The `tar` that makes the archive is not
  looked at: it has left the file.
* The obs266 is a PowerPC, so that the magic number begins with its highest byte.

The progress that is shown to the user, and the removal of the archive in the end, are left out.
-/

set_option autoImplicit false

namespace Flashcfg

open CLib Nor

def SECT1_SIZE : ℕ := 8 * 1024
def SECT2_SIZE : ℕ := 64 * 1024
def FLASH_SIZE : ℕ := 8 * (1024 * 1024)
def MAGIC : ℕ := 0x0052504F

/-! ## The device -/

/-- A reason why a call fails, and what it leaves in its range. -/
inductive Fault
  | erase (left : Cells)
  | write (left : Cells)

/-- A flash device. -/
structure Mtd where
  sector : ℕ
  size : ℕ
  /-- What goes wrong at a position. -/
  fault : ℕ → Option Fault

/-- Only whole sectors of the device are erased. -/
def Mtd.Accepts (d : Mtd) (start length : ℕ) : Prop :=
  d.sector ∣ start ∧ d.sector ∣ length ∧ start + length ≤ d.size

instance decidableAccepts (d : Mtd) (start length : ℕ) : Decidable (d.Accepts start length) :=
  inferInstanceAs (Decidable (_ ∧ _))

/-- `ioctl` with `MEMERASE`. -/
def Mtd.memErase (d : Mtd) (start length : ℕ) (m : Cells) : Bool × Cells :=
  if d.Accepts start length then
    match d.fault start with
    | some (.erase left) => (false, patch start length left m)
    | _ => (true, erase start length m)
  else (false, m)

/-- `write`, which writes everything or fails.  `flashcfg` takes a short write for a success, but
the device writes less than it is given only at its end, where `MEMERASE` has failed before. -/
def Mtd.write (d : Mtd) (offset : ℕ) (data : Bytes) (m : Cells) : Bool × Cells :=
  if offset + data.length ≤ d.size then
    match d.fault offset with
    | some (.write left) => (false, patch offset data.length left m)
    | _ => (true, program offset data m)
  else (false, m)

/-! ## The two functions -/

inductive Outcome
  | noTemporary | cannotOpen | cannotStat | tooLarge | noMemory | notKernel | noDevice
  | eraseFailure | writeFailure | done
  deriving DecidableEq

/-- `erase.start`, the offset of the descriptor, and the device. -/
structure Flash where
  start : ℕ
  offset : ℕ
  cells : Cells

/-- What the calls before the loop return, and the blocks that the reads in the loop return, up to
the first read that returns nothing. -/
structure World where
  /-- `mkstemp`, which only `flash_save_param` calls. -/
  temporary : Bool
  opened : Bool
  stSize : Option ℕ
  allocated : Bool
  /-- The first read of `flash_prog_kern`. -/
  first : Bytes
  device : Bool
  blocks : List Bytes

/-- The loop of both functions. -/
def writeSectors (d : Mtd) (length : ℕ) : List Bytes → Flash → Outcome × Flash
  | [], f => (.done, f)
  | block :: blocks, f =>
    match d.memErase f.start length f.cells with
    | (false, cells) => (.eraseFailure, { f with cells })
    | (true, cells) =>
      match d.write f.offset block cells with
      | (false, cells) => (.writeFailure, { f with cells })
      | (true, cells) =>
        writeSectors d length blocks ⟨f.start + block.length, f.offset + block.length, cells⟩

/-- `pboot_block->magic`. -/
def magic : Bytes → ℕ
  | a :: b :: c :: e :: _ => ((a.toNat * 256 + b.toNat) * 256 + c.toNat) * 256 + e.toNat
  | _ => 0

/-- The size that `flash_prog_kern` accepts. -/
def kernLimit : ℕ := FLASH_SIZE - 8 * SECT1_SIZE - 256 * 1024

/-- The size that `flash_save_param` accepts. -/
def paramLimit : ℕ := 8 * SECT1_SIZE

def flashProgKern (d : Mtd) (w : World) (m : Cells) : Outcome × Flash :=
  let f : Flash := ⟨0, 0, m⟩
  if !w.opened then (.cannotOpen, f) else
  match w.stSize with
  | none => (.cannotStat, f)
  | some size =>
    if size > kernLimit then (.tooLarge, f) else
    if !w.allocated then (.noMemory, f) else
    if w.first.length < SECT2_SIZE then (.notKernel, f) else
    if magic w.first ≠ MAGIC then (.notKernel, f) else
    if !w.device then (.noDevice, f) else
    writeSectors d SECT2_SIZE w.blocks f

def flashSaveParam (d : Mtd) (w : World) (m : Cells) : Outcome × Flash :=
  let f : Flash := ⟨0, 0, m⟩
  if !w.temporary then (.noTemporary, f) else
  if !w.opened then (.cannotOpen, f) else
  match w.stSize with
  | none => (.cannotStat, f)
  | some size =>
    if size > paramLimit then (.tooLarge, f) else
    if !w.allocated then (.noMemory, f) else
    if !w.device then (.noDevice, f) else
    writeSectors d SECT1_SIZE w.blocks f

/-! ## Reading the file -/

/-- The blocks of a file: every read but the last returns a full block. -/
structure FullBlocks (sect : ℕ) (file : Bytes) (blocks : List Bytes) : Prop where
  flatten : blocks.flatten = file
  full : ∀ block ∈ blocks.dropLast, block.length = sect
  pos : ∀ block ∈ blocks, 0 < block.length
  le : ∀ block ∈ blocks, block.length ≤ sect

/-- The world of a source file. -/
structure World.Source (w : World) (sect : ℕ) (file : Bytes) : Prop where
  stSize : ∀ size ∈ w.stSize, size = file.length
  blocks : FullBlocks sect file w.blocks

/-! ## Exact and confined -/

/-- What is wrong with the sector at a position. -/
def Mtd.Fails (d : Mtd) (sect pos : ℕ) : Prop := d.fault pos ≠ none ∨ ¬d.Accepts pos sect

/-- **What a run leaves**: the file in the first sectors, or a failure at sector `k`, the first one
at which anything is wrong.  The sectors lie inside the limit. -/
def Written (d : Mtd) (sect limit : ℕ) (file : Bytes) (m : Cells) : Outcome × Flash → Prop
  | (.done, f) => f.cells = image sect file m ∧ filled sect file.length ≤ limit ∧
      ∀ k, k * sect < file.length → ¬d.Fails sect (k * sect)
  | (.eraseFailure, f) | (.writeFailure, f) => ∃ k, f.start = k * sect ∧ k * sect < file.length ∧
      (k + 1) * sect ≤ limit ∧ d.Fails sect (k * sect) ∧ (∀ j < k, ¬d.Fails sect (j * sect)) ∧
      (∀ i < k * sect, file[i]? = some (f.cells i)) ∧ ∀ i, (k + 1) * sect ≤ i → f.cells i = m i
  | (_, f) => f.cells = m

variable {d : Mtd} {sect limit pos k : ℕ} {file written block : Bytes} {blocks : List Bytes}
  {m : Cells} {w : World}

/-- A run that failed at a position, with no other sector touched since. -/
def FailedAt (sect pos : ℕ) (m : Cells) (r : Outcome × Flash) : Prop :=
  (r.1 = .eraseFailure ∨ r.1 = .writeFailure) ∧ r.2.start = pos ∧
    ∀ i, i < pos ∨ pos + sect ≤ i → r.2.cells i = m i

/-- **One round of the loop**: the sector is erased and programmed, or the run ends there. -/
theorem writeSectors_cons (h : block.length ≤ sect) :
    (¬d.Fails sect pos ∧ writeSectors d sect (block :: blocks) ⟨pos, pos, m⟩
      = writeSectors d sect blocks ⟨pos + block.length, pos + block.length,
          program pos block (erase pos sect m)⟩) ∨
    (d.Fails sect pos ∧
      FailedAt sect pos m (writeSectors d sect (block :: blocks) ⟨pos, pos, m⟩)) := by
  have hout : ∀ i, i < pos ∨ pos + sect ≤ i → erase pos sect m i = m i := by
    rintro i (hi | hi)
    · exact patch_of_lt hi
    · exact patch_of_le hi
  by_cases ha : d.Accepts pos sect
  · have hsize : pos + block.length ≤ d.size := by
      have := ha.2.2
      omega
    rcases hfault : d.fault pos with _ | ⟨left | left⟩
    · refine Or.inl ⟨fun hf ↦ hf.elim (· hfault) (· ha), ?_⟩
      simp [writeSectors, Mtd.memErase, Mtd.write, ha, hsize, hfault]
    · refine Or.inr ⟨Or.inl (by simp [hfault]), ?_⟩
      simp only [writeSectors, Mtd.memErase, if_pos ha, hfault]
      refine ⟨Or.inl rfl, rfl, ?_⟩
      rintro i (hi | hi)
      · exact patch_of_lt hi
      · exact patch_of_le hi
    · refine Or.inr ⟨Or.inl (by simp [hfault]), ?_⟩
      simp only [writeSectors, Mtd.memErase, Mtd.write, if_pos ha, if_pos hsize, hfault]
      refine ⟨Or.inr rfl, rfl, ?_⟩
      rintro i (hi | hi)
      · exact (patch_of_lt hi).trans (hout i (Or.inl hi))
      · exact (patch_of_le (by omega)).trans (hout i (Or.inr hi))
  · refine Or.inr ⟨Or.inr ha, ?_⟩
    simp only [writeSectors, Mtd.memErase, if_neg ha]
    exact ⟨Or.inl rfl, rfl, fun _ _ ↦ rfl⟩

/-- The run that failed at sector `k` while the sectors before it were written. -/
theorem Written.of_failed {r : Outcome × Flash}
    (h : FailedAt sect written.length (image sect written m) r)
    (hw : written.length = k * sect) (hk : k * sect < (written ++ file).length)
    (hlimit : (k + 1) * sect ≤ limit) (hf : d.Fails sect (k * sect))
    (hok : ∀ j < k, ¬d.Fails sect (j * sect)) : Written d sect limit (written ++ file) m r := by
  obtain ⟨out, f⟩ := r
  obtain ⟨hend, hstart, hout⟩ := h
  have hfill : filled sect written.length = k * sect := by
    rw [filled_of_dvd (hw ▸ Nat.dvd_mul_left _ _), hw]
  have hcells : (∀ i < k * sect, (written ++ file)[i]? = some (f.cells i)) ∧
      ∀ i, (k + 1) * sect ≤ i → f.cells i = m i := by
    refine ⟨fun i hi ↦ ?_, fun i hi ↦ ?_⟩
    · rw [List.getElem?_append_left (by omega), hout i (Or.inl (by omega))]
      exact image_of_lt (by omega) (by omega)
    · rw [Nat.succ_mul] at hi
      rw [hout i (Or.inr (by omega)), image, patch_of_le (by omega)]
  rcases hend with rfl | rfl <;> exact ⟨k, hstart.trans hw, hk, hlimit, hf, hok, hcells⟩

/-- The first block, and the others. -/
theorem FullBlocks.cons (h : FullBlocks sect file (block :: blocks)) :
    FullBlocks sect blocks.flatten blocks ∧ (blocks ≠ [] → block.length = sect) := by
  refine ⟨⟨rfl, fun b hb ↦ h.full b ?_, fun b hb ↦ h.pos b (List.mem_cons_of_mem _ hb),
    fun b hb ↦ h.le b (List.mem_cons_of_mem _ hb)⟩, fun hne ↦ h.full block ?_⟩
  · rw [List.dropLast_cons_of_ne_nil (by rintro rfl; simp at hb)]
    exact List.mem_cons_of_mem _ hb
  · rw [List.dropLast_cons_of_ne_nil hne]
    exact List.mem_cons_self

/-- **The loop**, from a state in which a part of the file has been written. -/
theorem written_writeSectors (hlimit : sect ∣ limit) (hblocks : FullBlocks sect file blocks)
    (hsect : blocks ≠ [] → sect ∣ written.length) (hle : (written ++ file).length ≤ limit)
    (hok : ∀ k, k * sect < written.length → ¬d.Fails sect (k * sect)) :
    Written d sect limit (written ++ file) m (writeSectors d sect blocks
      ⟨written.length, written.length, image sect written m⟩) := by
  induction blocks generalizing written file with
  | nil =>
    obtain rfl := hblocks.flatten
    rw [List.flatten_nil, List.append_nil] at hle ⊢
    exact ⟨rfl, filled_le hle hlimit, hok⟩
  | cons block blocks ih =>
    obtain ⟨hrest, hfull⟩ := hblocks.cons
    have hpos := hblocks.pos block List.mem_cons_self
    have hsize := hblocks.le block List.mem_cons_self
    have hdvd := hsect (List.cons_ne_nil _ _)
    have hs : 0 < sect := by omega
    obtain ⟨q, hq⟩ : ∃ q, written.length = q * sect := by
      obtain ⟨q, hq⟩ := hdvd
      exact ⟨q, hq.trans (Nat.mul_comm _ _)⟩
    have hfile : file = block ++ blocks.flatten := by rw [← hblocks.flatten, List.flatten_cons]
    have hlen : (written ++ file).length
        = written.length + block.length + blocks.flatten.length := by
      rw [hfile, List.length_append, List.length_append, Nat.add_assoc]
    rcases writeSectors_cons hsize with ⟨hnf, heq⟩ | ⟨hf, hfail⟩
    · rw [heq, image_append hdvd hpos hsize, ← List.length_append, hfile, ← List.append_assoc]
      refine ih hrest (fun hne ↦ ?_) ?_ fun k hk ↦ ?_
      · rw [List.length_append, hfull hne]
        exact Nat.dvd_add hdvd (Nat.dvd_refl sect)
      · rwa [List.append_assoc, ← hfile]
      · rcases Nat.lt_or_ge k q with hkq | hkq
        · refine hok k ?_
          rw [hq]
          exact Nat.mul_lt_mul_of_pos_right hkq hs
        · rw [List.length_append, hq] at hk
          have : k < q + 1 := by
            refine Nat.lt_of_mul_lt_mul_right (a := sect) ?_
            rw [Nat.succ_mul]
            omega
          rw [Nat.le_antisymm (Nat.lt_succ_iff.1 this) hkq, ← hq]
          exact hnf
    · have hbelow : q * sect < (written ++ file).length := by omega
      have hlim : (q + 1) * sect ≤ limit := by
        obtain ⟨l, rfl⟩ := hlimit
        rw [Nat.mul_comm sect l] at hle ⊢
        exact Nat.mul_le_mul_right _ (Nat.lt_of_mul_lt_mul_right (hbelow.trans_le hle))
      refine Written.of_failed hfail hq hbelow hlim (hq ▸ hf) fun j hj ↦ hok j ?_
      rw [hq]
      exact Nat.mul_lt_mul_of_pos_right hj hs

/-! ## Both functions -/

/-- A check before the loop. -/
theorem Written.ite {c : Prop} [Decidable c] {a b : Outcome × Flash}
    (ha : Written d sect limit file m a) (hb : ¬c → Written d sect limit file m b) :
    Written d sect limit file m (if c then a else b) := by
  split_ifs with h
  · exact ha
  · exact hb h

/-- The loop from the beginning. -/
theorem written_loop (h : w.Source sect file) (hlimit : sect ∣ limit) (hle : file.length ≤ limit) :
    Written d sect limit file m (writeSectors d sect w.blocks ⟨0, 0, m⟩) := by
  have hloop := @written_writeSectors d sect limit file [] w.blocks m hlimit h.blocks
    (fun _ ↦ Nat.dvd_zero _) hle fun k hk ↦ absurd hk (Nat.not_lt_zero _)
  rwa [image_nil] at hloop

theorem written_kern (h : w.Source SECT2_SIZE file) :
    Written d SECT2_SIZE kernLimit file m (flashProgKern d w m) := by
  refine Written.ite rfl fun _ ↦ ?_
  rcases hstat : w.stSize with _ | size
  · rfl
  obtain rfl := h.stSize size hstat
  refine Written.ite rfl fun hsize ↦ Written.ite rfl fun _ ↦ Written.ite rfl fun _ ↦
    Written.ite rfl fun _ ↦ Written.ite rfl fun _ ↦ ?_
  exact written_loop h (by decide) (by omega)

theorem written_param (h : w.Source SECT1_SIZE file) :
    Written d SECT1_SIZE paramLimit file m (flashSaveParam d w m) := by
  refine Written.ite rfl fun _ ↦ Written.ite rfl fun _ ↦ ?_
  rcases hstat : w.stSize with _ | size
  · rfl
  obtain rfl := h.stSize size hstat
  refine Written.ite rfl fun hsize ↦ Written.ite rfl fun _ ↦ Written.ite rfl fun _ ↦ ?_
  exact written_loop h (by decide) (by omega)

/-- The magic number is in the first block. -/
theorem magic_take {n : ℕ} (h : 4 ≤ n) (file : Bytes) : magic (file.take n) = magic file := by
  obtain ⟨n, rfl⟩ := Nat.exists_eq_add_of_le' h
  match file with
  | [] | [_] | [_, _] | [_, _, _] | _ :: _ :: _ :: _ :: _ => rfl

/-- The loop has been entered. -/
def Outcome.Started (out : Outcome) : Prop :=
  out = .eraseFailure ∨ out = .writeFailure ∨ out = .done

theorem started_writeSectors (d : Mtd) (sect : ℕ) (blocks : List Bytes) (f : Flash) :
    (writeSectors d sect blocks f).1.Started := by
  induction blocks generalizing f with
  | nil => exact Or.inr (Or.inr rfl)
  | cons block blocks ih =>
    rw [writeSectors]
    split
    · exact Or.inl rfl
    · split
      · exact Or.inr (Or.inl rfl)
      · exact ih _

/-- Nothing that comes before the loop stops a run: the source file can be read, its size is at most
the limit, and there is memory and a device. -/
structure World.Ready (w : World) (limit : ℕ) (file : Bytes) : Prop where
  opened : w.opened = true
  stSize : w.stSize = some file.length
  limit : file.length ≤ limit
  allocated : w.allocated = true
  device : w.device = true

/-- **Flash writing is exact and confined.**  What either function leaves on the device is what
`Written` says, with the limit that it checks; and it enters its loop for every file within the
limit, the kernel with its magic number. -/
theorem flash_exact (d : Mtd) (w : World) (file : Bytes) (m : Cells) :
    (w.Source SECT2_SIZE file → Written d SECT2_SIZE kernLimit file m (flashProgKern d w m) ∧
      (w.Ready kernLimit file → w.first = file.take SECT2_SIZE → SECT2_SIZE ≤ file.length →
        magic file = MAGIC → (flashProgKern d w m).1.Started)) ∧
    (w.Source SECT1_SIZE file → Written d SECT1_SIZE paramLimit file m (flashSaveParam d w m) ∧
      (w.Ready paramLimit file → w.temporary = true → (flashSaveParam d w m).1.Started)) := by
  refine ⟨fun h ↦ ⟨written_kern h, fun hr hread hlen hmagic ↦ ?_⟩,
    fun h ↦ ⟨written_param h, fun hr ht ↦ ?_⟩⟩
  · have hfirst : SECT2_SIZE ≤ w.first.length := by
      rw [hread, List.length_take]
      omega
    have hm : magic w.first = MAGIC := by rw [hread, magic_take (by decide), hmagic]
    simp only [flashProgKern, hr.opened, hr.stSize, hr.allocated, hr.device, hm, Bool.not_true,
      Bool.false_eq_true, if_false, gt_iff_lt, Nat.not_lt.2 hr.limit, Nat.not_lt.2 hfirst, ne_eq,
      not_true_eq_false]
    exact started_writeSectors _ _ _ _
  · simp only [flashSaveParam, ht, hr.opened, hr.stSize, hr.allocated, hr.device,
      Bool.not_true, Bool.false_eq_true, if_false, gt_iff_lt, Nat.not_lt.2 hr.limit]
    exact started_writeSectors _ _ _ _

/-- A world in which the file is there, in two blocks. -/
def World.pair (a b : Bytes) : World := ⟨true, true, some (a ++ b).length, true, a, true, [a, b]⟩

theorem World.pair_source {a b : Bytes} (hsect : 0 < sect) (ha : a.length = sect)
    (hb : 0 < b.length) (hle : b.length ≤ sect) : (World.pair a b).Source sect (a ++ b) where
  stSize _ h := (Option.some.inj h).symm
  blocks :=
    { flatten := by simp [World.pair]
      full := List.forall_mem_singleton.2 ha
      pos := List.forall_mem_cons.2 ⟨ha ▸ hsect, List.forall_mem_singleton.2 hb⟩
      le := List.forall_mem_cons.2 ⟨ha.le, List.forall_mem_singleton.2 hle⟩ }

/-- The first block of a kernel, and the first one of an archive. -/
def kernBlock : Bytes := [0, 0x52, 0x50, 0x4F] ++ List.replicate 65532 0

def paramBlock : Bytes := List.replicate SECT1_SIZE 5

theorem length_kernBlock : kernBlock.length = SECT2_SIZE := by
  rw [kernBlock, List.length_append, List.length_replicate]
  rfl

/-- A device without faults, of two sectors for the kernel and of sixteen for the archive. -/
def mtd (sect : ℕ) : Mtd := ⟨sect, 2 * SECT2_SIZE, fun _ ↦ none⟩

/-- A kernel and an archive, which take up two sectors each. -/
theorem flash_exact_pair :
    (Written (mtd SECT2_SIZE) SECT2_SIZE kernLimit (kernBlock ++ [1, 2, 3]) (fun _ ↦ 0)
        (flashProgKern (mtd SECT2_SIZE) (.pair kernBlock [1, 2, 3]) fun _ ↦ 0) ∧
      (flashProgKern (mtd SECT2_SIZE) (.pair kernBlock [1, 2, 3]) fun _ ↦ 0).1.Started) ∧
    (Written (mtd SECT1_SIZE) SECT1_SIZE paramLimit (paramBlock ++ [1, 2, 3]) (fun _ ↦ 0)
        (flashSaveParam (mtd SECT1_SIZE) (.pair paramBlock [1, 2, 3]) fun _ ↦ 0) ∧
      (flashSaveParam (mtd SECT1_SIZE) (.pair paramBlock [1, 2, 3]) fun _ ↦ 0).1.Started) := by
  have hlen := length_kernBlock
  have hlen' : paramBlock.length = SECT1_SIZE := List.length_replicate
  have hkernLen : (kernBlock ++ [1, 2, 3]).length = SECT2_SIZE + 3 := by
    rw [List.length_append, hlen]
    rfl
  have hparamLen : (paramBlock ++ [1, 2, 3]).length = SECT1_SIZE + 3 := by
    rw [List.length_append, hlen']
    rfl
  have hkernReady : (World.pair kernBlock [1, 2, 3]).Ready kernLimit (kernBlock ++ [1, 2, 3]) :=
    ⟨rfl, rfl, hkernLen ▸ by decide, rfl, rfl⟩
  have hparamReady : (World.pair paramBlock [1, 2, 3]).Ready paramLimit (paramBlock ++ [1, 2, 3]) :=
    ⟨rfl, rfl, hparamLen ▸ by decide, rfl, rfl⟩
  have hmagic : magic (kernBlock ++ [1, 2, 3]) = MAGIC := by
    rw [kernBlock, List.append_assoc, List.cons_append]
    rfl
  have hkern := (flash_exact (mtd SECT2_SIZE) (.pair kernBlock [1, 2, 3])
    (kernBlock ++ [1, 2, 3]) fun _ ↦ 0).1
    (World.pair_source (by decide) hlen (by decide) (by decide))
  have hparam := (flash_exact (mtd SECT1_SIZE) (.pair paramBlock [1, 2, 3])
    (paramBlock ++ [1, 2, 3]) fun _ ↦ 0).2
    (World.pair_source (by decide) hlen' (by decide) (by decide))
  exact ⟨hkern.imp_right fun hs ↦ hs hkernReady (List.take_left' hlen).symm
      (hkernLen ▸ Nat.le_add_right _ _) hmagic,
    hparam.imp_right fun hs ↦ hs hparamReady rfl⟩

end Flashcfg
