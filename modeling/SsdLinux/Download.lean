import SsdLinux.Convert

/-!
# `tcpdwl`: from a file to the server

`ChooseDLFile` decides what is sent.  A `.mot` file is converted, and the image is left beside it;
any other file is sent as it is, except that an ELF file gets instructions written over its bytes
from `0x100` on, in the file itself.  `Dl_tcp` sends what is in the file afterwards.

* `strstr` finds the first `.mot` of a name, so that a file in a directory with a `.mot` in its name
  is not taken for one.
* The names are copied into arrays of 128 bytes, and a longer one has no result.
* `session_exact` says how far a download is with every acknowledge, and when it is complete;
  `chosen_image` says what it is a download of.

The arguments and the prompt of `main` are left out, and so is what is shown to the user.
-/

set_option autoImplicit false

namespace Tcpdwl

open CLib Srecord

/-! ## How far a download is -/

variable {file : Bytes} {c c' : Client} {e : Event} {log : List Wire} {n o : ℕ}

theorem payloads_append (log new : List Wire) :
    payloads (log ++ new) = payloads log ++ payloads new :=
  List.flatMap_append

/-- `position` counts what has been sent since the program began. -/
def Counted (c : Client) : Prop := c.position = BitVec.ofNat 32 (payloads c.log).length

theorem Counted.sendBlock (h : Counted c) : Counted (sendBlock file c) := by
  have hlog : payloads (Tcpdwl.sendBlock file c).log
      = payloads c.log ++ (file.drop c.offset).take 1024 := by
    rw [Tcpdwl.sendBlock, payloads_append, payloads, payloads, List.flatMap_singleton]
  rw [Counted, hlog, List.length_append, BitVec.ofNat_add, ← h]
  rfl

theorem Counted.sendBlocks (h : Counted c) (n : ℕ) : Counted (sendBlocks file n c) := by
  induction n generalizing c with
  | zero => exact h
  | succ n ih =>
    rw [Tcpdwl.sendBlocks]
    split
    · exact h.sendBlock
    · exact ih h.sendBlock

theorem Counted.logged (h : Counted c) {new : List Wire} (hnew : payloads new = []) :
    Counted (c.logged new) := by
  rw [Counted, Client.logged, payloads_append, hnew, List.append_nil]
  exact h

theorem Counted.moves (h : Counted c) (hmoves : Moves file c e c') : Counted c' := by
  have hrecv : Counted (c.logged [.recv e.msg]) := h.logged rfl
  cases hmoves with
  | stopped _ => exact h
  | failed _ state text => exact hrecv
  | reconnected _ hs => exact h.logged rfl
  | switched _ =>
    have hsent : Counted (c.logged [.recv e.msg, .send switchMode]) := h.logged rfl
    exact hsent
  | started _ hmsg =>
    have hsent : Counted ((c.logged [.recv e.msg]).logged [.send (startDown c.fileSize)]) :=
      hrecv.logged rfl
    exact hsent
  | opened _ hs hmsg =>
    have hopened : Counted { c.logged [.recv e.msg] with state := .download, offset := 0 } := hrecv
    exact hopened.sendBlocks 64
  | went _ hs hflag hmsg => exact hrecv.sendBlocks 64
  | finished _ hs hflag => exact hrecv

/-- A download that is the first one, with the image sent up to `o`. -/
structure Sent (file : Bytes) (o : ℕ) (c : Client) : Prop where
  status : c.status = .running
  state : c.state = .download
  size : c.fileSize.toNat = file.length
  lt : file.length < 2 ^ 31
  le : o ≤ file.length
  offset : c.offset = o
  position : c.position = BitVec.ofNat 32 o
  since : sinceStart c.log = file.take o

theorem Sent.sendBlock (h : Sent file o c) :
    Sent file (min (o + 1024) file.length) (sendBlock file c) := by
  have hlen : ((file.drop c.offset).take 1024).length = min (o + 1024) file.length - o := by
    have hle := h.le
    rw [List.length_take, List.length_drop, h.offset]
    omega
  have hadd : o + (min (o + 1024) file.length - o) = min (o + 1024) file.length := by
    have hle := h.le
    omega
  refine ⟨h.status, h.state, h.size, h.lt, Nat.min_le_right _ _, ?_, ?_, ?_⟩
  · rw [Tcpdwl.sendBlock, hlen, h.offset, hadd]
  · rw [Tcpdwl.sendBlock, hlen, h.position, ← BitVec.ofNat_add, hadd]
  · calc sinceStart (c.log ++ [.payload ((file.drop c.offset).take 1024)])
      _ = sinceStart c.log ++ (file.drop c.offset).take 1024 := sinceStart_append _ _
      _ = file.take (o + 1024) := by rw [h.since, h.offset, ← List.take_add]
      _ = file.take (min (o + 1024) file.length) := by rw [List.take_eq_take_iff]; omega

/-- When the position has reached the size. -/
theorem Sent.through_iff (h : Sent file o c) : c.fileSize ≤ c.position ↔ file.length ≤ o := by
  have hle := h.le
  have hlt := h.lt
  rw [BitVec.le_def, h.size, h.position, BitVec.toNat_ofNat, Nat.mod_eq_of_lt (by omega)]

/-- **The loop of `DownLoad`**: it is through with the image if that has no more to come than it
goes round. -/
theorem Sent.sendBlocks (h : Sent file o c) (hflag : c.sentFlag = false) (n : ℕ) :
    Sent file (min (o + 1024 * (n + 1)) file.length) (sendBlocks file (n + 1) c) ∧
      (sendBlocks file (n + 1) c).sentFlag = decide (file.length ≤ o + 1024 * (n + 1)) := by
  induction n generalizing o c with
  | zero =>
    have hblock := h.sendBlock
    rw [Tcpdwl.sendBlocks]
    split
    · rename_i hpos
      rw [hblock.through_iff] at hpos
      exact ⟨⟨hblock.1, hblock.2, hblock.3, hblock.4, hblock.5, hblock.6, hblock.7, hblock.8⟩,
        (decide_eq_true (by omega)).symm⟩
    · rename_i hpos
      rw [hblock.through_iff] at hpos
      exact ⟨hblock, hflag.trans (decide_eq_false (by omega)).symm⟩
  | succ n ih =>
    have hblock := h.sendBlock
    rw [Tcpdwl.sendBlocks]
    split
    · rename_i hpos
      rw [hblock.through_iff] at hpos
      have hmin : min (o + 1024 * (n + 1 + 1)) file.length = min (o + 1024) file.length := by omega
      rw [hmin]
      exact ⟨⟨hblock.1, hblock.2, hblock.3, hblock.4, hblock.5, hblock.6, hblock.7, hblock.8⟩,
        (decide_eq_true (by omega)).symm⟩
    · rename_i hpos
      rw [hblock.through_iff] at hpos
      have hnext := ih hblock hflag
      have hmin : min (o + 1024) file.length + 1024 * (n + 1) = o + 1024 * (n + 1 + 1) := by omega
      rwa [hmin] at hnext

/-- The number of acknowledges after which an image of this length is through: one for every 64 KB,
and one for an empty image. -/
def rounds (length : ℕ) : ℕ := max 1 ((length + 0xFFFF) / 0x10000)

/-- An acknowledge, with which the image can be opened. -/
structure Acks (e : Event) : Prop where
  ack : IsAck e.msg
  opens : e.opens = true

theorem dlTcp_ack (hc : c.status = .running) (he : Acks e) :
    dlTcp file c e = acknowledge file e (c.logged [.recv e.msg]) := by
  rw [dlTcp, if_neg (not_not.2 hc)]
  dsimp only
  rw [if_neg (not_not.2 he.ack.1), if_pos he.ack.2]

theorem Sent.logged (h : Sent file o c) (msg : Bytes) : Sent file o (c.logged [.recv msg]) :=
  ⟨h.status, h.state, h.size, h.lt, h.le, h.offset, h.position,
    (sinceStart_append _ _).trans h.since⟩

/-- **How far a download is** after `k + 1` acknowledges. -/
def Along (file : Bytes) (k : ℕ) (c : Client) : Prop :=
  if rounds file.length < k + 1 then c.status = .complete ∧ sinceStart c.log = file
  else Sent file (min (0x10000 * (k + 1)) file.length) c ∧
    c.sentFlag = decide (file.length ≤ 0x10000 * (k + 1))

theorem along_downLoad {k : ℕ} (hk : k + 1 ≤ rounds file.length)
    (h : Sent file (0x10000 * k) c) (hflag : c.sentFlag = false) :
    Along file k (downLoad file c) := by
  have hsend := h.sendBlocks hflag 63
  have hmul : 0x10000 * k + 1024 * (63 + 1) = 0x10000 * (k + 1) := by omega
  rw [hmul] at hsend
  rw [Along, if_neg (by omega)]
  exact hsend

/-- **One acknowledge more.** -/
theorem Along.ack {k : ℕ} (h : Along file k c) (he : Acks e) :
    Along file (k + 1) (dlTcp file c e) := by
  rw [Along] at h
  split at h
  · rename_i hlt
    -- the download is complete, and the loop has ended
    have hstop : dlTcp file c e = c := by rw [dlTcp, if_pos (by rw [h.1]; decide)]
    rw [hstop, Along, if_pos (by omega)]
    exact h
  · rename_i hle
    obtain ⟨hsent, hflag⟩ := h
    have hstate : (c.logged [.recv e.msg]).state = .download := hsent.state
    have hflag' : (c.logged [.recv e.msg]).sentFlag = decide (file.length ≤ 0x10000 * (k + 1)) :=
      hflag
    rw [dlTcp_ack hsent.status he, acknowledge, hstate]
    dsimp only
    rw [hflag']
    by_cases hend : file.length ≤ 0x10000 * (k + 1)
    · rw [if_pos (decide_eq_true hend), Along, if_pos (by rw [rounds]; omega)]
      have hrecv : sinceStart (c.log ++ [.recv e.msg]) = sinceStart c.log := sinceStart_append _ _
      refine ⟨rfl, (hrecv.trans hsent.since).trans ?_⟩
      rw [Nat.min_eq_right hend, List.take_length]
    · rw [if_neg (by rw [decide_eq_true_eq]; exact hend)]
      have hsent' := hsent.logged e.msg
      rw [Nat.min_eq_left (by omega)] at hsent'
      refine along_downLoad ?_ hsent' (hflag'.trans (decide_eq_false hend))
      rw [rounds]
      omega

/-- The files, and which of them can be written to. -/
structure Disk where
  files : Bytes → Option Bytes
  writable : Bytes → Bool

def Disk.put (x : Disk) (name file : Bytes) : Disk :=
  { x with files := Function.update x.files name (some file) }

/-- What `stat` makes of the file that is going to be sent: its name and its size. -/
def Disk.stat (x : Disk) (name : Bytes) : Option (Bytes × BitVec 32) :=
  ((x.files name).bind chooseDLFile).map fun size ↦ (name, size)

/-- The name is one of a `.mot` file: the first `.mot` in it is at its end. -/
def isMot (name : Bytes) : Bool :=
  (name.tails.find? (cstr ".mot").isPrefixOf).any fun p_ext ↦ p_ext.length == 4

/-- The name of the converted file. -/
def imgName (name : Bytes) : Bytes := name.take (name.length - 4) ++ cstr ".img"

/-- What an ELF file begins with. -/
def elfMagic : Bytes := [0x7F, 0x45, 0x4C, 0x46]

def jumpaddr : Bytes :=
  [0x3c, 0x00, 0x00, 0x21, 0x60, 0x00, 0x00, 0x00, 0x7c, 0x08, 0x03, 0xa6, 0x4e, 0x80, 0x00, 0x20]

/-- `lseek` and `write`.  A part of the file that has never been written is 0. -/
def overwrite (pos : ℕ) (data file : Bytes) : Bytes :=
  (file ++ List.replicate (pos - file.length) 0).take pos ++ data ++ file.drop (pos + data.length)

/-- `ChooseDLFile`, with what is in the memory for `fary`: the files afterwards, and the name and
the size of the one that is going to be sent. -/
def chooseDLFileIn (fary : ℕ → UInt8) (x : Disk) (pFile : Bytes) :
    Option (Disk × Option (Bytes × BitVec 32)) :=
  if 128 ≤ pFile.length then none else
  match x.files pFile with
  | none => some (x, none)
  | some file =>
    if isMot pFile then
      (convertFile (some file) (x.writable (imgName pFile)) (.start fary)).map fun r ↦
        let x' := if x.writable (imgName pFile) then x.put (imgName pFile) r.2 else x
        (x', if r.1 < 0 then none else x'.stat (imgName pFile))
    else if file.length < 4 then some (x, none)
    else if file.take 4 ≠ elfMagic then some (x, x.stat pFile)
    else if !x.writable pFile then some (x, none)
    else
      let x' := x.put pFile (overwrite 0x100 jumpaddr file)
      some (x', x'.stat pFile)

variable {x x' : Disk} {name pFile data : Bytes} {size : BitVec 32} {pos i : ℕ}

/-- A name that ends with `.mot`. -/
theorem exists_of_isMot (h : isMot name = true) :
    ∃ base, name = base ++ cstr ".mot" ∧ imgName name = base ++ cstr ".img" := by
  rw [isMot, Option.any_eq_true_iff_get] at h
  obtain ⟨hsome, hlen⟩ := h
  have hfind := Option.some_get hsome
  rw [eq_comm] at hfind
  have hpre := List.find?_some hfind
  have hsuf := List.mem_of_find?_eq_some hfind
  rw [List.isPrefixOf_iff_prefix] at hpre
  rw [List.mem_tails] at hsuf
  have hext := hpre.eq_of_length (Eq.trans rfl (beq_iff_eq.1 hlen).symm)
  obtain ⟨base, hbase⟩ := hsuf
  rw [← hext] at hbase
  refine ⟨base, hbase.symm, ?_⟩
  rw [imgName, ← hbase, List.length_append, List.take_left']
  rfl

theorem imgName_ne (h : isMot name = true) : name ≠ imgName name := by
  obtain ⟨base, hname, himg⟩ := exists_of_isMot h
  rw [himg, hname]
  intro heq
  exact absurd (List.append_cancel_left heq) (by decide)

theorem length_overwrite (pos : ℕ) (data file : Bytes) :
    (overwrite pos data file).length = max file.length (pos + data.length) := by
  simp only [overwrite, List.length_append, List.length_take, List.length_replicate,
    List.length_drop]
  omega

/-- The part before the data. -/
theorem length_take_hole (pos : ℕ) (file : Bytes) :
    ((file ++ List.replicate (pos - file.length) 0).take pos).length = pos := by
  rw [List.length_take, List.length_append, List.length_replicate]
  omega

theorem getElem?_overwrite_data (h : i < data.length) :
    (overwrite pos data file)[pos + i]? = data[i]? := by
  have hlen := length_take_hole pos file
  rw [overwrite, List.append_assoc, List.getElem?_append_right (by omega), hlen,
    Nat.add_sub_cancel_left, List.getElem?_append_left h]

theorem getElem?_overwrite_of_not (hi : i < file.length) (h : i < pos ∨ pos + data.length ≤ i) :
    (overwrite pos data file)[i]? = file[i]? := by
  have hlen := length_take_hole pos file
  rcases h with h | h
  · rw [overwrite, List.append_assoc, List.getElem?_append_left (by omega), List.getElem?_take,
      if_pos h, List.getElem?_append_left hi]
  · rw [overwrite, List.getElem?_append_right (by rw [List.length_append]; omega),
      List.getElem?_drop, List.length_append, hlen]
    congr 1
    omega

theorem overwrite_overwrite (pos : ℕ) (data file : Bytes) :
    overwrite pos data (overwrite pos data file) = overwrite pos data file := by
  refine List.ext_getElem? fun i ↦ ?_
  have hlen := length_overwrite pos data file
  have hlen' := length_overwrite pos data (overwrite pos data file)
  rcases Nat.lt_or_ge i (overwrite pos data file).length with hi | hi
  · by_cases h : i < pos ∨ pos + data.length ≤ i
    · exact getElem?_overwrite_of_not hi h
    · obtain ⟨j, rfl⟩ : ∃ j, i = pos + j := ⟨i - pos, by omega⟩
      rw [getElem?_overwrite_data (by omega), getElem?_overwrite_data (by omega)]
  · rw [List.getElem?_eq_none (by omega), List.getElem?_eq_none (by omega)]

theorem length_elf (h : file.take 4 = elfMagic) : 4 ≤ file.length := by
  have hlen := congrArg List.length h
  rw [List.length_take] at hlen
  have hmagic : elfMagic.length = 4 := rfl
  omega

theorem take_overwrite (h : file.take 4 = elfMagic) :
    (overwrite 0x100 data file).take 4 = elfMagic := by
  have hle := length_elf h
  rw [← h]
  refine List.ext_getElem? fun i ↦ ?_
  rw [List.getElem?_take, List.getElem?_take]
  split_ifs with hi
  · exact getElem?_overwrite_of_not (by omega) (.inl (by omega))
  · rfl

/-- What is sent, once a file has been read. -/
theorem stat_eq_some {dl : Bytes} (h : x.stat name = some (dl, size)) :
    dl = name ∧ ∃ img, x.files name = some img ∧ chooseDLFile img = some size := by
  obtain ⟨size', hsize, heq⟩ := Option.map_eq_some_iff.1 h
  cases heq
  obtain ⟨img, himg, hchoose⟩ := Option.bind_eq_some_iff.1 hsize
  exact ⟨rfl, img, himg, hchoose⟩

theorem put_put (x : Disk) (name file : Bytes) :
    (x.put name file).put name file = x.put name file := by
  simp [Disk.put]

theorem files_put_ne {name' : Bytes} (h : name' ≠ name) :
    (x.put name file).files name' = x.files name' :=
  Function.update_of_ne h _ _

theorem files_put_self : (x.put name file).files name = some file := Function.update_self ..

/-- The ways in which `ChooseDLFile` succeeds. -/
inductive Chosen (fary : ℕ → UInt8) (x : Disk) (pFile file : Bytes) : Disk → Bytes → Prop
  | mot {r_code : ℤ} {img : Bytes} (hmot : isMot pFile = true)
    (hwritable : x.writable (imgName pFile) = true) (hcode : ¬r_code < 0)
    (hconv : convertFile (some file) true (.start fary) = some (r_code, img)) :
    Chosen fary x pFile file (x.put (imgName pFile) img) (imgName pFile)
  | plain (hmot : isMot pFile = false) (hlen : 4 ≤ file.length) (helf : file.take 4 ≠ elfMagic) :
    Chosen fary x pFile file x pFile
  | elf (hmot : isMot pFile = false) (helf : file.take 4 = elfMagic)
    (hwritable : x.writable pFile = true) :
    Chosen fary x pFile file (x.put pFile (overwrite 0x100 jumpaddr file)) pFile

variable {fary : ℕ → UInt8} {dl : Bytes}

theorem chooseDLFileIn_eq_some_iff : chooseDLFileIn fary x pFile = some (x', some (dl, size)) ↔
    pFile.length < 128 ∧ ∃ file, x.files pFile = some file ∧ Chosen fary x pFile file x' dl ∧
      x'.stat dl = some (dl, size) := by
  constructor
  · intro h
    rw [chooseDLFileIn] at h
    split at h
    · cases h
    rename_i hname
    split at h
    · cases h
    rename_i file hfile
    refine ⟨by omega, file, hfile, ?_⟩
    split at h
    · rename_i hmot
      obtain ⟨⟨r_code, img⟩, hconv, heq⟩ := Option.map_eq_some_iff.1 h
      obtain ⟨rfl, hstat⟩ := Prod.mk.inj heq
      split_ifs at hstat with hcode hwritable
      · obtain ⟨rfl, -⟩ := stat_eq_some hstat
        rw [hwritable] at hconv
        rw [if_pos hwritable]
        exact ⟨.mot hmot hwritable hcode hconv, hstat⟩
      · rw [eq_false_of_ne_true hwritable] at hconv
        cases hconv
        exact absurd (by decide) hcode
    · rename_i hmot
      split_ifs at h with hlen helf hwritable
      · cases h
      · obtain ⟨rfl, hstat⟩ := Prod.mk.inj (Option.some.inj h)
        obtain ⟨rfl, -⟩ := stat_eq_some hstat
        exact ⟨.plain (eq_false_of_ne_true hmot) (by omega) helf, hstat⟩
      · cases h
      · obtain ⟨rfl, hstat⟩ := Prod.mk.inj (Option.some.inj h)
        obtain ⟨rfl, -⟩ := stat_eq_some hstat
        exact ⟨.elf (eq_false_of_ne_true hmot) (not_not.1 helf) (by simpa using hwritable), hstat⟩
  · rintro ⟨hname, file, hfile, hchosen, hstat⟩
    rw [chooseDLFileIn, if_neg (by omega), hfile]
    dsimp only
    cases hchosen with
    | mot hmot hwritable hcode hconv =>
      rw [if_pos hmot, hwritable, hconv]
      simp only [Option.map_some, if_pos, if_neg hcode, hstat]
    | plain hmot hlen helf =>
      rw [if_neg (by rw [hmot]; decide), if_neg (by omega), if_pos helf, hstat]
    | elf hmot helf hwritable =>
      have hlen := length_elf helf
      rw [if_neg (by rw [hmot]; decide), if_neg (by omega), if_neg (not_not.2 helf),
        if_neg (by rw [hwritable]; decide), hstat]

/-- **What is downloaded.**  If `ChooseDLFile` succeeds, the file that is sent is the only one that
has changed, and another run sends the same.  Only for a `.mot` file that is not made of records can
it depend on what is in the memory for `fary`.  A `.mot` file of records is sent as the data of the
last one; any other file is sent as it is, but with the instructions in their place if it is an ELF
file. -/
theorem chosen_image (fary : ℕ → UInt8) (x x' : Disk) (pFile dl : Bytes) (size : BitVec 32)
    (h : chooseDLFileIn fary x pFile = some (x', some (dl, size))) :
    ∃ file img, x.files pFile = some file ∧ x'.files dl = some img ∧
      chooseDLFile img = some size ∧ (∀ name, name ≠ dl → x'.files name = x.files name) ∧
      (∀ fary', (fary' = fary ∨ isMot pFile = false ∨ ∃ lines, file = text lines) →
        chooseDLFileIn fary' x' pFile = some (x', some (dl, size))) ∧
      (isMot pFile = true → dl = imgName pFile ∧
        ∀ lines, file = text lines → img = lastData [] lines) ∧
      (isMot pFile = false → dl = pFile ∧ (file.take 4 ≠ elfMagic → img = file) ∧
        (file.take 4 = elfMagic → img.length = max file.length 0x110 ∧
          (∀ i < 0x10, img[0x100 + i]? = jumpaddr[i]?) ∧
          ∀ i < file.length, i < 0x100 ∨ 0x110 ≤ i → img[i]? = file[i]?)) := by
  obtain ⟨hname, file, hfile, hchosen, hstat⟩ := chooseDLFileIn_eq_some_iff.1 h
  obtain ⟨-, img, himg, hsize⟩ := stat_eq_some hstat
  refine ⟨file, img, hfile, himg, hsize, ?_⟩
  cases hchosen with
  | @mot r_code img' hmot hwritable hcode hconv =>
    obtain rfl := Option.some.inj (files_put_self.symm.trans himg)
    refine ⟨fun _ hne ↦ files_put_ne hne, fun fary' hfary ↦ ?_, fun _ ↦ ⟨rfl, ?_⟩, fun hmot' ↦ ?_⟩
    · have hconv' : convertFile (some file) true (.start fary') = some (r_code, img') := by
        rcases hfary with rfl | hmot' | ⟨lines, rfl⟩
        · exact hconv
        · exact absurd (hmot.symm.trans hmot') (by decide)
        · rw [convertFile_text] at hconv ⊢
          exact hconv
      have hagain : Chosen fary' (x.put (imgName pFile) img') pFile file _ _ :=
        .mot hmot hwritable hcode hconv'
      rw [put_put] at hagain
      refine chooseDLFileIn_eq_some_iff.2 ⟨hname, file, ?_, hagain, hstat⟩
      rw [files_put_ne (imgName_ne hmot), hfile]
    · rintro lines rfl
      rw [convertFile_text] at hconv
      split_ifs at hconv
      · exact (Prod.mk.inj (Option.some.inj hconv)).2.symm
      · cases hconv
        exact absurd (by decide) hcode
    · exact absurd (hmot.symm.trans hmot') (by decide)
  | plain hmot hlen helf =>
    obtain rfl := Option.some.inj (hfile.symm.trans himg)
    refine ⟨fun _ _ ↦ rfl, fun fary' _ ↦ ?_,
      fun hmot' ↦ absurd (hmot.symm.trans hmot') (by decide),
      fun _ ↦ ⟨rfl, fun _ ↦ rfl, fun helf' ↦ absurd helf' helf⟩⟩
    exact chooseDLFileIn_eq_some_iff.2 ⟨hname, file, hfile, .plain hmot hlen helf, hstat⟩
  | elf hmot helf hwritable =>
    obtain rfl := Option.some.inj (files_put_self.symm.trans himg)
    refine ⟨fun _ hne ↦ files_put_ne hne, fun fary' _ ↦ ?_,
      fun hmot' ↦ absurd (hmot.symm.trans hmot') (by decide),
      fun _ ↦ ⟨rfl, fun helf' ↦ absurd helf helf', fun _ ↦ ?_⟩⟩
    · have hagain : Chosen fary' (x.put pFile (overwrite 0x100 jumpaddr file)) pFile
          (overwrite 0x100 jumpaddr file) _ pFile := .elf hmot (take_overwrite helf) hwritable
      rw [overwrite_overwrite, put_put] at hagain
      exact chooseDLFileIn_eq_some_iff.2 ⟨hname, _, files_put_self, hagain, hstat⟩
    · refine ⟨length_overwrite _ _ _, fun i hi ↦ getElem?_overwrite_data hi, fun i hi hout ↦ ?_⟩
      exact getElem?_overwrite_of_not hi hout

/-- A disk with one file, an ELF file of four bytes. -/
def elfDisk : Disk := ⟨fun name ↦ if name = cstr "boot" then some elfMagic else none, fun _ ↦ true⟩

/-- A file that gets longer with the instructions. -/
theorem chosen_image_elf :
    ∃ img, (elfDisk.put (cstr "boot") (overwrite 0x100 jumpaddr elfMagic)).files (cstr "boot")
        = some img ∧
      img.length = 0x110 ∧ ∀ i < 0x10, img[0x100 + i]? = jumpaddr[i]? := by
  have hchosen := chosen_image (fun _ ↦ 0) elfDisk
    (elfDisk.put (cstr "boot") (overwrite 0x100 jumpaddr elfMagic)) (cstr "boot") (cstr "boot") 272
    (chooseDLFileIn_eq_some_iff.2 ⟨by decide, elfMagic, rfl, .elf rfl rfl rfl, by decide +kernel⟩)
  obtain ⟨file, img, hfile, himg, -, -, -, -, hother⟩ := hchosen
  obtain rfl := Option.some.inj hfile
  obtain ⟨hlen, hdata, -⟩ := (hother rfl).2.2 rfl
  exact ⟨img, himg, hlen, hdata⟩

end Tcpdwl
