import SsdLinux.CLib.Int
import SsdLinux.CLib.Stdio
import SsdLinux.Sysinst.Getarg
import SsdLinux.Sysinst.Partition

/-!
# `sysinst`: the partitions that `fdisk` lists

`rd_partition` runs `fdisk -l` for each disk and reads what it prints line by line: a line that says
how many sectors there are in a unit, and a row for each partition with its first and last unit and
the number of its type.

* `rdLine` is one line.  The words of a line stay in their arrays until the next one has some, so
  that a line without words is read as the one before it (`Settled`).
* An `int` has 32 bits (`asInt`), and so has the product of which the size is taken.
* What is in the arrays and in `units` before the first line is not known.
* A `Listing` is a well-formed listing.  A disk of which one is printed is `Found`.

`rdDisk_eq` says what is read from a listing, and `rdPartition_iff` when the sizes are exact.
-/

set_option autoImplicit false

namespace Sysinst

open CLib

/-! ## Numbers -/

def hexDigit (c : UInt8) : ℕ :=
  if isdigit c then c.toNat - 48 else if 97 ≤ c then c.toNat - 87 else c.toNat - 55

/-- The number that hexadecimal digits denote. -/
def hexVal (ds : Bytes) : ℕ := ds.foldl (fun n c ↦ 16 * n + hexDigit c) 0

/-- One `%2x` of `sscanf`: blanks, and two bytes at most. -/
def scanHex2 (s : Bytes) : Option ℕ :=
  let s := (s.dropWhile isspace).take 2
  let neg := s.head? == some minus
  let s := if neg || s.head? == some plus then s.tail else s
  let ds := s.takeWhile isxdigit
  if ds = [] then none
  else some (if neg then (2 ^ 32 - hexVal ds) % 2 ^ 32 else hexVal ds)

/-- `getlu`: the number behind `n` bytes, which are copied to an array of `NAMELEN` bytes. -/
def getlu (source : Bytes) (n : ℕ) : Option ℤ :=
  let str := (source.drop n).takeWhile fun c ↦ c != nl
  if n ≤ source.length ∧ str.length < NAMELEN then some (atoi str) else none

/-! ## The loops -/

/-- The variables of `rd_partition`. -/
structure Reading where
  units : ℤ
  word : ℕ → Bytes
  bootableExist : ℤ

/-- A size in units of 2048 sectors. -/
def partSize (units : ℤ) (start stop : Bytes) : ℤ :=
  (asInt (asInt (atoi stop - atoi start) * units)).tdiv 2048

/-- The words are those of a partition. -/
def rdRow (d : Disk) (r : Reading) : Option (Disk × Reading) :=
  (getlu (r.word 0) 8).bind fun j ↦
    if 0 ≤ j ∧ j < MAXHDPAT then
      let j := j.toNat
      let setType (s : Bytes) : ℕ → ℕ := (scanHex2 s).elim d.type (Function.update d.type j)
      if r.word 1 = cstr "*" then
        some ({ d with
          flagBootable := true
          bootable := Function.update d.bootable j true
          type := setType (r.word 5)
          size := Function.update d.size j (partSize r.units (r.word 2) (r.word 3)) },
          { r with bootableExist := 0 })
      else
        some ({ d with
          bootable := Function.update d.bootable j false
          type := setType (r.word 4)
          size := Function.update d.size j (partSize r.units (r.word 1) (r.word 2)) }, r)
    else none

/-- `strncmp(word[0], buf, 8) == 0`. -/
def Matches (d : Disk) (word : ℕ → Bytes) : Prop :=
  (word 0).take 8 = (printName (cstr "/dev/" ++ d.name)).take 8

instance decidableMatches (d : Disk) (word : ℕ → Bytes) : Decidable (Matches d word) :=
  inferInstanceAs (Decidable (_ = _))

/-- A line. -/
def rdLine (x : Disk × Reading) (buf : Bytes) : Option (Disk × Reading) :=
  let (d, r) := x
  if (cString buf).length = 1 then some (d, r)
  else if (tab2sp buf).head? = some hash then some (d, r)
  else
    (getarg r.word (tab2sp buf)).bind fun (j, word) ↦
      let r := { r with word }
      if j = 10 ∧ word 0 = cstr "Units" then some (d, { r with units := atoi (word 4) })
      else if Matches d word then rdRow d r
      else some (d, r)

def fdiskCommand (name : Bytes) : Bytes := cstr "/sbin/fdisk -l /dev/" ++ name

/-- What a disk is found to have.  `popen` is what a command prints. -/
def rdDisk (popen : Bytes → Bytes) (d : Disk) (r : Reading) : Option (Disk × Reading) :=
  (fgetsAll (BUFSIZ - 1) (popen (fdiskCommand d.name))).foldlM rdLine (d, r)

/-- `hd_t` with the flag that `probe_md` sets. -/
structure Hd where
  flagCd : Bool
  disk : Disk

/-- The loop over the disks. -/
def rdDisks (popen : Bytes → Bytes) : Reading → List Hd → Option (List Hd × Reading)
  | r, [] => some ([], r)
  | r, h :: hd =>
    if h.flagCd then (rdDisks popen r hd).map fun (hd, r) ↦ (h :: hd, r)
    else
      (rdDisk popen h.disk r).bind fun (d, r) ↦
      (rdDisks popen r hd).map fun (hd, r) ↦ ({ h with disk := d } :: hd, r)

/-- `rd_partition`: the disks, and 0 if one of them has a bootable partition. -/
def rdPartition (popen : Bytes → Bytes) (r : Reading) (hd : List Hd) : Option (List Hd × ℤ) :=
  (rdDisks popen { r with bootableExist := 1 } hd).map fun (hd, r) ↦ (hd, r.bootableExist)

/-! ## Listings -/

/-- A line that is read whole, and whose words fit. -/
structure Line where
  body : Bytes
  nl_notMem : nl ∉ body
  length_lt : body.length < BUFSIZ - 1
  fits : ∀ w ∈ lineWords (body ++ [nl]), w.length < WORDBUFSIZ

def Line.text (l : Line) : Bytes := l.body ++ [nl]

def Line.words (l : Line) : List Bytes := lineWords l.text

/-- A partition in a listing. -/
structure Row where
  number : ℕ
  marked : Bool
  start : ℕ
  stop : ℕ
  blocks : Bytes
  id : Bytes
  system : List Bytes
  one_le : 1 ≤ number
  number_lt : number < MAXHDPAT
  start_le : start ≤ stop
  stop_le : stop ≤ 2147483647
  id_ne_nil : id ≠ []
  length_id : id.length ≤ 2
  id_hex : ∀ c ∈ id, isxdigit c = true

def devName (name : Bytes) (k : ℕ) : Bytes := cstr "/dev/" ++ name ++ dec k

def Row.words (row : Row) (name : Bytes) : List Bytes :=
  devName name row.number :: ((if row.marked then [cstr "*"] else []) ++
    (dec row.start :: dec row.stop :: row.blocks :: row.id :: row.system))

/-- A line that neither begins with a partition of the disk nor tells the units. -/
def Line.Other (name : Bytes) (l : Line) : Prop :=
  ∀ w ∈ l.words.head?, w.take 8 ≠ cstr "/dev/" ++ name ∧
    ¬(l.words.length = 10 ∧ w = cstr "Units")

/-- A line that is not looked at: nothing but its newline, or a comment. -/
def Skipped (buf : Bytes) : Prop :=
  (cString buf).length = 1 ∨ (tab2sp buf).head? = some hash

/-- A line behind the one with the units. -/
inductive ListingLine (name : Bytes)
  | row (row : Row) (l : Line) (h : l.words = row.words name)
  | other (l : Line) (h : l.Other name)

def ListingLine.line {name : Bytes} : ListingLine name → Line
  | .row _ l _ => l
  | .other l _ => l

def ListingLine.row? {name : Bytes} : ListingLine name → Option Row
  | .row p _ _ => some p
  | .other _ _ => none

/-- What `fdisk` prints for a disk. -/
structure Listing (name : Bytes) where
  before : List Line
  units : ℕ
  unitsLine : Line
  after : List (ListingLine name)
  before_other : ∀ l ∈ before, l.Other name ∧ (l.words ≠ [] ∨ Skipped l.text)
  units_le : units ≤ 2147483647
  units_length : unitsLine.words.length = 10
  units_head : unitsLine.words[0]? = some (cstr "Units")
  units_word : unitsLine.words[4]? = some (dec units)
  nodup : ((after.filterMap ListingLine.row?).map Row.number).Nodup

namespace Listing

variable {name : Bytes}

/-- The partitions that are listed. -/
def rows (l : Listing name) : List Row := l.after.filterMap ListingLine.row?

def lines (l : Listing name) : List Line :=
  l.before ++ l.unitsLine :: l.after.map ListingLine.line

def text (l : Listing name) : Bytes := (l.lines.map Line.text).flatten

end Listing

/-! ## A row -/

variable {d d' : Disk} {r r' : Reading} {row : Row} {l : Line} {name : Bytes}

theorem isspace_of_isxdigit {c : UInt8} (h : isxdigit c = true) : isspace c = false := by
  simp only [isxdigit, isdigit, Bool.or_eq_true, Bool.and_eq_true, decide_eq_true_eq,
    UInt8.le_iff_toNat_le] at h
  simp only [isspace, Bool.or_eq_false_iff, beq_eq_false_iff_ne, ne_eq, Bool.and_eq_false_iff,
    decide_eq_false_iff_not, UInt8.le_iff_toNat_le, ← UInt8.toNat_inj, UInt8.reduceToNat] at h ⊢
  have hblank : blank.toNat = 32 := rfl
  omega

theorem scanHex2_eq {id : Bytes} (hne : id ≠ []) (hlen : id.length ≤ 2)
    (hhex : ∀ c ∈ id, isxdigit c = true) : scanHex2 id = some (hexVal id) := by
  obtain ⟨c, cs, rfl⟩ := List.exists_cons_of_ne_nil hne
  have hc := hhex c List.mem_cons_self
  have hsp : (c :: cs).dropWhile isspace = c :: cs :=
    List.dropWhile_cons_of_neg (by rw [isspace_of_isxdigit hc]; decide)
  have h1 : c ≠ minus := by
    rintro rfl
    cases hc
  have h2 : c ≠ plus := by
    rintro rfl
    cases hc
  have htake : (c :: cs).takeWhile isxdigit = c :: cs := List.takeWhile_eq_self_iff.2 hhex
  rw [scanHex2, hsp, List.take_of_length_le hlen]
  simp [h1, h2, htake]

theorem length_dev (d : Disk) : (cstr "/dev/" ++ d.name).length = 8 := by
  rw [List.length_append, d.length_name]
  rfl

theorem printName_dev (d : Disk) :
    (printName (cstr "/dev/" ++ d.name)).take 8 = cstr "/dev/" ++ d.name := by
  have hlen := length_dev d
  rw [printName, List.take_take, List.take_of_length_le (by rw [hlen]; decide)]

theorem getlu_devName (d : Disk) {k : ℕ} (hk : k < MAXHDPAT) :
    getlu (devName d.name k) 8 = some (k : ℤ) := by
  have hk' : k < 64 := hk
  have hdrop : (devName d.name k).drop 8 = dec k := List.drop_left' (length_dev d)
  have hnl : (dec k).takeWhile (fun c ↦ c != nl) = dec k :=
    List.takeWhile_eq_self_iff.2 fun c hc ↦
      bne_iff_ne.2 (ne_of_class (dec_isdigit k c hc) (by decide))
  have hlen : (dec k).length ≤ 10 := length_dec_le (by omega)
  have h8 : 8 ≤ (devName d.name k).length := by
    rw [devName, List.length_append, length_dev]
    omega
  rw [getlu, hdrop, hnl, if_pos ⟨h8, hlen.trans_lt (by decide)⟩, atoi_dec (by omega)]

/-- The size that is computed for a partition. -/
def rowSize (units : ℕ) (row : Row) : ℤ :=
  (asInt (((row.stop - row.start) * units : ℕ) : ℤ)).tdiv 2048

theorem partSize_dec (units : ℕ) (row : Row) :
    partSize units (dec row.start) (dec row.stop) = rowSize units row := by
  have h1 := row.start_le
  have h2 := row.stop_le
  have hdiff : asInt ((row.stop : ℤ) - row.start) = (row.stop : ℤ) - row.start :=
    asInt_of_lt (by omega) (by omega)
  rw [partSize, rowSize, atoi_dec h2, atoi_dec (h1.trans h2), hdiff]
  push_cast [h1]
  rfl

/-- What is recorded for a partition. -/
def record (units : ℕ) (d : Disk) (row : Row) : Disk :=
  { d with
    flagBootable := d.flagBootable || row.marked
    type := Function.update d.type row.number (hexVal row.id)
    size := Function.update d.size row.number (rowSize units row)
    bootable := Function.update d.bootable row.number row.marked }

theorem record_idem (units : ℕ) (d : Disk) (row : Row) :
    record units (record units d row) row = record units d row := by
  simp [record]

/-- The words are those of a row. -/
def Shows (name : Bytes) (row : Row) (word : ℕ → Bytes) : Prop :=
  ∀ k w, (row.words name)[k]? = some w → word k = w

def existAfter (exist : ℤ) (marked : Bool) : ℤ := if marked then 0 else exist

theorem existAfter_or (exist : ℤ) (a b : Bool) :
    existAfter exist (a || b) = existAfter (existAfter exist a) b := by
  cases a <;> cases b <;> rfl

/-- **A row.** -/
theorem rdRow_eq {units : ℕ} {word : ℕ → Bytes} {exist : ℤ} (h : Shows d.name row word) :
    rdRow d ⟨units, word, exist⟩ =
      some (record units d row, ⟨units, word, existAfter exist row.marked⟩) := by
  have hw0 : word 0 = devName d.name row.number := h 0 _ rfl
  have hid := scanHex2_eq row.id_ne_nil row.length_id row.id_hex
  have hrange : (0 : ℤ) ≤ row.number ∧ (row.number : ℤ) < MAXHDPAT :=
    ⟨Int.natCast_nonneg _, Int.ofNat_lt.2 row.number_lt⟩
  rw [rdRow]
  dsimp only
  rw [hw0, getlu_devName d row.number_lt, Option.bind_some, if_pos hrange, Int.toNat_natCast]
  by_cases hm : row.marked = true
  · have hwords : row.words d.name = devName d.name row.number :: cstr "*" :: dec row.start ::
        dec row.stop :: row.blocks :: row.id :: row.system := by simp [Row.words, hm]
    rw [Shows, hwords] at h
    have hstar : word 1 = cstr "*" := h 1 _ rfl
    rw [if_pos hstar, h 2 _ rfl, h 3 _ rfl, h 5 _ rfl, hid, partSize_dec]
    simp [record, existAfter, hm]
  · have hwords : row.words d.name = devName d.name row.number :: dec row.start ::
        dec row.stop :: row.blocks :: row.id :: row.system := by simp [Row.words, hm]
    rw [Shows, hwords] at h
    have hstart : word 1 = dec row.start := h 1 _ rfl
    have hstar : word 1 ≠ cstr "*" := by
      intro heq
      have hmem : (42 : UInt8) ∈ dec row.start := hstart ▸ heq ▸ List.mem_singleton_self _
      cases dec_isdigit row.start 42 hmem
    rw [if_neg hstar, hstart, h 2 _ rfl, h 4 _ rfl, hid, partSize_dec]
    simp [record, existAfter, hm]

/-! ## A line -/

/-- If the words are those of a partition of the disk, it has been recorded. -/
def Settled (d : Disk) (r : Reading) : Prop := Matches d r.word → rdRow d r = some (d, r)

theorem matches_iff {word : ℕ → Bytes} :
    Matches d word ↔ (word 0).take 8 = cstr "/dev/" ++ d.name := by
  rw [Matches, printName_dev]

theorem rdLine_skipped {buf : Bytes} (h : Skipped buf) : rdLine (d, r) buf = some (d, r) := by
  rw [rdLine]
  dsimp only
  by_cases hlen : (cString buf).length = 1
  · rw [if_pos hlen]
  · rw [if_neg hlen, if_pos (h.resolve_left hlen)]

/-- The arrays after a line. -/
def wordsAfter (l : Line) (word : ℕ → Bytes) : ℕ → Bytes := fun k ↦ l.words[k]?.getD (word k)

theorem rdLine_of_not_skipped (h : ¬Skipped l.text) :
    rdLine (d, r) l.text =
      if l.words.length = 10 ∧ wordsAfter l r.word 0 = cstr "Units" then
        some (d, { r with
          word := wordsAfter l r.word
          units := atoi (wordsAfter l r.word 4) })
      else if Matches d (wordsAfter l r.word) then rdRow d { r with word := wordsAfter l r.word }
      else some (d, { r with word := wordsAfter l r.word }) := by
  obtain ⟨hlen, hhash⟩ := not_or.1 h
  have hget : getarg r.word (tab2sp l.text) = some (l.words.length, wordsAfter l r.word) := by
    rw [getarg_eq]
    exact if_pos l.fits
  rw [rdLine]
  dsimp only
  rw [if_neg hlen, if_neg hhash, hget, Option.bind_some]

/-- A line with two words is looked at. -/
theorem not_skipped_of_words (h : 2 ≤ l.words.length) : ¬Skipped l.text := by
  have hle : l.words.length ≤ (sourceWords (cString l.text)).length :=
    List.length_take_le' _ _
  rintro (hlen | hhash)
  · obtain ⟨c, hc⟩ := List.length_eq_one_iff.1 hlen
    have := length_sourceWords_singleton c
    rw [hc] at hle
    omega
  · obtain ⟨s, hs⟩ := List.head?_eq_some_iff.1 hhash
    rw [← sourceWords_tab2sp, hs, sourceWords_hash, List.length_nil] at hle
    omega

variable {units : ℕ} {word : ℕ → Bytes} {exist : ℤ}

theorem wordsAfter_eq {k : ℕ} {w : Bytes} (h : l.words[k]? = some w) : wordsAfter l word k = w := by
  rw [wordsAfter, h, Option.getD_some]

theorem shows_wordsAfter (h : l.words = row.words name) : Shows name row (wordsAfter l word) :=
  fun _ _ hk ↦ wordsAfter_eq (h ▸ hk)

theorem units_ne_dev (s : Bytes) : cstr "Units" ≠ cstr "/dev/" ++ s := by
  intro h
  have hhead := congrArg List.head? h
  rw [List.head?_append_of_ne_nil _ (by decide)] at hhead
  exact absurd hhead (by decide)

/-- **The line of a partition.** -/
theorem rdLine_row (h : l.words = row.words d.name) :
    rdLine (d, ⟨units, word, exist⟩) l.text = some (record units d row,
        ⟨units, wordsAfter l word, existAfter exist row.marked⟩) ∧
      Settled (record units d row)
        ⟨units, wordsAfter l word, existAfter exist row.marked⟩ := by
  have hshows : Shows d.name row (wordsAfter l word) := shows_wordsAfter h
  have hw0 : wordsAfter l word 0 = devName d.name row.number := hshows 0 _ rfl
  have htwo : 2 ≤ l.words.length := by
    rw [h, Row.words, List.length_cons, List.length_append, List.length_cons]
    omega
  have hunits : ¬(l.words.length = 10 ∧ wordsAfter l word 0 = cstr "Units") := by
    rintro ⟨-, heq⟩
    rw [hw0, devName, List.append_assoc] at heq
    exact units_ne_dev _ heq.symm
  have hmatch : Matches d (wordsAfter l word) := by
    rw [matches_iff, hw0]
    exact List.take_left' (length_dev d)
  constructor
  · rw [rdLine_of_not_skipped (not_skipped_of_words htwo), if_neg hunits, if_pos hmatch]
    exact rdRow_eq hshows
  · intro _
    have hagain : rdRow (record units d row)
        ⟨units, wordsAfter l word, existAfter exist row.marked⟩ =
          some (record units (record units d row) row, ⟨units, wordsAfter l word,
            existAfter (existAfter exist row.marked) row.marked⟩) := rdRow_eq hshows
    rw [record_idem] at hagain
    rw [hagain]
    cases row.marked <;> rfl

/-- A line about something else. -/
theorem rdLine_other (h : l.Other d.name) (hr : Settled d r ∨ l.words ≠ [] ∨ Skipped l.text) :
    ∃ word, rdLine (d, r) l.text = some (d, { r with word }) ∧
      (Settled d r → Settled d { r with word }) := by
  by_cases hskip : Skipped l.text
  · exact ⟨r.word, rdLine_skipped hskip, id⟩
  rw [rdLine_of_not_skipped hskip]
  rcases hwords : l.words with _ | ⟨w, ws⟩
  · have hsettled : Settled d r :=
      hr.resolve_right (not_or.2 ⟨not_not.2 hwords, hskip⟩)
    have hsame : wordsAfter l r.word = r.word := by
      funext k
      rw [wordsAfter, hwords]
      rfl
    refine ⟨r.word, ?_, id⟩
    rw [hsame, if_neg fun h ↦ absurd h.1 (by decide)]
    by_cases hmatch : Matches d r.word
    · rw [if_pos hmatch]
      exact hsettled hmatch
    · rw [if_neg hmatch]
  · have hw0 : wordsAfter l r.word 0 = w := wordsAfter_eq (by rw [hwords]; rfl)
    obtain ⟨hdev, hunits⟩ := h w (by rw [hwords]; rfl)
    have hmatch : ¬Matches d (wordsAfter l r.word) := by
      rw [matches_iff, hw0]
      exact hdev
    refine ⟨wordsAfter l r.word, ?_, fun _ h ↦ absurd h hmatch⟩
    rw [← hwords, hw0, if_neg hunits, if_neg hmatch]

theorem rdLine_units (ls : Listing d.name) :
    ∃ word, rdLine (d, r) ls.unitsLine.text = some (d, ⟨ls.units, word, r.bootableExist⟩) ∧
      Settled d ⟨ls.units, word, r.bootableExist⟩ := by
  have hw0 : wordsAfter ls.unitsLine r.word 0 = cstr "Units" := wordsAfter_eq ls.units_head
  have hw4 : wordsAfter ls.unitsLine r.word 4 = dec ls.units := wordsAfter_eq ls.units_word
  have hskip := not_skipped_of_words (l := ls.unitsLine) (by rw [ls.units_length]; decide)
  refine ⟨wordsAfter ls.unitsLine r.word, ?_, fun hmatch ↦ ?_⟩
  · rw [rdLine_of_not_skipped hskip, if_pos ⟨ls.units_length, hw0⟩, hw4, atoi_dec ls.units_le]
  · have htake := matches_iff.1 hmatch
    dsimp only at htake
    rw [hw0] at htake
    exact absurd htake (units_ne_dev _)

/-! ## A listing -/

theorem fgetsAll_lines (ls : List Line) :
    fgetsAll (BUFSIZ - 1) (ls.map Line.text).flatten = ls.map Line.text := by
  induction ls with
  | nil => rfl
  | cons l ls ih =>
    rw [List.map_cons, List.flatten_cons, Line.text, List.append_assoc, List.singleton_append,
      fgetsAll_line _ l.nl_notMem l.length_lt, ih]

theorem rdLines_before {ls : List Line}
    (h : ∀ l ∈ ls, l.Other d.name ∧ (l.words ≠ [] ∨ Skipped l.text)) (r : Reading) :
    ∃ word, (ls.map Line.text).foldlM rdLine (d, r) = some (d, { r with word }) := by
  induction ls generalizing r with
  | nil => exact ⟨r.word, rfl⟩
  | cons l ls ih =>
    obtain ⟨⟨hother, hwords⟩, hls⟩ := List.forall_mem_cons.1 h
    obtain ⟨word, hline, -⟩ := rdLine_other (r := r) hother (.inr hwords)
    obtain ⟨word', hrest⟩ := ih hls { r with word }
    refine ⟨word', ?_⟩
    rw [List.map_cons, List.foldlM_cons, hline]
    exact hrest

/-- Whether a bootable partition has been seen. -/
def existAfterRows (exist : ℤ) (rows : List Row) : ℤ :=
  existAfter exist (rows.any Row.marked)

theorem existAfterRows_cons (exist : ℤ) (row : Row) (rows : List Row) :
    existAfterRows exist (row :: rows) = existAfterRows (existAfter exist row.marked) rows := by
  rw [existAfterRows, List.any_cons, existAfter_or, existAfterRows]

theorem rdLines_after (ls : List (ListingLine name)) (hname : d.name = name)
    (hr : Settled d ⟨units, word, exist⟩) :
    ∃ word', ((ls.map ListingLine.line).map Line.text).foldlM rdLine (d, ⟨units, word, exist⟩) =
      some ((ls.filterMap ListingLine.row?).foldl (record units) d,
        ⟨units, word', existAfterRows exist (ls.filterMap ListingLine.row?)⟩) := by
  induction ls generalizing d word exist with
  | nil => exact ⟨word, rfl⟩
  | cons x ls ih =>
    subst hname
    cases x with
    | row row l h =>
      obtain ⟨hline, hsettled⟩ := @rdLine_row d row l units word exist h
      obtain ⟨word', hrest⟩ := ih (d := record units d row) rfl hsettled
      have hrow : ListingLine.row? (.row row l h) = some row := rfl
      refine ⟨word', ?_⟩
      rw [List.map_cons, List.map_cons, List.foldlM_cons, ListingLine.line, hline,
        List.filterMap_cons_some hrow, List.foldl_cons, existAfterRows_cons]
      exact hrest
    | other l h =>
      obtain ⟨word₁, hline, hsettled⟩ := rdLine_other h (.inl hr)
      obtain ⟨word', hrest⟩ := ih rfl (hsettled hr)
      have hrow : ListingLine.row? (.other l h) = none := rfl
      refine ⟨word', ?_⟩
      rw [List.map_cons, List.map_cons, List.foldlM_cons, ListingLine.line, hline,
        List.filterMap_cons_none hrow]
      exact hrest

/-- **What is read from a listing.** -/
theorem rdDisk_eq {popen : Bytes → Bytes} (ls : Listing d.name)
    (h : popen (fdiskCommand d.name) = ls.text) (r : Reading) :
    ∃ word, rdDisk popen d r = some (ls.rows.foldl (record ls.units) d,
      ⟨ls.units, word, existAfterRows r.bootableExist ls.rows⟩) := by
  obtain ⟨word₁, hbefore⟩ := rdLines_before ls.before_other r
  obtain ⟨word₂, hunits, hsettled⟩ := rdLine_units (r := { r with word := word₁ }) ls
  obtain ⟨word₃, hafter⟩ := rdLines_after ls.after rfl hsettled
  have hrest : (ls.unitsLine.text :: (ls.after.map ListingLine.line).map Line.text).foldlM rdLine
      (d, { r with word := word₁ }) = some (ls.rows.foldl (record ls.units) d,
        ⟨ls.units, word₃, existAfterRows r.bootableExist ls.rows⟩) := by
    rw [List.foldlM_cons, hunits]
    exact hafter
  refine ⟨word₃, ?_⟩
  rw [rdDisk, h, Listing.text, fgetsAll_lines, Listing.lines, List.map_append, List.map_cons,
    List.foldlM_append, hbefore]
  exact hrest

/-! ## When the sizes are exact -/

/-- The size of a partition. -/
def exactSize (units : ℕ) (row : Row) : ℤ := (((row.stop - row.start) * units / 2048 : ℕ) : ℤ)

/-- The partitions are recorded, with these sizes, and nothing else. -/
structure Recorded (size : Row → ℤ) (rows : List Row) (d d' : Disk) : Prop where
  name : d'.name = d.name
  type : ∀ row ∈ rows, d'.type row.number = hexVal row.id
  size : ∀ row ∈ rows, d'.size row.number = size row
  bootable : ∀ row ∈ rows, d'.bootable row.number = row.marked
  others : ∀ k ∉ rows.map Row.number,
    d'.type k = d.type k ∧ d'.size k = d.size k ∧ d'.bootable k = d.bootable k
  flag : d'.flagBootable = (d.flagBootable || rows.any Row.marked)

theorem recorded_foldl (units : ℕ) {rows : List Row} (h : (rows.map Row.number).Nodup)
    (d : Disk) : Recorded (rowSize units) rows d (rows.foldl (record units) d) := by
  induction rows generalizing d with
  | nil => exact ⟨rfl, nofun, nofun, nofun, fun k _ ↦ ⟨rfl, rfl, rfl⟩, (Bool.or_false _).symm⟩
  | cons row rows ih =>
    rw [List.map_cons, List.nodup_cons] at h
    obtain ⟨hname, htype, hsize, hboot, hothers, hflag⟩ := ih h.2 (record units d row)
    obtain ⟨hrtype, hrsize, hrboot⟩ := hothers row.number h.1
    refine ⟨hname, List.forall_mem_cons.2 ⟨?_, htype⟩, List.forall_mem_cons.2 ⟨?_, hsize⟩,
      List.forall_mem_cons.2 ⟨?_, hboot⟩, fun k hk ↦ ?_, ?_⟩
    · exact hrtype.trans (Function.update_self ..)
    · exact hrsize.trans (Function.update_self ..)
    · exact hrboot.trans (Function.update_self ..)
    · rw [List.map_cons, List.mem_cons, not_or] at hk
      obtain ⟨hktype, hksize, hkboot⟩ := hothers k hk.2
      exact ⟨hktype.trans (Function.update_of_ne hk.1 ..),
        hksize.trans (Function.update_of_ne hk.1 ..),
        hkboot.trans (Function.update_of_ne hk.1 ..)⟩
    · rw [List.foldl_cons, hflag, List.any_cons]
      exact Bool.or_assoc ..

/-- The product is an `int`. -/
def Row.Fits (units : ℕ) (row : Row) : Prop := (row.stop - row.start) * units < 2 ^ 31

/-- **The size of a partition** is exact if and only if the product is an `int`. -/
theorem rowSize_eq_iff (units : ℕ) (row : Row) :
    rowSize units row = exactSize units row ↔ row.Fits units := by
  rw [rowSize, exactSize, Row.Fits]
  generalize (row.stop - row.start) * units = n
  constructor
  · intro h
    by_contra hn
    have hlt := (asInt_bounds n).2
    rw [Int.tdiv_eq_ediv] at h
    split_ifs at h
    · omega
    · rw [show Int.sign 2048 = 1 from rfl] at h
      omega
  · intro h
    rw [asInt_of_lt (by omega) (by omega)]
    exact Int.ofNat_tdiv n 2048

/-- A disk, and what `fdisk` prints for it. -/
inductive Found (popen : Bytes → Bytes)
  | cdrom (d : Disk)
  | disk (d : Disk) (ls : Listing d.name) (h : popen (fdiskCommand d.name) = ls.text)

namespace Found

variable {popen : Bytes → Bytes}

def hd : Found popen → Hd
  | cdrom d => ⟨true, d⟩
  | disk d _ _ => ⟨false, d⟩

/-- What is found out about the disk. -/
def read : Found popen → Hd
  | cdrom d => ⟨true, d⟩
  | disk d ls _ => ⟨false, ls.rows.foldl (record ls.units) d⟩

def marked : Found popen → Bool
  | cdrom _ => false
  | disk _ ls _ => ls.rows.any Row.marked

/-- What should be found out. -/
def Right : Found popen → Hd → Prop
  | cdrom d, h => h = ⟨true, d⟩
  | disk d ls _, h => h.flagCd = false ∧ Recorded (exactSize ls.units) ls.rows d h.disk

def Fits : Found popen → Prop
  | cdrom _ => True
  | disk _ ls _ => ∀ row ∈ ls.rows, row.Fits ls.units

theorem right_iff (f : Found popen) : f.Right f.read ↔ f.Fits := by
  cases f with
  | cdrom d => exact iff_of_true rfl trivial
  | disk d ls h =>
    have hrec := recorded_foldl ls.units ls.nodup d
    constructor
    · intro hright row hrow
      rw [← rowSize_eq_iff, ← hright.2.size row hrow]
      exact (hrec.size row hrow).symm
    · intro hfits
      have hsize : ∀ row ∈ ls.rows, rowSize ls.units row = exactSize ls.units row :=
        fun row hrow ↦ (rowSize_eq_iff ls.units row).2 (hfits row hrow)
      obtain ⟨hname, htype, hsizes, hboot, hothers, hflag⟩ := hrec
      exact ⟨rfl, hname, htype, fun row hrow ↦ (hsizes row hrow).trans (hsize row hrow), hboot,
        hothers, hflag⟩

end Found

/-- **All disks.** -/
theorem rdDisks_eq {popen : Bytes → Bytes} (fs : List (Found popen)) (r : Reading) :
    ∃ r', rdDisks popen r (fs.map Found.hd) = some (fs.map Found.read, r') ∧
      r'.bootableExist = existAfter r.bootableExist (fs.any Found.marked) := by
  induction fs generalizing r with
  | nil => exact ⟨r, rfl, rfl⟩
  | cons f fs ih =>
    cases f with
    | cdrom d =>
      obtain ⟨r', hrest, hexist⟩ := ih r
      refine ⟨r', ?_, hexist⟩
      rw [List.map_cons, rdDisks, Found.hd, if_pos rfl, hrest]
      rfl
    | disk d ls h =>
      obtain ⟨word, hdisk⟩ := rdDisk_eq ls h r
      obtain ⟨r', hrest, hexist⟩ :=
        ih ⟨ls.units, word, existAfterRows r.bootableExist ls.rows⟩
      refine ⟨r', ?_, ?_⟩
      · rw [List.map_cons, rdDisks, Found.hd, if_neg Bool.false_ne_true, hdisk, Option.bind_some]
        dsimp only
        rw [hrest]
        rfl
      · rw [hexist, List.any_cons, existAfter_or]
        rfl

/-- **The partitions of all disks** are recorded as they are listed if and only if each size is
computed from a product that is an `int`. -/
theorem rdPartition_iff {popen : Bytes → Bytes} (fs : List (Found popen)) (r : Reading) :
    (∃ hd, rdPartition popen r (fs.map Found.hd) =
        some (hd, if fs.any Found.marked then 0 else 1) ∧ List.Forall₂ Found.Right fs hd) ↔
      ∀ f ∈ fs, f.Fits := by
  obtain ⟨r', hread, hexist⟩ := rdDisks_eq fs { r with bootableExist := 1 }
  have hrun : rdPartition popen r (fs.map Found.hd) =
      some (fs.map Found.read, if fs.any Found.marked then 0 else 1) := by
    rw [rdPartition, hread, Option.map_some]
    dsimp only
    rw [hexist]
    rfl
  have hall : List.Forall₂ Found.Right fs (fs.map Found.read) ↔ ∀ f ∈ fs, f.Fits := by
    rw [List.forall₂_map_right_iff, List.forall₂_same]
    exact forall₂_congr fun f _ ↦ f.right_iff
  rw [hrun]
  constructor
  · rintro ⟨hd, heq, hright⟩
    cases heq
    exact hall.1 hright
  · exact fun hfits ↦ ⟨_, rfl, hall.2 hfits⟩

/-- A partition of 1.4 TB. -/
def largeRow : Row where
  number := 1
  marked := true
  start := 1
  stop := 182401
  blocks := cstr "1465136001"
  id := cstr "83"
  system := [cstr "Linux"]
  one_le := by decide
  number_lt := by decide
  start_le := by decide
  stop_le := by decide
  id_ne_nil := by decide
  length_id := by decide
  id_hex := by decide

def largeListing : Listing (cstr "hda") where
  before := []
  units := 16065
  unitsLine :=
    ⟨cstr "Units = cylinders of 16065 * 512 = 8225280 bytes", by decide +kernel, by decide +kernel,
      by decide +kernel⟩
  after :=
    [.row largeRow ⟨cstr "/dev/hda1   *  1  182401  1465136001  83  Linux", by decide +kernel,
      by decide +kernel, by decide +kernel⟩ (by decide +kernel)]
  before_other := nofun
  units_le := by decide
  units_length := by decide +kernel
  units_head := by decide +kernel
  units_word := by decide +kernel
  nodup := by decide +kernel

def emptyDisk : Disk :=
  ⟨cstr "hda", false, fun _ ↦ 0, fun _ ↦ 0, fun _ ↦ false, length_hda, chars_hda⟩

def largeDisk : Found fun _ ↦ largeListing.text := .disk emptyDisk largeListing rfl

/-- Its size comes out negative. -/
theorem large_partition_overflows :
    (rdPartition (fun _ ↦ largeListing.text) ⟨0, fun _ ↦ [], 0⟩ [largeDisk.hd]).map
        (fun x ↦ x.1.map fun h ↦ h.disk.size 1) = some [-666362] ∧
      exactSize largeListing.units largeRow = 1430789 ∧
      ¬∃ hd e, rdPartition (fun _ ↦ largeListing.text) ⟨0, fun _ ↦ [], 0⟩ [largeDisk.hd] =
        some (hd, e) ∧ List.Forall₂ Found.Right [largeDisk] hd := by
  have hsizes : (rdPartition (fun _ ↦ largeListing.text) ⟨0, fun _ ↦ [], 0⟩ [largeDisk.hd]).map
      (fun x ↦ x.1.map fun h ↦ h.disk.size 1) = some [-666362] := by
    decide +kernel
  refine ⟨hsizes, by decide +kernel, ?_⟩
  rintro ⟨hd, e, hrun, hright⟩
  rw [hrun] at hsizes
  obtain ⟨h, _, hone, hnil, rfl⟩ := List.forall₂_cons_left_iff.1 hright
  have hsize : h.disk.size 1 = exactSize largeListing.units largeRow :=
    hone.2.size largeRow List.mem_cons_self
  simp [hsize, exactSize, largeListing, largeRow] at hsizes

end Sysinst
