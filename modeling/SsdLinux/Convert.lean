import SsdLinux.Srecord
import SsdLinux.Tcpdwl
import Mathlib.Tactic.IntervalCases

/-!
# `tcpdwl`: converting a file of S-records

A firmware image in a `.mot` file is converted before it is sent.  `ConvertFile` reads a line with
`jfgets` into `buffer`, and `mprocess` writes what the record says into the array `fary`.  At the
end of the file, `fary` is written from its beginning on, as far as `highest_address` is behind
`base_address`.

* `mprocess` sets `base_address` to the address of *every* record, so that every record is written
  to the beginning of the array, and `highest_address` is the end of the last one.
* `jfgets` takes a carriage return for the end of a line.  The newline behind it then is a line of
  its own, which is empty, and `mprocess` does not take an empty line.
* `fary` is a pointer, so `sizeof(fary)` bytes are four.

`convertFile_iff` says when that is the image all the same.  The variables are 32 bits wide, the
numbers of `jhtoi` too.  What is behind the end of a line in `buffer` is what was there before.
-/

set_option autoImplicit false

namespace Tcpdwl

open CLib Srecord

def FLASH_SIZE : ℕ := 0x10000 * 31

/-- The variables that the conversion uses. -/
structure Globals where
  buffer : ℕ → UInt8
  fary : ℕ → UInt8
  highestAddress : BitVec 32
  baseAddress : BitVec 32

/-! ## The functions -/

/-- The loop of `jfgets`, which may run `j` times more: the number of bytes in `buffer`, `buffer`,
and the rest of the file.  `(char)EOF` is skipped, in the file and at its end. -/
def jfgetsGo : ℕ → ℕ → Bytes → (ℕ → UInt8) → ℕ × (ℕ → UInt8) × Bytes
  | 0, i, file, buffer => (i, buffer, file)
  | j + 1, i, [], buffer => jfgetsGo j i [] buffer
  | j + 1, i, c :: file, buffer =>
    if c = 255 then jfgetsGo j i file buffer
    else if c = 10 ∨ c = 9 ∨ c = 13 then (i + 1, Function.update buffer i 0, file)
    else jfgetsGo j (i + 1) file (Function.update buffer i c)

def jfgets (file : Bytes) (buffer : ℕ → UInt8) : ℕ × (ℕ → UInt8) × Bytes :=
  jfgetsGo 1023 0 file buffer

/-- A digit of `jhtoi`. -/
def jdigit (c : UInt8) : Option ℕ :=
  if 48 ≤ c ∧ c ≤ 57 then some (c.toNat - 48)
  else if 97 ≤ c ∧ c ≤ 102 then some (c.toNat - 87)
  else if 65 ≤ c ∧ c ≤ 70 then some (c.toNat - 55)
  else none

def jhtoiGo (n : BitVec 32) : Bytes → BitVec 32
  | [] => n
  | c :: s =>
    match jdigit c with
    | some v => jhtoiGo (16 * n + BitVec.ofNat 32 v) s
    | none => n

def jhtoi (s : Bytes) : BitVec 32 := jhtoiGo 0 s

/-- The `n` characters from a position on, which are copied to `tbuff`. -/
def tbuff (pnt : ℕ → UInt8) : ℕ → ℕ → Bytes
  | _, 0 => []
  | pos, n + 1 => pnt pos :: tbuff pnt (pos + 1) n

/-- The data, two digits at a time. -/
def storeData (pnt : ℕ → UInt8) : ℕ → ℕ → ℕ → (ℕ → UInt8) → ℕ → UInt8
  | 0, _, _, fary => fary
  | byte_count + 1, fpnt, address, fary =>
    storeData pnt byte_count (fpnt + 2) (address + 1)
      (Function.update fary address (UInt8.ofNat (jhtoi (tbuff pnt fpnt 2)).toNat))

/-- A record of data, whose address has `digits` digits. -/
def mprocessData (digits : ℕ) (g : Globals) : ℤ × Globals :=
  let byte_count := (jhtoi (tbuff g.buffer 2 2)).toInt - (digits / 2 + 1 : ℕ)
  let address := jhtoi (tbuff g.buffer 4 digits)
  let g := { g with
    highestAddress := address + BitVec.ofInt 32 byte_count
    baseAddress := address }
  let address := address - g.baseAddress
  if address.toNat > FLASH_SIZE then (-4, g)
  else (0, { g with
    fary := storeData g.buffer byte_count.toNat (4 + digits) address.toNat g.fary })

def mprocess (g : Globals) : ℤ × Globals :=
  if g.buffer 0 ≠ 83 then (-1, g) else
  match g.buffer 1 with
  | 48 | 55 | 56 | 57 => (0, g)
  | 52 | 53 | 54 => (-2, g)
  | 49 => mprocessData 4 g
  | 50 => mprocessData 6 g
  | 51 => mprocessData 8 g
  | _ => (-3, g)

/-- What is written in the end. -/
def Globals.image (g : Globals) : Bytes :=
  (List.range (g.highestAddress - g.baseAddress).toNat).map g.fary

/-- The loop of `ConvertFile`: what it returns, and what it has written.  The first number bounds
the rounds, of which each but the last takes something of the file (`convertGo_isSome`). -/
def convertGo : ℕ → Bytes → Globals → Option (ℤ × Bytes)
  | 0, _, _ => none
  | n + 1, file, g =>
    match jfgets file g.buffer with
    | (0, _, _) => some (0, g.image)
    | (_ + 1, buffer, file) =>
      let (r_code, g) := mprocess { g with buffer }
      if r_code = 0 then convertGo n file g else some (-1, [])

/-- `ConvertFile`, with the file if it can be opened, and whether the other one can be created. -/
def convertFile (file : Option Bytes) (writable : Bool) (g : Globals) : Option (ℤ × Bytes) :=
  match file with
  | none => some (-1, [])
  | some file =>
    if !writable then some (-1, [])
    else convertGo (file.length + 1) file
      { g with fary := fun i ↦ if i < 4 then 0 else g.fary i }

/-- The variables before the conversion.  `fary` comes from `malloc`. -/
def Globals.start (fary : ℕ → UInt8) : Globals := ⟨fun _ ↦ 0, fary, 0, 0⟩

/-! ## Reading a line -/

variable {g : Globals} {t : ℕ → UInt8} {file body bytes hex : Bytes} {c : UInt8} {v i j n : ℕ}

/-- The characters of a line that `jfgets` does not do anything about. -/
def IsPlain (c : UInt8) : Prop := c ≠ 255 ∧ ¬(c = 10 ∨ c = 9 ∨ c = 13)

theorem jfgetsGo_eof (j i : ℕ) (buffer : ℕ → UInt8) : jfgetsGo j i [] buffer = (i, buffer, []) := by
  induction j with
  | zero => rfl
  | succ j ih => exact ih

/-- A line that fits, with any of the three characters at its end: it is in `buffer`, with a NUL. -/
theorem jfgetsGo_line (hbody : ∀ b ∈ body, IsPlain b) (hc : c = 10 ∨ c = 9 ∨ c = 13)
    (hj : body.length < j) (file : Bytes) (buffer : ℕ → UInt8) :
    ∃ buffer', jfgetsGo j i (body ++ c :: file) buffer = (i + body.length + 1, buffer', file) ∧
      (∀ k < i, buffer' k = buffer k) ∧
      ∀ k ≤ body.length, some (buffer' (i + k)) = (body ++ [0])[k]? := by
  induction body generalizing i j buffer with
  | nil =>
    obtain ⟨j, rfl⟩ := Nat.exists_eq_succ_of_ne_zero (Nat.ne_of_gt hj)
    refine ⟨Function.update buffer i 0, ?_, fun k hk ↦ ?_, fun k hk ↦ ?_⟩
    · have h255 : c ≠ 255 := by rcases hc with rfl | rfl | rfl <;> decide
      rw [List.nil_append, jfgetsGo, if_neg h255, if_pos hc]
      rfl
    · exact Function.update_of_ne (Nat.ne_of_lt hk) _ _
    · obtain rfl := Nat.le_zero.1 hk
      simp
  | cons b body ih =>
    obtain ⟨j, rfl⟩ := Nat.exists_eq_succ_of_ne_zero (Nat.ne_of_gt (Nat.zero_lt_of_lt hj))
    obtain ⟨hb, hbody⟩ := List.forall_mem_cons.1 hbody
    obtain ⟨buffer', heq, hbefore, hline⟩ := @ih (i + 1) j hbody (Nat.lt_of_succ_lt_succ hj)
      (Function.update buffer i b)
    refine ⟨buffer', ?_, fun k hk ↦ ?_, fun k hk ↦ ?_⟩
    · rw [List.cons_append, jfgetsGo, if_neg hb.1, if_neg hb.2, heq, List.length_cons]
      congr 1
      omega
    · rw [hbefore k (by omega), Function.update_of_ne (Nat.ne_of_lt hk)]
    · cases k with
      | zero => simp [hbefore i (Nat.lt_succ_self i)]
      | succ k =>
        rw [List.cons_append, List.getElem?_cons_succ, ← hline k (Nat.le_of_succ_le_succ hk)]
        congr 2
        omega

/-- What has been read is no longer in the file. -/
theorem jfgetsGo_rest (j i : ℕ) (file : Bytes) (buffer : ℕ → UInt8) :
    i ≤ (jfgetsGo j i file buffer).1 ∧
      (jfgetsGo j i file buffer).1 + (jfgetsGo j i file buffer).2.2.length ≤ i + file.length := by
  induction j generalizing i file buffer with
  | zero => exact ⟨le_rfl, le_rfl⟩
  | succ j ih =>
    cases file with
    | nil => exact ih i [] buffer
    | cons c file =>
      rw [jfgetsGo, List.length_cons]
      split_ifs
      · have := ih i file buffer
        omega
      · exact ⟨Nat.le_succ i, by dsimp only; omega⟩
      · have := ih (i + 1) file (Function.update buffer i c)
        omega

/-- The conversion comes to an end: a round that reads nothing is the last one. -/
theorem convertGo_isSome (h : file.length < n) (g : Globals) : (convertGo n file g).isSome := by
  induction n generalizing file g with
  | zero => exact absurd h (Nat.not_lt_zero _)
  | succ n ih =>
    have hrest := (jfgetsGo_rest 1023 0 file g.buffer).2
    rw [convertGo]
    rcases hread : jfgets file g.buffer with ⟨_ | i, buffer, file'⟩
    · rfl
    · rw [jfgets] at hread
      rw [hread] at hrest
      dsimp only at hrest ⊢
      split_ifs
      · exact ih (by omega) _
      · rfl

/-! ## Digits -/

theorem jdigit_of_isDigit (h : IsDigit c v) : jdigit c = some v := by
  rcases h with ⟨hv, rfl⟩ | ⟨hv, hv', rfl | rfl⟩ <;> interval_cases v <;> decide

theorem isPlain_of_isDigit (h : IsDigit c v) : IsPlain c := by
  rcases h with ⟨hv, rfl⟩ | ⟨hv, hv', rfl | rfl⟩ <;> interval_cases v <;>
    exact ⟨by decide, by decide⟩

theorem isPlain_of_hex (h : Hex bytes hex) : ∀ c ∈ hex, IsPlain c := by
  induction h with
  | nil => exact fun c hc ↦ absurd hc List.not_mem_nil
  | cons high low _ ih =>
    exact List.forall_mem_cons.2 ⟨isPlain_of_isDigit high,
      List.forall_mem_cons.2 ⟨isPlain_of_isDigit low, ih⟩⟩

theorem length_hex (h : Hex bytes hex) : hex.length = 2 * bytes.length := by
  induction h with
  | nil => rfl
  | cons _ _ _ ih => rw [List.length_cons, List.length_cons, List.length_cons, ih]; omega

/-- The digits of bytes stand in `buffer` from a position on. -/
def Spells (t : ℕ → UInt8) : ℕ → Bytes → Prop
  | _, [] => True
  | pos, b :: bytes => IsDigit (t pos) (b.toNat / 16) ∧ IsDigit (t (pos + 1)) (b.toNat % 16) ∧
      Spells t (pos + 2) bytes

theorem spells_of_hex (h : Hex bytes hex) {pos : ℕ}
    (ht : ∀ k < hex.length, some (t (pos + k)) = hex[k]?) : Spells t pos bytes := by
  induction h generalizing pos with
  | nil => trivial
  | @cons b h l bytes hex high low _ ih =>
    have h0 : t pos = h := Option.some.inj (ht 0 (by simp))
    have h1 : t (pos + 1) = l := Option.some.inj (ht 1 (by simp))
    refine ⟨h0 ▸ high, h1 ▸ low, ih fun k hk ↦ ?_⟩
    rw [Nat.add_assoc, Nat.add_comm 2 k]
    exact ht (k + 2) (by simpa using hk)

theorem spells_append {bytes' : Bytes} {pos : ℕ} (h : Spells t pos (bytes ++ bytes')) :
    Spells t pos bytes ∧ Spells t (pos + 2 * bytes.length) bytes' := by
  induction bytes generalizing pos with
  | nil => exact ⟨trivial, h⟩
  | cons b bytes ih =>
    obtain ⟨high, low, hrest⟩ := h
    obtain ⟨hl, hr⟩ := ih hrest
    refine ⟨⟨high, low, hl⟩, ?_⟩
    rwa [List.length_cons, Nat.mul_succ, Nat.add_comm (2 * _), ← Nat.add_assoc]

/-- `jhtoi` reads a number, modulo 2 to the power of 32. -/
theorem jhtoiGo_tbuff {pos m : ℕ} (h : Spells t pos bytes) :
    jhtoiGo (BitVec.ofNat 32 m) (tbuff t pos (2 * bytes.length))
      = BitVec.ofNat 32 (bytes.foldl (fun n b ↦ 256 * n + b.toNat) m) := by
  induction bytes generalizing pos m with
  | nil => rfl
  | cons b bytes ih =>
    obtain ⟨high, low, hrest⟩ := h
    have hstep : 16 * (16 * BitVec.ofNat 32 m + BitVec.ofNat 32 (b.toNat / 16))
        + BitVec.ofNat 32 (b.toNat % 16) = BitVec.ofNat 32 (256 * m + b.toNat) := by
      have h16 : BitVec.toNat (16 : BitVec 32) = 16 := rfl
      apply BitVec.eq_of_toNat_eq
      simp only [BitVec.toNat_add, BitVec.toNat_mul, BitVec.toNat_ofNat, h16]
      omega
    rw [List.length_cons, Nat.mul_succ, tbuff, tbuff, jhtoiGo, jdigit_of_isDigit high]
    simp only [jhtoiGo, jdigit_of_isDigit low, hstep]
    exact ih hrest

theorem jhtoi_tbuff {pos : ℕ} (h : Spells t pos bytes) :
    jhtoi (tbuff t pos (2 * bytes.length)) = BitVec.ofNat 32 (bigEndian bytes) :=
  @jhtoiGo_tbuff t bytes pos 0 h

theorem jhtoi_byte {pos : ℕ} {b : UInt8} (h : Spells t pos [b]) :
    jhtoi (tbuff t pos 2) = BitVec.ofNat 32 b.toNat := by
  have := jhtoi_tbuff h
  rwa [bigEndian, List.foldl_cons, List.foldl_nil, Nat.mul_zero, Nat.zero_add] at this

/-! ## A record -/

theorem storeData_of_lt {fpnt a k : ℕ} {fary : ℕ → UInt8} (h : k < a) :
    storeData t n fpnt a fary k = fary k := by
  induction n generalizing fpnt a fary with
  | zero => rfl
  | succ n ih => rw [storeData, ih (by omega), Function.update_of_ne (Nat.ne_of_lt h)]

theorem storeData_spells {fpnt a : ℕ} {fary : ℕ → UInt8} (h : Spells t fpnt bytes) :
    ∀ k < bytes.length, some (storeData t bytes.length fpnt a fary (a + k)) = bytes[k]? := by
  induction bytes generalizing fpnt a fary with
  | nil => exact fun k hk ↦ absurd hk (Nat.not_lt_zero _)
  | cons b bytes ih =>
    obtain ⟨high, low, hrest⟩ := h
    rintro (_ | k) hk
    · have hb : b.toNat < 2 ^ 32 := b.toNat_lt.trans (by decide)
      rw [Nat.add_zero, List.length_cons, storeData, storeData_of_lt (Nat.lt_succ_self a),
        Function.update_self, jhtoi_byte ⟨high, low, trivial⟩, BitVec.toNat_ofNat,
        Nat.mod_eq_of_lt hb, UInt8.ofNat_toNat, List.getElem?_cons_zero]
    · rw [List.length_cons, storeData, List.getElem?_cons_succ,
        ← ih hrest k (Nat.lt_of_succ_lt_succ hk)]
      congr 2
      omega

theorem map_range_eq {f : ℕ → UInt8} (h : ∀ k < bytes.length, some (f k) = bytes[k]?) :
    (List.range bytes.length).map f = bytes := by
  refine List.ext_getElem (by simp) fun k hk hk' ↦ ?_
  rw [List.getElem_map, List.getElem_range]
  exact Option.some.inj ((h k hk').trans (List.getElem?_eq_getElem hk'))

/-- **What a record does**: `base_address` is its address, `highest_address` is behind its data, and
the data stands at the beginning of the array. -/
theorem mprocessData_eq {r : Record} (h : Spells g.buffer 2 r.bytes) :
    (mprocessData (2 * r.address.length) g).1 = 0 ∧
      (mprocessData (2 * r.address.length) g).2.image = r.data := by
  have hlen := r.length_le
  have hbytes : r.bytes = [UInt8.ofNat (r.address.length + r.data.length + 1)]
      ++ (r.address ++ (r.data ++ [r.checksum])) := rfl
  obtain ⟨hcount, hrest⟩ := spells_append (hbytes ▸ h)
  obtain ⟨haddress, hrest⟩ := spells_append (show Spells g.buffer 4 _ from hrest)
  obtain ⟨hdata, -⟩ := spells_append hrest
  have hbyte : (jhtoi (tbuff g.buffer 2 2)).toInt
      - (2 * r.address.length / 2 + 1 : ℕ) = r.data.length := by
    have hsize : r.address.length + r.data.length + 1 < UInt8.size := Nat.lt_succ_of_le hlen
    rw [jhtoi_byte hcount, UInt8.toNat_ofNat_of_lt' hsize, BitVec.toInt_eq_toNat_of_lt]
    all_goals rw [BitVec.toNat_ofNat, Nat.mod_eq_of_lt (by omega)]
    all_goals omega
  have hzero (a : BitVec 32) : (a - a).toNat = 0 := by rw [BitVec.sub_self, BitVec.toNat_zero]
  have hcancel (a b : BitVec 32) : a + b - a = b := by rw [BitVec.add_comm, BitVec.add_sub_cancel]
  have hofInt : (BitVec.ofInt 32 (r.data.length : ℤ)).toNat = r.data.length := by
    rw [BitVec.ofInt_natCast, BitVec.toNat_ofNat, Nat.mod_eq_of_lt (by omega)]
  simp only [mprocessData, hbyte, jhtoi_tbuff haddress, hzero, gt_iff_lt, Nat.not_lt_zero, if_false,
    Globals.image, hcancel, hofInt, Int.toNat_natCast, true_and]
  refine map_range_eq fun k hk ↦ ?_
  have := @storeData_spells g.buffer r.data _ 0 g.fary hdata k hk
  rwa [Nat.zero_add] at this

/-- A line of a text in `buffer`: it is taken, and a record that carries data sets what will be
written. -/
theorem mprocess_line {l : Line} (h : ∀ k < l.body.length, some (g.buffer k) = l.body[k]?) :
    (mprocess g).1 = 0 ∧ (mprocess g).2.image
      = if l.record.kind.CarriesData then l.record.data else g.image := by
  have h0 : g.buffer 0 = 83 := Option.some.inj (h 0 (by simp [Line.body]))
  have h1 : g.buffer 1 = l.record.kind.digit := Option.some.inj (h 1 (by simp [Line.body]))
  have hspells : Spells g.buffer 2 l.record.bytes := by
    refine spells_of_hex l.spelled fun k hk ↦ ?_
    rw [Nat.add_comm]
    exact h (k + 2) (by simpa [Line.body] using hk)
  have hdata := mprocessData_eq hspells
  rw [l.record.length_address] at hdata
  rw [mprocess, if_neg (not_not_intro h0), h1]
  cases hkind : l.record.kind <;> rw [hkind] at hdata
  case s1 | s2 | s3 => exact hdata
  all_goals exact ⟨rfl, rfl⟩

/-- What `jfgets` leaves of a line before its end. -/
theorem isPlain_body (l : Line) : (∀ c ∈ l.body, IsPlain c) ∧ l.body.length < 1023 := by
  refine ⟨List.forall_mem_cons.2 ⟨⟨by decide, by decide⟩, List.forall_mem_cons.2 ⟨?_,
    isPlain_of_hex l.spelled⟩⟩, ?_⟩
  · cases l.record.kind <;> exact ⟨by decide, by decide⟩
  · have := l.record.length_le
    rw [Line.body, List.length_cons, List.length_cons, length_hex l.spelled, Record.bytes,
      List.length_cons, List.length_append, List.length_append, List.length_singleton]
    omega

/-! ## The whole file -/

/-- What the record of a line leaves in the array. -/
def Globals.After (g : Globals) (l : Line) (g' : Globals) : Prop :=
  g'.image = if l.record.kind.CarriesData then l.record.data else g.image

/-- One round, up to the character that `jfgets` takes for the end of the line. -/
theorem convertGo_body (l : Line) (hc : c = 10 ∨ c = 9 ∨ c = 13) (n : ℕ) (file : Bytes)
    (g : Globals) :
    ∃ g', convertGo (n + 1) (l.body ++ c :: file) g = convertGo n file g' ∧ g.After l g' := by
  obtain ⟨hplain, hlen⟩ := isPlain_body l
  obtain ⟨buffer, heq, -, hline⟩ := @jfgetsGo_line l.body c 0 1023 hplain hc hlen file g.buffer
  have hread : jfgets (l.body ++ c :: file) g.buffer = (0 + l.body.length + 1, buffer, file) := heq
  obtain ⟨hcode, himage⟩ := @mprocess_line { g with buffer } l fun k hk ↦ by
    rw [← List.getElem?_append_left hk, ← hline k hk.le, Nat.zero_add]
  refine ⟨(mprocess { g with buffer }).2, ?_, himage⟩
  rw [convertGo, hread]
  simp only [hcode, if_true]

/-- A line that ends with a newline. -/
theorem convertGo_lf {l : Line} (h : l.ending = .lf) (n : ℕ) (file : Bytes) (g : Globals) :
    ∃ g', convertGo (n + 1) (l.text ++ file) g = convertGo n file g' ∧ g.After l g' := by
  rw [Line.text, h, List.append_assoc]
  exact convertGo_body l (Or.inl rfl) n file g

/-- An empty line is not taken. -/
theorem convertGo_empty (n : ℕ) (file : Bytes) (g : Globals) :
    convertGo (n + 1) (10 :: file) g = some (-1, []) := by
  have hread : jfgets (10 :: file) g.buffer = (1, Function.update g.buffer 0 0, file) := rfl
  rw [convertGo, hread]
  rfl

/-- A line that ends with a carriage return and a newline: the newline is an empty line. -/
theorem convertGo_crlf {l : Line} (h : l.ending = .crlf) (n : ℕ) (file : Bytes) (g : Globals) :
    convertGo (n + 2) (l.text ++ file) g = some (-1, []) := by
  rw [Line.text, h, List.append_assoc]
  obtain ⟨g', heq, -⟩ := @convertGo_body 13 l (Or.inr (Or.inr rfl)) (n + 1) (10 :: file) g
  exact heq.trans (convertGo_empty n file g')

/-- The data of the last record that carries any. -/
def lastData (before : Bytes) (lines : List Line) : Bytes :=
  ((carriers lines).getLast?.map Record.data).getD before

theorem lastData_cons (before : Bytes) (l : Line) (lines : List Line) :
    lastData before (l :: lines)
      = lastData (if l.record.kind.CarriesData then l.record.data else before) lines := by
  rw [lastData, carriers, List.map_cons, lastData, carriers]
  by_cases h : l.record.kind.CarriesData
  · rw [List.filter_cons_of_pos (by simpa using h), List.getLast?_cons, if_pos h]
    cases List.getLast? _ <;> rfl
  · rw [List.filter_cons_of_neg (by simpa using h), if_neg h]

/-- **The conversion**: it fails if a line ends with a carriage return, and otherwise writes the
data of the last record. -/
theorem convertGo_text (lines : List Line) (hn : 2 * lines.length < n) :
    convertGo n (text lines) g = if ∀ l ∈ lines, l.ending = .lf
      then some (0, lastData g.image lines) else some (-1, []) := by
  induction lines generalizing n g with
  | nil =>
    obtain ⟨n, rfl⟩ := Nat.exists_eq_succ_of_ne_zero (Nat.ne_of_gt hn)
    rw [if_pos (List.forall_mem_nil _), text, List.map_nil, List.flatten_nil, convertGo, jfgets,
      jfgetsGo_eof]
    rfl
  | cons l lines ih =>
    rw [List.length_cons] at hn
    obtain ⟨n, rfl⟩ := Nat.exists_eq_add_of_lt (show 1 < n by omega)
    rw [text, List.map_cons, List.flatten_cons]
    cases hend : l.ending with
    | lf =>
      obtain ⟨g', heq, hafter⟩ := convertGo_lf hend (1 + n) (text lines) g
      refine heq.trans ((ih (by omega)).trans ?_)
      simp only [List.forall_mem_cons, hend, true_and, lastData_cons, ← hafter.symm]
    | crlf =>
      rw [if_neg fun h ↦ by simp [h l List.mem_cons_self] at hend, Nat.add_comm 1 n]
      exact convertGo_crlf hend n (text lines) g

theorem two_mul_length_le (lines : List Line) : 2 * lines.length ≤ (text lines).length := by
  induction lines with
  | nil => exact Nat.le_refl 0
  | cons l lines ih =>
    rw [text, List.map_cons, List.flatten_cons, List.length_append, Line.text, List.length_append,
      Line.body, List.length_cons, List.length_cons, List.length_cons]
    rw [text] at ih
    omega

theorem convertFile_text (lines : List Line) (fary : ℕ → UInt8) :
    convertFile (some (text lines)) true (.start fary) = if ∀ l ∈ lines, l.ending = .lf
      then some (0, lastData [] lines) else some (-1, []) := by
  have himage (f : ℕ → UInt8) : Globals.image ⟨fun _ ↦ 0, f, 0, 0⟩ = [] := by
    simp [Globals.image]
  refine (convertGo_text lines (Nat.lt_succ_of_le (two_mul_length_le lines))).trans ?_
  rw [Globals.start, himage]

/-! ## When it is the image -/

/-- If only the last record has data, that is the image. -/
theorem isImage_lastData {lines : List Line} (h : ∀ r ∈ (carriers lines).dropLast, r.data = []) :
    IsImage (filled lines) (lastData [] lines) := by
  rw [filled, lastData]
  rcases List.eq_nil_or_concat' (carriers lines) with hnil | ⟨rs, r, hrs⟩
  · rw [hnil]
    exact isImage_nil
  · rw [hrs, List.dropLast_concat] at h
    have hempty : rs.filter (fun r ↦ decide (r.data ≠ [])) = [] := by
      rw [List.filter_eq_nil_iff]
      exact fun s hs ↦ by simp [h s hs]
    rw [hrs, List.filter_append, hempty, List.nil_append, List.getLast?_concat]
    by_cases hr : r.data = []
    · rw [List.filter_cons_of_neg (by simp [hr])]
      simp only [Option.map_some, Option.getD_some, hr]
      exact isImage_nil
    · rw [List.filter_cons_of_pos (by simp [hr])]
      exact isImage_singleton r

/-- If another record has data, the image is longer than the data of the last one. -/
theorem not_isImage_lastData {lines : List Line} (hfit : Fits FLASH_SIZE (filled lines))
    (himg : IsImage (filled lines) (lastData [] lines)) :
    ∀ r ∈ (carriers lines).dropLast, r.data = [] := by
  intro r hr
  by_contra hr0
  obtain hnil | ⟨rs, s, hrs⟩ := List.eq_nil_or_concat' (carriers lines)
  · simp [hnil] at hr
  have hlast : lastData [] lines = s.data := by
    rw [lastData, hrs, List.getLast?_concat]
    rfl
  rw [hrs, List.dropLast_concat] at hr
  have hrf : r ∈ rs.filter fun r ↦ decide (r.data ≠ []) :=
    List.mem_filter.2 ⟨hr, by simpa using hr0⟩
  have hfilled : filled lines = (rs.filter fun r ↦ decide (r.data ≠ []))
      ++ [s].filter fun r ↦ decide (r.data ≠ []) := by
    rw [filled, hrs, List.filter_append]
  have hr' : r ∈ filled lines := hfilled ▸ List.mem_append_left _ hrf
  by_cases hs0 : s.data = []
  · exact himg.ne_nil hr' hr0 (hlast.trans hs0)
  · have hsf : s ∈ [s].filter fun r ↦ decide (r.data ≠ []) :=
      List.mem_filter.2 ⟨List.mem_cons_self, by simpa using hs0⟩
    have hdisj := (List.pairwise_append.1 (hfilled ▸ hfit.disjoint)).2.2 r hrf s hsf
    have hle := himg.add_le hr' (hfilled ▸ List.mem_append_right _ hsf) hr0 hs0 hdisj
    rw [hlast] at hle
    have := List.length_pos_iff.2 hr0
    omega

/-- **When the conversion builds the image**: every line ends with a newline alone, and no record
but the last one of those that carry data has any. -/
theorem convertFile_iff (lines : List Line) (fary : ℕ → UInt8)
    (hfit : Fits FLASH_SIZE (filled lines)) :
    (∃ img, convertFile (some (text lines)) true (.start fary) = some (0, img) ∧
      IsImage (filled lines) img) ↔
    (∀ l ∈ lines, l.ending = .lf) ∧ ∀ r ∈ (carriers lines).dropLast, r.data = [] := by
  rw [convertFile_text]
  constructor
  · rintro ⟨img, hrun, himg⟩
    split_ifs at hrun with hlf
    · cases hrun
      exact ⟨hlf, not_isImage_lastData hfit himg⟩
    · cases hrun
  · rintro ⟨hlf, hdata⟩
    exact ⟨_, if_pos hlf, isImage_lastData hdata⟩

/-- Two bytes at two addresses, one record for each. -/
def firstByte : Record := ⟨.s1, [0, 0], [1], 0xFA, rfl, by decide, by decide⟩

def secondByte : Record := ⟨.s1, [0, 1], [2], 0xF8, rfl, by decide, by decide⟩

/-- A header, a record without data, and the end. -/
def header : Record := ⟨.s0, [0, 0], [72, 68, 82], 0x1B, rfl, by decide, by decide⟩

def noData : Record := ⟨.s1, [0, 0], [], 0xFC, rfl, by decide, by decide⟩

def lastRecord : Record := ⟨.s9, [0, 0], [], 0xFC, rfl, by decide, by decide⟩

/-- Four records, one of which has data. -/
def oneWithData : List Line :=
  [.plain header .lf, .plain noData .lf, .plain secondByte .lf, .plain lastRecord .lf]

theorem convertFile_oneWithData :
    ∃ img, convertFile (some (text oneWithData)) true (.start fun _ ↦ 7) = some (0, img) ∧
      IsImage (filled oneWithData) img :=
  (convertFile_iff oneWithData (fun _ ↦ 7) ⟨List.pairwise_singleton _ _, by decide⟩).2
    ⟨by decide, by decide⟩

/-- Of two records, the second is written alone; and with a carriage return, none is. -/
theorem twoRecords_not_image :
    (Fits FLASH_SIZE (filled [.plain firstByte .lf, .plain secondByte .lf]) ∧
      ¬∃ img, convertFile (some (text [.plain firstByte .lf, .plain secondByte .lf])) true
        (.start fun _ ↦ 0) = some (0, img) ∧
        IsImage (filled [.plain firstByte .lf, .plain secondByte .lf]) img) ∧
    convertFile (some (text [.plain firstByte .crlf])) true (.start fun _ ↦ 0) = some (-1, []) := by
  have hfilled : filled [.plain firstByte .lf, .plain secondByte .lf]
      = [firstByte, secondByte] := rfl
  refine ⟨⟨⟨?_, by decide⟩, ?_⟩, convertFile_text _ _⟩
  · rw [hfilled, List.pairwise_pair]
    rintro a ⟨⟨-, h⟩, ⟨h', -⟩⟩
    exact absurd (h'.trans_lt h) (by decide)
  · rintro ⟨img, hrun, himg⟩
    rw [convertFile_text, if_pos (by decide)] at hrun
    cases hrun
    exact absurd himg.length (by decide)

end Tcpdwl
