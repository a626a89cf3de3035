import Mathlib.Data.List.Pairwise

/-!
# Motorola S-records

A text of S-records describes the contents of a memory.  Every line is a letter `S`, a digit for
the kind of the record, and bytes in hexadecimal digits of either case: how many bytes follow, an
address, the data, and a checksum.

* The kinds S1, S2 and S3 carry data, and differ in the width of the address only.  S0 is a header;
  S7, S8 and S9 end a text.
* `Line` is a record with one of its spellings, and with one of the two line ends.
* `IsImage rs img` says that `img` is the memory from the lowest to the highest address of the
  records `rs`, with 0 where no record has anything.

Nothing here says how a text is read.  An image is at least as long as any two of its records
(`IsImage.add_le`), and a single record is its own image (`isImage_singleton`).
-/

set_option autoImplicit false

namespace Srecord

/-! ## The text -/

inductive Kind
  | s0 | s1 | s2 | s3 | s7 | s8 | s9
  deriving DecidableEq

/-- The digit after the letter. -/
def Kind.digit : Kind → UInt8
  | s0 => 48
  | s1 => 49
  | s2 => 50
  | s3 => 51
  | s7 => 55
  | s8 => 56
  | s9 => 57

/-- How many bytes an address has. -/
def Kind.width : Kind → ℕ
  | s0 | s1 | s9 => 2
  | s2 | s8 => 3
  | s3 | s7 => 4

def Kind.CarriesData (k : Kind) : Prop := k = s1 ∨ k = s2 ∨ k = s3

instance decidableCarriesData (k : Kind) : Decidable k.CarriesData :=
  inferInstanceAs (Decidable (_ ∨ _))

/-- A record.  All bytes but the first are counted, in one byte. -/
structure Record where
  kind : Kind
  address : List UInt8
  data : List UInt8
  checksum : UInt8
  length_address : address.length = kind.width
  length_le : address.length + data.length + 1 ≤ 255
  data_of_end : kind = .s7 ∨ kind = .s8 ∨ kind = .s9 → data = []

/-- The bytes of a record, the count first. -/
def Record.bytes (r : Record) : List UInt8 :=
  UInt8.ofNat (r.address.length + r.data.length + 1) :: (r.address ++ (r.data ++ [r.checksum]))

/-- A hexadecimal digit of either case. -/
def IsDigit (c : UInt8) (v : ℕ) : Prop :=
  v < 10 ∧ c = UInt8.ofNat (48 + v) ∨
  10 ≤ v ∧ v < 16 ∧ (c = UInt8.ofNat (65 + (v - 10)) ∨ c = UInt8.ofNat (97 + (v - 10)))

/-- A spelling of bytes, two digits each. -/
inductive Hex : List UInt8 → List UInt8 → Prop
  | nil : Hex [] []
  | cons {b h l : UInt8} {bytes text : List UInt8} (high : IsDigit h (b.toNat / 16))
      (low : IsDigit l (b.toNat % 16)) (rest : Hex bytes text) : Hex (b :: bytes) (h :: l :: text)

inductive Ending
  | lf | crlf
  deriving DecidableEq

def Ending.text : Ending → List UInt8
  | lf => [10]
  | crlf => [13, 10]

/-- A record on a line. -/
structure Line where
  record : Record
  hex : List UInt8
  spelled : Hex record.bytes hex
  ending : Ending

/-- The digit of a value, the letters in upper case. -/
def digitChar (v : ℕ) : UInt8 :=
  if v < 10 then UInt8.ofNat (48 + v) else UInt8.ofNat (65 + (v - 10))

/-- One spelling of bytes. -/
def spell : List UInt8 → List UInt8
  | [] => []
  | b :: bytes => digitChar (b.toNat / 16) :: digitChar (b.toNat % 16) :: spell bytes

theorem isDigit_digitChar {v : ℕ} (h : v < 16) : IsDigit (digitChar v) v := by
  rcases Nat.lt_or_ge v 10 with hv | hv
  · exact Or.inl ⟨hv, if_pos hv⟩
  · exact Or.inr ⟨hv, h, Or.inl (if_neg (by omega))⟩

theorem hex_spell (bytes : List UInt8) : Hex bytes (spell bytes) := by
  induction bytes with
  | nil => exact .nil
  | cons b bytes ih =>
    have := b.toNat_lt
    exact .cons (isDigit_digitChar (by omega)) (isDigit_digitChar (by omega)) ih

/-- A record on a line of its own, in upper case. -/
def Line.plain (r : Record) (ending : Ending) : Line := ⟨r, spell r.bytes, hex_spell _, ending⟩

/-- What is on a line, without its end. -/
def Line.body (l : Line) : List UInt8 := 83 :: l.record.kind.digit :: l.hex

def Line.text (l : Line) : List UInt8 := l.body ++ l.ending.text

/-- A text of records. -/
def text (lines : List Line) : List UInt8 := (lines.map Line.text).flatten

/-! ## The memory -/

/-- A number, highest byte first. -/
def bigEndian (bytes : List UInt8) : ℕ := bytes.foldl (fun n b ↦ 256 * n + b.toNat) 0

def Record.addr (r : Record) : ℕ := bigEndian r.address

/-- The address behind the data. -/
def Record.stop (r : Record) : ℕ := r.addr + r.data.length

def Record.Covers (r : Record) (a : ℕ) : Prop := r.addr ≤ a ∧ a < r.stop

/-- The records of a text that carry data, also those whose data is empty. -/
def carriers (lines : List Line) : List Record :=
  (lines.map Line.record).filter fun r ↦ decide r.kind.CarriesData

/-- The records with an address in the memory. -/
def filled (lines : List Line) : List Record := (carriers lines).filter fun r ↦ decide (r.data ≠ [])

def lowest (rs : List Record) : ℕ := (rs.map Record.addr).min?.getD 0

def highest (rs : List Record) : ℕ := (rs.map Record.stop).max?.getD 0

/-- The memory from the lowest to the highest address. -/
structure IsImage (rs : List Record) (img : List UInt8) : Prop where
  length : img.length = highest rs - lowest rs
  holds : ∀ r ∈ rs, ∀ j < r.data.length, img[r.addr + j - lowest rs]? = r.data[j]?
  gap : ∀ i < img.length, (∀ r ∈ rs, ¬r.Covers (lowest rs + i)) → img[i]? = some 0

/-- No two records cover an address, and all of them are within `size` of the lowest one. -/
structure Fits (size : ℕ) (rs : List Record) : Prop where
  disjoint : rs.Pairwise fun r s ↦ ∀ a, ¬(r.Covers a ∧ s.Covers a)
  stop_le : ∀ r ∈ rs, r.stop ≤ lowest rs + size

variable {rs : List Record} {r s : Record} {img : List UInt8} {lines : List Line} {size : ℕ}

theorem lowest_le (h : r ∈ rs) : lowest rs ≤ r.addr := by
  rcases hm : (rs.map Record.addr).min? with _ | m
  · rw [List.min?_eq_none_iff, List.map_eq_nil_iff] at hm
    rw [hm] at h
    exact absurd h List.not_mem_nil
  · rw [lowest, hm]
    exact (List.min?_eq_some_iff.1 hm).2 _ (List.mem_map_of_mem h)

theorem le_highest (h : r ∈ rs) : r.stop ≤ highest rs := by
  rcases hm : (rs.map Record.stop).max? with _ | m
  · rw [List.max?_eq_none_iff, List.map_eq_nil_iff] at hm
    rw [hm] at h
    exact absurd h List.not_mem_nil
  · rw [highest, hm]
    exact (List.max?_eq_some_iff.1 hm).2 _ (List.mem_map_of_mem h)

/-- The image of no records is empty. -/
theorem isImage_nil : IsImage [] [] :=
  ⟨rfl, fun _ h ↦ absurd h List.not_mem_nil, fun _ h ↦ absurd h (Nat.not_lt_zero _)⟩

theorem isImage_singleton (r : Record) : IsImage [r] r.data := by
  have hlow : lowest [r] = r.addr := rfl
  have hhigh : highest [r] = r.stop := rfl
  refine ⟨?_, fun s hs j _ ↦ ?_, fun i hi hgap ↦ absurd ?_ (hgap r List.mem_cons_self)⟩
  · rw [hlow, hhigh, Record.stop, Nat.add_sub_cancel_left]
  · rw [List.mem_singleton.1 hs, hlow, Nat.add_sub_cancel_left]
  · rw [hlow]
    exact ⟨Nat.le_add_right _ _, Nat.add_lt_add_left hi _⟩

/-- The image has room for two records that do not cover the same addresses. -/
theorem IsImage.add_le (h : IsImage rs img) (hr : r ∈ rs) (hs : s ∈ rs) (hr0 : r.data ≠ [])
    (hs0 : s.data ≠ []) (hdisj : ∀ a, ¬(r.Covers a ∧ s.Covers a)) :
    r.data.length + s.data.length ≤ img.length := by
  have hrl := lowest_le hr
  have hsl := lowest_le hs
  have hrh := le_highest hr
  have hsh := le_highest hs
  have hrp := List.length_pos_iff.2 hr0
  have hsp := List.length_pos_iff.2 hs0
  have hr' := hdisj r.addr
  have hs' := hdisj s.addr
  rw [h.length]
  simp only [Record.Covers, Record.stop] at *
  omega

/-- A record with data makes an image that is not empty. -/
theorem IsImage.ne_nil (h : IsImage rs img) (hr : r ∈ rs) (hr0 : r.data ≠ []) : img ≠ [] := by
  rintro rfl
  have hpos := List.length_pos_iff.2 hr0
  have := h.holds r hr 0 hpos
  rw [List.getElem?_nil, List.getElem?_eq_getElem hpos] at this
  cases this

end Srecord
