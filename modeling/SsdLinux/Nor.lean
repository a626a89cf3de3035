import Mathlib.Algebra.Order.Group.Nat
import Mathlib.Data.List.GetD
import Mathlib.Data.UInt

/-!
# NOR flash

The cells of a flash device, a byte at every position, and the two ways in which they change.
Erasing sets the bytes of a range to `0xFF`; programming can only clear bits, so that what is there
afterwards is the conjunction of what was there and of the data.

* `program_erase` is the reason to erase first.
* `image sect file m` is what a device should hold once a file has been written to its beginning,
  sector by sector: the file, `0xFF` up to the end of the last sector (`filled`), and what was there
  before in all other sectors.
* `image_append` is one step of writing a file so, and the only lemma about the loop of a writer.

What a call that fails leaves in the range that it was about is anything (`patch`).
-/

set_option autoImplicit false

namespace Nor

abbrev Cells := ℕ → UInt8

/-! ## The operations -/

/-- Other cells in a range. -/
def patch (pos len : ℕ) (f m : Cells) : Cells :=
  fun i ↦ if pos ≤ i ∧ i < pos + len then f i else m i

/-- Erase a range. -/
def erase (pos len : ℕ) (m : Cells) : Cells := patch pos len (fun _ ↦ 0xFF) m

/-- Program data from a position on. -/
def program (pos : ℕ) (data : List UInt8) (m : Cells) : Cells :=
  patch pos data.length (fun i ↦ m i &&& data.getD (i - pos) 0xFF) m

variable {pos len sect i n : ℕ} {f m : Cells} {file data : List UInt8}

theorem patch_of_lt (h : i < pos) : patch pos len f m i = m i := if_neg (by omega)

theorem patch_of_le (h : pos + len ≤ i) : patch pos len f m i = m i := if_neg (by omega)

theorem patch_of_mem (h : pos ≤ i) (h' : i < pos + len) : patch pos len f m i = f i :=
  if_pos ⟨h, h'⟩

theorem ff_and (b : UInt8) : 0xFF &&& b = b := by
  rw [UInt8.and_comm]
  exact UInt8.and_neg_one

/-- **Data that is programmed into an erased range is there, and `0xFF` stays behind it.** -/
theorem program_erase (h : data.length ≤ len) : program pos data (erase pos len m)
    = patch pos len (fun i ↦ data.getD (i - pos) 0xFF) m := by
  funext i
  rcases Nat.lt_or_ge i pos with hi | hi
  · rw [program, erase, patch_of_lt hi, patch_of_lt hi, patch_of_lt hi]
  rcases Nat.lt_or_ge i (pos + len) with hi' | hi'
  · rw [patch_of_mem hi hi']
    rcases Nat.lt_or_ge i (pos + data.length) with hd | hd
    · rw [program, patch_of_mem hi hd, erase, patch_of_mem hi hi']
      exact ff_and _
    · rw [program, patch_of_le hd, erase, patch_of_mem hi hi', List.getD_eq_default _ _ (by omega)]
  · rw [program, erase, patch_of_le (by omega), patch_of_le hi', patch_of_le hi']

/-! ## Sectors -/

/-- The number of bytes in the sectors that `n` bytes take up. -/
def filled (sect n : ℕ) : ℕ := sect * ((n + sect - 1) / sect)

theorem filled_zero (sect : ℕ) : filled sect 0 = 0 := by
  rcases Nat.eq_zero_or_pos sect with rfl | h
  · simp [filled]
  · rw [filled, Nat.div_eq_of_lt (by omega), Nat.mul_zero]

/-- One sector more. -/
theorem filled_add {r : ℕ} (h : sect ∣ n) (hr : 0 < r) (hr' : r ≤ sect) :
    filled sect (n + r) = n + sect := by
  obtain ⟨q, rfl⟩ := h
  have hs : 0 < sect := by omega
  have : sect * q + r + sect - 1 = r - 1 + sect * (q + 1) := by
    rw [Nat.mul_succ]
    omega
  rw [filled, this, Nat.add_mul_div_left _ _ hs, Nat.div_eq_of_lt (by omega), Nat.zero_add,
    Nat.mul_succ]

theorem filled_of_dvd (h : sect ∣ n) : filled sect n = n := by
  rcases Nat.eq_zero_or_pos n with rfl | hn
  · exact filled_zero sect
  obtain ⟨q, rfl⟩ := h
  have hs : 0 < sect := Nat.pos_of_mul_pos_right hn
  cases q with
  | zero => simp at hn
  | succ q => rw [Nat.mul_succ, filled_add (Nat.dvd_mul_right _ _) hs le_rfl]

/-- The sectors lie inside any limit between sectors that the bytes lie inside. -/
theorem filled_le {limit : ℕ} (h : n ≤ limit) (hl : sect ∣ limit) : filled sect n ≤ limit := by
  obtain ⟨q, rfl⟩ := hl
  rcases Nat.eq_zero_or_pos sect with rfl | hs
  · simp [filled]
  · refine Nat.mul_le_mul_left _ (Nat.lt_succ_iff.1 ((Nat.div_lt_iff_lt_mul hs).2 ?_))
    rw [Nat.succ_mul, Nat.mul_comm]
    omega

/-! ## A file in the first sectors -/

/-- The file in the first sectors of a device. -/
def image (sect : ℕ) (file : List UInt8) (m : Cells) : Cells :=
  patch 0 (filled sect file.length) (fun i ↦ file.getD i 0xFF) m

theorem image_nil : image sect [] m = m := by
  funext i
  rw [image, patch_of_le (by simp [filled_zero])]

/-- The bytes of the file. -/
theorem image_of_lt (h : i < file.length) (hf : file.length ≤ filled sect file.length) :
    file[i]? = some (image sect file m i) := by
  rw [image, patch_of_mem (Nat.zero_le _) (by omega), List.getElem?_eq_getElem h,
    List.getD_eq_getElem _ _ h]

/-- **One sector more**: the next block of a file is programmed into the next sector, which has been
erased. -/
theorem image_append (h : sect ∣ file.length) (hd : 0 < data.length) (hd' : data.length ≤ sect) :
    program file.length data (erase file.length sect (image sect file m))
      = image sect (file ++ data) m := by
  rw [program_erase hd']
  funext i
  have hfile := filled_of_dvd h
  have hall : filled sect (file ++ data).length = file.length + sect := by
    rw [List.length_append, filled_add h hd hd']
  rcases Nat.lt_or_ge i file.length with hi | hi
  · rw [patch_of_lt hi, image, patch_of_mem (Nat.zero_le _) (by omega), image,
      patch_of_mem (Nat.zero_le _) (by omega), List.getD_append _ _ _ _ hi]
  rcases Nat.lt_or_ge i (file.length + sect) with hi' | hi'
  · rw [patch_of_mem hi hi', image, patch_of_mem (Nat.zero_le _) (by omega),
      List.getD_append_right _ _ _ _ hi]
  · rw [patch_of_le hi', image, patch_of_le (by omega), image,
      patch_of_le (by omega)]

end Nor
