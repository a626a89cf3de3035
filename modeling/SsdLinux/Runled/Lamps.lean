import SsdLinux.Runled.Pattern

/-!
# `runled`: the lamps of the other model

With `-o`, `transpattern_obss2obs` rearranges the bits of every entry of the table, so that a
pattern can be given in the same way for both models.  The lamps of the one are the bits 0 to 7,
those of the other the bits of `lampBits`.  `lamps_shown` says that the same lamps are lit at any
time.
-/

set_option autoImplicit false

namespace Runled

open CLib Slots

/-- The bits for the lamps of the other model, in the order of the bits 0 to 7. -/
def lampBits : List ℕ := [17, 16, 15, 14, 0, 1, 2, 3]

/-- **The same lamps**, of which there are eight. -/
theorem obss2obs_lamps {n : ℕ} (h : n < 256) :
    (∀ j < 8, ∀ k ∈ lampBits[j]?,
      (obss2obs (BitVec.ofNat 32 n)).getLsbD k = (BitVec.ofNat 32 n).getLsbD j) ∧
    ∀ k, k ∉ lampBits → (obss2obs (BitVec.ofNat 32 n)).getLsbD k = false := by
  have hlamps : ∀ n < 256, (∀ j < 8, ∀ k ∈ lampBits[j]?,
      (obss2obs (BitVec.ofNat 32 n)).getLsbD k = (BitVec.ofNat 32 n).getLsbD j) ∧
      ∀ k < 32, k ∉ lampBits → (obss2obs (BitVec.ofNat 32 n)).getLsbD k = false := by
    decide +kernel
  refine ⟨(hlamps n h).1, fun k hk ↦ ?_⟩
  rcases Nat.lt_or_ge k 32 with hlt | hge
  · exact (hlamps n h).2 k hlt hk
  · exact BitVec.getLsbD_of_ge _ _ hge

/-- Every entry is a byte. -/
theorem entry_lt (h l : UInt8) : ∃ n < 256, entry h l = BitVec.ofNat 32 n := by
  refine ⟨16 * hexValue h + hexValue l, ?_, entry_eq h l⟩
  have hh := (nibble_eq h).2
  have hl := (nibble_eq l).2
  omega

/-- The table with `-o` is the one without, entry by entry. -/
theorem patternTable_obs {p : CString} (hlt : p.bytes.length < 2147483648) :
    patternTable p true =
      some (((entries (p.bytes ++ [0]) (p.bytes.length / 2)).map obss2obs).map some) := by
  obtain ⟨hsize, htable⟩ := patternTable_eq hlt
  obtain ⟨d, hd, heq⟩ := Option.map_eq_some_iff.1 htable
  rw [if_neg Bool.false_ne_true] at heq
  have hlen : ((entries (p.bytes ++ [0]) (p.bytes.length / 2)).map some).length
      = p.bytes.length / 2 := by
    rw [List.length_map, length_entries]
  rw [patternTable, hd, heq, Option.map_some, if_pos rfl, hsize, Int.toNat_natCast,
    transpatternObss2obs, List.take_of_length_le hlen.le, List.drop_of_length_le hlen.le,
    List.append_nil, List.map_map, List.map_map]
  rfl

/-- **The same pattern on both models.**  For every pattern that can be shown, what is put out at
any time with `-o` lights the same lamps of the other model, and nothing else. -/
theorem lamps_shown (p : CString) (t : ℕ) (hshort : 2 ≤ p.bytes.length)
    (hlong : p.bytes.length < 2147483648) :
    ∃ d d' v v', patternTable p false = some d ∧ patternTable p true = some d' ∧
      ledOutput d (patternSize p) t = some v ∧ ledOutput d' (patternSize p) t = some v' ∧
      v.toNat < 256 ∧ (∀ j < 8, ∀ k ∈ lampBits[j]?, v'.getLsbD k = v.getLsbD j) ∧
      ∀ k, k ∉ lampBits → v'.getLsbD k = false := by
  obtain ⟨hsize, htable⟩ := patternTable_eq hlong
  have hlen := length_entries (p.bytes ++ [0]) (p.bytes.length / 2)
  have hpos : 0 < p.bytes.length / 2 := by omega
  obtain ⟨a, b, -, -, hget⟩ := getElem?_entries (Nat.mod_lt t hpos)
  have hout := ledOutput_eq (show 0 < (entries (p.bytes ++ [0]) (p.bytes.length / 2)).length by
    rwa [hlen]) t
  have hout' := ledOutput_eq (show 0 < ((entries (p.bytes ++ [0])
    (p.bytes.length / 2)).map obss2obs).length by rwa [List.length_map, hlen]) t
  rw [hlen, hget] at hout
  rw [List.length_map, hlen, List.getElem?_map, hget, Option.map_some] at hout'
  obtain ⟨n, hn, hentry⟩ := entry_lt a b
  rw [hentry] at hout hout'
  rw [hsize]
  refine ⟨_, _, _, _, htable, patternTable_obs hlong, hout, hout', ?_, obss2obs_lamps hn⟩
  rw [BitVec.toNat_ofNat, Nat.mod_eq_of_lt (by omega)]
  exact hn

/-- The pattern `0180`, whose second byte is a single lamp. -/
def oneLamp : CString := ⟨cstr "0180", by decide⟩

theorem lamps_shown_oneLamp : ∃ d v, patternTable oneLamp true = some d ∧
    ledOutput d (patternSize oneLamp) 1 = some v ∧
    ∀ j < 8, ∀ k ∈ lampBits[j]?, v.getLsbD k = (0x80#32).getLsbD j := by
  obtain ⟨d, d', v, v', hd, hd', hv, hv', -, hlamps, -⟩ :=
    lamps_shown oneLamp 1 (by decide) (by decide)
  have hout : (patternTable oneLamp false).bind (ledOutput · (patternSize oneLamp) 1) =
      some 0x80#32 := by decide
  rw [hd, Option.bind_some, hv] at hout
  cases hout
  exact ⟨d', v', hd', hv', hlamps⟩

end Runled
