import SsdLinux.CLib.Bytes
import SsdLinux.Slots

/-!
# C strings in memory

A block of memory is a block of bytes as in `SsdLinux.Slots`, where a byte that has never been
written has no value.  `stringIn` reads the string at its front, which ends with a NUL
(`stringIn_eq_some_iff`), and `strcpy` and `strcat` write one (`strcpy_spec`, `strcat_spec`).  A
read of a byte without a value and any access behind the block have no result.

`strcatWithin` is what `strcat` does with a string from the same block: it overwrites the NUL that
it would stop at, and runs on (`strcatWithin_eq_none`).
-/

set_option autoImplicit false

namespace CLib

open Slots

abbrev Block := List (Option UInt8)

variable {block : Block} {s t : Bytes}

/-- The string at the front of a block. -/
def stringIn : Block → Option Bytes
  | some c :: block => if c = 0 then some [] else (stringIn block).map (c :: ·)
  | _ => none

def strcpy (block : Block) (s : Bytes) : Option Block := fill block 0 ((s ++ [0]).map some)

def strcat (block : Block) (s : Bytes) : Option Block :=
  (stringIn block).bind fun t ↦ fill block t.length ((s ++ [0]).map some)

/-- Bytes are copied from the place `i` to the place `j` of the same block, up to a NUL.  A block is
not left, so there are no more of them than it has. -/
def copyWithin : ℕ → Block → ℕ → ℕ → Option Block
  | 0, _, _, _ => none
  | n + 1, block, i, j =>
    match block[i]? with
    | some (some c) =>
      (store block j (some c)).bind fun block ↦
        if c = 0 then some block else copyWithin n block (i + 1) (j + 1)
    | _ => none

/-- `strcat` of a block and the string that is in it. -/
def strcatWithin (block : Block) : Option Block :=
  (stringIn block).bind fun t ↦ copyWithin block.length block 0 t.length

theorem holds_cons {v : Option UInt8} {c : UInt8} :
    Holds (v :: block) (c :: s) ↔ v = some c ∧ Holds block s := by
  rw [Holds, List.length_cons, List.take_succ_cons, List.map_cons, List.cons_eq_cons]
  rfl

/-- **What it is that a block begins with a string.** -/
theorem stringIn_eq_some_iff : stringIn block = some s ↔ Holds block (s ++ [0]) ∧ 0 ∉ s := by
  induction block generalizing s with
  | nil => simp [stringIn, Holds]
  | cons v block ih =>
    cases s with
    | nil =>
      rw [List.nil_append, holds_cons, and_iff_left List.not_mem_nil,
        and_iff_left (holds_nil block)]
      rcases v with - | c
      · simp [stringIn]
      · by_cases hc : c = 0 <;> simp [stringIn, hc]
    | cons d s =>
      rw [List.cons_append, holds_cons, List.mem_cons, not_or]
      constructor
      · intro h
        rcases v with - | c
        · cases h
        rw [stringIn] at h
        split_ifs at h with hc
        · cases h
        · obtain ⟨t, ht, heq⟩ := Option.map_eq_some_iff.1 h
          obtain ⟨rfl, rfl⟩ := List.cons_eq_cons.1 heq
          obtain ⟨hholds, hmem⟩ := ih.1 ht
          exact ⟨⟨rfl, hholds⟩, Ne.symm hc, hmem⟩
      · rintro ⟨⟨rfl, hholds⟩, hd, hmem⟩
        rw [stringIn, if_neg (Ne.symm hd), ih.2 ⟨hholds, hmem⟩, Option.map_some]

/-- **A string in a block that is long enough.** -/
theorem strcpy_spec (hs : 0 ∉ s) (hlt : s.length < block.length) :
    ∃ block', strcpy block s = some block' ∧ block'.length = block.length ∧
      stringIn block' = some s := by
  have hle : ([] : Bytes).length + (s ++ [0]).length ≤ block.length := by
    rw [List.length_append, List.length_singleton, List.length_nil]
    omega
  obtain ⟨block', hfill, hlen, hholds⟩ := fill_holds (holds_nil block) hle
  exact ⟨block', hfill, hlen, stringIn_eq_some_iff.2 ⟨hholds, hs⟩⟩

/-- **A string behind another one.** -/
theorem strcat_spec (ht : stringIn block = some t) (hs : 0 ∉ s)
    (hlt : t.length + s.length < block.length) :
    ∃ block', strcat block s = some block' ∧ block'.length = block.length ∧
      stringIn block' = some (t ++ s) := by
  obtain ⟨hholds, hmem⟩ := stringIn_eq_some_iff.1 ht
  have hle : t.length + (s ++ [0]).length ≤ block.length := by
    rw [List.length_append, List.length_singleton]
    omega
  obtain ⟨block', hfill, hlen, hholds'⟩ := fill_holds hholds.of_append hle
  refine ⟨block', ?_, hlen, stringIn_eq_some_iff.2 ⟨?_, ?_⟩⟩
  · rw [strcat, ht, Option.bind_some, hfill]
  · rwa [List.append_assoc]
  · rw [List.mem_append, not_or]
    exact ⟨hmem, hs⟩

/-- A NUL at the front. -/
theorem store_zero (h : 0 < block.length) :
    ∃ block', store block 0 (some 0) = some block' ∧ block'.length = block.length ∧
      stringIn block' = some [] := by
  obtain ⟨block', hstore, hlen, hholds⟩ := store_holds (x := 0) (holds_nil block) h
  exact ⟨block', hstore, hlen, stringIn_eq_some_iff.2 ⟨hholds, List.not_mem_nil⟩⟩

/-- Where there is no NUL between the two places there is never one to stop at. -/
theorem copyWithin_eq_none {i j : ℕ} (n : ℕ) (hlt : i < j)
    (hne : ∀ k, i ≤ k → k < j → ∃ c, block[k]? = some (some c) ∧ c ≠ 0) :
    copyWithin n block i j = none := by
  induction n generalizing block i j with
  | zero => rfl
  | succ n ih =>
    obtain ⟨c, hget, hc⟩ := hne i (Nat.le_refl i) hlt
    rw [copyWithin, hget]
    dsimp only
    by_cases hj : j < block.length
    swap
    · rw [store, if_neg hj]
      rfl
    rw [store, if_pos hj, Option.bind_some, if_neg hc]
    refine ih (Nat.succ_lt_succ hlt) fun k hik hkj ↦ ?_
    rcases Nat.lt_succ_iff_lt_or_eq.1 hkj with hkj | rfl
    · rw [List.getElem?_set_ne (by omega)]
      exact hne k (by omega) hkj
    · exact ⟨c, List.getElem?_set_self hj, hc⟩

/-- **A string that is put behind itself** runs out of its block. -/
theorem strcatWithin_eq_none (h : stringIn block = some s) (hne : s ≠ []) :
    strcatWithin block = none := by
  obtain ⟨hholds, hmem⟩ := stringIn_eq_some_iff.1 h
  obtain ⟨rest, hblock⟩ := hholds.of_append.exists_append
  rw [strcatWithin, h, Option.bind_some]
  refine copyWithin_eq_none _ (List.length_pos_of_ne_nil hne) fun k _ hk ↦ ⟨s[k], ?_, fun h0 ↦ ?_⟩
  · rw [hblock, List.getElem?_append_left (by rwa [List.length_map]), List.getElem?_map,
      List.getElem?_eq_getElem hk]
    rfl
  · exact hmem (h0 ▸ List.getElem_mem hk)

/-- Of an empty string there is only the NUL. -/
theorem strcatWithin_nil (h : stringIn block = some []) : strcatWithin block = some block := by
  obtain ⟨rest, hblock⟩ := (stringIn_eq_some_iff.1 h).1.exists_append
  rw [strcatWithin, h, Option.bind_some, hblock]
  rfl

end CLib
