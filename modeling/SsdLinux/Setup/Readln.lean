import SsdLinux.Setup.Nextid

/-!
# `ring_readln`: the lines of a file

`ring_readln` takes one line of a file, and at most 1023 bytes of it; the loop behind the read
should skip the rest of a longer line.  The loop tests the length of what was read first, and
nothing in it changes that length, so it is either not entered or never left.

* `ringReadln` is one call.  Its first argument bounds the rounds of the loop.
* `Readlns file ls`: successive calls return the strings `ls` and then NULL.
* `readlns_iff`: this is so for the lines of the file exactly if no line comes to 1023 bytes.

What is read is seen as a C string, so a line is cut at a NUL.  The calls are what the forms for
users go through (`readlnAll_eq_some_iff`).
-/

set_option autoImplicit false

namespace Setup

open CLib

/-- The loop behind the read. -/
def skipRest (len : ℕ) : ℕ → Bytes → Option Bytes
  | 0, file => if len = 1023 then none else some file
  | n + 1, file => if len = 1023 then skipRest len n (readLine 1023 file).2 else some file

/-- `ring_readln`, and the rest of the file. -/
def ringReadln (n : ℕ) (file : Bytes) : Option (Option Bytes × Bytes) :=
  match fgets 1023 file with
  | none => some (none, file)
  | some (buf, rest) =>
    (skipRest (cString buf).length n rest).map fun rest ↦ (some (cString buf), rest)

/-- Successive calls return the strings `ls` and then NULL. -/
inductive Readlns : Bytes → List Bytes → Prop
  | eof {n : ℕ} {file rest : Bytes} (h : ringReadln n file = some (none, rest)) : Readlns file []
  | line {n : ℕ} {file rest l : Bytes} {ls : List Bytes}
    (h : ringReadln n file = some (some l, rest)) (hrest : Readlns rest ls) :
    Readlns file (l :: ls)

/-- A line that the buffer has room for: with its newline it is shorter than 1023 bytes, or it has
that length and is cut at a NUL. -/
def FitsBuffer (l : Bytes) : Prop := l.length < 1023 ∨ l.length = 1023 ∧ 0 ∈ l

/-! ## One call -/

variable {file l : Bytes} {ls : List Bytes}

/-- The rounds of the loop do not matter. -/
theorem skipRest_eq (len n : ℕ) (file : Bytes) :
    skipRest len n file = if len = 1023 then none else some file := by
  induction n generalizing file with
  | zero => rfl
  | succ n ih =>
    rw [skipRest, ih]
    split_ifs <;> rfl

theorem ringReadln_nil (n : ℕ) : ringReadln n [] = some (none, []) := rfl

theorem ringReadln_eq (n : ℕ) (hne : file ≠ []) :
    ringReadln n file =
      if (cString (readLine 1023 file).1).length = 1023 then none
      else some (some (cString (readLine 1023 file).1), (readLine 1023 file).2) := by
  rw [ringReadln, fgets, if_neg hne]
  dsimp only
  rw [skipRest_eq]
  split_ifs <;> rfl

theorem readlns_nil_iff : Readlns [] ls ↔ ls = [] := by
  refine ⟨fun h ↦ ?_, fun h ↦ h ▸ .eof (ringReadln_nil 0)⟩
  cases h with
  | eof => rfl
  | line h => cases h

/-- The calls on a file that is not at its end. -/
theorem readlns_cons_iff (hne : file ≠ []) :
    Readlns file ls ↔ (cString (readLine 1023 file).1).length ≠ 1023 ∧
      ∃ ls', ls = cString (readLine 1023 file).1 :: ls' ∧ Readlns (readLine 1023 file).2 ls' := by
  constructor
  · intro h
    cases h with
    | eof h =>
      rw [ringReadln_eq _ hne] at h
      split_ifs at h
      cases h
    | line h hrest =>
      rw [ringReadln_eq _ hne] at h
      split_ifs at h with hlen
      cases h
      exact ⟨hlen, _, rfl, hrest⟩
  · rintro ⟨hlen, ls', rfl, hrest⟩
    exact .line (n := 0) (by rw [ringReadln_eq _ hne, if_neg hlen]) hrest

/-! ## All calls -/

theorem length_cString_ne_iff (h : l.length ≤ 1023) :
    (cString l).length ≠ 1023 ↔ FitsBuffer l := by
  have hpre : cString l <+: l := List.takeWhile_prefix _
  have hself : cString l = l ↔ 0 ∉ l := by
    rw [cString, List.takeWhile_eq_self_iff]
    simp only [decide_eq_true_eq]
    exact ⟨fun h h0 ↦ h 0 h0 rfl, fun h c hc hc0 ↦ h (hc0 ▸ hc)⟩
  have hle := hpre.length_le
  rw [FitsBuffer]
  by_cases h0 : 0 ∈ l
  · have hlt : (cString l).length ≠ l.length := fun heq ↦
      hself.1 (hpre.eq_of_length heq) h0
    simp only [h0, and_true]
    omega
  · rw [hself.2 h0]
    simp only [h0, and_false, or_false]
    omega

/-- There is a call for each line, at least. -/
theorem length_fileLines_le (h : Readlns file ls) : (fileLines file).length ≤ ls.length := by
  induction ls generalizing file with
  | nil =>
    by_cases hne : file = []
    · rw [hne]
      exact le_rfl
    · obtain ⟨-, ls', hls, -⟩ := (readlns_cons_iff hne).1 h
      cases hls
  | cons x ls ih =>
    cases hf : fileLines file with
    | nil => exact Nat.zero_le _
    | cons l tail =>
      have hne : file ≠ [] := by
        rintro rfl
        cases hf
      obtain ⟨-, ls', hls, hrest⟩ := (readlns_cons_iff hne).1 h
      cases hls
      have hle := ih hrest
      rw [(readLine_fileLines hf 1023).2] at hle
      split_ifs at hle
      · exact Nat.succ_le_succ hle
      · exact hle.trans (Nat.le_succ _)

/-- **The lines of a file are what the calls return exactly if the buffer has room for each.** -/
theorem readlns_iff (file : Bytes) :
    Readlns file ((fileLines file).map fun l ↦ cString (l.take 1023)) ↔
      ∀ l ∈ fileLines file, FitsBuffer l := by
  induction hf : fileLines file generalizing file with
  | nil =>
    have hfile : file = [] := by rw [← flatten_fileLines file, hf]; rfl
    rw [hfile]
    exact iff_of_true (readlns_nil_iff.2 rfl) (List.forall_mem_nil _)
  | cons l tail ih =>
    have hne : file ≠ [] := by
      rintro rfl
      cases hf
    obtain ⟨htake, hlines⟩ := readLine_fileLines hf 1023
    rw [List.map_cons, readlns_cons_iff hne, htake, List.forall_mem_cons]
    by_cases hlen : l.length ≤ 1023
    · rw [if_pos hlen] at hlines
      rw [List.take_of_length_le hlen, length_cString_ne_iff hlen, ← ih _ hlines]
      refine and_congr_right fun _ ↦ ⟨?_, fun h ↦ ⟨_, rfl, h⟩⟩
      rintro ⟨ls', hls, h⟩
      cases hls
      exact h
    · rw [if_neg hlen] at hlines
      refine iff_of_false ?_ fun h ↦ ?_
      · -- The rest of the line would be a line of its own, so that there are not enough strings.
        rintro ⟨-, ls', hls, h⟩
        cases hls
        have hle := length_fileLines_le h
        rw [hlines, List.length_cons, List.length_map] at hle
        exact absurd hle (Nat.not_succ_le_self _)
      · rcases h.1 with h | ⟨h, -⟩
        · exact hlen h.le
        · exact hlen h.le

/-- Behind a line that fills the buffer the first call comes to no end. -/
theorem readln_stuck :
    (¬∃ n, (ringReadln n (List.replicate 1022 120 ++ [nl])).isSome = true) ∧
      ¬Readlns (List.replicate 1022 120 ++ [nl])
        ((fileLines (List.replicate 1022 120 ++ [nl])).map fun l ↦ cString (l.take 1023)) := by
  have hne : List.replicate 1022 120 ++ [nl] ≠ [] := List.append_ne_nil_of_right_ne_nil _ (by simp)
  have hlen : (cString (readLine 1023 (List.replicate 1022 120 ++ [nl])).1).length = 1023 := by
    decide +kernel
  refine ⟨?_, fun h ↦ ((readlns_cons_iff hne).1 h).1 hlen⟩
  rintro ⟨n, hn⟩
  rw [ringReadln_eq n hne, if_pos hlen] at hn
  cases hn

/-! ## The loops over the passwd file -/

theorem readlnAll_step (hne : file ≠ []) :
    readlnAll file =
      if (cString (readLine 1023 file).1).length = 1023 then none
      else (readlnAll (readLine 1023 file).2).map (cString (readLine 1023 file).1 :: ·) := by
  rw [readlnAll, fgetsAll_eq (by decide) hne, List.mapM_cons]
  split_ifs
  · rfl
  · show ((fgetsAll 1023 _).mapM _ >>= fun ls ↦ some (_ :: ls)) = _
    cases h : (fgetsAll 1023 (readLine 1023 file).2).mapM
        fun line ↦ if (cString line).length = 1023 then none else some (cString line) with
    | none => rw [readlnAll, h]; rfl
    | some ls => rw [readlnAll, h]; rfl

/-- **The loops over `ring_readln` go through what the calls return.** -/
theorem readlnAll_eq_some_iff : readlnAll file = some ls ↔ Readlns file ls := by
  induction hk : file.length using Nat.strong_induction_on generalizing file ls with
  | _ k ih =>
  by_cases hne : file = []
  · rw [hne, readlns_nil_iff, eq_comm (a := ls)]
    exact Option.some_inj
  have hlt : (readLine 1023 file).2.length < k :=
    hk ▸ length_fgets (n := 1022) (by rw [fgets, if_neg hne])
  rw [readlns_cons_iff hne, readlnAll_step hne]
  split_ifs with hlen
  · exact iff_of_false (fun h ↦ by cases h) fun h ↦ h.1 hlen
  · rw [Option.map_eq_some_iff]
    refine ⟨?_, ?_⟩
    · rintro ⟨ls', hls', rfl⟩
      exact ⟨hlen, ls', rfl, (ih _ hlt rfl).1 hls'⟩
    · rintro ⟨-, ls', rfl, hls'⟩
      exact ⟨ls', (ih _ hlt rfl).2 hls', rfl⟩

end Setup
