import Mathlib.Logic.Function.Basic
import SsdLinux.Sysinst.Menu
import SsdLinux.Words

/-!
# `sysinst`: the words of a line

The installer reads what the kernel and `fdisk` print line by line.  `tab2sp` skips the blanks in
front of a line and turns its tabs into blanks, and `getarg` copies the words to `result[0]`,
`result[1]` and so on.

* `takeWord` is the inner loop.  It only goes on within a bound, and does not end behind it.
* A word is copied to an array of `WORDBUFSIZ` bytes, but its length is not compared with that.
  `getarg` has no result if one does not fit.
* The arrays behind the last word keep what they held.

`lineWords` says what the words of a line are, up to a word that begins with a `#`, and `getarg_eq`
that these are what is copied, if they fit.
-/

set_option autoImplicit false

namespace Sysinst

open CLib

def BUFSIZ : ℕ := 8192

def MAXARG : ℕ := 20

def WORDBUFSIZ : ℕ := 256

abbrev tab : UInt8 := 9

def isGap (c : UInt8) : Bool := c == blank || c == tab

/-- `tab2sp`. -/
def tab2sp (source : Bytes) : Bytes :=
  ((cString source).dropWhile isGap).map fun c ↦ if c = tab then blank else c

/-- The inner loop: the word and what is behind it.  `j` bytes have been copied. -/
def takeWord : ℕ → Bytes → Option (Bytes × Bytes)
  | _, [] => some ([], [])
  | j, c :: source =>
    if c = blank ∨ c = 0 ∨ c = nl then some ([], c :: source)
    else if j < BUFSIZ - 1 then
      (takeWord (j + 1) source).map fun (buf, source) ↦ (c :: buf, source)
    else none

/-- The outer loop.  The first number bounds its rounds, each of which takes something of the
source. -/
def getargGo : ℕ → ℕ → (ℕ → Bytes) → Bytes → Option (ℕ × (ℕ → Bytes))
  | 0, _, _, _ => none
  | _ + 1, i, result, [] => some (i, result)
  | n + 1, i, result, c :: source =>
    if c = hash ∨ c = nl ∨ c = 0 then some (i, result)
    else if c ≠ blank then
      (takeWord 0 (c :: source)).bind fun (buf, source) ↦
        if WORDBUFSIZ ≤ buf.length then none
        else if MAXARG ≤ i + 1 then some (i + 1, Function.update result i buf)
        else getargGo n (i + 1) (Function.update result i buf) source
    else getargGo n i result source

/-- `getarg`: the number of the words, and the arrays. -/
def getarg (result : ℕ → Bytes) (source : Bytes) : Option (ℕ × (ℕ → Bytes)) :=
  getargGo (source.length + 1) 0 result source

/-! ## The words of a line -/

/-- The words up to the newline or to one that begins with a `#`. -/
def sourceWords (s : Bytes) : List Bytes :=
  (Words.split isGap (s.takeWhile fun c ↦ c != nl)).takeWhile fun w ↦ w.head? != some hash

/-- The words of a line, as many as there are arrays for them. -/
def lineWords (line : Bytes) : List Bytes := (sourceWords (cString line)).take MAXARG

variable {i n : ℕ} {result : ℕ → Bytes} {source : Bytes}

/-- The words in arrays from the `i`-th on. -/
def putWords (i : ℕ) (result : ℕ → Bytes) (ws : List Bytes) : ℕ → Bytes :=
  fun k ↦ if k < i then result k else ws[k - i]?.getD (result k)

theorem putWords_nil (i : ℕ) (result : ℕ → Bytes) : putWords i result [] = result := by
  funext k
  simp [putWords]

theorem putWords_cons (i : ℕ) (result : ℕ → Bytes) (w : Bytes) (ws : List Bytes) :
    putWords i result (w :: ws) = putWords (i + 1) (Function.update result i w) ws := by
  funext k
  rw [putWords, putWords]
  rcases Nat.lt_trichotomy k i with hk | rfl | hk
  · rw [if_pos hk, if_pos (by omega), Function.update_of_ne hk.ne]
  · rw [if_neg (lt_irrefl k), if_pos (Nat.lt_succ_self k), Nat.sub_self, Function.update_self]
    rfl
  · rw [if_neg (by omega), if_neg (by omega), Function.update_of_ne hk.ne',
      show k - i = k - (i + 1) + 1 by omega, List.getElem?_cons_succ]

/-! ## What `tab2sp` leaves -/

/-- No NUL and no tab. -/
def Plain (source : Bytes) : Prop := ∀ c ∈ source, c ≠ 0 ∧ c ≠ tab

theorem tab2sp_plain (line : Bytes) : Plain (tab2sp line) := by
  intro c hc
  obtain ⟨d, hd, rfl⟩ := List.mem_map.1 hc
  have hd0 : d ≠ 0 := by simpa using List.mem_takeWhile_imp (List.dropWhile_subset _ hd)
  split_ifs with h
  · exact ⟨by decide, by decide⟩
  · exact ⟨hd0, h⟩

theorem ne_nl_of_isGap {c : UInt8} (h : isGap c = true) : (c != nl) = true := by
  rcases Bool.or_eq_true_iff.1 h with h | h
  · rw [beq_iff_eq.1 h]
    rfl
  · rw [beq_iff_eq.1 h]
    rfl

theorem takeWhile_dropWhile_isGap (s : Bytes) :
    (s.dropWhile isGap).takeWhile (fun c ↦ c != nl) =
      (s.takeWhile fun c ↦ c != nl).dropWhile isGap := by
  induction s with
  | nil => rfl
  | cons c s ih =>
    by_cases hc : isGap c = true
    · have hne := ne_nl_of_isGap hc
      rw [List.dropWhile_cons_of_pos hc, ih, List.takeWhile_cons, if_pos hne,
        List.dropWhile_cons_of_pos hc]
    · rw [List.dropWhile_cons_of_neg hc, List.takeWhile_cons]
      split_ifs
      · rw [List.dropWhile_cons_of_neg hc]
      · rfl

/-- A tab is as good as a blank. -/
theorem isGap_ite (c : UInt8) : isGap (if c = tab then blank else c) = isGap c := by
  split_ifs with h
  · rw [h]
    rfl
  · rfl

theorem ite_of_not_isGap {c : UInt8} (h : isGap c = false) :
    (if c = tab then blank else c) = c := by
  refine if_neg ?_
  rintro rfl
  cases h

theorem sourceWords_tab2sp (line : Bytes) :
    sourceWords (tab2sp line) = sourceWords (cString line) := by
  have hnl : (fun c ↦ c != nl) ∘ (fun c ↦ if c = tab then blank else c) = fun c ↦ c != nl := by
    funext c
    rw [Function.comp_apply]
    split_ifs with h
    · rw [h]
      rfl
    · rfl
  rw [sourceWords, sourceWords, tab2sp, List.takeWhile_map, hnl,
    Words.split_map isGap_ite fun _ ↦ ite_of_not_isGap, takeWhile_dropWhile_isGap,
    Words.split_dropWhile]

/-! ## What `getarg` copies -/

/-- The bytes of a word. -/
def inWord (c : UInt8) : Bool := !isGap c && c != nl

theorem takeWord_eq {j : ℕ} (hs : Plain source) (hj : j ≤ BUFSIZ - 1) :
    takeWord j source =
      if j + (source.takeWhile inWord).length ≤ BUFSIZ - 1 then
        some (source.takeWhile inWord, source.dropWhile inWord)
      else none := by
  induction source generalizing j with
  | nil => exact (if_pos hj).symm
  | cons c source ih =>
    obtain ⟨⟨hc0, hctab⟩, hrest⟩ := List.forall_mem_cons.1 hs
    rw [takeWord]
    by_cases hc : inWord c = true
    · have hstop : ¬(c = blank ∨ c = 0 ∨ c = nl) := by
        simp only [inWord, isGap, Bool.and_eq_true, bne_iff_ne, Bool.not_eq_true',
          Bool.or_eq_false_iff, beq_eq_false_iff_ne] at hc
        exact not_or.2 ⟨hc.1.1, not_or.2 ⟨hc0, hc.2⟩⟩
      rw [if_neg hstop, List.takeWhile_cons_of_pos hc, List.dropWhile_cons_of_pos hc,
        List.length_cons]
      by_cases hlt : j < BUFSIZ - 1
      · rw [if_pos hlt, ih hrest hlt, show j + ((source.takeWhile inWord).length + 1) =
          j + 1 + (source.takeWhile inWord).length by omega]
        split_ifs
        · rfl
        · rfl
      · rw [if_neg hlt, if_neg (by omega)]
    · have hstop : c = blank ∨ c = 0 ∨ c = nl := by
        simp only [inWord, isGap, Bool.and_eq_true, bne_iff_ne, Bool.not_eq_true',
          Bool.or_eq_false_iff, beq_eq_false_iff_ne, not_and, not_not] at hc
        by_cases hb : c = blank
        · exact .inl hb
        · exact .inr (.inr (hc ⟨hb, hctab⟩))
      rw [if_pos hstop, List.takeWhile_cons_of_neg hc, List.dropWhile_cons_of_neg hc]
      exact (if_pos hj).symm

/-- A word that does not end in time does not fit into its array either. -/
theorem takeWord_bind {β : Type*} (hs : Plain source) (f : Bytes → Bytes → Option β) :
    ((takeWord 0 source).bind fun (buf, source) ↦
        if WORDBUFSIZ ≤ buf.length then none else f buf source) =
      if WORDBUFSIZ ≤ (source.takeWhile inWord).length then none
      else f (source.takeWhile inWord) (source.dropWhile inWord) := by
  rw [takeWord_eq hs (Nat.zero_le _), Nat.zero_add]
  by_cases hlong : (source.takeWhile inWord).length ≤ BUFSIZ - 1
  · rw [if_pos hlong, Option.bind_some]
  · have hfit : WORDBUFSIZ ≤ (source.takeWhile inWord).length :=
      le_trans (by decide) (not_le.1 hlong)
    rw [if_neg hlong, Option.bind_none, if_pos hfit]

/-- The words `ws` in the arrays from the `i`-th on, if they fit. -/
def copied (i : ℕ) (result : ℕ → Bytes) (ws : List Bytes) : Option (ℕ × (ℕ → Bytes)) :=
  if ∀ w ∈ ws, w.length < WORDBUFSIZ then some (i + ws.length, putWords i result ws) else none

theorem copied_nil (i : ℕ) (result : ℕ → Bytes) : copied i result [] = some (i, result) := by
  rw [copied, if_pos (List.forall_mem_nil _), putWords_nil]
  rfl

theorem copied_cons (i : ℕ) (result : ℕ → Bytes) (w : Bytes) (ws : List Bytes) :
    copied i result (w :: ws) =
      if WORDBUFSIZ ≤ w.length then none
      else copied (i + 1) (Function.update result i w) ws := by
  rw [copied, copied]
  simp only [List.forall_mem_cons, List.length_cons]
  by_cases hw : WORDBUFSIZ ≤ w.length
  · rw [if_pos hw, if_neg fun h ↦ hw.not_gt h.1]
  · rw [if_neg hw, putWords_cons, show i + (ws.length + 1) = i + 1 + ws.length by omega]
    exact if_congr (and_iff_right (not_le.1 hw)) rfl rfl

theorem sourceWords_nil : sourceWords [] = [] := by
  rw [sourceWords, List.takeWhile_nil, Words.split_nil, List.takeWhile_nil]

theorem sourceWords_cons_of_isGap {c : UInt8} (hc : isGap c = true) (s : Bytes) :
    sourceWords (c :: s) = sourceWords s := by
  rw [sourceWords, List.takeWhile_cons, if_pos (ne_nl_of_isGap hc), Words.split_cons_of_sep hc,
    sourceWords]

/-- A line that begins with a word. -/
theorem split_cons_of_inWord {c : UInt8} (hc : inWord c = true) (s : Bytes) :
    Words.split isGap ((c :: s).takeWhile fun c ↦ c != nl) =
      (c :: s).takeWhile inWord ::
        Words.split isGap (((c :: s).dropWhile inWord).takeWhile fun c ↦ c != nl) := by
  have hin : ∀ d ∈ (c :: s).takeWhile inWord, isGap d = false ∧ (d != nl) = true := by
    intro d hd
    simpa [inWord] using List.mem_takeWhile_imp hd
  have hword : Words.IsWord isGap ((c :: s).takeWhile inWord) := by
    refine ⟨?_, fun d hd ↦ (hin d hd).1⟩
    rw [List.takeWhile_cons_of_pos hc]
    exact List.cons_ne_nil _ _
  have hgap : ∀ d ∈ (((c :: s).dropWhile inWord).takeWhile fun c ↦ c != nl).head?,
      isGap d = true := by
    intro d hd
    have hfirst := List.head?_dropWhile_not inWord (c :: s)
    rcases hr : (c :: s).dropWhile inWord with _ | ⟨e, r⟩
    · rw [hr] at hd
      cases hd
    · rw [hr] at hd hfirst
      by_cases he : (e != nl) = true
      · rw [List.takeWhile_cons, if_pos he] at hd
        cases hd
        simpa [inWord, he] using hfirst
      · rw [List.takeWhile_cons, if_neg he] at hd
        cases hd
  rw [← Words.split_append hword hgap, ← List.takeWhile_append_of_pos fun d hd ↦ (hin d hd).2,
    List.takeWhile_append_dropWhile]

theorem sourceWords_cons_of_inWord {c : UInt8} (hc : inWord c = true) (hhash : c ≠ hash)
    (s : Bytes) :
    sourceWords (c :: s) =
      (c :: s).takeWhile inWord :: sourceWords ((c :: s).dropWhile inWord) := by
  rw [sourceWords, split_cons_of_inWord hc, List.takeWhile_cons_of_pos, sourceWords]
  simp [List.takeWhile_cons_of_pos hc, hhash]

/-- A comment. -/
theorem sourceWords_hash (s : Bytes) : sourceWords (hash :: s) = [] := by
  have hc : inWord hash = true := by decide
  rw [sourceWords, split_cons_of_inWord hc, List.takeWhile_cons_of_neg]
  simp [List.takeWhile_cons_of_pos hc]

theorem length_sourceWords_singleton (c : UInt8) : (sourceWords [c]).length ≤ 1 := by
  by_cases hc : inWord c = true
  · by_cases hhash : c = CLib.hash
    · rw [hhash, sourceWords_hash]
      exact Nat.zero_le 1
    · rw [sourceWords_cons_of_inWord hc hhash, List.dropWhile_cons_of_pos hc, List.dropWhile_nil,
        sourceWords_nil]
      exact le_rfl
  · by_cases hgap : isGap c = true
    · rw [sourceWords_cons_of_isGap hgap, sourceWords_nil]
      exact Nat.zero_le 1
    · have hnl : c = nl := by simpa [inWord, hgap] using hc
      rw [hnl]
      exact (congrArg List.length sourceWords_nil).trans_le (Nat.zero_le 1)

/-- **From the `i`-th word on.** -/
theorem getargGo_eq (hn : source.length < n) (hs : Plain source) (hi : i < MAXARG)
    (result : ℕ → Bytes) :
    getargGo n i result source = copied i result ((sourceWords source).take (MAXARG - i)) := by
  induction n generalizing i source result with
  | zero => exact absurd hn (Nat.not_lt_zero _)
  | succ n ih =>
    rcases source with _ | ⟨c, source⟩
    · rw [getargGo, sourceWords_nil, List.take_nil, copied_nil]
    obtain ⟨⟨hc0, hctab⟩, hrest⟩ := List.forall_mem_cons.1 hs
    rw [getargGo]
    by_cases hstop : c = CLib.hash ∨ c = nl ∨ c = 0
    · have hnone : sourceWords (c :: source) = [] := by
        rcases hstop with rfl | rfl | rfl
        · exact sourceWords_hash source
        · exact sourceWords_nil
        · exact absurd rfl hc0
      rw [if_pos hstop, hnone, List.take_nil, copied_nil]
    rw [if_neg hstop]
    obtain ⟨hhash, hnl, -⟩ : c ≠ CLib.hash ∧ c ≠ nl ∧ c ≠ 0 := by simpa using hstop
    by_cases hb : c = blank
    · rw [if_neg (not_not.2 hb), sourceWords_cons_of_isGap (by rw [hb]; rfl)]
      exact ih (Nat.lt_of_succ_lt_succ hn) hrest hi result
    have hc : inWord c = true := by simp [inWord, isGap, hb, hctab, hnl]
    have hword := takeWord_bind hs fun buf source ↦
      if MAXARG ≤ i + 1 then some (i + 1, Function.update result i buf)
      else getargGo n (i + 1) (Function.update result i buf) source
    rw [if_pos hb, hword, sourceWords_cons_of_inWord hc hhash,
      show MAXARG - i = MAXARG - (i + 1) + 1 by omega, List.take_succ_cons, copied_cons]
    have hlt : ((c :: source).dropWhile inWord).length < n := by
      rw [List.dropWhile_cons_of_pos hc]
      exact (List.length_dropWhile_le _ _).trans_lt (Nat.lt_of_succ_lt_succ hn)
    have hplain : Plain ((c :: source).dropWhile inWord) := fun d hd ↦
      hs d (List.dropWhile_subset _ hd)
    by_cases hfit : WORDBUFSIZ ≤ ((c :: source).takeWhile inWord).length
    · rw [if_pos hfit, if_pos hfit]
    rw [if_neg hfit, if_neg hfit]
    by_cases hlast : MAXARG ≤ i + 1
    · rw [if_pos hlast, Nat.sub_eq_zero_of_le hlast, List.take_zero, copied_nil]
    · rw [if_neg hlast]
      exact ih hlt hplain (not_le.1 hlast) _

/-- **What `getarg` does with a line.** -/
theorem getarg_eq (result : ℕ → Bytes) (line : Bytes) :
    getarg result (tab2sp line) =
      if ∀ w ∈ lineWords line, w.length < WORDBUFSIZ then
        some ((lineWords line).length, fun k ↦ (lineWords line)[k]?.getD (result k))
      else none := by
  have hput : putWords 0 result (lineWords line) =
      fun k ↦ (lineWords line)[k]?.getD (result k) := rfl
  rw [getarg, getargGo_eq (Nat.lt_succ_self _) (tab2sp_plain line) (by decide),
    sourceWords_tab2sp, Nat.sub_zero, ← lineWords, copied, hput, Nat.zero_add]

/-- **The words of a line are copied** if and only if each of them fits into its array. -/
theorem getarg_iff (result : ℕ → Bytes) (line : Bytes) :
    getarg result (tab2sp line) = some ((lineWords line).length,
        fun k ↦ (lineWords line)[k]?.getD (result k)) ↔
      ∀ w ∈ lineWords line, w.length < WORDBUFSIZ := by
  rw [getarg_eq]
  constructor
  · intro h
    by_contra hn
    rw [if_neg hn] at h
    cases h
  · exact fun h ↦ if_pos h

/-- A word of 256 bytes and its NUL take 257. -/
theorem long_word_overruns :
    lineWords (List.replicate 256 120 ++ [nl]) = [List.replicate 256 120] ∧
      takeWord 0 (tab2sp (List.replicate 256 120 ++ [nl])) =
        some (List.replicate 256 120, [nl]) ∧
      WORDBUFSIZ < (List.replicate 256 (120 : UInt8)).length + 1 ∧
      ∀ result, getarg result (tab2sp (List.replicate 256 120 ++ [nl])) = none := by
  have hwords : lineWords (List.replicate 256 120 ++ [nl]) = [List.replicate 256 120] := by
    decide +kernel
  refine ⟨hwords, by decide +kernel, by decide +kernel, fun result ↦ ?_⟩
  rw [getarg_eq, hwords]
  exact if_neg (by decide +kernel)

end Sysinst
