import SsdLinux.CLib.Bytes

/-!
# `list.c`: lists of strings

A `List` of the source is a Lean list of its items.  `list_split` has two modes.  With a separator
it cuts the string at every occurrence of it.  With separator 0 it cuts at runs of white space, and
there it has two habits its callers live with: a string that begins with white space gives an empty
first item, and white space at the end gives no item at all.
-/

set_option autoImplicit false

namespace Setup

open CLib

/-! ## `list_split` -/

/-- The blank mode of `list_split`.  `some w` is the item being read; `none` means the white space
after an item is being skipped. -/
def splitBlanks : Option Bytes → Bytes → List Bytes
  | none, [] => []
  | some w, [] => [w]
  | none, c :: s => if isspace c then splitBlanks none s else splitBlanks (some [c]) s
  | some w, c :: s => if isspace c then w :: splitBlanks none s else splitBlanks (some (w ++ [c])) s

/-- The separator mode of `list_split`, in the middle of the item `w`. -/
def splitSep (sep : UInt8) : Bytes → Bytes → List Bytes
  | w, [] => [w]
  | w, c :: s =>
    if c = sep then w :: (if s = [] then [] else splitSep sep [] s) else splitSep sep (w ++ [c]) s

/-- `list_split(sep, str)`; a NULL string is an empty list. -/
def listSplit (sep : UInt8) : Option Bytes → List Bytes
  | none => []
  | some [] => []
  | some str => if sep = 0 then splitBlanks (some []) str else splitSep sep [] str

/-- `list_join`: the items with a blank between them.  The source allocates no room for the blanks
and relies on what the allocator rounds up. -/
def listJoin (l : List Bytes) : Bytes := joinWith blank l

/-- `list_grep_item(l, str) != NULL`. -/
def listGrepItem (l : List Bytes) (str : Bytes) : Bool := decide (str ∈ l)

/-- `list_push`. -/
def listPush (l : List Bytes) (item : Bytes) : List Bytes := l ++ [item]

/-- `list_remove_item`: the first item equal to `str` goes. -/
def listRemoveItem (l : List Bytes) (str : Bytes) : List Bytes := l.erase str

theorem splitSep_cons (sep : UInt8) (w : Bytes) (c : UInt8) (s : Bytes) :
    splitSep sep w (c :: s) =
      if c = sep then w :: (if s = [] then [] else splitSep sep [] s)
      else splitSep sep (w ++ [c]) s := rfl

theorem splitBlanks_none (c : UInt8) (s : Bytes) :
    splitBlanks none (c :: s) =
      if isspace c then splitBlanks none s else splitBlanks (some [c]) s := rfl

theorem splitBlanks_some (w : Bytes) (c : UInt8) (s : Bytes) :
    splitBlanks (some w) (c :: s) =
      if isspace c then w :: splitBlanks none s else splitBlanks (some (w ++ [c])) s := rfl

/-- An item up to its separator. -/
theorem splitSep_item {sep : UInt8} {s : Bytes} (hs : sep ∉ s) (w r : Bytes) :
    splitSep sep w (s ++ sep :: r) = (w ++ s) :: (if r = [] then [] else splitSep sep [] r) := by
  induction s generalizing w with
  | nil => rw [List.nil_append, splitSep_cons, if_pos rfl, List.append_nil]
  | cons c s ih =>
    rw [List.mem_cons, not_or] at hs
    rw [List.cons_append, splitSep_cons, if_neg (Ne.symm hs.1), ih hs.2, List.append_assoc,
      List.singleton_append]

theorem splitSep_append {sep : UInt8} {s : Bytes} (hs : sep ∉ s) (w : Bytes) {r : Bytes}
    (hr : r ≠ []) : splitSep sep w (s ++ sep :: r) = (w ++ s) :: splitSep sep [] r := by
  rw [splitSep_item hs, if_neg hr]

/-! ## Words -/

/-- A word: what `list_split` can hand back as an item that is neither empty nor cut. -/
def IsWord (s : Bytes) : Prop := s ≠ [] ∧ ∀ c ∈ s, isspace c = false

instance (s : Bytes) : Decidable (IsWord s) := inferInstanceAs (Decidable (_ ∧ _))

theorem isWord_of_isdigit {s : Bytes} (h : s ≠ []) (hd : ∀ c ∈ s, isdigit c = true) : IsWord s :=
  ⟨h, fun c hc ↦ isspace_of_isdigit (hd c hc)⟩

theorem isWord_dec (n : ℕ) : IsWord (dec n) := isWord_of_isdigit (dec_ne_nil n) (dec_isdigit n)

theorem isWord_decInt (n : ℤ) : IsWord (decInt n) := by
  refine ⟨decInt_ne_nil n, fun c hc ↦ ?_⟩
  rcases decInt_chars n c hc with h | rfl
  · exact isspace_of_isdigit h
  · decide

/-- Reading a word only adds it to the item being read. -/
theorem splitBlanks_append {s : Bytes} (hs : ∀ c ∈ s, isspace c = false) (w r : Bytes) :
    splitBlanks (some w) (s ++ r) = splitBlanks (some (w ++ s)) r := by
  induction s generalizing w with
  | nil => simp
  | cons c s ih =>
    rw [List.cons_append, splitBlanks_some, if_neg (by simp [hs c List.mem_cons_self]),
      ih (fun d hd ↦ hs d (List.mem_cons_of_mem _ hd))]
    simp

/-- After white space, a word is read as if it were the first. -/
theorem splitBlanks_word {s : Bytes} (hs : IsWord s) (r : Bytes) :
    splitBlanks none (s ++ r) = splitBlanks (some s) r := by
  obtain ⟨c, t, rfl⟩ := List.exists_cons_of_ne_nil hs.1
  rw [List.cons_append, splitBlanks_none, if_neg (by simp [hs.2 c List.mem_cons_self]),
    splitBlanks_append (fun d hd ↦ hs.2 d (List.mem_cons_of_mem _ hd))]
  rfl

theorem splitBlanks_join {w : Bytes} {l : List Bytes} (hl : ∀ s ∈ l, IsWord s) :
    splitBlanks (some w) ((l.map fun s ↦ blank :: s).flatten) = w :: l := by
  induction l generalizing w with
  | nil => rfl
  | cons s l ih =>
    have hs := hl s List.mem_cons_self
    rw [List.map_cons, List.flatten_cons, List.cons_append, splitBlanks_some, if_pos (by decide),
      splitBlanks_word hs, ih fun t ht ↦ hl t (List.mem_cons_of_mem _ ht)]

theorem listJoin_cons (s : Bytes) (l : List Bytes) :
    listJoin (s :: l) = s ++ (l.map fun t ↦ blank :: t).flatten :=
  joinWith_cons blank s l

/-- **Words survive the blank-joined representation.** -/
theorem listSplit_listJoin {l : List Bytes} (hl : ∀ s ∈ l, IsWord s) :
    listSplit 0 (some (listJoin l)) = l := by
  cases l with
  | nil => rfl
  | cons s l =>
    have hs := hl s List.mem_cons_self
    obtain ⟨c, t, ht⟩ := List.exists_cons_of_ne_nil hs.1
    have hne : listJoin (s :: l) = c :: (t ++ (l.map fun u ↦ blank :: u).flatten) := by
      rw [listJoin_cons, ht, List.cons_append]
    rw [hne, listSplit, if_pos rfl, ← List.cons_append, ← ht, splitBlanks_append hs.2,
      List.nil_append, splitBlanks_join fun u hu ↦ hl u (List.mem_cons_of_mem _ hu)]
    · exact List.cons_ne_nil _ _

/-- A blank ends an item, and what comes after it is read on its own. -/
theorem splitBlanks_append_blank (o : Option Bytes) (s r : Bytes) :
    splitBlanks o (s ++ blank :: r) = splitBlanks o s ++ splitBlanks none r := by
  induction s generalizing o with
  | nil => cases o <;> rfl
  | cons c s ih =>
    cases o with
    | none =>
      rw [List.cons_append, splitBlanks_none, splitBlanks_none]
      split <;> exact ih _
    | some u =>
      rw [List.cons_append, splitBlanks_some, splitBlanks_some]
      split
      · rw [ih, List.cons_append]
      · exact ih _

/-- The items of a text consist of the bytes of the text that are no white space. -/
theorem forall_mem_splitBlanks {P : UInt8 → Prop} {o : Option Bytes} {s : Bytes}
    (ho : ∀ u ∈ o, ∀ c ∈ u, P c) (hs : ∀ c ∈ s, isspace c = false → P c) :
    ∀ i ∈ splitBlanks o s, ∀ c ∈ i, P c := by
  induction s generalizing o with
  | nil =>
    cases o with
    | none => exact List.forall_mem_nil _
    | some u => exact fun i hi ↦ List.mem_singleton.mp hi ▸ ho u rfl
  | cons d s ih =>
    rw [List.forall_mem_cons] at hs
    have hskip := ih (o := none) (fun u hu ↦ by cases hu) hs.2
    cases o with
    | none =>
      rw [splitBlanks_none]
      split
      · exact hskip
      · rename_i hd
        have hP := hs.1 (by simpa using hd)
        exact ih (fun u hu ↦ Option.some.inj hu ▸ List.forall_mem_singleton.mpr hP) hs.2
    | some u =>
      rw [splitBlanks_some]
      split
      · exact List.forall_mem_cons.mpr ⟨ho u rfl, hskip⟩
      · rename_i hd
        have hP := hs.1 (by simpa using hd)
        refine ih (fun u' hu' ↦ Option.some.inj hu' ▸ ?_) hs.2
        exact List.forall_mem_append.mpr ⟨ho u rfl, List.forall_mem_singleton.mpr hP⟩

/-- An item has no white space in it. -/
theorem isspace_of_mem_listSplit {o : Option Bytes} {i : Bytes} (hi : i ∈ listSplit 0 o) :
    ∀ c ∈ i, isspace c = false := by
  rcases o with - | - | ⟨c, s⟩
  · cases hi
  · cases hi
  · rw [listSplit, if_pos rfl] at hi
    · exact forall_mem_splitBlanks (fun u hu ↦ by simp [← Option.some.inj hu]) (fun _ _ h ↦ h) i hi
    · exact List.cons_ne_nil c s

theorem listJoin_concat (l : List Bytes) (s : Bytes) :
    listJoin (l ++ [s]) = if l = [] then s else listJoin l ++ blank :: s := by
  cases l with
  | nil => simp [listJoin, joinWith]
  | cons t l => simp [listJoin_cons]

end Setup
