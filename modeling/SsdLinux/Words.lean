import Mathlib.Data.List.Basic

/-!
# Words between separators

The words of a string are what stands between its separators and is not empty.  The fields of a line
are words, and so are the components of a path.

Words come together as the strings do (`split_append_cons`, `split_append`), and a string is its own
only word exactly if it is a word itself (`split_eq_singleton_iff`).
-/

set_option autoImplicit false

namespace Words

variable {α : Type*} {p : α → Bool} {s w : List α}

/-- The words of `s`, with separators that `p` accepts. -/
def split (p : α → Bool) (s : List α) : List (List α) := (s.splitOnP p).filter fun w ↦ !w.isEmpty

/-- Something, and no separator. -/
def IsWord (p : α → Bool) (w : List α) : Prop := w ≠ [] ∧ ∀ c ∈ w, p c = false

@[simp] theorem split_nil (p : α → Bool) : split p [] = [] := by simp [split]

/-- A separator parts the words before it from those behind it. -/
theorem split_append_cons (s : List α) {sep : α} (hsep : p sep = true) (t : List α) :
    split p (s ++ sep :: t) = split p s ++ split p t := by
  rw [split, List.splitOnP_append_cons s t hsep, List.filter_append]
  rfl

theorem split_of_isWord (h : IsWord p w) : split p w = [w] := by
  rw [split, List.splitOnP_eq_singleton h.2, List.filter_cons_of_pos (by simpa using h.1),
    List.filter_nil]

theorem split_cons_of_sep {sep : α} (hsep : p sep = true) (s : List α) :
    split p (sep :: s) = split p s := by
  rw [← List.nil_append (sep :: s), split_append_cons [] hsep, split_nil, List.nil_append]

/-- A word, and what is behind it. -/
theorem split_append (h : IsWord p w) (ht : ∀ c ∈ s.head?, p c = true) :
    split p (w ++ s) = w :: split p s := by
  cases s with
  | nil => rw [List.append_nil, split_of_isWord h, split_nil]
  | cons c s =>
    rw [split_append_cons w (ht c rfl), split_of_isWord h, split_cons_of_sep (ht c rfl)]
    rfl

/-- Separators at the beginning do not matter. -/
theorem split_dropWhile (p : α → Bool) (s : List α) : split p (s.dropWhile p) = split p s := by
  induction s with
  | nil => rfl
  | cons c s ih =>
    by_cases hc : p c = true
    · rw [List.dropWhile_cons_of_pos hc, split_cons_of_sep hc, ih]
    · rw [List.dropWhile_cons_of_neg hc]

theorem splitOnP_map {f : α → α} (hp : ∀ c, p (f c) = p c) (s : List α) :
    (s.map f).splitOnP p = (s.splitOnP p).map (List.map f) := by
  induction s with
  | nil => rfl
  | cons c s ih =>
    rw [List.map_cons, List.splitOnP_cons_eq_if_modifyHead, List.splitOnP_cons_eq_if_modifyHead,
      hp, ih]
    split_ifs with hc
    · rfl
    · cases s.splitOnP p <;> rfl

theorem splitOnP_forall (p : α → Bool) (s : List α) : ∀ w ∈ s.splitOnP p, ∀ c ∈ w, p c = false := by
  induction s with
  | nil => simp
  | cons c s ih =>
    rw [List.splitOnP_cons_eq_if_modifyHead]
    split_ifs with hc
    · exact List.forall_mem_cons.2 ⟨fun c hc ↦ absurd hc List.not_mem_nil, ih⟩
    · cases hs : s.splitOnP p with
      | nil => exact absurd hs (List.splitOnP_ne_nil p s)
      | cons w ws =>
        rw [hs, List.forall_mem_cons] at ih
        exact List.forall_mem_cons.2 ⟨List.forall_mem_cons.2 ⟨by simpa using hc, ih.1⟩, ih.2⟩

/-- What is among the words is a word. -/
theorem isWord_of_mem (h : w ∈ split p s) : IsWord p w := by
  obtain ⟨hmem, hne⟩ := List.mem_filter.1 h
  exact ⟨by simpa using hne, splitOnP_forall p s w hmem⟩

/-- A map that keeps the separators apart from the rest, and the words as they are. -/
theorem split_map {f : α → α} (hp : ∀ c, p (f c) = p c) (hf : ∀ c, p c = false → f c = c)
    (s : List α) : split p (s.map f) = split p s := by
  have hwords : ∀ w ∈ split p s, w.map f = w := fun w hw ↦
    (List.map_congr_left fun c hc ↦ hf c ((isWord_of_mem hw).2 c hc)).trans (List.map_id' w)
  rw [split, splitOnP_map hp, List.filter_map]
  have hempty : ((fun w : List α ↦ !w.isEmpty) ∘ List.map f) = fun w ↦ !w.isEmpty := by
    funext w
    cases w <;> rfl
  rw [hempty]
  exact (List.map_congr_left hwords).trans (List.map_id' _)

theorem split_eq_singleton_iff : split p w = [w] ↔ IsWord p w :=
  ⟨fun h ↦ isWord_of_mem (h ▸ List.mem_singleton_self w), split_of_isWord⟩

/-- Words that are ended by separators, like the lines of a file. -/
theorem split_flatten {ws : List (List α)} (h : ∀ w ∈ ws, IsWord p w) {sep : α}
    (hsep : p sep = true) : split p (ws.map (· ++ [sep])).flatten = ws := by
  induction ws with
  | nil => exact split_nil p
  | cons w ws ih =>
    obtain ⟨hw, hws⟩ := List.forall_mem_cons.1 h
    rw [List.map_cons, List.flatten_cons, List.append_assoc, List.singleton_append,
      split_append_cons w hsep, split_of_isWord hw, ih hws]
    rfl

/-- Words with a separator before each of them. -/
theorem split_flatMap_cons {ws : List (List α)} (h : ∀ w ∈ ws, IsWord p w) {sep : α}
    (hsep : p sep = true) : split p (ws.flatMap (sep :: ·)) = ws := by
  induction ws with
  | nil => exact split_nil p
  | cons w ws ih =>
    obtain ⟨hw, hws⟩ := List.forall_mem_cons.1 h
    rw [List.flatMap_cons, List.cons_append, split_cons_of_sep hsep, split_append hw, ih hws]
    cases ws with
    | nil => exact fun c hc ↦ absurd hc (by simp)
    | cons v ws => exact fun c hc ↦ Option.some.inj hc ▸ hsep

end Words
