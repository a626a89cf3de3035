import Mathlib.Data.List.Nodup
import Mathlib.Data.List.Perm.Subperm
import Mathlib.Data.List.Range
import Mathlib.Logic.Function.Basic

/-!
# Linked lists in memory

A list that a C program keeps in a memory of cells: a variable that points to the first cell, and in
every cell a pointer to the next one.  A pointer is an address or NULL (`none`); an access to a cell
that is not allocated has no result.

* `seek` walks along the list with two pointers, the cell it looks at and the one before it, which
  is the variable itself at the beginning.  It is what lets a cell be appended, or cut out.
* `Seg h p l q` says that the cells from the pointer `p` on hold the records of `l`, and that the
  last one points to `q`.  The cells are named with their addresses; `Reads` forgets them.
* `At` is what a search that has found something leaves: the place in the list, and the two
  pointers.  `AtEnd` is what the other one leaves.

The four changes of a list (`AtEnd.append`, `At.replace`, `At.remove`, and writing a link that
stands there already) come with the lists they lead to.
-/

set_option autoImplicit false

namespace Linked

variable {α : Type*}

/-- A cell: a record, and a pointer to the next cell. -/
structure Cell (α : Type*) where
  data : α
  next : Option ℕ

/-- The memory, and the variable that points to the first cell. -/
structure Heap (α : Type*) where
  top : Option ℕ
  cell : ℕ → Option (Cell α)
  /-- The addresses from here on have never been allocated. -/
  size : ℕ

namespace Heap

/-- A list without a cell. -/
def empty : Heap α := ⟨none, fun _ ↦ none, 0⟩

/-! ## Access through pointers -/

/-- The pointer that stands in a cell, or in the variable. -/
def next (h : Heap α) : Option ℕ → Option (Option ℕ)
  | none => some h.top
  | some a => (h.cell a).map Cell.next

/-- Write a pointer into a cell, or into the variable. -/
def setNext (h : Heap α) (parent q : Option ℕ) : Option (Heap α) :=
  match parent with
  | none => some { h with top := q }
  | some a => (h.cell a).map fun c ↦
      { h with cell := Function.update h.cell a (some { c with next := q }) }

/-- The record in a cell. -/
def data (h : Heap α) (a : ℕ) : Option α := (h.cell a).map Cell.data

/-- Write a record into a cell. -/
def setData (h : Heap α) (a : ℕ) (x : α) : Option (Heap α) :=
  (h.cell a).map fun c ↦ { h with cell := Function.update h.cell a (some { c with data := x }) }

/-- A new cell, with a NULL pointer in it. -/
def alloc (h : Heap α) (x : α) : Heap α × ℕ :=
  (⟨h.top, Function.update h.cell h.size (some ⟨x, none⟩), h.size + 1⟩, h.size)

/-- Give a cell back. -/
def free (h : Heap α) (a : ℕ) : Option (Heap α) :=
  (h.cell a).map fun _ ↦ { h with cell := Function.update h.cell a none }

/-- The search: the pointer before the first record that `p` accepts, and the one to it, which is
NULL if there is none.  The number bounds the steps. -/
def seek (p : α → Bool) (h : Heap α) : ℕ → Option ℕ → Option (Option ℕ × Option ℕ)
  | 0, _ => none
  | n + 1, parent => (h.next parent).bind fun
    | none => some (parent, none)
    | some a => (h.data a).bind fun x ↦
        if p x then some (parent, some a) else seek p h n (some a)

/-- The search from the variable on. -/
def find (p : α → Bool) (h : Heap α) : Option (Option ℕ × Option ℕ) := h.seek p (h.size + 1) none

/-! ## Segments -/

/-- The cells from `p` on hold these records, at these addresses, and the last one points to `q`. -/
def Seg (h : Heap α) : Option ℕ → List (ℕ × α) → Option ℕ → Prop
  | p, [], q => p = q
  | p, e :: l, q => p = some e.1 ∧ ∃ m, h.cell e.1 = some ⟨e.2, m⟩ ∧ Seg h m l q

attribute [local simp] seek Seg

variable {h h' : Heap α} {p q : Option ℕ} {l l' : List (ℕ × α)}

theorem seg_append : h.Seg p (l ++ l') q ↔ ∃ m, h.Seg p l m ∧ h.Seg m l' q := by
  induction l generalizing p with
  | nil => simp
  | cons e l ih =>
    simp only [List.cons_append, Seg, ih]
    constructor
    · rintro ⟨rfl, m, hm, m', hl, hl'⟩
      exact ⟨m', ⟨rfl, m, hm, hl⟩, hl'⟩
    · rintro ⟨m', ⟨rfl, m, hm, hl⟩, hl'⟩
      exact ⟨rfl, m, hm, m', hl, hl'⟩

/-- A segment looks at its own cells only. -/
theorem Seg.congr (hseg : h.Seg p l q) (hcell : ∀ e ∈ l, h'.cell e.1 = h.cell e.1) :
    h'.Seg p l q := by
  induction l generalizing p with
  | nil => exact hseg
  | cons e l ih =>
    obtain ⟨hp, m, hm, hl⟩ := hseg
    rw [List.forall_mem_cons] at hcell
    exact ⟨hp, m, hcell.1.trans hm, ih hl hcell.2⟩

/-- The cell before the one that a segment leads to; for no segment, the variable. -/
def lastPtr (l : List (ℕ × α)) : Option ℕ := l.getLast?.map Prod.fst

theorem lastPtr_concat (e : ℕ × α) : lastPtr (l ++ [e]) = some e.1 := by
  simp [lastPtr]

/-- The pointer at the end of a segment. -/
theorem Seg.next_lastPtr (hseg : h.Seg h.top l q) : h.next (lastPtr l) = some q := by
  rcases List.eq_nil_or_concat' l with rfl | ⟨l, e, rfl⟩
  · exact congrArg some hseg
  · obtain ⟨m, -, rfl, m', hm', rfl⟩ := seg_append.mp hseg
    rw [lastPtr_concat, next, hm', Option.map_some]

/-- **A link.**  Writing a pointer at the end of a segment makes the segment lead there; nothing
else changes. -/
theorem Seg.setNext (hseg : h.Seg h.top l q) (hl : (l.map Prod.fst).Nodup) (r : Option ℕ) :
    ∃ h', h.setNext (lastPtr l) r = some h' ∧ h'.Seg h'.top l r ∧ h'.size = h.size ∧
      ∀ a, a ∉ l.map Prod.fst → h'.cell a = h.cell a := by
  rcases List.eq_nil_or_concat' l with rfl | ⟨l, e, rfl⟩
  · exact ⟨{ h with top := r }, rfl, rfl, rfl, fun _ _ ↦ rfl⟩
  · obtain ⟨m, hinit, rfl, m', hm', rfl⟩ := seg_append.mp hseg
    rw [List.map_append, List.nodup_append] at hl
    have hne : ∀ d ∈ l, d.1 ≠ e.1 := fun d hd ↦
      hl.2.2 _ (List.mem_map_of_mem hd) _ (List.mem_singleton.mpr rfl)
    refine ⟨{ h with cell := Function.update h.cell e.1 (some ⟨e.2, r⟩) },
      by rw [lastPtr_concat, Heap.setNext, hm', Option.map_some], ?_, rfl, fun a ha ↦ ?_⟩
    · refine seg_append.mpr ⟨some e.1, hinit.congr fun d hd ↦ ?_, rfl, r, ?_, rfl⟩
      · exact Function.update_of_ne (hne d hd) _ _
      · exact Function.update_self ..
    · refine Function.update_of_ne (fun he ↦ ha ?_) _ _
      simp [he]

/-! ## The search -/

theorem seek_of_seg {f : α → Bool} {n : ℕ} {parent : Option ℕ} (hnext : h.next parent = some p)
    (hseg : h.Seg p l q) (hf : ∀ e ∈ l, f e.2 = false) :
    h.seek f (l.length + n) parent = h.seek f n ((lastPtr l).or parent) := by
  induction l generalizing p parent with
  | nil => simp [lastPtr]
  | cons e l ih =>
    obtain ⟨rfl, m, hm, hl⟩ := hseg
    rw [List.forall_mem_cons] at hf
    have hlast : (lastPtr (e :: l)).or parent = (lastPtr l).or (some e.1) := by
      cases hl' : l.getLast? <;> simp [lastPtr, List.getLast?_cons, hl']
    have hlen : (e :: l).length + n = l.length + n + 1 := by
      rw [List.length_cons]
      omega
    rw [hlen, seek, hnext, Option.bind_some]
    dsimp only
    rw [data, hm, Option.map_some, Option.bind_some, if_neg (by simp [hf.1]), hlast]
    exact ih (by rw [next, hm, Option.map_some]) hl hf.2

/-! ## The list that is read -/

/-- The variable points to a list of these records. -/
def Reads (h : Heap α) (xs : List α) : Prop :=
  ∃ l, h.Seg h.top l none ∧ (l.map Prod.fst).Nodup ∧ (∀ e ∈ l, e.1 < h.size) ∧ l.map Prod.snd = xs

theorem reads_empty : (empty : Heap α).Reads [] := ⟨[], rfl, List.nodup_nil, by simp, rfl⟩

/-- The pointers of a search that has found the record `x` between `xs` and `ys`. -/
def At (h : Heap α) (parent : Option ℕ) (a : ℕ) (xs : List α) (x : α) (ys : List α) : Prop :=
  ∃ l l' m, h.Seg h.top l (some a) ∧ h.cell a = some ⟨x, m⟩ ∧ h.Seg m l' none ∧
    ((l ++ (a, x) :: l').map Prod.fst).Nodup ∧ (∀ e ∈ l ++ (a, x) :: l', e.1 < h.size) ∧
    parent = lastPtr l ∧ l.map Prod.snd = xs ∧ l'.map Prod.snd = ys

/-- The pointer of a search that has come to the end of `xs`. -/
def AtEnd (h : Heap α) (parent : Option ℕ) (xs : List α) : Prop :=
  ∃ l, h.Seg h.top l none ∧ (l.map Prod.fst).Nodup ∧ (∀ e ∈ l, e.1 < h.size) ∧
    parent = lastPtr l ∧ l.map Prod.snd = xs

theorem length_le_of_bounded (hl : (l.map Prod.fst).Nodup) (hb : ∀ e ∈ l, e.1 < h.size) :
    l.length ≤ h.size := by
  have hsub : l.map Prod.fst ⊆ List.range h.size := by
    intro a ha
    obtain ⟨e, he, rfl⟩ := List.mem_map.mp ha
    exact List.mem_range.mpr (hb e he)
  simpa using (List.subperm_of_subset hl hsub).length_le

variable {xs ys : List α} {x : α} {f : α → Bool} {parent : Option ℕ} {a : ℕ}

/-- **A search that finds nothing.** -/
theorem Reads.find_none (hr : h.Reads xs) (hf : ∀ x ∈ xs, f x = false) :
    ∃ parent, h.find f = some (parent, none) ∧ h.AtEnd parent xs := by
  obtain ⟨l, hseg, hl, hb, rfl⟩ := hr
  have hlen := length_le_of_bounded hl hb
  have hsize : h.size + 1 = l.length + (h.size - l.length + 1) := by omega
  refine ⟨lastPtr l, ?_, l, hseg, hl, hb, rfl, rfl⟩
  rw [find, hsize, seek_of_seg rfl hseg fun e he ↦ hf e.2 (List.mem_map_of_mem he), Option.or_none,
    seek, hseg.next_lastPtr, Option.bind_some]

/-- **A search that finds a record.** -/
theorem Reads.find_some (hr : h.Reads (xs ++ x :: ys)) (hf : ∀ x ∈ xs, f x = false)
    (hx : f x = true) : ∃ parent a, h.find f = some (parent, some a) ∧ h.At parent a xs x ys := by
  obtain ⟨l, hseg, hl, hb, hxs⟩ := hr
  obtain ⟨l₁, l₂, rfl, rfl, h₂⟩ := List.map_eq_append_iff.mp hxs
  obtain ⟨⟨a, x⟩, l₃, rfl, rfl, rfl⟩ := List.map_eq_cons_iff.mp h₂
  obtain ⟨m, h₁, rfl, m', hm', h₃⟩ := seg_append.mp hseg
  have hlen := length_le_of_bounded hl hb
  rw [List.length_append, List.length_cons] at hlen
  have hsize : h.size + 1 = l₁.length + (h.size - l₁.length + 1) := by omega
  refine ⟨lastPtr l₁, a, ?_, l₁, l₃, m', h₁, hm', h₃, hl, hb, rfl, rfl, rfl⟩
  rw [find, hsize, seek_of_seg rfl h₁ fun e he ↦ hf e.2 (List.mem_map_of_mem he), Option.or_none,
    seek, h₁.next_lastPtr, Option.bind_some]
  dsimp only
  rw [data, hm', Option.map_some, Option.bind_some]
  exact if_pos hx

theorem At.data_eq (hat : h.At parent a xs x ys) : h.data a = some x := by
  obtain ⟨l, l', m, -, hm, -⟩ := hat
  rw [data, hm, Option.map_some]

theorem At.reads (hat : h.At parent a xs x ys) : h.Reads (xs ++ x :: ys) := by
  obtain ⟨l, l', m, hl, hm, hl', hnd, hb, -, rfl, rfl⟩ := hat
  refine ⟨l ++ (a, x) :: l', seg_append.mpr ⟨some a, hl, rfl, m, hm, hl'⟩, hnd, hb, ?_⟩
  rw [List.map_append, List.map_cons]

/-! ## Changes -/

/-- **A record is written** into the cell that was found. -/
theorem At.setData (hat : h.At parent a xs x ys) (y : α) :
    ∃ h', h.setData a y = some h' ∧ h'.At parent a xs y ys := by
  obtain ⟨l, l', m, hl, hm, hl', hnd, hb, hp, hxs, hys⟩ := hat
  have hne : ∀ e ∈ l ++ l', e.1 ≠ a := by
    simp only [List.map_append, List.map_cons, List.nodup_append, List.nodup_cons] at hnd
    intro e he
    rcases List.mem_append.mp he with he | he
    · exact hnd.2.2 _ (List.mem_map_of_mem he) _ List.mem_cons_self
    · exact fun h0 ↦ hnd.2.1.1 (h0 ▸ List.mem_map_of_mem he)
  refine ⟨{ h with cell := Function.update h.cell a (some ⟨y, m⟩) },
    by rw [Heap.setData, hm, Option.map_some], l, l', m, ?_, ?_, ?_, ?_, ?_, hp, hxs, hys⟩
  · exact hl.congr fun e he ↦
      Function.update_of_ne (hne e (List.mem_append_left _ he)) _ _
  · exact Function.update_self ..
  · exact hl'.congr fun e he ↦
      Function.update_of_ne (hne e (List.mem_append_right _ he)) _ _
  · simpa using hnd
  · simp only [List.mem_append, List.mem_cons] at hb ⊢
    rintro e (he | rfl | he)
    · exact hb e (.inl he)
    · exact hb (a, x) (.inr (.inl rfl))
    · exact hb e (.inr (.inr he))

/-- Writing the link that leads to the cell once more. -/
theorem At.setNext (hat : h.At parent a xs x ys) :
    ∃ h', h.setNext parent (some a) = some h' ∧ h'.Reads (xs ++ x :: ys) := by
  obtain ⟨l, l', m, hl, hm, hl', hnd, hb, rfl, rfl, rfl⟩ := hat
  have hnd' := hnd
  simp only [List.map_append, List.map_cons, List.nodup_append, List.nodup_cons] at hnd'
  obtain ⟨h', hset, hseg, hsize, hcell⟩ := hl.setNext hnd'.1 (some a)
  have hout : ∀ e ∈ (a, x) :: l', e.1 ∉ l.map Prod.fst := fun e he hmem ↦
    hnd'.2.2 _ hmem _ (by simpa using List.mem_map_of_mem (f := Prod.fst) he) rfl
  refine ⟨h', hset, l ++ (a, x) :: l', seg_append.mpr ⟨some a, hseg, rfl, m, ?_, ?_⟩, hnd, ?_, ?_⟩
  · exact (hcell a (hout _ List.mem_cons_self)).trans hm
  · exact hl'.congr fun e he ↦ hcell e.1 (hout e (List.mem_cons_of_mem _ he))
  · rwa [hsize]
  · rw [List.map_append, List.map_cons]

/-- **A cell is appended.** -/
theorem AtEnd.append (hend : h.AtEnd parent xs) (d x : α) :
    ∃ h' h'', (h.alloc d).1.setData (h.alloc d).2 x = some h' ∧
      h'.setNext parent (some (h.alloc d).2) = some h'' ∧ h''.Reads (xs ++ [x]) := by
  obtain ⟨l, hseg, hnd, hb, rfl, rfl⟩ := hend
  have hne : ∀ e ∈ l, e.1 ≠ h.size := fun e he ↦ (hb e he).ne
  let h' : Heap α := ⟨h.top, Function.update h.cell h.size (some ⟨x, none⟩), h.size + 1⟩
  have hset : (h.alloc d).1.setData (h.alloc d).2 x = some h' := by
    simp only [alloc, Heap.setData, Function.update_self, Option.map_some, Function.update_idem, h']
  have hold : h'.Seg h'.top l none :=
    hseg.congr fun e he ↦ Function.update_of_ne (hne e he) _ _
  obtain ⟨h'', hset', hseg', hsize, hcell⟩ := hold.setNext hnd (some h.size)
  have hout : h.size ∉ l.map Prod.fst := by
    intro hmem
    obtain ⟨e, he, heq⟩ := List.mem_map.mp hmem
    exact hne e he heq
  refine ⟨h', h'', hset, hset', l ++ [(h.size, x)],
    seg_append.mpr ⟨some h.size, hseg', rfl, none, ?_, rfl⟩, ?_, ?_, ?_⟩
  · exact (hcell _ hout).trans (Function.update_self ..)
  · rw [List.map_append]
    refine List.nodup_append.mpr ⟨hnd, List.nodup_singleton _, fun b hb' c hc hbc ↦ hout ?_⟩
    rw [List.map_singleton, List.mem_singleton] at hc
    rw [hbc, hc] at hb'
    exact hb'
  · rw [hsize]
    intro e he
    rcases List.mem_append.mp he with he | he
    · exact Nat.lt_succ_of_lt (hb e he)
    · exact List.mem_singleton.mp he ▸ Nat.lt_succ_self h.size
  · rw [List.map_append, List.map_singleton]

/-- **A cell is cut out** and given back. -/
theorem At.remove (hat : h.At parent a xs x ys) :
    ∃ m h' h'', h.next (some a) = some m ∧ h.setNext parent m = some h' ∧ h'.free a = some h'' ∧
      h''.Reads (xs ++ ys) := by
  obtain ⟨l, l', m, hl, hm, hl', hnd, hb, rfl, rfl, rfl⟩ := hat
  have hnd' := hnd
  simp only [List.map_append, List.map_cons, List.nodup_append, List.nodup_cons] at hnd'
  obtain ⟨h', hset, hseg, hsize, hcell⟩ := hl.setNext hnd'.1 m
  have hout : ∀ e ∈ (a, x) :: l', e.1 ∉ l.map Prod.fst := fun e he hmem ↦
    hnd'.2.2 _ hmem _ (by simpa using List.mem_map_of_mem (f := Prod.fst) he) rfl
  have ha : h'.cell a = some ⟨x, m⟩ := (hcell a (hout _ List.mem_cons_self)).trans hm
  have hne : ∀ e ∈ l ++ l', e.1 ≠ a := by
    intro e he
    rcases List.mem_append.mp he with he | he
    · exact hnd'.2.2 _ (List.mem_map_of_mem he) _ List.mem_cons_self
    · exact fun h0 ↦ hnd'.2.1.1 (h0 ▸ List.mem_map_of_mem he)
  have htail : h'.Seg m l' none :=
    hl'.congr fun e he ↦ hcell e.1 (hout e (List.mem_cons_of_mem _ he))
  refine ⟨m, h', { h' with cell := Function.update h'.cell a none }, ?_, hset, ?_, l ++ l', ?_, ?_,
    ?_, ?_⟩
  · rw [next, hm, Option.map_some]
  · rw [free, ha, Option.map_some]
  · refine Seg.congr (seg_append.mpr ⟨m, hseg, htail⟩) fun e he ↦ ?_
    exact Function.update_of_ne (hne e he) _ _
  · rw [List.map_append]
    refine List.nodup_append.mpr ⟨hnd'.1, hnd'.2.1.2, fun b hb' c hc ↦ ?_⟩
    exact hnd'.2.2 b hb' c (List.mem_cons_of_mem _ hc)
  · intro e he
    rw [show h'.size = h.size from hsize]
    refine hb e ?_
    rcases List.mem_append.mp he with he | he
    · exact List.mem_append_left _ he
    · exact List.mem_append_right _ (List.mem_cons_of_mem _ he)
  · rw [List.map_append]

end Heap

end Linked
