import Mathlib.Data.List.Basic
import Mathlib.Data.List.TakeDrop

/-!
# A block of slots

An array that a C program fills from the left, and of which it knows how many slots it uses.  A slot
that has never been written has no value, and behind the slots that are used there may be anything.
A store behind the last slot has no result.

`Holds block xs` says that the values `xs` are in the first slots.  There is a lemma about it for
each of the three things that are done to a block: a store behind the values (`store_holds`),
stores one behind the other (`fill_holds`, `fill_eq_none`), and moving the values behind one that is
removed (`shift_holds`).
-/

set_option autoImplicit false

namespace Slots

variable {α : Type*} {block : List (Option α)} {xs ys zs : List α} {x y : α} {i n : ℕ}

/-- A block that has just been allocated. -/
def fresh (n : ℕ) : List (Option α) := List.replicate n none

/-- A store into the slot `i`. -/
def store (block : List (Option α)) (i : ℕ) (v : Option α) : Option (List (Option α)) :=
  if i < block.length then some (block.set i v) else none

/-- Stores into the slots from `i` on. -/
def fill (block : List (Option α)) : ℕ → List (Option α) → Option (List (Option α))
  | _, [] => some block
  | i, v :: vs =>
    match store block i v with
    | none => none
    | some block => fill block (i + 1) vs

/-- The next `n` slots behind the slot `i` are moved by one. -/
def shift : ℕ → ℕ → List (Option α) → Option (List (Option α))
  | 0, _, block => some block
  | n + 1, i, block =>
    match block[i + 1]? with
    | none => none
    | some v =>
      match store block i v with
      | none => none
      | some block => shift n (i + 1) block

/-- The first slots hold these values. -/
def Holds (block : List (Option α)) (xs : List α) : Prop := block.take xs.length = xs.map some

theorem holds_nil (block : List (Option α)) : Holds block [] := rfl

theorem Holds.length_le (h : Holds block xs) : xs.length ≤ block.length := by
  have hlen := congrArg List.length h
  rw [List.length_take, List.length_map] at hlen
  omega

theorem Holds.of_append (h : Holds block (xs ++ ys)) : Holds block xs := by
  have htake := congrArg (List.take xs.length) h
  rwa [List.take_take, List.length_append, Nat.min_eq_left (Nat.le_add_right _ _),
    List.map_append, List.take_left' (List.length_map _)] at htake

theorem holds_append (xs : List α) (rest : List (Option α)) : Holds (xs.map some ++ rest) xs :=
  List.take_left' (List.length_map _)

/-- The block, with what is behind the values. -/
theorem Holds.exists_append (h : Holds block xs) : ∃ rest, block = xs.map some ++ rest :=
  ⟨block.drop xs.length, by rw [← h, List.take_append_drop]⟩

/-- **A store behind the values.** -/
theorem store_holds (h : Holds block xs) (hlt : xs.length < block.length) :
    ∃ block', store block xs.length (some x) = some block' ∧ block'.length = block.length ∧
      Holds block' (xs ++ [x]) := by
  refine ⟨_, if_pos hlt, List.length_set, ?_⟩
  rw [Holds, List.length_append, List.length_singleton,
    List.take_add_one, List.getElem?_set_self hlt, List.take_set_of_le (Nat.le_refl _), h,
    List.map_append]
  rfl

/-- **Stores one behind the other.** -/
theorem fill_holds (h : Holds block xs) (hle : xs.length + ys.length ≤ block.length) :
    ∃ block', fill block xs.length (ys.map some) = some block' ∧ block'.length = block.length ∧
      Holds block' (xs ++ ys) := by
  induction ys generalizing block xs with
  | nil => exact ⟨block, rfl, rfl, by rwa [List.append_nil]⟩
  | cons y ys ih =>
    rw [List.length_cons] at hle
    obtain ⟨block₁, hstore, hlen₁, h₁⟩ := store_holds (x := y) h (by omega)
    obtain ⟨block₂, hfill, hlen₂, h₂⟩ := ih h₁ (by
      rw [List.length_append, List.length_singleton]
      omega)
    refine ⟨block₂, ?_, hlen₂.trans hlen₁, by rwa [List.append_assoc] at h₂⟩
    rw [List.map_cons, fill, hstore]
    rwa [List.length_append, List.length_singleton] at hfill

/-- There are not enough slots. -/
theorem fill_eq_none {vs : List (Option α)} (hne : vs ≠ []) (h : block.length < i + vs.length) :
    fill block i vs = none := by
  induction vs generalizing block i with
  | nil => exact absurd rfl hne
  | cons v vs ih =>
    rw [fill, store]
    by_cases hi : i < block.length
    · rw [if_pos hi]
      rw [List.length_cons] at h
      refine ih (fun hvs ↦ ?_) (by rw [List.length_set]; omega)
      rw [hvs, List.length_nil] at h
      omega
    · rw [if_neg hi]

/-- **A value is removed**, and what is behind it moves. -/
theorem shift_holds (h : Holds block (xs ++ y :: zs)) :
    ∃ block', shift zs.length xs.length block = some block' ∧ block'.length = block.length ∧
      Holds block' (xs ++ zs) := by
  induction zs generalizing block xs y with
  | nil => exact ⟨block, rfl, rfl, by rw [List.append_nil]; exact h.of_append⟩
  | cons z zs ih =>
    obtain ⟨rest, hblock⟩ := h.exists_append
    have hget : block[xs.length + 1]? = some (some z) := by
      rw [hblock]
      simp
    have hset : block.set xs.length (some z) = ((xs ++ [z]) ++ z :: zs).map some ++ rest := by
      rw [hblock]
      simp
    have hlt : xs.length < block.length := by
      have hle := h.length_le
      rw [List.length_append, List.length_cons] at hle
      omega
    obtain ⟨block', hshift, hlen, h'⟩ := ih (hset ▸ holds_append _ rest)
    rw [List.length_append, List.length_singleton] at hshift
    refine ⟨block', ?_, hlen.trans List.length_set, by rwa [List.append_assoc] at h'⟩
    rw [List.length_cons, shift, hget]
    dsimp only
    rw [store, if_pos hlt]
    exact hshift

end Slots
