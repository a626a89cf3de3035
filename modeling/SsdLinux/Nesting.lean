import Mathlib.Data.List.Infix
import Mathlib.Order.Basic

/-!
# Directories inside each other

Places in a tree of directories, each with the path of names that leads to it.  One is above another
if its path is the beginning of the other one's, and `Nearest` if there is none in between.

A walk that goes into the places in some order has to go into the nearest one above a place first,
and a walk out of them has to leave it last.  **The same order serves both ways exactly if no place
is above another** (`antichain_of_walk`).
-/

set_option autoImplicit false

namespace Nesting

variable {ι α β : Type*} {dir : ι → List α} {S l : List ι} {a b : ι}

/-- `a` is a proper ancestor of `b`. -/
def Above (dir : ι → List α) (a b : ι) : Prop := dir a <+: dir b ∧ dir a ≠ dir b

instance decidableAbove [DecidableEq α] (dir : ι → List α) (a b : ι) : Decidable (Above dir a b) :=
  inferInstanceAs (Decidable (_ ∧ _))

/-- `a` is the nearest ancestor of `b` among the places of `S`. -/
def Nearest (dir : ι → List α) (S : List ι) (a b : ι) : Prop :=
  Above dir a b ∧ ∀ c ∈ S, ¬(Above dir a c ∧ Above dir c b)

theorem Above.length_lt (h : Above dir a b) : (dir a).length < (dir b).length :=
  lt_of_le_of_ne h.1.length_le fun heq ↦ h.2 (h.1.eq_of_length heq)

/-- What has an ancestor has a nearest one. -/
theorem exists_nearest (ha : a ∈ S) (h : Above dir a b) : ∃ a' ∈ S, Nearest dir S a' b := by
  induction hn : (dir b).length - (dir a).length using Nat.strong_induction_on generalizing a with
  | _ n ih =>
    by_cases hnear : Nearest dir S a b
    · exact ⟨a, ha, hnear⟩
    · obtain ⟨c, hc, hac, hcb⟩ : ∃ c ∈ S, Above dir a c ∧ Above dir c b := by
        by_contra hno
        exact hnear ⟨h, fun c hc hmid ↦ hno ⟨c, hc, hmid⟩⟩
      have hlt := hac.length_lt
      have hlt' := hcb.length_lt
      exact ih _ (by omega) hc hcb rfl

/-- In a list, `x` comes before every `y`. -/
def Precedes (l : List β) (x y : β) : Prop := ∀ pre post, l = pre ++ y :: post → x ∈ pre

/-- Two things in a list do not come before each other. -/
theorem Precedes.not_both {l : List β} {x y : β} (h : Precedes l x y) (h' : Precedes l y x)
    (hy : y ∈ l) : False := by
  obtain ⟨pre, post, rfl, hpre⟩ := List.eq_append_cons_of_mem hy
  obtain ⟨pre₁, pre₂, rfl⟩ := List.append_of_mem (h pre post rfl)
  have := h' pre₁ (pre₂ ++ y :: post) (by rw [List.append_assoc, List.cons_append])
  exact hpre (List.mem_append_left _ this)

/-- What is in a part that has no `y` comes before every `y` behind it. -/
theorem Precedes.of_not_mem {l : List β} {x y : β} (hx : x ∈ l) (hy : y ∉ l) (l' : List β) :
    Precedes (l ++ l') x y := by
  intro pre post heq
  rcases List.append_eq_append_iff.1 heq with ⟨as, rfl, -⟩ | ⟨bs, rfl, hbs⟩
  · exact List.mem_append_left _ hx
  · cases bs with
    | nil => rwa [List.append_nil] at hx
    | cons b bs =>
      rw [List.cons_append, List.cons.injEq] at hbs
      exact absurd (List.mem_append_right _ (hbs.1 ▸ List.mem_cons_self)) hy

/-- The order of what is done with the places is the order of the places, if `x` is done with `a`
only. -/
theorem Precedes.of_flatMap {first last : List β} {f : ι → List β} {x y : β}
    (h : Precedes (first ++ (l.flatMap f ++ last)) x y) (hy : y ∈ f b) (hfirst : x ∉ first)
    (hx : ∀ e ∈ l, x ∈ f e → e = a) (hab : a ≠ b) : Precedes l a b := by
  rintro pre post rfl
  obtain ⟨p, q, hfb⟩ := List.append_of_mem hy
  have hmem := h (first ++ (pre.flatMap f ++ p)) (q ++ (post.flatMap f ++ last)) (by
    simp [List.flatMap_append, List.flatMap_cons, hfb])
  rcases List.mem_append.1 hmem with hmem | hmem
  · exact absurd hmem hfirst
  rcases List.mem_append.1 hmem with hmem | hmem
  · obtain ⟨e, he, hxe⟩ := List.mem_flatMap.1 hmem
    rwa [← hx e (List.mem_append_left _ he) hxe]
  · have hxb : x ∈ f b := hfb ▸ List.mem_append_left _ hmem
    exact absurd (hx b (List.mem_append_right _ List.mem_cons_self) hxb).symm hab

/-- **The same order in and out**: no place is above another. -/
theorem antichain_of_walk (hin : ∀ a ∈ l, ∀ b ∈ l, Nearest dir l a b → Precedes l a b)
    (hout : ∀ a ∈ l, ∀ b ∈ l, Above dir a b → Precedes l b a) :
    ∀ a ∈ l, ∀ b ∈ l, ¬Above dir a b := by
  intro a ha b hb hab
  obtain ⟨a', ha', hnear⟩ := exists_nearest ha hab
  exact (hin a' ha' b hb hnear).not_both (hout a' ha' b hb hnear.1) hb

end Nesting
