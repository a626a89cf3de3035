import Mathlib.Data.List.Basic
import Mathlib.Data.List.Nodup
import Mathlib.Logic.Basic

/-!
# Lists of records filed under a key

An association list that keeps the order in which its keys first appeared: `find` reads the record
of a key, `upsert` replaces it in place or appends a new one, `modify` changes it if it is there
and `erase` removes it.  The record a key holds after any number of `upsert`s depends only on the
`upsert`s of that key (`find_foldl_upsert`), which is what lets a history be read key by key.

`upsert k f` is handed the record that was there, if any, because the record written may depend on
it.  Its laws need `f` to file what it makes under `k`; that is the hypothesis `hf` everywhere.
-/

set_option autoImplicit false

namespace Keyed

variable {α κ β : Type*} [DecidableEq κ] (key : α → κ)

/-- The record filed under `k`. -/
def find (k : κ) (l : List α) : Option α := l.find? fun a ↦ decide (key a = k)

/-- Replace the record filed under `k`, or append a new one. -/
def upsert (k : κ) (f : Option α → α) : List α → List α
  | [] => [f none]
  | a :: l => if key a = k then f (some a) :: l else a :: upsert k f l

/-- Change the record filed under `k`, if there is one. -/
def modify (k : κ) (g : α → α) : List α → List α
  | [] => []
  | a :: l => if key a = k then g a :: l else a :: modify k g l

/-- Remove the record filed under `k`, if there is one. -/
def erase (k : κ) (l : List α) : List α := l.eraseP fun a ↦ decide (key a = k)

attribute [local simp] upsert modify

@[simp] theorem find_nil (k : κ) : find key k [] = none := rfl

theorem find_cons (k : κ) (a : α) (l : List α) :
    find key k (a :: l) = if key a = k then some a else find key k l := by
  by_cases h : key a = k <;> simp [find, h]

theorem key_of_find {k : κ} {l : List α} {a : α} (h : find key k l = some a) : key a = k := by
  simpa using List.find?_some h

theorem mem_of_find {k : κ} {l : List α} {a : α} (h : find key k l = some a) : a ∈ l :=
  List.mem_of_find?_eq_some h

theorem find_eq_none_iff {k : κ} {l : List α} : find key k l = none ↔ k ∉ l.map key := by
  simp [find]

/-- Where no key occurs twice, a record is what its key finds. -/
theorem find_of_mem {l : List α} (hl : (l.map key).Nodup) {a : α} (h : a ∈ l) :
    find key (key a) l = some a := by
  induction l with
  | nil => simp at h
  | cons b l ih =>
    rw [List.map_cons, List.nodup_cons] at hl
    rw [find_cons]
    rcases List.mem_cons.mp h with rfl | h
    · simp
    · have hne : key b ≠ key a := fun e ↦ hl.1 (e ▸ List.mem_map_of_mem h)
      rw [if_neg hne]
      exact ih hl.2 h

section upsert

variable {key} {k k' : κ} {f : Option α → α}

theorem find_upsert_self (hf : ∀ o, key (f o) = k) (l : List α) :
    find key k (upsert key k f l) = some (f (find key k l)) := by
  induction l with
  | nil => simp [find_cons, hf]
  | cons a l ih =>
    rw [upsert, find_cons]
    split
    · simp [find_cons, hf]
    · rename_i h
      rw [find_cons, if_neg h, ih]

theorem find_upsert_ne (hf : ∀ o, key (f o) = k) (h : k' ≠ k) (l : List α) :
    find key k' (upsert key k f l) = find key k' l := by
  induction l with
  | nil => simp [find_cons, hf, h.symm]
  | cons a l ih =>
    rw [upsert, find_cons]
    split
    · rename_i ha
      simp [find_cons, hf, ha, h.symm]
    · rw [find_cons, ih]

theorem upsert_of_not_mem {l : List α} (h : k ∉ l.map key) :
    upsert key k f l = l ++ [f none] := by
  induction l with
  | nil => rfl
  | cons a l ih =>
    rw [List.map_cons, List.mem_cons, not_or] at h
    rw [upsert, if_neg (Ne.symm h.1), ih h.2, List.cons_append]

theorem map_key_upsert (hf : ∀ o, key (f o) = k) (l : List α) :
    (upsert key k f l).map key = if k ∈ l.map key then l.map key else l.map key ++ [k] := by
  induction l with
  | nil => simp [hf]
  | cons a l ih =>
    rw [upsert]
    by_cases ha : key a = k
    · simp [ha, hf]
    · simp only [if_neg ha, List.map_cons, ih, List.mem_cons, Ne.symm ha, false_or]
      split <;> simp

theorem nodup_upsert (hf : ∀ o, key (f o) = k) {l : List α} (h : (l.map key).Nodup) :
    ((upsert key k f l).map key).Nodup := by
  rw [map_key_upsert hf]
  split
  · exact h
  · rename_i hk
    exact List.nodup_append.mpr ⟨h, by simp, by
      intro a ha b hb
      rw [List.mem_singleton.mp hb]
      exact fun e ↦ hk (e ▸ ha)⟩

/-- An `upsert` leaves every other record where it is. -/
theorem mem_upsert {l : List α} {a : α} (h : a ∈ upsert key k f l) :
    a ∈ l ∨ ∃ o, a = f o := by
  induction l with
  | nil => exact .inr ⟨none, by simpa using h⟩
  | cons b l ih =>
    rw [upsert] at h
    split at h
    · rcases List.mem_cons.mp h with h | h
      · exact .inr ⟨some b, h⟩
      · exact .inl (List.mem_cons_of_mem _ h)
    · rcases List.mem_cons.mp h with rfl | h
      · exact .inl List.mem_cons_self
      · exact (ih h).imp_left (List.mem_cons_of_mem _)

end upsert

/-- **The record of a key depends only on the `upsert`s of that key.** -/
theorem find_foldl_upsert {K : β → κ} {F : β → Option α → α}
    (hf : ∀ p o, key (F p o) = K p) (k : κ) (ps : List β) (l : List α) :
    find key k (ps.foldl (fun l p ↦ upsert key (K p) (F p) l) l)
      = (ps.filter fun p ↦ decide (K p = k)).foldl (fun o p ↦ some (F p o)) (find key k l) := by
  induction ps generalizing l with
  | nil => rfl
  | cons p ps ih =>
    rw [List.foldl_cons, ih]
    by_cases h : K p = k
    · subst h
      rw [List.filter_cons_of_pos (by simp), List.foldl_cons, find_upsert_self (hf p)]
    · rw [List.filter_cons_of_neg (by simpa using h), find_upsert_ne (hf p) (Ne.symm h)]

/-- Where no key occurs twice, the records are what their keys find, in the order of the keys. -/
theorem eq_map_of_find {l : List α} (hl : (l.map key).Nodup) {g : κ → α}
    (hg : ∀ k ∈ l.map key, find key k l = some (g k)) : l = (l.map key).map g := by
  rw [List.map_map]
  refine (List.map_id l).symm.trans (List.map_congr_left fun a ha ↦ ?_)
  have hfind := hg (key a) (List.mem_map_of_mem ha)
  rw [find_of_mem key hl ha] at hfind
  exact Option.some.inj hfind

/-- Where no key occurs twice, the keys and what they find make up the list. -/
theorem eq_of_find {l m : List α} (hl : (l.map key).Nodup) (hkeys : l.map key = m.map key)
    (h : ∀ k, find key k l = find key k m) : l = m := by
  induction l generalizing m with
  | nil => exact (List.map_eq_nil_iff.mp hkeys.symm).symm
  | cons a l ih =>
    obtain ⟨b, m, rfl, hb, hm⟩ := List.map_eq_cons_iff.mp hkeys.symm
    rw [List.map_cons, List.nodup_cons] at hl
    have hab := h (key a)
    rw [find_cons, find_cons, if_pos rfl, if_pos hb, Option.some_inj] at hab
    subst hab
    refine congrArg (a :: ·) (ih hl.2 hm.symm fun k ↦ ?_)
    by_cases hk : key a = k
    · subst hk
      rw [(find_eq_none_iff key).mpr hl.1, (find_eq_none_iff key).mpr (hm ▸ hl.1)]
    · have hfind := h k
      rwa [find_cons, find_cons, if_neg hk, if_neg hk] at hfind

section merge

/-- Keys, and behind them those of a second list that are new. -/
def mergeKeys (l m : List κ) : List κ := l ++ m.filter fun k ↦ decide (k ∉ l)

@[simp] theorem nil_mergeKeys (m : List κ) : mergeKeys [] m = m := by simp [mergeKeys]

theorem mem_mergeKeys {l m : List κ} {k : κ} : k ∈ mergeKeys l m ↔ k ∈ l ∨ k ∈ m := by
  rw [mergeKeys, List.mem_append, List.mem_filter, decide_eq_true_eq]
  by_cases h : k ∈ l <;> simp [h]

theorem nodup_mergeKeys {l m : List κ} (hl : l.Nodup) (hm : m.Nodup) : (mergeKeys l m).Nodup := by
  refine List.nodup_append.mpr ⟨hl, hm.filter _, fun a ha b hb hab ↦ ?_⟩
  have hnew := (List.mem_filter.mp hb).2
  rw [decide_eq_true_eq] at hnew
  exact hnew (hab ▸ ha)

/-- **Records filed under different keys stand in the order in which the keys first appeared.** -/
theorem map_key_foldl_upsert {K : β → κ} {F : β → Option α → α}
    (hf : ∀ p o, key (F p o) = K p) {ps : List β} (hps : (ps.map K).Nodup) (l : List α) :
    (ps.foldl (fun l p ↦ upsert key (K p) (F p) l) l).map key
      = mergeKeys (l.map key) (ps.map K) := by
  induction ps generalizing l with
  | nil => simp [mergeKeys]
  | cons p ps ih =>
    rw [List.map_cons, List.nodup_cons] at hps
    rw [List.foldl_cons, ih hps.2, map_key_upsert (hf p), List.map_cons, mergeKeys, mergeKeys]
    by_cases hp : K p ∈ l.map key
    · rw [if_pos hp, List.filter_cons_of_neg (by simpa using hp)]
    · rw [if_neg hp, List.filter_cons_of_pos (by simpa using hp), List.append_assoc,
        List.singleton_append]
      refine congrArg (l.map key ++ K p :: ·) (List.filter_congr fun k hk ↦ ?_)
      have hne : k ≠ K p := fun e ↦ hps.1 (e ▸ hk)
      simp only [List.mem_append, List.mem_singleton, hne, or_false]

end merge

section modify

variable {key} {k k' : κ} {g : α → α}

theorem find_modify (hg : ∀ a, key (g a) = key a) (l : List α) :
    find key k' (modify key k g l)
      = if k' = k then (find key k l).map g else find key k' l := by
  induction l with
  | nil => simp
  | cons a l ih =>
    rw [modify]
    by_cases ha : key a = k
    · rw [if_pos ha, find_cons, find_cons, find_cons, if_pos ha, hg, ha]
      by_cases hk : k' = k
      · simp [hk]
      · simp [hk, Ne.symm hk]
    · rw [if_neg ha, find_cons, find_cons key k, if_neg ha, ih, find_cons]
      by_cases hk : k' = k
      · simp [hk, ha]
      · simp [hk]

theorem map_key_modify (hg : ∀ a, key (g a) = key a) (l : List α) :
    (modify key k g l).map key = l.map key := by
  induction l with
  | nil => rfl
  | cons a l ih => rw [modify]; split <;> simp [hg, ih]

theorem mem_modify {l : List α} {a : α} (h : a ∈ modify key k g l) :
    a ∈ l ∨ ∃ b ∈ l, key b = k ∧ a = g b := by
  induction l with
  | nil => simp at h
  | cons b l ih =>
    rw [modify] at h
    split at h
    · rename_i hb
      rcases List.mem_cons.mp h with h | h
      · exact .inr ⟨b, List.mem_cons_self, hb, h⟩
      · exact .inl (List.mem_cons_of_mem _ h)
    · rcases List.mem_cons.mp h with rfl | h
      · exact .inl List.mem_cons_self
      · rcases ih h with h | ⟨c, hc, hk, e⟩
        · exact .inl (List.mem_cons_of_mem _ h)
        · exact .inr ⟨c, List.mem_cons_of_mem _ hc, hk, e⟩

/-- A change changes nothing exactly if the record found is what it would become. -/
theorem modify_eq_self_iff (l : List α) : modify key k g l = l ↔ ∀ a ∈ find key k l, g a = a := by
  induction l with
  | nil => simp
  | cons a l ih =>
    rw [modify, find_cons]
    split
    · simp
    · simpa using ih

/-- The same change twice, when it does the same as once. -/
theorem modify_modify (hg : ∀ a, key (g a) = key a) (hgg : ∀ a, g (g a) = g a) (l : List α) :
    modify key k g (modify key k g l) = modify key k g l := by
  refine (modify_eq_self_iff _).mpr fun a ha ↦ ?_
  rw [find_modify hg, if_pos rfl, Option.mem_def, Option.map_eq_some_iff] at ha
  obtain ⟨b, -, rfl⟩ := ha
  exact hgg b

end modify

section erase

variable {key} {k k' : κ}

theorem find_erase_ne (h : k' ≠ k) (l : List α) :
    find key k' (erase key k l) = find key k' l := by
  induction l with
  | nil => rfl
  | cons a l ih =>
    by_cases ha : key a = k
    · simp [erase, ha, find_cons, h.symm]
    · rw [erase, List.eraseP_cons_of_neg (by simpa using ha), find_cons, find_cons]
      split
      · rfl
      · exact ih

theorem find_erase_self {l : List α} (hl : (l.map key).Nodup) :
    find key k (erase key k l) = none := by
  induction l with
  | nil => rfl
  | cons a l ih =>
    rw [List.map_cons, List.nodup_cons] at hl
    by_cases ha : key a = k
    · rw [erase, List.eraseP_cons_of_pos (by simpa using ha)]
      exact (find_eq_none_iff key).mpr (ha ▸ hl.1)
    · rw [erase, List.eraseP_cons_of_neg (by simpa using ha), find_cons, if_neg ha]
      exact ih hl.2

theorem erase_sublist (l : List α) : (erase key k l).Sublist l := List.eraseP_sublist

end erase

section split

variable {key} {k : κ}

/-- A key is in no record, or there is a first record with it. -/
theorem not_mem_or_split (key : α → κ) (k : κ) (l : List α) :
    (∀ a ∈ l, key a ≠ k) ∨
      ∃ l₁ a l₂, l = l₁ ++ a :: l₂ ∧ (∀ b ∈ l₁, key b ≠ k) ∧ key a = k := by
  induction l with
  | nil => exact .inl (List.forall_mem_nil _)
  | cons a l ih =>
    by_cases ha : key a = k
    · exact .inr ⟨[], a, l, rfl, List.forall_mem_nil _, ha⟩
    · rcases ih with h | ⟨l₁, b, l₂, rfl, h₁, hb⟩
      · exact .inl (List.forall_mem_cons.mpr ⟨ha, h⟩)
      · exact .inr ⟨a :: l₁, b, l₂, rfl, List.forall_mem_cons.mpr ⟨ha, h₁⟩, hb⟩

variable {l₁ l₂ : List α} {a : α} (h₁ : ∀ b ∈ l₁, key b ≠ k) (ha : key a = k)

include h₁ ha

theorem find_split : find key k (l₁ ++ a :: l₂) = some a := by
  induction l₁ with
  | nil => simp [find_cons, ha]
  | cons b l₁ ih =>
    rw [List.forall_mem_cons] at h₁
    rw [List.cons_append, find_cons, if_neg h₁.1, ih h₁.2]

theorem upsert_split (f : Option α → α) :
    upsert key k f (l₁ ++ a :: l₂) = l₁ ++ f (some a) :: l₂ := by
  induction l₁ with
  | nil => exact if_pos ha
  | cons b l₁ ih =>
    rw [List.forall_mem_cons] at h₁
    rw [List.cons_append, upsert, if_neg h₁.1, ih h₁.2, List.cons_append]

theorem modify_split (g : α → α) : modify key k g (l₁ ++ a :: l₂) = l₁ ++ g a :: l₂ := by
  induction l₁ with
  | nil => exact if_pos ha
  | cons b l₁ ih =>
    rw [List.forall_mem_cons] at h₁
    rw [List.cons_append, modify, if_neg h₁.1, ih h₁.2, List.cons_append]

theorem erase_split : erase key k (l₁ ++ a :: l₂) = l₁ ++ l₂ := by
  induction l₁ with
  | nil => exact List.eraseP_cons_of_pos (by simpa using ha)
  | cons b l₁ ih =>
    rw [List.forall_mem_cons] at h₁
    rw [List.cons_append, erase, List.eraseP_cons_of_neg (by simpa using h₁.1), ← erase, ih h₁.2,
      List.cons_append]

end split

section absent

variable {key} {k : κ} {l : List α} (h : ∀ a ∈ l, key a ≠ k)

include h

theorem find_absent : find key k l = none := by
  rw [find_eq_none_iff]
  intro hk
  obtain ⟨a, ha, he⟩ := List.mem_map.mp hk
  exact h a ha he

theorem upsert_absent (f : Option α → α) : upsert key k f l = l ++ [f none] := by
  refine upsert_of_not_mem fun hk ↦ ?_
  obtain ⟨a, ha, he⟩ := List.mem_map.mp hk
  exact h a ha he

theorem modify_absent (g : α → α) : modify key k g l = l := by
  rw [modify_eq_self_iff, find_absent h]
  exact fun a ha ↦ by cases ha

theorem erase_absent : erase key k l = l :=
  List.eraseP_of_forall_not fun a ha ↦ by simpa using h a ha

end absent

/-- Where no key occurs twice, an erased list is the list without the records of the key. -/
theorem erase_eq_filter {k : κ} {l : List α} (hl : (l.map key).Nodup) :
    erase key k l = l.filter fun a ↦ decide (key a ≠ k) := by
  induction l with
  | nil => rfl
  | cons a l ih =>
    rw [List.map_cons, List.nodup_cons] at hl
    by_cases ha : key a = k
    · have hrest : ∀ b ∈ l, key b ≠ k := fun b hb he ↦
        hl.1 (ha.trans he.symm ▸ List.mem_map_of_mem hb)
      rw [erase, List.eraseP_cons_of_pos (by simpa using ha),
        List.filter_cons_of_neg (by simpa using ha), eq_comm, List.filter_eq_self]
      exact fun b hb ↦ by simpa using hrest b hb
    · rw [erase, List.eraseP_cons_of_neg (by simpa using ha), ← erase, ih hl.2,
        List.filter_cons_of_pos (by simpa using ha)]

section map

variable {key} {k : κ} {l : List α} (hl : (l.map key).Nodup)

include hl

/-- Where no key occurs twice, only the record of the key is changed. -/
theorem modify_eq_map (g : α → α) :
    modify key k g l = l.map fun a ↦ if key a = k then g a else a := by
  induction l with
  | nil => rfl
  | cons a l ih =>
    rw [List.map_cons, List.nodup_cons] at hl
    rw [modify, List.map_cons]
    split
    · rename_i ha
      have hrest : ∀ b ∈ l, key b ≠ k := fun b hb hk ↦
        hl.1 (ha.trans hk.symm ▸ List.mem_map_of_mem hb)
      have hself : (l.map fun b ↦ if key b = k then g b else b) = l.map id :=
        List.map_congr_left fun b hb ↦ if_neg (hrest b hb)
      rw [hself, List.map_id]
    · rw [ih hl.2]

/-- Where no key occurs twice and there is a record of the key, only that one is replaced. -/
theorem upsert_eq_map (hk : k ∈ l.map key) (f : Option α → α) :
    upsert key k f l = l.map fun a ↦ if key a = k then f (some a) else a := by
  rw [← modify_eq_map hl fun a ↦ f (some a)]
  rcases not_mem_or_split key k l with habs | ⟨l₁, a, l₂, rfl, h₁, ha⟩
  · obtain ⟨a, ha, he⟩ := List.mem_map.mp hk
    exact absurd he (habs a ha)
  · rw [upsert_split h₁ ha, modify_split h₁ ha]

end map

end Keyed
