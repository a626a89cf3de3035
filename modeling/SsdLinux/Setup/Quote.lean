import SsdLinux.Setup.Form

/-!
# `quote` and the browser

`quote` writes an entity for each of four characters and every other character as it is.  The
browser reads the entities back: a text that is quoted has no markup in it (`notMem_quote`), every
`&` in it begins an entity (`entity_of_ampersand`), and decoded it is the text that was quoted
(`decodeEntities_quote`), also if that has entities itself.

An entity is read from its first byte on, so that the reader is in step again behind each piece that
`quote` writes.  This is what `quoteByte_cases` is for: a piece is an entity, or a single byte that
begins none.
-/

set_option autoImplicit false

namespace Setup

open CLib

/-- What `quote` writes for a byte. -/
def quoteByte (c : UInt8) : Bytes :=
  if c = ampersand then cstr "&amp;"
  else if c = dquote then cstr "&quot;"
  else if c = 60 then cstr "&lt;"
  else if c = 62 then cstr "&gt;"
  else [c]

theorem quote_nil : quote [] = [] := rfl

theorem quote_cons (c : UInt8) (s : Bytes) : quote (c :: s) = quoteByte c ++ quote s := rfl

/-- The bytes that `quote` does not let through. -/
def special : Bytes := [ampersand, dquote, less, greater]

/-- A piece is an entity or a byte that is not special. -/
theorem quoteByte_cases (c : UInt8) :
    (∃ e ∈ entities, quoteByte c = e.1 ∧ e.2 = c) ∨ quoteByte c = [c] ∧ c ∉ special := by
  rw [quoteByte]
  split_ifs with hamp hdq hlt hgt
  · exact .inl ⟨(cstr "&amp;", ampersand), by decide, rfl, hamp.symm⟩
  · exact .inl ⟨(cstr "&quot;", dquote), by decide, rfl, hdq.symm⟩
  · exact .inl ⟨(cstr "&lt;", less), by decide, rfl, hlt.symm⟩
  · exact .inl ⟨(cstr "&gt;", greater), by decide, rfl, hgt.symm⟩
  · exact .inr ⟨rfl, by simp [special, hamp, hdq, hlt, hgt]⟩

/-! ## What is written -/

theorem length_quoteByte_le (c : UInt8) : (quoteByte c).length ≤ 6 := by
  rcases quoteByte_cases c with ⟨e, he, h, -⟩ | ⟨h, -⟩
  · exact h ▸ (by decide : ∀ e ∈ entities, e.1.length ≤ 6) e he
  · exact h ▸ (by decide : 1 ≤ 6)

/-- No more than six bytes for each. -/
theorem length_quote_le (s : Bytes) : (quote s).length ≤ 6 * s.length := by
  induction s with
  | nil => exact le_rfl
  | cons c s ih =>
    have := length_quoteByte_le c
    rw [quote_cons, List.length_append, List.length_cons]
    omega

/-- **There is no markup in a text that is quoted.** -/
theorem notMem_quote {d : UInt8} (hd : d ∈ [less, greater, dquote]) (s : Bytes) : d ∉ quote s := by
  induction s with
  | nil => exact List.not_mem_nil
  | cons c s ih =>
    rw [quote_cons, List.mem_append, not_or]
    refine ⟨?_, ih⟩
    rcases quoteByte_cases c with ⟨e, he, h, -⟩ | ⟨h, hc⟩
    · exact h ▸ (by decide : ∀ e ∈ entities, ∀ d ∈ [less, greater, dquote], d ∉ e.1) e he d hd
    · rw [h, List.mem_singleton]
      rintro rfl
      exact hc ((by decide : ∀ d ∈ [less, greater, dquote], d ∈ special) d hd)

/-- **An `&` begins an entity.** -/
theorem entity_of_ampersand {s pre post : Bytes} (h : quote s = pre ++ ampersand :: post) :
    ∃ e ∈ entities, e.1 <+: ampersand :: post := by
  induction s generalizing pre with
  | nil => simp [quote_nil] at h
  | cons c s ih =>
    rw [quote_cons] at h
    rcases List.append_eq_append_iff.mp h with ⟨pre', -, hrest⟩ | ⟨x, hpiece, hrest⟩
    · exact ih hrest
    cases x with
    | nil => exact @ih [] hrest.symm
    | cons d x =>
      rw [List.cons_append, List.cons.injEq] at hrest
      obtain ⟨rfl, rfl⟩ := hrest
      rcases quoteByte_cases c with ⟨e, he, heq, -⟩ | ⟨heq, hc⟩
      · -- An entity has no `&` behind its first byte.
        have htail : ampersand ∉ e.1.tail :=
          (by decide : ∀ e ∈ entities, ampersand ∉ e.1.tail) e he
        rw [heq] at hpiece
        cases pre with
        | nil => exact ⟨e, he, hpiece ▸ List.prefix_append e.1 _⟩
        | cons d pre => rw [hpiece] at htail; simp at htail
      · rw [heq, List.singleton_eq_append_iff] at hpiece
        rcases hpiece with ⟨-, h⟩ | ⟨-, h⟩
        · cases h
          exact absurd (by decide : ampersand ∈ special) hc
        · cases h

/-! ## What the browser reads -/

theorem find?_entity (r : Bytes) :
    ∀ e ∈ entities, (entities.find? fun e' ↦ e'.1.isPrefixOf (e.1 ++ r)) = some e := by
  rw [entities]
  simp only [List.forall_mem_cons]
  exact ⟨rfl, rfl, rfl, rfl, List.forall_mem_nil _⟩

theorem decodeEntitiesGo_entity {e : Bytes × UInt8} (he : e ∈ entities) (n : ℕ) (r : Bytes) :
    decodeEntitiesGo (n + 1) (e.1 ++ r) = e.2 :: decodeEntitiesGo n r := by
  have hfind := find?_entity r e he
  have hne : e.1 ≠ [] := (by decide : ∀ e ∈ entities, e.1 ≠ []) e he
  obtain ⟨c, t, ht⟩ := List.exists_cons_of_ne_nil hne
  rw [ht, List.cons_append] at hfind ⊢
  rw [decodeEntitiesGo, hfind]
  dsimp only
  rw [ht, List.length_cons, List.drop_succ_cons, List.drop_left]

theorem decodeEntitiesGo_plain {c : UInt8} (hc : c ∉ special) (n : ℕ) (r : Bytes) :
    decodeEntitiesGo (n + 1) (c :: r) = c :: decodeEntitiesGo n r := by
  have hfind : (entities.find? fun e ↦ e.1.isPrefixOf (c :: r)) = none := by
    refine List.find?_eq_none.mpr fun e he hpre ↦ hc ?_
    have hhead := (by decide : ∀ e ∈ entities, e.1.head? = some ampersand) e he
    obtain ⟨t, ht⟩ := List.isPrefixOf_iff_prefix.mp hpre
    cases he1 : e.1 with
    | nil => rw [he1] at hhead; cases hhead
    | cons d u =>
      rw [he1] at hhead ht
      cases hhead
      cases ht
      decide
  rw [decodeEntitiesGo, hfind]

theorem decodeEntitiesGo_quote (s : Bytes) :
    ∀ n, (quote s).length ≤ n → decodeEntitiesGo n (quote s) = s := by
  induction s with
  | nil =>
    intro n _
    cases n <;> rfl
  | cons c s ih =>
    intro n hn
    rw [quote_cons, List.length_append] at hn
    rcases quoteByte_cases c with ⟨e, he, heq, hc⟩ | ⟨heq, hc⟩
    · have hlen := (by decide : ∀ e ∈ entities, 0 < e.1.length) e he
      rw [heq] at hn
      obtain ⟨n, rfl⟩ : ∃ m, n = m + 1 := ⟨n - 1, by omega⟩
      rw [quote_cons, heq, decodeEntitiesGo_entity he, hc, ih n (by omega)]
    · rw [heq, List.length_singleton] at hn
      obtain ⟨n, rfl⟩ : ∃ m, n = m + 1 := ⟨n - 1, by omega⟩
      rw [quote_cons, heq, List.singleton_append, decodeEntitiesGo_plain hc, ih n (by omega)]

/-- **The browser reads the text that was quoted.** -/
theorem decodeEntities_quote (s : Bytes) : decodeEntities (quote s) = s :=
  decodeEntitiesGo_quote s _ le_rfl

/-- **Quoted text is safe, it can be read back, and there is room for it.** -/
theorem quote_spec : Function.Injective quote ∧ ∀ s : Bytes,
    (less ∉ quote s ∧ greater ∉ quote s ∧ dquote ∉ quote s) ∧
    (∀ pre post, quote s = pre ++ ampersand :: post →
      ∃ e ∈ entities, e.1 <+: ampersand :: post) ∧
    decodeEntities (quote s) = s ∧ (quote s).length + 1 ≤ 6 * s.length + 1 :=
  ⟨Function.LeftInverse.injective decodeEntities_quote, fun s ↦
    ⟨⟨notMem_quote (by decide) s, notMem_quote (by decide) s, notMem_quote (by decide) s⟩,
      fun _ _ h ↦ entity_of_ampersand h, decodeEntities_quote s,
      Nat.succ_le_succ (length_quote_le s)⟩⟩

end Setup
