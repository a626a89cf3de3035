import SsdLinux.Setup.Env

/-!
# `token`: how a configuration token is read

The reader of the configuration file and the macro evaluator of the templates share one tokenizer.
A token is blanks and then either a bare word (`atom`) or a quoted text (`qatom`), in which

* a backslash makes the next byte literal,
* `$name` and `${name}` stand for the value of a setting, and nothing for an unset one,
* every other byte stands for itself, up to the closing quote.

Text that opens a quote and never closes it is read again as a bare word, which is the empty one.

The functions take a pointer into a NUL-terminated buffer and return the advanced pointer; here the
pointer is the rest of the string.  One of them can leave its buffer: `qatom` steps over the byte
after a backslash without looking at it, so a backslash that is the last byte of the string carries
the pointer past the NUL.  Such a run has no result, and `none` says so.
-/

set_option autoImplicit false

namespace Setup

open CLib

variable (w : World) (p : Proc)

/-- `is_atom`. -/
def isAtom (c : UInt8) : Bool := isalnum c || c == underscore

/-- The part of `val` that reads a name and looks it up. -/
def valName (s : Bytes) : Bytes × Bytes :=
  ((getval w (s.takeWhile isAtom) p).getD [], s.dropWhile isAtom)

/-- `val`: the text a reference stands for, and the rest of the string. -/
def val : Bytes → Bytes × Bytes
  | [] => valName w p []
  | c :: s =>
    if c = lbrace then
      match val s with
      | (t, d :: r) => if d = rbrace then (t, r) else valName w p (c :: s)
      | (_, []) => valName w p (c :: s)
    else valName w p (c :: s)

/-- The loop of `qatom`; the number bounds its rounds. -/
def qatomGo : ℕ → Bytes → Option (Bytes × Bytes)
  | 0, _ => none
  | _ + 1, [] => some ([], [])
  | n + 1, c :: s =>
    if c = backslash then
      s.head?.bind fun d ↦ (qatomGo n s.tail).map fun q ↦ (d :: q.1, q.2)
    else if c = dollar then (qatomGo n (val w p s).2).map fun q ↦ ((val w p s).1 ++ q.1, q.2)
    else if c = dquote then some ([], c :: s)
    else (qatomGo n s).map fun q ↦ (c :: q.1, q.2)

/-- `qatom`: the quoted text and the rest of the string, which begins with the closing quote unless
there is none. -/
def qatom (s : Bytes) : Option (Bytes × Bytes) := qatomGo w p (s.length + 1) s

/-- `atom`: a bare word and the rest of the string. -/
def atom (s : Bytes) : Bytes × Bytes :=
  let s := s.dropWhile isspace
  (s.takeWhile isAtom, s.dropWhile isAtom)

/-- The part of `token` that is reached when there is no closed quoted text. -/
def tokenAtom (s : Bytes) : Bytes × Bytes :=
  ((atom (s.dropWhile isspace)).1, (atom (s.dropWhile isspace)).2.dropWhile isspace)

/-- `token`: a token and the rest of the string after the blanks that follow it. -/
def token (s : Bytes) : Option (Bytes × Bytes) :=
  match s.dropWhile isspace with
  | c :: s' =>
    if c = dquote then
      (qatom w p s').map fun q ↦
        match q.2 with
        | d :: r => if d = dquote then (q.1, r.dropWhile isspace) else tokenAtom s
        | [] => tokenAtom s
    else some (tokenAtom s)
  | [] => some (tokenAtom s)

/-- `t_token`: a token cut to fit a buffer of `sz` bytes. -/
def tToken (sz : ℕ) (s : Bytes) : Option (Bytes × Bytes) :=
  (token w p s).map fun q ↦ (q.1.take (sz - 1), q.2)

/-! ## References -/

variable {w p}

attribute [local simp] val qatomGo

theorem valName_suffix (s : Bytes) :
    ∃ pre, s = pre ++ (valName w p s).2 ∧ ∀ c ∈ pre, isAtom c = true :=
  ⟨s.takeWhile isAtom, by simp [valName], fun _ h ↦ List.mem_takeWhile_imp h⟩

theorem valName_fst (s : Bytes) :
    (valName w p s).1 = [] ∨ ∃ k, getval w k p = some (valName w p s).1 := by
  simp only [valName]
  cases h : getval w (s.takeWhile isAtom) p with
  | none => exact .inl rfl
  | some v => exact .inr ⟨_, h⟩

/-- What `val` consumes is letters, digits, underscores and braces. -/
theorem val_suffix (s : Bytes) :
    ∃ pre, s = pre ++ (val w p s).2 ∧ ∀ c ∈ pre, isAtom c = true ∨ c = lbrace ∨ c = rbrace := by
  have hname : ∀ s : Bytes, ∃ pre, s = pre ++ (valName w p s).2 ∧
      ∀ c ∈ pre, isAtom c = true ∨ c = lbrace ∨ c = rbrace := fun s ↦ by
    obtain ⟨pre, h, hpre⟩ := valName_suffix (w := w) (p := p) s
    exact ⟨pre, h, fun c hc ↦ .inl (hpre c hc)⟩
  induction s with
  | nil => exact hname []
  | cons c s ih =>
    rw [val]
    split
    · rename_i hc
      obtain ⟨pre, h, hpre⟩ := ih
      split
      · rename_i t d r hv
        split
        · rename_i hd
          rw [hv] at h
          refine ⟨c :: pre ++ [d], by rw [h]; simp, ?_⟩
          intro e he
          simp only [List.cons_append, List.mem_cons, List.mem_append, List.not_mem_nil,
            or_false] at he
          rcases he with rfl | he | rfl
          · exact .inr (.inl hc)
          · exact hpre e he
          · exact .inr (.inr hd)
        · exact hname _
      · exact hname _
    · exact hname _

/-- The text a reference stands for is a value of the store, a text of the clock, or nothing. -/
theorem val_fst (s : Bytes) :
    (val w p s).1 = [] ∨ ∃ k, getval w k p = some (val w p s).1 := by
  induction s with
  | nil => exact valName_fst []
  | cons c s ih =>
    rw [val]
    split
    · split
      · rename_i t d r hv
        split
        · rw [hv] at ih
          exact ih
        · exact valName_fst _
      · exact valName_fst _
    · exact valName_fst _

/-- A name, up to a byte that stands in no name. -/
theorem val_name {name r : Bytes} (hne : name ≠ []) (hname : ∀ c ∈ name, isAtom c = true)
    (hr : ∀ c ∈ r.head?, isAtom c = false) :
    val w p (name ++ r) = ((getval w name p).getD [], r) := by
  obtain ⟨c, u, rfl⟩ := List.exists_cons_of_ne_nil hne
  have hbrace : c ≠ lbrace := ne_of_class (hname c List.mem_cons_self) (by decide)
  obtain ⟨htake, hdrop⟩ := span_eq hname hr
  rw [List.cons_append, val, if_neg hbrace, valName, ← List.cons_append, htake, hdrop]

/-- A name in braces. -/
theorem val_braced {name : Bytes} (hne : name ≠ []) (hname : ∀ c ∈ name, isAtom c = true)
    (r : Bytes) : val w p (lbrace :: (name ++ rbrace :: r)) = ((getval w name p).getD [], r) := by
  have hbrace : ∀ c ∈ (rbrace :: r).head?, isAtom c = false := fun c hc ↦ by cases hc; decide
  rw [val, if_pos rfl, val_name hne hname hbrace]
  exact if_pos rfl

theorem val_length_le (s : Bytes) : (val w p s).2.length ≤ s.length := by
  obtain ⟨pre, h, -⟩ := val_suffix (w := w) (p := p) s
  have := congrArg List.length h
  rw [List.length_append] at this
  omega

/-! ## Quoted text -/

/-- The bound on the rounds is enough: any two bounds beyond the length agree. -/
theorem qatomGo_eq (n m : ℕ) (s : Bytes) (hn : s.length < n) (hm : s.length < m) :
    qatomGo w p n s = qatomGo w p m s := by
  induction n generalizing m s with
  | zero => omega
  | succ n ih =>
    cases m with
    | zero => omega
    | succ m =>
      cases s with
      | nil => rfl
      | cons c s =>
        rw [List.length_cons] at hn hm
        have hv := val_length_le (w := w) (p := p) s
        have ht : s.tail.length ≤ s.length := by simp
        rw [qatomGo, qatomGo, ih m s (by omega) (by omega), ih m s.tail (by omega) (by omega),
          ih m (val w p s).2 (by omega) (by omega)]

theorem qatomGo_eq_qatom {n : ℕ} {s : Bytes} (h : s.length < n) : qatomGo w p n s = qatom w p s :=
  qatomGo_eq n (s.length + 1) s h (by omega)

@[simp] theorem qatom_nil : qatom w p [] = some ([], []) := rfl

theorem qatom_backslash (d : UInt8) (s : Bytes) :
    qatom w p (backslash :: d :: s) = (qatom w p s).map fun q ↦ (d :: q.1, q.2) := by
  rw [qatom, qatomGo, if_pos rfl, List.head?_cons, Option.bind_some, List.tail_cons,
    qatomGo_eq_qatom (by simp only [List.length_cons]; omega)]

theorem qatom_dollar (s : Bytes) :
    qatom w p (dollar :: s)
      = (qatom w p (val w p s).2).map fun q ↦ ((val w p s).1 ++ q.1, q.2) := by
  have hv := val_length_le (w := w) (p := p) s
  rw [qatom, qatomGo, if_neg (by decide), if_pos rfl, List.length_cons,
    qatomGo_eq_qatom (by omega)]

theorem qatom_dquote (s : Bytes) : qatom w p (dquote :: s) = some ([], dquote :: s) := by
  rw [qatom, qatomGo, if_neg (by decide), if_neg (by decide), if_pos rfl]

theorem qatom_other {c : UInt8} (h1 : c ≠ backslash) (h2 : c ≠ dollar) (h3 : c ≠ dquote)
    (s : Bytes) : qatom w p (c :: s) = (qatom w p s).map fun q ↦ (c :: q.1, q.2) := by
  rw [qatom, qatomGo, if_neg h1, if_neg h2, if_neg h3, List.length_cons,
    qatomGo_eq_qatom (by omega)]

/-- Text with nothing special in it is read as it stands. -/
theorem qatom_literal {s : Bytes} (h1 : backslash ∉ s) (h2 : dollar ∉ s) (h3 : dquote ∉ s)
    (r : Bytes) : qatom w p (s ++ dquote :: r) = some (s, dquote :: r) := by
  induction s with
  | nil => exact qatom_dquote r
  | cons c s ih =>
    simp only [List.mem_cons, not_or] at h1 h2 h3
    rw [List.cons_append, qatom_other (Ne.symm h1.1) (Ne.symm h2.1) (Ne.symm h3.1),
      ih h1.2 h2.2 h3.2, Option.map_some]

/-- An induction over the rounds of `qatom`, for the runs that have a result. -/
theorem qatom_induct {P : Bytes → Bytes → Bytes → Prop}
    (nil : P [] [] [])
    (escape : ∀ d s t r, qatom w p s = some (t, r) → P s t r →
      P (backslash :: d :: s) (d :: t) r)
    (ref : ∀ s t r, qatom w p (val w p s).2 = some (t, r) → P (val w p s).2 t r →
      P (dollar :: s) ((val w p s).1 ++ t) r)
    (close : ∀ s, P (dquote :: s) [] (dquote :: s))
    (literal : ∀ c s t r, c ≠ backslash → c ≠ dollar → c ≠ dquote → qatom w p s = some (t, r) →
      P s t r → P (c :: s) (c :: t) r)
    (s t r : Bytes) (h : qatom w p s = some (t, r)) : P s t r := by
  induction hn : s.length using Nat.strong_induction_on generalizing s t r with
  | _ n ih =>
  subst hn
  cases s with
  | nil =>
    rw [qatom_nil] at h
    cases h
    exact nil
  | cons c s =>
    by_cases h1 : c = backslash
    · subst h1
      cases s with
      | nil => simp [qatom, qatomGo] at h
      | cons d s =>
        rw [qatom_backslash] at h
        obtain ⟨q, hq, he⟩ := Option.map_eq_some_iff.mp h
        cases he
        exact escape d s q.1 q.2 hq
          (ih s.length (by rw [List.length_cons, List.length_cons]; omega) s _ _ hq rfl)
    by_cases h2 : c = dollar
    · subst h2
      rw [qatom_dollar] at h
      obtain ⟨q, hq, he⟩ := Option.map_eq_some_iff.mp h
      cases he
      have hv := val_length_le (w := w) (p := p) s
      exact ref s q.1 q.2 hq (ih _ (by rw [List.length_cons]; omega) _ _ _ hq rfl)
    by_cases h3 : c = dquote
    · subst h3
      rw [qatom_dquote] at h
      cases h
      exact close s
    · rw [qatom_other h1 h2 h3] at h
      obtain ⟨q, hq, he⟩ := Option.map_eq_some_iff.mp h
      cases he
      exact literal c s q.1 q.2 h1 h2 h3 hq (ih s.length (by simp) s _ _ hq rfl)

/-- **What is left after quoted text is a suffix of it, empty or at a closing quote.** -/
theorem qatom_suffix {s t r : Bytes} (h : qatom w p s = some (t, r)) :
    r <:+ s ∧ ∀ c ∈ r.head?, c = dquote := by
  refine qatom_induct (P := fun s _ r ↦ r <:+ s ∧ ∀ c ∈ r.head?, c = dquote)
    ?_ ?_ ?_ ?_ ?_ s t r h
  · exact ⟨List.suffix_rfl, by simp⟩
  · rintro d s t r - ⟨hs, hr⟩
    exact ⟨(hs.trans (List.suffix_cons d s)).trans (List.suffix_cons backslash _), hr⟩
  · rintro s t r - ⟨hs, hr⟩
    obtain ⟨pre, hpre, -⟩ := val_suffix (w := w) (p := p) s
    exact ⟨(hs.trans ⟨pre, hpre.symm⟩).trans (List.suffix_cons dollar s), hr⟩
  · exact fun s ↦ ⟨List.suffix_rfl, by simp⟩
  · rintro c s t r - - - - ⟨hs, hr⟩
    exact ⟨hs.trans (List.suffix_cons c s), hr⟩

/-! ## Tokens -/

theorem tokenAtom_suffix (s : Bytes) : (tokenAtom s).2 <:+ s :=
  (List.dropWhile_suffix _).trans <| (List.dropWhile_suffix _).trans <|
    (List.dropWhile_suffix _).trans (List.dropWhile_suffix _)

theorem tokenAtom_isAtom (s : Bytes) : ∀ c ∈ (tokenAtom s).1, isAtom c = true :=
  fun _ h ↦ List.mem_takeWhile_imp h

/-- **A token is quoted text that was closed, or a bare word.** -/
theorem token_cases {s t r : Bytes} (h : token w p s = some (t, r)) :
    (∃ q q', dquote :: q <:+ s ∧ qatom w p q = some (t, dquote :: q') ∧ r <:+ q') ∨
      (t, r) = tokenAtom s := by
  have hsuf := List.dropWhile_suffix (l := s) isspace
  rw [token] at h
  split at h
  · rename_i c q hd
    rw [hd] at hsuf
    split at h
    · rename_i hc
      subst hc
      obtain ⟨⟨t', r'⟩, hq, he⟩ := Option.map_eq_some_iff.mp h
      cases r' with
      | nil => exact .inr he.symm
      | cons d r' =>
        obtain rfl : d = dquote := (qatom_suffix hq).2 d rfl
        simp only [if_pos, Prod.mk.injEq] at he
        exact .inl ⟨q, r', hsuf, he.1 ▸ hq, he.2 ▸ List.dropWhile_suffix _⟩
    · exact .inr (Option.some.inj h).symm
  · exact .inr (Option.some.inj h).symm

theorem token_suffix {s t r : Bytes} (h : token w p s = some (t, r)) : r <:+ s := by
  rcases token_cases h with ⟨q, q', hs, hq, hr⟩ | h
  · have h1 := (List.suffix_cons dquote q').trans (qatom_suffix hq).1
    exact hr.trans (h1.trans ((List.suffix_cons dquote q).trans hs))
  · rw [show r = (tokenAtom s).2 by rw [← h]]
    exact tokenAtom_suffix s

theorem isspace_of_isAtom {c : UInt8} (hc : isAtom c = true) : isspace c = false := by
  by_contra h
  rw [Bool.not_eq_false] at h
  simp only [isspace, Bool.or_eq_true, beq_iff_eq, Bool.and_eq_true, decide_eq_true_eq] at h
  rcases h with rfl | h
  · exact absurd hc (by decide)
  · simp only [UInt8.le_iff_toNat_le] at h
    simp only [isAtom, isalnum, isalpha, isupper, islower, isdigit, Bool.or_eq_true,
      Bool.and_eq_true, decide_eq_true_eq, beq_iff_eq, UInt8.le_iff_toNat_le,
      ← UInt8.toNat_inj] at hc
    have h13 : (13 : UInt8).toNat = 13 := rfl
    have h48 : (48 : UInt8).toNat = 48 := rfl
    have h65 : (65 : UInt8).toNat = 65 := rfl
    have h97 : (97 : UInt8).toNat = 97 := rfl
    have h95 : underscore.toNat = 95 := rfl
    omega

/-- A bare word with nothing before it. -/
theorem token_atom {s r : Bytes} (hne : s ≠ []) (hs : ∀ c ∈ s, isAtom c = true)
    (hr : ∀ c ∈ r.head?, isAtom c = false ∧ isspace c = false) :
    token w p (s ++ r) = some (s, r) := by
  obtain ⟨c, t, rfl⟩ := List.exists_cons_of_ne_nil hne
  have hc : isAtom c = true := hs c List.mem_cons_self
  have hsp : isspace c = false := isspace_of_isAtom hc
  have hd : ((c :: t) ++ r).dropWhile isspace = (c :: t) ++ r := by simp [hsp]
  have hrd : r.dropWhile isspace = r := by
    cases r with
    | nil => rfl
    | cons d r => simp [(hr d rfl).2]
  obtain ⟨htake, hdrop⟩ := span_eq hs fun d hd ↦ (hr d hd).1
  have ha : tokenAtom ((c :: t) ++ r) = (c :: t, r) := by
    simp only [tokenAtom, hd, atom, htake, hdrop, hrd]
  have hq : c ≠ dquote := ne_of_class hc (by decide)
  rw [token, hd, List.cons_append]
  simp only [if_neg hq]
  rw [← List.cons_append, ha]

theorem token_quoted (s : Bytes) :
    token w p (dquote :: s) = (qatom w p s).map fun q ↦
      match q.2 with
      | d :: r => if d = dquote then (q.1, r.dropWhile isspace) else ([], dquote :: s)
      | [] => ([], dquote :: s) := by
  have hsp : isspace dquote = false := by decide
  have hat : isAtom dquote = false := by decide
  have ha : tokenAtom (dquote :: s) = ([], dquote :: s) := by
    simp [tokenAtom, atom, hsp, hat]
  rw [token]
  simp only [List.dropWhile_cons_of_neg (show ¬ isspace dquote = true by simp [hsp]), if_pos, ha]

end Setup
