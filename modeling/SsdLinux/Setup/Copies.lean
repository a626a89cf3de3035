import SsdLinux.Setup.Getarg

/-!
# Decoded copies

`ring_htdecode` decodes a value from where it stands in the buffer into a copy.  It steps over three
bytes at a `%` and over one anywhere else (`Steps`), so a `%` close to the end of the value takes it
over the NUL, into whatever follows.  `Stays` says that it comes to a NUL in the end, and that what
it has written by then fits into the copy; that is when there is a copy (`copyOf_ne_none_iff`).

An argument without a `=` decodes the copy of the argument before it.  `copyArgs` keeps the copies
whole for that, with what stands in them behind their first NUL; `SsdLinux.Setup.Getarg` looks no
further than that NUL, and where it gives the arguments of a text, they are the same
(`copyArgs_of_decodeArgs`).
-/

set_option autoImplicit false

namespace Setup

open CLib

/-! ## Decoded copies -/

/-- What `ring_htdecode` writes, its NUL included, when `str` points to the beginning of `mem`.  It
has allocated three bytes for each byte of the string, and one. -/
def copyOf (mem : Bytes) : Option Bytes :=
  ((htdecodeGo (mem.length + 1) mem).filter fun t ↦
    decide (t.length ≤ 3 * (cString mem).length)).map (· ++ [0])

/-- Where `ring_htdecode` gets to: three bytes on at a `%`, one at any other byte, up to a NUL after
`n` steps. -/
inductive Steps : Bytes → ℕ → Prop
  | nul (mem : Bytes) : Steps (0 :: mem) 0
  | byte {c : UInt8} {mem : Bytes} {n : ℕ} (h0 : c ≠ 0) (hc : c ≠ percent) (h : Steps mem n) :
    Steps (c :: mem) (n + 1)
  | escape {mem : Bytes} {n : ℕ} (a b : UInt8) (h : Steps mem n) :
    Steps (percent :: a :: b :: mem) (n + 1)

/-- The steps end in the memory, and there is room for what they write. -/
def Stays (mem : Bytes) : Prop := ∃ n ≤ 3 * (cString mem).length, Steps mem n

theorem steps_of_htdecodeGo {k : ℕ} {mem t : Bytes} (h : htdecodeGo k mem = some t) :
    Steps mem t.length := by
  induction k generalizing mem t with
  | zero => cases h
  | succ k ih =>
    rcases mem with _ | ⟨c, mem⟩
    · cases h
    rw [htdecodeGo] at h
    split_ifs at h with h0 hplus hpct hlen
    · cases h
      exact h0 ▸ .nul mem
    · obtain ⟨t, ht, rfl⟩ := Option.map_eq_some_iff.mp h
      exact .byte h0 (by rw [hplus]; decide) (ih ht)
    · obtain ⟨t, ht, rfl⟩ := Option.map_eq_some_iff.mp h
      rcases mem with _ | ⟨a, _ | ⟨b, mem⟩⟩
      · exact absurd (Nat.zero_lt_two) hlen
      · exact absurd (Nat.one_lt_two) hlen
      · exact hpct ▸ .escape a b (ih ht)
    · obtain ⟨t, ht, rfl⟩ := Option.map_eq_some_iff.mp h
      exact .byte h0 hpct (ih ht)

theorem htdecodeGo_of_steps {k n : ℕ} {mem : Bytes} (h : Steps mem n) (hk : mem.length < k) :
    ∃ t, htdecodeGo k mem = some t ∧ t.length = n := by
  induction h generalizing k with
  | nul mem =>
    obtain ⟨k, rfl⟩ := Nat.exists_eq_succ_of_ne_zero (Nat.ne_zero_of_lt hk)
    exact ⟨[], rfl, rfl⟩
  | @byte c mem n h0 hc h ih =>
    obtain ⟨k, rfl⟩ := Nat.exists_eq_succ_of_ne_zero (Nat.ne_zero_of_lt hk)
    obtain ⟨t, ht, rfl⟩ := ih (Nat.lt_of_succ_lt_succ hk)
    rw [htdecodeGo, if_neg h0, if_neg hc, ht]
    split
    · exact ⟨_, rfl, List.length_cons⟩
    · exact ⟨_, rfl, List.length_cons⟩
  | @escape mem n a b h ih =>
    obtain ⟨k, rfl⟩ := Nat.exists_eq_succ_of_ne_zero (Nat.ne_zero_of_lt hk)
    rw [List.length_cons, List.length_cons, List.length_cons] at hk
    obtain ⟨t, ht, rfl⟩ := ih (by omega : mem.length < k)
    rw [htdecodeGo, if_neg (by decide), if_neg (by decide), if_pos rfl, if_neg (by simp)]
    simp only [List.drop_succ_cons, List.drop_zero, ht]
    exact ⟨_, rfl, List.length_cons⟩

/-- **When a value can be decoded.** -/
theorem copyOf_ne_none_iff {mem : Bytes} : copyOf mem ≠ none ↔ Stays mem := by
  rw [Option.ne_none_iff_exists', copyOf]
  constructor
  · rintro ⟨copy, h⟩
    obtain ⟨t, ht, -⟩ := Option.map_eq_some_iff.mp h
    obtain ⟨ht, hlen⟩ := Option.filter_eq_some_iff.mp ht
    exact ⟨t.length, of_decide_eq_true hlen, steps_of_htdecodeGo ht⟩
  · rintro ⟨n, hn, h⟩
    obtain ⟨t, ht, rfl⟩ := htdecodeGo_of_steps h (Nat.lt_succ_self _)
    exact ⟨t ++ [0], by rw [ht, Option.filter_some, if_pos (decide_eq_true hn), Option.map_some]⟩

/-! ## The arguments of a text -/

/-- The pieces between the `&`s. -/
def pieces (text : Bytes) : List Bytes := if text = [] then [] else text.splitOn ampersand

/-- The name of an argument. -/
def pieceName (piece : Bytes) : Bytes := piece.takeWhile (· ≠ equals)

/-- What stands behind the first `=`. -/
def pieceValue (piece : Bytes) : Bytes := (piece.dropWhile (· ≠ equals)).tail

/-- What stands behind an argument in the buffer. -/
def behind (after : Bytes) (pieces : List Bytes) : Bytes :=
  if pieces = [] then after else [ampersand].intercalate pieces ++ 0 :: after

/-- The memory that an argument's value is decoded from: the buffer from behind its `=` on, or
without a `=` the copy that the argument before it left. -/
def valueMem (after piece : Bytes) (pieces : List Bytes) (copy : Bytes) : Bytes :=
  if equals ∈ piece then pieceValue piece ++ 0 :: behind after pieces else copy

/-- The arguments with their values, where every copy is kept whole. -/
def copyArgs (after : Bytes) : List Bytes → Bytes → Option (List Arg)
  | [], _ => some []
  | piece :: pieces, copy =>
    (copyOf (valueMem after piece pieces copy)).bind fun copy ↦
      (copyArgs after pieces copy).map fun args ↦ (pieceName piece, cString copy) :: args

/-- A piece of the text: no separator, and no NUL. -/
structure IsPiece (piece : Bytes) : Prop where
  noAmp : ampersand ∉ piece
  noNul : 0 ∉ piece

theorem piece_eq {piece : Bytes} (h : equals ∈ piece) :
    piece = pieceName piece ++ equals :: pieceValue piece := by
  have hspan := List.takeWhile_append_dropWhile (p := fun c ↦ decide (c ≠ equals)) (l := piece)
  have hhead := List.head?_dropWhile_not (fun c ↦ decide (c ≠ equals)) piece
  rw [pieceName, pieceValue]
  cases hd : piece.dropWhile fun c ↦ decide (c ≠ equals) with
  | nil => exact absurd (List.dropWhile_eq_nil_iff.mp hd equals h) (by simp)
  | cons c r =>
    rw [hd] at hhead hspan
    obtain rfl : c = equals := by simpa using hhead
    exact hspan.symm

theorem pieceName_eq_self {piece : Bytes} (h : equals ∉ piece) : pieceName piece = piece :=
  List.takeWhile_eq_self_iff.mpr fun c hc ↦ by simpa using fun he : c = equals ↦ h (he ▸ hc)

theorem equals_notMem_pieceName (piece : Bytes) : equals ∉ pieceName piece := fun h ↦ by
  simpa using List.mem_takeWhile_imp h

theorem mem_of_mem_pieceName {piece : Bytes} {c : UInt8} (h : c ∈ pieceName piece) : c ∈ piece :=
  (List.takeWhile_prefix _).subset h

/-! ## The text -/

theorem intercalate_concat_nil {l : List Bytes} (hl : l ≠ []) (x : UInt8) :
    [x].intercalate (l ++ [[]]) = [x].intercalate l ++ [x] := by
  induction l with
  | nil => exact absurd rfl hl
  | cons a l ih =>
    by_cases hnil : l = []
    · subst hnil
      simp [List.intercalate_cons_cons]
    · rw [List.cons_append, List.intercalate_cons_of_ne_nil (by simp),
        List.intercalate_cons_of_ne_nil hnil, ih hnil]
      simp

/-- An induction over the pieces of a text. -/
theorem splitOn_induct {x : UInt8} {P : Bytes → List Bytes → Prop}
    (one : ∀ s, x ∉ s → P s [s])
    (cons : ∀ s r, x ∉ s → P r (r.splitOn x) → P (s ++ x :: r) (s :: r.splitOn x)) (s : Bytes) :
    P s (s.splitOn x) := by
  induction hn : s.length using Nat.strong_induction_on generalizing s with
  | h n ih =>
    by_cases hx : x ∈ s
    · obtain ⟨a, b, rfl, ha⟩ := List.eq_append_cons_of_mem hx
      rw [List.splitOn_append_cons_self_of_not_mem ha]
      refine cons a b ha (ih b.length ?_ b rfl)
      rw [← hn, List.length_append, List.length_cons]
      omega
    · rw [List.splitOn_eq_singleton hx]
      exact one s hx

theorem length_splitOn (x : UInt8) (s : Bytes) : (s.splitOn x).length = s.count x + 1 := by
  refine splitOn_induct (P := fun s l ↦ l.length = s.count x + 1) (fun s hs ↦ ?_)
    (fun s r hs ih ↦ ?_) s
  · rw [List.count_eq_zero_of_not_mem hs, List.length_singleton]
  · rw [List.length_cons, ih, List.count_append, List.count_eq_zero_of_not_mem hs,
      List.count_cons_self, Nat.zero_add]

theorem mem_splitOn {x : UInt8} {s piece : Bytes} (h : piece ∈ s.splitOn x) :
    x ∉ piece ∧ ∀ c ∈ piece, c ∈ s := by
  refine splitOn_induct (P := fun s l ↦ ∀ piece ∈ l, x ∉ piece ∧ ∀ c ∈ piece, c ∈ s)
    (fun s hs ↦ ?_) (fun s r hs ih ↦ ?_) s piece h
  · exact List.forall_mem_singleton.mpr ⟨hs, fun _ hc ↦ hc⟩
  · refine List.forall_mem_cons.mpr ⟨⟨hs, fun c hc ↦ List.mem_append_left _ hc⟩, ?_⟩
    intro piece hp
    exact ⟨(ih piece hp).1, fun c hc ↦
      List.mem_append_right _ (List.mem_cons_of_mem _ ((ih piece hp).2 c hc))⟩

theorem isPiece_of_mem {text piece : Bytes} (h0 : 0 ∉ text) (h : piece ∈ pieces text) :
    IsPiece piece := by
  rw [pieces] at h
  split at h
  · cases h
  · obtain ⟨hamp, hsub⟩ := mem_splitOn h
    exact ⟨hamp, fun h0' ↦ h0 (hsub 0 h0')⟩

/-- The text ends in an `&`. -/
theorem pieces_getLast?_iff {text : Bytes} :
    (pieces text).getLast? = some [] ↔ text.getLast? = some ampersand := by
  rw [pieces]
  split
  · rename_i hnil
    simp [hnil]
  rename_i hne
  have htext : [ampersand].intercalate (text.splitOn ampersand) = text :=
    List.intercalate_splitOn ampersand
  constructor
  · intro h
    obtain ⟨l, hl⟩ : ∃ l, text.splitOn ampersand = l ++ [[]] :=
      ⟨_, (List.dropLast_append_getLast? _ h).symm⟩
    have hl0 : l ≠ [] := by
      rintro rfl
      rw [hl] at htext
      exact hne htext.symm
    rw [hl, intercalate_concat_nil hl0] at htext
    rw [← htext, List.getLast?_concat]
  · intro h
    obtain ⟨t, rfl⟩ : ∃ t, text = t ++ [ampersand] :=
      ⟨_, (List.dropLast_append_getLast? _ h).symm⟩
    rw [List.splitOn_append_cons_self, List.splitOn_nil, List.getLast?_concat]

/-! ## The list of arguments -/

/-- A run that ends does not look at what follows. -/
theorem htdecodeGo_append {k k' : ℕ} {mem t : Bytes} (r : Bytes) (h : htdecodeGo k mem = some t)
    (hk : mem.length + r.length < k') : htdecodeGo k' (mem ++ r) = some t := by
  induction k generalizing mem t k' with
  | zero => cases h
  | succ k ih =>
    obtain ⟨k', rfl⟩ := Nat.exists_eq_succ_of_ne_zero (Nat.ne_zero_of_lt hk)
    rcases mem with _ | ⟨c, mem⟩
    · cases h
    rw [List.length_cons] at hk
    rw [htdecodeGo] at h
    rw [List.cons_append, htdecodeGo]
    split_ifs at h ⊢ with h0 hplus hpct hlen
    · exact h
    · obtain ⟨t, ht, rfl⟩ := Option.map_eq_some_iff.mp h
      rw [ih ht (by omega), Option.map_some]
    · rw [List.length_append] at *
      omega
    · obtain ⟨t, ht, rfl⟩ := Option.map_eq_some_iff.mp h
      rcases mem with _ | ⟨a, _ | ⟨b, mem⟩⟩
      · exact absurd Nat.zero_lt_two ‹_›
      · exact absurd Nat.one_lt_two ‹_›
      · rw [List.length_cons, List.length_cons] at hk
        have hrest : htdecodeGo k' (mem ++ r) = some t := ih ht (by omega)
        simp only [List.cons_append, List.drop_succ_cons, List.drop_zero, hrest, Option.map_some]
        rfl
    · obtain ⟨t, ht, rfl⟩ := Option.map_eq_some_iff.mp h
      rw [ih ht (by omega), Option.map_some]

/-- What `htdecode` makes of a string, `ring_htdecode` leaves as its copy. -/
theorem copyOf_of_htdecode {s v r : Bytes} (h0 : 0 ∉ s) {r' : Bytes}
    (h : htdecode s r = some v) (hr : r <+: r') :
    ∃ copy, copyOf (s ++ 0 :: r') = some copy ∧ cString copy = v := by
  obtain ⟨r'', rfl⟩ := hr
  rw [htdecode] at h
  obtain ⟨t, ht, rfl⟩ := Option.map_eq_some_iff.mp h
  obtain ⟨ht, hlen⟩ := Option.filter_eq_some_iff.mp ht
  have hmem : s ++ 0 :: (r ++ r'') = (s ++ 0 :: r) ++ r'' := by simp
  have hk : (s ++ 0 :: r).length + r''.length < ((s ++ 0 :: r) ++ r'').length + 1 := by
    rw [@List.length_append _ (s ++ 0 :: r) r'']
    exact Nat.lt_succ_self _
  refine ⟨t ++ [0], ?_, cString_append_nul t []⟩
  rw [copyOf, hmem, htdecodeGo_append r'' ht hk, Option.filter_some, ← hmem, cString_append h0,
    if_pos hlen, Option.map_some]

theorem nul_mem_copyOf {mem copy : Bytes} (h : copyOf mem = some copy) : 0 ∈ copy := by
  rw [copyOf] at h
  obtain ⟨t, -, rfl⟩ := Option.map_eq_some_iff.mp h
  simp

/-- Where `SsdLinux.Setup.Getarg` gives the arguments of a text, these are the ones. -/
theorem copyArgs_of_decodeGo {after : Bytes} {l : List Bytes} {args : List Arg} {copy : Bytes}
    (hl : ∀ piece ∈ l, IsPiece piece) (hcopy : 0 ∈ copy)
    (h : decodeGo after l (cString copy) = some args) : copyArgs after l copy = some args := by
  induction l generalizing copy args with
  | nil => exact h
  | cons piece l ih =>
    rw [List.forall_mem_cons] at hl
    rw [decodeGo] at h
    obtain ⟨v, hv, h⟩ := Option.bind_eq_some_iff.mp h
    obtain ⟨rest, hrest, rfl⟩ := Option.map_eq_some_iff.mp h
    obtain ⟨copy', hcopy', rfl⟩ : ∃ copy', copyOf (valueMem after piece l copy) = some copy' ∧
        cString copy' = v := by
      rw [valueMem]
      split at hv
      · rename_i heq
        have h0 : 0 ∉ pieceValue piece := fun h0 ↦
          hl.1.noNul (piece_eq heq ▸ List.mem_append_right _ (List.mem_cons_of_mem _ h0))
        rw [if_pos heq]
        exact copyOf_of_htdecode h0 hv (List.prefix_refl _)
      · rename_i heq
        obtain ⟨r, hr⟩ := exists_eq_cString hcopy
        rw [if_neg heq, hr]
        exact copyOf_of_htdecode (nul_notMem_cString copy) hv (List.nil_prefix)
    rw [copyArgs, hcopy', Option.bind_some, ih hl.2 (nul_mem_copyOf hcopy') hrest]
    rfl

theorem copyArgs_of_decodeArgs {text after : Bytes} {args : List Arg} (h0 : 0 ∉ text)
    (h : decodeArgs text after = some args) : copyArgs after (pieces text) [0] = some args :=
  copyArgs_of_decodeGo (fun _ hp ↦ isPiece_of_mem h0 hp) List.mem_cons_self h

end Setup
