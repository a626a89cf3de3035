import SsdLinux.CLib.Block
import SsdLinux.CLib.Int

/-!
# `setup`: texts that grow

Everything that `setup.cgi` puts out is put together in a `Str`, a block of memory with the length
of the text in it and its own size, both in an `int`.  A text that is appended and does not fit
makes the block larger (`growLoop`), by a copy into a new one (`str_resize`).

* An append leaves one byte more than it needs (`Str.Kept`), so that the NUL has its place and a
  block is made larger at most once (`Str.Kept.growLoop`).
* The new size is reckoned in an `int`.  One that does not fit into it is smaller than the old size,
  and then `str_resize` cuts the text instead (`grow_overflow`).
* A `Str` that is appended to itself is read while it is written, or after it has been freed
  (`Str.Kept.self_spec`).

`str_right_iff` says for which sequences of operations nothing of this happens.
-/

set_option autoImplicit false

namespace Setup

open CLib Slots

/-- `Str`.  Blocks are numbered in the order in which they are allocated, and `adr` is the number of
the one that `str` points to. -/
structure Str where
  len : ℤ
  sz : ℤ
  adr : ℕ
  str : Block
deriving DecidableEq

/-- `str_new`. -/
def strNew : Str := { len := 0, sz := 16 * 2, adr := 0, str := (fresh 32).set 0 (some 0) }

/-- `s->str[i] = '\0'`. -/
def Str.cut (s : Str) (i : ℤ) : Option Block :=
  if i < 0 then none else store s.str i.toNat (some 0)

/-- `str_resize`. -/
def strResize (s : Str) (sz : ℤ) : Option Str :=
  if sz < s.sz then (s.cut sz).map fun str ↦ { s with len := sz, sz, str }
  else
    (stringIn s.str).bind fun old ↦
    (strcpy (fresh sz.toNat) old).map fun str ↦ { s with sz, adr := s.adr + 1, str }

/-- `str_trunc`. -/
def strTrunc (s : Str) (len : ℤ) : Option Str :=
  if len < s.sz then (s.cut len).map fun str ↦ { s with len, str } else some s

/-- A text of this length does not fit. -/
def Str.Full (s : Str) (len : ℤ) : Prop := s.sz - 1 ≤ asInt (len + s.len)

instance decidableFull (s : Str) (len : ℤ) : Decidable (s.Full len) :=
  inferInstanceAs (Decidable (_ ≤ _))

/-- A turn of the loop of `str_append_charp`. -/
def grow (len : ℤ) (s : Str) : Option Str := strResize s (asInt (s.sz * 2 + len + 1))

/-- The loop of `str_append_charp`. -/
def growLoop (len : ℤ) : ℕ → Str → Option Str
  | 0, _ => none
  | fuel + 1, s => if s.Full len then (grow len s).bind (growLoop len fuel) else some s

/-- What `str_append_charp` does behind its loop, with the block that `strcat` makes. -/
def Str.appended (s : Str) (len : ℤ) (str : Block) : Str :=
  if s.Full len then { s with str } else { s with len := asInt (s.len + len), str }

/-- `str_append_charp`. -/
def strAppendCharp (fuel : ℕ) (s : Str) : Option Bytes → Option Str
  | none => some s
  | some p =>
    (growLoop (asInt p.length) fuel s).bind fun s ↦
    (strcat s.str p).map (s.appended (asInt p.length))

/-- The string of one character, which is empty if the character is a NUL. -/
def charString (c : ℤ) : Bytes := [UInt8.ofNat (c % 256).toNat].filter (· ≠ 0)

/-- `str_append_char`. -/
def strAppendChar (fuel : ℕ) (s : Str) (c : ℤ) : Option Str :=
  strAppendCharp fuel s (some (charString c))

/-- `str_append_str` with another `Str`. -/
def strAppendStr (fuel : ℕ) (s s2 : Str) : Option Str :=
  (stringIn s2.str).bind fun p ↦ strAppendCharp fuel s (some p)

/-- `str_append_str` with the `Str` itself.  When the block has been replaced, the one that `p`
points to has been freed. -/
def strAppendSelf (fuel : ℕ) (s : Str) : Option Str :=
  (stringIn s.str).bind fun p ↦
  (growLoop (asInt p.length) fuel s).bind fun s' ↦
  if s'.adr ≠ s.adr then none
  else (strcatWithin s'.str).map (s'.appended (asInt p.length))

/-! ## Sequences of operations -/

/-- The text that a `Str` holds, with its length and its size as they should be. -/
structure Str.Tight (s : Str) (text : Bytes) : Prop where
  holds : stringIn s.str = some text
  len : s.len = text.length
  room : s.len < s.sz
  block : s.str.length = s.sz

/-- Another `Str`. -/
structure OtherStr where
  str : Str
  text : Bytes
  tight : str.Tight text

inductive StrOp
  | charp (p : Option CString)
  | char (c : ℤ)
  | str (s2 : OtherStr)
  | self
  | trunc

def StrOp.run (fuel : ℕ) (s : Str) : StrOp → Option Str
  | .charp p => strAppendCharp fuel s (p.map CString.bytes)
  | .char c => strAppendChar fuel s c
  | .str s2 => strAppendStr fuel s s2.str
  | .self => strAppendSelf fuel s
  | .trunc => strTrunc s 0

/-- The text that an operation appends to another one. -/
def StrOp.operand (text : Bytes) : StrOp → Bytes
  | .charp p => (p.map CString.bytes).getD []
  | .char c => charString c
  | .str s2 => s2.text
  | .self => text
  | .trunc => []

/-- Everything that has been appended since the text was last truncated. -/
def StrOp.after (text : Bytes) : StrOp → Bytes
  | .trunc => []
  | op => text ++ op.operand text

/-- The `Str`s that the loop of an append comes to. -/
inductive Grows (len : ℤ) : Str → Str → Prop
  | refl (s : Str) : Grows len s s
  | turn {s s₁ s' : Str} : s.Full len → grow len s = some s₁ → Grows len s₁ s' → Grows len s s'

/-- From a `Str` with a text on everything is as it should be: the `Str` itself, each one that the
loop of the next operation comes to, and what the operation makes of it. -/
def RightFrom : Str → Bytes → List StrOp → Prop
  | s, text, [] => s.Tight text
  | s, text, op :: ops =>
    s.Tight text ∧
      (∀ s', Grows (asInt (op.operand text).length) s s' → s'.Tight text) ∧
      ∃ fuel s', op.run fuel s = some s' ∧ RightFrom s' (op.after text) ops

/-- These operations on a new `Str` are right. -/
def StrRight (ops : List StrOp) : Prop := RightFrom strNew [] ops

/-- A block of `z` bytes has room for `n` more of them behind a text, or can be made larger. -/
def CanGrow (text : Bytes) (z : ℤ) (n : ℕ) : Prop :=
  (text.length + n : ℤ) < 2147483648 ∧
    (z ≤ text.length + n + 1 → 2 * z + n + 1 < 2147483648)

/-- An operation has room. -/
def StrOp.HasRoom (text : Bytes) (z : ℤ) : StrOp → Prop
  | .self => text = []
  | op => CanGrow text z (op.operand text).length

/-- The size of a block of `z` bytes, when there are `n` more bytes to be put behind a text. -/
def sizeFor (text : Bytes) (z : ℤ) (n : ℕ) : ℤ :=
  if z ≤ text.length + n + 1 then 2 * z + n + 1 else z

/-- All operations have room. -/
def HaveRoom : Bytes → ℤ → List StrOp → Prop
  | _, _, [] => True
  | text, z, op :: ops =>
    op.HasRoom text z ∧ HaveRoom (op.after text) (sizeFor text z (op.operand text).length) ops

/-! ## Growing -/

variable {s s' s₁ : Str} {text p : Bytes} {len : ℤ} {fuel n : ℕ} {op : StrOp}

/-- A `Str` as the operations leave it, with a byte to spare. -/
structure Str.Kept (s : Str) (text : Bytes) : Prop extends s.Tight text where
  spare : text.length + 1 < s.sz
  small : s.sz < 2147483648

theorem kept_strNew : strNew.Kept [] where
  holds := by decide
  len := rfl
  room := by decide
  block := by decide
  spare := by decide
  small := by decide

/-- **What `str_resize` does.** -/
theorem strResize_cases {sz : ℤ} (h : strResize s sz = some s') :
    s'.sz = sz ∧
      ((sz < s.sz ∧ s'.len = sz ∧ s'.adr = s.adr) ∨ (s.sz ≤ sz ∧ s'.adr = s.adr + 1)) := by
  rw [strResize] at h
  split_ifs at h with hlt
  · obtain ⟨str, -, rfl⟩ := Option.map_eq_some_iff.1 h
    exact ⟨rfl, .inl ⟨hlt, rfl, rfl⟩⟩
  · obtain ⟨old, -, h⟩ := Option.bind_eq_some_iff.1 h
    obtain ⟨str, -, rfl⟩ := Option.map_eq_some_iff.1 h
    exact ⟨rfl, .inr ⟨Int.not_lt.1 hlt, rfl⟩⟩

theorem growLoop_of_full (h : s.Full len) (fuel : ℕ) :
    growLoop len (fuel + 1) s = (grow len s).bind (growLoop len fuel) := if_pos h

theorem growLoop_of_not_full (h : ¬s.Full len) (fuel : ℕ) :
    growLoop len (fuel + 1) s = some s := if_neg h

/-- **What the loop does** in its first turn. -/
theorem growLoop_cases (h : growLoop len fuel s = some s') :
    ∃ n, fuel = n + 1 ∧
      (¬s.Full len ∧ s' = s ∨
        s.Full len ∧ ∃ s₁, grow len s = some s₁ ∧ growLoop len n s₁ = some s') := by
  cases fuel with
  | zero => cases h
  | succ n =>
    refine ⟨n, rfl, ?_⟩
    by_cases hfull : s.Full len
    · rw [growLoop_of_full hfull] at h
      exact .inr ⟨hfull, Option.bind_eq_some_iff.1 h⟩
    · rw [growLoop_of_not_full hfull] at h
      exact .inl ⟨hfull, (Option.some.inj h).symm⟩

/-- What the loop leaves alone. -/
theorem growLoop_frame (h : growLoop len fuel s = some s') :
    s.adr ≤ s'.adr ∧ (s.sz < 2147483648 → s'.sz < 2147483648) := by
  induction fuel generalizing s with
  | zero => cases h
  | succ fuel ih =>
    obtain ⟨n, hn, ⟨-, rfl⟩ | ⟨-, s₁, hgrow, hloop⟩⟩ := growLoop_cases h
    · exact ⟨Nat.le_refl _, id⟩
    · obtain rfl := Nat.succ.inj hn
      obtain ⟨hadr, hsz⟩ := ih hloop
      obtain ⟨hsz₁, hcases⟩ := strResize_cases hgrow
      have hbound := (asInt_bounds (s.sz * 2 + len + 1)).2
      exact ⟨by omega, fun _ ↦ hsz (by omega)⟩

theorem growLoop_mono (h : growLoop len fuel s = some s') (hle : fuel ≤ n) :
    growLoop len n s = some s' := by
  induction fuel generalizing s n with
  | zero => cases h
  | succ fuel ih =>
    obtain ⟨n, rfl⟩ := Nat.exists_eq_add_of_le' (Nat.one_le_of_lt hle)
    obtain ⟨m, hm, ⟨hnot, rfl⟩ | ⟨hfull, s₁, hgrow, hloop⟩⟩ := growLoop_cases h
    · exact growLoop_of_not_full hnot n
    · obtain rfl := Nat.succ.inj hm
      rw [growLoop_of_full hfull, hgrow]
      exact ih hloop (Nat.le_of_succ_le_succ hle)

theorem grows_of_not_full (h : ¬s.Full len) (hg : Grows len s s') : s' = s := by
  cases hg with
  | refl => rfl
  | turn hfull _ _ => exact absurd hfull h

theorem Str.Tight.full_iff (hs : s.Tight text) (hfits : (text.length + n : ℤ) < 2147483648) :
    s.Full n ↔ s.sz ≤ text.length + n + 1 := by
  have hlen := hs.len
  rw [Str.Full, asInt_of_lt (by omega) (by omega)]
  omega

/-- **A larger block.** -/
theorem Str.Kept.grow (hs : s.Kept text) (hroom : 2 * s.sz + n + 1 < 2147483648) :
    ∃ s₁, grow n s = some s₁ ∧ s₁.Kept text ∧ s₁.sz = 2 * s.sz + n + 1 := by
  have hlen := hs.len
  have hspare := hs.spare
  have hsz : asInt (s.sz * 2 + n + 1) = 2 * s.sz + n + 1 := by
    rw [asInt_of_lt (by omega) (by omega)]
    omega
  have hfresh : (fresh (2 * s.sz + n + 1).toNat : Block).length = (2 * s.sz + n + 1).toNat :=
    List.length_replicate
  have hlt : text.length < (fresh (2 * s.sz + n + 1).toNat : Block).length := by omega
  obtain ⟨str, hcopy, hblock, hstring⟩ := strcpy_spec (stringIn_eq_some_iff.1 hs.holds).2 hlt
  refine ⟨{ s with sz := 2 * s.sz + n + 1, adr := s.adr + 1, str }, ?_, ?_, rfl⟩
  · rw [Setup.grow, hsz, strResize, if_neg (by omega), hs.holds, Option.bind_some, hcopy]
    rfl
  · exact ⟨⟨hstring, hlen, by dsimp only; omega, by dsimp only; omega⟩, by dsimp only; omega, hroom⟩

/-- **The loop** makes a block larger once at most. -/
theorem Str.Kept.growLoop (hs : s.Kept text) (hroom : CanGrow text s.sz n) :
    ∃ s₁, growLoop n 2 s = some s₁ ∧ s₁.Kept text ∧ s₁.sz = sizeFor text s.sz n ∧
      ¬s₁.Full n ∧ ∀ s', Grows n s s' → s'.Tight text := by
  obtain ⟨hfits, hlarger⟩ := hroom
  by_cases hfull : s.Full n
  · have hsz := (hs.toTight.full_iff hfits).1 hfull
    obtain ⟨s₁, hgrow, hs₁, hsz₁⟩ := hs.grow (hlarger hsz)
    have hspare := hs.spare
    have hnot : ¬s₁.Full n := by
      rw [hs₁.toTight.full_iff hfits]
      omega
    refine ⟨s₁, ?_, hs₁, by rw [sizeFor, if_pos hsz, hsz₁], hnot, fun s' hgrows ↦ ?_⟩
    · rw [growLoop_of_full hfull, hgrow]
      exact growLoop_of_not_full hnot 0
    · cases hgrows with
      | refl => exact hs.toTight
      | turn _ hgrow' hgrows =>
        obtain rfl := Option.some.inj (hgrow.symm.trans hgrow')
        rw [grows_of_not_full hnot hgrows]
        exact hs₁.toTight
  · have hsz : ¬s.sz ≤ text.length + n + 1 := fun h ↦ hfull ((hs.toTight.full_iff hfits).2 h)
    refine ⟨s, growLoop_of_not_full hfull 1, hs, by rw [sizeFor, if_neg hsz], hfull,
      fun s' hgrows ↦ ?_⟩
    rw [grows_of_not_full hfull hgrows]
    exact hs.toTight

/-- A size that does not fit into an `int` is a smaller one, and the text is cut. -/
theorem grow_overflow (hz : s.sz < 2147483648) (hn : n < 2147483648)
    (hlarge : 2147483648 ≤ 2 * s.sz + n + 1) (h : Setup.grow n s = some s₁) : ¬s₁.Tight text := by
  intro htight
  obtain ⟨hsz, hcases⟩ := strResize_cases h
  obtain ⟨k, hk⟩ := exists_asInt (s.sz * 2 + n + 1)
  have hbound := asInt_bounds (s.sz * 2 + n + 1)
  have hroom := htight.room
  omega

/-! ## One operation -/

theorem charString_notMem (c : ℤ) : 0 ∉ charString c := by
  rw [charString, List.mem_filter]
  exact fun h ↦ absurd h.2 (by decide)

theorem Str.Kept.not_full (hs : s.Kept text) : ¬s.Full (0 : ℕ) := by
  have hspare := hs.spare
  have hsmall := hs.small
  rw [hs.toTight.full_iff (by omega)]
  omega

/-- **A text is appended** if there is room for it. -/
theorem Str.Kept.append (hs : s.Kept text) (hp : 0 ∉ p) (hroom : CanGrow text s.sz p.length) :
    (∃ s', strAppendCharp 2 s (some p) = some s' ∧ s'.Kept (text ++ p) ∧
        s'.sz = sizeFor text s.sz p.length) ∧
      ∀ s', Grows (asInt p.length) s s' → s'.Tight text := by
  have hfits := hroom.1
  have hp' : asInt p.length = p.length := asInt_of_lt (by omega) (by omega)
  obtain ⟨s₁, hloop, hs₁, hsz, hnot, hgrows⟩ := hs.growLoop hroom
  have hsize : ¬s₁.sz ≤ text.length + p.length + 1 := fun h ↦
    hnot ((hs₁.toTight.full_iff hfits).2 h)
  have hblock := hs₁.block
  have hlen := hs₁.len
  obtain ⟨str, hcat, hlength, hstring⟩ := strcat_spec hs₁.holds hp (by omega)
  have hsum : asInt (s₁.len + p.length) = (text ++ p).length := by
    rw [asInt_of_lt (by omega) (by omega), List.length_append]
    omega
  rw [hp']
  refine ⟨⟨{ s₁ with len := (text ++ p).length, str }, ?_, ?_, hsz⟩, hgrows⟩
  · rw [strAppendCharp, hp', hloop, Option.bind_some, hcat, Option.map_some, Str.appended,
      if_neg hnot, hsum]
  · rw [List.length_append]
    refine ⟨⟨hstring, ?_, ?_, ?_⟩, ?_, hs₁.small⟩
    · rw [List.length_append]
    · dsimp only
      omega
    · dsimp only
      omega
    · rw [List.length_append]
      dsimp only
      omega

/-- **A text is not appended** otherwise. -/
theorem Str.Kept.canGrow (hs : s.Kept text) (hrun : strAppendCharp fuel s (some p) = some s')
    (hs' : s'.Tight (text ++ p)) (hgrows : ∀ s', Grows (asInt p.length) s s' → s'.Tight text) :
    CanGrow text s.sz p.length := by
  obtain ⟨s₁, hloop, hrun⟩ := Option.bind_eq_some_iff.1 hrun
  obtain ⟨str, -, rfl⟩ := Option.map_eq_some_iff.1 hrun
  have hsz : (s₁.appended (asInt p.length) str).sz = s₁.sz := by
    rw [Str.appended]
    split_ifs <;> rfl
  have hsmall := (growLoop_frame hloop).2 hs.small
  have hlen := hs'.len
  have hlt := hs'.room
  rw [List.length_append] at hlen
  have hfits : (text.length + p.length : ℤ) < 2147483648 := by omega
  have hp' : asInt p.length = p.length := asInt_of_lt (by omega) (by omega)
  refine ⟨hfits, fun hz ↦ ?_⟩
  by_contra hlarge
  have hfull : s.Full (asInt p.length) := by
    rw [hp']
    exact (hs.toTight.full_iff hfits).2 hz
  obtain ⟨_, -, ⟨hnot, -⟩ | ⟨-, s₂, hgrow, -⟩⟩ := growLoop_cases hloop
  · exact hnot hfull
  · have htight := hgrows s₂ (.turn hfull hgrow (.refl s₂))
    rw [hp'] at hgrow
    exact grow_overflow hs.small (by omega) (by omega) hgrow htight

/-- An empty `Str` can be appended to itself. -/
theorem Str.Kept.self_nil (hs : s.Kept []) : strAppendSelf 2 s = some s := by
  have hnot : ¬s.Full (asInt (0 : ℕ)) := hs.not_full
  have hlen : asInt (s.len + asInt (0 : ℕ)) = s.len := by
    rw [hs.len]
    rfl
  rw [strAppendSelf, hs.holds, Option.bind_some, List.length_nil, growLoop_of_not_full hnot,
    Option.bind_some, if_neg (not_not.2 rfl), strcatWithin_nil hs.holds, Option.map_some,
    Str.appended, if_neg hnot, hlen]

/-- **No other `Str` can.** -/
theorem Str.Kept.self_spec (hs : s.Kept text) (hrun : strAppendSelf fuel s = some s')
    (hgrows : ∀ s', Grows (asInt text.length) s s' → s'.Tight text) : text = [] := by
  by_contra hne
  rw [strAppendSelf, hs.holds, Option.bind_some] at hrun
  obtain ⟨s₁, hloop, hcat⟩ := Option.bind_eq_some_iff.1 hrun
  split_ifs at hcat with hadr
  rw [not_not] at hadr
  obtain ⟨_, -, ⟨-, rfl⟩ | ⟨hfull, s₂, hgrow, hloop⟩⟩ := growLoop_cases hloop
  · rw [strcatWithin_eq_none hs.holds hne] at hcat
    cases hcat
  · -- the block has been freed, or the text has been cut
    have hroom := (hgrows s₂ (.turn hfull hgrow (.refl s₂))).room
    obtain ⟨hsz, hcases⟩ := strResize_cases hgrow
    have hle := (growLoop_frame hloop).1
    omega

theorem Str.Kept.trunc (hs : s.Kept text) :
    ∃ s', strTrunc s 0 = some s' ∧ s'.Kept [] ∧ s'.sz = s.sz := by
  have hspare := hs.spare
  have hblock := hs.block
  have hpos : 0 < s.str.length := by omega
  obtain ⟨str, hstore, hlen, hstring⟩ := store_zero hpos
  refine ⟨{ s with len := 0, str }, ?_, ⟨⟨hstring, rfl, ?_, ?_⟩, ?_, hs.small⟩, rfl⟩
  · rw [strTrunc, if_pos (by omega), Str.cut, if_neg (by decide)]
    exact Option.map_eq_some_iff.2 ⟨str, hstore, rfl⟩
  · dsimp only
    omega
  · dsimp only
    omega
  · rw [List.length_nil]
    dsimp only
    omega

/-! ## Any operation -/

theorem run_mono (h : op.run fuel s = some s') (hle : fuel ≤ n) : op.run n s = some s' := by
  have hcharp : ∀ {p : Option Bytes}, strAppendCharp fuel s p = some s' →
      strAppendCharp n s p = some s' := by
    intro p hp
    cases p with
    | none => exact hp
    | some p =>
      obtain ⟨s₁, hloop, hp⟩ := Option.bind_eq_some_iff.1 hp
      exact Option.bind_eq_some_iff.2 ⟨s₁, growLoop_mono hloop hle, hp⟩
  cases op with
  | charp p => exact hcharp h
  | char c => exact hcharp (p := some (charString c)) h
  | str s2 =>
    obtain ⟨p, hp, h⟩ := Option.bind_eq_some_iff.1 h
    exact Option.bind_eq_some_iff.2 ⟨p, hp, hcharp h⟩
  | self =>
    obtain ⟨p, hp, h⟩ := Option.bind_eq_some_iff.1 h
    obtain ⟨s₁, hloop, h⟩ := Option.bind_eq_some_iff.1 h
    exact Option.bind_eq_some_iff.2 ⟨p, hp, Option.bind_eq_some_iff.2
      ⟨s₁, growLoop_mono hloop hle, h⟩⟩
  | trunc => exact h

/-- **An operation that has room.** -/
theorem run_spec (hs : s.Kept text) (hroom : op.HasRoom text s.sz) :
    (∃ s', op.run 2 s = some s' ∧ s'.Kept (op.after text) ∧
        s'.sz = sizeFor text s.sz (op.operand text).length) ∧
      ∀ s', Grows (asInt (op.operand text).length) s s' → s'.Tight text := by
  have hsize : sizeFor text s.sz 0 = s.sz := by
    have hspare := hs.spare
    exact if_neg (by omega)
  have hnothing : ∀ s', Grows (asInt (0 : ℕ)) s s' → s'.Tight text := fun s' h ↦ by
    rw [grows_of_not_full hs.not_full h]
    exact hs.toTight
  cases op with
  | charp p =>
    cases p with
    | none =>
      refine ⟨⟨s, rfl, ?_, hsize.symm⟩, hnothing⟩
      change s.Kept (text ++ [])
      rwa [List.append_nil]
    | some p => exact hs.append (p := p.bytes) p.nul_notMem hroom
  | char c => exact hs.append (p := charString c) (charString_notMem c) hroom
  | str s2 =>
    have hp := s2.tight.holds
    obtain ⟨⟨s', hrun, hs'⟩, hgrows⟩ := hs.append (p := s2.text) (stringIn_eq_some_iff.1 hp).2 hroom
    exact ⟨⟨s', Option.bind_eq_some_iff.2 ⟨_, hp, hrun⟩, hs'⟩, hgrows⟩
  | self =>
    obtain rfl : text = [] := hroom
    exact ⟨⟨s, hs.self_nil, hs, hsize.symm⟩, hnothing⟩
  | trunc =>
    obtain ⟨s', hrun, hs', hsz⟩ := hs.trunc
    exact ⟨⟨s', hrun, hs', hsz.trans hsize.symm⟩, hnothing⟩

/-- **An operation that is right** has room. -/
theorem hasRoom_of_run (hs : s.Kept text) (hrun : op.run fuel s = some s')
    (hs' : s'.Tight (op.after text))
    (hgrows : ∀ s', Grows (asInt (op.operand text).length) s s' → s'.Tight text) :
    op.HasRoom text s.sz := by
  have hnothing : CanGrow text s.sz 0 := by
    have hspare := hs.spare
    have hsmall := hs.small
    exact ⟨by omega, fun h ↦ by omega⟩
  cases op with
  | charp p =>
    cases p with
    | none => exact hnothing
    | some p => exact hs.canGrow hrun hs' hgrows
  | char c => exact hs.canGrow hrun hs' hgrows
  | str s2 =>
    obtain ⟨p, hp, hrun⟩ := Option.bind_eq_some_iff.1 hrun
    obtain rfl := Option.some.inj (s2.tight.holds.symm.trans hp)
    exact hs.canGrow hrun hs' hgrows
  | self => exact hs.self_spec hrun hgrows
  | trunc => exact hnothing

/-! ## All operations -/

theorem RightFrom.tight {ops : List StrOp} (h : RightFrom s text ops) : s.Tight text := by
  cases ops with
  | nil => exact h
  | cons op ops => exact h.1

/-- **The operations from a `Str` on.** -/
theorem rightFrom_iff (hs : s.Kept text) (ops : List StrOp) :
    RightFrom s text ops ↔ HaveRoom text s.sz ops := by
  induction ops generalizing s text with
  | nil => exact iff_of_true hs.toTight trivial
  | cons op ops ih =>
    constructor
    · rintro ⟨-, hgrows, fuel, s', hrun, hright⟩
      have hroom := hasRoom_of_run hs hrun hright.tight hgrows
      obtain ⟨⟨s₁, hrun₁, hs₁, hsz⟩, -⟩ := run_spec hs hroom
      obtain rfl : s' = s₁ := Option.some.inj
        ((run_mono hrun (Nat.le_add_right fuel 2)).symm.trans
          (run_mono hrun₁ (Nat.le_add_left 2 fuel)))
      exact ⟨hroom, hsz ▸ (ih hs₁).1 hright⟩
    · rintro ⟨hroom, hrest⟩
      obtain ⟨⟨s₁, hrun, hs₁, hsz⟩, hgrows⟩ := run_spec hs hroom
      exact ⟨hs.toTight, hgrows, 2, s₁, hrun, (ih hs₁).2 (hsz ▸ hrest)⟩

/-- **When a growing text is right.** -/
theorem str_right_iff (ops : List StrOp) : StrRight ops ↔ HaveRoom [] 32 ops :=
  rightFrom_iff kept_strNew ops

/-- A text of almost 2 GiB, and a text that is appended to itself. -/
theorem str_not_right :
    ¬StrRight [.charp (some ⟨List.replicate 2147483615 97, fun h ↦
        absurd (List.eq_of_mem_replicate h) (by decide)⟩)] ∧
      ¬StrRight [.charp (some ⟨cstr "a", by decide⟩), .self] := by
  constructor
  · intro h
    obtain ⟨⟨-, hlarger⟩, -⟩ := (rightFrom_iff kept_strNew _).1 h
    simp only [StrOp.operand, Option.map_some, Option.getD_some, List.length_replicate,
      List.length_nil] at hlarger
    exact absurd (hlarger (by decide)) (by decide)
  · intro h
    obtain ⟨-, hself, -⟩ := (rightFrom_iff kept_strNew _).1 h
    exact List.cons_ne_nil _ _ hself

end Setup
