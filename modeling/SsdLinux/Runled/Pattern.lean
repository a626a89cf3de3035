import SsdLinux.Runled.Options
import SsdLinux.Slots

/-!
# `runled`: the pattern

The text of the option `-p` is decoded into a table of words (`string2pattern`), two digits a word,
and `show_led` puts these out one behind the other for ever (`ledOutput`).  A table is as long as
the memory that was asked for, and a read or a store outside it has no result.

`string2pattern_eq` says what the table holds, and `ledIndex_eq` where `show_led` is in it at any
time.  A text of one character makes a table without an entry, from which `show_led` reads all the
same; `pattern_shown_iff` says that this is the only text of a length that occurs with which it does
so.
-/

set_option autoImplicit false

namespace Runled

open CLib Slots

abbrev Table := List (Option (BitVec 32))

/-- A hexadecimal digit.  Any other character counts as 0. -/
def nibble (c : UInt8) : BitVec 32 :=
  if isdigit c then BitVec.ofNat 32 (c.toNat - 48)
  else if isxdigit c then BitVec.ofNat 32 (c.toNat - if isupper c then 65 - 10 else 97 - 10)
  else 0

/-- An entry of the table. -/
def entry (h l : UInt8) : BitVec 32 := (nibble h <<< 4) ||| nibble l

/-- `string2pattern`: the text with its NUL, the table, the entry that is next and how many there
are to come. -/
def string2pattern : Bytes → Table → ℕ → ℕ → Option Table
  | _, d, _, 0 => some d
  | h :: l :: s, d, i, n + 1 =>
    (store d i (some (entry h l))).bind fun d ↦ string2pattern s d (i + 1) n
  | _, _, _, _ + 1 => none

/-- The bits of the other model. -/
def obss2obs (old : BitVec 32) : BitVec 32 :=
  [(0x01#32, 0x00020000#32), (0x02#32, 0x00010000#32), (0x04#32, 0x00008000#32),
    (0x08#32, 0x00004000#32), (0x10#32, 0x00000001#32), (0x20#32, 0x00000002#32),
    (0x40#32, 0x00000004#32), (0x80#32, 0x00000008#32)].foldl
    (fun new b ↦ if old &&& b.1 ≠ 0 then new ||| b.2 else new) 0

/-- `transpattern_obss2obs`. -/
def transpatternObss2obs (d : Table) (n : ℕ) : Table :=
  (d.take n).map (Option.map obss2obs) ++ d.drop n

/-- `size = strlen(pattern_string) / 2`, which is an `int`. -/
def patternSize (p : CString) : ℤ := asInt (p.bytes.length / 2 : ℕ)

/-- How many entries the memory for the table has. -/
def patternRoom (p : CString) : ℕ := (asUnsigned (patternSize p * 4)).toNat / 4

/-- The table that `main` makes of a pattern. -/
def patternTable (p : CString) (obsFlag : Bool) : Option Table :=
  (string2pattern (p.bytes ++ [0]) (fresh (patternRoom p)) 0 (patternSize p).toNat).map fun d ↦
    if obsFlag then transpatternObss2obs d (patternSize p).toNat else d

/-- A turn of `show_led`: what is put out, and the next index. -/
def ledTurn (d : Table) (size : ℤ) (i : ℕ) : Option (BitVec 32 × ℕ) :=
  d[i]?.join.map fun v ↦ (v, if (i : ℤ) + 1 = size then 0 else i + 1)

/-- The index with which a turn of `show_led` begins. -/
def ledIndex (d : Table) (size : ℤ) : ℕ → Option ℕ
  | 0 => some 0
  | t + 1 => (ledIndex d size t).bind fun i ↦ (ledTurn d size i).map Prod.snd

/-- What is put out in a turn. -/
def ledOutput (d : Table) (size : ℤ) (t : ℕ) : Option (BitVec 32) :=
  (ledIndex d size t).bind fun i ↦ (ledTurn d size i).map Prod.fst

/-! ## What the pattern stands for -/

/-- The place of a character among the hexadecimal digits. -/
def hexValue (c : UInt8) : ℕ := ((cstr "0123456789abcdef").idxOf? (tolower c)).getD 0

/-- The pattern is shown again and again, as bytes of two hexadecimal digits. -/
def Repeats (o : Options) : Prop :=
  let p := o.patternString
  let n := p.bytes.length / 2
  1 ≤ n ∧ ∃ d, patternTable p o.obsFlag = some d ∧ d.length = n ∧ ∀ t, ∃ h l,
    p.bytes[2 * (t % n)]? = some h ∧ p.bytes[2 * (t % n) + 1]? = some l ∧
      ledOutput d (patternSize p) t = some (BitVec.ofNat 32 (16 * hexValue h + hexValue l))

/-- Whatever the arguments are with which `main` comes to a pattern, and without `-o`, the pattern
is shown again and again. -/
def PatternShown (p : CString) : Prop :=
  ∀ argv fuel o, readOptions argv fuel = some (.ok o) → o.patternString = p →
    o.obsFlag = false → Repeats o

/-! ## The table -/

theorem nibble_eq (c : UInt8) : nibble c = BitVec.ofNat 32 (hexValue c) ∧ hexValue c < 16 := by
  have hall : ∀ n < 256, nibble (UInt8.ofNat n) = BitVec.ofNat 32 (hexValue (UInt8.ofNat n)) ∧
      hexValue (UInt8.ofNat n) < 16 := by decide +kernel
  have hc := hall c.toNat c.toNat_lt
  rwa [UInt8.ofNat_toNat] at hc

theorem entry_eq (h l : UInt8) : entry h l = BitVec.ofNat 32 (16 * hexValue h + hexValue l) := by
  have hpack : ∀ a < 16, ∀ b < 16, (BitVec.ofNat 32 a <<< 4) ||| BitVec.ofNat 32 b
      = BitVec.ofNat 32 (16 * a + b) := by decide
  rw [entry, (nibble_eq h).1, (nibble_eq l).1]
  exact hpack _ (nibble_eq h).2 _ (nibble_eq l).2

/-- The first entries that a text makes. -/
def entries (s : Bytes) (n : ℕ) : List (BitVec 32) :=
  (List.range n).map fun j ↦ entry (s.getD (2 * j) 0) (s.getD (2 * j + 1) 0)

theorem length_entries (s : Bytes) (n : ℕ) : (entries s n).length = n := by
  rw [entries, List.length_map, List.length_range]

theorem entries_succ (h l : UInt8) (s : Bytes) (n : ℕ) :
    entries (h :: l :: s) (n + 1) = entry h l :: entries s n := by
  rw [entries, List.range_succ_eq_map, List.map_cons, List.map_map]
  rfl

/-- **The loop of `string2pattern`.** -/
theorem string2pattern_eq {s : Bytes} {n : ℕ} (h : 2 * n ≤ s.length) (d : Table) (i : ℕ) :
    string2pattern s d i n = fill d i ((entries s n).map some) := by
  induction n generalizing s d i with
  | zero =>
    rw [string2pattern]
    rfl
  | succ n ih =>
    obtain ⟨a, b, s, rfl⟩ : ∃ a b r, s = a :: b :: r := by
      match s, h with
      | a :: b :: r, _ => exact ⟨a, b, r, rfl⟩
      | [], h => exact absurd h (by rw [List.length_nil]; omega)
      | [a], h => exact absurd h (by rw [List.length_singleton]; omega)
    rw [List.length_cons, List.length_cons] at h
    rw [string2pattern, entries_succ, List.map_cons, fill]
    cases store d i (some (entry a b)) with
    | none => rfl
    | some d => exact ih (by omega) d (i + 1)

theorem length_string2pattern {s : Bytes} {d d' : Table} {i n : ℕ}
    (h : string2pattern s d i n = some d') : d'.length = d.length := by
  induction n generalizing s d i with
  | zero =>
    rw [string2pattern] at h
    cases h
    rfl
  | succ n ih =>
    match s, h with
    | a :: b :: s, h =>
      obtain ⟨d₁, hstore, h⟩ := Option.bind_eq_some_iff.1 h
      rw [store] at hstore
      split_ifs at hstore
      cases hstore
      rw [ih h, List.length_set]

/-! ## The lamp -/

/-- **The index goes round.** -/
theorem ledIndex_eq {vs : List (BitVec 32)} (h : 0 < vs.length) (t : ℕ) :
    ledIndex (vs.map some) vs.length t = some (t % vs.length) := by
  induction t with
  | zero => rw [ledIndex, Nat.zero_mod]
  | succ t ih =>
    have hlt := Nat.mod_lt t h
    have hget : (vs.map some)[t % vs.length]?.join = some vs[t % vs.length] := by
      rw [List.getElem?_map, List.getElem?_eq_getElem hlt]
      rfl
    rw [ledIndex, ih, Option.bind_some, ledTurn, hget, Option.map_some, Option.map_some]
    congr 1
    dsimp only
    rw [← Nat.mod_add_mod t vs.length 1]
    split_ifs with hend
    · have heq : t % vs.length + 1 = vs.length := by omega
      rw [heq, Nat.mod_self]
    · exact (Nat.mod_eq_of_lt (by omega)).symm

theorem ledOutput_eq {vs : List (BitVec 32)} (h : 0 < vs.length) (t : ℕ) :
    ledOutput (vs.map some) vs.length t = vs[t % vs.length]? := by
  have hget : (vs.map some)[t % vs.length]?.join = vs[t % vs.length]? := by
    rw [List.getElem?_map, List.getElem?_eq_getElem (Nat.mod_lt t h)]
    rfl
  rw [ledOutput, ledIndex_eq h, Option.bind_some, ledTurn, hget, Option.map_map]
  exact Option.map_id'

/-! ## Short patterns and long ones -/

variable {p : CString}

/-- **The table of a pattern** for which there is memory. -/
theorem patternTable_eq (hlt : p.bytes.length < 2147483648) :
    patternSize p = (p.bytes.length / 2 : ℕ) ∧
      patternTable p false =
        some ((entries (p.bytes ++ [0]) (p.bytes.length / 2)).map some) := by
  have hsize : patternSize p = (p.bytes.length / 2 : ℕ) := asInt_of_lt (by omega) (by omega)
  have hroom : patternRoom p = p.bytes.length / 2 := by
    rw [patternRoom, hsize, asUnsigned_of_lt (by omega) (by omega)]
    omega
  refine ⟨hsize, ?_⟩
  have hentries := length_entries (p.bytes ++ [0]) (p.bytes.length / 2)
  have hle : ([] : List (BitVec 32)).length +
      (entries (p.bytes ++ [0]) (p.bytes.length / 2)).length ≤
        (fresh (p.bytes.length / 2) : Table).length := by
    rw [hentries, fresh, List.length_replicate, List.length_nil, Nat.zero_add]
  obtain ⟨d, hfill, hlen, hholds⟩ := fill_holds (holds_nil _) hle
  have hd : d = (entries (p.bytes ++ [0]) (p.bytes.length / 2)).map some := by
    rw [List.nil_append, Holds, hentries] at hholds
    rw [← hholds, List.take_of_length_le]
    rw [hlen, fresh, List.length_replicate]
  rw [List.length_nil] at hfill
  rw [patternTable, hsize, hroom, Int.toNat_natCast, string2pattern_eq, hfill, hd]
  · rfl
  · rw [List.length_append]
    omega

/-- The characters of an entry. -/
theorem getElem?_entries {s : Bytes} {j : ℕ} (h : j < s.length / 2) :
    ∃ a b, s[2 * j]? = some a ∧ s[2 * j + 1]? = some b ∧
      (entries (s ++ [0]) (s.length / 2))[j]? = some (entry a b) := by
  have h0 : 2 * j < s.length := by omega
  have h1 : 2 * j + 1 < s.length := by omega
  have hget : ∀ {k : ℕ} (hk : k < s.length), (s ++ [0]).getD k 0 = s[k] := fun hk ↦ by
    rw [List.getD_eq_getElem?_getD, List.getElem?_append_left hk, List.getElem?_eq_getElem hk,
      Option.getD_some]
  refine ⟨s[2 * j], s[2 * j + 1], List.getElem?_eq_getElem h0, List.getElem?_eq_getElem h1, ?_⟩
  rw [entries, List.getElem?_map, List.getElem?_range h, Option.map_some, hget h0, hget h1]

/-- **What is shown** without `-o`. -/
theorem repeats_iff {o : Options} (ho : o.obsFlag = false) :
    Repeats o ↔
      2 ≤ o.patternString.bytes.length ∧ o.patternString.bytes.length < 2147483648 := by
  rw [Repeats, ho]
  generalize o.patternString = p
  constructor
  · rintro ⟨hpos, d, htable, hlen, -⟩
    refine ⟨by omega, ?_⟩
    by_contra hlong
    -- the size in bytes does not fit into a `size_t`, so the memory has fewer entries
    obtain ⟨d', hd', rfl⟩ := Option.map_eq_some_iff.1 htable
    have hroom : patternRoom p < 1073741824 := by
      have hlt : asUnsigned (patternSize p * 4) < 4294967296 := Int.emod_lt_of_pos _ (by decide)
      rw [patternRoom]
      omega
    rw [if_neg Bool.false_ne_true, length_string2pattern hd', fresh,
      List.length_replicate] at hlen
    omega
  · rintro ⟨hshort, hlt⟩
    obtain ⟨hsize, htable⟩ := patternTable_eq hlt
    have hentries := length_entries (p.bytes ++ [0]) (p.bytes.length / 2)
    have hpos : 0 < p.bytes.length / 2 := by omega
    refine ⟨hpos, _, htable, by rw [List.length_map, hentries], fun t ↦ ?_⟩
    obtain ⟨a, b, ha, hb, hget⟩ := getElem?_entries (Nat.mod_lt t hpos)
    have hpos' : 0 < (entries (p.bytes ++ [0]) (p.bytes.length / 2)).length := by rwa [hentries]
    have hout := ledOutput_eq hpos' t
    rw [hentries] at hout
    exact ⟨a, b, ha, hb, by rw [hsize, hout, hget, entry_eq]⟩

/-- `-p` and a pattern. -/
def patternArgument (p : CString) : CString :=
  ⟨minus :: 112 :: p.bytes, by
    rw [List.mem_cons, List.mem_cons, not_or, not_or]
    exact ⟨by decide, by decide, p.nul_notMem⟩⟩

theorem readOptions_pattern (name : CString) (h : p.bytes ≠ []) :
    readOptions [name, patternArgument p] 2 = some (.ok { patternString := p }) := by
  have hread : readOption 1 {} (patternArgument p) = .again 2 { patternString := p } := by
    rw [readOption]
    exact congrArg (Next.again 2) (if_pos h)
  have hfirst : turn [name, patternArgument p] 1 {} = .again 2 { patternString := p } :=
    (turn_of_option rfl rfl).trans hread
  exact (if_pos Nat.one_lt_two).trans ((optionLoop_again hfirst 1).trans (optionLoop_done rfl 0))

/-- **A pattern is shown again and again** if it has two characters and there is memory for it. -/
theorem pattern_shown_iff (p : CString) (h : p.bytes ≠ []) :
    PatternShown p ↔ 2 ≤ p.bytes.length ∧ p.bytes.length < 2147483648 := by
  constructor
  · intro hshown
    exact (repeats_iff rfl).1 (hshown _ _ _ (readOptions_pattern COMMAND_NAME h) rfl rfl)
  · rintro hlen argv fuel o - rfl ho
    exact (repeats_iff ho).2 hlen

/-- A pattern of four characters. -/
theorem pattern_shown_four : PatternShown ⟨cstr "80fF", by decide⟩ :=
  (pattern_shown_iff ⟨cstr "80fF", by decide⟩ (by decide)).2 (by decide)

/-- A pattern of one character. -/
theorem pattern_not_shown : ¬PatternShown ⟨cstr "8", by decide⟩ := by
  intro hshown
  have hread := readOptions_pattern (p := ⟨cstr "8", by decide⟩) COMMAND_NAME (by decide)
  exact absurd ((repeats_iff rfl).1 (hshown _ _ _ hread rfl rfl)).1 (by decide)

end Runled
