import Mathlib.Algebra.GroupWithZero.Nat
import Mathlib.Data.List.Infix
import Mathlib.Data.List.TakeWhile

/-!
# C strings

A C string is a list of bytes, the bytes before its terminating NUL; where it matters that none of
them is a NUL itself, it is a `CString`.  This file holds what the standard library does to such
strings and nothing about any one program:

* the character classes of `<ctype.h>` in the C locale, where a byte above 127 is in no class;
* `strcasecmp`, `strstr` and the like, as equations on lists, and `joinWith`;
* `%d` in both directions: `decInt` prints, `scanInt` is one `%d` of `sscanf`, and `atoi` is
  `scanInt` with 0 for "no number".  A `long` is 32 bits wide, so a number out of range is clamped
  (`clampInt`) rather than wrapped.

The lemma that is used all the time is `span_eq`: a scan over the bytes of a class stops exactly at
the first byte outside it.
-/

set_option autoImplicit false

namespace CLib

/-- The bytes of a C string, without the terminating NUL. -/
abbrev Bytes := List UInt8

/-- A C string as a value, without a NUL in it. -/
structure CString where
  bytes : Bytes
  nul_notMem : 0 ∉ bytes
deriving DecidableEq

/-- What the string holds from there on. -/
def CString.drop (s : CString) (n : ℕ) : CString :=
  ⟨s.bytes.drop n, fun h ↦ s.nul_notMem (List.mem_of_mem_drop h)⟩

/-- A string literal of the source.  Only ASCII literals are written this way. -/
def cstr (s : String) : Bytes := s.toByteArray.data.toList

instance lawfulBEqBytes : LawfulBEq Bytes := inferInstance

/-- What holds of all bytes of a string is decided byte by byte, and not for all 256 bytes. -/
instance decidableForallByte (P : UInt8 → Prop) [DecidablePred P] (s : Bytes) :
    Decidable (∀ c ∈ s, P c) :=
  List.decidableBAll P s

instance decidableForallHead (P : UInt8 → Prop) [DecidablePred P] (o : Option UInt8) :
    Decidable (∀ c ∈ o, P c) :=
  o.decidableForallMem

/-! ## Characters -/

abbrev nl : UInt8 := 10
abbrev blank : UInt8 := 32
abbrev dquote : UInt8 := 34
abbrev hash : UInt8 := 35
abbrev dollar : UInt8 := 36
abbrev percent : UInt8 := 37
abbrev ampersand : UInt8 := 38
abbrev squote : UInt8 := 39
abbrev lparen : UInt8 := 40
abbrev rparen : UInt8 := 41
abbrev plus : UInt8 := 43
abbrev comma : UInt8 := 44
abbrev minus : UInt8 := 45
abbrev dot : UInt8 := 46
abbrev slash : UInt8 := 47
abbrev colon : UInt8 := 58
abbrev less : UInt8 := 60
abbrev equals : UInt8 := 61
abbrev greater : UInt8 := 62
abbrev lbracket : UInt8 := 91
abbrev backslash : UInt8 := 92
abbrev rbracket : UInt8 := 93
abbrev underscore : UInt8 := 95
abbrev backquote : UInt8 := 96
abbrev lbrace : UInt8 := 123
abbrev rbrace : UInt8 := 125

def isdigit (c : UInt8) : Bool := decide (48 ≤ c) && decide (c ≤ 57)
def isupper (c : UInt8) : Bool := decide (65 ≤ c) && decide (c ≤ 90)
def islower (c : UInt8) : Bool := decide (97 ≤ c) && decide (c ≤ 122)
def isalpha (c : UInt8) : Bool := isupper c || islower c
def isalnum (c : UInt8) : Bool := isalpha c || isdigit c
def isxdigit (c : UInt8) : Bool :=
  isdigit c || (decide (65 ≤ c) && decide (c ≤ 70)) || (decide (97 ≤ c) && decide (c ≤ 102))
def isspace (c : UInt8) : Bool := c == blank || (decide (9 ≤ c) && decide (c ≤ 13))
def isprint (c : UInt8) : Bool := decide (32 ≤ c) && decide (c ≤ 126)
def tolower (c : UInt8) : UInt8 := if isupper c then c + 32 else c

/-- Two bytes told apart by a test are different. -/
theorem ne_of_class {p : UInt8 → Bool} {c d : UInt8} (hc : p c = true) (hd : p d = false) :
    c ≠ d := by
  rintro rfl
  exact absurd hc (by simp [hd])

/-- A byte outside a class does not occur in a string of that class. -/
theorem not_mem_of_class {p : UInt8 → Bool} {s : Bytes} {d : UInt8} (hs : ∀ c ∈ s, p c = true)
    (hd : p d = false) : d ∉ s :=
  fun h ↦ ne_of_class (hs d h) hd rfl

theorem isdigit_iff {c : UInt8} : isdigit c = true ↔ 48 ≤ c.toNat ∧ c.toNat ≤ 57 := by
  rw [isdigit, Bool.and_eq_true, decide_eq_true_eq, decide_eq_true_eq, UInt8.le_iff_toNat_le,
    UInt8.le_iff_toNat_le]
  rfl

theorem isalnum_of_isdigit {c : UInt8} (h : isdigit c = true) : isalnum c = true := by
  simp [isalnum, h]

theorem isspace_of_isdigit {c : UInt8} (h : isdigit c = true) : isspace c = false := by
  rw [isdigit_iff] at h
  simp only [isspace, Bool.or_eq_false_iff, beq_eq_false_iff_ne, ne_eq, Bool.and_eq_false_iff,
    decide_eq_false_iff_not, UInt8.le_iff_toNat_le, ← UInt8.toNat_inj]
  have hblank : blank.toNat = 32 := rfl
  have hlast : (13 : UInt8).toNat = 13 := rfl
  omega

theorem isspace_of_isalpha {c : UInt8} (h : isalpha c = true) : isspace c = false := by
  simp only [isalpha, isupper, islower, Bool.or_eq_true, Bool.and_eq_true, decide_eq_true_eq,
    UInt8.le_iff_toNat_le] at h
  simp only [isspace, Bool.or_eq_false_iff, beq_eq_false_iff_ne, ne_eq, Bool.and_eq_false_iff,
    decide_eq_false_iff_not, UInt8.le_iff_toNat_le, ← UInt8.toNat_inj]
  have h1 : (65 : UInt8).toNat = 65 := rfl
  have h2 : (97 : UInt8).toNat = 97 := rfl
  have h3 : blank.toNat = 32 := rfl
  have h4 : (13 : UInt8).toNat = 13 := rfl
  omega

/-! ## Scanning -/

/-- **A scan stops at the first byte outside its class.** -/
theorem span_eq {p : UInt8 → Bool} {s r : Bytes} (hs : ∀ c ∈ s, p c = true)
    (hr : ∀ c ∈ r.head?, p c = false) :
    (s ++ r).takeWhile p = s ∧ (s ++ r).dropWhile p = r := by
  rw [List.takeWhile_append_of_pos hs, List.dropWhile_append_of_pos hs]
  cases r with
  | nil => simp
  | cons d r => simp [hr d rfl]

/-! ## Strings in memory -/

/-- The string at the beginning of a piece of memory. -/
def cString (mem : Bytes) : Bytes := mem.takeWhile (· ≠ 0)

theorem cString_eq_self {s : Bytes} (h0 : 0 ∉ s) : cString s = s :=
  List.takeWhile_eq_self_iff.2 fun c hc ↦ by
    rw [decide_eq_true_eq]
    exact fun hc0 ↦ h0 (hc0 ▸ hc)

theorem cString_append_nul (s r : Bytes) : cString (s ++ 0 :: r) = cString s := by
  induction s with
  | nil => rfl
  | cons c s ih =>
    rw [cString, cString] at ih ⊢
    rw [List.cons_append, List.takeWhile_cons, List.takeWhile_cons, ih]

theorem nul_notMem_cString (mem : Bytes) : 0 ∉ cString mem := fun h ↦ by
  simpa using List.mem_takeWhile_imp h

/-- A string, its NUL, and what follows. -/
theorem exists_eq_cString {mem : Bytes} (h : 0 ∈ mem) : ∃ r, mem = cString mem ++ 0 :: r := by
  have hspan := List.takeWhile_append_dropWhile (p := fun c : UInt8 ↦ decide (c ≠ 0)) (l := mem)
  have hhead := List.head?_dropWhile_not (fun c : UInt8 ↦ decide (c ≠ 0)) mem
  cases hd : mem.dropWhile fun c ↦ decide (c ≠ 0) with
  | nil => exact absurd (List.dropWhile_eq_nil_iff.mp hd 0 h) (by simp)
  | cons c r =>
    rw [hd] at hhead hspan
    obtain rfl : c = 0 := by simpa using hhead
    exact ⟨r, hspan.symm⟩

theorem cString_append {s : Bytes} (h0 : 0 ∉ s) (r : Bytes) : cString (s ++ 0 :: r) = s :=
  (span_eq (p := (· ≠ 0)) (fun c hc ↦ by simpa using fun h : c = 0 ↦ h0 (h ▸ hc))
    (by rintro _ ⟨⟩; rfl)).1

/-- `strcasecmp(s, t) == 0`. -/
def strcaseeq (s t : Bytes) : Bool := s.map tolower == t.map tolower

/-- `strstr(s, t) != NULL`. -/
def strstr (s t : Bytes) : Bool := s.tails.any t.isPrefixOf

theorem strstr_iff {s t : Bytes} : strstr s t = true ↔ t <:+: s := by
  simp only [strstr, List.any_eq_true, List.mem_tails, List.isPrefixOf_iff_prefix,
    List.infix_iff_prefix_suffix, and_comm]

/-! ## Joining -/

/-- The items with a byte between them. -/
def joinWith (sep : UInt8) (l : List Bytes) : Bytes := (l.intersperse [sep]).flatten

theorem joinWith_cons (sep : UInt8) (s : Bytes) (l : List Bytes) :
    joinWith sep (s :: l) = s ++ (l.map fun t ↦ sep :: t).flatten := by
  induction l generalizing s with
  | nil => simp [joinWith]
  | cons t l ih =>
    have h := ih t
    simp only [joinWith] at h ⊢
    rw [List.intersperse_cons_cons, List.flatten_cons, List.flatten_cons, h]
    simp

/-- What a joined text consists of. -/
theorem mem_joinWith {sep c : UInt8} {l : List Bytes} (h : c ∈ joinWith sep l) :
    c = sep ∨ ∃ s ∈ l, c ∈ s := by
  cases l with
  | nil => simp [joinWith] at h
  | cons s l =>
    rw [joinWith_cons, List.mem_append, List.mem_flatten] at h
    rcases h with h | ⟨u, hu, h⟩
    · exact .inr ⟨s, List.mem_cons_self, h⟩
    · obtain ⟨t, ht, rfl⟩ := List.mem_map.mp hu
      exact (List.mem_cons.mp h).imp_right fun h ↦ ⟨t, List.mem_cons_of_mem _ ht, h⟩

/-- How long a joined text is. -/
theorem length_joinWith (sep : UInt8) (l : List Bytes) :
    (joinWith sep l).length = (l.map fun s ↦ s.length + 1).sum - 1 := by
  cases l with
  | nil => simp [joinWith]
  | cons s l =>
    have hrest : ((l.map fun t ↦ sep :: t).map List.length).sum
        = (l.map fun s ↦ s.length + 1).sum := by
      rw [List.map_map]
      rfl
    rw [joinWith_cons, List.length_append, List.length_flatten, hrest, List.map_cons,
      List.sum_cons]
    omega

/-! ## Decimal text -/

/-- What is left of a number out of the range of a 32-bit `long`. -/
def clampInt (n : ℤ) : ℤ := max (-2147483648) (min n 2147483647)

/-- The number a run of digits denotes. -/
def digitsVal (ds : Bytes) : ℕ := ds.foldl (fun n c ↦ 10 * n + (c.toNat - 48)) 0

/-- One `%d` of `sscanf`: blanks, a sign, digits.  `none` when there is no digit. -/
def scanInt (s : Bytes) : Option (ℤ × Bytes) :=
  let s := s.dropWhile isspace
  let neg := s.head? == some minus
  let s := if neg || s.head? == some plus then s.tail else s
  let ds := s.takeWhile isdigit
  if ds = [] then none
  else some (clampInt (if neg then -(digitsVal ds : ℤ) else digitsVal ds), s.dropWhile isdigit)

/-- `atoi`: the number at the head of the string, 0 if there is none. -/
def atoi (s : Bytes) : ℤ := ((scanInt s).map Prod.fst).getD 0

/-- `%d` of a number that is not negative. -/
def dec (n : ℕ) : Bytes := (Nat.toDigits 10 n).map fun c ↦ c.toNat.toUInt8

/-- `%d`. -/
def decInt (n : ℤ) : Bytes := if n < 0 then minus :: dec n.natAbs else dec n.natAbs

theorem charByte_isdigit {c : Char} (h : c.isDigit = true) :
    isdigit c.toNat.toUInt8 = true ∧ c.toNat.toUInt8.toNat = c.toNat := by
  have hc : 48 ≤ c.toNat ∧ c.toNat ≤ 57 := by
    simpa [Char.isDigit, UInt32.le_iff_toNat_le] using h
  have hm : c.toNat.toUInt8.toNat = c.toNat := by
    simp only [Nat.toUInt8_eq, UInt8.toNat_ofNat']
    omega
  rw [isdigit_iff, hm]
  exact ⟨hc, rfl⟩

theorem dec_isdigit (n : ℕ) : ∀ c ∈ dec n, isdigit c = true := by
  intro c hc
  obtain ⟨d, hd, rfl⟩ := List.mem_map.mp hc
  exact (charByte_isdigit (Nat.isDigit_of_mem_toDigits (by decide) (by decide) hd)).1

@[simp] theorem dec_ne_nil (n : ℕ) : dec n ≠ [] := by
  simp [dec, Nat.toDigits_ne_nil]

@[simp] theorem digitsVal_dec (n : ℕ) : digitsVal (dec n) = n := by
  have key : ∀ (l : List Char) (k : ℕ), (∀ c ∈ l, c.isDigit = true) →
      (l.map fun c ↦ c.toNat.toUInt8).foldl (fun n c ↦ 10 * n + (c.toNat - 48)) k
        = l.foldl (fun n c ↦ 10 * n + (c.toNat - 48)) k := by
    intro l
    induction l with
    | nil => intro k _; rfl
    | cons c l ih =>
      intro k h
      rw [List.map_cons, List.foldl_cons, List.foldl_cons,
        (charByte_isdigit (h c List.mem_cons_self)).2]
      exact ih _ fun d hd ↦ h d (List.mem_cons_of_mem _ hd)
  rw [digitsVal, dec, key _ _ fun c hc ↦ Nat.isDigit_of_mem_toDigits (by decide) (by decide) hc]
  simpa [Nat.ofDigitChars_eq_foldl] using Nat.ofDigitChars_ten_toDigits (n := n)

theorem dec_injective : Function.Injective dec :=
  fun m n h ↦ by rw [← digitsVal_dec m, h, digitsVal_dec]

/-- The number of some digits and one more. -/
theorem digitsVal_concat (ds : Bytes) (c : UInt8) :
    digitsVal (ds ++ [c]) = 10 * digitsVal ds + (c.toNat - 48) := by
  rw [digitsVal, List.foldl_append]
  rfl

theorem dec_digit {c : UInt8} (h : isdigit c = true) : dec (c.toNat - 48) = [c] := by
  obtain ⟨hlow, hhigh⟩ := isdigit_iff.1 h
  have hdigit := (by decide : ∀ k < 10, dec k = [(k + 48).toUInt8]) (c.toNat - 48) (by omega)
  rw [hdigit, Nat.sub_add_cancel hlow, Nat.toUInt8_eq, UInt8.ofNat_toNat]

/-- **Digits without a zero in front** are what is printed of their number. -/
theorem dec_digitsVal {ds : Bytes} (hds : ∀ c ∈ ds, isdigit c = true) (hne : ds ≠ [])
    (hhead : ds.head? ≠ some 48) : 0 < digitsVal ds ∧ dec (digitsVal ds) = ds := by
  induction ds using List.reverseRecOn with
  | nil => exact absurd rfl hne
  | append_singleton ds c ih =>
    have hc : isdigit c = true := hds c (by simp)
    have hlt : c.toNat - 48 < 10 := by
      have hhigh := (isdigit_iff.1 hc).2
      omega
    rw [digitsVal_concat]
    rcases eq_or_ne ds [] with rfl | hne'
    · have hpos : c.toNat - 48 ≠ 0 := fun h0 ↦ hhead (by
        have hprint := dec_digit hc
        rw [h0] at hprint
        rw [List.nil_append, ← hprint]
        decide)
      rw [digitsVal, List.foldl_nil, Nat.mul_zero, Nat.zero_add]
      exact ⟨Nat.pos_of_ne_zero hpos, dec_digit hc⟩
    · obtain ⟨hpos, hprint⟩ := ih (fun d hd ↦ hds d (by simp [hd])) hne' (by
        rwa [List.head?_append_of_ne_nil _ hne'] at hhead)
      refine ⟨by omega, ?_⟩
      rw [dec, ← Nat.toDigits_append_toDigits (by decide) hpos hlt, List.map_append]
      exact congrArg₂ _ hprint (dec_digit hc)

/-- A run of digits reads as the number that it denotes, up to the range of a `long`. -/
theorem scanInt_digits {ds : Bytes} (hne : ds ≠ []) (hds : ∀ c ∈ ds, isdigit c = true) (r : Bytes)
    (hr : ∀ c ∈ r.head?, isdigit c = false) :
    scanInt (ds ++ r) = some (clampInt (digitsVal ds), r) := by
  obtain ⟨c, cs, hc⟩ := List.exists_cons_of_ne_nil hne
  have hd : isdigit c = true := hds c (by simp [hc])
  have hsp : (ds ++ r).dropWhile isspace = ds ++ r := by
    rw [hc, List.cons_append, List.dropWhile_cons_of_neg (by simp [isspace_of_isdigit hd])]
  have hm : (ds ++ r).head? = some c := by rw [hc]; rfl
  have h1 : c ≠ minus := ne_of_class hd (by decide)
  have h2 : c ≠ plus := ne_of_class hd (by decide)
  obtain ⟨htake, hdrop⟩ := span_eq hds hr
  simp [scanInt, hsp, hm, h1, h2, htake, hdrop, hne]

/-- A printed number reads back, up to the range of a `long`. -/
theorem scanInt_dec (n : ℕ) (r : Bytes) (hr : ∀ c ∈ r.head?, isdigit c = false) :
    scanInt (dec n ++ r) = some (clampInt n, r) := by
  rw [scanInt_digits (dec_ne_nil n) (dec_isdigit n) r hr, digitsVal_dec]

theorem atoi_dec_eq (n : ℕ) : atoi (dec n) = clampInt n := by
  have hs := scanInt_dec n [] (by simp)
  rw [List.append_nil] at hs
  simp [atoi, hs]

theorem atoi_dec {n : ℕ} (h : n ≤ 2147483647) : atoi (dec n) = n := by
  rw [atoi_dec_eq, clampInt]
  omega

theorem decInt_chars (n : ℤ) : ∀ c ∈ decInt n, isdigit c = true ∨ c = minus := by
  intro c hc
  rw [decInt] at hc
  split at hc
  · exact (List.mem_cons.mp hc).symm.imp_left (dec_isdigit _ c)
  · exact .inl (dec_isdigit _ c hc)

theorem length_dec_le {n : ℕ} (h : n < 10 ^ 10) : (dec n).length ≤ 10 := by
  rw [dec, List.length_map]
  exact (Nat.length_toDigits_le_iff (by decide) (by decide)).mpr h

/-- An `int` takes at most eleven bytes. -/
theorem length_decInt_le (n : BitVec 32) : (decInt n.toInt).length ≤ 11 := by
  have hn : n.toInt.natAbs < 10 ^ 10 := by
    have := BitVec.toInt_lt (x := n)
    have := BitVec.le_toInt (x := n)
    omega
  rw [decInt]
  split
  · rw [List.length_cons]
    exact Nat.succ_le_succ (length_dec_le hn)
  · exact (length_dec_le hn).trans (by decide)

@[simp] theorem decInt_natCast (n : ℕ) : decInt n = dec n := by
  rw [decInt, if_neg (by omega), Int.natAbs_natCast]

theorem atoi_decInt (n : ℤ) : atoi (decInt n) = clampInt n := by
  rw [decInt]
  split
  · have hsp : (minus :: dec n.natAbs).dropWhile isspace = minus :: dec n.natAbs :=
      List.dropWhile_cons_of_neg (by decide)
    have htake : (dec n.natAbs).takeWhile isdigit = dec n.natAbs :=
      List.takeWhile_eq_self_iff.mpr (dec_isdigit _)
    have hscan : scanInt (minus :: dec n.natAbs)
        = some (clampInt (-(digitsVal (dec n.natAbs) : ℤ)), (dec n.natAbs).dropWhile isdigit) := by
      simp only [scanInt, hsp, List.head?_cons, beq_self_eq_true, Bool.true_or, if_true,
        List.tail_cons, htake, if_neg (dec_ne_nil _)]
    have hneg : -(n.natAbs : ℤ) = n := by omega
    rw [atoi, hscan, digitsVal_dec, hneg, Option.map_some, Option.getD_some]
  · have hpos : (n.natAbs : ℤ) = n := by omega
    rw [atoi_dec_eq, hpos]

theorem decInt_injective : Function.Injective decInt := by
  have hminus : ∀ a b : ℕ, minus :: dec a ≠ dec b := fun a b he ↦
    absurd (dec_isdigit b minus (he ▸ List.mem_cons_self)) (by decide)
  intro m n h
  simp only [decInt] at h
  split at h <;> split at h
  · have := dec_injective (List.cons.inj h).2
    omega
  · exact absurd h (hminus _ _)
  · exact absurd h.symm (hminus _ _)
  · have := dec_injective h
    omega

theorem decInt_ne_nil (n : ℤ) : decInt n ≠ [] := by
  rw [decInt]
  split <;> simp

end CLib
