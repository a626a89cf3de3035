import SsdLinux.CLib.Bytes
import SsdLinux.CLib.Int

/-!
# `runled`: options

The daemon for the lamp on the front reads its options in a loop of its own (`optionLoop`), of which
`turn` is one turn.

* `str2num` notices an overflow by a number that does not grow.  That is right for a number that
  begins with another digit than 0 (`agrees_str2numGo`), but with a 0 in front a number does not
  grow either (`str2num_of_zero`).
* The loop does not leave a word that is not an option (`optionLoop_stuck`).
* `interval *= 1000` does not fit into an `int` for the larger ones of the intervals that are taken
  (`delayRight_iff`).

`readFrom_again` says what one turn adds to the property of a state of the loop, and `readFrom_iff`
what it comes to for all arguments from there on.
-/

set_option autoImplicit false

namespace Runled

open CLib

/-! ## The options -/

def COMMAND_NAME : CString := ⟨cstr "runled", by decide⟩

def DEFAULT_PATTERN : CString := ⟨cstr "0808889010109088", by decide⟩

def DEFAULT_INTERVAL : ℤ := 150

structure Options where
  patternString : CString := DEFAULT_PATTERN
  interval : ℤ := DEFAULT_INTERVAL
  noforkFlag : Bool := false
  obsFlag : Bool := false
deriving DecidableEq

/-- The loop of `str2num`. -/
def str2numGo (v : ℤ) : Bytes → ℤ
  | [] => v
  | c :: s =>
    if isdigit c then
      let n := asInt (v * 10 + (c.toNat - 48))
      if n ≤ v then asInt 4294967295 else str2numGo n s
    else v

/-- `str2num`, which returns an `unsigned`. -/
def str2num (s : CString) : ℤ := asUnsigned (str2numGo 0 s.bytes)

/-- What `main` prints before it gives up. -/
def unknownOption (c : UInt8) : Bytes :=
  COMMAND_NAME.bytes ++ cstr ": unknown option `-" ++ c :: cstr "'.\n"

/-- What comes after a turn of the option loop. -/
inductive Next
  | again (i : ℕ) (o : Options)
  | done
  | exit (message : Bytes)
deriving DecidableEq

/-- What the `switch` does with an option, by the letter behind the `-`. -/
def readOption (i : ℕ) (o : Options) (w : CString) : Next :=
  let c := w.bytes.tail.headD 0
  -- `f`, `i`, `o`, `p`
  if c = 102 then .again (i + 1) { o with noforkFlag := true }
  else if c = 105 then
    let tmp := asInt (str2num (w.drop 2))
    .again (i + 1) (if 0 < tmp ∧ tmp < 3600000 then { o with interval := tmp } else o)
  else if c = 111 then .again (i + 1) { o with obsFlag := true }
  else if c = 112 then
    .again (i + 1) (if (w.drop 2).bytes ≠ [] then { o with patternString := w.drop 2 } else o)
  else .exit (unknownOption c)

/-- A turn of the option loop. -/
def turn (argv : List CString) (i : ℕ) (o : Options) : Next :=
  match argv[i]? with
  | none => .done
  | some w =>
    -- `continue`, without `i++`
    if w.bytes.head? ≠ some minus then .again i o else readOption i o w

/-- The option loop.  It has no result if it has not come to an end after so many turns. -/
def optionLoop (argv : List CString) : ℕ → ℕ → Options → Option (Except Bytes Options)
  | 0, _, _ => none
  | fuel + 1, i, o =>
    match turn argv i o with
    | .again i o => optionLoop argv fuel i o
    | .done => some (.ok o)
    | .exit message => some (.error message)

/-- What `main` does with its arguments. -/
def readOptions (argv : List CString) (fuel : ℕ) : Option (Except Bytes Options) :=
  if 1 < argv.length then optionLoop argv fuel 1 {} else some (.ok {})

/-! ## Numbers -/

/-- The number that the digits at the head of a text denote. -/
def number (s : CString) : ℕ := digitsVal (s.bytes.takeWhile isdigit)

/-- The number that some digits denote behind others. -/
def digitsFrom (n : ℕ) (ds : Bytes) : ℕ := ds.foldl (fun n c ↦ 10 * n + (c.toNat - 48)) n

/-- What is read of a number is right, or it is too large as the number is. -/
def Agrees (n : ℕ) (v : ℤ) : Prop := v = n ∨ 3600000 ≤ n ∧ (v < 0 ∨ 3600000 ≤ v)

theorem le_digitsFrom (n : ℕ) (ds : Bytes) : n ≤ digitsFrom n ds := by
  induction ds generalizing n with
  | nil => exact Nat.le_refl n
  | cons c ds ih =>
    have hle := ih (10 * n + (c.toNat - 48))
    rw [digitsFrom, List.foldl_cons]
    exact le_trans (by omega) hle

theorem str2numGo_of_not {c : UInt8} (h : ¬isdigit c = true) (v : ℤ) (s : Bytes) :
    str2numGo v (c :: s) = v := if_neg h

theorem str2numGo_digit {c : UInt8} (h : isdigit c = true) (v : ℤ) (s : Bytes) :
    str2numGo v (c :: s) =
      if asInt (v * 10 + (c.toNat - 48)) ≤ v then -1
      else str2numGo (asInt (v * 10 + (c.toNat - 48))) s :=
  if_pos h

theorem str2numGo_bounds (s : Bytes) {v : ℤ} (hlow : -2147483648 ≤ v) (hhigh : v < 2147483648) :
    -2147483648 ≤ str2numGo v s ∧ str2numGo v s < 2147483648 := by
  induction s generalizing v with
  | nil => exact ⟨hlow, hhigh⟩
  | cons c s ih =>
    by_cases hc : isdigit c = true
    · rw [str2numGo_digit hc]
      split_ifs
      · decide
      · exact ih (asInt_bounds _).1 (asInt_bounds _).2
    · rw [str2numGo_of_not hc]
      exact ⟨hlow, hhigh⟩

/-- What is read into an `int`. -/
theorem asInt_str2num (s : CString) : asInt (str2num s) = str2numGo 0 s.bytes := by
  obtain ⟨hlow, hhigh⟩ := str2numGo_bounds s.bytes (v := 0) (by decide) (by decide)
  rw [str2num, asInt_asUnsigned, asInt_of_lt hlow hhigh]

/-- **Once there is a digit that counts**, a number that is too large does not become a small
one. -/
theorem agrees_str2numGo (s : Bytes) {n : ℕ} (hpos : 0 < n) (hlt : n < 2147483648) :
    Agrees (digitsFrom n (s.takeWhile isdigit)) (str2numGo n s) := by
  induction s generalizing n with
  | nil => exact .inl rfl
  | cons c s ih =>
    by_cases hc : isdigit c = true
    swap
    · rw [List.takeWhile_cons_of_neg hc, str2numGo_of_not hc]
      exact .inl rfl
    obtain ⟨h48, h57⟩ := isdigit_iff.1 hc
    have hfrom : digitsFrom n (c :: s.takeWhile isdigit)
        = digitsFrom (10 * n + (c.toNat - 48)) (s.takeWhile isdigit) := rfl
    rw [List.takeWhile_cons_of_pos hc, str2numGo_digit hc, hfrom]
    by_cases hfits : 10 * n + (c.toNat - 48) < 2147483648
    · have hnext : asInt ((n : ℤ) * 10 + (c.toNat - 48)) = (10 * n + (c.toNat - 48) : ℕ) := by
        rw [asInt_of_lt (by omega) (by omega)]
        omega
      rw [hnext, if_neg (by omega)]
      exact ih (by omega) hfits
    · have hle := le_digitsFrom (10 * n + (c.toNat - 48)) (s.takeWhile isdigit)
      split_ifs with hgrow
      · exact .inr ⟨by omega, .inl (by decide)⟩
      · -- what has been wrapped is larger than before, and so it is not small
        obtain ⟨m, hm⟩ : ∃ m : ℕ, asInt ((n : ℤ) * 10 + (c.toNat - 48)) = m :=
          Int.eq_ofNat_of_zero_le (by omega)
        have hbound := (asInt_bounds ((n : ℤ) * 10 + (c.toNat - 48))).2
        have hbig := le_digitsFrom m (s.takeWhile isdigit)
        rw [hm]
        rcases ih (n := m) (by omega) (by omega) with heq | ⟨-, hlarge⟩
        · exact .inr ⟨by omega, by omega⟩
        · exact .inr ⟨by omega, hlarge⟩

/-- A zero in front is taken for an overflow. -/
theorem str2num_of_zero {s : CString} (h : s.bytes.head? = some 48) : asInt (str2num s) = -1 := by
  obtain ⟨r, hr⟩ := List.head?_eq_some_iff.1 h
  rw [asInt_str2num, hr]
  rfl

/-- Any other number is read as far as it matters. -/
theorem str2num_of_ne_zero {s : CString} (h : s.bytes.head? ≠ some 48) :
    Agrees (number s) (asInt (str2num s)) := by
  rw [asInt_str2num, number]
  rcases hs : s.bytes with - | ⟨c, r⟩
  · exact .inl rfl
  by_cases hc : isdigit c = true
  swap
  · rw [List.takeWhile_cons_of_neg hc, str2numGo_of_not hc]
    exact .inl rfl
  obtain ⟨h48, h57⟩ := isdigit_iff.1 hc
  have hne : c.toNat ≠ 48 := fun he ↦ h (by
    rw [hs, List.head?_cons, ← UInt8.ofNat_toNat (x := c), he]
    rfl)
  have hnext : asInt ((0 : ℤ) * 10 + (c.toNat - 48)) = (c.toNat - 48 : ℕ) := by
    rw [asInt_of_lt (by omega) (by omega)]
    omega
  have hfrom : digitsVal (c :: r.takeWhile isdigit)
      = digitsFrom (c.toNat - 48) (r.takeWhile isdigit) := by
    rw [digitsVal, List.foldl_cons, Nat.mul_zero, Nat.zero_add, digitsFrom]
  rw [List.takeWhile_cons_of_pos hc, str2numGo_digit hc, hfrom, hnext, if_neg (by omega)]
  exact agrees_str2numGo r (by omega) (by omega)

/-! ## Intervals -/

/-- The interval that a text behind `-i` asks for. -/
def asked (v : ℤ) (s : CString) : ℤ := if 0 < number s ∧ number s < 3600000 then number s else v

/-- The interval that it gets. -/
def taken (v : ℤ) (s : CString) : ℤ :=
  if 0 < asInt (str2num s) ∧ asInt (str2num s) < 3600000 then asInt (str2num s) else v

theorem taken_eq_asked_iff {v : ℤ} {s : CString} :
    taken v s = asked v s ↔ (s.bytes.head? = some 48 → asked v s = v) := by
  by_cases hzero : s.bytes.head? = some 48
  · have htaken : taken v s = v := by
      rw [taken, str2num_of_zero hzero]
      rfl
    rw [htaken, eq_comm, imp_iff_right hzero]
  · refine iff_of_true ?_ fun h ↦ absurd h hzero
    rw [taken, asked]
    rcases str2num_of_ne_zero hzero with heq | ⟨hnumber, hlarge⟩
    · have hrange : (0 < (number s : ℤ) ∧ (number s : ℤ) < 3600000) ↔
          (0 < number s ∧ number s < 3600000) := by omega
      rw [heq, if_congr hrange rfl rfl]
    · rw [if_neg (by omega), if_neg (by omega)]

theorem asked_nonneg {v : ℤ} (hv : 0 ≤ v) (s : CString) : 0 ≤ asked v s := by
  rw [asked]
  split_ifs
  · exact Int.natCast_nonneg _
  · exact hv

/-- `interval *= 1000` in `show_led`. -/
def ledInterval (interval : ℤ) : ℤ := asInt (interval * 1000)

/-- What `usleep` gets, which takes an `unsigned`. -/
def ledDelay (interval : ℤ) : ℤ := asUnsigned (ledInterval interval)

/-- The delay is right. -/
def DelayRight (interval : ℤ) : Prop :=
  ledInterval interval = 1000 * interval ∧ ledDelay interval = 1000 * interval

theorem delayRight_iff {v : ℤ} (hv : 0 ≤ v) : DelayRight v ↔ v * 1000 < 2147483648 := by
  have hmul : 1000 * v = v * 1000 := Int.mul_comm 1000 v
  rw [DelayRight, ledDelay, ledInterval, hmul, asInt_eq_iff]
  refine ⟨fun h ↦ h.1.2, fun h ↦ ⟨⟨by omega, h⟩, ?_⟩⟩
  rw [asInt_of_lt (by omega) h, asUnsigned_of_lt (by omega) (by omega)]

/-! ## The option loop -/

variable {argv : List CString} {i i' j : ℕ} {o o' : Options} {w : CString}

/-- The letter of an option. -/
def letter (w : CString) : UInt8 := w.bytes.tail.headD 0

/-- An argument `-i`. -/
def IsInterval (w : CString) : Prop := w.bytes.head? = some minus ∧ letter w = 105

theorem readOption_interval (h : letter w = 105) :
    readOption i o w = .again (i + 1) { o with interval := taken o.interval (w.drop 2) } := by
  rw [letter] at h
  rw [readOption, h, if_neg (by decide), if_pos rfl, taken]
  dsimp only
  split_ifs <;> rfl

theorem readOption_other (h : letter w = 102 ∨ letter w = 111 ∨ letter w = 112) :
    ∃ o', readOption i o w = .again (i + 1) o' ∧ o'.interval = o.interval := by
  simp only [letter] at h
  rw [readOption]
  rcases h with h | h | h <;> rw [h]
  · exact ⟨_, rfl, rfl⟩
  · exact ⟨_, rfl, rfl⟩
  · refine ⟨_, rfl, ?_⟩
    split_ifs <;> rfl

theorem readOption_unknown (h : letter w ≠ 105)
    (h' : ¬(letter w = 102 ∨ letter w = 111 ∨ letter w = 112)) :
    readOption i o w = .exit (unknownOption (letter w)) := by
  simp only [not_or] at h'
  rw [readOption]
  exact (if_neg h'.1).trans ((if_neg h).trans ((if_neg h'.2.1).trans (if_neg h'.2.2)))

/-- The option loop comes from one state to another. -/
inductive Visits (argv : List CString) : ℕ → Options → ℕ → Options → Prop
  | refl (i : ℕ) (o : Options) : Visits argv i o i o
  | turn {i i' j : ℕ} {o o' p : Options} :
    turn argv i o = .again i' o' → Visits argv i' o' j p → Visits argv i o j p

/-- From a state on the arguments are read as they should. -/
structure ReadFrom (argv : List CString) (i : ℕ) (o : Options) : Prop where
  ends : ∃ fuel r, optionLoop argv fuel i o = some r
  interval : ∀ j p w, Visits argv i o j p → argv[j]? = some w → IsInterval w →
    turn argv j p = .again (j + 1) { p with interval := asked p.interval (w.drop 2) }
  delay : ∀ fuel p, optionLoop argv fuel i o = some (.ok p) → DelayRight p.interval

theorem turn_of_option (hw : argv[i]? = some w) (h : w.bytes.head? = some minus) :
    turn argv i o = readOption i o w := by
  rw [turn, hw]
  exact if_neg (not_not.2 h)

theorem turn_interval (hw : argv[i]? = some w) (h : IsInterval w) :
    turn argv i o = .again (i + 1) { o with interval := taken o.interval (w.drop 2) } :=
  (turn_of_option hw h.1).trans (readOption_interval h.2)

theorem exists_fuel {fuel : ℕ} {r : Except Bytes Options} (h : optionLoop argv fuel i o = some r) :
    ∃ n, fuel = n + 1 := by
  cases fuel with
  | zero => cases h
  | succ n => exact ⟨n, rfl⟩

theorem optionLoop_again (h : turn argv i o = .again i' o') (fuel : ℕ) :
    optionLoop argv (fuel + 1) i o = optionLoop argv fuel i' o' := by
  rw [optionLoop, h]

theorem optionLoop_done (h : turn argv i o = .done) (fuel : ℕ) :
    optionLoop argv (fuel + 1) i o = some (.ok o) := by
  rw [optionLoop, h]

theorem optionLoop_exit {message : Bytes} (h : turn argv i o = .exit message) (fuel : ℕ) :
    optionLoop argv (fuel + 1) i o = some (.error message) := by
  rw [optionLoop, h]

/-- A word that is not an option is not left. -/
theorem optionLoop_stuck (hw : argv[i]? = some w) (h : w.bytes.head? ≠ some minus) (fuel : ℕ) :
    optionLoop argv fuel i o = none := by
  have hturn : turn argv i o = .again i o := by
    rw [turn, hw]
    exact if_pos h
  induction fuel with
  | zero => rfl
  | succ fuel ih => rw [optionLoop_again hturn, ih]

/-- In a state that is the last one there is no interval to be read. -/
theorem no_interval {j : ℕ} {p : Options} (hlast : ∀ i' o', turn argv i o ≠ .again i' o')
    (hv : Visits argv i o j p) (hw : argv[j]? = some w) : ¬IsInterval w := by
  intro h
  cases hv with
  | refl => exact hlast _ _ (turn_interval hw h)
  | turn hturn _ => exact hlast _ _ hturn

theorem readFrom_done (h : turn argv i o = .done) : ReadFrom argv i o ↔ DelayRight o.interval := by
  have hlast : ∀ i' o', turn argv i o ≠ .again i' o' := by simp [h]
  refine ⟨fun hread ↦ hread.delay 1 o (optionLoop_done h 0), fun hdelay ↦
    ⟨⟨1, _, optionLoop_done h 0⟩, fun j p w hv hw hi ↦ absurd hi (no_interval hlast hv hw),
      fun fuel p hp ↦ ?_⟩⟩
  obtain ⟨n, rfl⟩ := exists_fuel hp
  cases (optionLoop_done h n).symm.trans hp
  exact hdelay

theorem readFrom_exit {message : Bytes} (h : turn argv i o = .exit message) :
    ReadFrom argv i o := by
  have hlast : ∀ i' o', turn argv i o ≠ .again i' o' := by simp [h]
  refine ⟨⟨1, _, optionLoop_exit h 0⟩,
    fun j p w hv hw hi ↦ absurd hi (no_interval hlast hv hw), fun fuel p hp ↦ ?_⟩
  obtain ⟨n, rfl⟩ := exists_fuel hp
  cases (optionLoop_exit h n).symm.trans hp

/-- **A turn** that is not the last one. -/
theorem readFrom_again (h : turn argv i o = .again i' o') :
    ReadFrom argv i o ↔
      (∀ w, argv[i]? = some w → IsInterval w →
        i' = i + 1 ∧ o' = { o with interval := asked o.interval (w.drop 2) }) ∧
      ReadFrom argv i' o' := by
  have hloop := optionLoop_again h
  constructor
  · rintro ⟨⟨fuel, r, hr⟩, hinterval, hdelay⟩
    refine ⟨fun w hw hiw ↦ ?_, ⟨?_, fun j p w hv ↦ hinterval j p w (.turn h hv), fun fuel p hp ↦
      hdelay (fuel + 1) p ((hloop fuel).trans hp)⟩⟩
    · have heq := h.symm.trans (hinterval i o w (.refl i o) hw hiw)
      exact ⟨(Next.again.inj heq).1, (Next.again.inj heq).2⟩
    · obtain ⟨n, rfl⟩ := exists_fuel hr
      exact ⟨n, r, (hloop n).symm.trans hr⟩
  · rintro ⟨hfirst, ⟨fuel, r, hr⟩, hinterval, hdelay⟩
    refine ⟨⟨fuel + 1, r, (hloop fuel).trans hr⟩, fun j p w hv hw hiw ↦ ?_, fun fuel p hp ↦ ?_⟩
    · cases hv with
      | refl =>
        obtain ⟨rfl, rfl⟩ := hfirst w hw hiw
        exact h
      | turn hturn hv =>
        obtain ⟨rfl, rfl⟩ := Next.again.inj (h.symm.trans hturn)
        exact hinterval j p w hv hw hiw
    · obtain ⟨n, rfl⟩ := exists_fuel hp
      exact hdelay n p ((hloop n).symm.trans hp)

/-- An argument `-i`. -/
theorem readFrom_interval (hw : argv[i]? = some w) (h : IsInterval w) :
    ReadFrom argv i o ↔
      taken o.interval (w.drop 2) = asked o.interval (w.drop 2) ∧
        ReadFrom argv (i + 1) { o with interval := taken o.interval (w.drop 2) } := by
  rw [readFrom_again (turn_interval hw h)]
  refine and_congr_left' ⟨fun hfirst ↦ congrArg Options.interval (hfirst w hw h).2,
    fun heq w' hw' _ ↦ ?_⟩
  rw [hw] at hw'
  cases hw'
  exact ⟨rfl, by rw [heq]⟩

/-- Any other argument that is known. -/
theorem readFrom_other (hw : argv[i]? = some w) (hdash : w.bytes.head? = some minus)
    (h : letter w = 102 ∨ letter w = 111 ∨ letter w = 112) (hne : letter w ≠ 105) :
    ∃ o', o'.interval = o.interval ∧ (ReadFrom argv i o ↔ ReadFrom argv (i + 1) o') := by
  obtain ⟨o', ho', hinterval⟩ := readOption_other (i := i) (o := o) h
  refine ⟨o', hinterval, ?_⟩
  rw [readFrom_again ((turn_of_option hw hdash).trans ho')]
  refine and_iff_right fun w' hw' hi ↦ absurd hi.2 ?_
  rw [hw] at hw'
  cases hw'
  exact hne

/-- The words from which on the arguments are read as they should, if the interval is `v`. -/
def Readable (v : ℤ) : List CString → Prop
  | [] => v * 1000 < 2147483648
  | w :: ws =>
    w.bytes.head? = some minus ∧
      if letter w = 105 then
        ((w.drop 2).bytes.head? = some 48 → asked v (w.drop 2) = v) ∧
          Readable (asked v (w.drop 2)) ws
      else if letter w = 102 ∨ letter w = 111 ∨ letter w = 112 then Readable v ws
      else True

/-- **The arguments from a state on.** -/
theorem readFrom_iff (hv : 0 ≤ o.interval) :
    ReadFrom argv i o ↔ Readable o.interval (argv.drop i) := by
  induction hdrop : argv.drop i generalizing i o with
  | nil =>
    have hturn : turn argv i o = .done := by
      rw [turn, List.getElem?_eq_none (List.drop_eq_nil_iff.1 hdrop)]
    rw [Readable, readFrom_done hturn, delayRight_iff hv]
  | cons w ws ih =>
    have hw : argv[i]? = some w := by
      rw [← List.head?_drop, hdrop, List.head?_cons]
    have hnext : argv.drop (i + 1) = ws := by
      rw [← List.tail_drop, hdrop, List.tail_cons]
    rw [Readable]
    by_cases hdash : w.bytes.head? = some minus
    swap
    · refine iff_of_false (fun h ↦ ?_) fun h ↦ hdash h.1
      obtain ⟨fuel, r, hr⟩ := h.ends
      rw [optionLoop_stuck hw hdash] at hr
      cases hr
    rw [and_iff_right hdash]
    by_cases hletter : letter w = 105
    · rw [if_pos hletter, readFrom_interval hw ⟨hdash, hletter⟩, ← taken_eq_asked_iff]
      refine and_congr_right fun heq ↦ ?_
      rw [heq]
      exact ih (asked_nonneg hv _) hnext
    rw [if_neg hletter]
    by_cases hother : letter w = 102 ∨ letter w = 111 ∨ letter w = 112
    · obtain ⟨o', hinterval, hread⟩ := readFrom_other (o := o) hw hdash hother hletter
      rw [if_pos hother, hread, ← hinterval]
      exact ih (hinterval ▸ hv) hnext
    · rw [if_neg hother]
      exact iff_of_true (readFrom_exit
        ((turn_of_option hw hdash).trans (readOption_unknown hletter hother))) trivial

/-! ## All arguments -/

instance decidableReadable : ∀ (v : ℤ) (ws : List CString), Decidable (Readable v ws)
  | v, [] => inferInstanceAs (Decidable (v * 1000 < 2147483648))
  | v, w :: ws =>
    have := decidableReadable (asked v (w.drop 2)) ws
    have := decidableReadable v ws
    inferInstanceAs (Decidable (_ ∧ ite _ (_ ∧ _) (ite _ _ _)))

/-- The arguments are read as they should. -/
structure OptionsRead (argv : List CString) : Prop where
  ends : ∃ fuel r, readOptions argv fuel = some r
  interval : ∀ j p w, Visits argv 1 {} j p → argv[j]? = some w → IsInterval w →
    turn argv j p = .again (j + 1) { p with interval := asked p.interval (w.drop 2) }
  delay : ∀ fuel p, readOptions argv fuel = some (.ok p) → DelayRight p.interval

theorem optionsRead_iff (argv : List CString) : OptionsRead argv ↔ ReadFrom argv 1 {} := by
  by_cases hlen : 1 < argv.length
  · have hread : ∀ fuel, readOptions argv fuel = optionLoop argv fuel 1 {} := fun _ ↦ if_pos hlen
    refine ⟨fun h ↦ ⟨?_, h.interval, ?_⟩, fun h ↦ ⟨?_, h.interval, ?_⟩⟩
    · simpa only [hread] using h.ends
    · simpa only [hread] using h.delay
    · simpa only [hread] using h.ends
    · simpa only [hread] using h.delay
  · have hturn : turn argv 1 {} = .done := by
      rw [turn, List.getElem?_eq_none (not_lt.1 hlen)]
    have hread : ∀ fuel, readOptions argv fuel = some (.ok {}) := fun _ ↦ if_neg hlen
    have hdelay : DelayRight DEFAULT_INTERVAL := (delayRight_iff (by decide)).2 (by decide)
    have hfrom : ReadFrom argv 1 {} := (readFrom_done hturn).2 hdelay
    refine iff_of_true ⟨⟨0, _, hread 0⟩, hfrom.interval, fun fuel p hp ↦ ?_⟩ hfrom
    cases (hread fuel).symm.trans hp
    exact hdelay

/-- **When the arguments are read as they should.** -/
theorem options_read_iff (argv : List CString) :
    OptionsRead argv ↔ Readable DEFAULT_INTERVAL (argv.drop 1) :=
  (optionsRead_iff argv).trans (readFrom_iff (o := {}) (by decide))

/-- A word that is no option, a zero in front, and an interval that is too long. -/
theorem options_not_read :
    ¬OptionsRead [COMMAND_NAME, ⟨cstr "x", by decide⟩] ∧
      ¬OptionsRead [COMMAND_NAME, ⟨cstr "-i0200", by decide⟩] ∧
      ¬OptionsRead [COMMAND_NAME, ⟨cstr "-i3599999", by decide⟩] := by
  simp only [optionsRead_iff, readFrom_iff (o := {}) (by decide)]
  decide

end Runled
