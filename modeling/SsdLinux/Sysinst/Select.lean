import SsdLinux.Sysinst.Menu

/-!
# `sysinst`: choosing a partition by its number

`set_partition` shows a number in front of each partition and takes the first byte of an answer for
it.  So only the numbers with one digit can be entered, and whatever begins with a byte that lies
less than `num_pat` behind `0` opens some partition.

* A `Place` is where a run of the two loops is: the menu, the table, the rest of the input, and
  whether that begins with a new line.  `Next` is one answer.
* `Right` says what an answer should do.  Among the partitions, a line that is a number there opens
  this partition, and any other line does nothing, unless it begins with an `x`.  In the menu of a
  partition no other partition is changed.
* `Picks` is the condition for it.
* `right_iff` is about one answer, and `select_iff` about all answers of a run, at the end of which
  is the table that `set_partition` returns (`setPartition_eq_some_iff`).

A line that is longer than the buffer is taken in pieces, and each piece is an answer.
-/

set_option autoImplicit false

namespace Sysinst

open CLib

variable {signed : Bool} {numPat i : ℕ} {s s' : Session} {input rest : Bytes}

/-! ## A run, answer by answer -/

/-- Where a run is. -/
structure Place where
  fresh : Bool
  menu : Menu
  session : Session
  input : Bytes

/-- What has been taken of the input ends with a newline. -/
def endsLine (input rest : Bytes) : Bool :=
  (input.take (input.length - rest.length)).getLast? == some nl

/-- An answer after which the user has not left. -/
inductive Next (signed : Bool) (numPat : ℕ) : Place → Place → Prop
  | answer {x : Place} {menu : Menu} {s : Session} {rest : Bytes}
    (h : answer signed numPat x.menu x.session x.input = some (some menu, s, rest)) :
    Next signed numPat x ⟨endsLine x.input rest, menu, s, rest⟩

/-- The places of a run of `set_partition`. -/
def Visits (signed : Bool) (pa : List Entry) (numPat : ℕ) (m : ℤ) (input : Bytes) : Place → Prop :=
  Relation.ReflTransGen (Next signed numPat) ⟨true, .top, ⟨pa, m⟩, input⟩

/-- The text of the line that the input begins with. -/
def lineText (input : Bytes) : Bytes := input.takeWhile (· ≠ nl)

/-- What an answer should come to. -/
def Right (numPat : ℕ) (x : Place) (out : Option Menu × Session × Bytes) : Prop :=
  match x.menu, x.fresh with
  | .top, true =>
    (∀ i < numPat, lineText x.input = dec i → out.1 = some (.sub i) ∧ out.2.1 = x.session) ∧
      ((∀ i < numPat, lineText x.input ≠ dec i) → x.input.head? ≠ some 120 →
        out.1 = some .top ∧ out.2.1 = x.session)
  | .top, false => out.1 = some .top ∧ out.2.1 = x.session
  | .sub i, _ => (out.1 = some (.sub i) ∨ out.1 = some .top) ∧
      ∀ k ≠ i, out.2.1.pa[k]? = x.session.pa[k]?

/-- What an answer is read as: the first byte, or `z` if the piece is only one byte long. -/
def answerByte (signed : Bool) (input : Bytes) : ℤ :=
  if (cString (readLine 8191 input).1).length = 1 then 122 else charInt signed (input.headD 0)

/-- The answer opens a partition. -/
def Opens (signed : Bool) (numPat : ℕ) (input : Bytes) : Prop :=
  0 ≤ answerByte signed input - 48 ∧ answerByte signed input - 48 < numPat

instance decidableOpens (signed : Bool) (numPat : ℕ) (input : Bytes) :
    Decidable (Opens signed numPat input) := inferInstanceAs (Decidable (_ ∧ _))

/-- The answer does what it should: it begins with an `x`, or it is the number of a partition with
one digit and a newline, or it is no such number and opens nothing.  The rest of a line that was too
long opens nothing and does not begin with an `x`. -/
def Picks (signed : Bool) (numPat : ℕ) (x : Place) : Prop :=
  if x.fresh then
    x.input.head? = some 120 ∨
      (∃ i < numPat, i < 10 ∧ ∃ rest, x.input = dec i ++ nl :: rest) ∨
      (∀ i < numPat, lineText x.input ≠ dec i) ∧ ¬Opens signed numPat x.input
  else answerByte signed x.input ≠ 120 ∧ ¬Opens signed numPat x.input

/-! ## What an answer does -/

theorem getanswer_eq (hne : input ≠ []) :
    getanswer signed input = some (answerByte signed input, (readLine 8191 input).2) := by
  obtain ⟨c, t, rfl⟩ := List.exists_cons_of_ne_nil hne
  have hhead : (readLine 8191 (c :: t)).1.headD 0 = c := by
    rw [readLine]
    split_ifs <;> rfl
  rw [getanswer, fgets, if_neg hne, Option.map_some]
  dsimp only
  rw [hhead, answerByte]
  rfl

/-- Where the user is after an answer among the partitions. -/
def topAnswer (signed : Bool) (numPat : ℕ) (input : Bytes) : Option Menu :=
  if answerByte signed input = 120 then none
  else if Opens signed numPat input then some (.sub (answerByte signed input - 48).toNat)
  else some .top

theorem topAnswer_eq_sub_iff : topAnswer signed numPat input = some (.sub i) ↔
    answerByte signed input ≠ 120 ∧ Opens signed numPat input ∧
      (answerByte signed input - 48).toNat = i := by
  rw [topAnswer]
  split_ifs <;> simp [*]

theorem topAnswer_eq_top_iff : topAnswer signed numPat input = some .top ↔
    answerByte signed input ≠ 120 ∧ ¬Opens signed numPat input := by
  rw [topAnswer]
  split_ifs <;> simp [*]

/-- Among the partitions. -/
theorem answer_top (hne : input ≠ []) :
    answer signed numPat .top s input =
      some (topAnswer signed numPat input, s, (readLine 8191 input).2) := by
  rw [answer, getanswer_eq hne, Option.bind_some, topAnswer]
  dsimp only
  by_cases hx : answerByte signed input = 120
  · rw [if_pos hx, if_pos hx]
  rw [if_neg hx, if_neg hx]
  by_cases hlow : answerByte signed input - 48 < 0
  · rw [if_pos hlow, if_neg fun h ↦ by rw [Opens] at h; omega]
  rw [if_neg hlow]
  by_cases hhigh : answerByte signed input - 48 > (numPat : ℤ) - 1
  · rw [if_pos hhigh, if_neg fun h ↦ by rw [Opens] at h; omega]
  · rw [if_neg hhigh, if_pos ⟨by omega, by omega⟩]

/-- A command changes no other partition. -/
theorem command_frame {j : ℤ} (h : command i j s input = some (s', rest)) :
    ∀ k ≠ i, s'.pa[k]? = s.pa[k]? := by
  intro k hk
  have hchange : ∀ (f : Entry → Entry) (m : ℤ),
      (({ s with m } : Session).change i f).pa[k]? = s.pa[k]? := fun f m ↦ by
    simp [Session.change, hk.symm]
  rw [command] at h
  split_ifs at h
  · cases h
    exact hchange _ s.m
  · cases h
    exact hchange _ s.m
  · cases h
    exact hchange _ s.m
  · obtain ⟨⟨buf, rest⟩, -, heq⟩ := Option.map_eq_some_iff.1 h
    cases heq
    exact hchange _ s.m
  · obtain ⟨⟨buf, rest⟩, -, heq⟩ := Option.map_eq_some_iff.1 h
    dsimp only at heq
    split_ifs at heq
    · cases heq
      exact hchange _ _
    · cases heq
      rfl
  · cases h
    rfl

/-- In the menu of a partition. -/
theorem right_of_sub {fresh : Bool} {out : Option Menu × Session × Bytes}
    (h : answer signed numPat (.sub i) s input = some out) :
    Right numPat ⟨fresh, .sub i, s, input⟩ out := by
  obtain ⟨⟨j, input'⟩, -, heq⟩ := Option.bind_eq_some_iff.1 h
  dsimp only at heq
  split_ifs at heq
  · cases heq
    exact ⟨.inr rfl, fun _ _ ↦ rfl⟩
  · obtain ⟨⟨s₁, rest₁⟩, hcmd, heq⟩ := Option.map_eq_some_iff.1 heq
    cases heq
    exact ⟨.inl rfl, command_frame hcmd⟩

/-! ## Numbers -/

/-- A number and its first digit. -/
theorem exists_dec (i : ℕ) : ∃ c ds, dec i = c :: ds ∧ 48 ≤ c.toNat ∧ c.toNat ≤ 57 ∧
    (ds = [] → i = c.toNat - 48) ∧ (ds ≠ [] → 10 ≤ i) ∧ ∀ d ∈ ds, isdigit d = true := by
  obtain ⟨c, ds, hdec⟩ := List.exists_cons_of_ne_nil (dec_ne_nil i)
  have hdigits := dec_isdigit i
  rw [hdec, List.forall_mem_cons] at hdigits
  have hval := digitsVal_dec i
  have hc := isdigit_iff.1 hdigits.1
  refine ⟨c, ds, hdec, hc.1, hc.2, fun hds ↦ ?_, fun hds ↦ ?_, hdigits.2⟩
  · rw [hdec, hds] at hval
    rw [← hval, digitsVal, List.foldl_cons, List.foldl_nil, Nat.mul_zero, Nat.zero_add]
  · by_contra hlt
    have hone := (by decide : ∀ i < 10, (dec i).length = 1) i (not_le.1 hlt)
    rw [hdec, List.length_cons, Nat.add_eq_right, List.length_eq_zero_iff] at hone
    exact hds hone

theorem charInt_of_digit {c : UInt8} (hc : c.toNat ≤ 57) : charInt signed c = c.toNat := by
  have hlt : ¬128 ≤ c := by
    rw [UInt8.le_iff_toNat_le]
    exact not_le.2 (hc.trans_lt (by decide))
  simp [charInt, hlt]

theorem charInt_eq_iff {c : UInt8} : charInt signed c = 120 ↔ c = 120 := by
  have hlt := c.toNat_lt
  have h120 : (120 : UInt8).toNat = 120 := rfl
  rw [charInt, ← UInt8.toNat_inj]
  split_ifs with h
  · rw [Bool.and_eq_true, decide_eq_true_eq, UInt8.le_iff_toNat_le] at h
    have h128 : 128 ≤ c.toNat := h.2
    omega
  · omega

/-- The answer is an `x` only if the line begins with one. -/
theorem head_of_answerByte (hne : input ≠ []) (h : answerByte signed input = 120) :
    input.head? = some 120 := by
  obtain ⟨c, t, rfl⟩ := List.exists_cons_of_ne_nil hne
  rw [answerByte] at h
  split_ifs at h
  · cases h
  · exact congrArg some (charInt_eq_iff.1 h)

/-! ## A number that is entered -/

/-- The first two bytes of a line are in the first piece of it. -/
theorem answerByte_two {c d : UInt8} (hc : c ≠ 0) (hnl : c ≠ nl) (hd : d ≠ 0) (t : Bytes) :
    answerByte signed (c :: d :: t) = charInt signed c := by
  have hread : ∃ u, (readLine 8191 (c :: d :: t)).1 = c :: d :: u := by
    rw [readLine, if_neg hnl, readLine]
    split_ifs
    · exact ⟨[], rfl⟩
    · exact ⟨_, rfl⟩
  obtain ⟨u, hu⟩ := hread
  rw [answerByte, hu, if_neg]
  · rfl
  · rw [cString, List.takeWhile_cons_of_pos (by simpa using hc),
      List.takeWhile_cons_of_pos (by simpa using hd)]
    simp

/-- A line that is a number begins with its digits. -/
theorem exists_of_lineText {s : Bytes} (h : lineText input = s) :
    ∃ rest, input = s ++ rest ∧ ∀ c ∈ rest.head?, c = nl := by
  refine ⟨input.dropWhile (· ≠ nl), ?_, fun c hc ↦ ?_⟩
  · rw [← h, lineText, List.takeWhile_append_dropWhile]
  · have := List.head?_dropWhile_not (· ≠ nl) input
    rw [Option.mem_def.1 hc] at this
    simpa using this

/-- **A number opens its partition** exactly if it has one digit and a newline. -/
theorem opens_number_iff (hi : i < numPat) (htext : lineText input = dec i) :
    topAnswer signed numPat input = some (.sub i) ↔
      i < 10 ∧ ∃ rest, input = dec i ++ nl :: rest := by
  rw [topAnswer_eq_sub_iff]
  obtain ⟨rest, hinput, hrest⟩ := exists_of_lineText htext
  obtain ⟨c, ds, hdec, hlow, hhigh, hone, hmany, hdigits⟩ := exists_dec i
  have hc0 : c ≠ 0 := by
    rintro rfl
    exact absurd hlow (by decide)
  have hcnl : c ≠ nl := by
    rintro rfl
    exact absurd hlow (by decide)
  have hbyte : charInt signed c = c.toNat := charInt_of_digit hhigh
  rcases ds with - | ⟨d, ds⟩
  · have hval := hone rfl
    cases rest with
    | nil =>
      -- there is no newline, so it is read as a `z`
      have hans : answerByte signed input = 122 := by
        rw [hinput, hdec, List.append_nil, answerByte, readLine, if_neg hcnl]
        exact if_pos (by simp [cString, readLine, hc0])
      refine iff_of_false (fun h ↦ ?_) fun h ↦ ?_
      · rw [hans] at h
        have h74 := h.2.2
        omega
      · obtain ⟨-, rest, h⟩ := h
        rw [hinput, List.append_cancel_left_eq] at h
        cases h
    | cons e rest =>
      obtain rfl : e = nl := hrest e rfl
      have hans : answerByte signed input = c.toNat := by
        rw [hinput, hdec, List.singleton_append, answerByte_two hc0 hcnl (by decide), hbyte]
      rw [Opens, hans]
      refine iff_of_true ⟨by omega, ⟨by omega, by omega⟩, by omega⟩ ⟨by omega, rest, hinput⟩
  · have hge := hmany (List.cons_ne_nil d ds)
    have hd0 : d ≠ 0 := ne_of_class (hdigits d List.mem_cons_self) (by decide)
    have hans : answerByte signed input = c.toNat := by
      rw [hinput, hdec, List.cons_append, List.cons_append, answerByte_two hc0 hcnl hd0, hbyte]
    refine iff_of_false (fun h ↦ ?_) fun h ↦ by omega
    rw [hans] at h
    have hsel := h.2.2
    omega

theorem lineText_append {t : Bytes} (h : ∀ c ∈ t, c ≠ nl) (rest : Bytes) :
    lineText (t ++ nl :: rest) = t := by
  rw [lineText, List.takeWhile_append_of_pos (by simpa using h),
    List.takeWhile_cons_of_neg (by simp), List.append_nil]

theorem lineText_dec (i : ℕ) (rest : Bytes) : lineText (dec i ++ nl :: rest) = dec i :=
  lineText_append (fun c hc ↦ ne_of_class (dec_isdigit i c hc) (by decide)) rest

/-- A number does not begin with an `x`. -/
theorem head_of_number (htext : lineText input = dec i) : input.head? ≠ some 120 := by
  obtain ⟨rest, hinput, -⟩ := exists_of_lineText htext
  obtain ⟨c, ds, hdec, -, hhigh, -⟩ := exists_dec i
  rw [hinput, hdec]
  rintro ⟨⟩
  exact absurd hhigh (by decide)

/-! ## One answer -/

/-- A line among the partitions. -/
theorem right_fresh_iff (hne : input ≠ []) :
    Right numPat ⟨true, .top, s, input⟩ (topAnswer signed numPat input, s, rest) ↔
      Picks signed numPat ⟨true, .top, s, input⟩ := by
  simp only [Right, Picks, if_true, and_true, topAnswer_eq_top_iff]
  by_cases hnum : ∃ i < numPat, lineText input = dec i
  · obtain ⟨i, hi, htext⟩ := hnum
    have hhead := head_of_number htext
    have hall : ¬∀ i < numPat, lineText input ≠ dec i := fun h ↦ h i hi htext
    have hopens := @opens_number_iff signed numPat i input hi htext
    constructor
    · rintro ⟨h, -⟩
      obtain ⟨hlt, rest, hrest⟩ := hopens.1 (h i hi htext)
      exact .inr (.inl ⟨i, hi, hlt, rest, hrest⟩)
    · rintro (h | ⟨k, -, hlt, rest, hrest⟩ | ⟨h, -⟩)
      · exact absurd h hhead
      · have hk : k = i := dec_injective (by rw [← htext, hrest, lineText_dec])
        refine ⟨fun l _ hl ↦ ?_, fun h ↦ absurd h hall⟩
        have hli : l = i := dec_injective (hl.symm.trans htext)
        rw [hli]
        exact hopens.2 ⟨hk ▸ hlt, rest, hk ▸ hrest⟩
      · exact absurd h hall
  · have hall : ∀ i < numPat, lineText input ≠ dec i := fun i hi h ↦ hnum ⟨i, hi, h⟩
    constructor
    · rintro ⟨-, h⟩
      by_cases hhead : input.head? = some 120
      · exact .inl hhead
      · exact .inr (.inr ⟨hall, (h hall hhead).2⟩)
    · intro h
      refine ⟨fun i hi htext ↦ absurd htext (hall i hi), fun _ hhead ↦
        ⟨fun hx ↦ hhead (head_of_answerByte hne hx), ?_⟩⟩
      rcases h with h | ⟨i, hi, -, rest, hrest⟩ | ⟨-, h⟩
      · exact absurd h hhead
      · exact absurd (hrest ▸ lineText_dec i rest) (hall i hi)
      · exact h

/-- **One answer does what it should exactly under the condition.** -/
theorem right_iff {x : Place} (hne : x.input ≠ []) :
    (∀ out, answer signed numPat x.menu x.session x.input = some out → Right numPat x out) ↔
      (x.menu = .top → Picks signed numPat x) := by
  obtain ⟨fresh, menu, s, input⟩ := x
  cases menu with
  | sub i => exact iff_of_true (fun out h ↦ right_of_sub h) (by rintro ⟨⟩)
  | top =>
    rw [answer_top hne]
    simp only [Option.some.injEq, forall_eq', forall_const]
    cases fresh with
    | true => exact right_fresh_iff hne
    | false =>
      simp only [Right, Picks, Bool.false_eq_true, if_false, and_true, topAnswer_eq_top_iff]

/-! ## All answers -/

/-- **In a run every answer does what it should** exactly if each one among the partitions meets the
condition. -/
theorem select_iff (signed : Bool) (pa : List Entry) (numPat : ℕ) (m : ℤ) (input : Bytes) :
    (∀ x, Visits signed pa numPat m input x →
      ∀ out, answer signed numPat x.menu x.session x.input = some out → Right numPat x out) ↔
    ∀ x, Visits signed pa numPat m input x → x.menu = .top → x.input ≠ [] →
      Picks signed numPat x := by
  refine forall_congr' fun x ↦ imp_congr_right fun _ ↦ ?_
  by_cases hne : x.input = []
  · refine iff_of_true (fun out h ↦ ?_) fun _ h ↦ absurd hne h
    rw [hne] at h
    cases h
  · rw [right_iff hne]
    exact ⟨fun h hmenu _ ↦ h hmenu, fun h hmenu ↦ h hmenu hne⟩

/-- The number 10 opens the partition 1. -/
theorem ten_opens_one :
    ¬∀ x, Visits true (List.replicate 11 procEntry) 11 0 (cstr "10\nx\nx\n") x →
      ∀ out, answer true 11 x.menu x.session x.input = some out → Right 11 x out := by
  intro h
  have hstart : answer true 11 .top ⟨List.replicate 11 procEntry, 0⟩ (cstr "10\nx\nx\n")
      = some (some (.sub 1), ⟨List.replicate 11 procEntry, 0⟩, cstr "x\nx\n") := rfl
  have hright := h _ .refl _ hstart
  cases (hright.1 10 (by decide) (by decide)).1

/-! ## The end of a run -/

theorem exists_of_menuGo {n : ℕ} {x : Place} {pa' : List Entry}
    (h : menuGo signed numPat n x.menu x.session x.input = some (pa', rest)) :
    ∃ y m, Relation.ReflTransGen (Next signed numPat) x y ∧
      answer signed numPat y.menu y.session y.input = some (none, ⟨pa', m⟩, rest) := by
  induction n generalizing x with
  | zero => cases h
  | succ n ih =>
    rw [menuGo] at h
    split at h
    · cases h
    · rename_i s rest' heq
      cases h
      exact ⟨x, s.m, .refl, heq⟩
    · rename_i menu s rest' heq
      obtain ⟨y, m, hy, hans⟩ := ih (x := ⟨endsLine x.input rest', menu, s, rest'⟩) h
      exact ⟨y, m, .head (.answer heq) hy, hans⟩

theorem menuGo_of_run {x y : Place} {pa' : List Entry} {m : ℤ}
    (h : Relation.ReflTransGen (Next signed numPat) x y)
    (hend : answer signed numPat y.menu y.session y.input = some (none, ⟨pa', m⟩, rest)) :
    menuGo signed numPat (x.input.length + 1) x.menu x.session x.input = some (pa', rest) := by
  induction h using Relation.ReflTransGen.head_induction_on with
  | refl => rw [menuGo, hend]
  | head hnext _ ih =>
    obtain ⟨hans⟩ := hnext
    rw [menuGo, hans]
    dsimp only
    rw [menuGo_eq (length_answer hans) (Nat.lt_succ_self _), ih]

/-- **What `set_partition` returns is the table at the last place of the run**, and it returns if
the run has one. -/
theorem setPartition_eq_some_iff {pa pa' : List Entry} {m : ℤ} :
    setPartition signed pa numPat m input = some (pa', rest) ↔
      ∃ x m', Visits signed pa numPat m input x ∧
        answer signed numPat x.menu x.session x.input = some (none, ⟨pa', m'⟩, rest) := by
  constructor
  · exact exists_of_menuGo (x := ⟨true, .top, ⟨pa, m⟩, input⟩)
  · rintro ⟨x, m', hvisits, hend⟩
    exact menuGo_of_run hvisits hend

end Sysinst
