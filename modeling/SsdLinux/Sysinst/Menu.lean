import SsdLinux.CLib.Stdio
import SsdLinux.Sysinst.Partition
import Mathlib.Logic.Relation
import Mathlib.Data.List.Forall2

/-!
# `sysinst`: editing the partitions

`set_partition` shows the partitions and lets the user choose one by its number.  In the menu of a
partition he can toggle its use (`a`), the check for bad blocks (`c`) and the type of its file
system (`f`), and enter a mount point (`m`) and a block size (`b`).  The menu of a swap partition
does not offer `f`, `m` and `b`, but the commands are there all the same.

* The input is a text, and `fgets` takes lines from it.  An answer is the first byte of a line, so
  that the number of a partition has one digit.
* A `char` has a sign on the i386 and has none on the PowerPC (`signed`).
* The block size is read into a variable of its own, which keeps what it had, and has anything in
  the beginning, if there is no number.
* If the input ends before the user has left the menu, the run has no result.

What is shown to the user is left out.  A session changes a table one partition at a time (`Edit`),
and `edited_of_setPartition` is the lemma about all of them.
-/

set_option autoImplicit false

namespace Sysinst

open CLib

/-! ## Reading answers -/

/-- A byte as a number. -/
def charInt (signed : Bool) (c : UInt8) : ℤ :=
  if signed && decide (128 ≤ c) then c.toNat - 256 else c.toNat

/-- `getanswer`, and the rest of the input. -/
def getanswer (signed : Bool) (input : Bytes) : Option (ℤ × Bytes) :=
  (fgets 8191 input).map fun (buf, rest) ↦
    (if (cString buf).length = 1 then 122 else charInt signed (buf.headD 0), rest)

/-- `chop`: the line without its newline. -/
def chop (source : Bytes) : Bytes := source.takeWhile fun c ↦ c != nl && c != 0

/-! ## The menus -/

/-- The table, and the variable for the block size. -/
structure Session where
  pa : List Entry
  m : ℤ

/-- Change an entry. -/
def Session.change (s : Session) (i : ℕ) (f : Entry → Entry) : Session :=
  { s with pa := s.pa.modify i f }

def toggleAct (e : Entry) : Entry := { e with flagAct := !e.flagAct }

def toggleCk (e : Entry) : Entry := { e with flagCk := !e.flagCk }

def toggleFst (e : Entry) : Entry := { e with fst := if e.fst = ext2 then ext3 else ext2 }

def enterMntp (buf : Bytes) (e : Entry) : Entry :=
  { e with
    mntp := chop buf
    flagAct := if (chop buf).length ≠ 0 then true else e.flagAct }

def IsBlockSize (m : ℤ) : Prop := m = 512 ∨ m = 1024 ∨ m = 2048 ∨ m = 4096 ∨ m = 8192

instance decidableIsBlockSize (m : ℤ) : Decidable (IsBlockSize m) :=
  inferInstanceAs (Decidable (_ ∨ _))

/-- A command `j` in the menu of the partition `i`.  Some commands read another line. -/
def command (i : ℕ) (j : ℤ) (s : Session) (input : Bytes) : Option (Session × Bytes) :=
  if j = 97 then some (s.change i toggleAct, input)
  else if j = 99 then some (s.change i toggleCk, input)
  else if j = 102 then some (s.change i toggleFst, input)
  else if j = 109 then
    (fgets 4095 input).map fun (buf, rest) ↦ (s.change i (enterMntp buf), rest)
  else if j = 98 then
    (fgets 8191 input).map fun (buf, rest) ↦
      let m := ((scanInt (cString buf)).map Prod.fst).getD s.m
      let s := { s with m }
      (if IsBlockSize m then s.change i fun e ↦ { e with bsize := m } else s, rest)
  else some (s, input)

/-- Where the user is: among the partitions, or in the menu of one of them. -/
inductive Menu
  | top
  | sub (i : ℕ)

/-- An answer: where the user is then, or `none` if he has left. -/
def answer (signed : Bool) (numPat : ℕ) (menu : Menu) (s : Session) (input : Bytes) :
    Option (Option Menu × Session × Bytes) :=
  (getanswer signed input).bind fun (j, rest) ↦
    match menu with
    | .top =>
      if j = 120 then some (none, s, rest)
      else if j - 48 < 0 then some (some .top, s, rest)
      else if j - 48 > (numPat : ℤ) - 1 then some (some .top, s, rest)
      else some (some (.sub (j - 48).toNat), s, rest)
    | .sub i =>
      if j = 120 then some (some .top, s, rest)
      else (command i j s rest).map fun (s, rest) ↦ (some (.sub i), s, rest)

/-- The two loops.  The first number bounds the answers, each of which takes something of the
input. -/
def menuGo (signed : Bool) (numPat : ℕ) :
    ℕ → Menu → Session → Bytes → Option (List Entry × Bytes)
  | 0, _, _, _ => none
  | n + 1, menu, s, input =>
    match answer signed numPat menu s input with
    | none => none
    | some (none, s, rest) => some (s.pa, rest)
    | some (some menu, s, rest) => menuGo signed numPat n menu s rest

/-- `set_partition`: the table, and the rest of the input.  The variable for the block size begins
with `m`. -/
def setPartition (signed : Bool) (pa : List Entry) (numPat : ℕ) (m : ℤ) (input : Bytes) :
    Option (List Entry × Bytes) :=
  menuGo signed numPat (input.length + 1) .top ⟨pa, m⟩ input

/-! ## What a session does -/

variable {signed : Bool} {numPat n i : ℕ} {pa pa' pa'' : List Entry} {s s' : Session}
  {input rest : Bytes} {e e' : Entry}

/-- What one command does with the entry of a partition. -/
inductive Edit : Entry → Entry → Prop
  | act (e : Entry) : Edit e (toggleAct e)
  | ck (e : Entry) : Edit e (toggleCk e)
  | fst (e : Entry) : Edit e (toggleFst e)
  | mntp (buf : Bytes) (e : Entry) : Edit e (enterMntp buf e)
  | bsize (m : ℤ) (h : IsBlockSize m) (e : Entry) : Edit e { e with bsize := m }

/-- The first `num_pat` entries are edited, and what is behind them is as it was. -/
structure Edited (numPat : ℕ) (pa pa' : List Entry) : Prop where
  entries : List.Forall₂ (Relation.ReflTransGen Edit) pa pa'
  behind : pa'.drop numPat = pa.drop numPat

theorem Edited.refl (numPat : ℕ) (pa : List Entry) : Edited numPat pa pa :=
  ⟨List.forall₂_same.2 fun _ _ ↦ .refl, rfl⟩

theorem Edited.trans (h : Edited numPat pa pa') (h' : Edited numPat pa' pa'') :
    Edited numPat pa pa'' := by
  refine ⟨?_, h'.behind.trans h.behind⟩
  obtain ⟨hentries, -⟩ := h
  obtain ⟨hentries', -⟩ := h'
  induction hentries generalizing pa'' with
  | nil => exact hentries'
  | cons he _ ih =>
    cases hentries' with
    | cons he' htail => exact .cons (he.trans he') (ih htail)

theorem forall₂_modify {f : Entry → Entry} (hf : ∀ e, Edit e (f e)) (pa : List Entry) (i : ℕ) :
    List.Forall₂ (Relation.ReflTransGen Edit) pa (pa.modify i f) := by
  induction pa generalizing i with
  | nil => rw [List.modify_nil]; exact .nil
  | cons e pa ih =>
    cases i with
    | zero =>
      rw [List.modify_zero_cons]
      exact .cons (.single (hf e)) (List.forall₂_same.2 fun _ _ ↦ .refl)
    | succ i =>
      rw [List.modify_succ_cons]
      exact .cons .refl (ih i)

/-- **One command.** -/
theorem edited_of_command {j : ℤ} (hi : i < numPat) (h : command i j s input = some (s', rest)) :
    Edited numPat s.pa s'.pa := by
  have hchange {f : Entry → Entry} (hf : ∀ e, Edit e (f e)) (m : ℤ) :
      Edited numPat s.pa ({ s with m }.change i f).pa :=
    ⟨forall₂_modify hf s.pa i, List.drop_modify_of_lt f i numPat s.pa hi⟩
  rw [command] at h
  split_ifs at h
  · cases h
    exact hchange .act s.m
  · cases h
    exact hchange .ck s.m
  · cases h
    exact hchange .fst s.m
  · obtain ⟨⟨buf, rest⟩, -, heq⟩ := Option.map_eq_some_iff.1 h
    cases heq
    exact hchange (.mntp buf) s.m
  · obtain ⟨⟨buf, rest⟩, -, heq⟩ := Option.map_eq_some_iff.1 h
    dsimp only at heq
    split_ifs at heq with hm
    · cases heq
      exact hchange (.bsize _ hm) _
    · cases heq
      exact .refl numPat s.pa
  · cases h
    exact .refl numPat s.pa

/-- The menu is one that there is. -/
def Menu.Valid (numPat : ℕ) : Menu → Prop
  | top => True
  | sub i => i < numPat

/-- **One answer.** -/
theorem edited_of_answer {menu : Menu} {next : Option Menu} (hmenu : menu.Valid numPat)
    (h : answer signed numPat menu s input = some (next, s', rest)) :
    Edited numPat s.pa s'.pa ∧ ∀ menu' ∈ next, menu'.Valid numPat := by
  obtain ⟨⟨j, input'⟩, -, heq⟩ := Option.bind_eq_some_iff.1 h
  cases menu with
  | top =>
    dsimp only at heq
    split_ifs at heq with hx hlow hhigh
    all_goals cases heq; refine ⟨.refl numPat s.pa, ?_⟩
    · exact fun _ h ↦ absurd h (Option.not_mem_none _)
    all_goals rintro _ ⟨⟩
    · trivial
    · trivial
    · exact (Int.toNat_lt (by omega)).2 (by omega)
  | sub i =>
    dsimp only at heq
    split_ifs at heq with hx
    · cases heq
      exact ⟨.refl numPat s.pa, by rintro _ ⟨⟩; trivial⟩
    · obtain ⟨⟨s₁, rest₁⟩, hcmd, heq⟩ := Option.map_eq_some_iff.1 heq
      cases heq
      exact ⟨edited_of_command hmenu hcmd, by rintro _ ⟨⟩; exact hmenu⟩

theorem edited_of_menuGo {menu : Menu} (hmenu : menu.Valid numPat)
    (h : menuGo signed numPat n menu s input = some (pa', rest)) : Edited numPat s.pa pa' := by
  induction n generalizing menu s input with
  | zero => cases h
  | succ n ih =>
    rw [menuGo] at h
    split at h
    · cases h
    · rename_i heq
      cases h
      exact (edited_of_answer hmenu heq).1
    · rename_i heq
      obtain ⟨hedit, hvalid⟩ := edited_of_answer hmenu heq
      exact hedit.trans (ih (hvalid _ rfl) h)

/-- **A session edits the partitions, and nothing behind them.** -/
theorem edited_of_setPartition {m : ℤ}
    (h : setPartition signed pa numPat m input = some (pa', rest)) : Edited numPat pa pa' :=
  edited_of_menuGo (show Menu.Valid numPat .top from trivial) h

/-! ## The bound on the answers -/

theorem length_getanswer {j : ℤ} (h : getanswer signed input = some (j, rest)) :
    rest.length < input.length := by
  obtain ⟨⟨buf, rest'⟩, hread, heq⟩ := Option.map_eq_some_iff.1 h
  cases heq
  exact length_fgets hread

theorem length_command {j : ℤ} (h : command i j s input = some (s', rest)) :
    rest.length ≤ input.length := by
  rw [command] at h
  split_ifs at h
  · cases h
    exact le_rfl
  · cases h
    exact le_rfl
  · cases h
    exact le_rfl
  · obtain ⟨⟨buf, rest'⟩, hread, heq⟩ := Option.map_eq_some_iff.1 h
    cases heq
    exact (length_fgets hread).le
  · obtain ⟨⟨buf, rest'⟩, hread, heq⟩ := Option.map_eq_some_iff.1 h
    cases heq
    exact (length_fgets hread).le
  · cases h
    exact le_rfl

/-- An answer takes something of the input. -/
theorem length_answer {menu : Menu} {next : Option Menu}
    (h : answer signed numPat menu s input = some (next, s', rest)) :
    rest.length < input.length := by
  obtain ⟨⟨j, input'⟩, hans, heq⟩ := Option.bind_eq_some_iff.1 h
  have hlt := length_getanswer hans
  cases menu with
  | top =>
    dsimp only at heq
    split_ifs at heq <;> cases heq <;> exact hlt
  | sub i =>
    dsimp only at heq
    split_ifs at heq
    · cases heq
      exact hlt
    · obtain ⟨⟨s₁, rest₁⟩, hcmd, heq⟩ := Option.map_eq_some_iff.1 heq
      cases heq
      exact (length_command hcmd).trans_lt hlt

/-- More rounds than there are bytes do not matter. -/
theorem menuGo_eq {k : ℕ} {menu : Menu} (hn : input.length < n) (hk : input.length < k) :
    menuGo signed numPat n menu s input = menuGo signed numPat k menu s input := by
  induction n generalizing k menu s input with
  | zero => exact absurd hn (Nat.not_lt_zero _)
  | succ n ih =>
    obtain ⟨k, rfl⟩ := Nat.exists_eq_succ_of_ne_zero (Nat.ne_zero_of_lt hk)
    rw [menuGo, menuGo]
    rcases hans : answer signed numPat menu s input with _ | ⟨_ | menu', s', rest⟩
    · rfl
    · rfl
    · have := length_answer hans
      exact ih (by omega) (by omega)

end Sysinst
