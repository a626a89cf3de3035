import SsdLinux.Calls
import SsdLinux.Setup.Form
import SsdLinux.Setup.Nextid

/-!
# The bodies of the macro evaluator

`eval` has no result if it goes wrong, and that does not say where it did.  Here the evaluator is
written down once more, as a procedure that calls itself for the arguments and tells the steps that
it cannot make in every state (`MacroStep`).

* `Dangling` is quoted text that is left with a backslash at the end of the string, and
  `atoi_numeric` is what becomes of the number of an item.
* `Embodies f body` says that a body is the function `f` of `functab`, calls for nothing that is not
  behind its argument, and leaves a rest of it.  All bodies of `bodytab` do (`forall₂_bodytab`).
* **`evalBody` is `eval` with one call** (`ask_evalBody`), and calls for shorter strings only
  (`within_evalBody`).

The texts have to be made here too: a call that comes to nothing leaves its text for the name of the
next function of the table.
-/

set_option autoImplicit false

namespace Setup

open CLib

/-! ## Quoted text that is left with a backslash -/

/-- The text has no quote that closes it, and a backslash at its end that makes nothing literal. -/
def Dangling : Bytes → Prop
  | [] => False
  | [c] => c = backslash
  | c :: d :: s => c ≠ dquote ∧ if c = backslash then Dangling s else Dangling (d :: s)

instance decidableDangling : ∀ s, Decidable (Dangling s)
  | [] => inferInstanceAs (Decidable False)
  | [c] => inferInstanceAs (Decidable (c = backslash))
  | c :: d :: s =>
    have := decidableDangling s
    have := decidableDangling (d :: s)
    inferInstanceAs (Decidable (_ ∧ if c = backslash then _ else _))

theorem dangling_cons {c : UInt8} (h1 : c ≠ backslash) (h2 : c ≠ dquote) (s : Bytes) :
    Dangling (c :: s) ↔ Dangling s := by
  cases s with
  | nil => exact iff_of_false h1 id
  | cons d s => rw [Dangling, if_neg h1, and_iff_right h2]

theorem dangling_append {pre : Bytes} (hpre : ∀ c ∈ pre, c ≠ backslash ∧ c ≠ dquote) (s : Bytes) :
    Dangling (pre ++ s) ↔ Dangling s := by
  induction pre with
  | nil => rfl
  | cons c pre ih =>
    rw [List.forall_mem_cons] at hpre
    rw [List.cons_append, dangling_cons hpre.1.1 hpre.1.2, ih hpre.2]

variable {w : World} {p : Proc}

theorem dangling_val (s : Bytes) : Dangling (val w p s).2 ↔ Dangling s := by
  obtain ⟨pre, h, hpre⟩ := val_suffix (w := w) (p := p) s
  have hpre' : ∀ c ∈ pre, c ≠ backslash ∧ c ≠ dquote := fun c hc ↦ by
    rcases hpre c hc with h | rfl | rfl
    · exact ⟨ne_of_class h (by decide), ne_of_class h (by decide)⟩
    · decide
    · decide
  exact (dangling_append hpre' (val w p s).2).symm.trans (by rw [← h])

/-- **`qatom` leaves its string exactly at a backslash at the end.** -/
theorem qatom_eq_none (s : Bytes) : qatom w p s = none ↔ Dangling s := by
  induction hn : s.length using Nat.strong_induction_on generalizing s with
  | _ n ih =>
  subst hn
  cases s with
  | nil => exact iff_of_false (by simp) id
  | cons c s =>
    have hs : qatom w p s = none ↔ Dangling s := ih s.length (by simp) s rfl
    by_cases h1 : c = backslash
    · subst h1
      cases s with
      | nil => exact iff_of_true rfl rfl
      | cons d s =>
        rw [qatom_backslash, Option.map_eq_none_iff, Dangling, if_pos rfl,
          and_iff_right (by decide), ih s.length (by simp only [List.length_cons]; omega) s rfl]
    by_cases h2 : c = dollar
    · subst h2
      have hv := val_length_le (w := w) (p := p) s
      rw [qatom_dollar, Option.map_eq_none_iff, dangling_cons h1 (by decide),
        ih _ (by rw [List.length_cons]; omega) _ rfl, dangling_val]
    by_cases h3 : c = dquote
    · subst h3
      rw [qatom_dquote]
      refine iff_of_false (by simp) ?_
      cases s with
      | nil => exact h1
      | cons d s => exact fun h ↦ h.1 rfl
    · rw [qatom_other h1 h2 h3, Option.map_eq_none_iff, dangling_cons h1 h3, hs]

/-! ## Numbers -/

/-- The number that `numeric` comes to, as an `int`. -/
theorem numeric_fst (s : Bytes) :
    (numeric s).1 = decInt (BitVec.ofNat 32 (digitsVal (s.takeWhile isdigit))).toInt := by
  have key : ∀ (ds : Bytes) (m : ℕ), (∀ c ∈ ds, isdigit c = true) →
      ds.foldl (fun n c ↦ n * 10 + (BitVec.ofNat 32 c.toNat - 48)) (BitVec.ofNat 32 m)
        = BitVec.ofNat 32 (ds.foldl (fun n c ↦ 10 * n + (c.toNat - 48)) m) := by
    intro ds
    induction ds with
    | nil => exact fun m _ ↦ rfl
    | cons c ds ih =>
      intro m hds
      rw [List.forall_mem_cons] at hds
      have hc := isdigit_iff.1 hds.1
      have hten : (10 : BitVec 32).toNat = 10 := rfl
      have hzero : (48 : BitVec 32).toNat = 48 := rfl
      have hstep : BitVec.ofNat 32 m * 10 + (BitVec.ofNat 32 c.toNat - 48)
          = BitVec.ofNat 32 (10 * m + (c.toNat - 48)) := by
        apply BitVec.eq_of_toNat_eq
        simp only [BitVec.toNat_add, BitVec.toNat_mul, BitVec.toNat_sub, BitVec.toNat_ofNat, hten,
          hzero]
        omega
      rw [List.foldl_cons, List.foldl_cons, hstep]
      exact ih _ hds.2
  rw [numeric]
  exact congrArg (fun n : BitVec 32 ↦ decInt n.toInt)
    (key _ 0 fun c hc ↦ List.mem_takeWhile_imp hc)

/-- **The number goes around at 2^32, and its upper half is negative.** -/
theorem atoi_numeric (s : Bytes) :
    atoi (numeric s).1 =
      if digitsVal (s.takeWhile isdigit) % 2 ^ 32 < 2 ^ 31 then
        ((digitsVal (s.takeWhile isdigit) % 2 ^ 32 : ℕ) : ℤ)
      else ((digitsVal (s.takeWhile isdigit) % 2 ^ 32 : ℕ) : ℤ) - 4294967296 := by
  rw [numeric_fst, atoi_decInt, clampInt, BitVec.toInt_eq_toNat_cond, BitVec.toNat_ofNat]
  split <;> split <;> omega
theorem atoi_numeric_neg (s : Bytes) :
    atoi (numeric s).1 < 0 ↔ ¬digitsVal (s.takeWhile isdigit) % 2 ^ 32 < 2 ^ 31 := by
  rw [atoi_numeric]
  split <;> omega

/-! ## Steps and bodies -/

/-- What the evaluator does that not every state lets it do. -/
inductive MacroStep
  /-- It reads the quoted text that the string begins with. -/
  | quote (s : Bytes)
  /-- It takes the item whose number the string begins with, after a look whether the number is
  below the number of items. -/
  | item (s : Bytes)
  /-- It writes the items with this format. -/
  | format (w : World) (items : List Bytes) (fmt : Bytes)
  /-- It takes the name of a field without its first byte. -/
  | tail (name : Bytes)
  /-- It takes the first two items of every row. -/
  | rows (l : List (List Bytes))
  /-- It reads the lines of a file. -/
  | lines (file : Bytes)

namespace MacroStep

/-- The step stays in its string, its list or its format, and comes to an end. -/
def Ok : MacroStep → Prop
  | quote s => ¬Dangling s
  | item s => digitsVal (s.takeWhile isdigit) % 2 ^ 32 < 2 ^ 31
  | format w items fmt => ∀ item ∈ items, (sprintfS w fmt item).isSome = true
  | tail name => name ≠ []
  | rows l => ∀ row ∈ l, 2 ≤ row.length
  | lines file => ∀ line ∈ readStrings file, line.length ≠ 1023

instance decidableOk : DecidablePred Ok
  | quote s => inferInstanceAs (Decidable ¬Dangling s)
  | item s => inferInstanceAs (Decidable (digitsVal (s.takeWhile isdigit) % 2 ^ 32 < 2 ^ 31))
  | format w items fmt =>
    inferInstanceAs (Decidable (∀ item ∈ items, (sprintfS w fmt item).isSome = true))
  | tail name => inferInstanceAs (Decidable (name ≠ []))
  | rows l => inferInstanceAs (Decidable (∀ row ∈ l, 2 ≤ row.length))
  | lines file => inferInstanceAs (Decidable (∀ line ∈ readStrings file, line.length ≠ 1023))

/-- The formats of the templates are the key of an entry, with `%s` for the item. -/
theorem format_ok {w : World} {items : List Bytes} {pre post : Bytes} (hpre : percent ∉ pre)
    (hpost : percent ∉ post) (hlen : ∀ item ∈ items, (pre ++ (item ++ post)).length < 2 ^ 31) :
    (format w items (pre ++ percent :: 115 :: post)).Ok := fun item hitem ↦ by
  rw [sprintfS, sprintfString_s hpre hpost (hlen item hitem), Option.some_or]
  rfl

end MacroStep

/-- A body of the evaluator, which comes to a text and the rest of the string. -/
abbrev Code := Calls Bytes (Bytes × Bytes) MacroStep (Bytes × Bytes)

open Calls (done spent step call)

variable (w : World) (pg : Script) (p : Proc)

/-- A function that calls for one argument. -/
def oneArg (f : Func) (s : Bytes) : Code :=
  call s fun a ↦ done ((f (fun _ ↦ some a) s).getD ([], s))

/-- A function that calls for none. -/
def noArg (f : Func) (s : Bytes) : Code := done ((f (fun _ ↦ none) s).getD ([], s))

/-- `func_input_text` and `func_input_passwd`. -/
def inputBody (typ s : Bytes) : Code :=
  let tag (name value opt : Bytes) : Bytes := inputTag typ name value (blank :: opt)
  call s fun (name, r) ↦
    if r.head? ≠ some comma then done (tag name ((getval w name p).getD []) [], r)
    else call r.tail fun (value, r) ↦
      if r.head? ≠ some comma then done (tag name value [], r)
      else call r.tail fun (opt, r) ↦ done (tag name value opt, r)

/-- `func_input_hidden`. -/
def hiddenBody (s : Bytes) : Code :=
  call s fun (name, r) ↦
    if r.head? ≠ some comma then done ([], s)
    else call r.tail fun (value, r) ↦ done (inputTag (cstr "HIDDEN") name value [], r)

/-- The options of a selection. -/
def optionsBody (value : Bytes) : ℕ → Bytes → Code
  | 0, _ => spent
  | n + 1, s => call s fun (option, r) ↦
    let text := (if value = option then cstr "<OPTION SELECTED>" else cstr "<OPTION>")
      ++ option ++ [nl]
    if r.head? ≠ some comma then done (text, r)
    else (optionsBody value n r.tail).bind fun (rest, r) ↦ done (text ++ rest, r)

/-- `func_input_select`. -/
def selectBody (s : Bytes) : Code :=
  call s fun (name, r) ↦
    if r.head? ≠ some comma then done ([], s)
    else call r.tail fun (value, r) ↦
      if r.head? ≠ some comma then done ([], s)
      else (optionsBody value (s.length + 1) r.tail).bind fun (options, r) ↦
        done (cstr "<SELECT NAME=\"" ++ name ++ cstr "\">" ++ options ++ cstr "</SELECT>", r)

/-- `func_input_checkbox`. -/
def checkboxBody (s : Bytes) : Code :=
  let tags (name : Bytes) (val : Option Bytes) : Bytes :=
    (if name.tail = [] then []
      else cstr "<INPUT TYPE=HIDDEN NAME=\"j" ++ name.tail ++ cstr "\" VALUE=\"NO\">")
      ++ cstr "<INPUT TYPE=CHECKBOX NAME=\"" ++ name ++ cstr "\" VALUE=\"YES\""
      ++ (if val.any fun v ↦ atoi v ≠ 0 ∨ strcaseeq v (cstr "yes") then cstr " CHECKED>"
        else cstr ">")
  call s fun (name, r) ↦
    if r.head? ≠ some comma then step (.tail name) (done (tags name (getval w name p), r))
    else call r.tail fun (value, r) ↦ step (.tail name) (done (tags name (some value), r))

/-- `func_input_radio`. -/
def radioBody (s : Bytes) : Code :=
  call s fun (name, r) ↦
    if r.head? ≠ some comma then done ([], r)
    else call r.tail fun (radio, r) ↦
      call (if r.head? = some comma then r.tail else r) fun (value, r) ↦
        done (cstr "<INPUT TYPE=RADIO NAME=\"" ++ name ++ cstr "\" VALUE=\"" ++ radio ++ cstr "\""
          ++ (if radio = value then cstr " CHECKED" else []) ++ cstr ">\n", r)

/-- `func_input_netmask`. -/
def netmaskBody (s : Bytes) : Code :=
  let tags (name value : Bytes) : Bytes :=
    cstr "<SELECT NAME=\"" ++ name ++ cstr "\">"
      ++ ((List.range' 2 31).flatMap fun (i : ℕ) ↦
        cstr "<OPTION VALUE=\"" ++ maskToIp4 i
          ++ (if ip4ToMask w value = (i : ℤ) then cstr "\" SELECTED>" else cstr "\">") ++ dec i
          ++ [nl])
      ++ cstr "</SELECT>"
  call s fun (name, r) ↦
    if r.head? ≠ some comma then done (tags name ((getval w name p).getD []), r)
    else call r.tail fun (value, r) ↦ done (tags name value, r)

/-- A row of `func_trlist`. -/
def trRow (key item : Bytes) : Bytes :=
  cstr "<TR>" ++ ((listSplit 0 (getval w key p)).flatMap fun t ↦
    cstr "<TD>" ++ t ++ cstr "</TD>") ++ deleteButton item ++ cstr "</TR>"

/-- `func_trlist`. -/
def trlistBody (s : Bytes) : Code :=
  call s fun (listKey, r) ↦
    if r.head? ≠ some comma then done ([], s)
    else call r.tail fun (fmt, r) ↦
      let items := listSplit 0 (getval w listKey p)
      step (.format w items fmt)
        (done (items.flatMap fun item ↦ trRow w p ((sprintfS w fmt item).getD []) item, r))

/-- The rows that `func_zone_trlist` takes the type and the name of a zone from. -/
def zoneRows : List (List Bytes) :=
  (listSplit 0 (getval w zoneKey p)).map fun item ↦
    listSplit 0 (getval w (zoneKey ++ decInt (atoi item)) p)

/-- `functab`, with the bodies. -/
def bodytab : List (Bytes × (Bytes → Code)) :=
  [(cstr "eval", oneArg (funcEval w p)), (cstr "input_text", inputBody w p (cstr "TEXT")),
    (cstr "input_passwd", inputBody w p (cstr "PASSWORD")),
    (cstr "input_hidden", hiddenBody), (cstr "input_select", selectBody),
    (cstr "input_checkbox", checkboxBody w p), (cstr "input_radio", radioBody),
    (cstr "input_netmask", netmaskBody w p), (cstr "head", oneArg funcHead),
    (cstr "head2", oneArg funcHead2), (cstr "trlist", trlistBody w p),
    (cstr "user_trlist", fun s ↦ step (.lines pg.passwd) (noArg (funcUserTrlist pg) s)),
    (cstr "zone_trlist", fun s ↦ step (.rows (zoneRows w p)) (noArg (funcZoneTrlist w pg p) s)),
    (cstr "user_nextid", fun s ↦ step (.lines pg.passwd) (noArg (funcUserNextid pg) s)),
    (cstr "nextval", oneArg funcNextval), (cstr "def_formarg", noArg (funcDefFormarg pg))]

/-- The loop of `eval_func`. -/
def evalFuncBodyGo (s : Bytes) : List (Bytes × (Bytes → Code)) → Bytes → Bytes → Code
  | [], _, _ => done ([], s)
  | (fname, f) :: tab, name, r =>
    if fname = name then
      if r.head? = some lparen then
        (f r.tail).bind fun (t, r) ↦
          if r.head? = some rparen then done (t, r.tail) else evalFuncBodyGo s tab t r
      else evalFuncBodyGo s tab [] r
    else evalFuncBodyGo s tab name r

/-- `eval_func`. -/
def evalFuncBody (s : Bytes) : Code :=
  evalFuncBodyGo s (bodytab w pg p) (atom s).1 (atom s).2

/-- `token`. -/
def tokenBody (s : Bytes) : Code :=
  let t : Code := done ((token w p s).getD ([], s))
  if (s.dropWhile isspace).head? = some dquote then step (.quote (s.dropWhile isspace).tail) t
  else t

/-- `eval_sub`. -/
def evalSubBody (s : Bytes) : Code :=
  if s = [] then done ([], [])
  else (evalFuncBody w pg p s).bind fun (t, r) ↦ if r ≠ s then done (t, r) else tokenBody w p s

/-- The rest of `eval`. -/
def evalIndexBody (t r : Bytes) : Code :=
  if r.head? ≠ some lbracket then done (t, r)
  else
    let (digits, r') := numeric r.tail
    if r'.head? ≠ some rbracket then done (t, r')
    else
      let n := atoi digits
      let items := listSplit 0 (some t)
      step (.item r.tail) (done ((items[n.toNat]?).getD [], r'.tail))

/-- `eval`. -/
def evalBody (s : Bytes) : Code := (evalSubBody w pg p s).bind fun (t, r) ↦ evalIndexBody t r

variable {w pg p}

/-! ## The bodies are the functions -/

/-- What is left of an argument is at its end. -/
def Rest (q : Bytes) (a : Bytes × Bytes) : Prop := a.2 <:+ q

/-- The body is the function, it calls only for what is not before its string, and leaves a rest of
it. -/
structure Embodies (f : Func) (body : Bytes → Code) : Prop where
  ask : ∀ ev s, (body s).ask MacroStep.Ok ev = f ev s
  within : ∀ s b, s.length < b → (body s).Within MacroStep.Ok List.length Rest b (Rest s)

theorem tail_suffix {r s : Bytes} {c : UInt8} (hr : r <:+ s) (hc : r.head? = some c) :
    r.tail <:+ s ∧ r.tail.length < s.length := by
  have hlen := hr.length_le
  cases r with
  | nil => cases hc
  | cons d r => exact ⟨(List.suffix_cons d r).trans hr, by rwa [List.length_cons] at hlen⟩

/-- A body that goes on behind a byte. -/
theorem within_if {r s : Bytes} {c : UInt8} {b : ℕ} {t t' : Code} {Good : Bytes × Bytes → Prop}
    (hr : r <:+ s) (ht : t.Within MacroStep.Ok List.length Rest b Good)
    (ht' : r.tail <:+ s → r.tail.length < s.length →
      t'.Within MacroStep.Ok List.length Rest b Good) :
    (if r.head? ≠ some c then t else t').Within MacroStep.Ok List.length Rest b Good := by
  split
  · exact ht
  · rename_i hc
    obtain ⟨hsuf, hlt⟩ := tail_suffix hr (not_not.mp hc)
    exact ht' hsuf hlt

theorem embodies_oneArg {f : Func} {F : Bytes × Bytes → Bytes × Bytes}
    (hf : ∀ ev s, f ev s = (ev s).map F) (hF : ∀ a, (F a).2 = a.2) : Embodies f (oneArg f) where
  ask ev s := by
    rw [oneArg, hf ev s, Calls.ask]
    cases ev s with
    | none => rfl
    | some a => simp only [Option.bind_some, Calls.ask, hf, Option.map_some, Option.getD_some]
  within s b hb := by
    refine ⟨hb, fun a (ha : a.2 <:+ s) ↦ ?_⟩
    show ((f (fun _ ↦ some a) s).getD ([], s)).2 <:+ s
    rw [hf, Option.map_some, Option.getD_some, hF]
    exact ha

theorem embodies_inputBody (typ : Bytes) : Embodies (funcInput w p typ) (inputBody w p typ) where
  ask ev s := by
    refine congrArg _ (funext fun a ↦ ?_)
    dsimp only
    split
    · rfl
    · refine congrArg _ (funext fun a ↦ ?_)
      dsimp only
      split
      · rfl
      · exact Option.map_eq_bind.symm
  within s b hb := by
    refine ⟨hb, fun a (ha : a.2 <:+ s) ↦ within_if ha ha fun ht hlt ↦ ?_⟩
    refine ⟨by omega, fun a' (ha' : a'.2 <:+ a.2.tail) ↦ ?_⟩
    have hr := ha'.trans ht
    refine within_if hr hr fun ht' hlt' ↦ ?_
    exact ⟨by omega, fun a (ha : a.2 <:+ a'.2.tail) ↦ ha.trans ht'⟩

theorem embodies_hiddenBody : Embodies funcInputHidden hiddenBody where
  ask ev s := by
    refine congrArg _ (funext fun a ↦ ?_)
    dsimp only
    split
    · rfl
    · exact Option.map_eq_bind.symm
  within s b hb := by
    refine ⟨hb, fun a ha ↦ within_if ha List.suffix_rfl fun ht hlt ↦ ?_⟩
    exact ⟨by omega, fun a' (ha' : a'.2 <:+ a.2.tail) ↦ ha'.trans ht⟩

theorem ask_optionsBody (ev : Eval) (value : Bytes) (n : ℕ) (s : Bytes) :
    (optionsBody value n s).ask MacroStep.Ok ev = selectOptions ev value n s := by
  induction n generalizing s with
  | zero => rfl
  | succ n ih =>
    refine congrArg _ (funext fun a ↦ ?_)
    dsimp only
    split
    · rfl
    · rw [Calls.ask_bind, ih]
      exact Option.map_eq_bind.symm

/-- Every option has a comma before it, so there are rounds enough. -/
theorem within_optionsBody {value : Bytes} {b n : ℕ} {s : Bytes} (hb : s.length < b)
    (hn : s.length < n) :
    (optionsBody value n s).Within MacroStep.Ok List.length Rest b (Rest s) := by
  induction n generalizing s with
  | zero => omega
  | succ n ih =>
    refine ⟨hb, fun a ha ↦ within_if ha ha fun ht hlt ↦ ?_⟩
    exact (ih (by omega) (by omega)).bind fun a' (ha' : a'.2 <:+ a.2.tail) ↦ ha'.trans ht

theorem embodies_selectBody : Embodies funcInputSelect selectBody where
  ask ev s := by
    refine congrArg _ (funext fun a ↦ ?_)
    dsimp only
    split
    · rfl
    · refine congrArg _ (funext fun a ↦ ?_)
      dsimp only
      split
      · rfl
      · rw [Calls.ask_bind, ask_optionsBody]
        exact Option.map_eq_bind.symm
  within s b hb := by
    refine ⟨hb, fun a (ha : a.2 <:+ s) ↦ within_if ha List.suffix_rfl fun ht hlt ↦ ?_⟩
    refine ⟨by omega, fun a' (ha' : a'.2 <:+ a.2.tail) ↦ ?_⟩
    refine within_if (ha'.trans ht) List.suffix_rfl fun ht' hlt' ↦ ?_
    exact (within_optionsBody (by omega) (by omega)).bind
      fun a (ha : a.2 <:+ a'.2.tail) ↦ ha.trans ht'

theorem embodies_checkboxBody : Embodies (funcInputCheckbox w p) (checkboxBody w p) where
  ask ev s := by
    refine congrArg _ (funext fun (name, r) ↦ ?_)
    dsimp only
    split
    · by_cases hname : name = [] <;> simp [Calls.ask, MacroStep.Ok, hname]
    · refine congrArg _ (funext fun (value, r) ↦ ?_)
      by_cases hname : name = [] <;> simp [Calls.ask, MacroStep.Ok, hname]
  within s b hb := by
    refine ⟨hb, fun a ha ↦ within_if ha (fun _ ↦ ha) fun ht hlt ↦ ?_⟩
    exact ⟨by omega, fun a' (ha' : a'.2 <:+ a.2.tail) _ ↦ ha'.trans ht⟩

theorem embodies_radioBody : Embodies funcInputRadio radioBody where
  ask ev s := by
    refine congrArg _ (funext fun a ↦ ?_)
    dsimp only
    split
    · rfl
    · refine congrArg _ (funext fun a ↦ ?_)
      exact Option.map_eq_bind.symm
  within s b hb := by
    refine ⟨hb, fun a ha ↦ within_if ha ha fun ht hlt ↦ ?_⟩
    refine ⟨by omega, fun a' (ha' : a'.2 <:+ a.2.tail) ↦ ?_⟩
    -- the third argument need not be behind a comma
    have hthird : (if a'.2.head? = some comma then a'.2.tail else a'.2) <:+ s := by
      split
      · exact (List.tail_suffix _).trans (ha'.trans ht)
      · exact ha'.trans ht
    have hlen := hthird.length_le
    exact ⟨by omega, fun a'' (ha'' : a''.2 <:+ _) ↦ ha''.trans hthird⟩

theorem embodies_netmaskBody : Embodies (funcInputNetmask w p) (netmaskBody w p) where
  ask ev s := by
    refine congrArg _ (funext fun a ↦ ?_)
    dsimp only
    split
    · rfl
    · exact Option.map_eq_bind.symm
  within s b hb := by
    refine ⟨hb, fun a ha ↦ within_if ha ha fun ht hlt ↦ ?_⟩
    exact ⟨by omega, fun a' (ha' : a'.2 <:+ a.2.tail) ↦ ha'.trans ht⟩

theorem embodies_trlistBody : Embodies (funcTrlist w p) (trlistBody w p) where
  ask ev s := by
    refine congrArg _ (funext fun (listKey, r) ↦ ?_)
    dsimp only
    split
    · rfl
    · refine congrArg _ (funext fun (fmt, r) ↦ ?_)
      dsimp only
      have hrows : ∀ item, ((sprintfS w fmt item).map fun key ↦ trRow w p key item)
          = if (sprintfS w fmt item).isSome = true then
              some (trRow w p ((sprintfS w fmt item).getD []) item) else none := fun item ↦ by
        cases sprintfS w fmt item <;> rfl
      refine Eq.trans ?_ (congrArg (Option.map _) (mapM_eq_ite hrows _).symm)
      by_cases hok : ∀ item ∈ listSplit 0 (getval w listKey p),
          (sprintfS w fmt item).isSome = true
      · rw [if_pos hok, Calls.ask]
        exact if_pos (c := (MacroStep.format w _ _).Ok) hok
      · rw [if_neg hok, Calls.ask]
        exact if_neg (c := (MacroStep.format w _ _).Ok) hok
  within s b hb := by
    refine ⟨hb, fun a ha ↦ within_if ha List.suffix_rfl fun ht hlt ↦ ?_⟩
    exact ⟨by omega, fun a' (ha' : a'.2 <:+ a.2.tail) _ ↦ ha'.trans ht⟩

/-- A function without arguments that comes to an end exactly if a step is one it can make. -/
theorem embodies_noArg {f : Func} {e : MacroStep} (hf : ∀ ev s, f ev s = f (fun _ ↦ none) s)
    (hok : ∀ s, e.Ok → ∃ t, f (fun _ ↦ none) s = some (t, s))
    (hbad : ∀ s, ¬e.Ok → f (fun _ ↦ none) s = none) :
    Embodies f fun s ↦ step e (noArg f s) where
  ask ev s := by
    rw [Calls.ask, hf]
    split
    · rename_i he
      obtain ⟨t, ht⟩ := hok s he
      rw [noArg, ht]
      rfl
    · rename_i he
      rw [hbad s he]
  within s b _ he := by
    obtain ⟨t, ht⟩ := hok s he
    show ((f (fun _ ↦ none) s).getD ([], s)).2 <:+ s
    rw [ht]
    exact List.suffix_rfl

/-- `func_user_trlist` and `func_user_nextid`. -/
theorem embodies_lines {f : Func} {file : Bytes} {g : Bytes → List Bytes → Bytes × Bytes}
    (hf : ∀ ev s, f ev s = (readlnAll file).map (g s)) (hg : ∀ s l, (g s l).2 = s) :
    Embodies f fun s ↦ step (.lines file) (noArg f s) := by
  have hlines : readlnAll file = if (MacroStep.lines file).Ok then _ else none := readlnAll_eq file
  refine embodies_noArg (fun ev s ↦ by rw [hf, hf]) (fun s hok ↦ ?_) fun s hbad ↦ ?_
  · rw [hf, hlines, if_pos hok]
    exact ⟨_, congrArg some (Prod.ext rfl (hg s _))⟩
  · rw [hf, hlines, if_neg hbad]
    rfl

theorem embodies_zoneTrlist : Embodies (funcZoneTrlist w pg p)
    fun s ↦ step (.rows (zoneRows w p)) (noArg (funcZoneTrlist w pg p) s) := by
  refine embodies_noArg (fun _ _ ↦ rfl) (fun s hok ↦ ?_) fun s hbad ↦ ?_
  · rw [funcZoneTrlist, mapM_eq_isSome [], if_pos]
    · exact ⟨_, rfl⟩
    · intro item hitem
      have hlen := hok _ (List.mem_map_of_mem hitem)
      dsimp only
      generalize listSplit 0 (getval w (zoneKey ++ decInt (atoi item)) p) = row at hlen ⊢
      rcases row with - | ⟨typ, - | ⟨name, row⟩⟩
      · exact absurd hlen (by simp)
      · exact absurd hlen (by simp)
      · rfl
  · rw [funcZoneTrlist, mapM_eq_isSome [], if_neg]
    · rfl
    · refine fun h ↦ hbad fun row hrow ↦ ?_
      obtain ⟨item, hitem, rfl⟩ := List.mem_map.mp hrow
      have hsome := h item hitem
      dsimp only at hsome
      generalize listSplit 0 (getval w (zoneKey ++ decInt (atoi item)) p) = row at hsome ⊢
      rcases row with - | ⟨typ, - | ⟨name, row⟩⟩
      · cases hsome
      · cases hsome
      · simp

theorem embodies_defFormarg : Embodies (funcDefFormarg pg) (noArg (funcDefFormarg pg)) where
  ask _ _ := rfl
  within s _ _ := List.suffix_rfl (l := s)

/-- **Every function of the table has its body.** -/
theorem forall₂_bodytab :
    List.Forall₂ (fun e e' ↦ e.1 = e'.1 ∧ Embodies e.2 e'.2) (functab w pg p)
      (bodytab w pg p) :=
  .cons ⟨rfl, embodies_oneArg (fun _ _ ↦ rfl) fun _ ↦ rfl⟩ <|
  .cons ⟨rfl, embodies_inputBody _⟩ <|
  .cons ⟨rfl, embodies_inputBody _⟩ <|
  .cons ⟨rfl, embodies_hiddenBody⟩ <|
  .cons ⟨rfl, embodies_selectBody⟩ <|
  .cons ⟨rfl, embodies_checkboxBody⟩ <|
  .cons ⟨rfl, embodies_radioBody⟩ <|
  .cons ⟨rfl, embodies_netmaskBody⟩ <|
  .cons ⟨rfl, embodies_oneArg (fun _ _ ↦ rfl) fun _ ↦ rfl⟩ <|
  .cons ⟨rfl, embodies_oneArg (fun _ _ ↦ rfl) fun _ ↦ rfl⟩ <|
  .cons ⟨rfl, embodies_trlistBody⟩ <|
  .cons ⟨rfl, embodies_lines (fun _ _ ↦ rfl) fun _ _ ↦ rfl⟩ <|
  .cons ⟨rfl, embodies_zoneTrlist⟩ <|
  .cons ⟨rfl, embodies_lines (fun _ _ ↦ rfl) fun _ _ ↦ rfl⟩ <|
  .cons ⟨rfl, embodies_oneArg (fun _ _ ↦ rfl) fun _ ↦ rfl⟩ <|
  .cons ⟨rfl, embodies_defFormarg⟩ .nil

section

variable {tab : List (Bytes × Func)} {tab' : List (Bytes × (Bytes → Code))}
  (htab : List.Forall₂ (fun e e' ↦ e.1 = e'.1 ∧ Embodies e.2 e'.2) tab tab')
include htab

theorem ask_evalFuncBodyGo (ev : Eval) (s name r : Bytes) :
    (evalFuncBodyGo s tab' name r).ask MacroStep.Ok ev = evalFuncGo ev s tab name r := by
  induction htab generalizing name r with
  | nil => rfl
  | @cons e e' tab tab' h _ ih =>
    obtain ⟨fname, f⟩ := e
    obtain ⟨fname', body⟩ := e'
    obtain ⟨rfl, hbody⟩ := h
    rw [evalFuncBodyGo, evalFuncGo]
    split
    · split
      · rw [Calls.ask_bind, hbody.ask]
        refine congrArg _ (funext fun x ↦ ?_)
        obtain ⟨t, r⟩ := x
        dsimp only
        split
        · rfl
        · exact ih t r
      · exact ih [] r
    · exact ih name r

theorem within_evalFuncBodyGo {s name r : Bytes} (hr : r <:+ s) :
    (evalFuncBodyGo s tab' name r).Within MacroStep.Ok List.length Rest s.length (Rest s) := by
  induction htab generalizing name r with
  | nil => exact List.suffix_rfl
  | @cons e e' tab tab' h _ ih =>
    obtain ⟨fname, f⟩ := e
    obtain ⟨fname', body⟩ := e'
    obtain ⟨rfl, hbody⟩ := h
    rw [evalFuncBodyGo]
    split
    · split
      · rename_i hparen
        obtain ⟨ht, hlt⟩ := tail_suffix hr hparen
        refine (hbody.within r.tail s.length hlt).bind fun a (ha : a.2 <:+ r.tail) ↦ ?_
        dsimp only
        split
        · exact (List.tail_suffix _).trans (ha.trans ht)
        · exact ih (ha.trans ht)
      · exact ih hr
    · exact ih hr

end

theorem atom_suffix (s : Bytes) : (atom s).2 <:+ s :=
  (List.dropWhile_suffix _).trans (List.dropWhile_suffix _)

/-- **`token` leaves its string exactly if the text in quotes does.** -/
theorem token_eq_none (s : Bytes) :
    token w p s = none ↔ ∃ q, s.dropWhile isspace = dquote :: q ∧ Dangling q := by
  rw [token]
  cases s.dropWhile isspace with
  | nil => simp
  | cons c q =>
    dsimp only
    split
    · rename_i hc
      rw [Option.map_eq_none_iff, qatom_eq_none, hc]
      simp
    · rename_i hc
      simp [hc]

theorem ask_tokenBody (ev : Eval) (s : Bytes) :
    (tokenBody w p s).ask MacroStep.Ok ev = token w p s := by
  have hnone := token_eq_none (w := w) (p := p) s
  have hsome : token w p s ≠ none → some ((token w p s).getD ([], s)) = token w p s :=
    fun h ↦ Option.getD_of_ne_none h _
  rw [tokenBody]
  split
  · rename_i hd
    obtain ⟨q, hq⟩ := List.head?_eq_some_iff.mp hd
    rw [hq, Calls.ask]
    split
    · rename_i hok
      refine hsome fun h ↦ ?_
      obtain ⟨q', hq', hdang⟩ := hnone.mp h
      exact hok ((List.cons.inj (hq.symm.trans hq')).2 ▸ hdang)
    · rename_i hbad
      exact (hnone.mpr ⟨q, hq, not_not.mp hbad⟩).symm
  · rename_i hd
    refine hsome fun h ↦ hd ?_
    obtain ⟨q, hq, -⟩ := hnone.mp h
    rw [hq]
    rfl

theorem within_tokenBody {b : ℕ} (s : Bytes) :
    (tokenBody w p s).Within MacroStep.Ok List.length Rest b (Rest s) := by
  have hrest : Rest s ((token w p s).getD ([], s)) := by
    cases h : token w p s with
    | none => exact List.suffix_rfl
    | some a => exact token_suffix h
  rw [tokenBody]
  split
  · exact fun _ ↦ hrest
  · exact hrest

theorem ask_evalSubBody (ev : Eval) (s : Bytes) :
    (evalSubBody w pg p s).ask MacroStep.Ok ev = evalSub w pg p ev s := by
  rw [evalSubBody, evalSub]
  split
  · rfl
  · rw [Calls.ask_bind, evalFuncBody, ask_evalFuncBodyGo forall₂_bodytab]
    refine congrArg _ (funext fun x ↦ ?_)
    obtain ⟨t, r⟩ := x
    dsimp only
    split
    · rfl
    · exact ask_tokenBody ev s

theorem within_evalFuncBody (s : Bytes) :
    (evalFuncBody w pg p s).Within MacroStep.Ok List.length Rest s.length (Rest s) :=
  within_evalFuncBodyGo forall₂_bodytab (atom_suffix s)

theorem within_evalSubBody (s : Bytes) :
    (evalSubBody w pg p s).Within MacroStep.Ok List.length Rest s.length (Rest s) := by
  rw [evalSubBody]
  split
  · exact List.nil_suffix
  · refine (within_evalFuncBody s).bind fun a ha ↦ ?_
    dsimp only
    split
    · exact ha
    · exact within_tokenBody s

theorem ask_evalIndexBody (ev : Eval) (t r : Bytes) :
    (evalIndexBody t r).ask MacroStep.Ok ev = evalIndex t r := by
  rw [evalIndexBody, evalIndex]
  split
  · rfl
  · dsimp only
    split
    · rfl
    · rw [Calls.ask]
      by_cases hok : (MacroStep.item r.tail).Ok
      · rw [if_pos hok, if_neg fun h ↦ (atoi_numeric_neg _).mp h hok]
        rfl
      · rw [if_neg hok, if_pos ((atoi_numeric_neg _).mpr hok)]

theorem within_evalIndexBody {b : ℕ} {s r : Bytes} (t : Bytes) (hr : r <:+ s) :
    (evalIndexBody t r).Within MacroStep.Ok List.length Rest b (Rest s) := by
  refine within_if hr hr fun ht _ ↦ ?_
  have hnum : (numeric r.tail).2 <:+ s := (List.dropWhile_suffix _).trans ht
  exact within_if hnum hnum fun ht' _ _ ↦ ht'

theorem ask_evalBody (ev : Eval) (s : Bytes) :
    (evalBody w pg p s).ask MacroStep.Ok ev
      = (evalSub w pg p ev s).bind fun (t, r) ↦ evalIndex t r := by
  rw [evalBody, Calls.ask_bind, ask_evalSubBody]
  exact congrArg _ (funext fun a ↦ ask_evalIndexBody ev a.1 a.2)

theorem within_evalBody (s : Bytes) :
    (evalBody w pg p s).Within MacroStep.Ok List.length Rest s.length (Rest s) :=
  (within_evalSubBody s).bind fun a ha ↦ within_evalIndexBody a.1 ha

end Setup
