import SsdLinux.CLib.Printf
import SsdLinux.Setup.Token
import SsdLinux.Setup.Sysupdate
import SsdLinux.Setup.Nextval

/-!
# `eval`: the macros of the templates

A template is HTML with macros between `<?` and `?>`.  A macro is the call of a function of
`functab` or a token, and its value takes its place.  The arguments of a call are macros themselves,
so the functions are given the evaluator as an argument (`Eval`), and `evalGo` ties the knot.

* An item of a blank-separated value is had with `[n]` behind the macro.
* A call that comes to no closing parenthesis is no call; its text is read again as a token.
* A function that leaves its list, or that `sprintf` does not come back to, has no result.
-/

set_option autoImplicit false

namespace Setup

open CLib

/-- What the program knows about the request besides the store, and the file with the users. -/
structure Script where
  /-- `HTML_script_name`. -/
  script : Option Bytes
  /-- `HTML_script_op`. -/
  op : Bytes
  /-- `HTML_script_subop`. -/
  subop : Bytes
  /-- The text of the passwd file. -/
  passwd : Bytes

/-- An evaluator: the text that a macro stands for, and the rest of the string. -/
abbrev Eval := Bytes → Option (Bytes × Bytes)

/-- A function of `functab`: what it appends to its result, and the rest of the string. -/
abbrev Func := Eval → Eval

variable (w : World) (pg : Script) (p : Proc)

/-! ## Form elements -/

/-- The tag of a field. -/
def inputTag (typ name value opt : Bytes) : Bytes :=
  cstr "<INPUT TYPE=" ++ typ ++ cstr " NAME=\"" ++ name ++ cstr "\" VALUE=\"" ++ value
    ++ cstr "\"" ++ opt ++ cstr ">"

/-- `func_input_text` and `func_input_passwd`. -/
def funcInput (typ : Bytes) : Func := fun ev s ↦
  let tag (name value opt : Bytes) : Bytes := inputTag typ name value (blank :: opt)
  (ev s).bind fun (name, r) ↦
    -- the value is left out
    if r.head? ≠ some comma then some (tag name ((getval w name p).getD []) [], r)
    else (ev r.tail).bind fun (value, r) ↦
      if r.head? ≠ some comma then some (tag name value [], r)
      else (ev r.tail).map fun (opt, r) ↦ (tag name value opt, r)

/-- `func_input_hidden`. -/
def funcInputHidden : Func := fun ev s ↦
  (ev s).bind fun (name, r) ↦
    if r.head? ≠ some comma then some ([], s)
    else (ev r.tail).map fun (value, r) ↦ (inputTag (cstr "HIDDEN") name value [], r)

/-- The options of a selection, with that many rounds to go. -/
def selectOptions (ev : Eval) (value : Bytes) : ℕ → Eval
  | 0, _ => none
  | n + 1, s => (ev s).bind fun (option, r) ↦
    let text := (if value = option then cstr "<OPTION SELECTED>" else cstr "<OPTION>")
      ++ option ++ [nl]
    if r.head? ≠ some comma then some (text, r)
    else (selectOptions ev value n r.tail).map fun (rest, r) ↦ (text ++ rest, r)

/-- `func_input_select`. -/
def funcInputSelect : Func := fun ev s ↦
  (ev s).bind fun (name, r) ↦
    if r.head? ≠ some comma then some ([], s)
    else (ev r.tail).bind fun (value, r) ↦
      if r.head? ≠ some comma then some ([], s)
      else (selectOptions ev value (s.length + 1) r.tail).map fun (options, r) ↦
        (cstr "<SELECT NAME=\"" ++ name ++ cstr "\">" ++ options ++ cstr "</SELECT>", r)

/-- `func_input_checkbox`.  For an empty name it looks behind the end of the string. -/
def funcInputCheckbox : Func := fun ev s ↦
  let tags (name : Bytes) (val : Option Bytes) : Option Bytes :=
    if name = [] then none
    else
      some ((if name.tail = [] then []
        else cstr "<INPUT TYPE=HIDDEN NAME=\"j" ++ name.tail ++ cstr "\" VALUE=\"NO\">")
        ++ cstr "<INPUT TYPE=CHECKBOX NAME=\"" ++ name ++ cstr "\" VALUE=\"YES\""
        ++ (if val.any fun v ↦ atoi v ≠ 0 ∨ strcaseeq v (cstr "yes") then cstr " CHECKED>"
          else cstr ">"))
  (ev s).bind fun (name, r) ↦
    if r.head? ≠ some comma then (tags name (getval w name p)).map fun t ↦ (t, r)
    else (ev r.tail).bind fun (value, r) ↦ (tags name (some value)).map fun t ↦ (t, r)

/-- `func_input_radio`. -/
def funcInputRadio : Func := fun ev s ↦
  (ev s).bind fun (name, r) ↦
    if r.head? ≠ some comma then some ([], r)
    else (ev r.tail).bind fun (radio, r) ↦
      (ev (if r.head? = some comma then r.tail else r)).map fun (value, r) ↦
        (cstr "<INPUT TYPE=RADIO NAME=\"" ++ name ++ cstr "\" VALUE=\"" ++ radio ++ cstr "\""
          ++ (if radio = value then cstr " CHECKED" else []) ++ cstr ">\n", r)

/-- `mask_to_ip4`: the row of `mask_tbl` for a number of bits. -/
def maskToIp4 (mask : ℤ) : Bytes :=
  if 0 ≤ mask ∧ mask ≤ 32 then
    joinWith dot ((List.range 4).map fun j ↦ dec (256 - 2 ^ (8 - (mask.toNat - 8 * j))))
  else cstr "0.0.0.0"

/-- `func_input_netmask`. -/
def funcInputNetmask : Func := fun ev s ↦
  let tags (name value : Bytes) : Bytes :=
    cstr "<SELECT NAME=\"" ++ name ++ cstr "\">"
      ++ ((List.range' 2 31).flatMap fun (i : ℕ) ↦
        cstr "<OPTION VALUE=\"" ++ maskToIp4 i
          ++ (if ip4ToMask w value = (i : ℤ) then cstr "\" SELECTED>" else cstr "\">") ++ dec i
          ++ [nl])
      ++ cstr "</SELECT>"
  (ev s).bind fun (name, r) ↦
    if r.head? ≠ some comma then some (tags name ((getval w name p).getD []), r)
    else (ev r.tail).map fun (value, r) ↦ (tags name value, r)

/-! ## Other functions -/

/-- `func_eval`. -/
def funcEval : Func := fun ev s ↦ (ev s).map fun (key, r) ↦ ((getval w key p).getD [], r)

/-- `func_head2`. -/
def funcHead2 : Func := fun ev s ↦
  (ev s).map fun (t, r) ↦ (cstr "<P><B>" ++ t ++ cstr "</B><P>\n", r)

/-- `func_head`. -/
def funcHead : Func := fun ev s ↦
  (ev s).map fun (t, r) ↦
    (cstr "<TABLE WIDTH=\"100%\" BORDER=0 CELLSPACING=0 CELLPADDING=5><TR><TD BGCOLOR=\"#ee86b8\">"
      ++ cstr "<B>" ++ t ++ cstr "</B></TD></TR></TABLE>", r)

/-- `R_sprintf` with one string for its argument. -/
def sprintfS (fmt arg : Bytes) : Option Bytes := (sprintfString fmt arg).or (w.sprintfOther fmt arg)

/-- The button that asks for an entry to be deleted. -/
def deleteButton (id : Bytes) : Bytes :=
  cstr "<TD><INPUT TYPE=SUBMIT NAME=\"d__" ++ id ++ cstr "\" VALUE=\""
    ++ [0xBA, 0xEF, 0xBD, 0xFC] ++ cstr "\"></TD>\n"

/-- `func_trlist`. -/
def funcTrlist : Func := fun ev s ↦
  (ev s).bind fun (listKey, r) ↦
    if r.head? ≠ some comma then some ([], s)
    else (ev r.tail).bind fun (fmt, r) ↦
      ((listSplit 0 (getval w listKey p)).mapM fun item ↦
        (sprintfS w fmt item).map fun key ↦
          cstr "<TR>" ++ ((listSplit 0 (getval w key p)).flatMap fun t ↦
            cstr "<TD>" ++ t ++ cstr "</TD>") ++ deleteButton item ++ cstr "</TR>").map
        fun rows ↦ (rows.flatten, r)

/-- `func_zone_trlist`. -/
def funcZoneTrlist : Func := fun _ s ↦
  ((listSplit 0 (getval w zoneKey p)).mapM fun item ↦
    let i := decInt (atoi item)
    match listSplit 0 (getval w (zoneKey ++ i) p) with
    | typ :: name :: _ => some (cstr "<TR>\n  <TD>" ++ i
        ++ cstr "</TD>  <TD><A HREF=\"setup.cgi?i_login=" ++ fmtS (getval w (cstr "x_login") p)
        ++ cstr "&i_key=" ++ fmtS (getval w (cstr "x_key") p) ++ cstr "&op=" ++ pg.op
        ++ cstr "&subop=" ++ pg.subop ++ cstr "&a2=" ++ i ++ cstr "&a=" ++ typ ++ cstr "\">" ++ name
        ++ cstr "</A></TD>  <TD>" ++ typ ++ cstr "</TD>" ++ deleteButton i ++ cstr "</TR>\n")
    | _ => none).map fun (rows : List Bytes) ↦ (rows.flatten, s)

/-- What the loops over `ring_readln` go through: the lines as strings.  Behind one of 1023 bytes
they come to no end. -/
def readlnAll (file : Bytes) : Option (List Bytes) :=
  (fgetsAll 1023 file).mapM fun line ↦
    if (cString line).length = 1023 then none else some (cString line)

/-- The entries of the passwd file with six fields, with the number of the user. -/
def users (lines : List Bytes) : List (List Bytes × ℤ) :=
  (lines.filter fun line ↦ line.head?.any isalnum).filterMap fun line ↦
    match listSplit colon (some line) with
    | a :: b :: c :: d :: e :: f :: l => some (a :: b :: c :: d :: e :: f :: l, atoi c)
    | _ => none

/-- `func_user_trlist`. -/
def funcUserTrlist : Func := fun _ s ↦
  (readlnAll pg.passwd).map fun lines ↦
    ((users lines).flatMap fun (l, uid) ↦
      if 32768 ≤ uid ∧ uid ≤ 60000 then
        cstr "<TR>\n  <TD>" ++ (l[2]?).getD [] ++ cstr "</TD>  <TD>" ++ (l[0]?).getD []
          ++ cstr "</TD>  <TD>" ++ (l[4]?).getD [] ++ cstr "</TD>" ++ deleteButton ((l[2]?).getD [])
          ++ cstr "</TR>\n"
      else [], s)

/-- `func_user_nextid`. -/
def funcUserNextid : Func := fun _ s ↦
  (readlnAll pg.passwd).map fun lines ↦
    let max := (users lines).foldl (fun max (_, uid) ↦
      if 500 ≤ uid ∧ uid ≤ 60000 ∧ max ≤ uid then uid else max) 0
    (cstr "<INPUT TYPE=TEXT NAME=\"i_user_id\" VALUE=\"" ++ decInt (max + 1) ++ cstr "\">\n", s)

/-- `func_nextval`. -/
def funcNextval : Func := fun ev s ↦
  (ev s).map fun (list, r) ↦ (nextval list, r)

/-- `func_def_formarg`. -/
def funcDefFormarg : Func := fun _ s ↦
  some (cstr "METHOD=POST ACTION=\"" ++ fmtS pg.script ++ cstr "\"", s)

/-- `functab`. -/
def functab : List (Bytes × Func) :=
  [(cstr "eval", funcEval w p), (cstr "input_text", funcInput w p (cstr "TEXT")),
    (cstr "input_passwd", funcInput w p (cstr "PASSWORD")),
    (cstr "input_hidden", funcInputHidden), (cstr "input_select", funcInputSelect),
    (cstr "input_checkbox", funcInputCheckbox w p), (cstr "input_radio", funcInputRadio),
    (cstr "input_netmask", funcInputNetmask w p), (cstr "head", funcHead),
    (cstr "head2", funcHead2), (cstr "trlist", funcTrlist w p),
    (cstr "user_trlist", funcUserTrlist pg), (cstr "zone_trlist", funcZoneTrlist w pg p),
    (cstr "user_nextid", funcUserNextid pg), (cstr "nextval", funcNextval),
    (cstr "def_formarg", funcDefFormarg pg)]

/-! ## The evaluator -/

/-- `numeric`: the digits at the beginning, read as an `int` and printed again. -/
def numeric (s : Bytes) : Bytes × Bytes :=
  (decInt ((s.takeWhile isdigit).foldl (fun n c ↦
    n * 10 + (BitVec.ofNat 32 c.toNat - 48)) (0 : BitVec 32)).toInt, s.dropWhile isdigit)

/-- The loop of `eval_func` over the table.  `name` is what is in `tmp` and `r` where `p` is; a call
that comes to nothing leaves its own text in `tmp`. -/
def evalFuncGo (ev : Eval) (s : Bytes) :
    List (Bytes × Func) → Bytes → Bytes → Option (Bytes × Bytes)
  | [], _, _ => some ([], s)
  | (fname, f) :: tab, name, r =>
    if fname = name then
      if r.head? = some lparen then
        (f ev r.tail).bind fun (t, r) ↦
          if r.head? = some rparen then some (t, r.tail) else evalFuncGo ev s tab t r
      else evalFuncGo ev s tab [] r
    else evalFuncGo ev s tab name r

/-- `eval_func`. -/
def evalFunc (ev : Eval) (s : Bytes) : Option (Bytes × Bytes) :=
  evalFuncGo ev s (functab w pg p) (atom s).1 (atom s).2

/-- `eval_sub`. -/
def evalSub (ev : Eval) (s : Bytes) : Option (Bytes × Bytes) :=
  if s = [] then some ([], [])
  else (evalFunc w pg p ev s).bind fun (t, r) ↦ if r ≠ s then some (t, r) else token w p s

/-- The rest of `eval`: an index behind a value. -/
def evalIndex (t r : Bytes) : Option (Bytes × Bytes) :=
  if r.head? ≠ some lbracket then some (t, r)
  else
    let (digits, r) := numeric r.tail
    if r.head? ≠ some rbracket then some (t, r)
    else
      let n := atoi digits
      let items := listSplit 0 (some t)
      if n < 0 then none
      else some ((items[n.toNat]?).getD [], r.tail)

/-- `eval`; the number bounds how deep the calls may go. -/
def evalGo : ℕ → Eval
  | 0, _ => none
  | n + 1, s => (evalSub w pg p (evalGo n) s).bind fun (t, r) ↦ evalIndex t r

/-- `eval`.  A call is longer than its arguments, so the calls are no deeper than the string is
long. -/
def eval (s : Bytes) : Option (Bytes × Bytes) := evalGo w pg p (s.length + 1) s

end Setup
