import SsdLinux.CLib.Stdio
import SsdLinux.Setup.Token

/-!
# The configuration files

Three files hold the settings, one `key="value"` a line: the shipped defaults, the saved
configuration and `tmp.conf` with the changes not saved yet.  `read_conf` reads them in this order
into an empty store, each `putval` overwriting the layer before it; `write_conf` writes `tmp.conf`.

The reader is line-buffered: it sees the file in pieces of at most 1023 bytes (`confLines`), and
a piece is an assignment if it is a token, a `=` and a token.  Neither token may be longer than 255
bytes; what is longer is cut.  The writer prints the value between quotes as it is.

Reading can step outside its buffer (see `SsdLinux.Setup.Token`), so reading a file is partial.
-/

set_option autoImplicit false

namespace Setup

open CLib

/-! ## Reading -/

/-- The size of `buf`, `key` and `val` in `read_conf_sub`. -/
abbrev lineSize : ℕ := 1024
abbrev tokenSize : ℕ := 256

/-- The pieces of a file `read_conf_sub` works on. -/
def confLines (file : Bytes) : List Bytes := fgetsAll (lineSize - 1) file

/-- What one piece of the file assigns: nothing if it is a comment or not an assignment. -/
def readConfLine (w : World) (p : Proc) (buf : Bytes) : Option (Option (Bytes × Bytes)) :=
  if buf.head? = some hash then some none
  else
    (tToken w p tokenSize buf).bind fun q ↦
      match q.2 with
      | c :: s =>
        if c = equals then (tToken w p tokenSize s).map fun v ↦ some (q.1, v.1) else some none
      | [] => some none

/-- One round of the loop in `read_conf_sub`. -/
def readConfStep (w : World) (sw : BitVec 32) (p : Proc) (buf : Bytes) : Option Proc :=
  (readConfLine w p buf).map fun
    | some (k, v) => putval k v sw p
    | none => p

/-- `read_conf_sub`. -/
def readConfSub (w : World) (sw : BitVec 32) (file : Bytes) (p : Proc) : Option Proc :=
  (confLines file).foldlM (readConfStep w sw) p

/-- The configuration files. -/
structure Files where
  /-- `RC_CONF_DEFAULT`. -/
  dflt : Bytes
  /-- `RC_CONF`. -/
  conf : Bytes
  /-- `RC_CONF_TMP`, which need not exist. -/
  tmp : Option Bytes

/-- The first two layers of `read_conf`: the saved configuration over the defaults. -/
def readSaved (w : World) (f : Files) (environ : Bytes → Option Bytes) : Option Proc :=
  (readConfSub w 0 f.dflt ⟨[], environ⟩).bind (readConfSub w 0 f.conf)

/-- `read_conf`. -/
def readConf (w : World) (f : Files) (environ : Bytes → Option Bytes) : Option Proc :=
  (readSaved w f environ).bind fun p ↦
    match f.tmp with
    | some tmp => readConfSub w RC_bWRITE tmp p
    | none => some p

/-! ## Writing -/

/-- Whether `write_conf2(file, 0)` prints the entry. -/
def Entry.persistable (e : Entry) : Bool :=
  (cstr "x_").isPrefixOf e.key && (e.flag &&& RC_bNULL == 0) && !strstr e.key (cstr "___T")

/-- The line of one entry, `"%s=\"%s\"\n"`. -/
def confLine (key val : Bytes) : Bytes := key ++ equals :: dquote :: val ++ [dquote, nl]

theorem length_confLine (key val : Bytes) :
    (confLine key val).length = key.length + val.length + 4 := by
  simp [confLine]
  omega

/-- The first line of the file. -/
def confHead : Bytes := cstr "# OpenBlockS Auto config\n"

/-- The last line of the file, with the number of lines printed and of entries; both are `int`s. -/
def confFoot (j i : ℕ) : Bytes :=
  cstr "# Key number = " ++ decInt (BitVec.ofNat 32 j).toInt ++ cstr " ("
    ++ decInt (BitVec.ofNat 32 i).toInt ++ cstr ")\n"

/-- The entries `write_conf2(file, 0)` prints. -/
def persisted (env : List Entry) : List Entry := env.filter Entry.persistable

/-- `write_conf2(file, 0)`, which is `write_conf`: the text of the file. -/
def writeConf (env : List Entry) : Bytes :=
  confHead ++ ((persisted env).map fun e ↦ confLine e.key e.val).flatten
    ++ confFoot (persisted env).length env.length

/-- `is_updateval`: the write and update bits of the `x_` entries that are written out.  The loop
stops as soon as both are set, which does not change what it returns. -/
def isUpdateval (env : List Entry) : BitVec 32 :=
  env.foldl (fun ret e ↦
    if (cstr "x_").isPrefixOf e.key && (e.flag &&& RC_bNULL == 0)
    then ret ||| (e.flag &&& (RC_bWRITE ||| RC_bUPDATE)) else ret) 0

/-! ## Keys and values that survive -/

/-- A key the tokenizer reads whole. -/
structure ConfKey (key : Bytes) : Prop where
  ne_nil : key ≠ []
  isAtom : ∀ c ∈ key, isAtom c = true
  length_lt : key.length < tokenSize

/-- A value the tokenizer reads as it stands: nothing special in it, and short enough. -/
structure ConfVal (val : Bytes) : Prop where
  backslash : backslash ∉ val
  dollar : dollar ∉ val
  dquote : dquote ∉ val
  nl : nl ∉ val
  length_lt : val.length < tokenSize

instance (key : Bytes) : Decidable (ConfKey key) :=
  decidable_of_iff (key ≠ [] ∧ (∀ c ∈ key, isAtom c = true) ∧ key.length < tokenSize)
    ⟨fun h ↦ ⟨h.1, h.2.1, h.2.2⟩, fun h ↦ ⟨h.1, h.2, h.3⟩⟩

instance (val : Bytes) : Decidable (ConfVal val) :=
  decidable_of_iff (backslash ∉ val ∧ dollar ∉ val ∧ dquote ∉ val ∧ nl ∉ val ∧
      val.length < tokenSize)
    ⟨fun h ↦ ⟨h.1, h.2.1, h.2.2.1, h.2.2.2.1, h.2.2.2.2⟩, fun h ↦ ⟨h.1, h.2, h.3, h.4, h.5⟩⟩

theorem ConfKey.not_mem {key : Bytes} (h : ConfKey key) {c : UInt8} (hc : Setup.isAtom c = false) :
    c ∉ key :=
  not_mem_of_class h.isAtom hc

/-- What the reader makes of the value part of a line: the text after the `=`. -/
def readVal (w : World) (p : Proc) (val : Bytes) : Option Bytes :=
  (tToken w p tokenSize (dquote :: val ++ [dquote, nl])).map Prod.fst

/-- **The line of an entry assigns to its key**, whatever becomes of the value. -/
theorem readConfLine_confLine {w : World} {p : Proc} {key : Bytes} (hk : ConfKey key)
    (val : Bytes) :
    readConfLine w p (confLine key val) = (readVal w p val).map fun v ↦ some (key, v) := by
  obtain ⟨c, k, hkey⟩ := List.exists_cons_of_ne_nil hk.ne_nil
  have hc : c ≠ hash := ne_of_class (hk.isAtom c (by simp [hkey])) (by decide)
  have hline : confLine key val = key ++ equals :: (dquote :: val ++ [dquote, nl]) := by
    simp [confLine]
  have htok : tToken w p tokenSize (confLine key val)
      = some (key, equals :: (dquote :: val ++ [dquote, nl])) := by
    rw [tToken, hline, token_atom hk.ne_nil hk.isAtom (by simp; decide), Option.map_some,
      List.take_of_length_le (Nat.le_sub_one_of_lt hk.length_lt)]
  rw [readConfLine, if_neg (by rw [confLine, hkey]; simpa using hc), htok, Option.bind_some]
  simp only [if_pos]
  rw [readVal, Option.map_map]
  rfl

/-- A value with nothing special in it is read back. -/
theorem readVal_eq {w : World} {p : Proc} {val : Bytes} (hv : ConfVal val) :
    readVal w p val = some val := by
  rw [readVal, tToken, List.cons_append, token_quoted,
    qatom_literal hv.backslash hv.dollar hv.dquote, Option.map_some, Option.map_some,
    Option.map_some]
  simp only [if_pos]
  rw [List.take_of_length_le (Nat.le_sub_one_of_lt hv.length_lt)]

/-! ## Files line by line -/

/-- Text that is a configuration file: comments, and lines for a list of entries. -/
inductive ConfText : Bytes → List (Bytes × Bytes) → Prop
  | nil : ConfText [] []
  | comment {body rest : Bytes} {kvs : List (Bytes × Bytes)} (hb : nl ∉ body)
      (hl : body.length + 1 < lineSize - 1) (h : ConfText rest kvs) :
      ConfText (hash :: body ++ nl :: rest) kvs
  | assign {key val rest : Bytes} {kvs : List (Bytes × Bytes)} (hk : ConfKey key)
      (hv : nl ∉ val) (hl : (confLine key val).length < lineSize) (h : ConfText rest kvs) :
      ConfText (confLine key val ++ rest) ((key, val) :: kvs)

theorem confLines_comment {body : Bytes} (rest : Bytes) (hb : nl ∉ body)
    (hl : body.length + 1 < lineSize - 1) :
    confLines (hash :: body ++ nl :: rest) = (hash :: body ++ [nl]) :: confLines rest :=
  fgetsAll_line rest (List.not_mem_cons_of_ne_of_not_mem (by decide) hb) (by simpa using hl)

theorem confLines_confLine {key val : Bytes} (rest : Bytes) (hk : ConfKey key) (hv : nl ∉ val)
    (hl : (confLine key val).length < lineSize) :
    confLines (confLine key val ++ rest) = confLine key val :: confLines rest := by
  have hline : ∀ r, confLine key val ++ r = (key ++ equals :: dquote :: val ++ [dquote]) ++
      nl :: r := by simp [confLine]
  have hend : confLine key val = (key ++ equals :: dquote :: val ++ [dquote]) ++ [nl] := by
    simp [confLine]
  rw [hline, hend, confLines, fgetsAll_line rest ?_ ?_, confLines]
  · simp only [List.mem_append, List.mem_cons, List.not_mem_nil, or_false, not_or]
    exact ⟨⟨hk.not_mem (by decide), by decide, by decide, hv⟩, by decide⟩
  · have hsize : lineSize = 1024 := rfl
    simp only [length_confLine, List.length_append, List.length_cons, List.length_nil] at hl ⊢
    omega

@[simp] theorem readConfStep_comment (w : World) (sw : BitVec 32) (p : Proc) (body : Bytes) :
    readConfStep w sw p (hash :: body) = some p := by
  simp [readConfStep, readConfLine]

theorem readConfStep_confLine {w : World} {p : Proc} (sw : BitVec 32) {key : Bytes}
    (hk : ConfKey key) (val : Bytes) :
    readConfStep w sw p (confLine key val)
      = (readVal w p val).map fun v ↦ putval key v sw p := by
  rw [readConfStep, readConfLine_confLine hk, Option.map_map]
  rfl

/-- **Reading a configuration file is reading its entries one after the other.** -/
theorem readConfSub_confText {w : World} {sw : BitVec 32} {file : Bytes}
    {kvs : List (Bytes × Bytes)} (h : ConfText file kvs) (p : Proc) :
    readConfSub w sw file p
      = kvs.foldlM (fun p kv ↦ (readVal w p kv.2).map fun v ↦ putval kv.1 v sw p) p := by
  induction h generalizing p with
  | nil => rfl
  | comment hb hl h ih =>
    rw [readConfSub, confLines_comment _ hb hl, List.foldlM_cons, List.cons_append,
      readConfStep_comment]
    exact ih p
  | assign hk hv hl h ih =>
    rw [readConfSub, confLines_confLine _ hk hv hl, List.foldlM_cons, readConfStep_confLine sw hk,
      List.foldlM_cons]
    congr 1
    exact funext fun q ↦ ih q

/-- The writes a list of keys and values stands for. -/
def putsOf (sw : BitVec 32) (kvs : List (Bytes × Bytes)) : List Put :=
  kvs.map fun kv ↦ ⟨kv.1, kv.2, sw⟩

/-- **A file of plain values is read as a sequence of writes.** -/
theorem readConfSub_eq_foldl {w : World} {sw : BitVec 32} {file : Bytes}
    {kvs : List (Bytes × Bytes)} (h : ConfText file kvs) (hv : ∀ kv ∈ kvs, ConfVal kv.2)
    (p : Proc) : readConfSub w sw file p = some ((putsOf sw kvs).foldl Put.run p) := by
  rw [readConfSub_confText h]
  clear h
  induction kvs generalizing p with
  | nil => rfl
  | cons kv kvs ih =>
    rw [List.foldlM_cons, readVal_eq (hv kv List.mem_cons_self), Option.map_some]
    exact ih (fun kv hkv ↦ hv kv (List.mem_cons_of_mem _ hkv)) _

theorem confText_append_comment {file body : Bytes} {kvs : List (Bytes × Bytes)}
    (h : ConfText file kvs) (hb : nl ∉ body) (hl : body.length + 1 < lineSize - 1) :
    ConfText (file ++ (hash :: body ++ [nl])) kvs := by
  induction h with
  | nil => exact .comment hb hl .nil
  | comment hb' hl' _ ih =>
    rw [show ∀ a b c : Bytes, hash :: a ++ nl :: b ++ c = hash :: a ++ nl :: (b ++ c) by simp]
    exact .comment hb' hl' ih
  | assign hk hv hl' _ ih =>
    rw [List.append_assoc]
    exact .assign hk hv hl' ih

/-- The keys and values `write_conf` prints. -/
def persistedVals (env : List Entry) : List (Bytes × Bytes) :=
  (persisted env).map fun e ↦ (e.key, e.val)

/-- A short value fits on its line. -/
theorem length_confLine_lt {key val : Bytes} (hk : ConfKey key) (hv : val.length < tokenSize) :
    (confLine key val).length < lineSize := by
  have h1 := hk.length_lt
  have hsize : tokenSize = 256 ∧ lineSize = 1024 := ⟨rfl, rfl⟩
  rw [length_confLine]
  omega

theorem confText_lines {kvs : List (Bytes × Bytes)} (hk : ∀ kv ∈ kvs, ConfKey kv.1)
    (hv : ∀ kv ∈ kvs, nl ∉ kv.2 ∧ (confLine kv.1 kv.2).length < lineSize) :
    ConfText ((kvs.map fun kv ↦ confLine kv.1 kv.2).flatten) kvs := by
  induction kvs with
  | nil => exact .nil
  | cons kv kvs ih =>
    have hline := hv kv List.mem_cons_self
    exact .assign (hk kv List.mem_cons_self) hline.1 hline.2
      (ih (fun kv hkv ↦ hk kv (List.mem_cons_of_mem _ hkv))
        fun kv hkv ↦ hv kv (List.mem_cons_of_mem _ hkv))

/-- A file begins with a comment. -/
theorem confText_head {rest : Bytes} {kvs : List (Bytes × Bytes)} (h : ConfText rest kvs) :
    ConfText (confHead ++ rest) kvs := by
  rw [show confHead = hash :: cstr " OpenBlockS Auto config" ++ [nl] by decide, List.append_assoc]
  exact .comment (by decide) (by decide) h

/-- The last line of the file is a comment, and a short one. -/
theorem confFoot_eq (j i : ℕ) :
    ∃ body, confFoot j i = hash :: body ++ nl :: [] ∧ nl ∉ body := by
  have hnl : ∀ n : ℤ, nl ∉ decInt n := fun n h ↦ by
    rcases decInt_chars n nl h with h | h <;> exact absurd h (by decide)
  refine ⟨cstr " Key number = " ++ decInt (BitVec.ofNat 32 j).toInt ++ cstr " ("
    ++ decInt (BitVec.ofNat 32 i).toInt ++ cstr ")", ?_, ?_⟩
  · rw [confFoot, show cstr "# Key number = " = hash :: cstr " Key number = " by decide,
      show cstr ")\n" = cstr ")" ++ [nl] by decide]
    simp only [List.cons_append, List.append_assoc]
  · simp only [List.mem_append, not_or]
    exact ⟨⟨⟨⟨by decide, hnl _⟩, by decide⟩, hnl _⟩, by decide⟩

theorem length_confFoot_le (j i : ℕ) : (confFoot j i).length ≤ 41 := by
  have h1 := length_decInt_le (BitVec.ofNat 32 j)
  have h2 := length_decInt_le (BitVec.ofNat 32 i)
  have h3 : (cstr "# Key number = ").length = 15 := by decide
  have h4 : (cstr " (").length = 2 := by decide
  have h5 : (cstr ")\n").length = 2 := by decide
  simp only [confFoot, List.length_append]
  omega

/-- **What `write_conf` prints is a configuration file**, if no value breaks its line. -/
theorem confText_writeConf {env : List Entry} (hk : ∀ e ∈ persisted env, ConfKey e.key)
    (hv : ∀ e ∈ persisted env, nl ∉ e.val ∧ (confLine e.key e.val).length < lineSize) :
    ConfText (writeConf env) (persistedVals env) := by
  obtain ⟨body, hbody, hnl⟩ := confFoot_eq (persisted env).length env.length
  have hlen := length_confFoot_le (persisted env).length env.length
  rw [hbody, List.length_append, List.length_cons, List.length_singleton] at hlen
  have hlines : (persisted env).map (fun e ↦ confLine e.key e.val)
      = (persistedVals env).map fun kv ↦ confLine kv.1 kv.2 := by
    rw [persistedVals, List.map_map]
    rfl
  rw [writeConf, hbody, hlines]
  refine confText_append_comment (confText_head (confText_lines ?_ ?_)) hnl ?_
  · exact fun kv hkv ↦ by
      obtain ⟨e, he, rfl⟩ := List.mem_map.mp hkv
      exact hk e he
  · exact fun kv hkv ↦ by
      obtain ⟨e, he, rfl⟩ := List.mem_map.mp hkv
      exact hv e he
  · have hsize : lineSize = 1024 := rfl
    omega

end Setup
