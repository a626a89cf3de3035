import SsdLinux.CLib.Bytes

/-!
# `sprintf` with one string

What `sprintf(buf, fmt, arg)` prints for a format that is not known beforehand and one string.  C
says what that is only for some formats:

* a byte other than `%` stands for itself, and `%%` for one `%`;
* `s` prints the string: between `%` and `s` may stand flags (`-` puts the blanks behind the text,
  `+` and the blank do nothing), the least width and, behind a dot, the most bytes that are taken;
* the one string is there for one such conversion, or for any number of those that say `1$`, and
  the two kinds do not mix;
* no number and no text is longer than an `int` says.

`sprintfString` has no result for any other format.  What a machine makes of one, such as `%d`,
which takes the pointer for a number, is not a matter of C.
-/

set_option autoImplicit false

namespace CLib

/-- A conversion `s`. -/
structure StringConv where
  /-- It says `1$`. -/
  numbered : Bool
  /-- It has the flag `-`. -/
  left : Bool
  width : ℕ
  precision : Option ℕ
  deriving DecidableEq, Repr

/-- A piece of a format. -/
inductive Directive
  | byte (c : UInt8)
  | string (conv : StringConv)
  deriving DecidableEq, Repr

/-- The flags that mean something, or nothing, to `s`. -/
def isStringFlag (c : UInt8) : Bool := c == minus || c == plus || c == blank

/-- The conversion behind a `%`, and what follows it.  A width that begins with a zero is the flag
`0`. -/
def readConv (s : Bytes) : Option (StringConv × Bytes) :=
  let numbered := (cstr "1$").isPrefixOf s
  let s := if numbered then s.drop 2 else s
  let flags := s.takeWhile isStringFlag
  let s := s.dropWhile isStringFlag
  let width := s.takeWhile isdigit
  let s := s.dropWhile isdigit
  let precision := if s.head? = some dot then some (s.tail.takeWhile isdigit) else none
  let s := if s.head? = some dot then s.tail.dropWhile isdigit else s
  if s.head? = some 115 ∧ width.head? ≠ some 48 ∧ digitsVal width < 2 ^ 31 ∧
      digitsVal (precision.getD []) < 2 ^ 31 then
    some (⟨numbered, decide (minus ∈ flags), digitsVal width, precision.map digitsVal⟩, s.tail)
  else none

/-- The pieces of a format.  Every round takes at least one byte. -/
def directivesGo : ℕ → Bytes → Option (List Directive)
  | _, [] => some []
  | 0, _ :: _ => none
  | n + 1, c :: s =>
    if c ≠ percent then (directivesGo n s).map (.byte c :: ·)
    else if s.head? = some percent then (directivesGo n s.tail).map (.byte percent :: ·)
    else (readConv s).bind fun (conv, r) ↦ (directivesGo n r).map (.string conv :: ·)

def directives (fmt : Bytes) : Option (List Directive) := directivesGo fmt.length fmt

/-- What a conversion prints. -/
def StringConv.print (conv : StringConv) (arg : Bytes) : Bytes :=
  let text := match conv.precision with
    | some n => arg.take n
    | none => arg
  if conv.left then text.rightpad conv.width blank else text.leftpad conv.width blank

def Directive.print (arg : Bytes) : Directive → Bytes
  | .byte c => [c]
  | .string conv => conv.print arg

/-- The conversions of a format. -/
def conversions (ds : List Directive) : List StringConv :=
  ds.filterMap fun
    | .byte _ => none
    | .string conv => some conv

/-- The text of `sprintf` with one string. -/
def sprintfString (fmt arg : Bytes) : Option Bytes :=
  (directives fmt).bind fun ds ↦
    let convs := conversions ds
    if convs.length ≤ 1 ∨ ∀ conv ∈ convs, conv.numbered = true then
      let text := ds.flatMap (Directive.print arg)
      if text.length < 2 ^ 31 then some text else none
    else none

/-! ## The usual formats -/

theorem directivesGo_append {n m : ℕ} {pre : Bytes} (hpre : percent ∉ pre) (hn : n = pre.length + m)
    (s : Bytes) :
    directivesGo n (pre ++ s) = (directivesGo m s).map (pre.map Directive.byte ++ ·) := by
  induction pre generalizing n with
  | nil =>
    rw [hn, List.length_nil, Nat.zero_add]
    simp
  | cons c pre ih =>
    rw [List.mem_cons, not_or] at hpre
    obtain rfl : n = (pre.length + m) + 1 := by
      rw [hn, List.length_cons]
      omega
    rw [List.cons_append, directivesGo, if_pos (Ne.symm hpre.1), ih hpre.2 rfl, Option.map_map]
    rfl

/-- Bytes that stand for themselves have no conversion. -/
theorem conversions_append (pre : Bytes) (ds : List Directive) :
    conversions (pre.map Directive.byte ++ ds) = conversions ds := by
  induction pre with
  | nil => rfl
  | cons c pre ih => exact ih

theorem flatMap_print_append (pre arg : Bytes) (ds : List Directive) :
    (pre.map Directive.byte ++ ds).flatMap (Directive.print arg)
      = pre ++ ds.flatMap (Directive.print arg) := by
  induction pre with
  | nil => rfl
  | cons c pre ih => exact congrArg (c :: ·) ih

/-- The conversion `s` without anything between. -/
def plainConv : StringConv := ⟨false, false, 0, none⟩

theorem print_plainConv (arg : Bytes) : Directive.print arg (.string plainConv) = arg := by
  simp [Directive.print, StringConv.print, plainConv, List.leftpad]

/-- **A format with one `%s` and no other `%` puts the string in its place.** -/
theorem sprintfString_s {pre post arg : Bytes} (hpre : percent ∉ pre) (hpost : percent ∉ post)
    (hlen : (pre ++ (arg ++ post)).length < 2 ^ 31) :
    sprintfString (pre ++ percent :: 115 :: post) arg = some (pre ++ (arg ++ post)) := by
  have htail : directivesGo (post.length + 1) post = some (post.map Directive.byte ++ []) := by
    have h := directivesGo_append hpost (m := 1) rfl []
    rwa [List.append_nil] at h
  have hread : readConv (115 :: post) = some (plainConv, post) := rfl
  have hds : directives (pre ++ percent :: 115 :: post) = some (pre.map Directive.byte
      ++ .string plainConv :: (post.map Directive.byte ++ [])) := by
    rw [directives, directivesGo_append hpre (m := post.length + 2) (by simp), directivesGo,
      if_neg (by decide), if_neg (by simp [percent]), hread, Option.bind_some]
    dsimp only
    rw [htail]
    rfl
  have hconv : conversions (pre.map Directive.byte
      ++ .string plainConv :: (post.map Directive.byte ++ [])) = [plainConv] :=
    (conversions_append pre _).trans (congrArg _ (conversions_append post []))
  rw [sprintfString, hds, Option.bind_some, hconv, flatMap_print_append, List.flatMap_cons,
    flatMap_print_append, List.flatMap_nil, List.append_nil, print_plainConv]
  dsimp only
  rw [if_pos (.inl le_rfl), if_pos hlen]

example : sprintfString (cstr "%-5s|%%") (cstr "eth0") = some (cstr "eth0 |%") := by decide

example : sprintfString (cstr "%1$.3s%1$6s") (cstr "eth0") = some (cstr "eth  eth0") := by decide

example : sprintfString (cstr "%s%s") (cstr "eth0") = none := by decide

end CLib
