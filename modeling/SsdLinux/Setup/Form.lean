import SsdLinux.Setup.Eval
import SsdLinux.Setup.Getarg
import SsdLinux.Setup.Validation

/-!
# A form that is sent back as it is

A page shows the settings in forms.  `input_text` and `input_hidden` print the value of a setting
between double quotes, as it is: a browser reads the attribute up to the first double quote, and
takes `&quot;` and its like for the characters they stand for.  Then it sends the value back,
encoded for a URL, and `ring_htdecode` undoes the encoding.

`form_unchanged_iff` says which settings come through that.  The way back does no harm
(`htdecode_of_encodes`); what does is that the value is printed without `quote`.
-/

set_option autoImplicit false

namespace Setup

open CLib

variable {w : World} {sc : Script} {p : Proc}

/-! ## Macros -/

theorem evalFuncGo_of_not_mem {ev : Eval} {s name r : Bytes} {tab : List (Bytes × Func)}
    (h : ∀ f ∈ tab, f.1 ≠ name) : evalFuncGo ev s tab name r = some ([], s) := by
  induction tab with
  | nil => rfl
  | cons f tab ih =>
    rw [List.forall_mem_cons] at h
    rw [evalFuncGo, if_neg h.1, ih h.2]

theorem functab_name_ne_nil : ∀ f ∈ functab w sc p, f.1 ≠ [] := by
  simp only [functab, List.forall_mem_cons, List.not_mem_nil, false_imp_iff, implies_true,
    and_true]
  decide

theorem evalFuncGo_of_find {ev : Eval} {s name r t rest : Bytes} {f : Func}
    {tab : List (Bytes × Func)} (htab : tab.find? (fun f ↦ f.1 == name) = some (name, f))
    (hf : f ev r = some (t, rparen :: rest)) :
    evalFuncGo ev s tab name (lparen :: r) = some (t, rest) := by
  induction tab with
  | nil => cases htab
  | cons g tab ih =>
    obtain ⟨gname, g⟩ := g
    by_cases hg : gname = name
    · subst hg
      rw [List.find?_cons_of_pos (by simp)] at htab
      obtain rfl : g = f := congrArg Prod.snd (Option.some.inj htab)
      rw [evalFuncGo, if_pos rfl, List.head?_cons, if_pos rfl, List.tail_cons, hf,
        Option.bind_some]
      exact if_pos rfl
    · rw [List.find?_cons_of_neg (by simpa using hg)] at htab
      rw [evalFuncGo, if_neg hg, ih htab]

/-- What stands behind an argument: it does not change how the argument is read. -/
def Delimits (r : Bytes) : Prop := ∀ c ∈ r.head?, isspace c = false ∧ c ≠ lbracket

theorem delimits_cons {c : UInt8} (h1 : isspace c = false) (h2 : c ≠ lbracket) (r : Bytes) :
    Delimits (c :: r) := by
  rintro _ ⟨⟩
  exact ⟨h1, h2⟩

theorem Delimits.head?_ne {r : Bytes} (h : Delimits r) : r.head? ≠ some lbracket :=
  fun hr ↦ (h _ hr).2 rfl

/-- **A call**: the function of the table is given what stands behind the parenthesis. -/
theorem evalGo_call {n : ℕ} {name s t r : Bytes} {f : Func} (hname : ∀ c ∈ name, isAtom c = true)
    (htab : (functab w sc p).find? (fun f ↦ f.1 == name) = some (name, f))
    (hf : f (evalGo w sc p n) s = some (t, rparen :: r)) (hlen : r.length ≤ s.length)
    (hr : Delimits r) : evalGo w sc p (n + 1) (name ++ lparen :: s) = some (t, r) := by
  have hsp : (name ++ lparen :: s).dropWhile isspace = name ++ lparen :: s := by
    cases name with
    | nil => rfl
    | cons c name =>
      have hc : isspace c = false := isspace_of_isAtom (hname c List.mem_cons_self)
      rw [List.cons_append, List.dropWhile_cons_of_neg (by simp [hc])]
  obtain ⟨htake, hdrop⟩ := span_eq hname (r := lparen :: s) (by rintro _ ⟨⟩; decide)
  have hfunc : evalFunc w sc p (evalGo w sc p n) (name ++ lparen :: s) = some (t, r) := by
    rw [evalFunc, atom, hsp, htake, hdrop]
    exact evalFuncGo_of_find htab hf
  have hne : name ++ lparen :: s ≠ [] := by simp
  have hrest : r ≠ name ++ lparen :: s := by
    intro h
    have hl := congrArg List.length h
    rw [List.length_append, List.length_cons] at hl
    omega
  have hsub : evalSub w sc p (evalGo w sc p n) (name ++ lparen :: s) = some (t, r) := by
    rw [evalSub, if_neg hne, hfunc]
    exact if_pos hrest
  rw [evalGo, hsub]
  exact if_pos hr.head?_ne

/-- **A quoted text** is read as a token. -/
theorem evalGo_quoted {n : ℕ} {s t r : Bytes} (hq : qatom w p s = some (t, dquote :: r))
    (hr : Delimits r) : evalGo w sc p (n + 1) (dquote :: s) = some (t, r) := by
  have hatom : atom (dquote :: s) = ([], dquote :: s) := rfl
  have hfunc : evalFunc w sc p (evalGo w sc p n) (dquote :: s) = some ([], dquote :: s) := by
    rw [evalFunc, hatom]
    exact evalFuncGo_of_not_mem functab_name_ne_nil
  have hdrop : r.dropWhile isspace = r := by
    cases r with
    | nil => rfl
    | cons c r => rw [List.dropWhile_cons_of_neg (by simp [(hr c rfl).1])]
  have htoken : token w p (dquote :: s) = some (t, r) := by
    rw [token_quoted, hq, Option.map_some]
    simp only [if_pos, hdrop]
  have hsub : evalSub w sc p (evalGo w sc p n) (dquote :: s) = some (t, r) := by
    rw [evalSub, if_neg (List.cons_ne_nil _ _), hfunc, ← htoken]
    exact if_neg (fun h ↦ h rfl)
  rw [evalGo, hsub]
  exact if_pos hr.head?_ne

/-- A quoted word. -/
theorem evalGo_word {n : ℕ} {s r : Bytes} (hs : ∀ c ∈ s, isAtom c = true) (hr : Delimits r) :
    evalGo w sc p (n + 1) (dquote :: (s ++ dquote :: r)) = some (s, r) :=
  evalGo_quoted (qatom_literal (not_mem_of_class hs (by decide)) (not_mem_of_class hs (by decide))
    (not_mem_of_class hs (by decide)) r) hr

/-- A quoted reference to a setting. -/
theorem evalGo_ref {n : ℕ} {key r : Bytes} (hkey : ∀ c ∈ key, isAtom c = true)
    (hr : Delimits r) : evalGo w sc p (n + 1) (dquote :: dollar :: (key ++ dquote :: r))
      = some ((getval w key p).getD [], r) := by
  obtain ⟨htake, hdrop⟩ := span_eq hkey (r := dquote :: r) (by rintro _ ⟨⟩; decide)
  have hname : valName w p (key ++ dquote :: r) = ((getval w key p).getD [], dquote :: r) := by
    rw [valName, htake, hdrop]
  have hval : val w p (key ++ dquote :: r) = ((getval w key p).getD [], dquote :: r) := by
    cases key with
    | nil => exact hname
    | cons c key =>
      have hc : c ≠ lbrace := ne_of_class (hkey c List.mem_cons_self) (by decide)
      rw [List.cons_append, val, if_neg hc, ← List.cons_append, hname]
  refine evalGo_quoted ?_ hr
  rw [qatom_dollar, hval, qatom_dquote, Option.map_some, List.append_nil]

/-- The setting with a quoted name. -/
theorem evalGo_eval {n : ℕ} {key r : Bytes} (hkey : ∀ c ∈ key, isAtom c = true)
    (hr : Delimits r) :
    evalGo w sc p (n + 2) (cstr "eval" ++ lparen :: dquote :: (key ++ dquote :: rparen :: r))
      = some ((getval w key p).getD [], r) := by
  refine evalGo_call (f := funcEval w p) (by decide) rfl ?_ ?_ hr
  · rw [funcEval, evalGo_word hkey (delimits_cons (by decide) (by decide) r), Option.map_some]
  · simp only [List.length_cons, List.length_append]
    omega

/-! ## Fields -/

/-- The setting that a form shows. -/
def xName (k : Bytes) : Bytes := cstr "x_" ++ k

/-- The name of its field. -/
def iName (k : Bytes) : Bytes := cstr "i_" ++ k

/-- The ways in which the templates make a field for a setting.  `looked` says whether the value is
written `eval("x_k")` or `"$x_k"`; `opt` is the third argument of `input_text`. -/
inductive Field
  | text (looked : Bool) (opt : Option Bytes)
  | hidden (looked : Bool)

/-- The argument for the value, and what stands behind it. -/
def valueArg (looked : Bool) (k r : Bytes) : Bytes :=
  if looked then cstr "eval" ++ lparen :: dquote :: (xName k ++ dquote :: rparen :: r)
  else dquote :: dollar :: (xName k ++ dquote :: r)

namespace Field

/-- The third argument can be written between double quotes. -/
def Plain : Field → Prop
  | text _ (some opt) => backslash ∉ opt ∧ dollar ∉ opt ∧ dquote ∉ opt
  | _ => True

/-- The macro in the template. -/
def call (k : Bytes) : Field → Bytes
  | text looked none => cstr "input_text" ++ lparen ::
    dquote :: (iName k ++ dquote :: comma :: valueArg looked k [rparen])
  | text looked (some opt) => cstr "input_text" ++ lparen :: dquote ::
    (iName k ++ dquote :: comma ::
      valueArg looked k (comma :: dquote :: (opt ++ dquote :: [rparen])))
  | hidden looked => cstr "input_hidden" ++ lparen ::
    dquote :: (iName k ++ dquote :: comma :: valueArg looked k [rparen])

/-- What stands in the page. -/
def html (k v : Bytes) : Field → Bytes
  | text _ opt => inputTag (cstr "TEXT") (iName k) v (blank :: opt.getD [])
  | hidden _ => inputTag (cstr "HIDDEN") (iName k) v []

end Field

theorem isAtom_cstr_append {s : String} {k : Bytes} (hs : ∀ c ∈ cstr s, isAtom c = true)
    (hk : ∀ c ∈ k, isAtom c = true) : ∀ c ∈ cstr s ++ k, isAtom c = true :=
  fun c hc ↦ (List.mem_append.mp hc).elim (hs c) (hk c)

theorem evalGo_valueArg {n : ℕ} {k r : Bytes} (hk : ∀ c ∈ k, isAtom c = true) (hr : Delimits r)
    (looked : Bool) : evalGo w sc p (n + 2) (valueArg looked k r)
      = some ((getval w (xName k) p).getD [], r) := by
  have hkey : ∀ c ∈ xName k, isAtom c = true := isAtom_cstr_append (by decide) hk
  cases looked with
  | false => exact evalGo_ref hkey hr
  | true => exact evalGo_eval hkey hr

section calls

variable {ev : Eval} {s r r₁ r₂ typ name value opt : Bytes}

theorem funcInput_two (h1 : ev s = some (name, comma :: r)) (h2 : ev r = some (value, r₁))
    (hr : r₁.head? ≠ some comma) :
    funcInput w p typ ev s = some (inputTag typ name value [blank], r₁) := by
  rw [funcInput, h1, Option.bind_some]
  dsimp only
  rw [if_neg (by simp), List.tail_cons, h2, Option.bind_some]
  exact if_pos hr

theorem funcInput_three (h1 : ev s = some (name, comma :: r))
    (h2 : ev r = some (value, comma :: r₁)) (h3 : ev r₁ = some (opt, r₂)) :
    funcInput w p typ ev s = some (inputTag typ name value (blank :: opt), r₂) := by
  rw [funcInput, h1, Option.bind_some]
  dsimp only
  rw [if_neg (by simp), List.tail_cons, h2, Option.bind_some]
  dsimp only
  rw [if_neg (by simp), List.tail_cons, h3, Option.map_some]

theorem funcInputHidden_two (h1 : ev s = some (name, comma :: r))
    (h2 : ev r = some (value, r₁)) :
    funcInputHidden ev s = some (inputTag (cstr "HIDDEN") name value [], r₁) := by
  rw [funcInputHidden, h1, Option.bind_some]
  dsimp only
  rw [if_neg (by simp), List.tail_cons, h2, Option.map_some]

end calls

/-- **The field of a setting**: its value stands in the page as it is. -/
theorem eval_call {k : Bytes} (hk : ∀ c ∈ k, isAtom c = true) {f : Field} (hf : f.Plain) :
    eval w sc p (f.call k) = some (f.html k ((getval w (xName k) p).getD []), []) := by
  have hname (n : ℕ) (r : Bytes) :
      evalGo w sc p (n + 2) (dquote :: (iName k ++ dquote :: comma :: r))
        = some (iName k, comma :: r) :=
    evalGo_word (isAtom_cstr_append (by decide) hk) (delimits_cons (by decide) (by decide) r)
  have hclose : Delimits [rparen] := delimits_cons (by decide) (by decide) []
  have hend : Delimits [] := by rintro _ ⟨⟩
  have hdepth : ∃ n, (f.call k).length = n + 2 := by
    refine ⟨(f.call k).length - 2, ?_⟩
    have hlen : 2 ≤ (f.call k).length := by
      rcases f with ⟨looked, _ | opt⟩ | looked <;>
        simp only [Field.call, List.length_append, List.length_cons] <;> omega
    omega
  obtain ⟨n, hn⟩ := hdepth
  rw [eval, hn]
  rcases f with ⟨looked, _ | opt⟩ | looked
  · refine evalGo_call (f := funcInput w p (cstr "TEXT")) (by decide) rfl ?_ (Nat.zero_le _) hend
    exact funcInput_two (hname n _) (evalGo_valueArg hk hclose looked) (by decide)
  · have hopt : evalGo w sc p (n + 2) (dquote :: (opt ++ dquote :: [rparen]))
        = some (opt, [rparen]) :=
      evalGo_quoted (qatom_literal hf.1 hf.2.1 hf.2.2 _) hclose
    refine evalGo_call (f := funcInput w p (cstr "TEXT")) (by decide) rfl ?_ (Nat.zero_le _) hend
    exact funcInput_three (hname n _)
      (evalGo_valueArg hk (delimits_cons (by decide) (by decide) _) looked) hopt
  · refine evalGo_call (f := funcInputHidden) (by decide) rfl ?_ (Nat.zero_le _) hend
    exact funcInputHidden_two (hname n _) (evalGo_valueArg hk hclose looked)

/-! ## The browser -/

/-- What a browser takes `&amp;` and its like for. -/
def entities : List (Bytes × UInt8) :=
  [(cstr "&amp;", ampersand), (cstr "&quot;", dquote), (cstr "&lt;", less), (cstr "&gt;", greater)]

/-- The entities of a text decoded, in that many steps at most. -/
def decodeEntitiesGo : ℕ → Bytes → Bytes
  | 0, _ => []
  | _ + 1, [] => []
  | n + 1, c :: s =>
    match entities.find? fun e ↦ e.1.isPrefixOf (c :: s) with
    | some e => e.2 :: decodeEntitiesGo n ((c :: s).drop e.1.length)
    | none => c :: decodeEntitiesGo n s

def decodeEntities (s : Bytes) : Bytes := decodeEntitiesGo s.length s

/-- The pieces of a tag between its double quotes, searched for the one behind `VALUE=`. -/
def valueAttrGo : List Bytes → Bytes
  | text :: value :: rest => if (cstr " VALUE=").isSuffixOf text then value else valueAttrGo rest
  | _ => []

/-- The attribute `VALUE` of a tag, as a browser reads it: up to the first double quote, with the
entities decoded. -/
def valueAttr (tag : Bytes) : Bytes := decodeEntities (valueAttrGo (tag.splitOn dquote))

theorem length_decodeEntitiesGo_le (n : ℕ) (s : Bytes) :
    (decodeEntitiesGo n s).length ≤ s.length := by
  induction n generalizing s with
  | zero => exact Nat.zero_le _
  | succ n ih =>
    cases s with
    | nil => exact le_rfl
    | cons c s =>
      rw [decodeEntitiesGo]
      split
      · rename_i e he
        have hlen : 2 ≤ e.1.length :=
          (by decide : ∀ e ∈ entities, 2 ≤ e.1.length) e (List.mem_of_find?_eq_some he)
        have hrest := ih ((c :: s).drop e.1.length)
        rw [List.length_drop, List.length_cons] at hrest
        rw [List.length_cons, List.length_cons]
        omega
      · exact Nat.succ_le_succ (ih s)

/-- A text with an entity in it becomes shorter. -/
theorem length_decodeEntitiesGo_lt {n : ℕ} {s : Bytes} {e : Bytes × UInt8} (he : e ∈ entities)
    (hs : e.1 <:+: s) : (decodeEntitiesGo n s).length < s.length := by
  have hne : ∀ e ∈ entities, 2 ≤ e.1.length := by decide
  induction n generalizing s with
  | zero =>
    have hlen := hs.length_le
    have hpos := hne e he
    rw [decodeEntitiesGo, List.length_nil]
    omega
  | succ n ih =>
    cases s with
    | nil => exact absurd (List.infix_nil.mp hs ▸ hne e he) (by simp)
    | cons c s =>
      rw [decodeEntitiesGo]
      split
      · rename_i e' he'
        have hlen := hne e' (List.mem_of_find?_eq_some he')
        have hfound : e'.1.isPrefixOf (c :: s) = true := by simpa using List.find?_some he'
        have hpre := (List.isPrefixOf_iff_prefix.mp hfound).length_le
        have hrest := length_decodeEntitiesGo_le n ((c :: s).drop e'.1.length)
        rw [List.length_drop] at hrest
        rw [List.length_cons] at hpre hrest ⊢
        rw [List.length_cons]
        omega
      · rename_i hnone
        rw [List.find?_eq_none] at hnone
        rcases List.infix_cons_iff.mp hs with hpre | hinf
        · exact absurd (List.isPrefixOf_iff_prefix.mpr hpre) (hnone e he)
        · exact Nat.succ_lt_succ (ih hinf)

theorem decodeEntitiesGo_eq_self {n : ℕ} {s : Bytes} (hn : s.length ≤ n)
    (hs : ∀ e ∈ entities, ¬ e.1 <:+: s) : decodeEntitiesGo n s = s := by
  induction n generalizing s with
  | zero => exact (List.eq_nil_of_length_eq_zero (Nat.le_zero.mp hn)).symm
  | succ n ih =>
    cases s with
    | nil => rfl
    | cons c s =>
      have hnone : entities.find? (fun e ↦ e.1.isPrefixOf (c :: s)) = none := by
        refine List.find?_eq_none.mpr fun e he hpre ↦ hs e he ?_
        exact (List.isPrefixOf_iff_prefix.mp hpre).isInfix
      rw [decodeEntitiesGo, hnone]
      dsimp only
      rw [ih (Nat.le_of_succ_le_succ hn) fun e he hinf ↦ hs e he (List.infix_cons hinf)]

/-- **What a browser reads of a value is the value, exactly if the value has no double quote and no
entity in it.** -/
theorem decodeEntities_takeWhile_iff {v : Bytes} :
    decodeEntities (v.takeWhile (· != dquote)) = v ↔
      dquote ∉ v ∧ ∀ e ∈ entities, ¬ e.1 <:+: v := by
  constructor
  · intro h
    have hle := length_decodeEntitiesGo_le (v.takeWhile (· != dquote)).length
      (v.takeWhile (· != dquote))
    rw [decodeEntities] at h
    rw [h] at hle
    have hall : v.takeWhile (· != dquote) = v :=
      (List.takeWhile_prefix _).eq_of_length_le hle
    refine ⟨fun hmem ↦ ?_, fun e he hinf ↦ ?_⟩
    · exact absurd (List.takeWhile_eq_self_iff.mp hall dquote hmem) (by decide)
    · have hlt := length_decodeEntitiesGo_lt (n := v.length) he hinf
      rw [hall] at h
      rw [h] at hlt
      omega
  · rintro ⟨hq, he⟩
    have hall : v.takeWhile (· != dquote) = v := by
      refine List.takeWhile_eq_self_iff.mpr fun c hc ↦ ?_
      exact bne_iff_ne.mpr fun h ↦ hq (h ▸ hc)
    rw [hall]
    exact decodeEntitiesGo_eq_self le_rfl he

/-- The first piece of a text that is split at double quotes. -/
theorem exists_splitOn_dquote (v r : Bytes) :
    ∃ l, (v ++ dquote :: r).splitOn dquote = v.takeWhile (· != dquote) :: l := by
  induction v with
  | nil => exact ⟨_, List.splitOn_append_cons_self_of_not_mem List.not_mem_nil r⟩
  | cons c v ih =>
    obtain ⟨l, hl⟩ := ih
    rw [List.cons_append, List.splitOn_cons_eq_if_modifyHead, hl]
    by_cases hc : c = dquote
    · subst hc
      exact ⟨_, rfl⟩
    · rw [if_neg (by simpa using hc), List.takeWhile_cons_of_pos (by simpa using hc)]
      exact ⟨l, rfl⟩

theorem valueAttr_inputTag {typ name v opt : Bytes} (htyp : dquote ∉ typ) (hname : dquote ∉ name) :
    valueAttr (inputTag typ name v opt) = decodeEntities (v.takeWhile (· != dquote)) := by
  have htag : inputTag typ name v opt = (cstr "<INPUT TYPE=" ++ typ ++ cstr " NAME=") ++ dquote ::
      (name ++ dquote :: (cstr " VALUE=" ++ dquote :: (v ++ dquote :: (opt ++ cstr ">")))) := by
    have hn : cstr " NAME=\"" = cstr " NAME=" ++ [dquote] := rfl
    have hv : cstr "\" VALUE=\"" = dquote :: (cstr " VALUE=" ++ [dquote]) := rfl
    have hq : cstr "\"" = [dquote] := rfl
    simp only [inputTag, hn, hv, hq, List.append_assoc, List.cons_append, List.nil_append]
  have hhead : dquote ∉ cstr "<INPUT TYPE=" ++ typ ++ cstr " NAME=" := by
    simp only [List.mem_append, not_or]
    exact ⟨⟨by decide, htyp⟩, by decide⟩
  have hsuf :
      (cstr " VALUE=").isSuffixOf (cstr "<INPUT TYPE=" ++ typ ++ cstr " NAME=") = false := by
    rw [← Bool.not_eq_true, List.isSuffixOf_iff_suffix]
    intro h
    have hend : cstr " NAME=" <:+ cstr " VALUE=" :=
      List.suffix_of_suffix_length_le (List.suffix_append _ _) h (by decide)
    exact absurd hend (by decide)
  obtain ⟨l, hl⟩ := exists_splitOn_dquote v (opt ++ cstr ">")
  rw [valueAttr, htag, List.splitOn_append_cons_self_of_not_mem hhead,
    List.splitOn_append_cons_self_of_not_mem hname,
    List.splitOn_append_cons_self_of_not_mem (by decide), hl, valueAttrGo, hsuf,
    if_neg Bool.false_ne_true, valueAttrGo, if_pos (by decide)]

/-! ## The way back -/

/-- `e` is a text that stands for `v` in the arguments of a request. -/
inductive UrlEncodes : Bytes → Bytes → Prop
  | nil : UrlEncodes [] []
  | literal {c : UInt8} {v e : Bytes} (hc : c ∉ [0, percent, plus, ampersand])
    (h : UrlEncodes v e) : UrlEncodes (c :: v) (c :: e)
  | plus {v e : Bytes} (h : UrlEncodes v e) : UrlEncodes (blank :: v) (plus :: e)
  | percent {a b : UInt8} {v e : Bytes} (ha : isxdigit a = true) (hb : isxdigit b = true)
    (h0 : 16 * xdigitVal a + xdigitVal b ≠ 0) (h : UrlEncodes v e) :
    UrlEncodes ((16 * xdigitVal a + xdigitVal b) :: v) (percent :: a :: b :: e)

theorem isAtom_of_isxdigit {c : UInt8} (h : isxdigit c = true) : isAtom c = true := by
  simp only [isxdigit, isAtom, isalnum, isalpha, isupper, islower, isdigit, Bool.or_eq_true,
    Bool.and_eq_true, decide_eq_true_eq, UInt8.le_iff_toNat_le] at h ⊢
  have h65 : (65 : UInt8).toNat = 65 := rfl
  have h70 : (70 : UInt8).toNat = 70 := rfl
  have h90 : (90 : UInt8).toNat = 90 := rfl
  have h97 : (97 : UInt8).toNat = 97 := rfl
  have h102 : (102 : UInt8).toNat = 102 := rfl
  have h122 : (122 : UInt8).toNat = 122 := rfl
  omega

theorem hexByte_of_isxdigit {a b : UInt8} (ha : isxdigit a = true) (hb : isxdigit b = true) :
    hexByte a b = 16 * xdigitVal a + xdigitVal b := by
  have hne {c d : UInt8} (hc : isxdigit c = true) (hd : isAtom d = false) : c ≠ d :=
    ne_of_class (isAtom_of_isxdigit hc) hd
  have hsp : isspace a = false := isspace_of_isAtom (isAtom_of_isxdigit ha)
  have hminus : a ≠ minus := hne ha (by decide)
  have hplus : a ≠ plus := hne ha (by decide)
  have ha0 : a ≠ 0 := hne ha (by decide)
  have hb0 : b ≠ 0 := hne hb (by decide)
  simp [hexByte, ha0, hb0, hsp, hminus, hplus, ha, hb]

theorem UrlEncodes.length_le {v e : Bytes} (h : UrlEncodes v e) : v.length ≤ e.length := by
  induction h with
  | nil => exact le_rfl
  | literal hc h ih => exact Nat.succ_le_succ ih
  | plus h ih => exact Nat.succ_le_succ ih
  | percent ha hb h0 h ih =>
    rw [List.length_cons, List.length_cons, List.length_cons, List.length_cons]
    omega

theorem UrlEncodes.ne_zero {v e : Bytes} (h : UrlEncodes v e) : ∀ c ∈ v, c ≠ 0 := by
  induction h with
  | nil => exact nofun
  | literal hc h ih => exact List.forall_mem_cons.mpr ⟨fun h0 ↦ hc (by simp [h0]), ih⟩
  | plus h ih => exact List.forall_mem_cons.mpr ⟨by decide, ih⟩
  | percent ha hb h0 h ih => exact List.forall_mem_cons.mpr ⟨h0, ih⟩

/-- An encoding goes through the arguments, and through a C string, in one piece. -/
theorem UrlEncodes.notMem {v e : Bytes} (h : UrlEncodes v e) {c : UInt8}
    (hc : c = 0 ∨ c = ampersand) : c ∉ e := by
  have hatom : isAtom c = false := by rcases hc with rfl | rfl <;> decide
  have hdigit {d : UInt8} (hd : isxdigit d = true) : c ≠ d :=
    (ne_of_class (isAtom_of_isxdigit hd) hatom).symm
  induction h with
  | nil => exact List.not_mem_nil
  | literal hlit h ih =>
    refine List.not_mem_cons_of_ne_of_not_mem (fun heq ↦ hlit (heq ▸ ?_)) ih
    rcases hc with rfl | rfl <;> decide
  | plus h ih =>
    exact List.not_mem_cons_of_ne_of_not_mem (by rcases hc with rfl | rfl <;> decide) ih
  | percent ha hb h0 h ih =>
    simp only [List.mem_cons, not_or]
    exact ⟨by rcases hc with rfl | rfl <;> decide, hdigit ha, hdigit hb, ih⟩

theorem htdecodeGo_of_encodes {v e : Bytes} (h : UrlEncodes v e) (after : Bytes) {n : ℕ}
    (hn : e.length < n) : htdecodeGo n (e ++ 0 :: after) = some v := by
  induction h generalizing n with
  | nil =>
    cases n with
    | zero => cases hn
    | succ n => rfl
  | literal hc h ih =>
    cases n with
    | zero => cases hn
    | succ n =>
      simp only [List.mem_cons, List.not_mem_nil, or_false, not_or] at hc
      rw [List.cons_append, htdecodeGo, if_neg hc.1, if_neg hc.2.2.1, if_neg hc.2.1,
        ih (Nat.lt_of_succ_lt_succ hn), Option.map_some]
  | plus h ih =>
    cases n with
    | zero => cases hn
    | succ n =>
      rw [List.cons_append, htdecodeGo, if_neg (by decide), if_pos rfl,
        ih (Nat.lt_of_succ_lt_succ hn), Option.map_some]
  | percent ha hb h0 h ih =>
    cases n with
    | zero => cases hn
    | succ n =>
      rw [List.length_cons, List.length_cons, List.length_cons] at hn
      rw [List.cons_append, htdecodeGo, if_neg (by decide), if_neg (by decide), if_pos rfl,
        if_neg (by simp)]
      simp only [List.cons_append, List.drop_succ_cons, List.drop_zero, List.headD_cons,
        List.tail_cons]
      rw [ih (by omega), Option.map_some, hexByte_of_isxdigit ha hb]

/-- **Decoding undoes every encoding.** -/
theorem htdecode_of_encodes {v e : Bytes} (h : UrlEncodes v e) (after : Bytes) :
    htdecode e after = some v := by
  have hlen := h.length_le
  have htake : v.takeWhile (· ≠ 0) = v :=
    List.takeWhile_eq_self_iff.mpr fun c hc ↦ by simpa using h.ne_zero c hc
  rw [htdecode, htdecodeGo_of_encodes h after (by omega), Option.filter_some,
    if_pos (by rw [decide_eq_true_eq]; omega), Option.map_some, htake]

/-- A request with one argument. -/
theorem decodeArgs_of_encodes {k v e : Bytes} (hk : ∀ c ∈ k, isAtom c = true)
    (h : UrlEncodes v e) : decodeArgs (iName k ++ equals :: e) [] = some [(iName k, v)] := by
  have hname : ∀ c ∈ iName k, isAtom c = true := isAtom_cstr_append (by decide) hk
  have hamp : ampersand ∉ iName k ++ equals :: e := by
    simp only [List.mem_append, List.mem_cons, not_or]
    exact ⟨not_mem_of_class hname (by decide), by decide, h.notMem (.inr rfl)⟩
  have hspan := span_eq (p := (· ≠ equals)) (s := iName k) (r := equals :: e)
    (fun c hc ↦ by simpa using ne_of_class (hname c hc) (by decide)) (by rintro _ ⟨⟩; decide)
  have hpiece : equals ∈ iName k ++ equals :: e := by simp
  rw [decodeArgs, if_neg (by simp), List.splitOn_eq_singleton hamp, decodeGo]
  simp only [if_pos, hpiece, hspan, List.tail_cons]
  rw [htdecode_of_encodes h, Option.bind_some, decodeGo, Option.map_some]

/-! ## Sent back as it is -/

/-- Writing the argument of a field writes its setting. -/
theorem stored_getargs_field (k v : Bytes) (q : Proc) :
    stored (xName k) (getargs w q [(iName k, v)]) = some v := by
  have hne : xName k ≠ [] := List.cons_ne_nil _ _
  exact stored_putval_self hne v RC_bWRITE _

/-- **A setting comes through its form unchanged exactly if it has no double quote and no entity in
it.** -/
theorem form_unchanged_iff {k v : Bytes} (hk : ∀ c ∈ k, isAtom c = true)
    (hget : getval w (xName k) p = some v) {f : Field} (hf : f.Plain) :
    ∃ page, eval w sc p (f.call k) = some (page, []) ∧
      ((valueAttr page = v ∧ ∀ e, UrlEncodes (valueAttr page) e →
          ∃ args, decodeArgs (iName k ++ equals :: e) [] = some args ∧
            ∀ q, stored (xName k) (getargs w q args) = some v) ↔
        dquote ∉ v ∧ ∀ e ∈ entities, ¬ e.1 <:+: v) := by
  have hname : dquote ∉ iName k :=
    not_mem_of_class (isAtom_cstr_append (by decide) hk) (by decide)
  have hattr : valueAttr (f.html k v) = decodeEntities (v.takeWhile (· != dquote)) := by
    rcases f with ⟨looked, opt⟩ | looked
    · exact valueAttr_inputTag (by decide) hname
    · exact valueAttr_inputTag (by decide) hname
  refine ⟨f.html k v, by rw [eval_call hk hf, hget, Option.getD_some], ?_⟩
  rw [hattr, decodeEntities_takeWhile_iff, and_iff_left_iff_imp]
  intro hplain e he
  rw [decodeEntities_takeWhile_iff.mpr hplain] at he
  exact ⟨_, decodeArgs_of_encodes hk he, fun q ↦ stored_getargs_field k v q⟩

/-! ## A double quote in a setting -/

/-- A page that knows nothing of its request. -/
def Script.bare : Script := ⟨none, [], [], []⟩

/-- A store with one setting. -/
def oneSetting (key val : Bytes) : Proc := putval key val RC_bWRITE ⟨[], fun _ ↦ none⟩

/-- The name of the host comes through its form. -/
theorem hostname_unchanged :
    ∃ page, eval World.bare Script.bare (oneSetting (cstr "x_hostname") (cstr "obs"))
        (cstr "input_text(\"i_hostname\",\"$x_hostname\",\"SIZE=40\")") = some (page, []) ∧
      valueAttr page = cstr "obs" := by
  obtain ⟨page, hpage, hiff⟩ := @form_unchanged_iff World.bare Script.bare
    (oneSetting (cstr "x_hostname") (cstr "obs")) (cstr "hostname") (cstr "obs") (by decide)
    (by decide +kernel) (.text false (some (cstr "SIZE=40"))) ⟨by decide, by decide, by decide⟩
  exact ⟨page, hpage, (hiff.mpr (by decide)).1⟩

/-- A prefix with a double quote is accepted, and its form shows only what stands before it. -/
theorem prefix_cut :
    Accepts World.bare (oneSetting (cstr "x_ipv6_prefix__eth0") (cstr "3ffe:\"501"))
      (cstr "x_ipv6_prefix__eth0") ∧
    (eval World.bare Script.bare (oneSetting (cstr "x_ipv6_prefix__eth0") (cstr "3ffe:\"501"))
        (cstr "input_text(\"i_ipv6_prefix__eth0\",\"$x_ipv6_prefix__eth0\",\"SIZE=25\")")).map
      (fun r ↦ valueAttr r.1) = some (cstr "3ffe:") ∧
    (decodeArgs (cstr "i_ipv6_prefix__eth0=3ffe%3A") []).map (fun args ↦
        stored (cstr "x_ipv6_prefix__eth0") (getargs World.bare
          (oneSetting (cstr "x_ipv6_prefix__eth0") (cstr "3ffe:\"501")) args))
      = some (some (cstr "3ffe:")) := by
  decide +kernel

end Setup
