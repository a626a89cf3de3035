import SsdLinux.CLib.Bytes
import Mathlib.Logic.Function.Basic

/-!
# Sourcing a file of assignments

What a shell does with a file of comments and lines `name="text"`.  Between double quotes the
dollar, the backquote, the backslash and the double quote are special, and everything else is
literal, newlines included: a backslash protects the four special bytes and joins lines, and stays
where it is before any other byte; a dollar with a name stands for the value of a variable; a
backquote and `$(` run a command.

`source` follows such a file and stops where it would do anything else: where it would run a command
(`Stop.command`), and at whatever is not a comment or an assignment (`Stop.unsupported`).

`Reads` is the part of the quoting that any sensible reader shares: ordinary bytes, the protected
special bytes, and references to variables that have a value.  `sourceGo_assign` says what a line
with such an assignment does.
-/

set_option autoImplicit false

namespace Shell

open CLib

/-- The variables of the shell. -/
abbrev Vars := Bytes → Option Bytes

/-- Why sourcing a file did not come to its end. -/
inductive Stop
  /-- It runs this command. -/
  | command (text : Bytes)
  | unsupported
  deriving DecidableEq

def nameStart (c : UInt8) : Bool := isalpha c || c == underscore

def nameChar (c : UInt8) : Bool := isalnum c || c == underscore

/-- The bytes that are special between double quotes. -/
def dqSpecials : Bytes := [dquote, dollar, backslash, backquote]

/-- The parameters of the shell that are not variables: `!`, `#`, `$`, `*`, `-`, `?`, `@`. -/
def isParam (c : UInt8) : Bool := isdigit c || [33, 35, 36, 42, 45, 63, 64].contains c

/-- Text between double quotes, and what follows the closing one; the number bounds the rounds. -/
def dqGo (vars : Vars) : ℕ → Bytes → Except Stop (Bytes × Bytes)
  | 0, _ => .error .unsupported
  | _ + 1, [] => .error .unsupported
  | n + 1, c :: s =>
    let add (t : Bytes) (q : Except Stop (Bytes × Bytes)) := q.map fun q ↦ (t ++ q.1, q.2)
    if c = dquote then .ok ([], s)
    else if c = backquote then .error (.command (s.takeWhile (· ≠ backquote)))
    else if c = backslash then
      if s.head? = some nl then dqGo vars n s.tail
      else if dqSpecials.contains (s.headD 0) then add [s.headD 0] (dqGo vars n s.tail)
      else add [backslash] (dqGo vars n s)
    else if c = dollar then
      if s.head? = some 40 then .error (.command (s.tail.takeWhile (· ≠ 41)))
      else if s.head? = some lbrace then
        if nameStart (s.tail.headD 0) && (s.tail.dropWhile nameChar).head? == some rbrace then
          add ((vars (s.tail.takeWhile nameChar)).getD [])
            (dqGo vars n (s.tail.dropWhile nameChar).tail)
        else .error .unsupported
      else if nameStart (s.headD 0) then
        add ((vars (s.takeWhile nameChar)).getD []) (dqGo vars n (s.dropWhile nameChar))
      else if isParam (s.headD 0) then .error .unsupported
      else add [dollar] (dqGo vars n s)
    else add [c] (dqGo vars n s)

/-- Text between double quotes. -/
def dq (vars : Vars) (s : Bytes) : Except Stop (Bytes × Bytes) := dqGo vars (s.length + 1) s

/-- The lines of a file; the number bounds them. -/
def sourceGo : ℕ → Vars → Bytes → Except Stop Vars
  | 0, _, _ => .error .unsupported
  | _ + 1, vars, [] => .ok vars
  | n + 1, vars, c :: s =>
    if c = nl then sourceGo n vars s
    else if c = hash then sourceGo n vars (s.dropWhile (· ≠ nl))
    else
      let name := (c :: s).takeWhile nameChar
      let rest := (c :: s).dropWhile nameChar
      if nameStart c && rest.head? == some equals && rest.tail.head? == some dquote then
        (dq vars rest.tail.tail).bind fun q ↦
          if q.2 = [] ∨ q.2.head? = some nl then
            sourceGo n (Function.update vars name (some q.1)) q.2
          else .error .unsupported
      else .error .unsupported

/-- What sourcing a file does to the variables. -/
def source (vars : Vars) (file : Bytes) : Except Stop Vars := sourceGo (file.length + 1) vars file

/-! ## Text every reader understands -/

/-- A name of a variable. -/
structure IsName (name : Bytes) : Prop where
  start : ∀ c ∈ name.head?, nameStart c = true
  ne_nil : name ≠ []
  chars : ∀ c ∈ name, nameChar c = true

/-- The quoted text `s` stands for the text `t`, where the variables have the values `vars`. -/
inductive Reads (vars : Vars) : Bytes → Bytes → Prop
  | nil : Reads vars [] []
  | literal {c : UInt8} {s t : Bytes} (hc : c ∉ dqSpecials) (hnl : c ≠ nl) (h : Reads vars s t) :
      Reads vars (c :: s) (c :: t)
  | escape {c : UInt8} {s t : Bytes} (hc : c ∈ dqSpecials) (h : Reads vars s t) :
      Reads vars (backslash :: c :: s) (c :: t)
  | ref {name v s t : Bytes} (hn : IsName name) (hv : vars name = some v)
      (hs : ∀ c ∈ s.head?, nameChar c = false) (h : Reads vars s t) :
      Reads vars (dollar :: (name ++ s)) (v ++ t)
  | bref {name v s t : Bytes} (hn : IsName name) (hv : vars name = some v) (h : Reads vars s t) :
      Reads vars (dollar :: lbrace :: (name ++ rbrace :: s)) (v ++ t)

/-- Text with nothing special in it stands for itself. -/
theorem reads_literal {vars : Vars} {s : Bytes} (hs : ∀ c ∈ s, c ∉ dqSpecials ∧ c ≠ nl) :
    Reads vars s s := by
  induction s with
  | nil => exact .nil
  | cons c s ih =>
    have hc := hs c List.mem_cons_self
    exact .literal hc.1 hc.2 (ih fun d hd ↦ hs d (List.mem_cons_of_mem _ hd))

theorem nl_not_mem_reads {vars : Vars} {s t : Bytes} (h : Reads vars s t) : nl ∉ s := by
  have hname : ∀ {name : Bytes}, IsName name → nl ∉ name := fun hn ↦
    not_mem_of_class hn.chars (by decide)
  have hne : nl ≠ dollar ∧ nl ≠ lbrace ∧ nl ≠ rbrace := by decide
  induction h with
  | nil => simp
  | literal _ hnl _ ih => simp [Ne.symm hnl, ih]
  | @escape c s t hc _ ih =>
    have hne : nl ≠ c := fun h ↦ absurd hc (h ▸ by decide)
    have hb : nl ≠ backslash := by decide
    exact List.not_mem_cons_of_ne_of_not_mem hb (List.not_mem_cons_of_ne_of_not_mem hne ih)
  | ref hn _ _ _ ih => simp [hname hn, ih, hne]
  | bref hn _ _ ih => simp [hname hn, ih, hne]

theorem IsName.cons {name : Bytes} (h : IsName name) :
    ∃ c t, name = c :: t ∧ nameStart c = true := by
  obtain ⟨c, t, rfl⟩ := List.exists_cons_of_ne_nil h.ne_nil
  exact ⟨c, t, rfl, h.start c rfl⟩

/-- A name ends where the next byte cannot be part of it. -/
theorem IsName.span {name r : Bytes} (h : IsName name) (hr : ∀ c ∈ r.head?, nameChar c = false) :
    (name ++ r).takeWhile nameChar = name ∧ (name ++ r).dropWhile nameChar = r :=
  span_eq h.chars hr

/-- **A shell reads such text as what it stands for.** -/
theorem dqGo_reads {vars : Vars} {s t : Bytes} (h : Reads vars s t) (r : Bytes) :
    ∀ n, s.length < n → dqGo vars n (s ++ dquote :: r) = .ok (t, r) := by
  have hmap : ∀ {t u : Bytes} {q : Except Stop (Bytes × Bytes)}, q = .ok (t, r) →
      (q.map fun q ↦ (u ++ q.1, q.2)) = .ok (u ++ t, r) := fun h ↦ by rw [h]; rfl
  induction h with
  | nil =>
    intro n hn
    obtain ⟨n, rfl⟩ := Nat.exists_eq_succ_of_ne_zero (Nat.ne_of_gt hn)
    simp [dqGo]
  | @literal c s t hc hnl _ ih =>
    intro n hn
    obtain ⟨n, rfl⟩ := Nat.exists_eq_succ_of_ne_zero (Nat.ne_of_gt (Nat.zero_lt_of_lt hn))
    simp only [dqSpecials, List.mem_cons, List.not_mem_nil, or_false, not_or] at hc
    rw [List.cons_append, dqGo, if_neg hc.1, if_neg hc.2.2.2, if_neg hc.2.2.1, if_neg hc.2.1]
    exact hmap (ih n (by simpa using hn))
  | @escape c s t hc _ ih =>
    intro n hn
    obtain ⟨n, rfl⟩ := Nat.exists_eq_succ_of_ne_zero (Nat.ne_of_gt (Nat.zero_lt_of_lt hn))
    have hne : c ≠ nl := fun h ↦ absurd hc (h ▸ by decide)
    rw [List.cons_append, List.cons_append, dqGo, if_neg (by decide), if_neg (by decide),
      if_pos rfl,
      List.head?_cons, if_neg (by simpa using hne), List.headD_cons,
      if_pos (List.contains_iff_mem.mpr hc), List.tail_cons]
    simp only [List.length_cons] at hn
    exact hmap (ih n (by omega))
  | @ref name v s t hn hv hs _ ih =>
    intro n hlen
    obtain ⟨n, rfl⟩ := Nat.exists_eq_succ_of_ne_zero (Nat.ne_of_gt (Nat.zero_lt_of_lt hlen))
    have hr : ∀ c ∈ (s ++ dquote :: r).head?, nameChar c = false := by
      cases s with
      | nil => exact fun c hc ↦ by cases hc; decide
      | cons d s => exact hs
    obtain ⟨htake, hdrop⟩ := hn.span hr
    obtain ⟨c, u, rfl, hc⟩ := hn.cons
    have h1 : c ≠ 40 := ne_of_class hc (by decide)
    have h2 : c ≠ lbrace := ne_of_class hc (by decide)
    rw [List.cons_append, List.append_assoc, dqGo, if_neg (by decide), if_neg (by decide),
      if_neg (by decide), if_pos rfl, htake, hdrop, hv, List.cons_append, List.head?_cons,
      if_neg (by simpa using h1), if_neg (by simpa using h2), List.headD_cons, if_pos hc]
    simp only [List.length_cons, List.length_append] at hlen
    exact hmap (ih n (by omega))
  | @bref name v s t hn hv _ ih =>
    intro n hlen
    obtain ⟨n, rfl⟩ := Nat.exists_eq_succ_of_ne_zero (Nat.ne_of_gt (Nat.zero_lt_of_lt hlen))
    have hr : ∀ c ∈ (rbrace :: (s ++ dquote :: r)).head?, nameChar c = false :=
      fun c hc ↦ by cases hc; decide
    obtain ⟨htake, hdrop⟩ := hn.span hr
    obtain ⟨c, u, rfl, hc⟩ := hn.cons
    have hline : dollar :: lbrace :: (c :: u ++ rbrace :: s) ++ dquote :: r
        = dollar :: lbrace :: (c :: u ++ rbrace :: (s ++ dquote :: r)) := by simp
    rw [hline, dqGo, if_neg (by decide), if_neg (by decide), if_neg (by decide), if_pos rfl,
      List.head?_cons, if_neg (by decide), if_pos rfl, List.tail_cons, htake, hdrop, hv,
      if_pos (by simpa using hc)]
    simp only [List.length_cons, List.length_append] at hlen
    exact hmap (ih n (by omega))

/-! ## Files of assignments -/

/-- A comment. -/
theorem sourceGo_comment {vars : Vars} {n : ℕ} {body : Bytes} (hb : nl ∉ body) (rest : Bytes) :
    sourceGo (n + 2) vars (hash :: body ++ nl :: rest) = sourceGo n vars rest := by
  have hdrop : (body ++ nl :: rest).dropWhile (· ≠ nl) = nl :: rest :=
    (span_eq (p := fun c ↦ decide (c ≠ nl))
      (fun c hc ↦ by simpa using ne_of_mem_of_not_mem hc hb) (fun c hc ↦ by cases hc; decide)).2
  rw [List.cons_append, sourceGo, if_neg (by decide), if_pos rfl, hdrop, sourceGo, if_pos rfl]

/-- **An assignment whose text every reader understands.** -/
theorem sourceGo_assign {vars : Vars} {n : ℕ} {name s t : Bytes} (hn : IsName name)
    (hs : Reads vars s t) (rest : Bytes) :
    sourceGo (n + 2) vars (name ++ equals :: dquote :: s ++ [dquote, nl] ++ rest)
      = sourceGo n (Function.update vars name (some t)) rest := by
  have hline : name ++ equals :: dquote :: s ++ [dquote, nl] ++ rest
      = name ++ equals :: dquote :: (s ++ dquote :: nl :: rest) := by simp
  obtain ⟨htake, hdrop⟩ := hn.span (r := equals :: dquote :: (s ++ dquote :: nl :: rest))
    fun c hc ↦ by cases hc; decide
  have hdq : dq vars (s ++ dquote :: nl :: rest) = .ok (t, nl :: rest) :=
    dqGo_reads hs (nl :: rest) _ (by simp only [List.length_append, List.length_cons]; omega)
  obtain ⟨c, u, rfl, hc⟩ := hn.cons
  have h1 : c ≠ nl := ne_of_class hc (by decide)
  have h2 : c ≠ hash := ne_of_class hc (by decide)
  rw [hline]
  rw [List.cons_append] at htake hdrop ⊢
  rw [sourceGo, if_neg h1, if_neg h2]
  simp only [htake, hdrop, hc, List.head?_cons, List.tail_cons, BEq.rfl, Bool.and_self, if_true,
    hdq, Except.bind, or_true]
  rw [sourceGo, if_pos rfl]

end Shell
