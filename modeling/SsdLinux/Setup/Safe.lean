import SsdLinux.Setup.Buffer
import SsdLinux.Setup.Main

/-!
# Requests that stay in memory

Everybody can send a request; the password is looked at when `ht_getarg` has read its arguments.
There are four ways for a request to leave the memory before that.

* Its text ends in an `&`, and nothing stands behind it in the buffer: `key[1]` is the byte behind.
* A value ends in the middle of an escape, and the decoder runs on, off the end of the buffer or
  over the end of its copy.
* An argument without a `=` does the same with the copy of the one before it.
* `check_key` is given a key without a colon before its last byte, and reads the second item of a
  list that has one.

`request_safe_iff` says that there are no others.
-/

set_option autoImplicit false

namespace Setup

open CLib

/-! ## Values that can be decoded -/

/-- Every value can be decoded where it stands. -/
def AllStay (after : Bytes) : List Bytes → Bytes → Prop
  | [], _ => True
  | piece :: l, copy => Stays (valueMem after piece l copy) ∧
      ∀ copy', copyOf (valueMem after piece l copy) = some copy' → AllStay after l copy'

theorem copyArgs_ne_none_iff {after : Bytes} {l : List Bytes} {copy : Bytes} :
    copyArgs after l copy ≠ none ↔ AllStay after l copy := by
  induction l generalizing copy with
  | nil => exact iff_of_true nofun trivial
  | cons piece l ih =>
    rw [copyArgs, AllStay, ← copyOf_ne_none_iff]
    cases copyOf (valueMem after piece l copy) with
    | none => simp
    | some copy' =>
      rw [Option.bind_some, ne_eq, Option.map_eq_none_iff, ← ne_eq, ih]
      simp

/-! ## The key -/

theorem splitSep_ne_nil (sep : UInt8) (u s : Bytes) : splitSep sep u s ≠ [] := by
  cases s with
  | nil => exact List.cons_ne_nil _ _
  | cons c s =>
    rw [splitSep]
    split
    · exact List.cons_ne_nil _ _
    · exact splitSep_ne_nil sep _ s

theorem two_le_length_splitSep {sep : UInt8} {u s : Bytes} :
    2 ≤ (splitSep sep u s).length ↔ sep ∈ s.dropLast := by
  induction s generalizing u with
  | nil => simp [splitSep]
  | cons c s ih =>
    rw [splitSep]
    by_cases hs : s = []
    · subst hs
      split <;> simp [splitSep]
    · rw [List.dropLast_cons_of_ne_nil hs, List.mem_cons, if_neg hs]
      split
      · rename_i hc
        have hpos := List.length_pos_of_ne_nil (splitSep_ne_nil sep [] s)
        rw [List.length_cons]
        exact iff_of_true (by omega) (.inl hc.symm)
      · rename_i hc
        rw [ih]
        exact ⟨.inr, fun h ↦ h.resolve_left (Ne.symm hc)⟩

/-- **`check_key` has its second item exactly if a colon stands before the last byte.** -/
theorem checkKey_ne_none_iff {w : World} {login key : Bytes} :
    checkKey w login key ≠ none ↔ colon ∈ key.dropLast := by
  have hitems : 2 ≤ (listSplit colon (some key)).length ↔ colon ∈ key.dropLast := by
    rcases key with _ | ⟨c, key⟩
    · simp [listSplit]
    · rw [listSplit, if_neg (by decide), two_le_length_splitSep]
      exact List.cons_ne_nil _ _
  rw [checkKey, ← hitems]
  rcases listSplit colon (some key) with _ | ⟨a, _ | ⟨b, l⟩⟩
  · simp
  · simp
  · simp

/-- `main` comes to `check_key` with this key. -/
def ReachesKey (w : World) (p : Proc) (key : Bytes) : Prop :=
  (∃ view, accessView w p = some view ∧ view.denied w = some false) ∧
    getval3 w (cstr "x_login") p ≠ [] ∧ getval3 w (cstr "x_passwd") p = [] ∧
    getval3 w (cstr "x_key") p = key ∧ key ≠ []

theorem auth_eq_none_iff {w : World} {p : Proc} :
    auth w p = none ↔ getval3 w (cstr "x_login") p ≠ [] ∧ getval3 w (cstr "x_passwd") p = [] ∧
      getval3 w (cstr "x_key") p ≠ [] ∧ colon ∉ (getval3 w (cstr "x_key") p).dropLast := by
  simp only [auth]
  split_ifs with hlogin hpasswd hkey
  · simp [hlogin]
  · cases w.rootHash with
    | none => simp [hpasswd]
    | some pwdp =>
      dsimp only
      split_ifs <;> simp [hpasswd]
  · rw [Option.map_eq_none_iff, ← not_iff_not, ← ne_eq, checkKey_ne_none_iff]
    simp [hlogin, hkey, not_not.mp hpasswd]
  · simp [not_not.mp hkey]

theorem getval3_colors {w : World} {p : Proc} {k : Bytes} (h : ∀ q ∈ colorPuts, q.key ≠ k) :
    getval3 w k (colorPuts.foldl Put.run p) = getval3 w k p := by
  rw [getval3, getval3, getval, getval, getvalp_foldl_of_not_mem h]

/-- **The way to the login** stays within the items of the key. -/
theorem gate_ne_none_iff {w : World} {p : Proc} :
    gate w p ≠ none ↔ ∀ key, ReachesKey w p key → colon ∈ key.dropLast := by
  have hauth : auth w (colorPuts.foldl Put.run p) = none ↔
      getval3 w (cstr "x_login") p ≠ [] ∧ getval3 w (cstr "x_passwd") p = [] ∧
        getval3 w (cstr "x_key") p ≠ [] ∧ colon ∉ (getval3 w (cstr "x_key") p).dropLast := by
    rw [auth_eq_none_iff, getval3_colors (by decide), getval3_colors (by decide),
      getval3_colors (by decide)]
  rw [gate]
  cases hview : accessView w p with
  | none =>
    refine iff_of_true (Option.some_ne_none _) ?_
    rintro key ⟨⟨view, hv, -⟩, -⟩
    rw [hview] at hv
    cases hv
  | some view =>
    dsimp only
    have hdenied {key : Bytes} (h : ReachesKey w p key) : view.denied w = some false := by
      obtain ⟨⟨view', hv, hd⟩, -⟩ := h
      rwa [← Option.some.inj (hview.symm.trans hv)] at hd
    cases hden : view.denied w with
    | none =>
      exact iff_of_true (Option.some_ne_none _) fun key h ↦ by cases hden.symm.trans (hdenied h)
    | some denied =>
      cases denied with
      | true =>
        exact iff_of_true (Option.some_ne_none _) fun key h ↦ by cases hden.symm.trans (hdenied h)
      | false =>
        dsimp only
        rw [ne_eq, Option.map_eq_none_iff, hauth]
        constructor
        · rintro hnot key ⟨-, hlogin, hpasswd, rfl, hne⟩
          by_contra hcolon
          exact hnot ⟨hlogin, hpasswd, hne, hcolon⟩
        · rintro h ⟨hlogin, hpasswd, hne, hcolon⟩
          exact hcolon (h _ ⟨⟨view, hview, hden⟩, hlogin, hpasswd, rfl, hne⟩)

/-! ## Safe requests -/

/-- `ht_getarg`, and `main` up to the login, stay within their memory. -/
def RequestSafe (w : World) (buf : Bytes) (p : Proc) : Prop :=
  ∃ r, htGetarg w none buf p = some r ∧ gate w r.1 ≠ none

instance decidableRequestSafe (w : World) (buf : Bytes) (p : Proc) :
    Decidable (RequestSafe w buf p) :=
  decidable_of_iff ((htGetarg w none buf p).any fun r ↦ (gate w r.1).isSome) <| by
    simp only [Option.any_eq_true, Option.isSome_iff_ne_none, RequestSafe]

/-- **Safe requests.**  A request is safe up to the login exactly if its text does not end in an `&`
(or something stands behind it in the buffer), every value can be decoded where it stands, and a key
that is checked has a colon before its last byte. -/
theorem request_safe_iff (w : World) (p : Proc) {text : Bytes} (h0 : 0 ∉ text) (after : Bytes) :
    RequestSafe w (text ++ 0 :: after) p ↔
      (text.getLast? = some ampersand → after ≠ []) ∧ AllStay after (pieces text) [0] ∧
        ∀ args, copyArgs after (pieces text) [0] = some args →
          ∀ key, ReachesKey w (getargs w p args) key → colon ∈ key.dropLast := by
  rw [RequestSafe, htGetarg_eq w none h0 after p, ← copyArgs_ne_none_iff]
  cases hargs : copyArgs after (pieces text) [0] with
  | none => simp
  | some args =>
    rw [Option.map_some]
    by_cases hend : text.getLast? = some ampersand ∧ after = []
    · rw [if_pos ⟨hend, rfl⟩]
      refine iff_of_false (by simp) fun h ↦ h.1 hend.1 hend.2
    · rw [if_neg fun h ↦ hend h.1]
      have hlast : text.getLast? = some ampersand → after ≠ [] := fun h1 h2 ↦ hend ⟨h1, h2⟩
      simp only [Option.some_inj, exists_eq_left', gate_ne_none_iff, ne_eq, not_false_eq_true,
        true_and, forall_eq', reduceCtorEq]
      exact (and_iff_right hlast).symm

/-- The store of a machine that has read its configuration. -/
def boxProc : Proc := ⟨[⟨limitKey, cstr "eth0", 0⟩], serverEnv insideAddr (cstr "880")⟩

theorem login_safe :
    RequestSafe World.box (cstr "i_login=admin&i_passwd=system" ++ 0 :: []) boxProc ∧
      AllStay [] (pieces (cstr "i_login=admin&i_passwd=system")) [0] := by
  have h : RequestSafe World.box (cstr "i_login=admin&i_passwd=system" ++ 0 :: []) boxProc := by
    decide +kernel
  exact ⟨h, ((request_safe_iff World.box boxProc (by decide) []).mp h).2.1⟩

/-- An `&` at the end, an escape that is cut off, one in a value that is inherited, and a key
without a colon. -/
theorem unsafe_requests :
    ¬ RequestSafe World.box (cstr "op=system&" ++ [0]) boxProc ∧
      ¬ RequestSafe World.box (cstr "op=system%4" ++ [0]) boxProc ∧
      ¬ RequestSafe World.box (cstr "op=%25&subop" ++ [0]) boxProc ∧
      ¬ RequestSafe World.box (cstr "i_login=admin&i_key=abc" ++ [0]) boxProc := by
  decide +kernel

end Setup
