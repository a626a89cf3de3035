import SsdLinux.Setup.Macro

/-!
# Runs of the macro evaluator

The bodies make a run of every call of `eval`, and with it the steps that the call comes to.

* The depth that `evalGo` is given does not matter beyond the length of the string
  (`evalGo_eq_eval`), so `eval` is a solution of its own recursion (`eval_eq`).
* `Returns` is what the evaluator and the scanners under it owe to every string, also to one that is
  no macro: they come back, with a place inside the string.  **They do exactly if every step is one
  that can be made** (`returns_iff`).
* **An index takes the item that it says, up to 2^31** (`eval_item_iff`).
-/

set_option autoImplicit false

namespace Setup

open CLib

variable {w : World} {pg : Script} {p : Proc}

/-! ## Runs -/

/-- The run of `eval`: the steps it makes, and what it comes to. -/
def evalRun (w : World) (pg : Script) (p : Proc) (s : Bytes) :
    Calls.Run MacroStep (Bytes × Bytes) :=
  Calls.runs MacroStep.Ok List.length (evalBody w pg p) s

theorem toOption_runTo_evalBody (n : ℕ) (s : Bytes) :
    (Calls.runTo MacroStep.Ok (evalBody w pg p) n s).2.toOption = evalGo w pg p n s :=
  Calls.toOption_runTo (fun _ ↦ rfl) (fun n s ↦ (ask_evalBody (evalGo w pg p n) s).symm) n s

/-- **`eval` is its run without the steps.** -/
theorem toOption_evalRun (s : Bytes) : (evalRun w pg p s).2.toOption = eval w pg p s :=
  toOption_runTo_evalBody _ s

/-- Any bound beyond the length of the string will do. -/
theorem evalGo_eq_eval {n : ℕ} {s : Bytes} (h : s.length < n) :
    evalGo w pg p n s = eval w pg p s := by
  rw [← toOption_runTo_evalBody, Calls.runTo_eq_runs within_evalBody h]
  exact toOption_evalRun s

/-- `eval` calls itself. -/
theorem eval_eq (s : Bytes) :
    eval w pg p s
      = (evalSub w pg p (eval w pg p) s).bind fun (t, r) ↦ evalIndex t r := by
  rw [← toOption_evalRun, evalRun, Calls.runs_eq within_evalBody, Calls.toOption_run,
    ask_evalBody]
  exact congrArg (fun ev ↦ (evalSub w pg p ev s).bind _) (funext toOption_evalRun)

theorem evalGo_suffix {n : ℕ} {s : Bytes} {a : Bytes × Bytes} (hn : s.length < n)
    (h : evalGo w pg p n s = some a) : a.2 <:+ s := by
  have hmeets := Calls.runTo_meets (@within_evalBody w pg p) hn
  rw [← toOption_runTo_evalBody] at h
  cases hr : (Calls.runTo MacroStep.Ok (evalBody w pg p) n s).2 with
  | error x =>
    rw [hr] at h
    cases h
  | ok a' =>
    rw [hr] at h hmeets
    cases h
    exact hmeets

/-! ## The evaluator returns -/

/-- The function has returned, and where it stands is between the beginning of the string and its
end. -/
def Inside (s : Bytes) (o : Option (Bytes × Bytes)) : Prop := ∃ a, o = some a ∧ a.2 <:+ s

/-- The functions of `eval.c`, called for the string, return inside it.  The bounds are on the
rounds of `qatom` and on how deep the calls of the others go. -/
structure Returns (w : World) (pg : Script) (p : Proc) (s : Bytes) : Prop where
  val : Inside s (some (val w p s))
  atom : Inside s (some (atom s))
  qatom : ∀ n, s.length < n → Inside s (qatomGo w p n s)
  token : Inside s (token w p s)
  evalFunc : ∀ n, s.length ≤ n → Inside s (evalFunc w pg p (evalGo w pg p n) s)
  evalSub : ∀ n, s.length ≤ n → Inside s (evalSub w pg p (evalGo w pg p n) s)
  eval : ∀ n, s.length < n → Inside s (evalGo w pg p n s)

theorem inside_qatom {s : Bytes} (h : ¬Dangling s) : Inside s (qatom w p s) := by
  cases hq : qatom w p s with
  | none => exact absurd ((qatom_eq_none s).mp hq) h
  | some a => exact ⟨a, rfl, (qatom_suffix hq).1⟩

theorem inside_token {s : Bytes} (h : ∀ q, s.dropWhile isspace = dquote :: q → ¬Dangling q) :
    Inside s (token w p s) := by
  cases ht : token w p s with
  | none =>
    obtain ⟨q, hq, hdang⟩ := (token_eq_none s).mp ht
    exact absurd hdang (h q hq)
  | some a => exact ⟨a, rfl, token_suffix ht⟩

/-- The steps of the run decide over `eval`. -/
theorem inside_eval_iff (s : Bytes) :
    Inside s (eval w pg p s) ↔ ∀ e ∈ (evalRun w pg p s).1, e.Ok := by
  rw [← toOption_evalRun]
  exact Calls.answers_iff within_evalBody s

/-- What `eval` calls returns if it does. -/
theorem inside_evalSub {n : ℕ} {s : Bytes} (hn : s.length ≤ n) (h : Inside s (eval w pg p s)) :
    Inside s (evalSub w pg p (evalGo w pg p n) s) := by
  obtain ⟨a, ha, -⟩ := h
  rw [← evalGo_eq_eval (Nat.lt_succ_of_le hn), evalGo] at ha
  obtain ⟨b, hb, -⟩ := Option.bind_eq_some_iff.mp ha
  refine ⟨b, hb, ?_⟩
  rw [← ask_evalSubBody] at hb
  exact (within_evalSubBody s).good_of_ask
    (fun q a hq hqa ↦ evalGo_suffix (lt_of_lt_of_le hq hn) hqa) hb

theorem inside_evalFunc {n : ℕ} {s : Bytes} (hn : s.length ≤ n) (h : Inside s (eval w pg p s)) :
    Inside s (evalFunc w pg p (evalGo w pg p n) s) := by
  obtain ⟨a, ha, -⟩ := inside_evalSub hn h
  rw [evalSub] at ha
  split at ha
  · rename_i hs
    subst hs
    exact ⟨_, evalFuncGo_of_not_mem functab_name_ne_nil, List.nil_suffix⟩
  · obtain ⟨b, hb, -⟩ := Option.bind_eq_some_iff.mp ha
    refine ⟨b, hb, ?_⟩
    rw [evalFunc, ← ask_evalFuncBodyGo forall₂_bodytab] at hb
    exact (within_evalFuncBody s).good_of_ask
      (fun q a hq hqa ↦ evalGo_suffix (lt_of_lt_of_le hq hn) hqa) hb

/-- **The functions return inside their string exactly if no quoted text is left with a backslash,
and the other steps are ones that can be made.** -/
theorem returns_iff (s : Bytes) :
    Returns w pg p s ↔ ¬Dangling s ∧ (∀ q, s.dropWhile isspace = dquote :: q → ¬Dangling q) ∧
      ∀ e ∈ (evalRun w pg p s).1, e.Ok := by
  constructor
  · intro h
    refine ⟨fun hdang ↦ ?_, fun q hq hdang ↦ ?_, ?_⟩
    · obtain ⟨a, ha, -⟩ := h.qatom _ (Nat.lt_succ_self _)
      rw [qatomGo_eq_qatom (Nat.lt_succ_self _), (qatom_eq_none s).mpr hdang] at ha
      cases ha
    · obtain ⟨a, ha, -⟩ := h.token
      rw [(token_eq_none s).mpr ⟨q, hq, hdang⟩] at ha
      cases ha
    · exact (inside_eval_iff s).mp (h.eval _ (Nat.lt_succ_self _))
  · rintro ⟨hqatom, htoken, hsteps⟩
    have heval : Inside s (eval w pg p s) := (inside_eval_iff s).mpr hsteps
    obtain ⟨pre, hpre, -⟩ := val_suffix (w := w) (p := p) s
    exact {
      val := ⟨_, rfl, pre, hpre.symm⟩
      atom := ⟨_, rfl, atom_suffix s⟩
      qatom := fun n hn ↦ (qatomGo_eq_qatom hn).symm ▸ inside_qatom hqatom
      token := inside_token htoken
      evalFunc := fun n hn ↦ inside_evalFunc hn heval
      evalSub := fun n hn ↦ inside_evalSub hn heval
      eval := fun n hn ↦ (evalGo_eq_eval hn).symm ▸ heval }

/-- The backslash of `"\` makes the byte behind the string literal. -/
theorem backslash_overruns :
    ¬ ∀ w pg p s, (∀ l, .rows l ∈ (evalRun w pg p s).1 → ∀ row ∈ l, 2 ≤ row.length) →
      Returns w pg p s := by
  intro h
  have hsteps : (evalRun World.bare Script.bare ⟨[], fun _ ↦ none⟩ [dquote, backslash]).1
      = [.quote [backslash]] := rfl
  have hreturns := h World.bare Script.bare ⟨[], fun _ ↦ none⟩ [dquote, backslash] fun l hl ↦ by
    rw [hsteps] at hl
    simp at hl
  obtain ⟨a, ha, -⟩ := hreturns.token
  cases ha

/-! ## An item of a value -/

theorem evalIndex_digits {ds : Bytes} (hds : ∀ c ∈ ds, isdigit c = true) (t rest : Bytes) :
    evalIndex t (lbracket :: (ds ++ rbracket :: rest)) =
      if digitsVal ds % 2 ^ 32 < 2 ^ 31 then
        some (((listSplit 0 (some t))[digitsVal ds % 2 ^ 32]?).getD [], rest)
      else none := by
  obtain ⟨htake, hdrop⟩ := span_eq (r := rbracket :: rest) hds (by simp; decide)
  have hnum := atoi_numeric (ds ++ rbracket :: rest)
  have hneg := atoi_numeric_neg (ds ++ rbracket :: rest)
  have hrest : (numeric (ds ++ rbracket :: rest)).2 = rbracket :: rest := hdrop
  rw [htake] at hnum hneg
  rw [evalIndex, if_neg (by simp)]
  dsimp only [List.tail_cons]
  rw [hrest, if_neg (by simp)]
  split at hnum
  · rename_i hlt
    rw [if_neg fun h ↦ hneg.mp h hlt, if_pos hlt, hnum, Int.toNat_natCast]
    rfl
  · rename_i hlt
    rw [if_pos (hneg.mpr hlt), if_neg hlt]

/-- **`[n]` takes the item that `n` says exactly if `n` is below 2^31, or goes around to a number
below it that has the same item.** -/
theorem eval_item_iff {s t rest ds : Bytes} (hds : ∀ c ∈ ds, isdigit c = true)
    (hs : evalSub w pg p (eval w pg p) s = some (t, lbracket :: (ds ++ rbracket :: rest))) :
    eval w pg p s = some (((listSplit 0 (some t))[digitsVal ds]?).getD [], rest) ↔
      digitsVal ds < 2 ^ 31 ∨ digitsVal ds % 2 ^ 32 < 2 ^ 31 ∧
        ((listSplit 0 (some t))[digitsVal ds % 2 ^ 32]?).getD []
          = ((listSplit 0 (some t))[digitsVal ds]?).getD [] := by
  rw [eval_eq, hs, Option.bind_some]
  dsimp only
  rw [evalIndex_digits hds]
  constructor
  · intro h
    split at h
    · rename_i hlt
      exact .inr ⟨hlt, congrArg Prod.fst (Option.some.inj h)⟩
    · cases h
  · rintro (hlt | ⟨hlt, hitem⟩)
    · have hmod : digitsVal ds % 2 ^ 32 = digitsVal ds := Nat.mod_eq_of_lt (by omega)
      rw [hmod, if_pos hlt]
    · rw [if_pos hlt, hitem]

/-- The second item of a value. -/
theorem eval_item_second :
    eval World.bare Script.bare ⟨[], fun _ ↦ none⟩ (cstr "\"a b\"[1]") = some (cstr "b", []) :=
  have hread : evalSub World.bare Script.bare ⟨[], fun _ ↦ none⟩
      (eval World.bare Script.bare ⟨[], fun _ ↦ none⟩) (cstr "\"a b\"[1]")
        = some (cstr "a b", lbracket :: (cstr "1" ++ rbracket :: [])) := by decide +kernel
  (eval_item_iff (by decide) hread).mpr (.inl (by decide))

/-- The item with the number 2147483648 is looked for before the first one. -/
theorem item_before_first :
    ¬ ∀ w pg p s t ds rest, (∀ c ∈ ds, isdigit c = true) →
      evalSub w pg p (eval w pg p) s = some (t, lbracket :: (ds ++ rbracket :: rest)) →
        eval w pg p s = some (((listSplit 0 (some t))[digitsVal ds]?).getD [], rest) := by
  intro h
  have heval := h World.bare Script.bare ⟨[], fun _ ↦ none⟩ (cstr "\"a b\"[2147483648]")
    (cstr "a b") (cstr "2147483648") [] (by decide) (by decide +kernel)
  exact absurd heval (by decide +kernel)

end Setup
