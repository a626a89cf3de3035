import Mathlib.Order.Basic

/-!
# Runs of a recursive procedure

A procedure that asks itself questions, as a tree: the body for a question is `done` with an answer,
or it calls the procedure and goes on with what it gets, or it takes a `step`, something that not
every state lets it do.  A step that is not allowed ends the run, and so does a loop of the body
that has no rounds left (`spent`).

* `run` follows a body and writes down the steps, the last of which may be one that is not allowed.
  `ask` does the same and only tells the answer.
* `Within` is what is to be checked of a body: it calls the procedure for smaller questions only,
  never comes to the end of its rounds, and answers as it should as long as it is answered so.
* `runTo` is the procedure with a bound on how deep the calls go.  From the check of the bodies,
  **a bound beyond the size of the question is never reached** (`runTo_meets`), nor does it matter
  (`runTo_eq`), and `runs` is a solution of the recursion (`runs_eq`).
* **The procedure answers exactly if every step of its run is allowed** (`answers_iff`).
-/

set_option autoImplicit false

/-- A body: `Q` are the questions, `A` the answers to them, `E` the steps, and `α` is what the body
itself comes to. -/
inductive Calls (Q A E α : Type) where
  | done (a : α)
  | spent
  | step (e : E) (rest : Calls Q A E α)
  | call (q : Q) (rest : A → Calls Q A E α)

namespace Calls

variable {Q A E α β : Type}

/-- Why a run comes to no answer. -/
inductive Halt
  | notAllowed
  | tooDeep
  deriving DecidableEq

/-- The steps of a run and its end. -/
abbrev Run (E α : Type) := List E × Except Halt α

/-- One body after the other. -/
def bind : Calls Q A E α → (α → Calls Q A E β) → Calls Q A E β
  | done a, f => f a
  | spent, _ => spent
  | step e t, f => step e (t.bind f)
  | call q t, f => call q fun a ↦ (t a).bind f

/-- A body that calls only for questions below `b`, and if it is given answers in `Post`, comes to
something in `Good`. -/
def Within (ok : E → Prop) (size : Q → ℕ) (Post : Q → A → Prop) (b : ℕ) (Good : α → Prop) :
    Calls Q A E α → Prop
  | done a => Good a
  | spent => False
  | step e t => ok e → t.Within ok size Post b Good
  | call q t => size q < b ∧ ∀ a, Post q a → (t a).Within ok size Post b Good

/-- An end that is a good answer or a step that is not allowed. -/
def Meets (Good : α → Prop) : Except Halt α → Prop
  | .ok a => Good a
  | .error .notAllowed => True
  | .error .tooDeep => False

section

variable (ok : E → Prop) [DecidablePred ok]

/-- A body, with the runs of the procedure that it calls. -/
def run (ev : Q → Run E A) : Calls Q A E α → Run E α
  | done a => ([], .ok a)
  | spent => ([], .error .tooDeep)
  | step e t => if ok e then (e :: (t.run ev).1, (t.run ev).2) else ([e], .error .notAllowed)
  | call q t =>
    match ev q with
    | (es, .ok a) => (es ++ ((t a).run ev).1, ((t a).run ev).2)
    | (es, .error h) => (es, .error h)

/-- The answer of a body. -/
def ask (ev : Q → Option A) : Calls Q A E α → Option α
  | done a => some a
  | spent => none
  | step e t => if ok e then t.ask ev else none
  | call q t => (ev q).bind fun a ↦ (t a).ask ev

/-- The procedure with these bodies; the number bounds how deep the calls may go. -/
def runTo (body : Q → Calls Q A E A) : ℕ → Q → Run E A
  | 0, _ => ([], .error .tooDeep)
  | n + 1, q => (body q).run ok (runTo body n)

/-- The procedure, with as much room as the question may need. -/
def runs (size : Q → ℕ) (body : Q → Calls Q A E A) (q : Q) : Run E A :=
  runTo ok body (size q + 1) q

end

attribute [local simp] bind ask run runTo

variable {ok : E → Prop} {size : Q → ℕ} {Post : Q → A → Prop} {b : ℕ} {Good : α → Prop}

/-! ## What is to be checked of a body -/

theorem Within.bind {Good' : β → Prop} {t : Calls Q A E α} {f : α → Calls Q A E β}
    (h : t.Within ok size Post b Good)
    (hf : ∀ a, Good a → (f a).Within ok size Post b Good') :
    (t.bind f).Within ok size Post b Good' := by
  induction t with
  | done a => exact hf a h
  | spent => exact h.elim
  | step e t ih => exact fun he ↦ ih (h he)
  | call q t ih => exact ⟨h.1, fun a ha ↦ ih a (h.2 a ha)⟩

/-! ## Bodies -/

variable [DecidablePred ok]

theorem ask_bind {ev : Q → Option A} (t : Calls Q A E α) (f : α → Calls Q A E β) :
    (t.bind f).ask ok ev = (t.ask ok ev).bind fun a ↦ (f a).ask ok ev := by
  induction t with
  | done a => rfl
  | spent => rfl
  | step e t ih =>
    rw [bind, ask, ask, ih]
    split <;> rfl
  | call q t ih =>
    rw [bind, ask, ask, Option.bind_assoc]
    exact congrArg _ (funext fun a ↦ ih a)

/-- `ask` is `run` without the steps. -/
theorem toOption_run (ev : Q → Run E A) (t : Calls Q A E α) :
    (t.run ok ev).2.toOption = t.ask ok fun q ↦ (ev q).2.toOption := by
  induction t with
  | done a => rfl
  | spent => rfl
  | step e t ih =>
    rw [run, ask, ← ih]
    split <;> rfl
  | call q t ih =>
    rw [run, ask]
    obtain ⟨es, h | a⟩ := ev q
    · rfl
    · exact ih a

/-- The run of a body goes wrong at a step exactly if one of its steps is not allowed. -/
theorem run_notAllowed {ev : Q → Run E A}
    (hev : ∀ q, (ev q).2 = .error .notAllowed ↔ ∃ e ∈ (ev q).1, ¬ok e) (t : Calls Q A E α) :
    (t.run ok ev).2 = .error .notAllowed ↔ ∃ e ∈ (t.run ok ev).1, ¬ok e := by
  induction t with
  | done a => simp
  | spent => simp
  | step e t ih =>
    rw [run]
    split
    · rename_i he
      simp [ih, he]
    · rename_i he
      simp [he]
  | call q t ih =>
    have hq := hev q
    rw [run]
    generalize ev q = r at hq
    obtain ⟨es, h | a⟩ := r
    · simpa using hq
    · have hes : ∀ e ∈ es, ok e := by simpa using hq
      simp only [ih, List.mem_append]
      constructor
      · rintro ⟨e, he, hbad⟩
        exact ⟨e, .inr he, hbad⟩
      · rintro ⟨e, he | he, hbad⟩
        · exact absurd (hes e he) hbad
        · exact ⟨e, he, hbad⟩

theorem Within.meets {ev : Q → Run E A} {t : Calls Q A E α} (h : t.Within ok size Post b Good)
    (hev : ∀ q, size q < b → Meets (Post q) (ev q).2) : Meets Good (t.run ok ev).2 := by
  induction t with
  | done a => exact h
  | spent => exact h
  | step e t ih =>
    rw [run]
    split
    · rename_i he
      exact ih (h he)
    · trivial
  | call q t ih =>
    have hq := hev q h.1
    rw [run]
    generalize ev q = r at hq
    obtain ⟨es, x | a⟩ := r
    · cases x with
      | notAllowed => trivial
      | tooDeep => exact hq
    · exact ih a (h.2 a hq)

/-- A body is run the same way by two procedures that agree on smaller questions. -/
theorem Within.run_congr {ev ev' : Q → Run E A} {t : Calls Q A E α}
    (h : t.Within ok size Post b Good) (hev : ∀ q, size q < b → Meets (Post q) (ev q).2)
    (heq : ∀ q, size q < b → ev q = ev' q) : t.run ok ev = t.run ok ev' := by
  induction t with
  | done a => rfl
  | spent => rfl
  | step e t ih =>
    rw [run, run]
    split
    · rename_i he
      rw [ih (h he)]
    · rfl
  | call q t ih =>
    have hq := hev q h.1
    rw [run, run, ← heq q h.1]
    generalize ev q = r at hq
    obtain ⟨es, x | a⟩ := r
    · rfl
    · simp only [ih a (h.2 a hq)]

/-- What a body comes to is good if the answers are. -/
theorem Within.good_of_ask {ev : Q → Option A} {t : Calls Q A E α} {a : α}
    (h : t.Within ok size Post b Good) (hev : ∀ q a, size q < b → ev q = some a → Post q a)
    (ha : t.ask ok ev = some a) : Good a := by
  induction t with
  | done a' =>
    cases ha
    exact h
  | spent => cases ha
  | step e t ih =>
    rw [ask] at ha
    split at ha
    · rename_i he
      exact ih (h he) ha
    · cases ha
  | call q t ih =>
    obtain ⟨a', hq, ha⟩ := Option.bind_eq_some_iff.mp ha
    exact ih a' (h.2 a' (hev q a' h.1 hq)) ha

/-! ## The procedure -/

variable {body : Q → Calls Q A E A}

/-- A procedure of which only the answers are known is the one with these bodies if they have them
one call after the other. -/
theorem toOption_runTo {f : ℕ → Q → Option A} (h0 : ∀ q, f 0 q = none)
    (h1 : ∀ n q, f (n + 1) q = (body q).ask ok (f n)) (n : ℕ) (q : Q) :
    (runTo ok body n q).2.toOption = f n q := by
  induction n generalizing q with
  | zero => rw [h0, runTo]; rfl
  | succ n ih => rw [h1, runTo, toOption_run, funext ih]

/-- A run goes wrong at a step exactly if one of its steps is not allowed. -/
theorem runTo_notAllowed (n : ℕ) (q : Q) :
    (runTo ok body n q).2 = .error .notAllowed ↔ ∃ e ∈ (runTo ok body n q).1, ¬ok e := by
  induction n generalizing q with
  | zero => simp
  | succ n ih => exact run_notAllowed ih (body q)

variable (hbody : ∀ q, (body q).Within ok size Post (size q) (Post q))
include hbody

/-- **The calls go no deeper than the question is large.** -/
theorem runTo_meets {n : ℕ} {q : Q} (h : size q < n) : Meets (Post q) (runTo ok body n q).2 := by
  induction n generalizing q with
  | zero => omega
  | succ n ih => exact (hbody q).meets fun q' hq' ↦ ih (by omega)

/-- Any two bounds beyond the size of the question agree. -/
theorem runTo_eq {n m : ℕ} {q : Q} (hn : size q < n) (hm : size q < m) :
    runTo ok body n q = runTo ok body m q := by
  induction n generalizing m q with
  | zero => omega
  | succ n ih =>
    cases m with
    | zero => omega
    | succ m =>
      exact (hbody q).run_congr (fun q' hq' ↦ runTo_meets hbody (by omega))
        fun q' hq' ↦ ih (by omega) (by omega)

theorem runTo_eq_runs {n : ℕ} {q : Q} (hn : size q < n) :
    runTo ok body n q = runs ok size body q :=
  runTo_eq hbody hn (Nat.lt_succ_self _)

/-- The procedure calls itself. -/
theorem runs_eq (q : Q) : runs ok size body q = (body q).run ok (runs ok size body) :=
  (hbody q).run_congr (fun _ hq' ↦ runTo_meets hbody hq') fun _ hq' ↦ runTo_eq_runs hbody hq'

theorem runs_meets (q : Q) : Meets (Post q) (runs ok size body q).2 :=
  runTo_meets hbody (Nat.lt_succ_self _)

/-- **The procedure comes to an answer exactly if every step it makes is allowed.** -/
theorem answers_iff (q : Q) :
    (∃ a, (runs ok size body q).2.toOption = some a ∧ Post q a) ↔
      ∀ e ∈ (runs ok size body q).1, ok e := by
  have hmeets := runs_meets hbody q
  have hbad : (runs ok size body q).2 = .error .notAllowed ↔ _ := runTo_notAllowed (size q + 1) q
  have hall : (∀ e ∈ (runs ok size body q).1, ok e) ↔
      (runs ok size body q).2 ≠ .error .notAllowed := by
    rw [Ne, hbad]
    exact ⟨fun h ⟨e, he, hn⟩ ↦ hn (h e he), fun h e he ↦ by_contra fun hn ↦ h ⟨e, he, hn⟩⟩
  rw [hall]
  cases hr : (runs ok size body q).2 with
  | ok a =>
    rw [hr] at hmeets
    exact ⟨fun _ h ↦ by simp at h, fun _ ↦ ⟨a, rfl, hmeets⟩⟩
  | error h =>
    rw [hr] at hmeets
    cases h with
    | notAllowed => simp [Except.toOption]
    | tooDeep => exact hmeets.elim

end Calls
