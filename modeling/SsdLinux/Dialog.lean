import Mathlib.Data.List.Induction

/-!
# Programs that read answers and act

A program of this kind takes what it needs from an input, acts, and comes to a value, or leaves
early, or gets `stuck` where nothing is known of what it does.  A run of it is the list of its
actions, the *trace*, and its end.

* `Dialog A I α` are the programs with actions in `A`, inputs in `I` and values in `α`.  They are a
  monad.
* `Allowed ok h t` says of a trace `t` behind a history `h` that each action is allowed by those
  before it, and `Meets ok P d Q` that a program only acts so: from a history in `P` it makes
  allowed actions, and if it comes to a value, value and history are in `Q`.
* There is a rule of `Meets` for each way to put a program together; `Meets.bind` is the one for
  programs one after the other.  `allowed_iff` says what comes out for a whole trace.
-/

set_option autoImplicit false

/-- How a run ends. -/
inductive Dialog.End (I α : Type) where
  | value (a : α) (rest : I)
  | exit (code : ℕ)
  | stuck
  deriving DecidableEq

/-- A program: the actions and the end of its run on an input. -/
def Dialog (A I α : Type) : Type := I → List A × Dialog.End I α

namespace Dialog

variable {A I α β : Type}

/-! ## Programs -/

def pure (a : α) : Dialog A I α := fun s ↦ ([], .value a s)

/-- One program after the other. -/
def bind (d : Dialog A I α) (f : α → Dialog A I β) : Dialog A I β := fun s ↦
  match (d s).2 with
  | .value a rest => ((d s).1 ++ (f a rest).1, (f a rest).2)
  | .exit code => ((d s).1, .exit code)
  | .stuck => ((d s).1, .stuck)

instance instMonad : Monad (Dialog A I) where
  pure := pure
  bind := bind

/-- Some actions. -/
def acts (l : List A) : Dialog A I Unit := fun s ↦ (l, .value () s)

def act (a : A) : Dialog A I Unit := acts [a]

/-- The program is left. -/
def exit (code : ℕ) : Dialog A I α := fun _ ↦ ([], .exit code)

/-- What is known only if there is a result. -/
def ofOption (o : Option α) : Dialog A I α := fun s ↦ ([], o.elim .stuck fun a ↦ .value a s)

/-- Something is taken from the input. -/
def take (f : I → Option (α × I)) : Dialog A I α := fun s ↦
  ([], (f s).elim .stuck fun x ↦ .value x.1 x.2)

/-- An action for each item, one after the other. -/
def forEach (l : List β) (f : β → Dialog A I α) : Dialog A I (List α) :=
  match l with
  | [] => pure []
  | b :: l => bind (f b) fun a ↦ bind (forEach l f) fun as ↦ pure (a :: as)

/-! ## The runs of two programs, one after the other -/

variable {d : Dialog A I α} {f : α → Dialog A I β} {s rest : I} {a : α} {b : β} {x : A}

/-- **A run that comes to a value is a run of the first program, and one of the second.** -/
theorem bind_eq_value_iff {t : List A} :
    (d >>= f) s = (t, .value b rest) ↔
      ∃ t₁ a mid t₂, d s = (t₁, .value a mid) ∧ f a mid = (t₂, .value b rest) ∧ t = t₁ ++ t₂ := by
  show bind d f s = _ ↔ _
  rw [bind]
  rcases hd : d s with ⟨t₁, ⟨a, mid⟩ | code | -⟩
  · dsimp only
    constructor
    · intro h
      obtain ⟨rfl, hend⟩ := Prod.mk.inj h
      exact ⟨t₁, a, mid, (f a mid).1, rfl, Prod.ext rfl hend, rfl⟩
    · rintro ⟨_, _, _, t₂, heq, hf, rfl⟩
      cases heq
      rw [hf]
  · refine iff_of_false (fun h ↦ by cases h) ?_
    rintro ⟨_, _, _, _, h, -⟩
    cases h
  · refine iff_of_false (fun h ↦ by cases h) ?_
    rintro ⟨_, _, _, _, h, -⟩
    cases h

/-- **An action of two programs is one of the first, or one of the second behind it.** -/
theorem mem_bind_iff : x ∈ ((d >>= f) s).1 ↔
    x ∈ (d s).1 ∨ ∃ a mid, (d s).2 = .value a mid ∧ x ∈ (f a mid).1 := by
  show x ∈ (bind d f s).1 ↔ _
  rw [bind]
  rcases d s with ⟨t₁, ⟨a, mid⟩ | code | -⟩
  · simp only [List.mem_append, End.value.injEq]
    refine or_congr_right ⟨fun h ↦ ⟨a, mid, ⟨rfl, rfl⟩, h⟩, ?_⟩
    rintro ⟨_, _, ⟨rfl, rfl⟩, h⟩
    exact h
  · simp
  · simp

/-- **The runs of a loop**: what is right for no round, and stays right with a round in front, is
right for the loop. -/
theorem forEach_value {g : β → Dialog A I α} {R : List β → List A → List α → Prop}
    (hnil : R [] [] [])
    (hcons : ∀ b l s t a rest t' as, g b s = (t, .value a rest) → R l t' as →
      R (b :: l) (t ++ t') (a :: as))
    {l : List β} {t : List A} {as : List α} (h : forEach l g s = (t, .value as rest)) :
    R l t as := by
  induction l generalizing s t as with
  | nil =>
    cases h
    exact hnil
  | cons b l ih =>
    obtain ⟨t₁, a, mid, t₂, hb, hrest, rfl⟩ := bind_eq_value_iff.1 h
    obtain ⟨t₃, as', mid', t₄, hl, hend, rfl⟩ := bind_eq_value_iff.1 hrest
    cases hend
    rw [List.append_nil]
    exact hcons b l s t₁ a mid t₃ as' hb (ih hl)

/-! ## Actions that are allowed -/

variable {ok : List A → A → Prop} {h t : List A}

/-- Each action is allowed by the history and the actions before it. -/
def Allowed (ok : List A → A → Prop) (h : List A) : List A → Prop
  | [] => True
  | a :: t => ok h a ∧ Allowed ok (h ++ [a]) t

theorem allowed_append {t' : List A} :
    Allowed ok h (t ++ t') ↔ Allowed ok h t ∧ Allowed ok (h ++ t) t' := by
  induction t generalizing h with
  | nil => simp [Allowed]
  | cons a t ih =>
    rw [List.cons_append, Allowed, Allowed, ih, List.append_assoc, List.singleton_append,
      and_assoc]

/-- **A trace of allowed actions**, seen from each of them. -/
theorem allowed_iff :
    Allowed ok h t ↔ ∀ before a after, t = before ++ a :: after → ok (h ++ before) a := by
  constructor
  · rintro hall before a after rfl
    exact (allowed_append.1 hall).2.1
  · intro hall
    induction t using List.reverseRecOn with
    | nil => trivial
    | append_singleton t a ih =>
      refine allowed_append.2 ⟨ih fun before x after heq ↦ ?_, hall t a [] rfl, trivial⟩
      exact hall before x (after ++ [a]) (by rw [heq]; simp)

/-! ## Programs that only make allowed actions -/

/-- From a history in `P`, a program makes allowed actions, and comes to a value and a history in
`Q`, if it does. -/
def Meets (ok : List A → A → Prop) (P : List A → Prop) (d : Dialog A I α)
    (Q : α → List A → Prop) : Prop :=
  ∀ h s, P h → Allowed ok h (d s).1 ∧ ∀ a rest, (d s).2 = .value a rest → Q a (h ++ (d s).1)

variable {P P' : List A → Prop} {Q Q' : α → List A → Prop}
  {R : β → List A → Prop}

theorem Meets.mono (hd : Meets ok P d Q) (hpre : ∀ h, P' h → P h)
    (hpost : ∀ a h, Q a h → Q' a h) : Meets ok P' d Q' := fun h s hh ↦
  ⟨(hd h s (hpre h hh)).1, fun a rest ha ↦ hpost _ _ ((hd h s (hpre h hh)).2 a rest ha)⟩

theorem Meets.pure (a : α) (hpost : ∀ h, P h → Q a h) :
    Meets ok P (pure a : Dialog A I α) Q := by
  intro h s hh
  refine ⟨trivial, fun a' rest ha ↦ ?_⟩
  cases ha
  rw [Dialog.pure, List.append_nil]
  exact hpost h hh

/-- **One program after the other.** -/
theorem Meets.bind (hd : Meets ok P d Q) (hf : ∀ a, Meets ok (Q a) (f a) R) :
    Meets ok P (d >>= f) R := by
  intro h s hh
  obtain ⟨hall, hval⟩ := hd h s hh
  show Allowed ok h (Dialog.bind d f s).1 ∧
    ∀ b rest, (Dialog.bind d f s).2 = .value b rest → R b (h ++ (Dialog.bind d f s).1)
  rw [Dialog.bind]
  rcases hrun : (d s).2 with ⟨a, mid⟩ | code | -
  · obtain ⟨hall', hval'⟩ := hf a _ mid (hval a mid hrun)
    refine ⟨allowed_append.2 ⟨hall, hall'⟩, fun b rest hb ↦ ?_⟩
    rw [← List.append_assoc]
    exact hval' b rest hb
  · exact ⟨hall, fun b rest hb ↦ by cases hb⟩
  · exact ⟨hall, fun b rest hb ↦ by cases hb⟩

theorem Meets.acts {l : List A} {Q : Unit → List A → Prop}
    (hall : ∀ h, P h → Allowed ok h l ∧ Q () (h ++ l)) :
    Meets ok P (acts l : Dialog A I Unit) Q := by
  intro h s hh
  refine ⟨(hall h hh).1, fun a rest ha ↦ ?_⟩
  cases ha
  exact (hall h hh).2

theorem Meets.act {Q : Unit → List A → Prop}
    (hall : ∀ h, P h → ok h x ∧ Q () (h ++ [x])) :
    Meets ok P (act x : Dialog A I Unit) Q :=
  Meets.acts fun h hh ↦ ⟨⟨(hall h hh).1, trivial⟩, (hall h hh).2⟩

theorem Meets.exit (code : ℕ) : Meets ok P (exit code : Dialog A I α) Q := by
  intro h s _
  exact ⟨trivial, fun a rest ha ↦ by cases ha⟩

theorem Meets.ofOption (o : Option α) (hpost : ∀ h, P h → ∀ a ∈ o, Q a h) :
    Meets ok P (ofOption o : Dialog A I α) Q := by
  intro h s hh
  refine ⟨trivial, fun a rest ha ↦ ?_⟩
  cases o with
  | none => cases ha
  | some b =>
    cases ha
    rw [Dialog.ofOption, List.append_nil]
    exact hpost h hh a rfl

/-- What comes of something that may be missing. -/
theorem Meets.ofOption_bind {o : Option α} {f : α → Dialog A I β}
    (hf : ∀ x ∈ o, Meets ok P (f x) R) :
    Meets ok P (Dialog.ofOption o >>= f) R := by
  cases o with
  | none => exact fun h s _ ↦ ⟨trivial, fun a rest ha ↦ by cases ha⟩
  | some x => exact hf x rfl

theorem Meets.take (g : I → Option (α × I))
    (hpost : ∀ h, P h → ∀ s a rest, g s = some (a, rest) → Q a h) :
    Meets ok P (take g) Q := by
  intro h s hh
  refine ⟨trivial, fun a rest ha ↦ ?_⟩
  rw [Dialog.take] at ha ⊢
  rcases hg : g s with - | ⟨b, mid⟩
  · rw [hg] at ha
    cases ha
  · rw [hg] at ha
    cases ha
    rw [List.append_nil]
    exact hpost h hh s b mid hg

theorem Meets.ite {c : Prop} [Decidable c] {d d' : Dialog A I α}
    (h1 : c → Meets ok P d Q) (h2 : ¬c → Meets ok P d' Q) :
    Meets ok P (if c then d else d') Q := by
  split_ifs with hc
  · exact h1 hc
  · exact h2 hc

/-- A loop keeps what each round of it keeps. -/
theorem Meets.forEach {l : List β} {g : β → Dialog A I α}
    (hg : ∀ b ∈ l, Meets ok P (g b) fun _ ↦ P) :
    Meets ok P (forEach l g) fun _ ↦ P := by
  induction l with
  | nil => exact Meets.pure [] fun h hh ↦ hh
  | cons b l ih =>
    refine Meets.bind (hg b List.mem_cons_self) fun a ↦ ?_
    refine Meets.bind (ih fun b hb ↦ hg b (List.mem_cons_of_mem _ hb)) fun as ↦ ?_
    exact Meets.pure (a :: as) fun h hh ↦ hh

/-- **A whole run**: every action is allowed by those before it. -/
theorem Meets.run (hd : Meets ok P d Q) (hpre : P []) (s : I) {before after : List A}
    (heq : (d s).1 = before ++ x :: after) : ok before x :=
  allowed_iff.1 (hd [] s hpre).1 before x after heq

end Dialog
