import SsdLinux.Setup.Token

/-!
# What a quoted token means

`SsdLinux.Setup.Token` says what `token` does to any text.  This file is the other direction: what a
text that is written with a meaning in mind is read as.

* A `TokenPiece` is a byte that stands for itself, a byte behind a backslash, or a reference
  `$name` or `${name}`, and `TokenPiece.value` is what it stands for in a store.
* A `QuotedText` is a sequence of pieces in which no reference without braces runs into the text
  behind it.
* `token_quotedText` is the law: the token is the concatenation of the values, and the pointer
  stands at the first byte behind the closing quote that is not blank.

A value that is put in for a reference is not read again.  Nothing is assumed of the store, so a
value may well hold quotes, backslashes and dollars of its own.
-/

set_option autoImplicit false

namespace Setup

open CLib

/-- A name that a reference can be written with. -/
structure RefName where
  text : Bytes
  ne_nil : text ≠ []
  chars : ∀ c ∈ text, isAtom c = true

/-- What the text between two quotes is made of. -/
inductive TokenPiece
  | literal (c : UInt8) (h : c ∉ [0, dquote, backslash, dollar])
  | escape (c : UInt8) (h : c ≠ 0)
  | ref (name : RefName)
  | bref (name : RefName)

namespace TokenPiece

/-- How a piece is written. -/
def text : TokenPiece → Bytes
  | literal c _ => [c]
  | escape c _ => [backslash, c]
  | ref name => dollar :: name.text
  | bref name => dollar :: lbrace :: (name.text ++ [rbrace])

/-- What a piece stands for. -/
def value (w : World) (p : Proc) : TokenPiece → Bytes
  | literal c _ => [c]
  | escape c _ => [c]
  | ref name => (getval w name.text p).getD []
  | bref name => (getval w name.text p).getD []

/-- Whether a piece ends where it says it does, before the text `s`. -/
def Ends (s : Bytes) : TokenPiece → Prop
  | literal .. | escape .. | bref _ => True
  | ref _ => ∀ c ∈ s.head?, isAtom c = false

end TokenPiece

def piecesText (l : List TokenPiece) : Bytes := (l.map TokenPiece.text).flatten

def piecesValue (w : World) (p : Proc) (l : List TokenPiece) : Bytes :=
  (l.map (TokenPiece.value w p)).flatten

/-- Every piece ends where it says it does. -/
def Separated : List TokenPiece → Prop
  | [] => True
  | x :: l => x.Ends (piecesText l) ∧ Separated l

/-- The text between two quotes, by what it is made of. -/
structure QuotedText where
  pieces : List TokenPiece
  separated : Separated pieces

def QuotedText.text (b : QuotedText) : Bytes := piecesText b.pieces

def QuotedText.value (w : World) (p : Proc) (b : QuotedText) : Bytes := piecesValue w p b.pieces

/-! ## Reading the pieces -/

variable {w : World} {p : Proc}

theorem piecesText_cons (x : TokenPiece) (l : List TokenPiece) :
    piecesText (x :: l) = x.text ++ piecesText l := rfl

theorem piecesValue_cons (x : TokenPiece) (l : List TokenPiece) :
    piecesValue w p (x :: l) = x.value w p ++ piecesValue w p l := rfl

/-- A closing quote ends a reference as well as the text that was there before it. -/
theorem TokenPiece.Ends.append_dquote {x : TokenPiece} {s : Bytes} (h : x.Ends s) (r : Bytes) :
    x.Ends (s ++ dquote :: r) := by
  cases x with
  | literal => trivial
  | escape => trivial
  | bref => trivial
  | ref name =>
    cases s with
    | nil => exact fun c hc ↦ by cases hc; decide
    | cons d s => exact h

/-- `qatom` reads one piece as what it stands for. -/
theorem qatom_piece {x : TokenPiece} {s : Bytes} (h : x.Ends s) :
    qatom w p (x.text ++ s) = (qatom w p s).map fun q ↦ (x.value w p ++ q.1, q.2) := by
  cases x with
  | literal c hc =>
    simp only [List.mem_cons, List.not_mem_nil, or_false, not_or] at hc
    exact qatom_other hc.2.2.1 hc.2.2.2 hc.2.1 s
  | escape c _ => exact qatom_backslash c s
  | ref name =>
    rw [TokenPiece.text, List.cons_append, qatom_dollar, val_name name.ne_nil name.chars h,
      TokenPiece.value]
  | bref name =>
    have hline : (TokenPiece.bref name).text ++ s
        = dollar :: lbrace :: (name.text ++ rbrace :: s) := by
      simp [TokenPiece.text]
    rw [hline, qatom_dollar, val_braced name.ne_nil name.chars, TokenPiece.value]

theorem qatom_pieces {l : List TokenPiece} (h : Separated l) (r : Bytes) :
    qatom w p (piecesText l ++ dquote :: r) = some (piecesValue w p l, dquote :: r) := by
  induction l with
  | nil => exact qatom_dquote r
  | cons x l ih =>
    rw [piecesText_cons, List.append_assoc, qatom_piece (h.1.append_dquote r), ih h.2,
      Option.map_some, piecesValue_cons]

/-- Blanks before a token are skipped. -/
theorem token_blanks {sp : Bytes} (hsp : ∀ c ∈ sp, isspace c = true) (s : Bytes) :
    token w p (sp ++ s) = token w p s := by
  have hd : (sp ++ s).dropWhile isspace = s.dropWhile isspace :=
    List.dropWhile_append_of_pos hsp
  have ha : tokenAtom (sp ++ s) = tokenAtom s := by rw [tokenAtom, hd, tokenAtom]
  rw [token, token, hd, ha]

/-- **A quoted token means the concatenation of what its pieces stand for.** -/
theorem token_quotedText (w : World) (p : Proc) (b : QuotedText) (sp : Bytes)
    (hsp : ∀ c ∈ sp, isspace c = true) (r : Bytes) :
    token w p (sp ++ dquote :: (b.text ++ dquote :: r))
      = some (b.value w p, r.dropWhile isspace) := by
  rw [token_blanks hsp, token_quoted, QuotedText.text, qatom_pieces b.separated, Option.map_some]
  simp only [if_pos]
  rfl

/-- ` "a\"$x_lan${b}" z` in a store where `x_lan` is a quote and a dollar and `b` is not set. -/
theorem token_quotedText_box :
    token .bare ⟨[⟨cstr "x_lan", [dquote, dollar], 0⟩], fun _ ↦ none⟩
        (cstr " \"a\\\"$x_lan$\x7bb\x7d\" z") = some ([97, dquote, dquote, dollar], [122]) := by
  have h := token_quotedText .bare ⟨[⟨cstr "x_lan", [dquote, dollar], 0⟩], fun _ ↦ none⟩
    ⟨[.literal 97 (by decide), .escape dquote (by decide),
      .ref ⟨cstr "x_lan", by decide, by decide⟩, .bref ⟨[98], by decide, by decide⟩],
      ⟨trivial, trivial, fun c hc ↦ by cases hc; decide, trivial, trivial⟩⟩
    [blank] (by decide) (cstr " z")
  exact h

end Setup
