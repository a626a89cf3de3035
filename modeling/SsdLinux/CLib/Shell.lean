import SsdLinux.CLib.Bytes
import Mathlib.Data.List.Forall2

/-!
# Command lines

What a shell makes of a command line, as far as words, single quotes and metacharacters go:

* words end at blanks;
* between single quotes every byte is literal;
* `;`, `&`, `|`, a backquote, `$`, `<`, `>`, parentheses and newlines are operators wherever they
  stand outside quotes.

`lex` gives the tokens and `parse` the simple command they make up, if they do: words, and
redirections of the output.  A command line that was put together from pieces (`Piece`) parses into
just these pieces exactly if every piece is clean on its own (`parse_render_iff`): bare text must be
a plain word, and quoted text must have no quote.

The proof counts.  A word of `n` bytes weighs `2 * n + 1`; a piece can weigh no more than its text
allows, and loses weight with every blank and every operator in it.
-/

set_option autoImplicit false

namespace Shell

open CLib

/-! ## Tokens -/

def isBlank (c : UInt8) : Bool := c == 32 || c == 9

/-- The operators: newline, `$`, `&`, parentheses, `;`, `<`, `>`, backquote and `|`. -/
def metachars : Bytes := [10, 36, 38, 40, 41, 59, 60, 62, 96, 124]

def isMeta (c : UInt8) : Bool := metachars.contains c

/-- A token: a word, without its quotes, or an operator. -/
inductive Tok
  | word (s : Bytes)
  | op (c : UInt8)
  deriving DecidableEq

/-- Where the lexer is: between words, in a word, or between quotes. -/
inductive Mode
  | out
  | word (s : Bytes)
  | quoted (s : Bytes)

/-- The tokens of the rest of a command line; `none` if a quote is not closed. -/
def lexGo : Mode → Bytes → Option (List Tok)
  | .out, [] => some []
  | .word v, [] => some [.word v]
  | .quoted _, [] => none
  | .out, c :: s =>
    if isBlank c then lexGo .out s
    else if isMeta c then (lexGo .out s).map (.op c :: ·)
    else if c = squote then lexGo (.quoted []) s
    else lexGo (.word [c]) s
  | .word v, c :: s =>
    if isBlank c then (lexGo .out s).map (.word v :: ·)
    else if isMeta c then (lexGo .out s).map fun ts ↦ .word v :: .op c :: ts
    else if c = squote then lexGo (.quoted v) s
    else lexGo (.word (v ++ [c])) s
  | .quoted v, c :: s => if c = squote then lexGo (.word v) s else lexGo (.quoted (v ++ [c])) s

/-- The tokens of a command line. -/
def lex (s : Bytes) : Option (List Tok) := lexGo .out s

/-- A simple command: its words, and the files its output goes to. -/
structure Command where
  words : List Bytes
  outputs : List Bytes
  deriving DecidableEq

/-- The simple command a list of tokens makes up. -/
def parseToks : List Tok → Option Command
  | [] => some ⟨[], []⟩
  | .word s :: ts => (parseToks ts).map fun c ↦ { c with words := s :: c.words }
  | .op c :: .word f :: ts =>
    if c = 62 then (parseToks ts).map fun c ↦ { c with outputs := f :: c.outputs } else none
  | .op _ :: _ => none

/-- The simple command a command line is parsed into. -/
def parse (s : Bytes) : Option Command := (lex s).bind parseToks

theorem lexGo_word_nil (v : Bytes) : lexGo (.word v) [] = some [.word v] := rfl

theorem lexGo_out (c : UInt8) (s : Bytes) :
    lexGo .out (c :: s) =
      if isBlank c then lexGo .out s
      else if isMeta c then (lexGo .out s).map (.op c :: ·)
      else if c = squote then lexGo (.quoted []) s
      else lexGo (.word [c]) s := rfl

theorem lexGo_word (v : Bytes) (c : UInt8) (s : Bytes) :
    lexGo (.word v) (c :: s) =
      if isBlank c then (lexGo .out s).map (.word v :: ·)
      else if isMeta c then (lexGo .out s).map fun ts ↦ .word v :: .op c :: ts
      else if c = squote then lexGo (.quoted v) s
      else lexGo (.word (v ++ [c])) s := rfl

theorem lexGo_quoted (v : Bytes) (c : UInt8) (s : Bytes) :
    lexGo (.quoted v) (c :: s) =
      if c = squote then lexGo (.word v) s else lexGo (.quoted (v ++ [c])) s := rfl

/-! ## Words -/

/-- A byte that ends a word or changes how the rest is read. -/
def isSpecial (c : UInt8) : Bool := isBlank c || isMeta c || c == squote

/-- A word that stands for itself. -/
def PlainWord (s : Bytes) : Prop := s ≠ [] ∧ ∀ c ∈ s, isSpecial c = false

instance (s : Bytes) : Decidable (PlainWord s) := inferInstanceAs (Decidable (_ ∧ _))

theorem lexGo_word_cons {c : UInt8} (hc : isSpecial c = false) (v s : Bytes) :
    lexGo (.word v) (c :: s) = lexGo (.word (v ++ [c])) s := by
  simp only [isSpecial, Bool.or_eq_false_iff, beq_eq_false_iff_ne] at hc
  rw [lexGo_word, hc.1.1, hc.1.2, if_neg (by decide), if_neg (by decide), if_neg hc.2]

theorem lexGo_out_cons {c : UInt8} (hc : isSpecial c = false) (s : Bytes) :
    lexGo .out (c :: s) = lexGo (.word [c]) s := by
  simp only [isSpecial, Bool.or_eq_false_iff, beq_eq_false_iff_ne] at hc
  rw [lexGo_out, hc.1.1, hc.1.2, if_neg (by decide), if_neg (by decide), if_neg hc.2]

theorem lexGo_word_append {s : Bytes} (hs : ∀ c ∈ s, isSpecial c = false) (v r : Bytes) :
    lexGo (.word v) (s ++ r) = lexGo (.word (v ++ s)) r := by
  induction s generalizing v with
  | nil => simp
  | cons c s ih =>
    rw [List.cons_append, lexGo_word_cons (hs c List.mem_cons_self),
      ih fun d hd ↦ hs d (List.mem_cons_of_mem _ hd), List.append_assoc, List.singleton_append]

theorem lexGo_quoted_append {s : Bytes} (hs : squote ∉ s) (v r : Bytes) :
    lexGo (.quoted v) (s ++ squote :: r) = lexGo (.word (v ++ s)) r := by
  induction s generalizing v with
  | nil => rw [List.nil_append, lexGo_quoted, if_pos rfl, List.append_nil]
  | cons c s ih =>
    rw [List.mem_cons, not_or] at hs
    rw [List.cons_append, lexGo_quoted, if_neg (Ne.symm hs.1), ih hs.2, List.append_assoc,
      List.singleton_append]

/-- A plain word is one token. -/
theorem lex_plainWord {s : Bytes} (hs : PlainWord s) : lex s = some [.word s] := by
  obtain ⟨c, t, rfl⟩ := List.exists_cons_of_ne_nil hs.1
  have h := lexGo_word_append (fun d hd ↦ hs.2 d (List.mem_cons_of_mem _ hd)) [c] []
  rw [List.append_nil] at h
  rw [lex, lexGo_out_cons (hs.2 c List.mem_cons_self), h, lexGo_word_nil]
  rfl

/-- Quoted text is one token. -/
theorem lex_quoted {s : Bytes} (hs : squote ∉ s) :
    lex (squote :: s ++ [squote]) = some [.word s] := by
  have hb : isBlank squote = false ∧ isMeta squote = false := by decide
  rw [lex, List.cons_append, lexGo_out, hb.1, hb.2, if_neg (by decide), if_neg (by decide),
    if_pos rfl, lexGo_quoted_append hs, lexGo_word_nil, List.nil_append]

/-- **Text that is complete is lexed apart from what follows a blank.** -/
theorem lexGo_append_blank {s : Bytes} {m : Mode} {ts : List Tok} (h : lexGo m s = some ts)
    (r : Bytes) : lexGo m (s ++ blank :: r) = (lex r).map (ts ++ ·) := by
  have hb : isBlank blank = true := by decide
  induction s generalizing m ts with
  | nil =>
    cases m with
    | out =>
      cases h
      simp [lexGo_out, hb, lex]
    | word v =>
      cases h
      simp [lexGo_word, hb, lex]
    | quoted v => cases h
  | cons c s ih =>
    rw [List.cons_append]
    cases m with
    | out =>
      rw [lexGo_out] at h ⊢
      split_ifs at h ⊢ with h1 h2 h3
      · exact ih h
      · obtain ⟨ts', hts, rfl⟩ := Option.map_eq_some_iff.mp h
        rw [ih hts, Option.map_map]
        rfl
      · exact ih h
      · exact ih h
    | word v =>
      rw [lexGo_word] at h ⊢
      split_ifs at h ⊢ with h1 h2 h3
      · obtain ⟨ts', hts, rfl⟩ := Option.map_eq_some_iff.mp h
        rw [ih hts, Option.map_map]
        rfl
      · obtain ⟨ts', hts, rfl⟩ := Option.map_eq_some_iff.mp h
        rw [ih hts, Option.map_map]
        rfl
      · exact ih h
      · exact ih h
    | quoted v =>
      rw [lexGo_quoted] at h ⊢
      split_ifs at h ⊢ with h1
      · exact ih h
      · exact ih h

/-! ## What a word cannot be -/

/-- The text the lexer is in the middle of. -/
def Mode.text : Mode → Bytes
  | .out => []
  | .word s => s
  | .quoted s => s

/-- A quote is never part of a word. -/
theorem squote_not_mem_word {s : Bytes} {m : Mode} {ts : List Tok} (h : lexGo m s = some ts)
    (hm : squote ∉ m.text) : ∀ v, .word v ∈ ts → squote ∉ v := by
  have hadd : ∀ {v : Bytes} {c : UInt8}, squote ∉ v → c ≠ squote → squote ∉ v ++ [c] :=
    fun hv hc ↦ by simp [hv, hc.symm]
  induction s generalizing m ts with
  | nil =>
    cases m with
    | out =>
      cases h
      simp
    | word w =>
      cases h
      simpa [Mode.text] using hm
    | quoted w => cases h
  | cons c s ih =>
    cases m with
    | out =>
      rw [lexGo_out] at h
      split_ifs at h with h1 h2 h3
      · exact ih h hm
      · obtain ⟨ts', hts, rfl⟩ := Option.map_eq_some_iff.mp h
        simpa using ih hts hm
      · exact ih h (by simp [Mode.text])
      · exact ih h (hadd (v := []) (by simp) h3)
    | word w =>
      rw [lexGo_word] at h
      split_ifs at h with h1 h2 h3
      · obtain ⟨ts', hts, rfl⟩ := Option.map_eq_some_iff.mp h
        simpa using ⟨hm, ih hts (by simp [Mode.text])⟩
      · obtain ⟨ts', hts, rfl⟩ := Option.map_eq_some_iff.mp h
        simpa using ⟨hm, ih hts (by simp [Mode.text])⟩
      · exact ih h hm
      · exact ih h (hadd hm h3)
    | quoted w =>
      rw [lexGo_quoted] at h
      split_ifs at h with h1
      · exact ih h hm
      · exact ih h (hadd hm h1)

/-- The words of a command are words of the command line. -/
theorem mem_toks_of_parse {ts : List Tok} {cmd : Command} (h : parseToks ts = some cmd) :
    ∀ v, v ∈ cmd.words ∨ v ∈ cmd.outputs → .word v ∈ ts := by
  induction ts using parseToks.induct generalizing cmd with
  | case1 =>
    cases h
    simp
  | case2 s ts ih =>
    obtain ⟨cmd', hc, rfl⟩ := Option.map_eq_some_iff.mp h
    intro v hv
    simp only [List.mem_cons, Tok.word.injEq]
    rcases hv with hv | hv
    · exact (List.mem_cons.mp hv).imp_right fun hv ↦ ih hc v (.inl hv)
    · exact .inr (ih hc v (.inr hv))
  | case3 f ts ih =>
    rw [parseToks, if_pos rfl] at h
    obtain ⟨cmd', hc, rfl⟩ := Option.map_eq_some_iff.mp h
    intro v hv
    simp only [List.mem_cons, reduceCtorEq, Tok.word.injEq, false_or]
    rcases hv with hv | hv
    · exact .inr (ih hc v (.inl hv))
    · exact (List.mem_cons.mp hv).imp_right fun hv ↦ ih hc v (.inr hv)
  | case4 c f ts hc =>
    rw [parseToks, if_neg hc] at h
    cases h
  | case5 c ts hts =>
    rw [parseToks] at h
    · cases h
    · exact hts

/-! ## Weights -/

/-- What the words weigh. -/
def wordsWeight (l : List Bytes) : ℕ := (l.map fun s ↦ 2 * s.length + 1).sum

/-- What the words of a list of tokens weigh. -/
def weight (ts : List Tok) : ℕ :=
  (ts.map fun
    | .word s => 2 * s.length + 1
    | .op _ => 0).sum

theorem weight_append (ts us : List Tok) : weight (ts ++ us) = weight ts + weight us := by
  simp [weight]

theorem weight_parse {ts : List Tok} {cmd : Command} (h : parseToks ts = some cmd) :
    weight ts = wordsWeight cmd.words + wordsWeight cmd.outputs := by
  induction ts using parseToks.induct generalizing cmd with
  | case1 =>
    cases h
    rfl
  | case2 s ts ih =>
    obtain ⟨cmd', hc, rfl⟩ := Option.map_eq_some_iff.mp h
    have := ih hc
    simp only [weight, wordsWeight, List.map_cons, List.sum_cons] at this ⊢
    omega
  | case3 f ts ih =>
    rw [parseToks, if_pos rfl] at h
    obtain ⟨cmd', hc, rfl⟩ := Option.map_eq_some_iff.mp h
    have := ih hc
    simp only [weight, wordsWeight, List.map_cons, List.sum_cons] at this ⊢
    omega
  | case4 c f ts hc =>
    rw [parseToks, if_neg hc] at h
    cases h
  | case5 c ts hts =>
    rw [parseToks] at h
    · cases h
    · exact hts

/-- The blanks and the operators of a text. -/
def breaks (s : Bytes) : ℕ := s.countP fun c ↦ isBlank c || isMeta c

/-- **Text without quotes is complete, and weighs less for every break in it.** -/
theorem lexGo_weight {s : Bytes} (hs : squote ∉ s) :
    (∃ ts, lexGo .out s = some ts ∧ weight ts + breaks s ≤ 2 * s.length + 1) ∧
      ∀ v, ∃ ts, lexGo (.word v) s = some ts ∧
        weight ts + breaks s ≤ 2 * (v.length + s.length) + 1 := by
  induction s with
  | nil =>
    refine ⟨⟨[], rfl, by decide⟩, fun v ↦ ⟨[.word v], rfl, ?_⟩⟩
    simp [weight, breaks]
  | cons c s ih =>
    rw [List.mem_cons, not_or] at hs
    obtain ⟨⟨ts, hts, hw⟩, hword⟩ := ih hs.2
    have hbreaks : breaks (c :: s) = breaks s + if isBlank c || isMeta c then 1 else 0 := by
      simp [breaks, List.countP_cons]
    have hword' : ∀ v, weight (.word v :: ts) = 2 * v.length + 1 + weight ts := fun v ↦ rfl
    have hop : weight (.op c :: ts) = weight ts := by simp [weight]
    have hadd : ∀ v : Bytes, (v ++ [c]).length = v.length + 1 := fun v ↦ by simp
    rw [List.length_cons, hbreaks]
    by_cases h1 : isBlank c = true
    · refine ⟨⟨ts, by rw [lexGo_out, if_pos h1, hts], ?_⟩,
        fun v ↦ ⟨.word v :: ts, by rw [lexGo_word, if_pos h1, hts]; rfl, ?_⟩⟩
      · simp only [h1, Bool.true_or, if_true]
        omega
      · simp only [h1, Bool.true_or, if_true, hword']
        omega
    by_cases h2 : isMeta c = true
    · refine ⟨⟨.op c :: ts, by rw [lexGo_out, if_neg h1, if_pos h2, hts]; rfl, ?_⟩,
        fun v ↦ ⟨.word v :: .op c :: ts, by rw [lexGo_word, if_neg h1, if_pos h2, hts]; rfl, ?_⟩⟩
      · simp only [h2, Bool.or_true, if_true, hop]
        omega
      · have hv : weight (.word v :: .op c :: ts) = 2 * v.length + 1 + weight ts := by
          rw [← hop]
          rfl
        simp only [h2, Bool.or_true, if_true, hv]
        omega
    · simp only [h1, h2, Bool.or_self, if_false, Bool.false_eq_true, Nat.add_zero]
      refine ⟨?_, fun v ↦ ?_⟩
      · obtain ⟨us, hus, hwu⟩ := hword [c]
        refine ⟨us, by rw [lexGo_out, if_neg h1, if_neg h2, if_neg (Ne.symm hs.1), hus], ?_⟩
        rw [List.length_singleton] at hwu
        omega
      · obtain ⟨us, hus, hwu⟩ := hword (v ++ [c])
        refine ⟨us, by rw [lexGo_word, if_neg h1, if_neg h2, if_neg (Ne.symm hs.1), hus], ?_⟩
        rw [hadd] at hwu
        omega

/-- Text without quotes that weighs as much as a word is a plain word. -/
theorem plainWord_of_weight {s : Bytes} (hs : squote ∉ s) {ts : List Tok} (h : lex s = some ts)
    (hw : 2 * s.length + 1 ≤ weight ts) : PlainWord s := by
  obtain ⟨⟨us, hus, hle⟩, -⟩ := lexGo_weight hs
  obtain rfl : us = ts := Option.some.inj (hus.symm.trans h)
  have hbreaks : breaks s = 0 := by omega
  refine ⟨?_, fun c hc ↦ ?_⟩
  · rintro rfl
    cases h
    simp [weight] at hw
  · have hc' := List.countP_eq_zero.mp hbreaks c hc
    have hne : c ≠ squote := fun e ↦ hs (e ▸ hc)
    simpa [isSpecial, hne] using hc'

/-! ## Command lines in pieces -/

/-- A piece of a command line: a word as it is, a word in quotes, or `> file`. -/
inductive Piece
  | raw (s : Bytes)
  | quoted (s : Bytes)
  | output (f : Bytes)

/-- The text of a piece. -/
def Piece.text : Piece → Bytes
  | .raw s => s
  | .quoted s => squote :: s ++ [squote]
  | .output f => 62 :: blank :: f

/-- The command line: the pieces with blanks between them. -/
def render (ps : List Piece) : Bytes := joinWith blank (ps.map Piece.text)

/-- The command the pieces are meant to be. -/
def intended : List Piece → Command
  | [] => ⟨[], []⟩
  | .raw s :: ps | .quoted s :: ps => { intended ps with words := s :: (intended ps).words }
  | .output f :: ps => { intended ps with outputs := f :: (intended ps).outputs }

/-- A piece that cannot be read as anything else. -/
def Piece.Clean : Piece → Prop
  | .raw s => PlainWord s
  | .quoted s => squote ∉ s
  | .output f => PlainWord f

/-- The word of a piece. -/
def Piece.word : Piece → Bytes
  | .raw s | .quoted s | .output s => s

/-- The tokens of a piece, if it is clean. -/
def Piece.toks : Piece → List Tok
  | .raw s | .quoted s => [.word s]
  | .output f => [.op 62, .word f]

theorem lex_output {f : Bytes} {ts : List Tok} (h : lex f = some ts) :
    lex (62 :: blank :: f) = some (.op 62 :: ts) := by
  have hop : lexGo .out [62] = some [.op 62] := by decide
  have happ := lexGo_append_blank hop f
  rw [h] at happ
  exact happ

theorem Piece.Clean.lex {p : Piece} (h : p.Clean) : Shell.lex p.text = some p.toks := by
  cases p with
  | raw s => exact lex_plainWord h
  | quoted s => exact lex_quoted h
  | output f => exact lex_output (lex_plainWord h)

/-- If every piece is complete, the command line is lexed piece by piece. -/
theorem lex_render {ps : List Piece} {tss : List (List Tok)}
    (h : List.Forall₂ (fun p ts ↦ lex p.text = some ts) ps tss) :
    lex (render ps) = some tss.flatten := by
  induction h with
  | nil => rfl
  | @cons p ts ps tss hp hps ih =>
    cases hps with
    | nil => simpa [render, joinWith] using hp
    | @cons q us ps tss hq hps =>
      have hrender : render (p :: q :: ps) = p.text ++ blank :: render (q :: ps) := by
        simp only [render, List.map_cons, joinWith_cons, List.flatten_cons, List.cons_append]
      rw [hrender, lex, lexGo_append_blank hp, ih]
      rfl

theorem parseToks_append_toks (p : Piece) (ts : List Tok) (ps : List Piece)
    (h : parseToks ts = some (intended ps)) :
    parseToks (p.toks ++ ts) = some (intended (p :: ps)) := by
  cases p with
  | raw s => rw [Piece.toks, List.singleton_append, parseToks, h]; rfl
  | quoted s => rw [Piece.toks, List.singleton_append, parseToks, h]; rfl
  | output f =>
    rw [Piece.toks, List.cons_append, List.singleton_append, parseToks, if_pos rfl, h]
    rfl

/-- Clean pieces are read as they are meant. -/
theorem parse_render {ps : List Piece} (h : ∀ p ∈ ps, p.Clean) :
    parse (render ps) = some (intended ps) := by
  have hlex : lex (render ps) = some (ps.map Piece.toks).flatten := by
    refine lex_render ?_
    rw [List.forall₂_map_right_iff, List.forall₂_same]
    exact fun p hp ↦ (h p hp).lex
  rw [parse, hlex, Option.bind_some]
  clear h hlex
  induction ps with
  | nil => rfl
  | cons p ps ih => exact parseToks_append_toks p _ ps ih

theorem word_mem_intended {ps : List Piece} {p : Piece} (h : p ∈ ps) :
    p.word ∈ (intended ps).words ∨ p.word ∈ (intended ps).outputs := by
  induction ps with
  | nil => simp at h
  | cons q ps ih =>
    rcases List.mem_cons.mp h with rfl | hp
    · cases p <;> simp [intended, Piece.word]
    · cases q <;>
      · rcases ih hp with ih | ih
        · simp [intended, ih]
        · simp [intended, ih]

theorem weight_intended (ps : List Piece) :
    wordsWeight (intended ps).words + wordsWeight (intended ps).outputs
      = (ps.map fun p ↦ 2 * p.word.length + 1).sum := by
  induction ps with
  | nil => rfl
  | cons p ps ih =>
    cases p <;>
    · simp only [intended, Piece.word, wordsWeight, List.map_cons, List.sum_cons] at ih ⊢
      omega

/-- The tokens of a piece without quotes in its word, and how much they weigh. -/
theorem Piece.exists_lex {p : Piece} (h : squote ∉ p.word) :
    ∃ ts, Shell.lex p.text = some ts ∧ weight ts ≤ 2 * p.word.length + 1 ∧
      (2 * p.word.length + 1 ≤ weight ts → p.Clean) := by
  cases p with
  | raw s =>
    obtain ⟨⟨ts, hts, hle⟩, -⟩ := lexGo_weight h
    exact ⟨ts, hts, (Nat.le_add_right _ _).trans hle, plainWord_of_weight h hts⟩
  | quoted s => exact ⟨_, lex_quoted h, by simp [weight, Piece.word], fun _ ↦ h⟩
  | output f =>
    obtain ⟨⟨ts, hts, hle⟩, -⟩ := lexGo_weight h
    have hop : weight (.op 62 :: ts) = weight ts := by simp [weight]
    exact ⟨_, lex_output hts, hop ▸ (Nat.le_add_right _ _).trans hle, fun hw ↦
      plainWord_of_weight h hts (hop ▸ hw)⟩

/-- Where no piece is too heavy and all together weigh enough, each of them does. -/
theorem clean_of_weight {ps : List Piece} (h : ∀ p ∈ ps, squote ∉ p.word) :
    ∃ ts, lex (render ps) = some ts ∧
      weight ts ≤ (ps.map fun p ↦ 2 * p.word.length + 1).sum ∧
      ((ps.map fun p ↦ 2 * p.word.length + 1).sum ≤ weight ts → ∀ p ∈ ps, p.Clean) := by
  have key : ∃ tss : List (List Tok),
      List.Forall₂ (fun p ts ↦ lex p.text = some ts) ps tss ∧
      weight tss.flatten ≤ (ps.map fun p ↦ 2 * p.word.length + 1).sum ∧
      ((ps.map fun p ↦ 2 * p.word.length + 1).sum ≤ weight tss.flatten → ∀ p ∈ ps, p.Clean) := by
    induction ps with
    | nil => exact ⟨[], .nil, by simp [weight], by simp⟩
    | cons p ps ih =>
      obtain ⟨ts, hts, hle, hclean⟩ := Piece.exists_lex (h p List.mem_cons_self)
      obtain ⟨tss, htss, hle', hclean'⟩ := ih fun q hq ↦ h q (List.mem_cons_of_mem _ hq)
      refine ⟨ts :: tss, .cons hts htss, ?_, fun hw ↦ ?_⟩
      · rw [List.flatten_cons, weight_append, List.map_cons, List.sum_cons]
        omega
      · rw [List.flatten_cons, weight_append, List.map_cons, List.sum_cons] at hw
        rw [List.forall_mem_cons]
        exact ⟨hclean (by omega), hclean' (by omega)⟩
  obtain ⟨tss, htss, hle, hclean⟩ := key
  exact ⟨_, lex_render htss, hle, hclean⟩

/-- **A command line is read as it is meant exactly if each of its pieces is clean.** -/
theorem parse_render_iff (ps : List Piece) :
    parse (render ps) = some (intended ps) ↔ ∀ p ∈ ps, p.Clean := by
  refine ⟨fun h ↦ ?_, parse_render⟩
  obtain ⟨ts, hts, hparse⟩ := Option.bind_eq_some_iff.mp h
  have hquote : ∀ p ∈ ps, squote ∉ p.word := fun p hp ↦
    squote_not_mem_word hts (by simp [Mode.text]) _
      (mem_toks_of_parse hparse _ (word_mem_intended hp))
  obtain ⟨us, hus, -, hclean⟩ := clean_of_weight hquote
  obtain rfl : us = ts := Option.some.inj (hus.symm.trans hts)
  exact hclean (by rw [weight_parse hparse, weight_intended])

end Shell
