import SsdLinux.Setup.Env

/-!
# `ht_getarg`: the arguments of a request

The arguments come as `name=value&name=value…`, in `QUERY_STRING` or on the standard input.  Every
argument becomes one or two calls of `putval`, so it is written into the store *and* into the
process environment, whatever its name is.  The second byte of a name tells what is done with it:

* `i_foo` is written under its own name and as `x_foo`; the pair is what `err_chk` works from;
* `j_foo` is the same, but only where there is no `i_foo` yet (it carries the value of a checkbox
  that is off);
* `d_…` asks for a deletion;
* any other `c_…` is written as it is, and counts as a change;
* a name without an underscore there is written as a plain variable.

An argument without a `=` takes the value of the one before it, decoded once more.

`ring_htdecode` takes two bytes after every `%` without looking for the end of the value, so it may
run on into the arguments that follow, or off the end of the buffer.  The model follows it through
the buffer; a run that leaves the buffer, or that writes more than the decoder has allocated, has no
result (`none`).
-/

set_option autoImplicit false

namespace Setup

open CLib

/-- What the web server hands to the program. -/
structure Request where
  environ : Bytes → Option Bytes
  stdin : Bytes

/-! ## Decoding -/

def xdigitVal (c : UInt8) : UInt8 := if isdigit c then c - 48 else (tolower c) - 87

/-- `strtol(b, NULL, 16)` as a `char`, for the string `b` of at most two bytes.  Two bytes leave
room for a blank or a sign, but not for a `0x` with a digit. -/
def hexByte (a b : UInt8) : UInt8 :=
  let s := ([a, b].takeWhile (· ≠ 0)).dropWhile isspace
  let neg := s.head? == some minus
  let s := if neg || s.head? == some plus then s.tail else s
  let n := (s.takeWhile isxdigit).foldl (fun n c ↦ 16 * n + xdigitVal c) 0
  if neg then 0 - n else n

/-- The loop of `ring_htdecode`, on the memory from `str` on; the number bounds its rounds. -/
def htdecodeGo : ℕ → Bytes → Option Bytes
  | 0, _ => none
  | _ + 1, [] => none
  | n + 1, c :: mem =>
    if c = 0 then some []
    else if c = plus then (htdecodeGo n mem).map (blank :: ·)
    else if c = percent then
      if mem.length < 2 then none
      else (htdecodeGo n (mem.drop 2)).map (hexByte (mem.headD 0) (mem.tail.headD 0) :: ·)
    else (htdecodeGo n mem).map (c :: ·)

/-- `ring_htdecode` of the string `s`, with the bytes `after` in the buffer behind its NUL.  A NUL
that was decoded ends the result. -/
def htdecode (s after : Bytes) : Option Bytes :=
  ((htdecodeGo (s.length + after.length + 2) (s ++ 0 :: after)).filter fun t ↦
    decide (t.length ≤ 3 * s.length)).map (List.takeWhile (· ≠ 0))

/-! ## Finding the arguments -/

/-- What `ht_getarg` makes of a request before it looks at the arguments. -/
inductive ArgText
  /-- More than 1024 bytes. -/
  | panic
  /-- The text, and the bytes behind its NUL in the buffer. -/
  | text (s after : Bytes)
  deriving DecidableEq, Repr

/-- The text in a buffer of the program. -/
def ArgText.ofBuf (buf : Bytes) : ArgText :=
  .text (buf.takeWhile (· ≠ 0)) ((buf.dropWhile (· ≠ 0)).tail)

/-- The arguments on the standard input, of the announced length.  A length below zero, or one that
more is announced than there is, leaves the buffer undefined. -/
def argStdin (stdin len : Bytes) : Option ArgText :=
  if 1024 < atoi len then some .panic
  else if atoi len < 0 ∨ (stdin.length : ℤ) < atoi len then none
  else some (.ofBuf (stdin.take (atoi len).toNat ++ [0]))

/-- `getenv` of a variable that is set and not empty. -/
def getenvText (environ : Bytes → Option Bytes) (name : Bytes) : Option Bytes :=
  (environ name).filter fun s ↦ decide (s ≠ [])

/-- Where the arguments of the request are. -/
def argText (environ : Bytes → Option Bytes) (stdin : Bytes) : Option ArgText :=
  match getenvText environ (cstr "QUERY_STRING") with
  | some env => some (if 1024 < env.length then .panic else .text env [])
  | none =>
    match getenvText environ (cstr "REDIRECT_CONTENT_LENGTH") with
    | some env => argStdin stdin env
    | none =>
      match getenvText environ (cstr "CONTENT_LENGTH") with
      | some env => argStdin stdin env
      | none => some (.text [] [])

/-- An argument: its name and its decoded value. -/
abbrev Arg := Bytes × Bytes

/-- The loop of `ht_getarg` as far as the buffer goes: the arguments with their values decoded.
`after` is what is in the buffer behind the text, and `val` is the value the next argument inherits,
which stands in a buffer of its own. -/
def decodeGo (after : Bytes) : List Bytes → Bytes → Option (List Arg)
  | [], _ => some []
  | piece :: pieces, val =>
    let rest := if pieces = [] then after else [ampersand].intercalate pieces ++ 0 :: after
    (if equals ∈ piece then htdecode (piece.dropWhile (· ≠ equals)).tail rest
      else htdecode val []).bind fun v ↦
        (decodeGo after pieces v).map fun args ↦ (piece.takeWhile (· ≠ equals), v) :: args

/-- The arguments in a text. -/
def decodeArgs (text after : Bytes) : Option (List Arg) :=
  decodeGo after (if text = [] then [] else text.splitOn ampersand) []

/-! ## Writing them -/

/-- The calls of `putval` for one argument. -/
def argPuts (w : World) (p : Proc) (a : Arg) : List Put :=
  match a.1 with
  | c :: d :: s =>
    if d = underscore then
      if c = 106 then
        if getval w (105 :: d :: s) p = none then
          [⟨105 :: d :: s, a.2, RC_bWRITE⟩, ⟨120 :: d :: s, a.2, RC_bWRITE⟩]
        else []
      else if c = 105 then [⟨105 :: d :: s, a.2, RC_bWRITE⟩, ⟨120 :: d :: s, a.2, RC_bWRITE⟩]
      else [⟨c :: d :: s, a.2, RC_bWRITE⟩]
    else [⟨c :: d :: s, a.2, 0⟩]
  | name => [⟨name, a.2, 0⟩]

/-- The calls of `putval` for all arguments, in order. -/
def argsPuts (w : World) : Proc → List Arg → List Put
  | _, [] => []
  | p, a :: args => argPuts w p a ++ argsPuts w ((argPuts w p a).foldl Put.run p) args

/-- The store after `ht_getarg`. -/
def getargs (w : World) (p : Proc) (args : List Arg) : Proc := (argsPuts w p args).foldl Put.run p

/-- `d_flg`. -/
def delFlag (args : List Arg) : Bool := args.any fun a ↦ (cstr "d_").isPrefixOf a.1

/-! ## What is written -/

variable {w : World} {p : Proc}

@[simp] theorem getargs_nil : getargs w p [] = p := rfl

theorem getargs_cons (a : Arg) (args : List Arg) :
    getargs w p (a :: args) = getargs w ((argPuts w p a).foldl Put.run p) args := by
  rw [getargs, argsPuts, List.foldl_append, getargs]

/-- Which keys an argument writes. -/
theorem argPuts_key {a : Arg} {q : Put} (h : q ∈ argPuts w p a) :
    q.val = a.2 ∧ (q.key = a.1 ∨
      ∃ s, (a.1 = 105 :: underscore :: s ∨ a.1 = 106 :: underscore :: s) ∧
        (q.key = 105 :: underscore :: s ∨ q.key = 120 :: underscore :: s)) := by
  obtain ⟨name, val⟩ := a
  simp only [argPuts] at h
  split at h
  · rename_i c d s
    split_ifs at h with hd hc hn hc'
    · subst hd hc
      simp only [List.mem_cons, List.not_mem_nil, or_false] at h
      rcases h with rfl | rfl
      · exact ⟨rfl, .inr ⟨s, .inr rfl, .inl rfl⟩⟩
      · exact ⟨rfl, .inr ⟨s, .inr rfl, .inr rfl⟩⟩
    · simp at h
    · subst hd hc'
      simp only [List.mem_cons, List.not_mem_nil, or_false] at h
      rcases h with rfl | rfl
      · exact ⟨rfl, .inl rfl⟩
      · exact ⟨rfl, .inr ⟨s, .inl rfl, .inr rfl⟩⟩
    · rw [List.mem_singleton] at h
      subst h
      exact ⟨rfl, .inl rfl⟩
    · rw [List.mem_singleton] at h
      subst h
      exact ⟨rfl, .inl rfl⟩
  · rw [List.mem_singleton] at h
    subst h
    exact ⟨rfl, .inl rfl⟩

/-- An induction over the arguments. -/
theorem argsPuts_induct {P : Put → Prop} {args : List Arg}
    (h : ∀ a ∈ args, ∀ p, ∀ q ∈ argPuts w p a, P q) : ∀ q ∈ argsPuts w p args, P q := by
  induction args generalizing p with
  | nil => simp [argsPuts]
  | cons a args ih =>
    intro q hq
    rcases List.mem_append.mp hq with hq | hq
    · exact h a List.mem_cons_self p q hq
    · exact ih (fun a ha ↦ h a (List.mem_cons_of_mem _ ha)) q hq

end Setup
