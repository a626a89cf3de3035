import SsdLinux.Setup.Copies

/-!
# `ht_getarg` in its buffer

`SsdLinux.Setup.Getarg` describes the arguments of a request as a list.  `ht_getarg` finds them in
place: it counts the `&`s, and then goes along the buffer with one pointer, writes a NUL behind
every name and every value, and changes the first byte of a name before it hands it to `putval`.
Here it is followed access by access.  A pointer is an index; an access outside the buffer, or
outside what has been written of a decoded copy, has no result.

* `Parse.cut_eq` is one round up to the decoding: the name and the value with their NULs.
* `Parse.store_eq` is what happens to the argument, with the first byte of its name changed in the
  buffer.
* `Parse.loop_eq` goes through the pieces of the text; what the pointer has not reached is as it
  was.

Together they say that the parser does what the list model does (`htGetarg_eq`), except at one
place: after a last `&` the name is the empty string at the very end of the buffer, and `key[1]` is
the byte behind it.  What that byte is changes nothing, because an empty name is not kept.  `past`
says what is there: `none` when the access counts as wrong, a byte when it does not.
`htGetarg_of_decodeArgs` is about the arguments that `main` goes on with.
-/

set_option autoImplicit false

namespace Setup

open CLib

/-! ## The parser -/

/-- A loop that stops at the first byte of a class. -/
def scan (stop : UInt8 → Bool) (buf : Bytes) : ℕ → ℕ → Option ℕ
  | 0, _ => none
  | n + 1, p => (buf[p]?).bind fun c ↦ if stop c then some p else scan stop buf n (p + 1)

/-- The loop that counts the arguments. -/
def countArgs (buf : Bytes) : ℕ → ℕ → ℕ → Option ℕ
  | 0, _, _ => none
  | k + 1, p, n => (buf[p]?).bind fun c ↦
      if c = 0 then some n else countArgs buf k (p + 1) (if c = ampersand then n + 1 else n)

/-- The variables of `ht_getarg`.  `val` is the memory that the variable points to. -/
structure Parse where
  buf : Bytes
  p : ℕ
  val : Bytes
  proc : Proc
  dFlg : Bool

/-- The string at an index of the buffer. -/
def Parse.str (st : Parse) (key : ℕ) : Bytes := cString (st.buf.drop key)

/-- `putval(key, val, sw)`. -/
def Parse.put (key : ℕ) (sw : BitVec 32) (st : Parse) : Parse :=
  { st with proc := putval (st.str key) (cString st.val) sw st.proc }

/-- `key[0] = c`. -/
def Parse.setKey (key : ℕ) (c : UInt8) (st : Parse) : Parse := { st with buf := st.buf.set key c }

/-- What is done with an argument, by the first two bytes of its name. -/
def Parse.store (w : World) (key : ℕ) (key0 key1 : UInt8) (st : Parse) : Parse :=
  if key1 = underscore then
    if key0 = 106 then
      let st := st.setKey key 105
      if getval w (st.str key) st.proc = none then
        ((st.put key RC_bWRITE).setKey key 120).put key RC_bWRITE
      else st
    else if key0 = 105 then ((st.put key RC_bWRITE).setKey key 120).put key RC_bWRITE
    else if key0 = 100 then { st with dFlg := true }.put key RC_bWRITE
    else st.put key RC_bWRITE
  else st.put key 0

/-- The cutting of one argument: the buffer with the NULs in it, where the next argument begins, and
the memory that `val` points to. -/
def Parse.cut (st : Parse) : Option (Bytes × ℕ × Bytes) :=
  (scan (fun c ↦ c == 0 || c == ampersand || c == equals) st.buf (st.buf.length + 1) st.p).bind
    fun p ↦
      if st.buf[p]? = some equals then
        let buf := st.buf.set p 0
        (scan (fun c ↦ c == 0 || c == ampersand) buf (buf.length + 1) (p + 1)).map fun q ↦
          let buf := buf.set q 0
          (buf, q + 1, buf.drop (p + 1))
      else some (st.buf.set p 0, p + 1, st.val)

/-- One round of the loop. -/
def Parse.step (w : World) (past : Option UInt8) (st : Parse) : Option Parse :=
  st.cut.bind fun (buf, p, val) ↦
    (copyOf val).bind fun val ↦
      (buf[st.p]?).bind fun key0 ↦
        ((buf[st.p + 1]?).or past).map fun key1 ↦
          { st with buf, p, val }.store w st.p key0 key1

/-- The loop. -/
def Parse.loop (w : World) (past : Option UInt8) : ℕ → Parse → Option Parse
  | 0, st => some st
  | n + 1, st => (st.step w past).bind (loop w past n)

/-- `ht_getarg` on a buffer: the store afterwards, and `d_flg`. -/
def htGetarg (w : World) (past : Option UInt8) (buf : Bytes) (p : Proc) : Option (Proc × Bool) :=
  (buf[0]?).bind fun c ↦
    (countArgs buf (buf.length + 1) 0 (if c = 0 then 0 else 1)).bind fun n ↦
      (Parse.loop w past n ⟨buf, 0, [0], p, false⟩).map fun st ↦ (st.proc, st.dFlg)

/-! ## Memory and indices -/

section buffers

variable {buf m : Bytes} {p : ℕ}

/-- Memory at an index is the buffer further on. -/
theorem getElem?_of_drop (h : buf.drop p = m) (i : ℕ) : buf[p + i]? = m[i]? := by
  rw [← h, List.getElem?_drop]

theorem drop_set_eq {s r : Bytes} {c : UInt8} (h : buf.drop p = s ++ c :: r) (d : UInt8) :
    (buf.set (p + s.length) d).drop p = s ++ d :: r := by
  rw [List.drop_set, if_neg (by omega), h, Nat.add_sub_cancel_left,
    List.set_append_right _ _ le_rfl, Nat.sub_self, List.set_cons_zero]

theorem scan_eq {stop : UInt8 → Bool} {s r : Bytes} {c : UInt8} {n : ℕ}
    (h : buf.drop p = s ++ c :: r) (hs : ∀ d ∈ s, stop d = false) (hc : stop c = true)
    (hn : s.length < n) : scan stop buf n p = some (p + s.length) := by
  have hlook : buf[p]? = (s ++ c :: r)[0]? := getElem?_of_drop h 0
  induction s generalizing p n with
  | nil =>
    obtain ⟨n, rfl⟩ := Nat.exists_eq_succ_of_ne_zero (Nat.ne_zero_of_lt hn)
    rw [scan, hlook]
    exact if_pos hc
  | cons d s ih =>
    obtain ⟨n, rfl⟩ := Nat.exists_eq_succ_of_ne_zero (Nat.ne_zero_of_lt hn)
    rw [List.forall_mem_cons] at hs
    have htail : buf.drop (p + 1) = s ++ c :: r := by rw [← List.drop_drop, h]; rfl
    rw [scan, hlook, List.cons_append, List.getElem?_cons_zero, Option.bind_some,
      if_neg (by simp [hs.1]), ih htail hs.2 (Nat.lt_of_succ_lt_succ hn) (getElem?_of_drop htail 0),
      List.length_cons]
    congr 1
    omega

/-- A scan of the code starts with enough steps. -/
theorem scan_length {stop : UInt8 → Bool} {s r : Bytes} {c : UInt8}
    (h : buf.drop p = s ++ c :: r) (hs : ∀ d ∈ s, stop d = false) (hc : stop c = true) :
    scan stop buf (buf.length + 1) p = some (p + s.length) := by
  have hlen := congrArg List.length h
  rw [List.length_drop, List.length_append] at hlen
  exact scan_eq h hs hc (by omega)

theorem countArgs_eq {s r : Bytes} (h : buf.drop p = s ++ 0 :: r) (hs : 0 ∉ s) {k : ℕ}
    (hk : s.length < k) (n : ℕ) : countArgs buf k p n = some (n + s.count ampersand) := by
  have hlook : buf[p]? = (s ++ 0 :: r)[0]? := getElem?_of_drop h 0
  induction s generalizing p k n with
  | nil =>
    obtain ⟨k, rfl⟩ := Nat.exists_eq_succ_of_ne_zero (Nat.ne_zero_of_lt hk)
    rw [countArgs, hlook]
    rfl
  | cons c s ih =>
    obtain ⟨k, rfl⟩ := Nat.exists_eq_succ_of_ne_zero (Nat.ne_zero_of_lt hk)
    rw [List.mem_cons, not_or] at hs
    have htail : buf.drop (p + 1) = s ++ 0 :: r := by rw [← List.drop_drop, h]; rfl
    rw [countArgs, hlook, List.cons_append, List.getElem?_cons_zero, Option.bind_some,
      if_neg (Ne.symm hs.1),
      ih htail hs.2 (Nat.lt_of_succ_lt_succ hk) _ (getElem?_of_drop htail 0), List.count_cons]
    by_cases hc : c = ampersand
    · rw [if_pos hc, if_pos (by simpa using hc)]
      congr 1
      omega
    · rw [if_neg hc, if_neg (by simpa using hc), Nat.add_zero]

end buffers

/-! ## One argument -/

variable {w : World} {st : Parse} {piece rest : Bytes} {sep : UInt8}

/-- What the cutting of a piece leaves behind its name. -/
def cutTail (piece rest : Bytes) : Bytes :=
  if equals ∈ piece then pieceValue piece ++ 0 :: rest else rest

theorem stop_of_sep (hsep : sep = 0 ∨ sep = ampersand) :
    (sep == 0 || sep == ampersand) = true := by
  rcases hsep with rfl | rfl <;> rfl

theorem IsPiece.stop (hp : IsPiece piece) :
    ∀ c ∈ piece, (c == 0 || c == ampersand) = false := by
  intro c hc
  have h1 : c ≠ 0 := fun h0 ↦ hp.noNul (h0 ▸ hc)
  have h2 : c ≠ ampersand := fun h0 ↦ hp.noAmp (h0 ▸ hc)
  simp [h1, h2]

theorem IsPiece.stop_name (hp : IsPiece piece) :
    ∀ c ∈ pieceName piece, (c == 0 || c == ampersand || c == equals) = false := by
  intro c hc
  have h1 := hp.stop c (mem_of_mem_pieceName hc)
  have h2 : c ≠ equals := fun h0 ↦ equals_notMem_pieceName piece (h0 ▸ hc)
  simp [h1, h2]

theorem Parse.cut_value (hp : IsPiece piece) (hsep : sep = 0 ∨ sep = ampersand)
    (h : st.buf.drop st.p = piece ++ sep :: rest) (heq : equals ∈ piece) :
    ∃ buf, st.cut = some (buf, st.p + piece.length + 1, pieceValue piece ++ 0 :: rest) ∧
      buf.drop st.p = pieceName piece ++ 0 :: (pieceValue piece ++ 0 :: rest) := by
  have hpiece := piece_eq heq
  have hlen : piece.length = (pieceName piece).length + 1 + (pieceValue piece).length := by
    have hl := congrArg List.length hpiece
    rw [List.length_append, List.length_cons] at hl
    omega
  have hdrop : st.buf.drop st.p
      = pieceName piece ++ equals :: (pieceValue piece ++ sep :: rest) := by
    rw [h]
    conv_lhs => rw [hpiece]
    rw [List.append_assoc, List.cons_append]
  have hname := scan_length hdrop hp.stop_name (by simp)
  -- the NUL behind the name
  let p := st.p + (pieceName piece).length
  let buf := st.buf.set p 0
  have hset : buf.drop st.p = pieceName piece ++ 0 :: (pieceValue piece ++ sep :: rest) :=
    drop_set_eq hdrop 0
  have hvalue : buf.drop (p + 1) = pieceValue piece ++ sep :: rest := by
    rw [Nat.add_assoc, ← List.drop_drop, hset, List.drop_append]
    simp
  have hscan := scan_length hvalue (fun c hc ↦ hp.stop c (by rw [hpiece]; simp [hc]))
    (stop_of_sep hsep)
  -- the NUL behind the value
  let q := p + 1 + (pieceValue piece).length
  have hq : q = st.p + piece.length := by omega
  refine ⟨buf.set q 0, ?_, ?_⟩
  · have hlook : st.buf[p]? = some equals := (getElem?_of_drop hdrop _).trans (by simp)
    rw [cut, hname, Option.bind_some, if_pos hlook]
    dsimp only
    rw [hscan, Option.map_some, drop_set_eq hvalue 0, ← hq]
  · have hset' : buf.drop st.p = (pieceName piece ++ 0 :: pieceValue piece) ++ sep :: rest := by
      rw [hset, List.append_assoc, List.cons_append]
    have hend := drop_set_eq hset' 0
    have hpos : st.p + (pieceName piece ++ 0 :: pieceValue piece).length = q := by
      rw [List.length_append, List.length_cons]
      omega
    rw [hpos, List.append_assoc, List.cons_append] at hend
    exact hend

theorem Parse.cut_bare (hp : IsPiece piece) (hsep : sep = 0 ∨ sep = ampersand)
    (h : st.buf.drop st.p = piece ++ sep :: rest) (heq : equals ∉ piece) :
    ∃ buf, st.cut = some (buf, st.p + piece.length + 1, st.val) ∧
      buf.drop st.p = piece ++ 0 :: rest := by
  have hname := hp.stop_name
  rw [pieceName_eq_self heq] at hname
  have hstop : (sep == 0 || sep == ampersand || sep == equals) = true := by
    rw [stop_of_sep hsep, Bool.true_or]
  have hlook : st.buf[st.p + piece.length]? ≠ some equals := by
    rw [getElem?_of_drop h, List.getElem?_append_right le_rfl, Nat.sub_self,
      List.getElem?_cons_zero, ne_eq, Option.some_inj]
    rcases hsep with rfl | rfl <;> decide
  refine ⟨st.buf.set (st.p + piece.length) 0, ?_, drop_set_eq h 0⟩
  rw [cut, scan_length h hname hstop, Option.bind_some, if_neg hlook]

/-- **Cutting a piece.** -/
theorem Parse.cut_eq (hp : IsPiece piece) (hsep : sep = 0 ∨ sep = ampersand)
    (h : st.buf.drop st.p = piece ++ sep :: rest) :
    ∃ buf, st.cut = some (buf, st.p + piece.length + 1,
        if equals ∈ piece then pieceValue piece ++ 0 :: rest else st.val) ∧
      buf.drop st.p = pieceName piece ++ 0 :: cutTail piece rest := by
  by_cases heq : equals ∈ piece
  · rw [if_pos heq, cutTail, if_pos heq]
    exact cut_value hp hsep h heq
  · rw [if_neg heq, cutTail, if_neg heq, pieceName_eq_self heq]
    exact cut_bare hp hsep h heq

section store

variable {key : ℕ} {name tail : Bytes}

theorem Parse.str_eq (h : st.buf.drop key = name ++ 0 :: tail) (h0 : 0 ∉ name) :
    st.str key = name := by
  rw [str, h, cString_append h0]

theorem Parse.str_setKey {c : UInt8} (h : st.buf.drop key = c :: (name ++ 0 :: tail))
    (h0 : 0 ∉ name) {d : UInt8} (hd : d ≠ 0) : (st.setKey key d).str key = d :: name := by
  have hset := drop_set_eq (s := []) h d
  have hnotin : 0 ∉ d :: name := by simp [hd.symm, h0]
  rw [List.length_nil, Nat.add_zero, List.nil_append] at hset
  rw [str, setKey]
  dsimp only
  rw [hset, ← List.cons_append, cString_append hnotin]

/-- Storing an argument leaves the pointers where they are, and the buffer behind `key[0]`. -/
theorem Parse.store_frame (w : World) (st : Parse) (key0 key1 : UInt8) {m : ℕ} (hm : key < m) :
    (st.store w key key0 key1).p = st.p ∧ (st.store w key key0 key1).val = st.val ∧
      (st.store w key key0 key1).buf.drop m = st.buf.drop m := by
  have hset : ∀ (buf : Bytes) (c : UInt8), (buf.set key c).drop m = buf.drop m := fun buf c ↦ by
    rw [List.drop_set, if_pos hm]
  simp only [store]
  split_ifs <;> refine ⟨rfl, rfl, ?_⟩ <;> simp only [put, setKey, hset]

/-- Two entries from one name: the first byte is changed in between. -/
theorem Parse.put_twice {name' : Bytes} (hstr : st.str key = name)
    (hx : (st.setKey key 120).str key = name') :
    (((st.put key RC_bWRITE).setKey key 120).put key RC_bWRITE).proc
      = putval name' (cString st.val) RC_bWRITE
          (putval name (cString st.val) RC_bWRITE st.proc) := by
  rw [← hstr, ← hx]
  rfl

/-- **Storing an argument** writes what `argPuts` says. -/
theorem Parse.store_eq {c d : UInt8} {s : Bytes}
    (h : st.buf.drop key = (c :: d :: s) ++ 0 :: tail) (h0 : 0 ∉ c :: d :: s) :
    (st.store w key c d).proc
        = (argPuts w st.proc (c :: d :: s, cString st.val)).foldl Put.run st.proc ∧
      (st.store w key c d).dFlg = (st.dFlg || (c == 100 && d == underscore)) := by
  have hstr := Parse.str_eq h h0
  have h0' : 0 ∉ d :: s := fun hmem ↦ h0 (List.mem_cons_of_mem c hmem)
  have hi : (st.setKey key 105).str key = 105 :: d :: s := str_setKey h h0' (by decide)
  have hx : (st.setKey key 120).str key = 120 :: d :: s := str_setKey h h0' (by decide)
  have hix : ((st.setKey key 105).setKey key 120).str key = 120 :: d :: s := by
    rw [setKey, setKey, List.set_set]
    exact hx
  by_cases hd : d = underscore
  · subst hd
    simp only [store, argPuts, if_true]
    by_cases hj : c = 106
    · subst hj
      have hproc : (st.setKey key 105).proc = st.proc := rfl
      rw [if_pos rfl, if_pos rfl, hi, hproc]
      split
      · exact ⟨put_twice hi hix, (Bool.or_false _).symm⟩
      · exact ⟨rfl, (Bool.or_false _).symm⟩
    · rw [if_neg hj, if_neg hj]
      by_cases hic : c = 105
      · subst hic
        rw [if_pos rfl, if_pos rfl]
        exact ⟨put_twice hstr hx, (Bool.or_false _).symm⟩
      · rw [if_neg hic, if_neg hic]
        by_cases hdel : c = 100
        · subst hdel
          rw [if_pos rfl]
          refine ⟨?_, (Bool.or_true _).symm⟩
          rw [← hstr]
          rfl
        · rw [if_neg hdel]
          refine ⟨?_, by rw [beq_eq_false_iff_ne.mpr hdel]; exact (Bool.or_false _).symm⟩
          rw [← hstr]
          rfl
  · simp only [store, argPuts, if_neg hd]
    refine ⟨?_, ?_⟩
    · rw [← hstr]
      rfl
    · rw [beq_eq_false_iff_ne.mpr hd, Bool.and_false]
      exact (Bool.or_false _).symm

/-- An argument whose name is too short to be looked at. -/
theorem Parse.store_short (h : st.buf.drop key = name ++ 0 :: tail) (h0 : 0 ∉ name)
    (hname : name.length ≤ 1) (key0 key1 : UInt8) (hkey : name = [] ∧ key0 = 0 ∨ key1 = 0) :
    (st.store w key key0 key1).proc
        = (argPuts w st.proc (name, cString st.val)).foldl Put.run st.proc ∧
      (st.store w key key0 key1).dFlg = st.dFlg := by
  have hstr := Parse.str_eq h h0
  have hputs : argPuts w st.proc (name, cString st.val) = [⟨name, cString st.val, 0⟩] := by
    rcases name with _ | ⟨c, _ | ⟨d, s⟩⟩
    · rfl
    · rfl
    · simp at hname
  have hempty : name = [] → ∀ sw, putval name (cString st.val) sw st.proc = st.proc :=
    fun hnil sw ↦ if_pos hnil
  rw [hputs, List.foldl_cons, List.foldl_nil, Put.run]
  simp only [store]
  split
  · rename_i hund
    rcases hkey with ⟨hnil, rfl⟩ | rfl
    · rw [if_neg (by decide), if_neg (by decide), if_neg (by decide), hempty hnil]
      refine ⟨?_, rfl⟩
      simp only [put, hstr, hempty hnil]
    · exact absurd hund (by decide)
  · simp only [put, hstr, and_self]

end store

/-! ## One round -/

theorem drop_cutTail (piece rest : Bytes) :
    (pieceName piece ++ 0 :: cutTail piece rest).drop (piece.length + 1) = rest := by
  rw [cutTail]
  by_cases heq : equals ∈ piece
  · have hlen := congrArg List.length (piece_eq heq)
    have hsplit : pieceName piece ++ 0 :: (pieceValue piece ++ 0 :: rest)
        = (pieceName piece ++ 0 :: (pieceValue piece ++ [0])) ++ rest := by simp
    rw [if_pos heq, hsplit]
    refine List.drop_left' ?_
    rw [List.length_append, List.length_cons] at hlen
    rw [List.length_append, List.length_cons, List.length_append, List.length_singleton]
    omega
  · have hsplit : piece ++ 0 :: rest = (piece ++ [0]) ++ rest := by simp
    rw [if_neg heq, pieceName_eq_self heq, hsplit]
    exact List.drop_left' (by simp)

/-- The byte behind an empty name at the very end is not there. -/
def AtEdge (piece rest : Bytes) : Prop := piece = [] ∧ rest = []

theorem cutTail_eq_nil_iff (hname : pieceName piece = []) :
    cutTail piece rest = [] ↔ AtEdge piece rest := by
  rw [cutTail, AtEdge]
  by_cases heq : equals ∈ piece
  · have hne : piece ≠ [] := List.ne_nil_of_mem heq
    simp [if_pos heq, hne]
  · rw [if_neg heq, ← pieceName_eq_self heq, hname]
    simp

/-- **A round that goes wrong.** -/
theorem Parse.step_eq_none {past : Option UInt8} (hp : IsPiece piece)
    (hsep : sep = 0 ∨ sep = ampersand) (h : st.buf.drop st.p = piece ++ sep :: rest)
    (hbad : copyOf (if equals ∈ piece then pieceValue piece ++ 0 :: rest else st.val) = none ∨
      AtEdge piece rest ∧ past = none) : st.step w past = none := by
  obtain ⟨buf, hcut, hbuf⟩ := Parse.cut_eq hp hsep h
  rw [step, hcut, Option.bind_some]
  dsimp only
  cases hcopy : copyOf (if equals ∈ piece then pieceValue piece ++ 0 :: rest else st.val) with
  | none => rfl
  | some val =>
    obtain ⟨hedge, rfl⟩ := hbad.resolve_left (by simp [hcopy])
    have hname : pieceName piece = [] := by rw [hedge.1]; rfl
    have hkey1 : buf[st.p + 1]? = none := by
      rw [getElem?_of_drop hbuf, hname, (cutTail_eq_nil_iff hname).mpr hedge]
      rfl
    rw [Option.bind_some, hkey1, Option.none_or]
    simp

/-- **A round**: the argument is stored, and the rest of the buffer is as it was. -/
theorem Parse.step_eq_some {past : Option UInt8} {val : Bytes} (hp : IsPiece piece)
    (hsep : sep = 0 ∨ sep = ampersand) (h : st.buf.drop st.p = piece ++ sep :: rest)
    (hcopy : copyOf (if equals ∈ piece then pieceValue piece ++ 0 :: rest else st.val) = some val)
    (hedge : ¬ (AtEdge piece rest ∧ past = none)) :
    ∃ st', st.step w past = some st' ∧ st'.buf.drop st'.p = rest ∧ st'.val = val ∧
      st'.proc = (argPuts w st.proc (pieceName piece, cString val)).foldl Put.run st.proc ∧
      st'.dFlg = (st.dFlg || (cstr "d_").isPrefixOf (pieceName piece)) := by
  obtain ⟨buf, hcut, hbuf⟩ := Parse.cut_eq hp hsep h
  have h0 : 0 ∉ pieceName piece := fun h0 ↦ hp.noNul (mem_of_mem_pieceName h0)
  have hd : cstr "d_" = [100, underscore] := by decide
  let cur : Parse := { st with buf, p := st.p + piece.length + 1, val }
  have hcur : cur.buf.drop st.p = pieceName piece ++ 0 :: cutTail piece rest := hbuf
  have hstep (key0 key1 : UInt8) (h0 : buf[st.p]? = some key0)
      (h1 : (buf[st.p + 1]?).or past = some key1) :
      st.step w past = some (cur.store w st.p key0 key1) := by
    rw [step, hcut, Option.bind_some]
    dsimp only
    rw [hcopy, Option.bind_some, h0, Option.bind_some, h1, Option.map_some]
  have hrest (key0 key1 : UInt8) : (cur.store w st.p key0 key1).buf.drop
      (cur.store w st.p key0 key1).p = rest ∧ (cur.store w st.p key0 key1).val = val := by
    obtain ⟨hpos, hval, hdrop⟩ := Parse.store_frame w cur key0 key1
      (show st.p < cur.p by simp only [cur]; omega)
    refine ⟨?_, hval⟩
    rw [hpos, hdrop]
    simp only [cur]
    rw [Nat.add_assoc, ← List.drop_drop, hbuf, drop_cutTail]
  have hget (i : ℕ) : buf[st.p + i]? = (pieceName piece ++ 0 :: cutTail piece rest)[i]? :=
    getElem?_of_drop hbuf i
  have hget0 := hget 0
  have hget1 := hget 1
  rw [Nat.add_zero] at hget0
  generalize hname : pieceName piece = name at hcur h0 hget0 hget1 ⊢
  rcases name with _ | ⟨c, _ | ⟨d, s⟩⟩
  · obtain ⟨key1, hkey1⟩ : ∃ key1, (buf[st.p + 1]?).or past = some key1 := by
      cases htail : cutTail piece rest with
      | nil =>
        have hpast : past ≠ none := fun hnone ↦
          hedge ⟨(cutTail_eq_nil_iff hname).mp htail, hnone⟩
        obtain ⟨c, rfl⟩ := Option.ne_none_iff_exists'.mp hpast
        rw [hget1, htail]
        exact ⟨c, rfl⟩
      | cons c tail =>
        rw [hget1, htail]
        exact ⟨c, rfl⟩
    obtain ⟨hproc, hflag⟩ :=
      Parse.store_short (w := w) hcur h0 (Nat.zero_le _) 0 key1 (.inl ⟨rfl, rfl⟩)
    refine ⟨_, hstep 0 key1 hget0 hkey1, (hrest 0 key1).1, (hrest 0 key1).2, hproc, ?_⟩
    rw [hflag, hd]
    exact (Bool.or_false _).symm
  · obtain ⟨hproc, hflag⟩ := Parse.store_short (w := w) hcur h0 le_rfl c 0 (.inr rfl)
    have hpre : [100, underscore].isPrefixOf [c] = false := Bool.and_false _
    refine ⟨_, hstep c 0 hget0 (by rw [hget1]; rfl), (hrest c 0).1, (hrest c 0).2, hproc, ?_⟩
    rw [hflag, hd, hpre]
    exact (Bool.or_false _).symm
  · obtain ⟨hproc, hflag⟩ := Parse.store_eq (w := w) hcur h0
    have hpre : [100, underscore].isPrefixOf (c :: d :: s) = (c == 100 && d == underscore) := by
      rw [List.isPrefixOf, List.isPrefixOf, List.isPrefixOf, Bool.and_true,
        BEq.comm (a := (100 : UInt8)), BEq.comm (a := underscore)]
    refine ⟨_, hstep c d hget0 (by rw [hget1]; rfl), (hrest c d).1, (hrest c d).2, hproc, ?_⟩
    rw [hflag, hd, hpre]

/-! ## The loop -/

section loop

variable {after : Bytes} {past : Option UInt8}

theorem behind_cons (after piece : Bytes) (l : List Bytes) :
    ∃ sep : UInt8, (sep = 0 ∨ sep = ampersand) ∧
      behind after (piece :: l) = piece ++ sep :: behind after l := by
  by_cases hl : l = []
  · subst hl
    exact ⟨0, .inl rfl, by simp [behind]⟩
  · refine ⟨ampersand, .inr rfl, ?_⟩
    rw [behind, if_neg (List.cons_ne_nil _ _), List.intercalate_cons_of_ne_nil hl, behind,
      if_neg hl]
    simp

theorem behind_eq_nil_iff {l : List Bytes} : behind after l = [] ↔ l = [] ∧ after = [] := by
  by_cases hl : l = []
  · simp [behind, hl]
  · simp [behind, hl]

/-- The last argument is empty, and nothing stands behind it. -/
def EndsEmpty (after : Bytes) (l : List Bytes) : Prop := l.getLast? = some [] ∧ after = []

instance decidableEndsEmpty (after : Bytes) (l : List Bytes) : Decidable (EndsEmpty after l) :=
  inferInstanceAs (Decidable (_ ∧ _))

theorem endsEmpty_cons {l : List Bytes} :
    EndsEmpty after (piece :: l) ↔ AtEdge piece (behind after l) ∨ EndsEmpty after l := by
  rw [EndsEmpty, EndsEmpty, AtEdge, behind_eq_nil_iff]
  cases l with
  | nil => simp
  | cons b l => simp

/-- **The loop** reads the arguments one after the other. -/
theorem Parse.loop_eq {l : List Bytes} (hl : ∀ piece ∈ l, IsPiece piece)
    (h : st.buf.drop st.p = behind after l) :
    (Parse.loop w past l.length st).map (fun st ↦ (st.proc, st.dFlg))
      = if EndsEmpty after l ∧ past = none then none
        else (copyArgs after l st.val).map fun args ↦
          (getargs w st.proc args, st.dFlg || delFlag args) := by
  induction l generalizing st with
  | nil =>
    rw [if_neg fun hend ↦ by cases hend.1.1]
    simp [loop, copyArgs, delFlag]
  | cons piece l ih =>
    rw [List.forall_mem_cons] at hl
    obtain ⟨sep, hsep, hbehind⟩ := behind_cons after piece l
    rw [hbehind] at h
    rw [List.length_cons, loop, copyArgs]
    by_cases hbad : copyOf (valueMem after piece l st.val) = none ∨
        AtEdge piece (behind after l) ∧ past = none
    · rw [Parse.step_eq_none hl.1 hsep h hbad, Option.bind_none, Option.map_none]
      rcases hbad with hcopy | ⟨hedge, hpast⟩
      · rw [hcopy, Option.bind_none, Option.map_none, ite_self]
      · rw [if_pos ⟨endsEmpty_cons.mpr (.inl hedge), hpast⟩]
    · rw [not_or] at hbad
      obtain ⟨val, hcopy⟩ := Option.ne_none_iff_exists'.mp hbad.1
      obtain ⟨st', hstep, hdrop, rfl, hproc, hflag⟩ :=
        Parse.step_eq_some (w := w) hl.1 hsep h hcopy hbad.2
      have hend : EndsEmpty after (piece :: l) ∧ past = none ↔ EndsEmpty after l ∧ past = none := by
        rw [endsEmpty_cons]
        exact ⟨fun h ↦ ⟨h.1.resolve_left fun hedge ↦ hbad.2 ⟨hedge, h.2⟩, h.2⟩,
          fun h ↦ ⟨.inr h.1, h.2⟩⟩
      rw [hstep, Option.bind_some, ih hl.2 hdrop, hcopy, Option.bind_some, Option.map_map,
        if_congr hend rfl rfl]
      refine congrArg (ite _ none) (congrArg (Option.map · _) (funext fun args ↦ ?_))
      have hdel : delFlag ((pieceName piece, cString st'.val) :: args)
          = ((cstr "d_").isPrefixOf (pieceName piece) || delFlag args) := rfl
      simp only [Function.comp_apply, getargs_cons, hproc, hflag, hdel, Bool.or_assoc]

end loop

/-! ## The text -/

theorem behind_pieces (after : Bytes) {text : Bytes} (hne : text ≠ []) :
    behind after (pieces text) = text ++ 0 :: after := by
  rw [pieces, if_neg hne, behind, if_neg (List.splitOn_ne_nil _ _), List.intercalate_splitOn]

/-- **`ht_getarg` in its buffer** reads the arguments of the text and writes them, unless the byte
behind the buffer is in the way. -/
theorem htGetarg_eq (w : World) (past : Option UInt8) {text : Bytes} (h0 : 0 ∉ text)
    (after : Bytes) (p : Proc) :
    htGetarg w past (text ++ 0 :: after) p
      = if (text.getLast? = some ampersand ∧ after = []) ∧ past = none then none
        else (copyArgs after (pieces text) [0]).map fun args ↦
          (getargs w p args, delFlag args) := by
  have hlen : text.length < (text ++ 0 :: after).length + 1 := by
    rw [List.length_append]
    omega
  have hend : EndsEmpty after (pieces text) ↔ text.getLast? = some ampersand ∧ after = [] := by
    rw [EndsEmpty, pieces_getLast?_iff]
  rw [htGetarg, ← if_congr (and_congr_left' hend) rfl rfl]
  rcases text with _ | ⟨c, text⟩
  · rw [List.nil_append, List.getElem?_cons_zero, Option.bind_some,
      countArgs_eq (s := []) rfl h0 (Nat.zero_lt_succ _)]
    rfl
  · have hc : c ≠ 0 := fun hc ↦ h0 (hc ▸ List.mem_cons_self)
    have hcount : 1 + (c :: text).count ampersand = (pieces (c :: text)).length := by
      rw [pieces, if_neg (List.cons_ne_nil _ _), length_splitOn, Nat.add_comm]
    rw [List.cons_append, List.getElem?_cons_zero, Option.bind_some, if_neg hc, ← List.cons_append,
      countArgs_eq (s := c :: text) rfl h0 hlen, Option.bind_some, hcount,
      Parse.loop_eq (fun piece hp ↦ isPiece_of_mem h0 hp) (behind_pieces after (by simp)).symm]
    simp only [Bool.false_or]

/-- **What `main` goes on with** is what the parser leaves, with any byte behind the buffer. -/
theorem htGetarg_of_decodeArgs (w : World) (c : UInt8) {text : Bytes} (h0 : 0 ∉ text)
    (after : Bytes) (p : Proc) {args : List Arg} (h : decodeArgs text after = some args) :
    htGetarg w (some c) (text ++ 0 :: after) p = some (getargs w p args, delFlag args) := by
  have hedge : ¬((text.getLast? = some ampersand ∧ after = []) ∧ some c = none) := by
    rintro ⟨-, hc⟩
    cases hc
  rw [htGetarg_eq w (some c) h0, if_neg hedge, copyArgs_of_decodeArgs h0 h, Option.map_some]

end Setup
