import Mathlib.Data.List.Induction
import SsdLinux.CLib.Stdio
import SsdLinux.Setup.Copies

/-!
# `output_body`: the pages

A page is a template in which every macro, from `<?` to the next `?>`, is replaced by what it stands
for.  `output_body` reads the template in pieces of at most 1022 bytes, no longer than a line, and
looks for the two delimiters in each piece by itself.

* `bodyStep` is one round of the inner loop, `bodyRead` goes over one piece and `bodyRun` over all
  of them.  What is done is a list of `Output`s.  A store behind the end of `zbuf` has no result.
* `expand` is the scanner over the whole template.
* `FitsReads` says when the pieces do no harm.  It follows the scanner and asks of each byte what
  place it has in its piece (`Mark`).
* `outputBody_iff`: the outputs are those of the scanner exactly if the template fits.

A piece is seen as a C string, so what stands behind a NUL in it is not seen.
-/

set_option autoImplicit false

namespace Setup

open CLib

abbrev question : UInt8 := 63

/-- What is sent to the browser: a byte, or what a text stands for. -/
inductive Output
  | byte (c : UInt8)
  | eval (s : Bytes)
  deriving DecidableEq

/-! ## The source -/

/-- `inflg` and the first `z` bytes of `zbuf`. -/
structure Body where
  inflg : Bool
  zbuf : Bytes

/-- The size of `zbuf`. -/
def zbufSize : ℕ := 128

/-- A round of the inner loop: `c` is the byte, and `c2` is what `p` points to then.  The flag says
whether `p` is moved over that too. -/
def bodyStep (st : Body) (c c2 : UInt8) : Option (List Output × Body × Bool) :=
  if st.inflg = false ∧ c = less ∧ c2 = question then some ([], ⟨true, []⟩, true)
  else if (st.inflg = true ∧ c = question ∨ st.zbuf.length > 127) ∧ c2 = greater then
    if st.zbuf.length < zbufSize then some ([.eval st.zbuf], ⟨false, st.zbuf⟩, true) else none
  else if st.inflg = false then some ([.byte c], st, false)
  else if st.zbuf.length < zbufSize then some ([], ⟨true, st.zbuf ++ [c]⟩, false)
  else none

/-- The inner loop over a string.  If `skip` is set, `p` has been moved over the first byte. -/
def bodyRead : Bool → Body → Bytes → Option (List Output × Body)
  | _, st, [] => some ([], st)
  | true, st, _ :: s => bodyRead false st s
  | false, st, c :: s =>
    (bodyStep st c (s.headD 0)).bind fun (out, st, skip) ↦
      (bodyRead skip st s).map fun (outs, st) ↦ (out ++ outs, st)

/-- The outer loop over what is read. -/
def bodyRun : Body → List Bytes → Option (List Output)
  | _, [] => some []
  | st, buf :: reads =>
    (bodyRead false st (cString buf)).bind fun (out, st) ↦ (bodyRun st reads).map (out ++ ·)

/-- The template that is opened: there may be one for `HTML_script_arg1`. -/
def templateFile (files : Bytes → Option Bytes) (arg1 file : Bytes) : Option Bytes :=
  match files (file ++ minus :: arg1 ++ cstr ".t") with
  | some t => some t
  | none => files (file ++ cstr ".t")

/-- The line in front of a page. -/
def bodyHead (file : Bytes) : List Output := (cstr "<!--" ++ file ++ cstr "-->\n").map .byte

/-- `output_body`; `files` are the texts of the files that can be opened. -/
def outputBody (files : Bytes → Option Bytes) (arg1 file : Bytes) : Option (List Output) :=
  match templateFile files arg1 file with
  | none => some (bodyHead file)
  | some t => (bodyRun ⟨false, []⟩ (fgetsAll 1022 t)).map (bodyHead file ++ ·)

/-! ## The scanner over the whole template -/

/-- What a template comes to.  `some w` means that a macro has been opened, and `w` is what there is
of it; a macro that is not closed comes to nothing. -/
def expand : Option Bytes → Bytes → List Output
  | _, [] => []
  | none, [c] => [.byte c]
  | some _, [_] => []
  | none, c :: d :: s =>
    if c = less ∧ d = question then expand (some []) s else .byte c :: expand none (d :: s)
  | some w, c :: d :: s =>
    if c = question ∧ d = greater then .eval w :: expand none s
    else expand (some (w ++ [c])) (d :: s)

/-- A byte of the template and its place in what is read with it: the byte behind it there, or 0,
and whether there is no NUL up to it. -/
structure Mark where
  c : UInt8
  next : UInt8
  seen : Bool

/-- The marks of the bytes that one read returns. -/
def readMarks : Bool → Bytes → List Mark
  | _, [] => []
  | seen, c :: s => ⟨c, s.headD 0, seen && c != 0⟩ :: readMarks (seen && c != 0) s

def marks (reads : List Bytes) : List Mark := reads.flatMap (readMarks true)

/-- The scanner would not notice the reads: all text and all of a macro that is closed is seen, each
delimiter is in one read, and a macro that is closed has at most 127 bytes.  Of a macro that is not
closed, no more than 128 bytes are seen. -/
def FitsReads : Option (List Mark) → List Mark → Prop
  | none, [] => True
  | some w, [] => w.countP Mark.seen ≤ 128
  | none, [m] => m.seen = true
  | some w, [m] => (w ++ [m]).countP Mark.seen ≤ 128
  | none, m :: m' :: ms =>
    m.seen = true ∧
      if m.c = less ∧ m'.c = question then m.next = question ∧ FitsReads (some []) ms
      else FitsReads none (m' :: ms)
  | some w, m :: m' :: ms =>
    if m.c = question ∧ m'.c = greater then
      (∀ x ∈ w, x.seen = true) ∧ m.next = greater ∧ w.length ≤ 127 ∧ FitsReads none ms
    else FitsReads (some (w ++ [m])) (m' :: ms)

/-- The template fits into the reads and into `zbuf`. -/
def FitsBody (t : Bytes) : Prop := FitsReads none (marks (fgetsAll 1022 t))

/-! ## The loop over the marks -/

variable {st st' : Body} {c c2 : UInt8} {skip : Bool} {z w : Bytes} {out : List Output}
  {m : Mark} {ms : List Mark}

theorem bodyStep_outside (hz : z.length ≤ 127) : bodyStep ⟨false, z⟩ c c2 =
    if c = less ∧ c2 = question then some ([], ⟨true, []⟩, true)
    else some ([.byte c], ⟨false, z⟩, false) := by
  have hlong : ¬z.length > 127 := not_lt.mpr hz
  simp [bodyStep, hlong]

theorem bodyStep_inside : bodyStep ⟨true, z⟩ c c2 =
    if z.length < zbufSize then
      if c = question ∧ c2 = greater then some ([.eval z], ⟨false, z⟩, true)
      else some ([], ⟨true, z ++ [c]⟩, false)
    else none := by
  by_cases hz : z.length < zbufSize
  · have hlong : ¬z.length > 127 := by rw [zbufSize] at hz; omega
    simp [bodyStep, hz, hlong]
  · simp [bodyStep, hz]

/-- At the end of a string `p` stays where it is. -/
theorem skip_of_next_zero (h : bodyStep st c 0 = some (out, st', skip)) : skip = false := by
  have hq : (0 : UInt8) ≠ question := by decide
  have hg : (0 : UInt8) ≠ greater := by decide
  rw [bodyStep, if_neg fun h ↦ hq h.2.2, if_neg fun h ↦ hg h.2] at h
  split_ifs at h <;> cases h <;> rfl

/-- The loops as one, over the marks of all reads. -/
def markRun : Bool → Body → List Mark → Option (List Output)
  | _, _, [] => some []
  | true, st, _ :: ms => markRun false st ms
  | false, st, m :: ms =>
    if m.seen = true then
      (bodyStep st m.c m.next).bind fun (out, st, skip) ↦ (markRun skip st ms).map (out ++ ·)
    else markRun false st ms

theorem markRun_unseen (s : Bytes) (ms : List Mark) :
    markRun false st (readMarks false s ++ ms) = markRun false st ms := by
  induction s with
  | nil => rfl
  | cons c s ih => rw [readMarks, List.cons_append, Bool.false_and, markRun, if_neg (by simp), ih]

theorem headD_cString (s : Bytes) : (cString s).headD 0 = s.headD 0 := by
  cases s with
  | nil => rfl
  | cons c s =>
    by_cases hc : c = 0
    · rw [cString, List.takeWhile_cons_of_neg (by simpa using hc), hc]
      rfl
    · rw [cString, List.takeWhile_cons_of_pos (by simpa using hc)]
      rfl

theorem map_append_append (out outs : List Output) (x : Option (List Output)) :
    (x.map (outs ++ ·)).map (out ++ ·) = x.map (out ++ outs ++ ·) := by
  rw [Option.map_map]
  congr 1
  funext l
  exact (List.append_assoc out outs l).symm

/-- One read. -/
theorem markRun_readMarks (s : Bytes) (hskip : skip = true → s.headD 0 ≠ 0) :
    markRun skip st (readMarks true s ++ ms) =
      (bodyRead skip st (cString s)).bind fun (out, st) ↦ (markRun false st ms).map (out ++ ·) := by
  have hnil : ∀ st : Body, markRun false st ms =
      (bodyRead false st []).bind fun (out, st) ↦ (markRun false st ms).map (out ++ ·) :=
    fun st ↦ (Option.map_id' (x := markRun false st ms)).symm
  induction s generalizing skip st with
  | nil =>
    cases skip with
    | true => exact absurd rfl (hskip rfl)
    | false => exact hnil st
  | cons c s ih =>
    by_cases hc : c = 0
    · cases skip with
      | true => exact absurd hc (hskip rfl)
      | false =>
        rw [readMarks, hc, List.cons_append, markRun, if_neg (by simp)]
        rw [show (true && (0 : UInt8) != 0) = false from rfl, markRun_unseen]
        exact hnil st
    have hseen : (true && c != 0) = true := by simpa using hc
    rw [readMarks, hseen, List.cons_append, cString, List.takeWhile_cons_of_pos (by simpa using hc)]
    cases skip with
    | true =>
      rw [markRun, bodyRead]
      exact ih (by simp)
    | false =>
      rw [markRun, if_pos rfl, bodyRead]
      have hhead := headD_cString s
      rw [cString] at hhead
      rw [hhead]
      cases hstep : bodyStep st c (s.headD 0) with
      | none => rfl
      | some r =>
        obtain ⟨out, st', skip⟩ := r
        have hih := @ih st' skip fun h h0 ↦ by
          rw [h0] at hstep
          rw [skip_of_next_zero hstep] at h
          cases h
        simp only [Option.bind_some, hih, cString]
        cases bodyRead skip st' (s.takeWhile (· ≠ 0)) with
        | none => rfl
        | some r =>
          exact map_append_append out r.1 (markRun false r.2 ms)

theorem bodyRun_eq_markRun (reads : List Bytes) :
    bodyRun st reads = markRun false st (marks reads) := by
  induction reads generalizing st with
  | nil => rfl
  | cons buf reads ih =>
    rw [marks, List.flatMap_cons, markRun_readMarks buf (by simp), bodyRun]
    simp only [ih, marks]

/-! ## What the marks have to do with each other -/

/-- What is known of two marks in succession. -/
structure Follows (m m' : Mark) : Prop where
  same_read : m.next ≠ 0 → m'.c = m.next ∧ (m.seen = true → m'.seen = true)
  nul : m.seen = true → m'.seen = false → m'.c = 0

/-- The marks of some reads. -/
def Linked : List Mark → Prop
  | [] => True
  | [m] => (m.seen = true → m.c ≠ 0) ∧ m.next = 0
  | m :: m' :: ms => (m.seen = true → m.c ≠ 0) ∧ Follows m m' ∧ Linked (m' :: ms)

/-- If the first byte is not seen, it is a NUL. -/
def HeadSeen (ms : List Mark) : Prop := ∀ m ∈ ms.head?, m.seen = false → m.c = 0

theorem Linked.tail (h : Linked (m :: ms)) : Linked ms := by
  cases ms with
  | nil => trivial
  | cons m' ms => exact h.2.2

theorem Linked.ne_zero (h : Linked ms) : ∀ m ∈ ms, m.seen = true → m.c ≠ 0 := by
  induction ms with
  | nil => exact List.forall_mem_nil _
  | cons m ms ih =>
    refine List.forall_mem_cons.mpr ⟨?_, ih h.tail⟩
    cases ms with
    | nil => exact h.1
    | cons m' ms => exact h.1

theorem linked_readMarks {ms : List Mark} (hms : Linked ms) (hhead : HeadSeen ms) (s : Bytes) :
    ∀ seen, Linked (readMarks seen s ++ ms) := by
  induction s with
  | nil => exact fun _ ↦ hms
  | cons c s ih =>
    intro seen
    have hne : (seen && c != 0) = true → c ≠ 0 := fun h ↦ by
      simpa using (Bool.and_eq_true_iff.1 h).2
    have hih := ih (seen && c != 0)
    cases s with
    | nil =>
      cases ms with
      | nil => exact ⟨hne, rfl⟩
      | cons m ms => exact ⟨hne, ⟨fun h ↦ absurd rfl h, fun _ h ↦ hhead m rfl h⟩, hms⟩
    | cons d s =>
      refine ⟨hne, ⟨fun hd ↦ ⟨rfl, fun h ↦ ?_⟩, fun h h' ↦ ?_⟩, hih⟩
      · exact Bool.and_eq_true_iff.2 ⟨h, by simpa using hd⟩
      · have h' : ((seen && c != 0) && d != 0) = false := h'
        rw [show (seen && c != 0) = true from h, Bool.true_and] at h'
        simpa using h'

theorem headSeen_marks (reads : List Bytes) : HeadSeen (marks reads) := by
  induction reads with
  | nil => rintro m ⟨⟩
  | cons buf reads ih =>
    cases buf with
    | nil => exact ih
    | cons c buf =>
      rintro m ⟨⟩ h
      simpa using h

theorem linked_marks (reads : List Bytes) : Linked (marks reads) := by
  induction reads with
  | nil => trivial
  | cons buf reads ih => exact linked_readMarks ih (headSeen_marks reads) buf true

theorem map_c_readMarks (seen : Bool) (s : Bytes) : (readMarks seen s).map Mark.c = s := by
  induction s generalizing seen with
  | nil => rfl
  | cons c s ih => rw [readMarks, List.map_cons, ih]

theorem map_c_marks (reads : List Bytes) : (marks reads).map Mark.c = reads.flatten := by
  induction reads with
  | nil => rfl
  | cons buf reads ih =>
    rw [marks, List.flatMap_cons, List.map_append, map_c_readMarks, List.flatten_cons, ← ih, marks]

/-! ## What the loop can send -/

/-- A string holds no NUL. -/
def Output.Clean : Output → Prop
  | byte c => c ≠ 0
  | eval s => 0 ∉ s

theorem clean_bodyStep (hc : c ≠ 0) (hz : 0 ∉ st.zbuf)
    (h : bodyStep st c c2 = some (out, st', skip)) : (∀ o ∈ out, o.Clean) ∧ 0 ∉ st'.zbuf := by
  rw [bodyStep] at h
  split_ifs at h
  · cases h
    exact ⟨List.forall_mem_nil _, List.not_mem_nil⟩
  · cases h
    exact ⟨List.forall_mem_singleton.mpr hz, hz⟩
  · cases h
    exact ⟨List.forall_mem_singleton.mpr hc, hz⟩
  · cases h
    exact ⟨List.forall_mem_nil _, by simp [hz, hc.symm]⟩

theorem clean_markRun (hms : ∀ m ∈ ms, m.seen = true → m.c ≠ 0) (hz : 0 ∉ st.zbuf)
    (h : markRun skip st ms = some out) : ∀ o ∈ out, o.Clean := by
  induction ms generalizing skip st out with
  | nil =>
    rw [markRun] at h
    cases h
    exact List.forall_mem_nil _
  | cons m ms ih =>
    rw [List.forall_mem_cons] at hms
    cases skip with
    | true => exact ih hms.2 hz h
    | false =>
      rw [markRun] at h
      split_ifs at h with hseen
      · obtain ⟨⟨o, st', skip⟩, hstep, h⟩ := Option.bind_eq_some_iff.1 h
        obtain ⟨outs, hrun, rfl⟩ := Option.map_eq_some_iff.1 h
        obtain ⟨ho, hz'⟩ := clean_bodyStep (hms.1 hseen) hz hstep
        exact List.forall_mem_append.2 ⟨ho, ih hms.2 hz' hrun⟩
      · exact ih hms.2 hz h

/-- A macro comes out with what is in `zbuf` already. -/
theorem markRun_inside (h : markRun false ⟨true, z⟩ ms = some out) :
    out = [] ∨ ∃ z' outs, out = .eval (z ++ z') :: outs := by
  induction ms generalizing z out with
  | nil =>
    cases h
    exact .inl rfl
  | cons m ms ih =>
    rw [markRun, bodyStep_inside] at h
    split_ifs at h with hseen hz hclose
    · obtain ⟨outs, -, rfl⟩ := Option.map_eq_some_iff.1 h
      exact .inr ⟨[], outs, by rw [List.append_nil]; rfl⟩
    · obtain ⟨outs, hrun, rfl⟩ := Option.map_eq_some_iff.1 h
      rcases ih hrun with rfl | ⟨z', outs', rfl⟩
      · exact .inl rfl
      · exact .inr ⟨m.c :: z', outs', by simp⟩
    · cases h
    · exact ih h

/-- The scanner sends no text while it is in a macro. -/
theorem expand_some_ne (s w : Bytes) (outs : List Output) :
    expand (some w) s ≠ .byte c :: outs := by
  induction s generalizing w with
  | nil => rintro ⟨⟩
  | cons d s ih =>
    cases s with
    | nil => rintro ⟨⟩
    | cons e s =>
      rw [expand]
      split_ifs
      · rintro ⟨⟩
      · exact ih (w ++ [d])

/-! ## The loop against the scanner -/

/-- What `zbuf` has of a macro. -/
def zbufOf (w : List Mark) : Bytes := (w.filter Mark.seen).map Mark.c

/-- The macro `w` has been read so far, and `ms` comes next.  A byte of it that is not seen stands
behind a NUL that is not seen either. -/
structure Held (w ms : List Mark) : Prop where
  ne_zero : ∀ x ∈ w, x.seen = true → x.c ≠ 0
  head : (∀ x ∈ w, x.seen = true) → HeadSeen ms
  nul : ¬(∀ x ∈ w, x.seen = true) → 0 ∈ w.map Mark.c
  room : w.countP Mark.seen ≤ 128

variable {m' : Mark} {v : List Mark}

theorem length_zbufOf (v : List Mark) : (zbufOf v).length = v.countP Mark.seen := by
  rw [zbufOf, List.length_map, List.countP_eq_length_filter]

theorem zbufOf_eq_map (h : ∀ x ∈ v, x.seen = true) : zbufOf v = v.map Mark.c := by
  rw [zbufOf, List.filter_eq_self.2 h]

theorem zbufOf_concat (v : List Mark) (m : Mark) :
    zbufOf (v ++ [m]) = if m.seen = true then zbufOf v ++ [m.c] else zbufOf v := by
  rw [zbufOf, List.filter_append, List.map_append]
  split_ifs with h
  · rw [List.filter_cons_of_pos h]
    rfl
  · rw [List.filter_cons_of_neg h]
    exact List.append_nil _

theorem Held.zero_notMem (h : Held v ms) : 0 ∉ zbufOf v := by
  intro h0
  obtain ⟨x, hx, hc⟩ := List.mem_map.1 h0
  obtain ⟨hmem, hseen⟩ := List.mem_filter.1 hx
  exact h.ne_zero x hmem hseen hc

theorem Linked.headSeen (h : Linked (m :: ms)) (hseen : m.seen = true) : HeadSeen ms := by
  cases ms with
  | nil => rintro x ⟨⟩
  | cons m' ms =>
    rintro x ⟨⟩ hx
    exact h.2.1.nul hseen hx

theorem held_nil (h : HeadSeen ms) : Held [] ms :=
  ⟨List.forall_mem_nil _, fun _ ↦ h, fun h ↦ absurd (List.forall_mem_nil _) h, Nat.zero_le _⟩

/-- The macro goes on. -/
theorem Held.concat (h : Held v (m :: ms)) (hl : Linked (m :: ms))
    (hroom : (v ++ [m]).countP Mark.seen ≤ 128) : Held (v ++ [m]) ms where
  ne_zero := List.forall_mem_append.2
    ⟨h.ne_zero, List.forall_mem_singleton.2 (hl.ne_zero m List.mem_cons_self)⟩
  head hseen := hl.headSeen (hseen m (List.mem_append_right _ (List.mem_singleton_self m)))
  nul hseen := by
    rw [List.map_append, List.mem_append]
    by_cases hv : ∀ x ∈ v, x.seen = true
    · have hm : m.seen = false := by
        by_contra hm
        exact hseen (List.forall_mem_append.2 ⟨hv, List.forall_mem_singleton.2 (by simpa using hm)⟩)
      exact .inr (List.mem_singleton.2 (h.head hv m rfl hm).symm)
    · exact .inl (h.nul hv)
  room := hroom

theorem countP_le_of_fitsReads (h : FitsReads (some v) ms) : v.countP Mark.seen ≤ 128 := by
  induction ms generalizing v with
  | nil => exact h
  | cons m ms ih =>
    have hmono : v.countP Mark.seen ≤ (v ++ [m]).countP Mark.seen := by
      rw [List.countP_append]
      exact Nat.le_add_right _ _
    cases ms with
    | nil => exact hmono.trans h
    | cons m' ms =>
      rw [FitsReads] at h
      split_ifs at h
      · exact List.countP_le_length.trans (h.2.2.1.trans (by decide))
      · exact hmono.trans (ih h)

/-- Between the macros the loop does what the scanner does exactly if the reads do no harm. -/
def AgreesOutside (ms : List Mark) : Prop :=
  ∀ z : Bytes, z.length ≤ 127 → 0 ∉ z → Linked ms → HeadSeen ms →
    (markRun false ⟨false, z⟩ ms = some (expand none (ms.map Mark.c)) ↔ FitsReads none ms)

/-- In a macro. -/
def AgreesInside (ms : List Mark) : Prop :=
  ∀ v, Held v ms → Linked ms →
    (markRun false ⟨true, zbufOf v⟩ ms = some (expand (some (v.map Mark.c)) (ms.map Mark.c)) ↔
      FitsReads (some v) ms)

/-- A byte between the macros. -/
theorem agreesOutside_cons (hin : AgreesInside ms) (hout : AgreesOutside (m' :: ms)) :
    AgreesOutside (m :: m' :: ms) := by
  intro z hz hz0 hl hhead
  rw [FitsReads, List.map_cons, List.map_cons, expand]
  by_cases hseen : m.seen = true
  · rw [markRun, if_pos hseen, bodyStep_outside hz, and_iff_right hseen]
    by_cases hopen : m.c = less ∧ m'.c = question
    · rw [if_pos hopen, if_pos hopen]
      by_cases hnext : m.next = question
      · have hsame := hl.2.1.same_read (by rw [hnext]; decide)
        have hagree := hin [] (held_nil (hl.2.2.headSeen (hsame.2 hseen))) hl.tail.tail
        rw [if_pos ⟨hopen.1, hnext⟩, and_iff_right hnext, ← hagree]
        show (markRun false ⟨true, []⟩ ms).map ([] ++ ·) = _ ↔ _
        simp only [List.nil_append, Option.map_id']
        rfl
      · rw [if_neg fun h ↦ hnext h.2]
        refine iff_of_false (fun h ↦ ?_) fun h ↦ hnext h.1
        obtain ⟨outs, -, h⟩ := Option.map_eq_some_iff.1 h
        exact expand_some_ne _ _ _ h.symm
    · have hnot : ¬(m.c = less ∧ m.next = question) := fun h ↦ by
        have hsame := hl.2.1.same_read (by rw [h.2]; decide)
        exact hopen ⟨h.1, hsame.1.trans h.2⟩
      rw [if_neg hopen, if_neg hopen, if_neg hnot, ← hout z hz hz0 hl.tail (hl.headSeen hseen)]
      show (markRun false ⟨false, z⟩ (m' :: ms)).map ([.byte m.c] ++ ·) = _ ↔ _
      rw [Option.map_eq_some_iff]
      simp
  · -- What is not seen is a NUL, and the scanner sends it.
    have hc : m.c = 0 := hhead m rfl (by simpa using hseen)
    refine iff_of_false (fun h ↦ ?_) fun h ↦ hseen h.1
    rw [hc, if_neg fun h ↦ absurd h.1 (by decide)] at h
    exact clean_markRun hl.ne_zero hz0 h _ List.mem_cons_self rfl

/-- A byte that is stored, or not seen: the macro goes on. -/
theorem fitsReads_store_iff (hheld : Held v (m :: ms)) (hl : Linked (m :: ms))
    (hnot : m.seen = true → ¬(m.c = question ∧ m.next = greater)) (hin : AgreesInside ms) :
    markRun false ⟨true, zbufOf v⟩ (m :: ms)
        = some (expand (some ((v ++ [m]).map Mark.c)) (ms.map Mark.c)) ↔
      FitsReads (some (v ++ [m])) ms := by
  have hconcat := zbufOf_concat v m
  rw [markRun]
  by_cases hseen : m.seen = true
  · rw [if_pos hseen] at hconcat ⊢
    rw [bodyStep_inside, if_neg (hnot hseen)]
    by_cases hz : (zbufOf v).length < zbufSize
    · have hroom : (v ++ [m]).countP Mark.seen ≤ 128 := by
        rw [← length_zbufOf, hconcat, List.length_append, List.length_singleton]
        exact hz
      rw [if_pos hz, ← hconcat, ← hin _ (hheld.concat hl hroom) hl.tail]
      show (markRun false ⟨true, zbufOf (v ++ [m])⟩ ms).map ([] ++ ·) = _ ↔ _
      simp only [List.nil_append, Option.map_id']
    · rw [if_neg hz]
      refine iff_of_false (fun h ↦ by cases h) fun h ↦ hz ?_
      have hle := countP_le_of_fitsReads h
      rwa [← length_zbufOf, hconcat, List.length_append, List.length_singleton] at hle
  · rw [if_neg hseen] at hconcat ⊢
    have hroom : (v ++ [m]).countP Mark.seen ≤ 128 := by
      rw [← length_zbufOf, hconcat, length_zbufOf]
      exact hheld.room
    rw [← hconcat]
    exact hin _ (hheld.concat hl hroom) hl.tail

/-- The end of a macro. -/
theorem fitsReads_close_iff (hheld : Held v (m :: m' :: ms)) (hl : Linked (m :: m' :: ms))
    (hclose : m.c = question ∧ m'.c = greater) (hout : AgreesOutside ms) :
    markRun false ⟨true, zbufOf v⟩ (m :: m' :: ms)
        = some (.eval (v.map Mark.c) :: expand none (ms.map Mark.c)) ↔
      (∀ x ∈ v, x.seen = true) ∧ m.next = greater ∧ v.length ≤ 127 ∧ FitsReads none ms := by
  by_cases hall : ∀ x ∈ v, x.seen = true
  swap
  · -- A byte of the macro is not seen, so there is a NUL in it.
    refine iff_of_false (fun h ↦ ?_) fun h ↦ hall h.1
    exact clean_markRun hl.ne_zero hheld.zero_notMem h _ List.mem_cons_self (hheld.nul hall)
  have hseen : m.seen = true := by
    by_contra h
    have hc := hheld.head hall m rfl (by simpa using h)
    exact absurd (hclose.1.symm.trans hc) (by decide)
  have hz0 := hheld.zero_notMem
  rw [and_iff_right hall, markRun, if_pos hseen, bodyStep_inside, zbufOf_eq_map hall]
  by_cases hnext : m.next = greater
  · have hsame := hl.2.1.same_read (by rw [hnext]; decide)
    rw [and_iff_right hnext]
    by_cases hz : (v.map Mark.c).length < zbufSize
    · have hlen : v.length ≤ 127 := by
        rw [List.length_map, zbufSize] at hz
        omega
      rw [zbufOf_eq_map hall] at hz0
      rw [if_pos hz, if_pos ⟨hclose.1, hnext⟩, and_iff_right hlen, ← hout (v.map Mark.c)
        (by rwa [List.length_map]) hz0 hl.tail.tail (hl.2.2.headSeen (hsame.2 hseen))]
      show (markRun false ⟨false, v.map Mark.c⟩ ms).map ([.eval (v.map Mark.c)] ++ ·) = _ ↔ _
      rw [Option.map_eq_some_iff]
      simp
    · rw [if_neg hz]
      refine iff_of_false (fun h ↦ by cases h) fun h ↦ hz ?_
      rw [List.length_map]
      exact Nat.lt_succ_of_le h.1
  · -- The `?` is stored, and the macro that comes out is longer.
    refine iff_of_false (fun h ↦ ?_) fun h ↦ hnext h.1
    rw [if_neg (c := m.c = question ∧ m.next = greater) fun h ↦ hnext h.2] at h
    split_ifs at h
    swap
    · cases h
    obtain ⟨outs, hrun, h⟩ := Option.map_eq_some_iff.1 h
    rcases markRun_inside hrun with rfl | ⟨z', outs', rfl⟩
    · cases h
    · rw [List.nil_append, List.cons.injEq, Output.eval.injEq] at h
      have hlen := congrArg List.length h.1
      simp only [List.length_append, List.length_map, List.length_singleton] at hlen
      omega

/-- A byte in a macro. -/
theorem agreesInside_cons (hout : AgreesOutside ms) (hin : AgreesInside (m' :: ms)) :
    AgreesInside (m :: m' :: ms) := by
  intro v hheld hl
  rw [FitsReads, List.map_cons, List.map_cons, expand]
  by_cases hclose : m.c = question ∧ m'.c = greater
  · rw [if_pos hclose, if_pos hclose]
    exact fitsReads_close_iff hheld hl hclose hout
  · rw [if_neg hclose, if_neg hclose]
    have hnot : m.seen = true → ¬(m.c = question ∧ m.next = greater) := fun _ h ↦ by
      have hsame := hl.2.1.same_read (by rw [h.2]; decide)
      exact hclose ⟨h.1, hsame.1.trans h.2⟩
    have hmap : v.map Mark.c ++ [m.c] = (v ++ [m]).map Mark.c := by simp
    rw [hmap]
    exact fitsReads_store_iff hheld hl hnot hin

theorem agreesOutside_nil : AgreesOutside [] := fun _ _ _ _ _ ↦ iff_of_true rfl trivial

theorem agreesInside_nil : AgreesInside [] := fun _ hheld _ ↦ iff_of_true rfl hheld.room

theorem agreesOutside_singleton (m : Mark) : AgreesOutside [m] := by
  intro z hz hz0 hl hhead
  have hnot : ¬(m.c = less ∧ m.next = question) := fun h ↦ by
    rw [hl.2] at h
    exact absurd h.2 (by decide)
  by_cases hseen : m.seen = true
  · rw [markRun, if_pos hseen, bodyStep_outside hz, if_neg hnot]
    exact iff_of_true rfl hseen
  · rw [markRun, if_neg hseen]
    exact iff_of_false (fun h ↦ by cases h) hseen

theorem agreesInside_singleton (m : Mark) : AgreesInside [m] := by
  intro v hheld hl
  have hnot : m.seen = true → ¬(m.c = question ∧ m.next = greater) := fun _ h ↦ by
    rw [hl.2] at h
    exact absurd h.2 (by decide)
  exact fitsReads_store_iff hheld hl hnot agreesInside_nil

theorem agrees (ms : List Mark) : AgreesOutside ms ∧ AgreesInside ms := by
  induction ms using List.twoStepInduction with
  | nil => exact ⟨agreesOutside_nil, agreesInside_nil⟩
  | singleton m => exact ⟨agreesOutside_singleton m, agreesInside_singleton m⟩
  | cons_cons m m' ms ih ih' =>
    exact ⟨agreesOutside_cons ih.2 (ih' m').1, agreesInside_cons ih.1 (ih' m').2⟩

/-- **The loops over any reads send what the scanner sends exactly if the reads do no harm.** -/
theorem bodyRun_iff (reads : List Bytes) :
    bodyRun ⟨false, []⟩ reads = some (expand none reads.flatten) ↔
      FitsReads none (marks reads) := by
  rw [bodyRun_eq_markRun, ← map_c_marks]
  exact (agrees (marks reads)).1 [] (Nat.zero_le _) List.not_mem_nil (linked_marks reads)
    (headSeen_marks reads)

/-! ## The page -/

variable {files : Bytes → Option Bytes} {arg1 file : Bytes}

/-- What the scanner makes of a page. -/
def pageOutputs (files : Bytes → Option Bytes) (arg1 file : Bytes) : List Output :=
  bodyHead file ++ ((templateFile files arg1 file).map (expand none)).getD []

/-- **A page is what the scanner makes of it exactly if the template fits.** -/
theorem outputBody_iff (files : Bytes → Option Bytes) (arg1 file : Bytes) :
    outputBody files arg1 file = some (pageOutputs files arg1 file) ↔
      ∀ t ∈ templateFile files arg1 file, FitsBody t := by
  rw [outputBody, pageOutputs]
  cases templateFile files arg1 file with
  | none => exact iff_of_true (congrArg some (List.append_nil _).symm) (by rintro t ⟨⟩)
  | some t =>
    have hrun := bodyRun_iff (fgetsAll 1022 t)
    rw [flatten_fgetsAll (by decide)] at hrun
    refine Iff.trans ?_ (hrun.trans ⟨fun h t' ht ↦ Option.some.inj ht ▸ h, fun h ↦ h t rfl⟩)
    dsimp only [Option.map_some, Option.getD_some]
    rw [Option.map_eq_some_iff]
    simp

/-- A template of one line. -/
def loginFile (t : Bytes) : Bytes → Option Bytes := fun name ↦
  if name = cstr "login.t" then some t else none

/-- The first read ends between the two bytes of `<?`, and there is a macro of 128 bytes. -/
theorem page_split_and_overrun :
    outputBody (loginFile (List.replicate 1021 97 ++ cstr "<?x?>")) [] (cstr "login")
        ≠ some (pageOutputs (loginFile (List.replicate 1021 97 ++ cstr "<?x?>")) []
          (cstr "login")) ∧
      outputBody (loginFile (cstr "<?" ++ List.replicate 128 97 ++ cstr "?>")) [] (cstr "login")
        = none := by
  decide +kernel

end Setup
