import SsdLinux.CLib.Bytes

/-!
# Reading a text file with `fgets`

`fgets(buf, n + 1, fp)` returns the next line of the file with its newline, or its next `n` bytes
when the line is longer.  `fgetsAll n` is the sequence of strings a loop over `fgets` sees until the
end of the file.

Two facts are all that a reader of a whole file needs: a line that fits comes back whole
(`fgetsAll_line`), and a newline occurs in a returned string only as its last byte
(`nl_not_mem_dropLast`).  Where every line fits, every line is read (`mem_fgetsAll_of_isLine`).
A single read (`fgets`) takes the first of the lines of the file, or as much of it as fits
(`readLine_fileLines`).
-/

set_option autoImplicit false

namespace CLib

/-- The loop inside `fgets`: `buf` is what the buffer holds, `room` how many bytes it still
takes. -/
def fgetsGo (n : ℕ) : ℕ → Bytes → Bytes → List Bytes
  | _, buf, [] => if buf = [] then [] else [buf]
  | room, buf, c :: file =>
    if c = nl ∨ room ≤ 1 then (buf ++ [c]) :: fgetsGo n n [] file
    else fgetsGo n (room - 1) (buf ++ [c]) file

/-- What `while(fgets(buf, n + 1, fp))` reads from `file`. -/
def fgetsAll (n : ℕ) (file : Bytes) : List Bytes := fgetsGo n n [] file

theorem fgetsGo_nil (n room : ℕ) (buf : Bytes) :
    fgetsGo n room buf [] = if buf = [] then [] else [buf] := rfl

theorem fgetsGo_cons (n room : ℕ) (buf : Bytes) (c : UInt8) (file : Bytes) :
    fgetsGo n room buf (c :: file) =
      if c = nl ∨ room ≤ 1 then (buf ++ [c]) :: fgetsGo n n [] file
      else fgetsGo n (room - 1) (buf ++ [c]) file := rfl

@[simp] theorem fgetsAll_nil (n : ℕ) : fgetsAll n [] = [] := rfl

theorem fgetsGo_line (n : ℕ) {body : Bytes} (rest : Bytes) (hb : nl ∉ body) :
    ∀ (room : ℕ) (buf : Bytes), body.length + 1 ≤ room →
      fgetsGo n room buf (body ++ nl :: rest) = (buf ++ body ++ [nl]) :: fgetsAll n rest := by
  induction body with
  | nil => intro room buf _; simp [fgetsGo_cons, fgetsAll]
  | cons c body ih =>
    intro room buf hroom
    rw [List.mem_cons, not_or] at hb
    rw [List.length_cons] at hroom
    rw [List.cons_append, fgetsGo_cons, if_neg (by rintro (h | h); exacts [hb.1 h.symm, by omega]),
      ih hb.2 _ _ (by omega)]
    simp

/-- **A line that fits is returned whole.** -/
theorem fgetsAll_line {n : ℕ} {body : Bytes} (rest : Bytes) (hb : nl ∉ body)
    (hn : body.length < n) :
    fgetsAll n (body ++ nl :: rest) = (body ++ [nl]) :: fgetsAll n rest := by
  rw [fgetsAll, fgetsGo_line n rest hb n [] (by omega), List.nil_append]

theorem fgetsGo_dropLast (n : ℕ) (file : Bytes) :
    ∀ (room : ℕ) (buf : Bytes), nl ∉ buf →
      ∀ s ∈ fgetsGo n room buf file, nl ∉ s.dropLast := by
  induction file with
  | nil =>
    intro room buf hbuf s hs
    rw [fgetsGo_nil] at hs
    split at hs
    · simp at hs
    · rw [List.mem_singleton.mp hs]
      exact fun h ↦ hbuf (List.mem_of_mem_dropLast h)
  | cons c file ih =>
    intro room buf hbuf s hs
    rw [fgetsGo_cons] at hs
    split at hs
    · rcases List.mem_cons.mp hs with rfl | hs
      · simpa using hbuf
      · exact ih n [] (by simp) s hs
    · rename_i hc
      rw [not_or] at hc
      exact ih (room - 1) (buf ++ [c]) (by simp [hbuf, Ne.symm hc.1]) s hs

/-- **A newline is the last byte of what `fgets` returned, or not in it.** -/
theorem nl_not_mem_dropLast {n : ℕ} {file s : Bytes} (h : s ∈ fgetsAll n file) :
    nl ∉ s.dropLast :=
  fgetsGo_dropLast n file n [] (by simp) s h

/-! ## The lines of a file -/

/-- A line of the file: it stands between newlines or the ends of the file. -/
def IsLine (file l : Bytes) : Prop :=
  nl ∉ l ∧ ∃ pre post, file = pre ++ (l ++ post) ∧ (∀ c ∈ pre.getLast?, c = nl) ∧
    ∀ c ∈ post.head?, c = nl

theorem fgetsGo_append (n : ℕ) {pre : Bytes} (h : pre.getLast? = some nl) (r : Bytes) :
    ∀ (room : ℕ) (buf : Bytes),
      fgetsGo n room buf (pre ++ r) = fgetsGo n room buf pre ++ fgetsAll n r := by
  induction pre with
  | nil => cases h
  | cons c pre ih =>
    intro room buf
    cases pre with
    | nil =>
      obtain rfl : c = nl := Option.some.inj h
      simp [fgetsGo_cons, fgetsGo_nil, fgetsAll]
    | cons d pre =>
      have ih := ih (by rwa [List.getLast?_cons_cons] at h)
      rw [List.cons_append, fgetsGo_cons, fgetsGo_cons, ih, ih]
      split
      · rw [List.cons_append]
      · rfl

/-- Behind a newline the reading starts over. -/
theorem fgetsAll_append (n : ℕ) {pre : Bytes} (h : ∀ c ∈ pre.getLast?, c = nl) (r : Bytes) :
    fgetsAll n (pre ++ r) = fgetsAll n pre ++ fgetsAll n r := by
  cases hp : pre.getLast? with
  | none =>
    rw [List.getLast?_eq_none_iff.mp hp]
    rfl
  | some c => exact fgetsGo_append n (h c hp ▸ hp) r n []

/-- A line that does not fit fills the buffer with its beginning. -/
theorem fgetsGo_long (n : ℕ) {l : Bytes} (hl : nl ∉ l) (r : Bytes) :
    ∀ (room : ℕ) (buf : Bytes), 0 < room → room ≤ l.length →
      ∃ s ∈ fgetsGo n room buf (l ++ r), s <+: buf ++ l ∧ s.length = buf.length + room := by
  induction l with
  | nil =>
    intro room buf h0 h
    rw [List.length_nil] at h
    omega
  | cons c l ih =>
    intro room buf h0 h
    rw [List.mem_cons, not_or] at hl
    rw [List.length_cons] at h
    rw [List.cons_append, fgetsGo_cons]
    by_cases hroom : room ≤ 1
    · rw [if_pos (.inr hroom)]
      refine ⟨buf ++ [c], List.mem_cons_self, ⟨l, by simp⟩, ?_⟩
      rw [List.length_append, List.length_singleton]
      omega
    · rw [if_neg (by rintro (h | h); exacts [hl.1 h.symm, hroom h])]
      obtain ⟨s, hs, hpre, hlen⟩ := ih hl.2 (room - 1) (buf ++ [c]) (by omega) (by omega)
      refine ⟨s, hs, by simpa using hpre, ?_⟩
      rw [hlen, List.length_append, List.length_singleton]
      omega

theorem fgetsGo_last (n : ℕ) {l : Bytes} (hl : nl ∉ l) :
    ∀ (room : ℕ) (buf : Bytes), l.length < room → buf ++ l ≠ [] →
      fgetsGo n room buf l = [buf ++ l] := by
  induction l with
  | nil =>
    intro room buf _ hne
    rw [List.append_nil] at hne
    rw [fgetsGo_nil, if_neg hne, List.append_nil]
  | cons c l ih =>
    intro room buf h _
    rw [List.mem_cons, not_or] at hl
    rw [List.length_cons] at h
    rw [fgetsGo_cons, if_neg (by rintro (h' | h'); exacts [hl.1 h'.symm, by omega]),
      ih hl.2 (room - 1) (buf ++ [c]) (by omega) (by simp), List.append_assoc,
      List.singleton_append]

/-- **A line that fills the buffer in no read is read**, with its newline if it has one. -/
theorem mem_fgetsAll_of_isLine {n : ℕ} (hn : 0 < n) {file l : Bytes} (hl : IsLine file l)
    (hne : l ≠ []) (hfit : ∀ s ∈ fgetsAll n file, s <+: l → s.length ≠ n) :
    ∃ t, (t = [] ∨ t = [nl]) ∧ l ++ t ∈ fgetsAll n file := by
  obtain ⟨hnl, pre, post, rfl, hpre, hpost⟩ := hl
  rw [fgetsAll_append n hpre] at hfit ⊢
  have hlen : l.length < n := by
    by_contra hlong
    obtain ⟨s, hs, hsl, hsn⟩ := fgetsGo_long n hnl post n [] hn (not_lt.mp hlong)
    exact hfit s (List.mem_append_right _ hs) hsl (by rw [hsn, List.length_nil, Nat.zero_add])
  cases post with
  | nil =>
    refine ⟨[], .inl rfl, List.mem_append_right _ ?_⟩
    rw [List.append_nil, fgetsAll, fgetsGo_last n hnl n [] hlen hne]
    exact List.mem_singleton_self _
  | cons c post =>
    obtain rfl : c = nl := hpost c rfl
    refine ⟨[nl], .inr rfl, List.mem_append_right _ ?_⟩
    rw [fgetsAll_line post hnl hlen]
    exact List.mem_cons_self

/-! ## A single read -/

/-- At most `n` bytes of the file, up to the first newline, and the rest of the file. -/
def readLine : ℕ → Bytes → Bytes × Bytes
  | _, [] => ([], [])
  | 0, file => ([], file)
  | n + 1, c :: file =>
    if c = nl then ([c], file) else (c :: (readLine n file).1, (readLine n file).2)

/-- `fgets(buf, n + 1, fp)`, and the rest of the file.  At the end of the file there is nothing. -/
def fgets (n : ℕ) (file : Bytes) : Option (Bytes × Bytes) :=
  if file = [] then none else some (readLine n file)

/-- Nothing is lost. -/
theorem readLine_append (n : ℕ) (file : Bytes) :
    (readLine n file).1 ++ (readLine n file).2 = file := by
  induction file generalizing n with
  | nil => rw [readLine]; rfl
  | cons c file ih =>
    cases n with
    | zero => rfl
    | succ n =>
      rw [readLine]
      split_ifs
      · rfl
      · rw [List.cons_append, ih n]

/-- A read takes something of the file. -/
theorem length_fgets {n : ℕ} {file line rest : Bytes} (h : fgets (n + 1) file = some (line, rest)) :
    rest.length < file.length := by
  cases file with
  | nil => cases h
  | cons c file =>
    rw [fgets, if_neg (List.cons_ne_nil c file), readLine] at h
    split_ifs at h
    · cases h
      exact Nat.lt_succ_self _
    · cases h
      have := congrArg List.length (readLine_append n file)
      rw [List.length_append] at this
      rw [List.length_cons]
      omega

/-- A loop over `fgets` sees the string of the first read, and what it sees of the rest. -/
theorem fgetsGo_eq (n : ℕ) {file : Bytes} :
    ∀ {room : ℕ} {buf : Bytes}, 0 < room → buf ++ file ≠ [] →
      fgetsGo n room buf file
        = (buf ++ (readLine room file).1) :: fgetsAll n (readLine room file).2 := by
  induction file with
  | nil =>
    intro room buf _ hne
    rw [List.append_nil] at hne
    rw [fgetsGo_nil, if_neg hne, readLine, List.append_nil, fgetsAll_nil]
  | cons c file ih =>
    intro room buf hroom _
    obtain ⟨room, rfl⟩ := Nat.exists_eq_succ_of_ne_zero hroom.ne'
    rw [fgetsGo_cons, readLine]
    by_cases hc : c = nl
    · rw [if_pos (.inl hc), if_pos hc]
      rfl
    rw [if_neg hc]
    cases room with
    | zero =>
      rw [if_pos (.inr le_rfl)]
      cases file <;> rfl
    | succ room =>
      rw [if_neg (by rintro (h | h); exacts [hc h, by omega]), Nat.succ_sub_one,
        ih (Nat.succ_pos room) (by simp), List.append_assoc]
      rfl

/-- **The loop over `fgets`, one read at a time.** -/
theorem fgetsAll_eq {n : ℕ} (hn : 0 < n) {file : Bytes} (hne : file ≠ []) :
    fgetsAll n file = (readLine n file).1 :: fgetsAll n (readLine n file).2 :=
  fgetsGo_eq n hn (by simpa using hne)

/-- The reads make up the file. -/
theorem flatten_fgetsAll {n : ℕ} (hn : 0 < n) (file : Bytes) :
    (fgetsAll n file).flatten = file := by
  induction hk : file.length using Nat.strong_induction_on generalizing file with
  | _ k ih =>
  by_cases hne : file = []
  · rw [hne]
    rfl
  obtain ⟨n, rfl⟩ := Nat.exists_eq_succ_of_ne_zero hn.ne'
  have hlt := length_fgets (n := n) (by rw [fgets, if_neg hne])
  rw [fgetsAll_eq hn hne, List.flatten_cons, ih _ (hk ▸ hlt) _ rfl, readLine_append]

/-- The lines of a file, each with its newline. -/
def fileLines : Bytes → List Bytes
  | [] => []
  | c :: file =>
    if c = nl then [c] :: fileLines file
    else
      match fileLines file with
      | [] => [[c]]
      | l :: ls => (c :: l) :: ls

theorem flatten_fileLines (file : Bytes) : (fileLines file).flatten = file := by
  induction file with
  | nil => rfl
  | cons c file ih =>
    rw [fileLines]
    split_ifs
    · rw [List.flatten_cons, ih, List.singleton_append]
    · cases h : fileLines file with
      | nil => rw [← ih, h]; rfl
      | cons l ls => rw [← ih, h]; rfl

/-- A line is not empty. -/
theorem ne_nil_of_mem_fileLines {file l : Bytes} (h : l ∈ fileLines file) : l ≠ [] := by
  induction file generalizing l with
  | nil => cases h
  | cons c file ih =>
    rw [fileLines] at h
    split_ifs at h
    · rcases List.mem_cons.mp h with rfl | h
      · exact List.cons_ne_nil c []
      · exact ih h
    · cases hf : fileLines file with
      | nil => rw [hf, List.mem_singleton] at h; exact h ▸ List.cons_ne_nil c []
      | cons l' ls =>
        rw [hf] at h ih
        rcases List.mem_cons.mp h with rfl | h
        · exact List.cons_ne_nil c l'
        · exact ih (List.mem_cons_of_mem _ h)

/-- **A read takes the first line**, or as much of it as fits. -/
theorem readLine_fileLines {file l : Bytes} {ls : List Bytes} (h : fileLines file = l :: ls)
    (n : ℕ) : (readLine n file).1 = l.take n ∧
      fileLines (readLine n file).2 = if l.length ≤ n then ls else l.drop n :: ls := by
  induction file generalizing l ls n with
  | nil => cases h
  | cons c file ih =>
    cases n with
    | zero =>
      have hne := ne_nil_of_mem_fileLines (h ▸ List.mem_cons_self)
      have hzero : readLine 0 (c :: file) = ([], c :: file) := rfl
      rw [hzero, List.take_zero, h, List.drop_zero, if_neg (by simpa using hne)]
      exact ⟨rfl, rfl⟩
    | succ n =>
      rw [fileLines] at h
      rw [readLine]
      by_cases hc : c = nl
      · rw [if_pos hc] at h ⊢
        cases h
        simp
      rw [if_neg hc] at h ⊢
      cases hf : fileLines file with
      | nil =>
        rw [hf] at h
        cases h
        have hfile : file = [] := by rw [← flatten_fileLines file, hf]; rfl
        rw [hfile, readLine]
        simp [fileLines]
      | cons l' ls' =>
        rw [hf] at h
        cases h
        obtain ⟨htake, hlines⟩ := ih hf n
        rw [htake, hlines]
        simp

end CLib
