import Mathlib.Order.Bounds.Basic
import SsdLinux.Setup.Eval

/-!
# The user id that the form offers

`func_user_nextid` fills the field of the form for a new user with the number after the greatest
user id that it counts, and `is_uid` checks what comes back.  The two do not agree on the numbers
they go by: the one counts ids from 500 to 60000 and starts from 0, the other wants an id from 32768
to 60000.

* A `PasswdEntry` is a line of the passwd file, and `HasUid` says which ids have one.
* `hasUid_cases`: the ids that are not counted are those of lines the loop skips.
* `nextid_usable` says exactly when the offer is of use: the greatest id counted is one from 32767
  to 59999, and the next one has no line that was skipped.
-/

set_option autoImplicit false

namespace Setup

open CLib

/-! ## The passwd file -/

/-- A line of the passwd file.  A name does not begin with a byte that has a meaning of its own
there. -/
structure PasswdEntry where
  name : Bytes
  passwd : Bytes
  uid : Bytes
  gid : Bytes
  gecos : Bytes
  dir : Bytes
  shell : Bytes
  name_ne_nil : name ≠ []
  name_head : ∀ c ∈ name.head?, c ∉ [hash, plus, minus]
  uid_ne_nil : uid ≠ []
  uid_digits : ∀ c ∈ uid, isdigit c = true
  gid_ne_nil : gid ≠ []
  gid_digits : ∀ c ∈ gid, isdigit c = true
  colon_notMem : ∀ f ∈ [name, passwd, gecos, dir], colon ∉ f
  nul_notMem : ∀ f ∈ [name, passwd, gecos, dir, shell], 0 ∉ f

namespace PasswdEntry

def line (e : PasswdEntry) : Bytes :=
  joinWith colon [e.name, e.passwd, e.uid, e.gid, e.gecos, e.dir, e.shell]

/-- The id of the user. -/
def number (e : PasswdEntry) : ℕ := digitsVal e.uid

theorem line_eq (e : PasswdEntry) (t : Bytes) :
    e.line ++ t = e.name ++ colon :: (e.passwd ++ colon :: (e.uid ++ colon :: (e.gid
      ++ colon :: (e.gecos ++ colon :: (e.dir ++ colon :: (e.shell ++ t)))))) := by
  simp [line, joinWith_cons]

theorem line_ne_nil (e : PasswdEntry) : e.line ≠ [] := fun h ↦ by
  have h1 := e.line_eq []
  rw [h] at h1
  simp at h1

theorem nul_notMem_line (e : PasswdEntry) : 0 ∉ e.line := by
  have hz := e.nul_notMem
  simp only [List.forall_mem_cons] at hz
  have huid : 0 ∉ e.uid := not_mem_of_class e.uid_digits (by decide)
  have hgid : 0 ∉ e.gid := not_mem_of_class e.gid_digits (by decide)
  have hcolon : (0 : UInt8) ≠ colon := by decide
  rw [← List.append_nil e.line, line_eq]
  simp only [List.mem_append, List.mem_cons, List.not_mem_nil, hcolon, hz, huid, hgid, or_false,
    not_false_eq_true]

/-- The fields that `list_split` finds in a line. -/
theorem listSplit_line (e : PasswdEntry) (t : Bytes) :
    ∃ l, listSplit colon (some (e.line ++ t))
      = e.name :: e.passwd :: e.uid :: e.gid :: e.gecos :: e.dir :: l := by
  have hc := e.colon_notMem
  simp only [List.forall_mem_cons] at hc
  have huid : colon ∉ e.uid := not_mem_of_class e.uid_digits (by decide)
  have hgid : colon ∉ e.gid := not_mem_of_class e.gid_digits (by decide)
  obtain ⟨c, u, hu⟩ := List.exists_cons_of_ne_nil e.name_ne_nil
  have hsplit : listSplit colon (some (e.line ++ t)) = splitSep colon [] (e.line ++ t) := by
    rw [line_eq, hu, List.cons_append, listSplit, if_neg (by decide)]
    exact List.cons_ne_nil _ _
  rw [hsplit, line_eq, splitSep_append hc.1 _ (by simp), splitSep_append hc.2.1 _ (by simp),
    splitSep_append huid _ (by simp), splitSep_append hgid _ (by simp),
    splitSep_append hc.2.2.1 _ (by simp), splitSep_item hc.2.2.2.1]
  exact ⟨_, rfl⟩

end PasswdEntry

/-- What `ring_readln` reads of a file. -/
def readStrings (file : Bytes) : List Bytes := (fgetsAll 1023 file).map cString

/-- Whether a user of the passwd file has the id `v`. -/
def HasUid (file : Bytes) (v : ℤ) : Prop :=
  ∃ e : PasswdEntry, IsLine file e.line ∧ (e.number : ℤ) = v

/-- Whether a user whose name begins with neither a letter nor a digit has the id `v`. -/
def OddUid (file : Bytes) (v : ℤ) : Prop :=
  ∃ e : PasswdEntry, IsLine file e.line ∧ (e.number : ℤ) = v ∧ e.name.head?.any isalnum = false

/-- The ids that `func_user_nextid` counts. -/
def Counted (file : Bytes) : Set ℤ :=
  {u | (∃ l, (l, u) ∈ users (readStrings file)) ∧ 500 ≤ u ∧ u ≤ 60000}

theorem head_line (e : PasswdEntry) (t : Bytes) : (e.line ++ t).head? = e.name.head? := by
  obtain ⟨c, u, hu⟩ := List.exists_cons_of_ne_nil e.name_ne_nil
  rw [e.line_eq, hu]
  rfl

/-- A line that is read and not skipped is counted with its id. -/
theorem mem_users {lines : List Bytes} {e : PasswdEntry} {t : Bytes} (h : e.line ++ t ∈ lines)
    (hhead : e.name.head?.any isalnum = true) (hnum : e.number ≤ 60000) :
    ∃ l, (l, (e.number : ℤ)) ∈ users lines := by
  obtain ⟨l, hl⟩ := e.listSplit_line t
  have hscan := scanInt_digits e.uid_ne_nil e.uid_digits [] (by simp)
  have hatoi : atoi e.uid = e.number := by
    rw [List.append_nil] at hscan
    rw [atoi, hscan, Option.map_some, Option.getD_some, clampInt, PasswdEntry.number]
    rw [PasswdEntry.number] at hnum
    omega
  refine ⟨e.name :: e.passwd :: e.uid :: e.gid :: e.gecos :: e.dir :: l,
    List.mem_filterMap.mpr ⟨_, List.mem_filter.mpr ⟨h, ?_⟩, ?_⟩⟩
  · rw [head_line, hhead]
  · rw [hl]
    exact congrArg (fun u ↦ some (_, u)) hatoi

/-- A user of the file is read, unless a read fills the buffer. -/
theorem mem_readStrings {file : Bytes} (hfit : ∀ s ∈ readStrings file, s.length ≠ 1023)
    {e : PasswdEntry} (he : IsLine file e.line) : ∃ t, e.line ++ t ∈ readStrings file := by
  have hfit' : ∀ s ∈ fgetsAll 1023 file, s <+: e.line → s.length ≠ 1023 := fun s hs hpre ↦ by
    have hself : cString s = s := cString_eq_self fun h0 ↦ e.nul_notMem_line (hpre.subset h0)
    exact hfit s (List.mem_map.mpr ⟨s, hs, hself⟩)
  obtain ⟨t, ht, hmem⟩ := mem_fgetsAll_of_isLine (by decide) he e.line_ne_nil hfit'
  refine ⟨t, List.mem_map.mpr ⟨_, hmem, cString_eq_self ?_⟩⟩
  rw [List.mem_append, not_or]
  exact ⟨e.nul_notMem_line, by rcases ht with rfl | rfl <;> decide⟩

/-- **A user is counted, or has a name that makes the loop skip the line.** -/
theorem hasUid_cases {file : Bytes} (hfit : ∀ s ∈ readStrings file, s.length ≠ 1023) {v : ℤ}
    (h : HasUid file v) (hlo : 500 ≤ v) (hhi : v ≤ 60000) : v ∈ Counted file ∨ OddUid file v := by
  obtain ⟨e, he, rfl⟩ := h
  cases hhead : e.name.head?.any isalnum with
  | false => exact .inr ⟨e, he, rfl, hhead⟩
  | true =>
    obtain ⟨t, ht⟩ := mem_readStrings hfit he
    exact .inl ⟨mem_users ht hhead (by omega), hlo, hhi⟩

/-- In a file whose lines all begin with a letter or a digit no user is skipped for his name. -/
theorem not_oddUid {file : Bytes} (hfit : ∀ s ∈ readStrings file, s.length ≠ 1023)
    (hhead : ∀ s ∈ readStrings file, s.head?.any isalnum = true) (v : ℤ) :
    ¬ OddUid file v := by
  rintro ⟨e, he, -, hodd⟩
  obtain ⟨t, ht⟩ := mem_readStrings hfit he
  have h := hhead _ ht
  rw [head_line, hodd] at h
  cases h

theorem not_hasUid {file : Bytes} (hfit : ∀ s ∈ readStrings file, s.length ≠ 1023)
    (hhead : ∀ s ∈ readStrings file, s.head?.any isalnum = true) {v : ℤ}
    (hv : v ∉ (users (readStrings file)).map Prod.snd) (hlo : 500 ≤ v) (hhi : v ≤ 60000) :
    ¬ HasUid file v := by
  intro h
  rcases hasUid_cases hfit h hlo hhi with ⟨⟨l, hl⟩, -⟩ | ho
  · exact hv (List.mem_map.mpr ⟨_, hl, rfl⟩)
  · exact not_oddUid hfit hhead v ho

/-! ## The loops -/

/-- A loop that comes to no end at the items outside `P`. -/
theorem mapM_eq_ite {α β : Type} {P : α → Prop} [DecidablePred P] {f : α → Option β} {g : α → β}
    (hf : ∀ a, f a = if P a then some (g a) else none) (l : List α) :
    l.mapM f = if ∀ a ∈ l, P a then some (l.map g) else none := by
  induction l with
  | nil => rfl
  | cons a l ih =>
    rw [List.mapM_cons, ih, hf]
    by_cases ha : P a
    · by_cases hl : ∀ a ∈ l, P a
      · simp only [List.forall_mem_cons, if_pos ha, if_pos hl, if_pos (And.intro ha hl)]
        rfl
      · simp only [List.forall_mem_cons, if_pos ha, if_neg hl, if_neg fun h : _ ∧ _ ↦ hl h.2]
        rfl
    · simp only [List.forall_mem_cons, if_neg ha, if_neg fun h : _ ∧ _ ↦ ha h.1]
      rfl

theorem mapM_eq_isSome {α β : Type} (b : β) (f : α → Option β) (l : List α) :
    l.mapM f =
      if ∀ a ∈ l, (f a).isSome = true then some (l.map fun a ↦ (f a).getD b) else none :=
  mapM_eq_ite (fun a ↦ by cases f a <;> rfl) l

/-- What the loop over the file goes through. -/
theorem readlnAll_eq (file : Bytes) :
    readlnAll file =
      if ∀ s ∈ readStrings file, s.length ≠ 1023 then some (readStrings file) else none := by
  rw [readlnAll, readStrings, mapM_eq_ite (P := fun s : Bytes ↦ (cString s).length ≠ 1023)
    (g := cString) fun s ↦ (ite_not _ _ _).symm]
  simp only [List.forall_mem_map]

/-- `max` after the loop of `func_user_nextid`. -/
def maxUid (us : List (List Bytes × ℤ)) (max : ℤ) : ℤ :=
  us.foldl (fun max (_, uid) ↦ if 500 ≤ uid ∧ uid ≤ 60000 ∧ max ≤ uid then uid else max) max

/-- The loop keeps the greatest id that it counts, and what it started from if that is greater. -/
theorem maxUid_spec (us : List (List Bytes × ℤ)) (m : ℤ) :
    m ≤ maxUid us m ∧ (∀ x ∈ us, 500 ≤ x.2 → x.2 ≤ 60000 → x.2 ≤ maxUid us m) ∧
      (maxUid us m = m ∨ ∃ x ∈ us, x.2 = maxUid us m ∧ 500 ≤ x.2 ∧ x.2 ≤ 60000) := by
  induction us generalizing m with
  | nil => exact ⟨le_rfl, List.forall_mem_nil _, .inl rfl⟩
  | cons x us ih =>
    have hstep : maxUid (x :: us) m
        = maxUid us (if 500 ≤ x.2 ∧ x.2 ≤ 60000 ∧ m ≤ x.2 then x.2 else m) := rfl
    rw [hstep]
    split
    · rename_i hx
      obtain ⟨hle, hall, hmem⟩ := ih x.2
      refine ⟨hx.2.2.trans hle, List.forall_mem_cons.mpr ⟨fun _ _ ↦ hle, hall⟩, .inr ?_⟩
      rcases hmem with hmem | ⟨y, hy, hmem⟩
      · exact ⟨x, List.mem_cons_self, hmem.symm, hx.1, hx.2.1⟩
      · exact ⟨y, List.mem_cons_of_mem _ hy, hmem⟩
    · rename_i hx
      obtain ⟨hle, hall, hmem⟩ := ih m
      refine ⟨hle, List.forall_mem_cons.mpr ⟨fun h1 h2 ↦ ?_, hall⟩,
        hmem.imp_right fun ⟨y, hy, hmem⟩ ↦ ⟨y, List.mem_cons_of_mem _ hy, hmem⟩⟩
      exact (le_of_lt (not_le.mp fun h ↦ hx ⟨h1, h2, h⟩)).trans hle

/-- **The greatest id that is counted, if there is one.** -/
theorem isGreatest_maxUid (file : Bytes) {m : ℤ} (hm : 500 ≤ m) :
    maxUid (users (readStrings file)) 0 = m ↔ IsGreatest (Counted file) m := by
  obtain ⟨-, hall, hmem⟩ := maxUid_spec (users (readStrings file)) 0
  have hupper : ∀ u ∈ Counted file, u ≤ maxUid (users (readStrings file)) 0 :=
    fun u ⟨⟨l, hl⟩, h1, h2⟩ ↦ hall _ hl h1 h2
  constructor
  · rintro rfl
    rcases hmem with h0 | ⟨⟨l, u⟩, hx, hu, h1, h2⟩
    · rw [h0] at hm
      omega
    · exact ⟨hu ▸ ⟨⟨l, hx⟩, h1, h2⟩, hupper⟩
  · rintro ⟨⟨⟨l, hl⟩, h1, h2⟩, hmax⟩
    refine le_antisymm ?_ (hupper m ⟨⟨l, hl⟩, h1, h2⟩)
    rcases hmem with h0 | ⟨⟨l', u⟩, hx, hu, h1', h2'⟩
    · rw [h0]
      omega
    · rw [← hu]
      exact hmax ⟨⟨l', hx⟩, h1', h2'⟩

/-! ## The offer -/

/-- The field of the form, with the id in it. -/
def nextidField (uid : Bytes) : Bytes :=
  cstr "<INPUT TYPE=TEXT NAME=\"i_user_id\" VALUE=\"" ++ uid ++ cstr "\">\n"

theorem nextidField_inj {u v : Bytes} (h : nextidField u = nextidField v) : u = v :=
  List.append_cancel_left (List.append_cancel_right h)

/-- What the field offers: the number after the greatest one that was counted. -/
theorem funcUserNextid_eq (pg : Script) (ev : Eval) (s : Bytes) :
    funcUserNextid pg ev s =
      if ∀ l ∈ readStrings pg.passwd, l.length ≠ 1023 then
        some (nextidField (decInt (maxUid (users (readStrings pg.passwd)) 0 + 1)), s)
      else none := by
  rw [funcUserNextid, readlnAll_eq]
  split
  · rfl
  · rfl

/-- What `is_uid` accepts of a printed number. -/
theorem uid_accepts {w : World} {p : Proc} {key : Bytes} {n : ℕ} (hn : n ≤ 60000) :
    Check.uid.run w p key (dec n) = some none ↔ 32768 ≤ n ∧ w.pwName n = none := by
  have hatoi := atoi_dec (n := n) (by omega)
  rw [Check.run, hatoi, uidInRange]
  have hhi : decide ((n : ℤ) ≤ 60000) = true := decide_eq_true (by omega)
  rw [hhi, Bool.and_true]
  by_cases hlo : 32768 ≤ n
  · have hlo' : decide ((32768 : ℤ) ≤ n) = true := decide_eq_true (by omega)
    rw [hlo']
    cases w.pwName n with
    | none => simp [hlo]
    | some v => simp
  · have hlo' : decide ((32768 : ℤ) ≤ n) = false := decide_eq_false (by omega)
    rw [hlo']
    simp [hlo]

/-- **The id that is offered can be used exactly if no line fills the buffer and the greatest id
counted is one from 32767 to 59999 whose successor belongs to no line that is skipped.** -/
theorem nextid_usable (w : World) (pg : Script) (p : Proc)
    (hpw : ∀ v, 32768 ≤ v → v ≤ 60000 → ((w.pwName v).isSome = true ↔ HasUid pg.passwd v)) :
    (∃ n : ℕ, (∀ ev s, funcUserNextid pg ev s = some (nextidField (dec n), s)) ∧
        (∀ key, Check.uid.run w p key (dec n) = some none) ∧
        32768 ≤ n ∧ n ≤ 60000 ∧ ¬ HasUid pg.passwd n) ↔
      (∀ l ∈ readStrings pg.passwd, l.length ≠ 1023) ∧
        ∃ m, IsGreatest (Counted pg.passwd) m ∧ 32767 ≤ m ∧ m < 60000 ∧
          ¬ OddUid pg.passwd (m + 1) := by
  constructor
  · rintro ⟨n, hoffer, -, hlo, hhi, hfree⟩
    have hfit : ∀ l ∈ readStrings pg.passwd, l.length ≠ 1023 := by
      by_contra hfit
      have := hoffer (fun _ ↦ none) []
      rw [funcUserNextid_eq, if_neg hfit] at this
      cases this
    have hmax : maxUid (users (readStrings pg.passwd)) 0 = (n : ℤ) - 1 := by
      have h := hoffer (fun _ ↦ none) []
      rw [funcUserNextid_eq, if_pos hfit] at h
      have h := nextidField_inj (Prod.mk.inj (Option.some.inj h)).1
      rw [← decInt_natCast] at h
      have := decInt_injective h
      omega
    refine ⟨hfit, n - 1, (isGreatest_maxUid pg.passwd (by omega)).mp hmax, by omega, by omega, ?_⟩
    rintro ⟨e, he, hnum, -⟩
    exact hfree ⟨e, he, by omega⟩
  · rintro ⟨hfit, m, hmax, hlo, hhi, hodd⟩
    obtain ⟨n, hn⟩ := Int.eq_ofNat_of_zero_le (show 0 ≤ m + 1 by omega)
    have hfree : ¬ HasUid pg.passwd n := by
      intro h
      rcases hasUid_cases hfit h (by omega) (by omega) with hc | ho
      · have := hmax.2 hc
        omega
      · exact hodd (hn ▸ ho)
    have hpwName : w.pwName n = none := by
      rw [← Option.not_isSome_iff_eq_none, hpw n (by omega) (by omega)]
      exact hfree
    refine ⟨n, fun ev s ↦ ?_, fun key ↦ (uid_accepts (by omega)).mpr ⟨by omega, hpwName⟩, by omega,
      by omega, hfree⟩
    rw [funcUserNextid_eq, if_pos hfit, (isGreatest_maxUid pg.passwd (by omega)).mpr hmax, hn,
      decInt_natCast]

/-- A file with the one user the offer needs. -/
def nobodyPasswd : Bytes := cstr "nobody:x:32767:39::/:/sbin/nologin\n"

theorem hasUid_nobody {v : ℤ} (hlo : 32768 ≤ v) (hhi : v ≤ 60000) : ¬ HasUid nobodyPasswd v := by
  have husers : (users (readStrings nobodyPasswd)).map Prod.snd = [32767] := by decide
  refine not_hasUid (by decide) (by decide) ?_ (by omega) hhi
  rw [husers, List.mem_singleton]
  omega

/-- With such a file 32768 is offered and accepted. -/
theorem nextid_usable_nobody :
    ∃ n : ℕ, (∀ ev s, funcUserNextid ⟨none, [], [], nobodyPasswd⟩ ev s
          = some (nextidField (dec n), s)) ∧
      (∀ key, Check.uid.run .bare ⟨[], fun _ ↦ none⟩ key (dec n) = some none) ∧
      32768 ≤ n ∧ n ≤ 60000 ∧ ¬ HasUid nobodyPasswd n :=
  (nextid_usable .bare ⟨none, [], [], nobodyPasswd⟩ ⟨[], fun _ ↦ none⟩
    fun v hlo hhi ↦ iff_of_false (by simp [World.bare]) (hasUid_nobody hlo hhi)).mpr
    ⟨by decide, 32767, (isGreatest_maxUid nobodyPasswd (by decide)).mp (by decide), by decide,
      by decide, not_oddUid (by decide) (by decide) _⟩

/-- The file without that user. -/
def rootPasswd : Bytes := cstr "root:x:0:0::/root:/bin/bash\n"

/-- The file with that user and one who has the last id. -/
def lastPasswd : Bytes := nobodyPasswd ++ cstr "a:x:60000:100::/home/a:/bin/bash\n"

/-- Without that user 1 is offered, and behind a user with the last id 60001, though 32768 is free
both times. -/
theorem nextid_refused :
    (¬ HasUid rootPasswd 32768 ∧
      (∀ ev s, funcUserNextid ⟨none, [], [], rootPasswd⟩ ev s = some (nextidField (cstr "1"), s)) ∧
      ∀ w p key, Check.uid.run w p key (cstr "1") ≠ some none) ∧
    (¬ HasUid lastPasswd 32768 ∧
      (∀ ev s, funcUserNextid ⟨none, [], [], lastPasswd⟩ ev s
        = some (nextidField (cstr "60001"), s)) ∧
      ∀ w p key, Check.uid.run w p key (cstr "60001") ≠ some none) := by
  have h1 : uidInRange (atoi (cstr "1")) = false := by decide
  have h2 : uidInRange (atoi (cstr "60001")) = false := by decide
  refine ⟨⟨?_, fun ev s ↦ ?_, fun w p key ↦ by simp [Check.run, h1]⟩,
    ⟨?_, fun ev s ↦ ?_, fun w p key ↦ by simp [Check.run, h2]⟩⟩
  · exact not_hasUid (by decide) (by decide) (by decide) (by decide) (by decide)
  · rw [funcUserNextid_eq, if_pos (by decide)]
    rfl
  · exact not_hasUid (by decide) (by decide) (by decide) (by decide) (by decide)
  · rw [funcUserNextid_eq, if_pos (by decide)]
    rfl

end Setup
