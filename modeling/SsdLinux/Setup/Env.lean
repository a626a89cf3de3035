import SsdLinux.CLib.Bytes
import SsdLinux.Keyed
import Mathlib.Data.List.Basic
import Mathlib.Logic.Relation

/-!
# The key/value store of `setup.cgi`

`eval.c` keeps every setting in one linked list, `envtop`.  An entry is a key, a value and three
flag bits; the list is in the order in which the keys first appeared, so the operations are those
of `SsdLinux.Keyed`.

* `putval` writes an entry.  With `RC_bWRITE` it also records whether the write changed anything:
  `RC_bUPDATE` is set when the key is new or the value differs from the one before.  The flag of
  the previous write is lost.  `putval` writes the process environment as well (`setenv`), which is
  why a process is a store *and* an environment here.
* `getval` reads a value back, except that six keys (`x_year` … `x_sec`) always read the clock.

What the program asks of the machine it runs on is collected in `World`; it is fixed for the
duration of one request.
-/

set_option autoImplicit false

namespace Setup

open CLib

/-- The broken-down local time, `struct tm`. -/
structure Tm where
  year : ℕ
  mon : ℕ
  mday : ℕ
  hour : ℕ
  min : ℕ
  sec : ℕ

/-- What lies outside the program: the libraries and the machine of one request. -/
structure World where
  /-- Whether `char` is signed.  It is on the i386 and not on the PowerPC targets. -/
  charSigned : Bool
  /-- `localtime(time(NULL))`. -/
  tm : Tm
  /-- `time(NULL)`. -/
  time : ℕ
  /-- `getpid()`. -/
  pid : ℕ
  /-- The login name of a user id in the passwd file, `getpwuid(uid)->pw_name`. -/
  pwName : ℤ → Option Bytes
  /-- The name of a group id, `getgrgid(gid)->gr_name`. -/
  grName : ℤ → Option Bytes
  /-- The shadow password of root, `getspnam("root")->sp_pwdp`. -/
  rootHash : Option Bytes
  /-- `crypt(key, salt)`. -/
  crypt : Bytes → Bytes → Bytes
  /-- Whether `inet_addr` reads the string as an address. -/
  inetAddr : Bytes → Bool
  /-- The environment variables that the resolver behind `gethostbyname` reads. -/
  resolverNames : List Bytes
  /-- The address text `gethostbyname` and `inet_ntoa` give for a host name, with these values of
  the variables of the resolver. -/
  hostAddr : List (Option Bytes) → Bytes → Option Bytes
  /-- What `sprintf` makes of a format and a string where C does not say it, if it comes back. -/
  sprintfOther : Bytes → Bytes → Option Bytes
  /-- The address text of a network interface, `get_interface_adr`. -/
  ifAddr : Bytes → Bytes
  /-- The six bytes of the hardware address of a network interface. -/
  hwAddr : Bytes → Fin 6 → ℕ
  /-- What `adr_ip4` and `mask_ip4` of `ok_network` hold before anything is read into them. -/
  stack : ℕ → ℤ

/-- A machine that knows no address, no user and no group, for running the program on examples.
Its `crypt` spells out the key after the salt. -/
def World.bare : World where
  charSigned := true
  tm := ⟨101, 0, 31, 12, 30, 0⟩
  time := 980911800
  pid := 120
  pwName _ := none
  grName _ := none
  rootHash := none
  crypt key salt := salt.take 2 ++ key.flatMap fun c ↦ [c / 16 + 65, c % 16 + 65]
  inetAddr _ := false
  resolverNames := [cstr "LOCALDOMAIN", cstr "RES_OPTIONS", cstr "HOSTALIASES"]
  hostAddr _ _ := none
  sprintfOther _ _ := none
  ifAddr _ := []
  hwAddr _ _ := 0
  stack _ := 0

/-! ## Flags -/

abbrev RC_bWRITE : BitVec 32 := 1
abbrev RC_bUPDATE : BitVec 32 := 2
/-- `RC_bNULL`, also called `RC_bNOOUTPUT`: the entry is not written out. -/
abbrev RC_bNULL : BitVec 32 := 4

/-- One element of the list `envtop`. -/
structure Entry where
  key : Bytes
  val : Bytes
  flag : BitVec 32
  deriving DecidableEq, Repr

/-- The state of the process that the store functions read and write. -/
structure Proc where
  /-- `envtop.next`. -/
  env : List Entry
  /-- The process environment. -/
  environ : Bytes → Option Bytes

/-- `setenv(name, val, 1)`.  A name that is empty or holds a `=` is refused. -/
def setenv (name val : Bytes) (environ : Bytes → Option Bytes) : Bytes → Option Bytes :=
  if name = [] ∨ equals ∈ name then environ else Function.update environ name (some val)

/-! ## Writing -/

/-- The flag an entry gets: `sw`, with the update bit `sw2` when a write was asked for. -/
def newFlag (sw sw2 : BitVec 32) : BitVec 32 := if sw &&& RC_bWRITE ≠ 0 then sw ||| sw2 else sw

/-- The entry `putval` leaves under `key`, given the one that was there. -/
def putEntry (key val : Bytes) (sw : BitVec 32) : Option Entry → Entry
  | none => ⟨key, val, newFlag sw RC_bUPDATE⟩
  | some e => ⟨key, val, newFlag sw (if val ≠ e.val then RC_bUPDATE else 0)⟩

/-- `putval`.  An empty key is not kept. -/
def putval (key val : Bytes) (sw : BitVec 32) (p : Proc) : Proc :=
  if key = [] then p
  else ⟨Keyed.upsert Entry.key key (putEntry key val sw) p.env, setenv key val p.environ⟩

/-- `delval`. -/
def delval (key : Bytes) (p : Proc) : Proc := { p with env := Keyed.erase Entry.key key p.env }

/-- `setvalflag`. -/
def setvalflag (key : Bytes) (flag : BitVec 32) (p : Proc) : Proc :=
  { p with env := Keyed.modify Entry.key key (fun e ↦ { e with flag := e.flag ||| flag }) p.env }

/-! ## Reading -/

/-- `getvalp`. -/
def getvalp (key : Bytes) (p : Proc) : Option Entry := Keyed.find Entry.key key p.env

/-- The keys `getval2` answers from the clock, and its answers. -/
def clockVal (tm : Tm) (key : Bytes) : Option Bytes :=
  if key = cstr "x_year" then some ((dec (tm.year + 1900)).leftpad 4 blank)
  else if key = cstr "x_mon" then some ((dec (tm.mon + 1)).leftpad 2 48)
  else if key = cstr "x_mday" then some ((dec tm.mday).leftpad 2 48)
  else if key = cstr "x_hour" then some ((dec tm.hour).leftpad 2 48)
  else if key = cstr "x_min" then some ((dec tm.min).leftpad 2 48)
  else if key = cstr "x_sec" then some ((dec tm.sec).leftpad 2 48)
  else none

/-- The keys that read the clock. -/
def clockKeys : List Bytes :=
  [cstr "x_year", cstr "x_mon", cstr "x_mday", cstr "x_hour", cstr "x_min", cstr "x_sec"]

/-- `getval`. -/
def getval (w : World) (key : Bytes) (p : Proc) : Option Bytes :=
  (clockVal w.tm key).or ((getvalp key p).map Entry.val)

/-- `getval3`: `getval` with the empty string for NULL. -/
def getval3 (w : World) (key : Bytes) (p : Proc) : Bytes := (getval w key p).getD []

/-- `getval_int`. -/
def getvalInt (w : World) (key : Bytes) (p : Proc) : ℤ := ((getval w key p).map atoi).getD 0

/-! ## What the operations leave -/

@[simp] theorem key_putEntry (key val : Bytes) (sw : BitVec 32) (o : Option Entry) :
    (putEntry key val sw o).key = key := by
  cases o <;> rfl

@[simp] theorem val_putEntry (key val : Bytes) (sw : BitVec 32) (o : Option Entry) :
    (putEntry key val sw o).val = val := by
  cases o <;> rfl

theorem flag_putEntry (key val : Bytes) (sw : BitVec 32) (o : Option Entry) :
    (putEntry key val sw o).flag
      = newFlag sw (if o.map Entry.val = some val then 0 else RC_bUPDATE) := by
  cases o with
  | none => rfl
  | some e =>
    by_cases h : e.val = val
    · simp [putEntry, h]
    · simp [putEntry, h, Ne.symm h]

theorem env_putval {key : Bytes} (h : key ≠ []) (val : Bytes) (sw : BitVec 32) (p : Proc) :
    (putval key val sw p).env = Keyed.upsert Entry.key key (putEntry key val sw) p.env := by
  rw [putval, if_neg h]

/-- An entry after a `putval` was there before, or is the one that was written. -/
theorem mem_putval {e : Entry} {key val : Bytes} {sw : BitVec 32} {p : Proc}
    (h : e ∈ (putval key val sw p).env) : e ∈ p.env ∨ ∃ o, e = putEntry key val sw o := by
  rw [putval] at h
  split at h
  · exact .inl h
  · exact Keyed.mem_upsert h

theorem getvalp_putval_self {key : Bytes} (h : key ≠ []) (val : Bytes) (sw : BitVec 32)
    (p : Proc) :
    getvalp key (putval key val sw p) = some (putEntry key val sw (getvalp key p)) := by
  rw [getvalp, env_putval h, Keyed.find_upsert_self fun _ ↦ key_putEntry ..]
  rfl

theorem getvalp_putval_ne {k key : Bytes} (h : k ≠ key) (val : Bytes) (sw : BitVec 32)
    (p : Proc) : getvalp k (putval key val sw p) = getvalp k p := by
  rw [putval]
  split
  · rfl
  · exact Keyed.find_upsert_ne (fun _ ↦ key_putEntry ..) h _

@[simp] theorem getvalp_setvalflag (k key : Bytes) (flag : BitVec 32) (p : Proc) :
    getvalp k (setvalflag key flag p) =
      if k = key then (getvalp key p).map fun e ↦ { e with flag := e.flag ||| flag }
      else getvalp k p :=
  Keyed.find_modify (g := fun e : Entry ↦ { e with flag := e.flag ||| flag }) (fun _ ↦ rfl) _

theorem getvalp_delval_ne {k key : Bytes} (h : k ≠ key) (p : Proc) :
    getvalp k (delval key p) = getvalp k p :=
  Keyed.find_erase_ne h _

theorem clockVal_of_not_mem {tm : Tm} {key : Bytes} (h : key ∉ clockKeys) :
    clockVal tm key = none := by
  simp only [clockKeys, List.mem_cons, not_or] at h
  obtain ⟨h1, h2, h3, h4, h5, h6, -⟩ := h
  simp [clockVal, h1, h2, h3, h4, h5, h6]

/-- Every key that is not one of the clock's reads the store. -/
theorem getval_eq {w : World} {key : Bytes} (h : key ∉ clockKeys) (p : Proc) :
    getval w key p = (getvalp key p).map Entry.val := by
  rw [getval, clockVal_of_not_mem h, Option.none_or]

/-- The value an entry holds, whatever the clock says. -/
def stored (key : Bytes) (p : Proc) : Option Bytes := (getvalp key p).map Entry.val

/-- What the program reads of such a key, the empty string for nothing. -/
theorem getval3_eq {w : World} {key : Bytes} (h : key ∉ clockKeys) (p : Proc) :
    getval3 w key p = (stored key p).getD [] := by
  rw [getval3, getval_eq h, ← stored]

theorem stored_putval_self {key : Bytes} (h : key ≠ []) (val : Bytes) (sw : BitVec 32)
    (p : Proc) : stored key (putval key val sw p) = some val := by
  rw [stored, getvalp_putval_self h, Option.map_some, val_putEntry]

theorem stored_putval_ne {k key : Bytes} (h : k ≠ key) (val : Bytes) (sw : BitVec 32)
    (p : Proc) : stored k (putval key val sw p) = stored k p := by
  rw [stored, getvalp_putval_ne h]
  rfl

theorem getval_congr {w : World} {k : Bytes} {p p' : Proc} (h : stored k p = stored k p') :
    getval w k p = getval w k p' := by
  rw [stored, stored] at h
  rw [getval, getval, h]

theorem getval_putval_ne {w : World} {k key : Bytes} (h : k ≠ key) (val : Bytes) (sw : BitVec 32)
    (p : Proc) : getval w k (putval key val sw p) = getval w k p :=
  getval_congr (stored_putval_ne h val sw p)

@[simp] theorem stored_setvalflag (k key : Bytes) (flag : BitVec 32) (p : Proc) :
    stored k (setvalflag key flag p) = stored k p := by
  rw [stored, getvalp_setvalflag]
  split
  · rename_i h
    subst h
    simp [stored, Function.comp_def]
  · rfl

/-- What `getval` answers comes from the clock or is the value of an entry. -/
theorem getval_cases {w : World} {key v : Bytes} {p : Proc} (h : getval w key p = some v) :
    clockVal w.tm key = some v ∨ ∃ e ∈ p.env, e.key = key ∧ e.val = v := by
  rw [getval] at h
  rcases Option.or_eq_some_iff.mp h with h | ⟨-, h⟩
  · exact .inl h
  · obtain ⟨e, he, rfl⟩ := Option.map_eq_some_iff.mp h
    exact .inr ⟨e, Keyed.mem_of_find _ he, Keyed.key_of_find _ he, rfl⟩

/-- The clock answers in digits and blanks. -/
theorem clockVal_chars {tm : Tm} {key v : Bytes} (h : clockVal tm key = some v) :
    ∀ c ∈ v, isdigit c = true ∨ c = blank := by
  have hpad : ∀ (n k : ℕ) (d : UInt8), isdigit d = true ∨ d = blank →
      ∀ c ∈ (dec n).leftpad k d, isdigit c = true ∨ c = blank := by
    intro n k d hd c hc
    rcases List.mem_append.mp hc with hc | hc
    · exact (List.eq_of_mem_replicate hc) ▸ hd
    · exact .inl (dec_isdigit n c hc)
  simp only [clockVal] at h
  split_ifs at h <;> rw [← Option.some.inj h] <;> exact hpad _ _ _ (by decide)

/-! ## Sequences of writes -/

/-- The arguments of one call of `putval`. -/
structure Put where
  key : Bytes
  val : Bytes
  sw : BitVec 32
  deriving DecidableEq, Repr

/-- The call of `putval` with these arguments. -/
def Put.run (p : Proc) (q : Put) : Proc := putval q.key q.val q.sw p

theorem env_foldl (qs : List Put) (p : Proc) :
    (qs.foldl Put.run p).env = (qs.filter fun q ↦ decide (q.key ≠ [])).foldl
      (fun l q ↦ Keyed.upsert Entry.key q.key (putEntry q.key q.val q.sw) l) p.env := by
  induction qs generalizing p with
  | nil => rfl
  | cons q qs ih =>
    rw [List.foldl_cons, ih]
    by_cases h : q.key = []
    · rw [List.filter_cons_of_neg (by simpa using h), Put.run, putval, if_pos h]
    · rw [List.filter_cons_of_pos (by simpa using h), List.foldl_cons, Put.run, env_putval h]

/-- **The entry of a key depends only on the writes to that key.** -/
theorem getvalp_foldl {k : Bytes} (hk : k ≠ []) (qs : List Put) (p : Proc) :
    getvalp k (qs.foldl Put.run p)
      = (qs.filter fun q ↦ decide (q.key = k)).foldl
          (fun o q ↦ some (putEntry q.key q.val q.sw o)) (getvalp k p) := by
  rw [getvalp, env_foldl,
    Keyed.find_foldl_upsert Entry.key (K := Put.key) (F := fun q ↦ putEntry q.key q.val q.sw)
      (fun q o ↦ key_putEntry ..),
    List.filter_filter, getvalp]
  congr 1
  refine List.filter_congr fun q _ ↦ ?_
  by_cases h : q.key = k <;> simp [h, hk]

/-- Once a key is in the store, a write does not take it out. -/
theorem getvalp_run_ne_none {k : Bytes} {p : Proc} (h : getvalp k p ≠ none) (q : Put) :
    getvalp k (q.run p) ≠ none := by
  by_cases hk : k = q.key
  · by_cases hne : q.key = []
    · rw [Put.run, putval, if_pos hne]
      exact h
    · rw [hk, Put.run, getvalp_putval_self hne]
      exact Option.some_ne_none _
  · rw [Put.run, getvalp_putval_ne hk]
    exact h

/-- The keys a sequence of writes does not name keep their entries. -/
theorem getvalp_foldl_of_not_mem {k : Bytes} {qs : List Put} (h : ∀ q ∈ qs, q.key ≠ k)
    (p : Proc) : getvalp k (qs.foldl Put.run p) = getvalp k p := by
  induction qs generalizing p with
  | nil => rfl
  | cons q qs ih =>
    rw [List.foldl_cons, ih (fun r hr ↦ h r (List.mem_cons_of_mem _ hr)), Put.run,
      getvalp_putval_ne (Ne.symm (h q List.mem_cons_self))]

/-- The environment variables a sequence of writes does not name keep their values. -/
theorem environ_foldl_of_not_mem {k : Bytes} {qs : List Put} (h : ∀ q ∈ qs, q.key ≠ k)
    (p : Proc) : (qs.foldl Put.run p).environ k = p.environ k := by
  induction qs generalizing p with
  | nil => rfl
  | cons q qs ih =>
    rw [List.foldl_cons, ih (fun r hr ↦ h r (List.mem_cons_of_mem _ hr)), Put.run, putval]
    split
    · rfl
    · simp only [setenv]
      split
      · rfl
      · rw [Function.update_of_ne (h q List.mem_cons_self).symm]

/-! ## Frames -/

/-- What a piece of the program may do to the store. -/
structure Frame where
  put : Put → Prop
  hide : Bytes → Prop
  del : Bytes → Prop

/-- One change of the store that a frame allows. -/
inductive Edit (F : Frame) : Proc → Proc → Prop
  | put {q : Put} (h : F.put q) (p : Proc) : Edit F p (q.run p)
  | hide {k : Bytes} (h : F.hide k) (p : Proc) : Edit F p (setvalflag k RC_bNULL p)
  | del {k : Bytes} (h : F.del k) (p : Proc) : Edit F p (delval k p)

/-- Any number of changes that a frame allows. -/
abbrev Edits (F : Frame) : Proc → Proc → Prop := Relation.ReflTransGen (Edit F)

variable {F : Frame} {p p' : Proc}

theorem edits_putval {k : Bytes} {sw : BitVec 32} {v : Bytes} (h : F.put ⟨k, v, sw⟩) (p : Proc) :
    Edits F p (putval k v sw p) :=
  .single (.put h p)

theorem edits_puts {qs : List Put} (h : ∀ q ∈ qs, F.put q) (p : Proc) :
    Edits F p (qs.foldl Put.run p) := by
  induction qs generalizing p with
  | nil => exact .refl
  | cons q qs ih =>
    exact .head (.put (h q List.mem_cons_self) p)
      (ih (fun q hq ↦ h q (List.mem_cons_of_mem _ hq)) _)

theorem edits_hide {ks : List Bytes} (h : ∀ k ∈ ks, F.hide k) (p : Proc) :
    Edits F p (ks.foldl (fun p k ↦ setvalflag k RC_bNULL p) p) := by
  induction ks generalizing p with
  | nil => exact .refl
  | cons k ks ih =>
    exact .head (.hide (h k List.mem_cons_self) p)
      (ih (fun k hk ↦ h k (List.mem_cons_of_mem _ hk)) _)

/-- What one frame allows, a wider one allows too. -/
theorem edits_mono {G : Frame} (hput : ∀ q, F.put q → G.put q) (hhide : ∀ k, F.hide k → G.hide k)
    (hdel : ∀ k, F.del k → G.del k) (h : Edits F p p') : Edits G p p' := by
  induction h with
  | refl => exact .refl
  | tail _ hstep ih =>
    cases hstep with
    | put hq => exact ih.tail (.put (hput _ hq) _)
    | hide hk => exact ih.tail (.hide (hhide _ hk) _)
    | del hk => exact ih.tail (.del (hdel _ hk) _)

/-- **What a frame does not allow to be written keeps its value.** -/
theorem stored_edits {k : Bytes} (h : Edits F p p') (hput : ∀ q, F.put q → q.key ≠ k)
    (hdel : ∀ k', F.del k' → k' ≠ k) : stored k p' = stored k p := by
  induction h with
  | refl => rfl
  | tail _ hstep ih =>
    rw [← ih]
    cases hstep with
    | put hq => exact stored_putval_ne (hput _ hq).symm ..
    | hide _ => exact stored_setvalflag ..
    | del hk => rw [stored, getvalp_delval_ne (hdel _ hk).symm, stored]

/-- What a frame does not allow to be touched keeps its entry. -/
theorem getvalp_edits {k : Bytes} (h : Edits F p p') (hput : ∀ q, F.put q → q.key ≠ k)
    (hhide : ∀ k', F.hide k' → k' ≠ k) (hdel : ∀ k', F.del k' → k' ≠ k) :
    getvalp k p' = getvalp k p := by
  induction h with
  | refl => rfl
  | tail _ hstep ih =>
    rw [← ih]
    cases hstep with
    | put hq => exact getvalp_putval_ne (hput _ hq).symm ..
    | hide hk => rw [getvalp_setvalflag, if_neg (hhide _ hk).symm]
    | del hk => exact getvalp_delval_ne (hdel _ hk).symm _

/-- A key that is in the store stays there, unless it is deleted. -/
theorem edits_present {k : Bytes} (h : Edits F p p') (hdel : ∀ k', F.del k' → k' ≠ k)
    (hp : getvalp k p ≠ none) : getvalp k p' ≠ none := by
  induction h with
  | refl => exact hp
  | tail _ hstep ih =>
    cases hstep with
    | put _ => exact getvalp_run_ne_none ih _
    | hide _ =>
      rw [getvalp_setvalflag]
      split
      · rename_i he
        subst he
        simpa using ih
      · exact ih
    | del hk => rwa [getvalp_delval_ne (hdel _ hk).symm]

/-! ## Every key has one entry -/

/-- No key occurs twice in the store, and no key is empty. -/
structure Proc.WF (p : Proc) : Prop where
  nodup : (p.env.map Entry.key).Nodup
  ne_nil : ∀ e ∈ p.env, e.key ≠ []

theorem wf_nil (environ : Bytes → Option Bytes) : Proc.WF ⟨[], environ⟩ := ⟨by simp, by simp⟩

theorem Proc.WF.putval (h : p.WF) (key val : Bytes) (sw : BitVec 32) :
    (Setup.putval key val sw p).WF := by
  by_cases hk : key = []
  · rw [Setup.putval, if_pos hk]
    exact h
  · refine ⟨?_, fun e he ↦ ?_⟩
    · rw [env_putval hk]
      exact Keyed.nodup_upsert (fun o ↦ key_putEntry ..) h.nodup
    · rcases mem_putval he with he | ⟨o, rfl⟩
      · exact h.ne_nil e he
      · rwa [key_putEntry]

theorem Proc.WF.edits (h : p.WF) (he : Edits F p p') : p'.WF := by
  induction he with
  | refl => exact h
  | @tail q _ _ hstep ih =>
    cases hstep with
    | put _ => exact ih.putval ..
    | @hide k _ =>
      refine ⟨?_, fun e he ↦ ?_⟩
      · have hkeys : (setvalflag k RC_bNULL q).env.map Entry.key = q.env.map Entry.key :=
          Keyed.map_key_modify (g := fun e : Entry ↦ { e with flag := e.flag ||| RC_bNULL })
            (fun _ ↦ rfl) _
        rw [hkeys]
        exact ih.nodup
      · rcases Keyed.mem_modify he with he | ⟨e', he', -, rfl⟩
        exacts [ih.ne_nil e he, ih.ne_nil e' he']
    | @del k _ =>
      have hsub : (delval k q).env.Sublist q.env := Keyed.erase_sublist _
      exact ⟨ih.nodup.sublist (hsub.map _), fun e he ↦ ih.ne_nil e (hsub.subset he)⟩

/-- Where every key has one entry, an entry is what its key reads. -/
theorem Proc.WF.getvalp_eq (h : p.WF) {e : Entry} (he : e ∈ p.env) : getvalp e.key p = some e :=
  Keyed.find_of_mem _ h.nodup he

end Setup
