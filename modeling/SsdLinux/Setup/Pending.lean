import SsdLinux.Setup.Main
import SsdLinux.Setup.RoundTrip

/-!
# The pending-change flag

`main` offers to save when `is_updateval` says that something has changed: when some `x_` entry has
both its write bit and its update bit set.  `putval` sets the update bit if the value it writes
differs from the one *before this write*, so the bit speaks of the last write of a key and not of
the difference to the saved configuration.

A request is a list of writes over the saved configuration (`requestPuts`): those of `tmp.conf`, and
then those of the arguments.  Read key by key, the flag of an entry says that its last write changed
it (`flag_foldl`).  That is not the same as being different from what is saved:

* a key that is changed and then *repeated*, as by a form that is posted twice, loses its bit;
* a key that is changed and then *restored* to its saved value has its bit;
* a key that is never saved, such as the login name, has its bit too.

`pendingExact_iff` says that the flag is exact as long as no repeated key is missed, because another
one has its bit, and no restored or unsaved key has it alone.
-/

set_option autoImplicit false

namespace Setup

open CLib

variable {w : World} {p p0 : Proc} {f : Files} {environ : Bytes → Option Bytes} {args : List Arg}
  {qs : List Put} {k : Bytes}

/-! ## A request as a list of writes -/

/-- The writes of the lines of a file. -/
def confPuts (w : World) (sw : BitVec 32) : List Bytes → Proc → Option (List Put)
  | [], _ => some []
  | buf :: bufs, p =>
    (readConfLine w p buf).bind fun
      | some (k, v) => (confPuts w sw bufs (putval k v sw p)).map (⟨k, v, sw⟩ :: ·)
      | none => confPuts w sw bufs p

/-- **Reading a file is writing what its lines say.** -/
theorem readConfSub_eq_confPuts (sw : BitVec 32) (file : Bytes) (p : Proc) :
    readConfSub w sw file p
      = (confPuts w sw (confLines file) p).map fun qs ↦ qs.foldl Put.run p := by
  rw [readConfSub]
  generalize confLines file = bufs
  induction bufs generalizing p with
  | nil => rfl
  | cons buf bufs ih =>
    rw [List.foldlM_cons, readConfStep, confPuts]
    cases readConfLine w p buf with
    | none => rfl
    | some o =>
      cases o with
      | none => exact ih p
      | some kv =>
        have h := ih (putval kv.1 kv.2 sw p)
        simp only [Option.map_some, Option.bind_some, Option.map_map]
        exact h

theorem confPuts_sw {sw : BitVec 32} {bufs : List Bytes} (h : confPuts w sw bufs p = some qs) :
    ∀ q ∈ qs, q.sw = sw := by
  induction bufs generalizing p qs with
  | nil =>
    cases h
    simp
  | cons buf bufs ih =>
    obtain ⟨o, -, h⟩ := Option.bind_eq_some_iff.mp h
    cases o with
    | none => exact ih h
    | some kv =>
      obtain ⟨qs', hqs, rfl⟩ := Option.map_eq_some_iff.mp h
      exact List.forall_mem_cons.mpr ⟨rfl, ih hqs⟩

/-- The writes of a request over the saved configuration: those of `tmp.conf`, then those of the
arguments. -/
def requestPuts (w : World) (f : Files) (p0 : Proc) (args : List Arg) : Option (List Put) :=
  (confPuts w RC_bWRITE (confLines (f.tmp.getD [])) p0).map fun qs ↦
    qs ++ argsPuts w (qs.foldl Put.run p0) args

/-- **The store of a request is the saved configuration with its writes done.** -/
theorem getargs_eq_foldl (h0 : readSaved w f environ = some p0)
    (hqs : requestPuts w f p0 args = some qs) :
    ∃ p, readConf w f environ = some p ∧ getargs w p args = qs.foldl Put.run p0 := by
  obtain ⟨qs', hconf, rfl⟩ := Option.map_eq_some_iff.mp hqs
  refine ⟨qs'.foldl Put.run p0, ?_, (List.foldl_append ..).symm⟩
  rw [readConf, h0, Option.bind_some]
  cases htmp : f.tmp with
  | none =>
    rw [htmp] at hconf
    cases hconf
    rfl
  | some tmp =>
    rw [htmp] at hconf
    exact (readConfSub_eq_confPuts RC_bWRITE tmp p0).trans (congrArg _ hconf)

/-- A request whose configuration can be read has its writes. -/
theorem exists_requestPuts (h : readConf w f environ = some p) (args : List Arg) :
    ∃ p0 qs, readSaved w f environ = some p0 ∧ requestPuts w f p0 args = some qs ∧
      getargs w p args = qs.foldl Put.run p0 := by
  obtain ⟨p0, h0, htmp⟩ := Option.bind_eq_some_iff.mp h
  have hconf : ∃ qs, confPuts w RC_bWRITE (confLines (f.tmp.getD [])) p0 = some qs := by
    cases hf : f.tmp with
    | none => exact ⟨[], rfl⟩
    | some tmp =>
      rw [hf] at htmp
      have hread := (readConfSub_eq_confPuts RC_bWRITE tmp p0).symm.trans htmp
      obtain ⟨qs, hqs, -⟩ := Option.map_eq_some_iff.mp hread
      exact ⟨qs, hqs⟩
  obtain ⟨qs, hqs⟩ := hconf
  have hreq : requestPuts w f p0 args = some (qs ++ argsPuts w (qs.foldl Put.run p0) args) := by
    rw [requestPuts, hqs, Option.map_some]
  obtain ⟨p', hp', hstore⟩ := getargs_eq_foldl h0 hreq
  cases h.symm.trans hp'
  exact ⟨p0, _, h0, hreq, hstore⟩

/-- Whether `is_updateval` and `write_conf` look at a key. -/
def isSetting (k : Bytes) : Bool := (cstr "x_").isPrefixOf k

/-- The keys that are never saved, as they are marked before anything is written. -/
def loginKeys : List Bytes := [cstr "x_login", cstr "x_passwd", cstr "x_key"]

/-- The settings that `write_conf` writes, once the login is marked. -/
def persistKey (k : Bytes) : Bool :=
  isSetting k && !strstr k (cstr "___T") && decide (k ∉ loginKeys)

theorem isSetting_of_persistKey (h : persistKey k = true) : isSetting k = true := by
  simp only [persistKey, Bool.and_eq_true] at h
  exact h.1.1

/-- A setting that is saved is still saved with something after its name, as long as that does not
make a `___T` of it. -/
theorem persistKey_append {s t : Bytes} (hs : persistKey s = true) (ht : 84 ∉ t)
    (hlogin : ∀ k ∈ loginKeys, s.isPrefixOf k = false) : persistKey (s ++ t) = true := by
  simp only [persistKey, Bool.and_eq_true, Bool.not_eq_true', decide_eq_true_eq] at hs ⊢
  refine ⟨⟨?_, ?_⟩, fun hmem ↦ ?_⟩
  · rw [isSetting, List.isPrefixOf_iff_prefix] at hs ⊢
    exact hs.1.1.trans (List.prefix_append s t)
  · rw [Bool.eq_false_iff, ne_eq, strstr_iff]
    rintro ⟨a, c, he⟩
    have hnot : ¬ cstr "___T" <:+: s := fun h ↦ by
      rw [strstr_iff.mpr h] at hs
      exact absurd hs.1.2 (by decide)
    rcases List.append_eq_append_iff.mp he with ⟨u, hsu, -⟩ | ⟨u, hau, htu⟩
    · exact hnot ⟨a, u, hsu.symm⟩
    · -- the `T` at the end is what comes after the name
      rcases List.eq_nil_or_concat u with rfl | ⟨u, d, rfl⟩
      · exact hnot ⟨a, [], by rw [hau, List.append_nil, List.append_nil]⟩
      · have hlast : a ++ cstr "___T" = (a ++ cstr "___") ++ [84] := by
          rw [List.append_assoc]
          rfl
        rw [hlast, List.concat_eq_append, ← List.append_assoc] at hau
        obtain ⟨-, hd⟩ := List.append_inj' hau rfl
        refine ht ?_
        rw [htu, List.concat_eq_append, ← hd]
        simp
  · have hpre := hlogin _ hmem
    rw [List.isPrefixOf_iff_prefix.mpr (List.prefix_append s t)] at hpre
    cases hpre

theorem ne_nil_of_isSetting (h : isSetting k = true) : k ≠ [] := by
  rintro rfl
  exact absurd h (by decide)

theorem exists_of_isSetting (h : isSetting k = true) : ∃ s, k = 120 :: underscore :: s := by
  rw [isSetting, List.isPrefixOf_iff_prefix, show cstr "x_" = [120, underscore] by decide] at h
  obtain ⟨s, rfl⟩ := h
  exact ⟨s, rfl⟩

/-- A key whose second byte is an underscore is always written as a change. -/
theorem argPuts_sw {a : Arg} {q : Put} (hq : q ∈ argPuts w p a)
    (hs : q.key.tail.head? = some underscore) : q.sw = RC_bWRITE := by
  obtain ⟨name, val⟩ := a
  simp only [argPuts] at hq
  split at hq
  · rename_i c d s
    split_ifs at hq with hd
    · simp only [List.mem_cons, List.not_mem_nil, or_false] at hq
      rcases hq with rfl | rfl <;> rfl
    · simp at hq
    · simp only [List.mem_cons, List.not_mem_nil, or_false] at hq
      rcases hq with rfl | rfl <;> rfl
    · rw [List.mem_singleton.mp hq]
    · rw [List.mem_singleton.mp hq] at hs
      exact absurd (Option.some.inj hs) hd
  · rename_i hshort
    rw [List.mem_singleton.mp hq] at hs
    cases name with
    | nil => cases hs
    | cons c s =>
      cases s with
      | nil => cases hs
      | cons d s => exact absurd rfl (hshort c d s)

theorem requestPuts_sw (hqs : requestPuts w f p0 args = some qs) :
    ∀ q ∈ qs, q.key.tail.head? = some underscore → q.sw = RC_bWRITE := by
  obtain ⟨qs', hconf, rfl⟩ := Option.map_eq_some_iff.mp hqs
  intro q hq hs
  rcases List.mem_append.mp hq with hq | hq
  · exact confPuts_sw hconf q hq
  · exact argsPuts_induct (P := fun q ↦ q.key.tail.head? = some underscore → q.sw = RC_bWRITE)
      (fun a _ p q hq hs ↦ argPuts_sw hq hs) q hq hs

/-! ## A key and its history -/

/-- The values that are written under a key, in order. -/
def written (k : Bytes) (qs : List Put) : List Bytes :=
  (qs.filter fun q ↦ decide (q.key = k)).map Put.val

/-- The value after some writes. -/
def lastVal (base : Option Bytes) (h : List Bytes) : Option Bytes := h.getLast?.or base

@[simp] theorem lastVal_nil (base : Option Bytes) : lastVal base [] = base := rfl

@[simp] theorem lastVal_concat (base : Option Bytes) (h : List Bytes) (v : Bytes) :
    lastVal base (h ++ [v]) = some v := by
  simp [lastVal]

theorem map_val_foldl (qs : List Put) (o : Option Entry) :
    (qs.foldl (fun o q ↦ some (putEntry q.key q.val q.sw o)) o).map Entry.val
      = lastVal (o.map Entry.val) (qs.map Put.val) := by
  rcases List.eq_nil_or_concat qs with rfl | ⟨qs, q, rfl⟩
  · rfl
  · simp

theorem stored_foldl (hk : k ≠ []) (qs : List Put) (p : Proc) :
    stored k (qs.foldl Put.run p) = lastVal (stored k p) (written k qs) := by
  rw [stored, getvalp_foldl hk, map_val_foldl]
  rfl

/-- The last write of a key changed its value. -/
def ChangedLast (p0 : Proc) (qs : List Put) (k : Bytes) : Prop :=
  lastVal (stored k p0) (written k qs) ≠ lastVal (stored k p0) (written k qs).dropLast

/-- The writes leave another value than there was. -/
def Changed (p0 : Proc) (qs : List Put) (k : Bytes) : Prop :=
  lastVal (stored k p0) (written k qs) ≠ stored k p0

/-- **The flag of an entry says whether its last write changed it.** -/
theorem flag_foldl (p0 : Proc) (qs : List Put) (hk : k ≠ [])
    (hsw : ∀ q ∈ qs, q.key = k → q.sw = RC_bWRITE) (h0 : ∀ e ∈ getvalp k p0, e.flag = 0) :
    (∀ e ∈ getvalp k (qs.foldl Put.run p0), e.flag = 0 ∨ e.flag = 1 ∨ e.flag = 3) ∧
      ((∃ e ∈ getvalp k (qs.foldl Put.run p0), e.flag = 3) ↔ ChangedLast p0 qs k) := by
  rw [getvalp_foldl hk, ChangedLast, written]
  rcases List.eq_nil_or_concat (qs.filter fun q : Put ↦ decide (q.key = k)) with h | ⟨init, q, h⟩
  · rw [h, List.foldl_nil]
    refine ⟨fun e he ↦ .inl (h0 e he), ?_⟩
    simp only [List.map_nil, List.dropLast_nil, ne_eq, not_true_eq_false, iff_false]
    rintro ⟨e, he, hflag⟩
    rw [h0 e he] at hflag
    exact absurd hflag (by decide)
  · have hq : q ∈ qs ∧ q.key = k := by
      have hmem : q ∈ qs.filter fun q : Put ↦ decide (q.key = k) := by simp [h]
      simpa using List.mem_filter.mp hmem
    have hbefore := map_val_foldl init (getvalp k p0)
    rw [h, List.concat_eq_append, List.foldl_concat, List.map_append, List.map_singleton,
      List.dropLast_concat, lastVal_concat]
    set o := init.foldl (fun o q ↦ some (putEntry q.key q.val q.sw o)) (getvalp k p0)
    have hflag : (putEntry q.key q.val q.sw o).flag
        = newFlag RC_bWRITE (if o.map Entry.val = some q.val then 0 else RC_bUPDATE) := by
      rw [flag_putEntry, hsw q hq.1 hq.2]
    rw [stored, ← hbefore]
    simp only [Option.mem_def, Option.some.injEq, forall_eq', exists_eq_left']
    rw [hflag]
    by_cases hv : o.map Entry.val = some q.val
    · rw [if_pos hv, hv]
      exact ⟨.inr (.inl (by decide)), by simp [newFlag]⟩
    · rw [if_neg hv]
      exact ⟨.inr (.inr (by decide)), by simp [newFlag, Ne.symm hv]⟩

/-! ## What `is_updateval` finds -/

/-- Merging the flags of an entry that has no update bit without the write bit. -/
theorem merge_flag {ret flag : BitVec 32} (hret : ret = 0 ∨ ret = 1 ∨ ret = 3)
    (hflag : flag = 0 ∨ flag = 1 ∨ flag = 3) :
    (flag &&& RC_bNULL == 0) = true ∧
      (ret ||| (flag &&& (RC_bWRITE ||| RC_bUPDATE)) = 0 ∨
        ret ||| (flag &&& (RC_bWRITE ||| RC_bUPDATE)) = 1 ∨
        ret ||| (flag &&& (RC_bWRITE ||| RC_bUPDATE)) = 3) ∧
      (ret ||| (flag &&& (RC_bWRITE ||| RC_bUPDATE)) = 3 ↔ ret = 3 ∨ flag = 3) := by
  rcases hret with rfl | rfl | rfl <;> rcases hflag with rfl | rfl | rfl <;> decide

/-- `is_updateval` looks for one entry with both bits, if no entry has the update bit alone. -/
theorem isUpdateval_eq_3_iff {env : List Entry}
    (h : ∀ e ∈ env, isSetting e.key = true → e.flag = 0 ∨ e.flag = 1 ∨ e.flag = 3) :
    isUpdateval env = 3 ↔ ∃ e ∈ env, isSetting e.key = true ∧ e.flag = 3 := by
  have key : ∀ (env : List Entry) (ret : BitVec 32), ret = 0 ∨ ret = 1 ∨ ret = 3 →
      (∀ e ∈ env, isSetting e.key = true → e.flag = 0 ∨ e.flag = 1 ∨ e.flag = 3) →
      (env.foldl (fun ret e ↦
        if (cstr "x_").isPrefixOf e.key && (e.flag &&& RC_bNULL == 0)
        then ret ||| (e.flag &&& (RC_bWRITE ||| RC_bUPDATE)) else ret) ret = 3 ↔
        ret = 3 ∨ ∃ e ∈ env, isSetting e.key = true ∧ e.flag = 3) := by
    intro env
    induction env with
    | nil => simp
    | cons e env ih =>
      intro ret hret h
      rw [List.foldl_cons, List.exists_mem_cons_iff, ← or_assoc]
      rw [List.forall_mem_cons] at h
      by_cases hs : isSetting e.key = true
      · obtain ⟨h1, h2, h3⟩ := merge_flag hret (h.1 hs)
        rw [show (cstr "x_").isPrefixOf e.key = true from hs, h1, Bool.and_self, if_pos rfl,
          ih _ h2 h.2, h3]
        simp only [hs, true_and]
      · rw [show (cstr "x_").isPrefixOf e.key = false from Bool.eq_false_iff.mpr hs,
          Bool.false_and, if_neg Bool.false_ne_true, ih ret hret h.2]
        simp [hs]
  rw [isUpdateval, key env 0 (.inl rfl) h]
  exact or_iff_right (by decide)

/-- What has been read without the write bit has no flag. -/
theorem readConfSub_flag_zero {file : Bytes} {p' : Proc} (h : readConfSub w 0 file p = some p')
    (hp : ∀ e ∈ p.env, e.flag = 0) : ∀ e ∈ p'.env, e.flag = 0 := by
  refine readConfSub_induct (P := fun p ↦ ∀ e ∈ p.env, e.flag = 0)
    (fun p buf k v hp _ _ e he ↦ ?_) h hp
  rcases mem_putval he with he | ⟨o, rfl⟩
  · exact hp e he
  · rw [flag_putEntry, newFlag, if_neg (by decide)]

theorem readConfSub_wf {sw : BitVec 32} {file : Bytes} {p' : Proc}
    (h : readConfSub w sw file p = some p') (hp : p.WF) : p'.WF :=
  readConfSub_induct (P := Proc.WF) (fun _ _ k v hp _ _ ↦ hp.putval k v sw) h hp

theorem readSaved_flag_zero (h : readSaved w f environ = some p0) : ∀ e ∈ p0.env, e.flag = 0 := by
  obtain ⟨p1, h1, h2⟩ := Option.bind_eq_some_iff.mp h
  exact readConfSub_flag_zero h2 (readConfSub_flag_zero h1 (by simp))

theorem readSaved_wf (h : readSaved w f environ = some p0) : p0.WF := by
  obtain ⟨p1, h1, h2⟩ := Option.bind_eq_some_iff.mp h
  exact readConfSub_wf h2 (readConfSub_wf h1 (wf_nil _))

theorem Proc.WF.foldl (h : p.WF) (qs : List Put) : (qs.foldl Put.run p).WF :=
  h.edits (F := ⟨fun _ ↦ True, fun _ ↦ False, fun _ ↦ False⟩) (edits_puts (fun _ _ ↦ trivial) p)

/-- **The flag is up if the last write of some setting changed it.** -/
theorem isUpdateval_foldl (h0 : readSaved w f environ = some p0)
    (hsw : ∀ q ∈ qs, q.key.tail.head? = some underscore → q.sw = RC_bWRITE) :
    isUpdateval (qs.foldl Put.run p0).env = 3 ↔
      ∃ k, isSetting k = true ∧ ChangedLast p0 qs k := by
  have hwf := (readSaved_wf h0).foldl qs
  have hkey : ∀ k, isSetting k = true → _ := fun k hk ↦
    flag_foldl p0 qs (ne_nil_of_isSetting hk)
      (fun q hq he ↦ hsw q hq (by
        obtain ⟨s, rfl⟩ := exists_of_isSetting hk
        rw [he]
        rfl))
      (fun e he ↦ readSaved_flag_zero h0 e (Keyed.mem_of_find _ he))
  rw [isUpdateval_eq_3_iff fun e he hs ↦ (hkey e.key hs).1 e (hwf.getvalp_eq he)]
  constructor
  · rintro ⟨e, he, hs, hflag⟩
    exact ⟨e.key, hs, (hkey e.key hs).2.mp ⟨e, hwf.getvalp_eq he, hflag⟩⟩
  · rintro ⟨k, hs, hc⟩
    obtain ⟨e, he, hflag⟩ := (hkey k hs).2.mpr hc
    exact ⟨e, Keyed.mem_of_find _ he, Keyed.key_of_find Entry.key he ▸ hs, hflag⟩

/-! ## Where the flag is exact -/

/-- The flag is up exactly if some setting that is going to be saved differs from what is saved. -/
def PendingExact (w : World) (f : Files) (environ : Bytes → Option Bytes) (args : List Arg) :
    Prop :=
  ∀ p0 p, readSaved w f environ = some p0 → readConf w f environ = some p →
    (isUpdateval (getargs w p args).env = 3 ↔
      ∃ k, persistKey k = true ∧ stored k (getargs w p args) ≠ stored k p0)

/-- The last two writes of a key agree, and not with what is saved. -/
def Repeated (p0 : Proc) (qs : List Put) (k : Bytes) : Prop :=
  ∃ h v, written k qs = h ++ [v] ∧ h.getLast? = some v ∧ stored k p0 ≠ some v

/-- The last write of a key brings its saved value back. -/
def Restored (p0 : Proc) (qs : List Put) (k : Bytes) : Prop :=
  ∃ h u v, written k qs = h ++ [v] ∧ h.getLast? = some u ∧ u ≠ v ∧ stored k p0 = some v

/-- A repeated setting, and no other one with its bit. -/
def Missed (p0 : Proc) (qs : List Put) : Prop :=
  (∃ k, persistKey k = true ∧ Repeated p0 qs k) ∧ ∀ k, isSetting k = true → ¬ ChangedLast p0 qs k

/-- A setting that is restored, or never saved and just changed, and nothing else to save. -/
def Spurious (p0 : Proc) (qs : List Put) : Prop :=
  (∃ k, isSetting k = true ∧
    (persistKey k = false ∧ ChangedLast p0 qs k ∨ persistKey k = true ∧ Restored p0 qs k)) ∧
    ∀ k, persistKey k = true → ¬ Changed p0 qs k

theorem repeated_iff : Repeated p0 qs k ↔ Changed p0 qs k ∧ ¬ ChangedLast p0 qs k := by
  rw [Repeated, Changed, ChangedLast]
  rcases List.eq_nil_or_concat (written k qs) with h | ⟨h, v, hw⟩
  · simp [h]
  · rw [hw]
    simp only [List.concat_eq_append, lastVal_concat, List.dropLast_concat, not_not, ne_eq]
    constructor
    · rintro ⟨h', v', he, hlast, hne⟩
      obtain ⟨rfl, hv⟩ := List.append_inj' he rfl
      cases hv
      exact ⟨Ne.symm hne, by rw [lastVal, hlast, Option.some_or]⟩
    · rintro ⟨hne, hlast⟩
      refine ⟨h, v, rfl, ?_, Ne.symm hne⟩
      cases hh : h.getLast? with
      | none => exact absurd (by rw [hlast, lastVal, hh, Option.none_or]) hne
      | some u => rw [hlast, lastVal, hh, Option.some_or]

theorem restored_iff : Restored p0 qs k ↔ ChangedLast p0 qs k ∧ ¬ Changed p0 qs k := by
  rw [Restored, Changed, ChangedLast]
  rcases List.eq_nil_or_concat (written k qs) with h | ⟨h, v, hw⟩
  · simp [h]
  · rw [hw]
    simp only [List.concat_eq_append, lastVal_concat, List.dropLast_concat, not_not, ne_eq]
    constructor
    · rintro ⟨h', u, v', he, hlast, hne, hbase⟩
      obtain ⟨rfl, hv⟩ := List.append_inj' he rfl
      cases hv
      rw [lastVal, hlast, Option.some_or]
      exact ⟨fun e ↦ hne (Option.some.inj e).symm, hbase.symm⟩
    · rintro ⟨hne, hbase⟩
      cases hh : h.getLast? with
      | none => exact absurd (by rw [lastVal, hh, Option.none_or, hbase]) hne
      | some u =>
        refine ⟨h, u, v, rfl, hh, fun e ↦ hne ?_, hbase.symm⟩
        rw [lastVal, hh, Option.some_or, e]

/-- **The flag is exact if no repeated setting is missed and no restored or unsaved one is alone.**
-/
theorem pendingExact_iff (h0 : readSaved w f environ = some p0)
    (hqs : requestPuts w f p0 args = some qs) :
    PendingExact w f environ args ↔ ¬ Missed p0 qs ∧ ¬ Spurious p0 qs := by
  obtain ⟨p, hp, hstore⟩ := getargs_eq_foldl h0 hqs
  have hflag := isUpdateval_foldl h0 (requestPuts_sw hqs)
  have hchanged : (∃ k, persistKey k = true ∧ stored k (qs.foldl Put.run p0) ≠ stored k p0) ↔
      ∃ k, persistKey k = true ∧ Changed p0 qs k :=
    exists_congr fun k ↦ and_congr_right fun hk ↦ by
      rw [stored_foldl (ne_nil_of_isSetting (isSetting_of_persistKey hk)), Changed]
  have hexact : PendingExact w f environ args ↔
      ((∃ k, isSetting k = true ∧ ChangedLast p0 qs k) ↔
        ∃ k, persistKey k = true ∧ Changed p0 qs k) := by
    rw [← hflag, ← hchanged, ← hstore]
    refine ⟨fun h ↦ h p0 p h0 hp, fun h p0' p' h0' hp' ↦ ?_⟩
    cases h0.symm.trans h0'
    cases hp.symm.trans hp'
    exact h
  rw [hexact]
  constructor
  · refine fun h ↦ ⟨fun hm ↦ ?_, fun hs ↦ ?_⟩
    · obtain ⟨⟨k, hk, hrep⟩, hnone⟩ := hm
      obtain ⟨k', hk', hc⟩ := h.mpr ⟨k, hk, (repeated_iff.mp hrep).1⟩
      exact hnone k' hk' hc
    · obtain ⟨⟨k, hk, hlast⟩, hnone⟩ := hs
      have hc : ChangedLast p0 qs k :=
        hlast.elim (fun h ↦ h.2) fun h ↦ (restored_iff.mp h.2).1
      obtain ⟨k', hk', hc⟩ := h.mp ⟨k, hk, hc⟩
      exact hnone k' hk' hc
  · rintro ⟨hmiss, hspur⟩
    constructor
    · rintro ⟨k, hk, hlast⟩
      by_contra hnone
      push Not at hnone
      refine hspur ⟨⟨k, hk, ?_⟩, hnone⟩
      cases hpk : persistKey k with
      | false => exact .inl ⟨rfl, hlast⟩
      | true => exact .inr ⟨rfl, restored_iff.mpr ⟨hlast, hnone k hpk⟩⟩
    · rintro ⟨k, hk, hc⟩
      by_contra hnone
      push Not at hnone
      exact hmiss ⟨⟨k, hk,
        repeated_iff.mpr ⟨hc, hnone k (isSetting_of_persistKey hk)⟩⟩, hnone⟩

/-! ## A visit and a repetition -/

/-- Only a key that is written can change. -/
theorem mem_keys_of_changed (h : Changed p0 qs k) : k ∈ qs.map Put.key := by
  by_contra hk
  refine h ?_
  have hnone : (qs.filter fun q : Put ↦ decide (q.key = k)) = [] :=
    List.filter_eq_nil_iff.mpr fun q hq he ↦
      hk (List.mem_map.mpr ⟨q, hq, of_decide_eq_true he⟩)
  rw [written, hnone, List.map_nil, lastVal_nil]

/-- The environment of a request from the inside, without a query string. -/
abbrev insideEnv : Bytes → Option Bytes := serverEnv insideAddr (cstr "880")

theorem exists_readSaved_box : ∃ p0, readSaved World.box boxFiles insideEnv = some p0 :=
  Option.isSome_iff_exists.mp (by decide +kernel)

/-- The arguments of a visit to the first page. -/
def visitArgs : List Arg :=
  [(cstr "i_login", cstr "admin"), (cstr "i_passwd", cstr "system"), (cstr "op", cstr "system")]

/-- What they write. -/
def visitPuts : List Put :=
  [⟨cstr "i_login", cstr "admin", 1⟩, ⟨cstr "x_login", cstr "admin", 1⟩,
    ⟨cstr "i_passwd", cstr "system", 1⟩, ⟨cstr "x_passwd", cstr "system", 1⟩,
    ⟨cstr "op", cstr "system", 0⟩]

theorem requestPuts_visitArgs (p0 : Proc) :
    requestPuts World.box boxFiles p0 visitArgs = some visitPuts :=
  rfl

theorem pendingExact_visit : ∃ p0, readSaved World.box boxFiles insideEnv = some p0 ∧
    (PendingExact World.box boxFiles insideEnv visitArgs ↔
      ¬ Missed p0 visitPuts ∧ ¬ Spurious p0 visitPuts) := by
  obtain ⟨p0, h0⟩ := exists_readSaved_box
  exact ⟨p0, h0, pendingExact_iff h0 (requestPuts_visitArgs p0)⟩

/-- The arguments of a form that is posted twice over. -/
def twiceArgs : List Arg :=
  [(cstr "i_hostname", cstr "blocks"), (cstr "i_hostname", cstr "blocks")]

/-- Just logging in puts the flag up, with nothing to save; and a repeated change does not. -/
theorem visit_not_pendingExact :
    decodeArgs (loginArgs ++ cstr "op=system") [] = some visitArgs ∧
    ¬ PendingExact World.box boxFiles insideEnv visitArgs ∧
    decodeArgs (cstr "i_hostname=blocks&i_hostname=blocks") [] = some twiceArgs ∧
    ¬ PendingExact World.box boxFiles insideEnv twiceArgs := by
  obtain ⟨p0, h0⟩ := exists_readSaved_box
  have hp : readConf World.box boxFiles insideEnv = some p0 := by
    rw [readConf, h0, Option.bind_some]
    rfl
  refine ⟨by decide +kernel, fun h ↦ ?_, by decide +kernel, fun h ↦ ?_⟩
  · have hflag : (readConf World.box boxFiles insideEnv).map (fun p ↦
        isUpdateval (getargs World.box p visitArgs).env) = some 3 := by decide +kernel
    rw [hp, Option.map_some, Option.some_inj] at hflag
    obtain ⟨k, hk, hne⟩ := (h p0 p0 h0 hp).mp hflag
    obtain ⟨p', hp', hstore⟩ := getargs_eq_foldl h0 (requestPuts_visitArgs p0)
    cases hp.symm.trans hp'
    rw [hstore, stored_foldl (ne_nil_of_isSetting (isSetting_of_persistKey hk))] at hne
    have hnone : ∀ k ∈ visitPuts.map Put.key, persistKey k = false := by decide
    exact absurd hk (by simp [hnone k (mem_keys_of_changed hne)])
  · have hval : (readConf World.box boxFiles insideEnv).map (fun p ↦
        (isUpdateval (getargs World.box p twiceArgs).env,
          stored (cstr "x_hostname") (getargs World.box p twiceArgs),
          stored (cstr "x_hostname") p)) = some (1, some (cstr "blocks"), none) := by
      decide +kernel
    rw [hp, Option.map_some, Option.some_inj, Prod.mk.injEq, Prod.mk.injEq] at hval
    obtain ⟨h1, h2, h3⟩ := hval
    have hflag := (h p0 p0 h0 hp).mpr
      ⟨cstr "x_hostname", by decide, by rw [h2, h3]; exact Option.some_ne_none _⟩
    rw [h1] at hflag
    exact absurd hflag (by decide)

end Setup
