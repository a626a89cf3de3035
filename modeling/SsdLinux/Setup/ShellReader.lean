import SsdLinux.CLib.Source
import SsdLinux.Setup.Valtab

/-!
# The other reader of `openblocks.conf`

At boot time `netstart.local` sources the saved configuration: what `write_conf` prints is read by a
shell as well as by `read_conf_sub`.  The two have different ideas of a quoted text.  A shell runs a
command between backquotes, keeps a backslash before an ordinary byte, takes a newline literally and
has no limit on the length; `qatom` takes a backquote literally, drops every backslash, and is cut
at the newline and at 255 bytes; and `getval` answers six of the keys from the clock.

They agree on `Shell.Reads`: ordinary bytes, protected special bytes and references to settings that
stand earlier in the file.  `shellAgrees_of_shared` is the resulting theorem for whole files, and
`backquoteEnv_runs` a value that `is_unixpath` accepts and the shell executes.
-/

set_option autoImplicit false

namespace Setup

open CLib Shell

variable {w : World} {p : Proc}

/-! ## One value -/

/-- `qatom` reads shared text as what it stands for. -/
theorem qatom_reads {vars : Vars} (hvars : ∀ k v, vars k = some v → getval w k p = some v)
    {s t : Bytes} (h : Reads vars s t) (r : Bytes) :
    qatom w p (s ++ dquote :: r) = some (t, dquote :: r) := by
  induction h with
  | nil => exact qatom_dquote r
  | literal hc _ _ ih =>
    simp only [dqSpecials, List.mem_cons, List.not_mem_nil, or_false, not_or] at hc
    rw [List.cons_append, qatom_other hc.2.2.1 hc.2.1 hc.1, ih, Option.map_some]
  | escape _ _ ih =>
    rw [List.cons_append, List.cons_append, qatom_backslash, ih, Option.map_some]
  | @ref name v s t hn hv hs _ ih =>
    have hr : ∀ c ∈ (s ++ dquote :: r).head?, nameChar c = false := by
      cases s with
      | nil => exact fun c hc ↦ by cases hc; decide
      | cons d s => exact hs
    rw [List.cons_append, List.append_assoc, qatom_dollar, val_name hn.ne_nil hn.chars hr,
      hvars _ _ hv, ih, Option.map_some, Option.getD_some]
  | @bref name v s t hn hv _ ih =>
    have hline : dollar :: lbrace :: (name ++ rbrace :: s) ++ dquote :: r
        = dollar :: lbrace :: (name ++ rbrace :: (s ++ dquote :: r)) := by simp
    rw [hline, qatom_dollar, val_braced hn.ne_nil hn.chars, hvars _ _ hv, ih, Option.map_some,
      Option.getD_some]

theorem readVal_reads {vars : Vars} (hvars : ∀ k v, vars k = some v → getval w k p = some v)
    {s t : Bytes} (h : Reads vars s t) (ht : t.length < tokenSize) : readVal w p s = some t := by
  rw [readVal, tToken, List.cons_append, token_quoted, qatom_reads hvars h, Option.map_some,
    Option.map_some, Option.map_some]
  simp only [if_pos]
  rw [List.take_of_length_le (Nat.le_sub_one_of_lt ht)]

/-! ## Both readers at work -/

/-- A list of settings that both readers understand, each with the settings before it. -/
inductive SharedText : Vars → List (Bytes × Bytes) → Vars → Prop
  | nil (vars : Vars) : SharedText vars [] vars
  | cons {vars vars' : Vars} {key s t : Bytes} {kvs : List (Bytes × Bytes)}
      (hk : key ∉ clockKeys) (hs : Reads vars s t) (ht : t.length < tokenSize)
      (hl : (confLine key s).length < lineSize)
      (h : SharedText (Function.update vars key (some t)) kvs vars') :
      SharedText vars ((key, s) :: kvs) vars'

/-- What both readers have read so far: the variables `vars` on the one side, and the settings of
the store on the other. -/
structure Agree (vars : Vars) (p : Proc) : Prop where
  get : ∀ k v, vars k = some v → k ∉ clockKeys ∧ stored k p = some v

theorem Agree.getval {vars : Vars} (h : Agree vars p) {k v : Bytes} (hv : vars k = some v) :
    getval w k p = some v := by
  rw [getval_eq (h.get k v hv).1]
  exact (h.get k v hv).2

theorem Agree.putval {vars : Vars} (h : Agree vars p) {key : Bytes} (hne : key ≠ [])
    (hk : key ∉ clockKeys) (t : Bytes) (sw : BitVec 32) :
    Agree (Function.update vars key (some t)) (Setup.putval key t sw p) := by
  refine ⟨fun k v hv ↦ ?_⟩
  by_cases he : k = key
  · subst he
    rw [Function.update_self] at hv
    exact ⟨hk, hv ▸ stored_putval_self hne t sw p⟩
  · rw [Function.update_of_ne he] at hv
    rw [stored_putval_ne he]
    exact h.get k v hv

/-- `read_conf_sub` reads such settings as the shell does. -/
theorem readVals_shared {vars vars' : Vars} {kvs : List (Bytes × Bytes)} (sw : BitVec 32)
    (h : SharedText vars kvs vars') (hkey : ∀ kv ∈ kvs, kv.1 ≠ []) (hp : Agree vars p) :
    ∃ p', kvs.foldlM (fun p kv ↦ (readVal w p kv.2).map fun v ↦ putval kv.1 v sw p) p = some p' ∧
      Agree vars' p' := by
  induction h generalizing p with
  | nil => exact ⟨p, rfl, hp⟩
  | cons hk hs ht _ _ ih =>
    rw [List.foldlM_cons, readVal_reads (fun k v hv ↦ hp.getval hv) hs ht, Option.map_some]
    exact ih (fun kv hkv ↦ hkey kv (List.mem_cons_of_mem _ hkv))
      (hp.putval (hkey _ List.mem_cons_self) hk _ sw)

/-- The variables of the shell that are not settings stay in the background. -/
theorem reads_mono {vars vars' : Vars} (hle : ∀ k v, vars k = some v → vars' k = some v)
    {s t : Bytes} (h : Reads vars s t) : Reads vars' s t := by
  induction h with
  | nil => exact .nil
  | literal hc hnl _ ih => exact .literal hc hnl ih
  | escape hc _ ih => exact .escape hc ih
  | ref hn hv hs _ ih => exact .ref hn (hle _ _ hv) hs ih
  | bref hn hv _ ih => exact .bref hn (hle _ _ hv) ih

/-- The shell reads such settings from a file. -/
theorem sourceGo_shared {vars vars' : Vars} {kvs : List (Bytes × Bytes)}
    (h : SharedText vars kvs vars') (hkey : ∀ kv ∈ kvs, IsName kv.1) (sh : Vars)
    (hle : ∀ k v, vars k = some v → sh k = some v) (rest : Bytes) :
    ∃ sh' : Vars, (∀ k v, vars' k = some v → sh' k = some v) ∧
      ∀ n, sourceGo (n + 2 * kvs.length) sh ((kvs.map fun kv ↦ confLine kv.1 kv.2).flatten ++ rest)
        = sourceGo n sh' rest := by
  induction h generalizing sh with
  | nil => exact ⟨sh, hle, fun n ↦ rfl⟩
  | @cons vars vars' key s t kvs hk hs ht hl _ ih =>
    obtain ⟨sh', hle', hread⟩ := ih (fun kv hkv ↦ hkey kv (List.mem_cons_of_mem _ hkv))
      (Function.update sh key (some t)) fun k v hv ↦ by
        by_cases he : k = key
        · subst he
          rwa [Function.update_self] at hv ⊢
        · rw [Function.update_of_ne he] at hv ⊢
          exact hle k v hv
    refine ⟨sh', hle', fun n ↦ ?_⟩
    rw [List.map_cons, List.flatten_cons, List.append_assoc, List.length_cons,
      show n + 2 * (kvs.length + 1) = n + 2 * kvs.length + 2 by omega, confLine,
      sourceGo_assign (hkey _ List.mem_cons_self) (reads_mono hle hs), hread]

/-! ## Whole files -/

/-- The two readers agree on what `write_conf` prints: sourcing it runs no command, and leaves every
setting in the variable of its name, with the value `getval` finds after `read_conf_sub`. -/
def ShellAgrees (w : World) (env : List Entry) (environ : Bytes → Option Bytes) (sh : Vars) :
    Prop :=
  ∃ p sh', readConfSub w 0 (writeConf env) ⟨[], environ⟩ = some p ∧
    source sh (writeConf env) = .ok sh' ∧ ∀ e ∈ persisted env, sh' e.key = getval w e.key p

theorem sharedText_get {vars vars' : Vars} {kvs : List (Bytes × Bytes)}
    (h : SharedText vars kvs vars') (k : Bytes) (hk : vars k ≠ none ∨ k ∈ kvs.map Prod.fst) :
    vars' k ≠ none := by
  induction h with
  | nil => simpa using hk
  | @cons vars vars' key s t kvs _ _ _ _ _ ih =>
    refine ih ?_
    by_cases he : k = key
    · subst he
      exact .inl (by simp)
    · rw [Function.update_of_ne he]
      simpa [he] using hk

theorem isName_of_persistable {e : Entry} (he : e.persistable = true)
    (hatom : ∀ c ∈ e.key, isAtom c = true) : IsName e.key := by
  simp only [Entry.persistable, Bool.and_eq_true, List.isPrefixOf_iff_prefix] at he
  obtain ⟨r, hr⟩ := he.1.1
  have hkey : e.key = 120 :: underscore :: r := hr.symm
  refine ⟨fun c hc ↦ ?_, by simp [hkey], hatom⟩
  rw [hkey] at hc
  cases hc
  decide

/-- **The two readers agree on every file of settings that both understand.** -/
theorem shellAgrees_of_shared {env : List Entry} {environ : Bytes → Option Bytes} {sh vars : Vars}
    (hatom : ∀ e ∈ persisted env, ∀ c ∈ e.key, isAtom c = true)
    (hlen : ∀ e ∈ persisted env, e.key.length < tokenSize)
    (hshared : SharedText (fun _ ↦ none) (persistedVals env) vars) :
    ShellAgrees w env environ sh := by
  have hname : ∀ e ∈ persisted env, IsName e.key := fun e he ↦
    isName_of_persistable (List.mem_filter.mp he).2 (hatom e he)
  have hkv : ∀ kv ∈ persistedVals env, IsName kv.1 := fun kv hkv ↦ by
    obtain ⟨e, he, rfl⟩ := List.mem_map.mp hkv
    exact hname e he
  -- the line of every entry is a line of the file
  have hline : ∀ {vars vars' : Vars} {kvs : List (Bytes × Bytes)}, SharedText vars kvs vars' →
      ∀ kv ∈ kvs, nl ∉ kv.2 ∧ (confLine kv.1 kv.2).length < lineSize := by
    intro vars vars' kvs h
    induction h with
    | nil => simp
    | cons _ hs _ hl _ ih => exact List.forall_mem_cons.mpr ⟨⟨nl_not_mem_reads hs, hl⟩, ih⟩
  have htext : ConfText (writeConf env) (persistedVals env) :=
    confText_writeConf (fun e he ↦ ⟨(hname e he).ne_nil, hatom e he, hlen e he⟩)
      fun e he ↦ hline hshared (e.key, e.val) (List.mem_map_of_mem he)
  obtain ⟨p, hp, hagree⟩ := readVals_shared (w := w) (p := ⟨[], environ⟩) 0 hshared
    (fun kv h ↦ (hkv kv h).ne_nil) ⟨fun _ _ h ↦ by cases h⟩
  obtain ⟨sh', hle, hsource⟩ := sourceGo_shared hshared hkv sh (fun _ _ h ↦ by cases h)
    (confFoot (persisted env).length env.length)
  refine ⟨p, sh', by rw [readConfSub_confText htext, hp], ?_, fun e he ↦ ?_⟩
  · have hlines : ((persisted env).map fun e ↦ confLine e.key e.val)
        = (persistedVals env).map fun kv ↦ confLine kv.1 kv.2 := by
      simp [persistedVals, Function.comp_def]
    have hhead : confHead = hash :: cstr " OpenBlockS Auto config" ++ nl :: [] := by decide
    have hfile : writeConf env = hash :: cstr " OpenBlockS Auto config" ++ nl ::
        (((persistedVals env).map fun kv ↦ confLine kv.1 kv.2).flatten
          ++ confFoot (persisted env).length env.length) := by
      rw [writeConf, hlines, hhead]
      simp
    obtain ⟨foot, hfoot, hnl⟩ : ∃ foot, confFoot (persisted env).length env.length
        = hash :: foot ++ nl :: [] ∧ nl ∉ foot := confFoot_eq _ _
    have hcount : 2 * (persistedVals env).length
        ≤ ((persistedVals env).map fun kv ↦ confLine kv.1 kv.2).flatten.length := by
      induction persistedVals env with
      | nil => simp
      | cons kv kvs ih =>
        rw [List.map_cons, List.flatten_cons, List.length_append, List.length_cons,
          length_confLine]
        omega
    obtain ⟨m, hm⟩ : ∃ m, (writeConf env).length + 1
        = m + 1 + 2 + 2 * (persistedVals env).length + 2 := by
      refine ⟨(writeConf env).length + 1 - (2 * (persistedVals env).length + 5), ?_⟩
      rw [hfile, hfoot]
      simp only [List.length_append, List.length_cons]
      have h2 : (cstr " OpenBlockS Auto config").length = 23 := by decide
      omega
    rw [source, hm, hfile, sourceGo_comment (by decide), hsource, hfoot, sourceGo_comment hnl,
      sourceGo]
  · have hne := sharedText_get hshared e.key
      (.inr (by simpa [persistedVals] using ⟨e, he, rfl⟩))
    obtain ⟨v, hv⟩ := Option.ne_none_iff_exists'.mp hne
    rw [hle e.key v hv, hagree.getval hv]

/-- Settings with nothing special in them are shared. -/
theorem sharedText_of_plain {kvs : List (Bytes × Bytes)} (vars : Vars)
    (h : ∀ kv ∈ kvs, ConfKey kv.1 ∧ kv.1 ∉ clockKeys ∧ ConfVal kv.2 ∧ backquote ∉ kv.2) :
    ∃ vars', SharedText vars kvs vars' := by
  induction kvs generalizing vars with
  | nil => exact ⟨vars, .nil vars⟩
  | cons kv kvs ih =>
    obtain ⟨key, s⟩ := kv
    obtain ⟨hk, hclock, hv, hb⟩ := h (key, s) List.mem_cons_self
    obtain ⟨vars', hvars⟩ := ih (Function.update vars key (some s))
      fun kv hkv ↦ h kv (List.mem_cons_of_mem _ hkv)
    refine ⟨vars', .cons hclock (reads_literal fun c hc ↦ ⟨fun hm ↦ ?_, ?_⟩) hv.length_lt
      (length_confLine_lt hk hv.length_lt) hvars⟩
    · simp only [dqSpecials, List.mem_cons, List.not_mem_nil, or_false] at hm
      rcases hm with rfl | rfl | rfl | rfl
      exacts [hv.dquote hc, hv.dollar hc, hv.backslash hc, hb hc]
    · exact ne_of_mem_of_not_mem hc hv.nl

/-- Two settings, one of which refers to the other. -/
def refEnv : List Entry :=
  [⟨cstr "x_domainname", cstr "example.jp", 0⟩, ⟨cstr "x_hostname", cstr "blocks.$x_domainname", 0⟩]

theorem refEnv_shared : ∃ vars, SharedText (fun _ ↦ none) (persistedVals refEnv) vars := by
  refine ⟨_, .cons (t := cstr "example.jp") (by decide) (reads_literal (by decide)) (by decide)
    (by decide) (.cons (t := cstr "blocks.example.jp") (by decide) ?_ (by decide) (by decide)
      (.nil _))⟩
  have href : Reads (Function.update (fun _ ↦ none) (cstr "x_domainname")
      (some (cstr "example.jp"))) (dollar :: (cstr "x_domainname" ++ []))
      (cstr "example.jp" ++ []) :=
    .ref ⟨by decide, by decide, by decide⟩ (Function.update_self ..) (by simp) .nil
  exact .literal (by decide) (by decide) (.literal (by decide) (by decide) (.literal (by decide)
    (by decide) (.literal (by decide) (by decide) (.literal (by decide) (by decide)
      (.literal (by decide) (by decide) (.literal (by decide) (by decide) href))))))

theorem refEnv_shellAgrees : ShellAgrees World.bare refEnv (fun _ ↦ none) (fun _ ↦ none) :=
  refEnv_shared.elim fun _ h ↦ shellAgrees_of_shared (by decide) (by decide) h

/-- A directory with a command in its name. -/
def backquoteEnv : List Entry := [⟨cstr "x_httpd_dir", cstr "/home/`reboot`", 0⟩]

/-- `is_unixpath` accepts the backquotes, and the shell runs the command. -/
theorem backquoteEnv_runs :
    (∀ e ∈ persisted backquoteEnv, Accepts World.bare ⟨backquoteEnv, fun _ ↦ none⟩ e.key) ∧
    source (fun _ ↦ none) (writeConf backquoteEnv) = .error (.command (cstr "reboot")) ∧
    ¬ ShellAgrees World.bare backquoteEnv (fun _ ↦ none) (fun _ ↦ none) := by
  have hrun : source (fun _ ↦ none) (writeConf backquoteEnv)
      = .error (.command (cstr "reboot")) := by rfl
  refine ⟨by decide +kernel, hrun, ?_⟩
  rintro ⟨p, sh, -, hsource, -⟩
  rw [hrun] at hsource
  cases hsource

end Setup
