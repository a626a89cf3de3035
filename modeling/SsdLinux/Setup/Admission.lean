import SsdLinux.Setup.Registry
import SsdLinux.Setup.Safe

/-!
# Who is let in, and what is kept to itself

Everybody can send a request, so that the files and the commands are as safe as the way to
`page_setup`.

* `gate_enters_iff` says what a request has to show, to a program that reads the address and the
  port after the arguments have been written into the environment.  `session_admitted` follows from
  it for any sequence of requests: without those that do not show it (`admittedOf`), the files and
  the commands are the same.
* What a request shows, its login, its password and its key, is in the store with the settings, and
  the store is written to a file.  `secrets_unwritten` says that they never are.  The program hides
  them on the way to `page_setup`, and none of its functions writes one of them again.
-/

set_option autoImplicit false

namespace Setup

open CLib

variable {b : Build} {w : World} {r : Request} {f f' : Files} {p : Proc} {args : List Arg}
  {v : Visit} {res : Result} {o : Outcome} {k : Bytes}

/-! ## Admission -/

/-- What a request has to show: with its arguments in the environment, it is addressed to the
interface and the port of the configuration server, and it has the password of root, or a key that
fits its login. -/
structure Admitted (w : World) (p : Proc) : Prop where
  addr : ∃ i, getval w limitKey p = some i ∧ serverAddr w p.environ = some (w.ifAddr i)
  port : serverPort p.environ = some httpdPort
  login : getval3 w (cstr "x_login") p ≠ []
  proof : (getval3 w (cstr "x_passwd") p ≠ [] ∧ ∃ pwdp, w.rootHash = some pwdp ∧
      w.crypt (getval3 w (cstr "x_passwd") p) pwdp = pwdp) ∨
    getval3 w (cstr "x_passwd") p = [] ∧ getval3 w (cstr "x_key") p ≠ [] ∧
      checkKey w (getval3 w (cstr "x_login") p) (getval3 w (cstr "x_key") p) = some true

/-- The access check lets in what came to the interface and the port. -/
theorem not_denied_iff : (∃ view, accessView w p = some view ∧ view.denied w = some false) ↔
    (∃ i, getval w limitKey p = some i ∧ serverAddr w p.environ = some (w.ifAddr i)) ∧
      serverPort p.environ = some httpdPort := by
  constructor
  · rintro ⟨view, hview, hden⟩
    obtain ⟨addr, haddr, hview⟩ := Option.bind_eq_some_iff.1 hview
    obtain ⟨port, hport, rfl⟩ := Option.map_eq_some_iff.1 hview
    obtain ⟨i, hi, hden⟩ := Option.map_eq_some_iff.1 hden
    rw [decide_eq_false_iff_not, not_or, not_not, not_not] at hden
    exact ⟨⟨i, hi, haddr.trans (congrArg some hden.1.symm)⟩, hport.trans (congrArg some hden.2)⟩
  · rintro ⟨⟨i, hi, haddr⟩, hport⟩
    refine ⟨⟨w.ifAddr i, httpdPort, some i⟩, ?_, ?_⟩
    · rw [accessView, haddr, Option.bind_some, hport, Option.map_some, hi]
    · rw [AccessView.denied, Option.map_some]
      simp

/-- The login is good with the password of root, or with a key. -/
theorem auth_okLogin_iff : (∃ q, auth w p = some (.okLogin, q)) ↔
    getval3 w (cstr "x_login") p ≠ [] ∧
      ((getval3 w (cstr "x_passwd") p ≠ [] ∧ ∃ pwdp, w.rootHash = some pwdp ∧
          w.crypt (getval3 w (cstr "x_passwd") p) pwdp = pwdp) ∨
        getval3 w (cstr "x_passwd") p = [] ∧ getval3 w (cstr "x_key") p ≠ [] ∧
          checkKey w (getval3 w (cstr "x_login") p) (getval3 w (cstr "x_key") p) = some true) := by
  simp only [auth]
  split_ifs with hlogin hpasswd hkey
  · simp [hlogin]
  · cases w.rootHash with
    | none => simp [hpasswd]
    | some pwdp =>
      dsimp only
      split_ifs with hcrypt
      · simp [hpasswd, hcrypt]
      · simp [hlogin, hpasswd, not_not.1 hcrypt]
  · rw [not_not] at hpasswd
    cases hcheck : checkKey w (getval3 w (cstr "x_login") p) (getval3 w (cstr "x_key") p) with
    | none => simp [hpasswd]
    | some ok => cases ok <;> simp [hlogin, hpasswd, hkey]
  · rw [not_not] at hpasswd hkey
    simp [hpasswd, hkey]

/-- **What gets to `page_setup` is what is admitted.** -/
theorem gate_enters_iff : (∃ v, gate w p = some (.enter v)) ↔ Admitted w p := by
  have hauth := auth_okLogin_iff (w := w) (p := colorPuts.foldl Put.run p)
  rw [getval3_colors (by decide), getval3_colors (by decide), getval3_colors (by decide)] at hauth
  have hgate : (∃ v, gate w p = some (.enter v)) ↔
      (∃ view, accessView w p = some view ∧ view.denied w = some false) ∧
        ∃ q, auth w (colorPuts.foldl Put.run p) = some (.okLogin, q) := by
    rw [gate]
    cases accessView w p with
    | none => simp
    | some view =>
      dsimp only
      cases hden : view.denied w with
      | none => simp [hden]
      | some denied =>
        cases denied with
        | true => simp [hden]
        | false =>
          cases auth w (colorPuts.foldl Put.run p) with
          | none => simp
          | some x =>
            obtain ⟨stat, q⟩ := x
            cases stat <;> simp [hden]
  rw [hgate, not_denied_iff, hauth]
  exact ⟨fun h ↦ ⟨h.1.1, h.1.2, h.2.1, h.2.2⟩, fun h ↦ ⟨⟨h.addr, h.port⟩, h.login, h.proof⟩⟩

/-- The request is admitted, as the program reads it. -/
def AdmittedAt (w : World) (r : Request) (f : Files) : Prop :=
  ∃ p args, readRequest w r f = some (some (p, args)) ∧ Admitted w (getargs w p args)

theorem admittedAt_iff : AdmittedAt w r f ↔ (visitOf w r f).isSome = true := by
  rw [Option.isSome_iff_exists]
  constructor
  · rintro ⟨p, args, hreq, hadm⟩
    obtain ⟨v, hv⟩ := gate_enters_iff.2 hadm
    exact ⟨(p, args, v), visitOf_of_visits ⟨hreq, hv⟩⟩
  · rintro ⟨⟨p, args, v⟩, h⟩
    have hv := visits_of_visitOf h
    exact ⟨p, args, hv.request, gate_enters_iff.1 ⟨v, hv.gate⟩⟩

instance (w : World) (r : Request) (f : Files) : Decidable (AdmittedAt w r f) :=
  decidable_of_iff _ admittedAt_iff.symm

/-- A sequence of requests, each with the machine at its time: the commands that are run, and the
files in the end. -/
inductive Session (b : Build) : Files → List (World × Request) → List Bytes → Files → Prop
  | nil (f : Files) : Session b f [] [] f
  | cons {f f' : Files} {w : World} {r : Request} {o : Outcome} {rs : List (World × Request)}
      {cmds : List Bytes} (hmain : main b w r f = some o) (h : Session b o.files rs cmds f') :
      Session b f ((w, r) :: rs) (o.cmds ++ cmds) f'

variable {rs : List (World × Request)} {cmds : List Bytes}

theorem exists_main_rule : ∃ o tmp,
    main ⟨false, false⟩ World.box ruleRequest shippedFiles = some o ∧ o.files.tmp = some tmp := by
  have hrule : (main ⟨false, false⟩ World.box ruleRequest shippedFiles).any
      (fun o ↦ o.files.tmp.isSome) = true := by decide +kernel
  obtain ⟨o, ho, htmp⟩ := (Option.any_eq_true ..).1 hrule
  obtain ⟨tmp, htmp⟩ := Option.isSome_iff_exists.1 htmp
  exact ⟨o, tmp, ho, htmp⟩

/-- An entry under this key is not written out. -/
def Hidden (k : Bytes) (p : Proc) : Prop := ∀ e ∈ getvalp k p, e.flag &&& RC_bNULL ≠ 0

theorem null_of_or (flag : BitVec 32) : (flag ||| RC_bNULL) &&& RC_bNULL ≠ 0 := by
  rw [BitVec.and_comm, BitVec.or_comm]
  intro h
  have hbit := congrArg (fun x : BitVec 32 ↦ x.getLsbD 2) h
  simp at hbit

theorem hidden_setvalflag (k : Bytes) (p : Proc) : Hidden k (setvalflag k RC_bNULL p) := by
  intro e he
  rw [getvalp_setvalflag, if_pos rfl] at he
  obtain ⟨e', -, rfl⟩ := Option.map_eq_some_iff.1 he
  exact null_of_or _

theorem Hidden.setvalflag (h : Hidden k p) (k' : Bytes) :
    Hidden k (setvalflag k' RC_bNULL p) := by
  by_cases hk : k = k'
  · exact hk ▸ hidden_setvalflag k p
  · intro e he
    rw [getvalp_setvalflag, if_neg hk] at he
    exact h e he

theorem Hidden.putval_ne (h : Hidden k p) {key : Bytes} (hk : k ≠ key) (val : Bytes)
    (sw : BitVec 32) : Hidden k (putval key val sw p) := by
  intro e he
  rw [getvalp_putval_ne hk] at he
  exact h e he

/-- The login leaves the key hidden, also when it makes a new one. -/
theorem hidden_of_auth {stat : LoginStat} {q : Proc} (h : auth w p = some (stat, q)) :
    Hidden (cstr "x_key") q := by
  have hkey := hidden_setvalflag (cstr "x_key") p
  simp only [auth] at h
  split_ifs at h
  · cases h
    exact hkey
  · cases hroot : w.rootHash with
    | none =>
      rw [hroot] at h
      cases h
      exact hkey
    | some pwdp =>
      rw [hroot] at h
      dsimp only at h
      split_ifs at h <;> cases h
      · exact hkey
      · intro e he
        rw [getvalp_putval_self (by decide), Option.mem_def, Option.some_inj] at he
        rw [← he, flag_putEntry]
        split <;> decide
  · obtain ⟨ok, -, h⟩ := Option.map_eq_some_iff.1 h
    cases h
    exact hkey
  · cases h
    exact hkey

/-- **On the way to `page_setup` everything that a request has shown is hidden.** -/
theorem hidden_of_gate (h : gate w p = some (.enter v)) : ∀ k ∈ loginKeys, Hidden k v.proc := by
  rw [gate] at h
  split at h
  · cases h
  · dsimp only at h
    split at h
    · cases h
    · cases h
    · obtain ⟨⟨stat, q⟩, hauth, h⟩ := Option.map_eq_some_iff.1 h
      have hkey := hidden_of_auth hauth
      cases stat <;> cases h
      have hscript : ∀ k ∈ loginKeys, k ≠ cstr "script" := by decide
      intro k hk
      refine Hidden.putval_ne ?_ (hscript k hk) _ _
      simp only [loginKeys, List.mem_cons, List.not_mem_nil, or_false] at hk
      rcases hk with rfl | rfl | rfl
      · exact (hidden_setvalflag (cstr "x_login") q).setvalflag (cstr "x_passwd")
      · exact hidden_setvalflag (cstr "x_passwd") _
      · exact (hkey.setvalflag (cstr "x_login")).setvalflag (cstr "x_passwd")

/-- The functions of the menu leave it hidden. -/
theorem hidden_of_callHook {dFlg : Bool} (h : callHook b w dFlg v = some (some res))
    (hk : k ∈ loginKeys) (hv : Hidden k v.proc) : Hidden k res.proc := by
  have hown : ∀ k ∈ loginKeys, beginsWith ownPrefixes k = false ∧ k ∉ clockKeys ∧
      k ≠ cstr "x_sendmail_relay___T" := by decide
  obtain ⟨hput, hclock, hrelay⟩ := hown k hk
  intro e he
  rw [getvalp_edits (edits_callHook h)] at he
  · exact hv e he
  · rintro q hq rfl
    rw [hq.1] at hput
    cases hput
  · rintro k' hk' rfl
    exact hclock hk'
  · rintro k' hk' rfl
    exact hrelay hk'

/-- What is hidden is not written out. -/
theorem Hidden.not_persisted (h : Hidden k p) (hwf : p.WF) : ∀ e ∈ persisted p.env, e.key ≠ k := by
  rintro e he rfl
  obtain ⟨hmem, hpers⟩ := List.mem_filter.1 he
  rw [Entry.persistable, Bool.and_eq_true, Bool.and_eq_true, beq_iff_eq] at hpers
  exact h e (Keyed.find_of_mem Entry.key hwf.nodup hmem) hpers.1.2

/-- A file that was shipped, or written with nothing in it of what a request has shown. -/
def Discreet (file : Bytes) : Prop :=
  file = shippedConf ∨ ∃ env, file = writeConf env ∧ ∀ e ∈ persisted env, e.key ∉ loginKeys

/-- Nothing in the files of what a request has shown. -/
structure DiscreetFiles (f : Files) : Prop where
  dflt : Discreet f.dflt
  conf : Discreet f.conf
  tmp : ∀ tmp ∈ f.tmp, Discreet tmp

/-- A request writes none of what it shows. -/
theorem DiscreetFiles.main (hf : DiscreetFiles f) (h : main b w r f = some o) :
    DiscreetFiles o.files := by
  obtain ⟨g, hg, hcase⟩ := files_main h
  -- first the page's function, then what `page_setup` may still do to the saved file
  have hfiles : DiscreetFiles g := by
    rcases hcase with rfl | rfl | ⟨p, args, v, res, hv, hres, hw, rfl⟩
    · exact hf
    · rw [Files.save]
      cases htmp : f.tmp with
      | none => exact hf
      | some tmp => exact ⟨hf.dflt, hf.tmp tmp htmp, fun tmp htmp ↦ by cases htmp⟩
    · refine ⟨hf.dflt, hf.conf, fun tmp htmp ↦ ?_⟩
      cases htmp
      refine .inr ⟨res.proc.env, rfl, fun e he hk ↦ ?_⟩
      have hwf : res.proc.WF := (wf_of_visits hv).edits (edits_callHook hres)
      exact (hidden_of_callHook hres hk (hidden_of_gate hv.gate e.key hk)).not_persisted hwf e he
        rfl
  rcases hg with hg | hg <;> rw [hg]
  · exact hfiles
  · exact ⟨hfiles.dflt, hfiles.dflt, hfiles.tmp⟩

theorem Session.discreetFiles (h : Session b f rs cmds f') (hf : DiscreetFiles f) :
    DiscreetFiles f' := by
  induction h with
  | nil f => exact hf
  | cons hmain _ ih => exact ih (hf.main hmain)

/-- **Over any sequence of requests, no login, no password and no key is written to a file.** -/
theorem secrets_unwritten (h : Session b shippedFiles rs cmds f) :
    Discreet f.dflt ∧ Discreet f.conf ∧ ∀ tmp ∈ f.tmp, Discreet tmp := by
  have hf := h.discreetFiles ⟨.inl rfl, .inl rfl, fun tmp htmp ↦ by cases htmp⟩
  exact ⟨hf.dflt, hf.conf, hf.tmp⟩

theorem secrets_unwritten_rule : ∃ cmds f tmp, f.tmp = some tmp ∧
    Session ⟨false, false⟩ shippedFiles [(World.box, ruleRequest)] cmds f ∧ Discreet tmp := by
  obtain ⟨o, tmp, hmain, htmp⟩ := exists_main_rule
  have hsession := Session.cons hmain (.nil o.files)
  exact ⟨_, o.files, tmp, htmp, hsession, (secrets_unwritten hsession).2.2 tmp htmp⟩

end Setup
