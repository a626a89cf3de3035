import SsdLinux.Setup.Getarg
import SsdLinux.Setup.Ok
import SsdLinux.Setup.Session
import SsdLinux.Setup.Valtab

/-!
# `main`: one request

A request runs through the program in this order:

1. the three configuration files are read (`readConf`), then the arguments (`getargs`);
2. `gate`: the server address, the port and the interface decide whether the page may be used from
   here at all; then the login, with a password or with a session key;
3. `pageSetup`: an argument `s_ok…` asks for the page's own function, which is called if `err_chk`
   has nothing to say; failing that, an argument `d_…` asks for the page's deletions, and there
   nothing is checked;
4. the files are written.

`main` gives the page that is shown, the files as they are afterwards and the commands that were
run.  A process that follows a null pointer dies (`Page.killed`), and the files stay as they are at
that moment.  A run that reads past the end of one of its buffers has no result.

Not modelled: the text of the pages, and the service files written when the settings are saved.
-/

set_option autoImplicit false

namespace Setup

open CLib

/-! ## The menu -/

/-- The choices of a build that change the menu. -/
structure Build where
  custom0 : Bool
  ipv6 : Bool

/-- An entry of the menu. -/
structure Menu where
  tmpl : Bytes
  okHook : Option Hook
  delHook : Option Hook

/-- `top_menu` with its `sub_menu`, which hangs under the last entry, in the order in which
`op2menu` searches them. -/
def menus (b : Build) : List Menu :=
  [⟨cstr "save", some okSave, none⟩, ⟨cstr "system", some okSystem, none⟩]
    ++ (if b.custom0 then [] else [⟨cstr "user", some okUser, some del⟩])
    ++ [⟨cstr "network", some okNetwork, none⟩]
    ++ if b.custom0 then [⟨cstr "samba", some okSamba, none⟩]
      else
        (if b.ipv6 then [⟨cstr "ipv6", some okIpv6, none⟩] else [])
          ++ [⟨cstr "masq", some okMasq, none⟩, ⟨cstr "fw", some okFw, some del⟩,
            ⟨cstr "misc", none, none⟩, ⟨cstr "dhcpd", some okDhcp, none⟩,
            ⟨cstr "sendmail", some okSendmail, some del⟩, ⟨cstr "named", some okNamed, some del⟩,
            ⟨cstr "httpd", some okHttpd, some del⟩]

/-- `op2menu`. -/
def op2menu (b : Build) (op : Option Bytes) : Option Menu :=
  op.bind fun op ↦ (menus b).find? fun m ↦ decide (m.tmpl = op)

/-! ## Who may use the page -/

/-- The pages `main` shows. -/
inductive Page
  /-- `panic`: too many arguments. -/
  | panic
  /-- Not a page: the process followed a null pointer. -/
  | killed
  | cannotAccess
  | badPasswd
  | login
  /-- What has been changed. -/
  | changed (l : List (Text × Text))
  | saved
  | errors
  /-- The page of the menu itself. -/
  | menu
  deriving DecidableEq, Repr

/-- `HTML_server_addr`.  The branches for a host without an address copy into a null pointer; the
resolver looks at the environment as the arguments have left it. -/
def serverAddr (w : World) (environ : Bytes → Option Bytes) : Option Bytes :=
  (environ (cstr "HTTP_HOST")).bind fun host ↦
    if w.inetAddr host then some host else w.hostAddr (w.resolverNames.map environ) host

/-- `HTML_server_port`, which is 0 to begin with. -/
def serverPort (environ : Bytes → Option Bytes) : Option ℤ :=
  (environ (cstr "SERVER_PORT")).map fun s ↦ ((scanInt s).map Prod.fst).getD 0

/-- The setting that holds the name of the interface. -/
abbrev limitKey : Bytes := cstr "x_openblocks_access_limit"

/-- The three values the access check works with. -/
structure AccessView where
  addr : Bytes
  port : ℤ
  limit : Option Bytes
  deriving DecidableEq, Repr

def accessView (w : World) (p : Proc) : Option AccessView :=
  (serverAddr w p.environ).bind fun addr ↦
    (serverPort p.environ).map fun port ↦ ⟨addr, port, getval w limitKey p⟩

/-- `HTTPD_PORT`. -/
def httpdPort : ℤ := 880

/-- The access check.  Without an interface access is denied, and naming the interface in the page
that says so reads a null pointer. -/
def AccessView.denied (w : World) (v : AccessView) : Option Bool :=
  v.limit.map fun i ↦ decide (w.ifAddr i ≠ v.addr ∨ v.port ≠ httpdPort)

/-- `login_stat`. -/
inductive LoginStat
  | noLogin | badLogin | badPasswd | okLogin
  deriving DecidableEq, Repr

/-- The login. -/
def auth (w : World) (p : Proc) : Option (LoginStat × Proc) :=
  let login := getval3 w (cstr "x_login") p
  let passwd := getval3 w (cstr "x_passwd") p
  let key := getval3 w (cstr "x_key") p
  let p := setvalflag (cstr "x_key") RC_bNULL p
  if login = [] then some (.noLogin, p)
  else if passwd ≠ [] then
    match w.rootHash with
    | none => some (.badLogin, p)
    | some pwdp =>
      if w.crypt passwd pwdp ≠ pwdp then some (.badPasswd, p)
      else some (.okLogin, putval (cstr "x_key") (createKey w login) (RC_bWRITE ||| RC_bNULL) p)
  else if key ≠ [] then
    (checkKey w login key).map fun ok ↦ (if ok then .okLogin else .noLogin, p)
  else some (.noLogin, p)

/-- `quote`. -/
def quote (s : Bytes) : Bytes :=
  s.flatMap fun c ↦
    if c = ampersand then cstr "&amp;"
    else if c = dquote then cstr "&quot;"
    else if c = 60 then cstr "&lt;"
    else if c = 62 then cstr "&gt;"
    else [c]

/-- The colours that `main` puts into the store. -/
def colorPuts : List Put :=
  [⟨cstr "c0", cstr "#eeeeee", RC_bNULL⟩, ⟨cstr "c1", cstr "#0cb0e0", RC_bNULL⟩,
    ⟨cstr "c2", cstr "#ee86b8", RC_bNULL⟩, ⟨cstr "c3", cstr "#ffff00", RC_bNULL⟩,
    ⟨cstr "gray0", cstr "#eeeeee", RC_bNULL⟩]

/-- What `page_setup` is called with, and what it finds in the global variables. -/
structure Visit where
  op : Bytes
  subop : Option Bytes
  arg1 : Bytes
  arg2 : Bytes
  proc : Proc

/-- The way from the arguments to `page_setup`. -/
inductive Gate
  | stop (page : Page)
  | enter (v : Visit)

/-- `main` between `ht_getarg` and `page_setup`. -/
def gate (w : World) (p : Proc) : Option Gate :=
  match accessView w p with
  | none => some (.stop .killed)
  | some view =>
    let p := colorPuts.foldl Put.run p
    let op := if getval3 w (cstr "op") p = [] then cstr "system" else getval3 w (cstr "op") p
    match view.denied w with
    | none => some (.stop .killed)
    | some true => some (.stop .cannotAccess)
    | some false =>
      (auth w p).map fun
        | (.badPasswd, _) | (.badLogin, _) => .stop .badPasswd
        | (.noLogin, _) => .stop .login
        | (.okLogin, q) =>
          let q := setvalflag (cstr "x_passwd") RC_bNULL (setvalflag (cstr "x_login") RC_bNULL q)
          let script := cstr "setup.cgi?i_login=" ++ getval3 w (cstr "x_login") q
            ++ cstr "&i_key=" ++ quote (getval3 w (cstr "x_key") q)
          .enter ⟨op, getval w (cstr "subop") p, getval3 w (cstr "a") p, getval3 w (cstr "a2") p,
            putval (cstr "script") script RC_bWRITE q⟩

/-! ## The page -/

/-- `okarg`: what follows `s_ok` in the first argument that begins so. -/
def okArg (env : List Entry) : Option Bytes :=
  (env.find? fun e ↦ (cstr "s_ok").isPrefixOf e.key).map fun e ↦
    (e.key.drop 4).takeWhile (· ≠ equals)

/-- The menu entry `page_setup` works for. -/
def Visit.menu (b : Build) (v : Visit) : Option Menu :=
  (op2menu b v.subop).or (op2menu b (some v.op))

/-- What `page_setup` calls.  `some none` is a killed process; `none` is `err_chk` reading past the
end of a value. -/
def callHook (b : Build) (w : World) (dFlg : Bool) (v : Visit) : Option (Option Result) :=
  match v.menu b with
  | none => some none
  | some m =>
    match okArg v.proc.env with
    | some arg =>
      (errChk w v.proc).map fun errs ↦
        if errs ≠ [] then some (ret .ng v.proc)
        else
          match m.okHook with
          | some h => h ⟨w, v.arg1, v.arg2⟩ arg v.proc
          | none => some (ret .cont v.proc)
    | none =>
      match m.delHook with
      | some h =>
        some <|
          if dFlg then (h ⟨w, v.arg1, v.arg2⟩ [] v.proc).map fun r ↦ { r with status := .cont }
          else some (ret .cont v.proc)
      | none => some (some (ret .cont v.proc))

/-- The outcome of a request. -/
structure Outcome where
  page : Page
  files : Files
  cmds : List Bytes

/-- The files after what the menu's function has done. -/
def Result.files (r : Result) (f : Files) : Files :=
  if r.wrote then { f with tmp := some (writeConf r.proc.env) }
  else if r.renamed then
    match f.tmp with
    | some tmp => { f with conf := tmp, tmp := none }
    | none => f
  else f

/-- `page_setup` after the function of the menu has returned.  Saving looks at `x_save_mode`; mode 5
puts the defaults back. -/
def finish (w : World) (r : Result) (f : Files) : Outcome :=
  let f := r.files f
  match r.status with
  | .okSave =>
    match getval w (cstr "x_save_mode") r.proc with
    | none => ⟨.killed, f, r.cmds⟩
    | some mode => ⟨.saved, if mode.head? = some 53 then { f with conf := f.dflt } else f, r.cmds⟩
  | .ok | .okNosave =>
    if isUpdateval r.proc.env = 3 then
      match outputChange r.proc with
      | some l => ⟨.changed l, f, r.cmds⟩
      | none => ⟨.killed, f, r.cmds⟩
    else ⟨.changed [], f, r.cmds⟩
  | .ng => ⟨.errors, f, r.cmds⟩
  | .cont => ⟨.menu, f, r.cmds⟩

/-- Only saving does more to the files than writing the pending ones. -/
theorem files_finish {w : World} {r : Result} {f : Files} (h : r.status ≠ .okSave) :
    (finish w r f).files = r.files f := by
  rw [finish]
  cases hs : r.status with
  | okSave => exact absurd hs h
  | ok | okNosave =>
    dsimp only
    split
    · split <;> rfl
    · rfl
  | ng | cont => rfl

/-- `page_setup`. -/
def pageSetup (b : Build) (w : World) (dFlg : Bool) (v : Visit) (f : Files) : Option Outcome :=
  (callHook b w dFlg v).map fun
    | some r => finish w r f
    | none => ⟨.killed, f, []⟩

/-- The configuration and the arguments of a request.  `some none` is `panic`. -/
def readRequest (w : World) (r : Request) (f : Files) : Option (Option (Proc × List Arg)) :=
  (readConf w f r.environ).bind fun p ↦
    (argText p.environ r.stdin).bind fun
      | .panic => some none
      | .text s after => (decodeArgs s after).map fun args ↦ some (p, args)

/-- The values the access check of a run works with. -/
def mainView (w : World) (r : Request) (f : Files) : Option AccessView :=
  (readRequest w r f).bind fun
    | none => none
    | some (p, args) => accessView w (getargs w p args)

/-- `main`. -/
def main (b : Build) (w : World) (r : Request) (f : Files) : Option Outcome :=
  (readRequest w r f).bind fun
    | none => some ⟨.panic, f, []⟩
    | some (p, args) =>
      (gate w (getargs w p args)).bind fun
        | .stop page => some ⟨page, f, []⟩
        | .enter v => pageSetup b w (delFlag args) v f

/-! ## One request, step by step -/

/-- A request that got as far as `page_setup`: the store of the files, the arguments, and what
`page_setup` was called with. -/
structure Visits (w : World) (r : Request) (f : Files) (p : Proc) (args : List Arg) (v : Visit) :
    Prop where
  request : readRequest w r f = some (some (p, args))
  gate : gate w (getargs w p args) = some (.enter v)

/-- The way of a request to `page_setup`, if it gets there. -/
def visitOf (w : World) (r : Request) (f : Files) : Option (Proc × List Arg × Visit) :=
  (readRequest w r f).bind fun
    | none => none
    | some (p, args) =>
      (Setup.gate w (getargs w p args)).bind fun
        | .stop _ => none
        | .enter v => some (p, args, v)

theorem visits_of_visitOf {w : World} {r : Request} {f : Files} {p : Proc} {args : List Arg}
    {v : Visit} (h : visitOf w r f = some (p, args, v)) : Visits w r f p args v := by
  obtain ⟨req, hreq, h⟩ := Option.bind_eq_some_iff.mp h
  cases req with
  | none => cases h
  | some req =>
    obtain ⟨g, hg, h⟩ := Option.bind_eq_some_iff.mp h
    cases g with
    | stop page => cases h
    | enter v =>
      cases h
      exact ⟨hreq, hg⟩

theorem visitOf_of_visits {w : World} {r : Request} {f : Files} {p : Proc} {args : List Arg}
    {v : Visit} (h : Visits w r f p args v) : visitOf w r f = some (p, args, v) := by
  rw [visitOf, h.request, Option.bind_some]
  dsimp only
  rw [h.gate, Option.bind_some]

/-- The store of a request is the store of the files. -/
theorem conf_of_readRequest {w : World} {r : Request} {f : Files} {p : Proc} {args : List Arg}
    (h : readRequest w r f = some (some (p, args))) : readConf w f r.environ = some p := by
  obtain ⟨p', hp, h⟩ := Option.bind_eq_some_iff.mp h
  obtain ⟨text, -, h⟩ := Option.bind_eq_some_iff.mp h
  cases text with
  | panic => cases h
  | text s after =>
    obtain ⟨args', -, h⟩ := Option.map_eq_some_iff.mp h
    cases h
    exact hp

/-- **A request changes the files only through the function it calls.** -/
theorem main_cases {b : Build} {w : World} {r : Request} {f : Files} {o : Outcome}
    (h : main b w r f = some o) :
    o.files = f ∨ ∃ p args v res, Visits w r f p args v ∧
      callHook b w (delFlag args) v = some (some res) ∧ o = finish w res f := by
  obtain ⟨req, hreq, h⟩ := Option.bind_eq_some_iff.mp h
  cases req with
  | none =>
    cases h
    exact .inl rfl
  | some req =>
    obtain ⟨p, args⟩ := req
    obtain ⟨g, hg, h⟩ := Option.bind_eq_some_iff.mp h
    cases g with
    | stop page =>
      cases h
      exact .inl rfl
    | enter v =>
      obtain ⟨res, hres, rfl⟩ := Option.map_eq_some_iff.mp h
      cases res with
      | none => exact .inl rfl
      | some res => exact .inr ⟨p, args, v, res, ⟨hreq, hg⟩, hres, rfl⟩

theorem mem_menus_of_menu {b : Build} {v : Visit} {m : Menu} (h : v.menu b = some m) :
    m ∈ menus b := by
  rcases Option.or_eq_some_iff.mp h with h | ⟨-, h⟩ <;>
  · obtain ⟨op, -, hfind⟩ := Option.bind_eq_some_iff.mp h
    exact List.mem_of_find?_eq_some hfind

/-- **What a function has been called after**: the check of the arguments, or the flag of a
deletion. -/
theorem callHook_cases {b : Build} {w : World} {dFlg : Bool} {v : Visit} {res : Result}
    (h : callHook b w dFlg v = some (some res)) :
    (∃ st, res = ret st v.proc) ∨ ∃ m, v.menu b = some m ∧
      ((∃ arg hook, okArg v.proc.env = some arg ∧ errChk w v.proc = some [] ∧ m.okHook = some hook ∧
        hook ⟨w, v.arg1, v.arg2⟩ arg v.proc = some res) ∨
      (∃ hook r, okArg v.proc.env = none ∧ dFlg = true ∧ m.delHook = some hook ∧
        hook ⟨w, v.arg1, v.arg2⟩ [] v.proc = some r ∧ res = { r with status := .cont })) := by
  rw [callHook] at h
  cases hm : v.menu b with
  | none =>
    rw [hm] at h
    cases h
  | some m =>
    rw [hm] at h
    dsimp only at h
    cases harg : okArg v.proc.env with
    | some arg =>
      rw [harg] at h
      obtain ⟨errs, herr, h⟩ := Option.map_eq_some_iff.mp h
      split at h
      · cases h
        exact .inl ⟨_, rfl⟩
      · rename_i hnil
        rw [ne_eq, not_not] at hnil
        subst hnil
        cases hok : m.okHook with
        | none =>
          rw [hok] at h
          cases h
          exact .inl ⟨_, rfl⟩
        | some hook =>
          rw [hok] at h
          exact .inr ⟨m, rfl, .inl ⟨arg, hook, rfl, herr, hok, h⟩⟩
    | none =>
      rw [harg] at h
      dsimp only at h
      cases hdel : m.delHook with
      | none =>
        rw [hdel] at h
        cases h
        exact .inl ⟨_, rfl⟩
      | some hook =>
        rw [hdel] at h
        cases hd : dFlg with
        | false =>
          rw [hd] at h
          cases h
          exact .inl ⟨_, rfl⟩
        | true =>
          rw [hd] at h
          dsimp only at h
          rw [if_pos rfl] at h
          obtain ⟨r, hr, rfl⟩ := Option.map_eq_some_iff.mp (Option.some.inj h)
          exact .inr ⟨m, rfl, .inr ⟨hook, r, rfl, rfl, hdel, hr, rfl⟩⟩

/-- A request that gets to a function of the menu ends with what the function leaves. -/
theorem main_of_visits {b : Build} {w : World} {r : Request} {f : Files} {p : Proc}
    {args : List Arg} {v : Visit} {res : Result} (hv : Visits w r f p args v)
    (hres : callHook b w (delFlag args) v = some (some res)) :
    main b w r f = some (finish w res f) := by
  rw [main, hv.request, Option.bind_some]
  dsimp only
  rw [hv.gate, Option.bind_some]
  dsimp only
  rw [pageSetup, hres, Option.map_some]

/-- A request that can be run: what it does can be looked at all at once. -/
theorem exists_of_visitOf {b : Build} {w : World} {r : Request} {f : Files}
    {P : Proc × List Arg × Visit → Result → Bool}
    (h : (visitOf w r f).any (fun x ↦
      (callHook b w (delFlag x.2.1) x.2.2).join.any (P x)) = true) :
    ∃ p args v res, visitOf w r f = some (p, args, v) ∧ Visits w r f p args v ∧
      callHook b w (delFlag args) v = some (some res) ∧ P (p, args, v) res = true := by
  obtain ⟨⟨p, args, v⟩, hv, h⟩ := (Option.any_eq_true ..).mp h
  obtain ⟨res, hres, h⟩ := (Option.any_eq_true ..).mp h
  exact ⟨p, args, v, res, hv, visits_of_visitOf hv, Option.join_eq_some_iff.mp hres, h⟩

/-- What happens to the store between the arguments and `page_setup`. -/
def gateFrame : Frame where
  put q := q ∈ colorPuts ∨ q.key = cstr "x_key" ∧ q.sw &&& RC_bNULL ≠ 0 ∨ q.key = cstr "script"
  hide k := k ∈ [cstr "x_key", cstr "x_login", cstr "x_passwd"]
  del _ := False

theorem edits_auth {w : World} {p q : Proc} {stat : LoginStat} (h : auth w p = some (stat, q)) :
    Edits gateFrame p q := by
  have hhide : Edits gateFrame p (setvalflag (cstr "x_key") RC_bNULL p) :=
    .single (.hide (show gateFrame.hide (cstr "x_key") by simp [gateFrame]) p)
  simp only [auth] at h
  split at h
  · cases h
    exact hhide
  split at h
  · split at h
    · cases h
      exact hhide
    split at h <;> cases h
    · exact hhide
    · exact hhide.trans (edits_putval (F := gateFrame) (.inr (.inl ⟨rfl, by simp⟩)) _)
  split at h
  · obtain ⟨ok, -, h⟩ := Option.map_eq_some_iff.mp h
    cases h
    exact hhide
  · cases h
    exact hhide

/-- **Between the arguments and `page_setup` only `main`'s own keys change.** -/
theorem edits_gate {w : World} {p : Proc} {v : Visit} (h : gate w p = some (.enter v)) :
    Edits gateFrame p v.proc := by
  have hcolor : Edits gateFrame p (colorPuts.foldl Put.run p) :=
    edits_puts (F := gateFrame) (fun q hq ↦ .inl hq) p
  have hhide : ∀ k ∈ [cstr "x_key", cstr "x_login", cstr "x_passwd"], ∀ q : Proc,
      Edits gateFrame q (setvalflag k RC_bNULL q) := fun k hk q ↦ .single (.hide hk q)
  rw [gate] at h
  split at h
  · cases h
  · dsimp only at h
    split at h
    · cases h
    · cases h
    · obtain ⟨⟨stat, q⟩, hauth, h⟩ := Option.map_eq_some_iff.mp h
      cases stat <;> cases h
      have h1 := hcolor.trans (edits_auth hauth)
      have h2 := (h1.trans (hhide (cstr "x_login") (by simp) q)).trans
        (hhide (cstr "x_passwd") (by simp) _)
      exact h2.trans (edits_putval (F := gateFrame) (.inr (.inr rfl)) _)

/-- A property of every function that the menu can call. -/
theorem forall_menus {P : Hook → Prop} (b : Build)
    (h : ∀ h ∈ [okSave, okSystem, okUser, okNetwork, okSamba, okIpv6, okMasq, okFw, okDhcp,
      okSendmail, okNamed, okHttpd, del], P h) {m : Menu} (hm : m ∈ menus b) {hook : Hook}
    (hh : m.okHook = some hook ∨ m.delHook = some hook) : P hook := by
  have key : ∀ (custom0 ipv6 : Bool), ∀ m ∈ menus ⟨custom0, ipv6⟩,
      (∀ h ∈ m.okHook, h ∈ [okSave, okSystem, okUser, okNetwork, okSamba, okIpv6, okMasq, okFw,
        okDhcp, okSendmail, okNamed, okHttpd, del]) ∧
      (∀ h ∈ m.delHook, h ∈ [okSave, okSystem, okUser, okNetwork, okSamba, okIpv6, okMasq, okFw,
        okDhcp, okSendmail, okNamed, okHttpd, del]) := by
    intro custom0 ipv6
    cases custom0 <;> cases ipv6 <;> simp [menus]
  exact h hook (hh.elim ((key _ _ m hm).1 hook) ((key _ _ m hm).2 hook))

/-- Every function of the menu writes only keys of its own. -/
theorem tame_menus {b : Build} {m : Menu} (hm : m ∈ menus b) {hook : Hook}
    (hh : m.okHook = some hook ∨ m.delHook = some hook) : hook.Tame ownPrefixes := by
  refine forall_menus b ?_ hm hh
  simp only [List.forall_mem_cons, List.not_mem_nil, false_implies, implies_true, and_true]
  have hnil : ∀ {h : Hook}, h.Tame [] → h.Tame ownPrefixes := fun h ↦
    h.mono (List.nil_subset _)
  exact ⟨hnil tame_okSave, hnil tame_okSystem, hnil tame_okUser, tame_okNetwork.mono (by decide),
    hnil (tame_write _), tame_okIpv6.mono (by decide), hnil (tame_write _), tame_okFw,
    hnil (tame_write _), tame_okSendmail, tame_okNamed, hnil (tame_write _), tame_del⟩

/-- **A function that is called changes the store only in its own keys.** -/
theorem edits_callHook {b : Build} {w : World} {dFlg : Bool} {v : Visit} {res : Result}
    (h : callHook b w dFlg v = some (some res)) : Edits (ownFrame ownPrefixes) v.proc res.proc := by
  rcases callHook_cases h with ⟨st, rfl⟩ | ⟨m, hm, ⟨arg, hook, -, -, hok, hr⟩ |
    ⟨hook, r, -, -, hdel, hr, rfl⟩⟩
  · exact .refl
  · exact tame_menus (mem_menus_of_menu hm) (.inl hok) _ _ _ _ hr
  · exact tame_menus (mem_menus_of_menu hm) (.inr hdel) _ _ _ r hr

/-! ## Requests by their query string -/

abbrev queryKey : Bytes := cstr "QUERY_STRING"

/-- The request with a given query string. -/
def query (environ : Bytes → Option Bytes) (stdin q : Bytes) : Request :=
  ⟨Function.update environ queryKey (some q), stdin⟩

/-- A server of this name, reached through this port, with nothing else in its environment. -/
def serverEnv (host port : Bytes) : Bytes → Option Bytes := fun k ↦
  if k = cstr "HTTP_HOST" then some host else if k = cstr "SERVER_PORT" then some port else none

/-! A machine to try things on. -/

/-- The address of the interface that may be used, and that of the other one. -/
abbrev insideAddr : Bytes := cstr "192.168.0.254"
abbrev outsideAddr : Bytes := cstr "10.0.0.1"

/-- A resolver that knows the host `gate` of two domains, without an alias for it and when names
without a dot are completed. -/
def boxLookup (vars : List (Option Bytes)) (host : Bytes) : Option Bytes :=
  if host ≠ cstr "gate" ∨ vars[1]? = some (some (cstr "ndots:0")) ∨
      vars[2]? = some (some (cstr "/home/aliases")) then none
  else if vars[0]? = some (some (cstr "inside.jp")) then some insideAddr
  else some outsideAddr

/-- A machine with one address on `eth0` and another one on `eth1`; the password of root is
`system`. -/
def World.box : World :=
  { World.bare with
    inetAddr := fun s ↦ decide (s = insideAddr ∨ s = outsideAddr)
    hostAddr := boxLookup
    ifAddr := fun i ↦ if i = cstr "eth0" then insideAddr else outsideAddr
    rootHash := some (World.bare.crypt (cstr "system") (cstr "ab")) }

/-- Only `eth0` may be used. -/
def boxFiles : Files := ⟨cstr "x_openblocks_access_limit=\"eth0\"\n", [], none⟩

/-- A request to this machine from the inside. -/
def boxRequest (q : Bytes) : Request := query (serverEnv insideAddr (cstr "880")) [] q

/-- The arguments that log in. -/
abbrev loginArgs : Bytes := cstr "i_login=admin&i_passwd=system&"

end Setup
