import SsdLinux.CLib.Shell
import SsdLinux.Setup.Main

/-!
# The commands of the menu

Two pages hand a command line to the shell that is put together from what was posted: the user page
runs `useradd`, and the time page runs `ntpdate`.  Both command lines are pieces with blanks between
them, so `Shell.parse_render_iff` says when they are read as they are meant: when the user id, the
login and the host are plain words, and the name, which stands in quotes, has no quote.

The checks of `SsdLinux.Setup.Valtab` do not ensure that.  `is_uid` looks at the number at the head
of the user id and at nothing behind it, `is_print` lets a quote through, and `is_ip4` does not look
at what ended the fourth group.  And a field that was not posted is printed as `(null)`.
-/

set_option autoImplicit false

namespace Setup

open CLib Shell

variable {ctx : Ctx} {arg : Bytes} {p : Proc}

/-! ## The command lines in pieces -/

/-- What `useradd` is meant to be called with. -/
def useraddPieces (uid passwd login name : Bytes) : List Piece :=
  [.raw (cstr "/usr/sbin/useradd"), .raw (cstr "-m"), .raw (cstr "-u"), .raw uid, .raw (cstr "-g"),
    .raw (decInt 100), .raw (cstr "-p"), .raw passwd, .raw (cstr "-d"),
    .raw (cstr "/home" ++ cstr "/" ++ login), .raw (cstr "-c"), .quoted name, .raw login,
    .output (cstr "/dev/null")]

theorem useraddCmd_eq (uid passwd login name : Bytes) :
    useraddCmd uid passwd login name = render (useraddPieces uid passwd login name) := by
  have h1 : cstr "/usr/sbin/useradd -m -u " = cstr "/usr/sbin/useradd" ++ blank :: cstr "-m"
      ++ blank :: cstr "-u" ++ [blank] := by decide
  have h2 : cstr " -g " = blank :: cstr "-g" ++ [blank] := by decide
  have h3 : cstr " -p " = blank :: cstr "-p" ++ [blank] := by decide
  have h4 : cstr " -d " = blank :: cstr "-d" ++ [blank] := by decide
  have h5 : cstr " -c '" = blank :: cstr "-c" ++ [blank, squote] := by decide
  have h6 : cstr "' " = [squote, blank] := by decide
  have h7 : cstr " > /dev/null" = blank :: 62 :: blank :: cstr "/dev/null" := by decide
  simp only [useraddCmd, useraddPieces, render, List.map_cons, List.map_nil, Piece.text,
    joinWith_cons, List.flatten_cons, List.flatten_nil, h1, h2, h3, h4, h5, h6, h7,
    List.append_assoc, List.cons_append, List.nil_append, List.append_nil]

/-- What `ntpdate` is meant to be called with. -/
def ntpdatePieces (n : Bytes) : List Piece := [.raw (cstr "/usr/sbin/ntpdate"), .raw n]

theorem ntpdateCmd_eq (n : Bytes) : ntpdateCmd n = render (ntpdatePieces n) := by
  have h : cstr "/usr/sbin/ntpdate " = cstr "/usr/sbin/ntpdate" ++ [blank] := by decide
  simp [ntpdateCmd, ntpdatePieces, render, Piece.text, joinWith_cons, h]

theorem plainWord_home_iff {login : Bytes} (h : login ≠ []) :
    PlainWord (cstr "/home" ++ cstr "/" ++ login) ↔ PlainWord login := by
  have hfix : ∀ c ∈ cstr "/home" ++ cstr "/", isSpecial c = false := by decide
  refine ⟨fun hp ↦ ⟨h, fun c hc ↦ hp.2 c (List.mem_append_right _ hc)⟩, fun hp ↦ ⟨by simp [h], ?_⟩⟩
  intro c hc
  exact (List.mem_append.mp hc).elim (hfix c) (hp.2 c)

/-- **When the `useradd` command is read as it is meant.** -/
theorem useradd_parse_iff {uid passwd login name : Bytes} (hpasswd : PlainWord passwd) :
    parse (useraddCmd uid passwd login name) = some (intended (useraddPieces uid passwd login name))
      ↔ PlainWord uid ∧ PlainWord login ∧ squote ∉ name := by
  rw [useraddCmd_eq, parse_render_iff]
  have hfix : PlainWord (cstr "/usr/sbin/useradd") ∧ PlainWord (cstr "-m") ∧
      PlainWord (cstr "-u") ∧ PlainWord (cstr "-g") ∧ PlainWord (decInt 100) ∧
      PlainWord (cstr "-p") ∧ PlainWord (cstr "-d") ∧ PlainWord (cstr "-c") ∧
      PlainWord (cstr "/dev/null") := by decide
  obtain ⟨h1, h2, h3, h4, h5, h6, h7, h8, h9⟩ := hfix
  simp only [useraddPieces, List.forall_mem_cons, Piece.Clean, List.not_mem_nil, false_implies,
    implies_true, and_true]
  constructor
  · rintro ⟨-, -, -, huid, -, -, -, -, -, -, -, hname, hlogin, -⟩
    exact ⟨huid, hlogin, hname⟩
  · rintro ⟨huid, hlogin, hname⟩
    exact ⟨h1, h2, h3, huid, h4, h5, h6, hpasswd, h7, (plainWord_home_iff hlogin.1).mpr hlogin, h8,
      hname, hlogin, h9⟩

/-- **When the `ntpdate` command is read as it is meant.** -/
theorem ntpdate_parse_iff {n : Bytes} :
    parse (ntpdateCmd n) = some (intended (ntpdatePieces n)) ↔ PlainWord n := by
  have hfix : PlainWord (cstr "/usr/sbin/ntpdate") := by decide
  rw [ntpdateCmd_eq, parse_render_iff]
  simp [ntpdatePieces, Piece.Clean, hfix]

/-! ## What the pages run -/

/-- The text of a field in a command. -/
def fieldText (w : World) (p : Proc) (key : Bytes) : Bytes := fmtS (getval w key p)

/-- The `useradd` command that the fields of the user page stand for. -/
def useraddIntended (w : World) (p : Proc) (passwd : Bytes) : Command :=
  intended (useraddPieces (fieldText w p (cstr "x_user_id")) (w.crypt passwd (dec w.pid))
    (fieldText w p (cstr "x_user_login___T")) (fieldText w p (cstr "x_user_name___T")))

/-- What the user page runs is the `useradd` command of its fields. -/
def UserRuns (ctx : Ctx) (arg : Bytes) (p : Proc) : Prop :=
  ∀ r, okUser ctx arg p = some r → ∀ cmd ∈ r.cmds,
    parse cmd = some (useraddIntended ctx.world p
      (getval3 ctx.world (cstr "x_user_passwd___T") p))

/-- The two passwords were given, and are the same: the user page runs a command. -/
def passwdsAgree (w : World) (p : Proc) : Bool :=
  (getval w (cstr "x_user_passwd___T") p).isSome &&
    getval w (cstr "x_user_passwd___T") p == getval w (cstr "x_user_passwd2___T") p

/-- The fields of the user page can be used in a command. -/
def UserFieldsPlain (w : World) (p : Proc) : Prop :=
  PlainWord (fieldText w p (cstr "x_user_id")) ∧
    PlainWord (fieldText w p (cstr "x_user_login___T")) ∧
    squote ∉ fieldText w p (cstr "x_user_name___T")

theorem userRuns_iff (hcrypt : ∀ key, PlainWord (ctx.world.crypt key (dec ctx.world.pid))) :
    UserRuns ctx arg p ↔
      (passwdsAgree ctx.world p = true → UserFieldsPlain ctx.world p) := by
  simp only [UserRuns, okUser, passwdsAgree, getval3]
  cases h1 : getval ctx.world (cstr "x_user_passwd___T") p with
  | none => simp
  | some passwd =>
    cases h2 : getval ctx.world (cstr "x_user_passwd2___T") p with
    | none => simp
    | some passwd2 =>
      have hiff : parse (useraddCmd (fieldText ctx.world p (cstr "x_user_id"))
          (ctx.world.crypt passwd (dec ctx.world.pid))
          (fieldText ctx.world p (cstr "x_user_login___T"))
          (fieldText ctx.world p (cstr "x_user_name___T")))
            = some (useraddIntended ctx.world p passwd) ↔ UserFieldsPlain ctx.world p :=
        useradd_parse_iff (hcrypt passwd)
      by_cases heq : passwd = passwd2
      · subst heq
        simpa [fieldText] using hiff
      · simp [heq, ret]

/-- What the time page runs is the `ntpdate` command of its host. -/
def NtpRuns (ctx : Ctx) (arg : Bytes) (p : Proc) : Prop :=
  ∀ r, okSystem3 ctx arg p = some r → ∀ cmd ∈ r.cmds,
    parse cmd = some (intended (ntpdatePieces (getval3 ctx.world (cstr "x_ntp_hostname") p)))

theorem getval_hideClock {w : World} {k : Bytes} : getval w k (hideClock p) = getval w k p := by
  have hstored : stored k (hideClock p) = stored k p :=
    stored_edits (F := ⟨fun _ ↦ False, (· ∈ clockKeys), fun _ ↦ False⟩)
      (edits_hide (fun _ h ↦ h) p) (fun _ h ↦ h.elim) (fun _ h ↦ h.elim)
  exact getval_congr hstored

theorem ntpRuns_iff : NtpRuns ctx arg p ↔
    (6 < (getval3 ctx.world (cstr "x_ntp_hostname") p).length →
      PlainWord (getval3 ctx.world (cstr "x_ntp_hostname") p)) := by
  simp only [NtpRuns, okSystem3, getval_hideClock, getval3]
  cases h : getval ctx.world (cstr "x_ntp_hostname") p with
  | none => simp
  | some n =>
    by_cases hlen : 6 < n.length
    · simp [hlen, ntpdate_parse_iff]
    · simp [hlen]

/-- **The commands of a page are read as they are meant exactly if the fields are plain**: whatever
the store, and so for every store that `err_chk` accepts. -/
theorem commands_iff (hcrypt : ∀ key, PlainWord (ctx.world.crypt key (dec ctx.world.pid))) :
    (UserRuns ctx arg p ↔
      (passwdsAgree ctx.world p = true → UserFieldsPlain ctx.world p)) ∧
    (NtpRuns ctx arg p ↔
      (6 < (getval3 ctx.world (cstr "x_ntp_hostname") p).length →
        PlainWord (getval3 ctx.world (cstr "x_ntp_hostname") p))) :=
  ⟨userRuns_iff hcrypt, ntpRuns_iff⟩

theorem box_crypt_plainWord (key : Bytes) :
    PlainWord (World.box.crypt key (dec World.box.pid)) := by
  have hsalt : ∀ c ∈ (dec World.box.pid).take 2, isSpecial c = false := by decide
  have hfin : ∀ i : Fin 256, isSpecial (UInt8.ofFin i / 16 + 65) = false ∧
      isSpecial (UInt8.ofFin i % 16 + 65) = false := by decide +kernel
  have hhex : ∀ c : UInt8, isSpecial (c / 16 + 65) = false ∧ isSpecial (c % 16 + 65) = false :=
    fun c ↦ hfin c.toFin
  have hne : (dec World.box.pid).take 2 ≠ [] := by decide
  refine ⟨List.append_ne_nil_of_left_ne_nil hne _, fun c hc ↦ ?_⟩
  rcases List.mem_append.mp hc with hc | hc
  · exact hsalt c hc
  · obtain ⟨d, -, hd⟩ := List.mem_flatMap.mp hc
    simp only [List.mem_cons, List.not_mem_nil, or_false] at hd
    rcases hd with rfl | rfl
    exacts [(hhex d).1, (hhex d).2]

/-- The fields of a new user. -/
def taroProc : Proc :=
  [⟨cstr "x_user_id", cstr "40000", 3⟩, ⟨cstr "x_user_login___T", cstr "taro", 3⟩,
    ⟨cstr "x_user_name___T", cstr "Taro Yamada", 3⟩, ⟨cstr "x_user_passwd___T", cstr "pw", 3⟩,
    ⟨cstr "x_user_passwd2___T", cstr "pw", 3⟩].foldl Put.run ⟨[], fun _ ↦ none⟩

theorem commands_taro :
    (UserRuns ⟨World.box, [], []⟩ (cstr "1") taroProc ↔
      (passwdsAgree World.box taroProc = true → UserFieldsPlain World.box taroProc)) ∧
    (NtpRuns ⟨World.box, [], []⟩ (cstr "1") taroProc ↔
      (6 < (getval3 World.box (cstr "x_ntp_hostname") taroProc).length →
        PlainWord (getval3 World.box (cstr "x_ntp_hostname") taroProc))) :=
  commands_iff box_crypt_plainWord

/-- A request for a new user whose id goes on after the number. -/
def injectRequest : Request :=
  boxRequest (loginArgs ++ cstr "op=user&s_ok=1&i_user_id=40000;id&i_user_login___T=taro"
    ++ cstr "&i_user_name___T=Taro&i_user_passwd___T=pw&i_user_passwd2___T=pw")

/-- The command that is run for it. -/
def injectCmd : Bytes :=
  cstr "/usr/sbin/useradd -m -u 40000;id -g 100 -p 12HAHH -d /home/taro -c 'Taro' taro > /dev/null"

/-- `err_chk` accepts the request, the user page runs the command, and the shell does not read it as
one command. -/
theorem injectRequest_not_meant :
    (main ⟨false, false⟩ World.box injectRequest boxFiles).map
      (fun o ↦ (o.page, o.cmds)) = some (.menu, [injectCmd]) ∧
    injectCmd = useraddCmd (cstr "40000;id") (cstr "12HAHH") (cstr "taro") (cstr "Taro") ∧
    parse injectCmd = none ∧
    parse injectCmd ≠
      some (intended (useraddPieces (cstr "40000;id") (cstr "12HAHH") (cstr "taro")
        (cstr "Taro"))) := by
  decide +kernel

end Setup
