import Mathlib.Data.List.ReduceOption
import SsdLinux.Setup.Conf

/-!
# `valtab.c`: which values a setting may hold

Every setting that can be posted has a row in `vtab`: its name, what is shown for it, whether it may
be empty and which check its value has to pass.  `errChkSub` finds the row of a key and applies it;
`errChk` does so for every argument that changed something, and refuses the request if one fails.

A row is found by prefix: it is the *first* row whose name the key begins with.  So a row may be
shadowed by a shorter name above it, as `x_ipv6_tunnel_here` is by `x_ipv6_tunnel`.

`is_ip4` reads four groups whether or not the string has four, so a string with fewer is read past
its end.  As in `SsdLinux.Setup.Token`, such a check has no result.
-/

set_option autoImplicit false

namespace Setup

open CLib

/-! ## Checks on a value -/

/-- `is_unixpath`: no control character.  Where `char` is signed, a byte above 127 is negative and
counts as one. -/
def isUnixpath (w : World) (v : Bytes) : Bool :=
  v.all fun c ↦ !(decide (c < 32) || (w.charSigned && decide (128 ≤ c)))

/-- `is_hostname`. -/
def isHostname (v : Bytes) : Bool := v.all fun c ↦ isalnum c || c == minus || c == dot

/-- One group of `is_ip4`: one to three digits denoting at most 255, ended by a dot or by the end of
the string.  `some none` is the end of the string, `some (some r)` a dot with `r` after it. -/
def ip4Group (s : Bytes) : Option (Option Bytes) :=
  let ds := s.takeWhile isdigit
  if ds = [] ∨ 4 ≤ ds.length ∨ 255 < digitsVal ds then none
  else
    match s.dropWhile isdigit with
    | [] => some none
    | c :: r => if c = dot then some (some r) else none

/-- The loop over the groups of `is_ip4`.  What ended the last group is not looked at; after the end
of the string there is nothing to read the next one from. -/
def isIp4Go : ℕ → Bytes → Option Bool
  | 0, _ => some true
  | k + 1, s =>
    match ip4Group s with
    | none => some false
    | some none => if k = 0 then some true else none
    | some (some r) => isIp4Go k r

/-- `is_ip4`. -/
def isIp4 (v : Bytes) : Option Bool := isIp4Go 4 v

/-- `is_ip4_2`. -/
def isIp4OrAny (v : Bytes) : Option Bool := if strcaseeq v (cstr "ANY") then some true else isIp4 v

/-- `is_numeric`. -/
def isNumeric (v : Bytes) : Bool := v.all fun c ↦ isdigit c || isspace c

/-- `is_port`. -/
def isPort (v : Bytes) : Bool := strcaseeq v (cstr "ANY") || isNumeric v

/-- The bounds `is_uid` puts on the number. -/
def uidInRange (v : ℤ) : Bool := decide (32768 ≤ v) && decide (v ≤ 60000)

/-- `is_login`. -/
def isLogin (v : Bytes) : Bool :=
  decide (v.length ≤ 8) && (v.head?.any isalpha) && v.all fun c ↦ isalnum c || c == underscore

/-- `is_print`. -/
def isPrint (v : Bytes) : Bool := v.all isprint

/-- Whether `chk_eth0` or `chk_eth1` leaves the address alone: the type, as a `char`, is 1. -/
def ethIsDhcp (w : World) (p : Proc) (typKey : Bytes) : Bool :=
  decide (getvalInt w typKey p % 256 = 1)

/-! ## Messages -/

/-- A text that is shown: one of the program's own, or a string it has at hand. -/
inductive Text
  | lit (s : String)
  | str (s : Bytes)
  deriving DecidableEq, Repr

/-- An error message: what it is about, what it says, and the string that fills the `%s` in it. -/
structure ErrMsg where
  label : Text
  text : String
  arg : Option Bytes
  deriving DecidableEq, Repr

/-- The check functions of the table. -/
inductive Check
  | unixpath | hostname | ip4 | ip4OrAny | numeric | port | uid | login | print | eth0 | eth1
  deriving DecidableEq, Repr

/-- The refusal of `is_ip4`. -/
def ip4Msg (v : Bytes) (ok : Bool) : Option (String × Option Bytes) :=
  if ok then none else some ("IPアドレスの記述が間違っています (%s)", some v)

/-- The refusal of `is_numeric`. -/
def numericMsg (v : Bytes) (ok : Bool) : Option (String × Option Bytes) :=
  if ok then none else some ("値の記述が間違っています (%s)", some v)

/-- What a check says about the value `v` of `key`: nothing when it passes. -/
def Check.run (w : World) (p : Proc) (key v : Bytes) :
    Check → Option (Option (String × Option Bytes))
  | .unixpath => some (if isUnixpath w v then none else some ("パスの記述が間違っています", none))
  | .hostname => some (if isHostname v then none else some ("ホスト名の記述が間違っています", none))
  | .ip4 => (isIp4 v).map (ip4Msg v)
  | .ip4OrAny => (isIp4OrAny v).map (ip4Msg v)
  | .numeric => some (numericMsg v (isNumeric v))
  | .port => some (numericMsg v (isPort v))
  | .uid => some <|
    if !uidInRange (atoi v) then
      some ("UIDは32768から60000の間の数字を指定してください", none)
    else if (w.pwName (atoi v)).isSome then some ("そのUIDはすでに使われています", none)
    else none
  | .login => some <|
    if 8 < v.length then some ("長さの制限を越えています", none)
    else if !v.head?.any isalpha then some ("英字で始まっていません", none)
    else if isLogin v then none
    else some ("使用できない文字が含まれています", none)
  | .print => some (if isPrint v then none else some ("%sに使えない文字が含まれています", some key))
  | .eth0 =>
    if ethIsDhcp w p (cstr "x_eth_typ__eth0") then some none else (isIp4 v).map (ip4Msg v)
  | .eth1 =>
    if ethIsDhcp w p (cstr "x_eth_typ__eth1") then some none else (isIp4 v).map (ip4Msg v)

/-! ## The table -/

/-- When a value may not be empty, the `VCF_NOTNULL` flags. -/
inductive NotNull
  | no | always | dhcp0 | dhcp1 | v6tun
  deriving DecidableEq, Repr

/-- Whether an empty value is refused now. -/
def NotNull.holds (w : World) (p : Proc) : NotNull → Bool
  | .no => false
  | .always => true
  | .dhcp0 => strcaseeq (getval3 w (cstr "x_dhcpd_enable__eth0") p) (cstr "YES")
  | .dhcp1 => strcaseeq (getval3 w (cstr "x_dhcpd_enable__eth1") p) (cstr "YES")
  | .v6tun => strcaseeq (getval3 w (cstr "x_ipv6_tunnel") p) (cstr "YES")

/-- A row of `vtab`. -/
structure VTab where
  key : Bytes
  desc : Option String
  notNull : NotNull
  /-- `VCF_NODISP`. -/
  nodisp : Bool
  chk : Option Check
  valdesc : Option (List String)

def msqTyp : List String := ["", "IPマスカレードを使用しない", "eth0->eth1", "eth1->eth0"]

def ethTyp : List String := ["", "DHCPを利用する", "手動で指定する"]

def vtab : List VTab :=
  [
    ⟨cstr "x_user_id", some "UID", .always, false, some .uid, none⟩,
    ⟨cstr "x_user_login___T", some "ログイン名", .always, false, some .login, none⟩,
    ⟨cstr "x_user_name___T", some "ユーザ名", .always, false, some .print, none⟩,
    ⟨cstr "x_user_passwd___T", some "パスワード", .always, false, some .print, none⟩,
    ⟨cstr "x_user_passwd2___T", some "パスワード2", .always, false, some .print, none⟩,
    ⟨cstr "x_defaultroute_adr", some "デフォルトルータ", .always, false, some .ip4, none⟩,
    ⟨cstr "x_defaultroute_interface", some "デフォルトルータインタフェース", .no, false, none, none⟩,
    ⟨cstr "x_eth_typ__eth0", some "eth0 モード", .no, false, none, some ethTyp⟩,
    ⟨cstr "x_eth_adr__eth0", some "eth0 IPアドレス", .no, false, some .eth0, none⟩,
    ⟨cstr "x_eth_subnet_mask__eth0", some "eth0 ネットマスク", .no, false, none, none⟩,
    ⟨cstr "x_eth_typ__eth1", some "eth1 モード", .no, false, none, some ethTyp⟩,
    ⟨cstr "x_eth_adr__eth1", some "eth1 IPアドレス", .no, false, some .eth1, none⟩,
    ⟨cstr "x_eth_subnet_mask__eth1", some "eth1 ネットマスク", .no, false, none, none⟩,
    ⟨cstr "x_nameserver3", some "ネームサーバ3", .no, false, some .ip4, none⟩,
    ⟨cstr "x_nameserver2", some "ネームサーバ2", .no, false, some .ip4, none⟩,
    ⟨cstr "x_nameserver", some "ネームサーバ", .no, false, some .ip4, none⟩,
    ⟨cstr "x_domain", some "ドメイン名", .no, false, some .hostname, none⟩,
    ⟨cstr "x_ipv6_enable__eth0", some "eth0のIPv6を有効にする", .no, false, none, none⟩,
    ⟨cstr "x_ipv6_enable__eth1", some "eth1のIPv6を有効にする", .no, false, none, none⟩,
    ⟨cstr "x_ipv6_prefix__eth0", some "eth0のprefix", .no, false, none, none⟩,
    ⟨cstr "x_ipv6_prefix__eth1", some "eth1のprefix", .no, false, none, none⟩,
    ⟨cstr "x_ipv6_local__eth0", some "eth0のlocal address", .no, false, none, none⟩,
    ⟨cstr "x_ipv6_local__eth1", some "eth1のlocal address", .no, false, none, none⟩,
    ⟨cstr "x_ipv6_tunnel", some "IPv4 over IPv6トンネルを使用する", .no, false, none, none⟩,
    ⟨cstr "x_ipv6_tunnel_here", some "トンネル自分側IPv4アドレス", .v6tun, false, some .ip4, none⟩,
    ⟨cstr "x_ipv6_tunnel_there", some "トンネル相手側IPv4アドレス", .v6tun, false, some .ip4, none⟩,
    ⟨cstr "x_hostname", some "ホスト名", .always, false, some .hostname, none⟩,
    ⟨cstr "x_domainname", some "ドメイン名", .always, false, some .hostname, none⟩,
    ⟨cstr "x_year", some "年", .no, false, none, none⟩,
    ⟨cstr "x_mon", some "月", .no, false, none, none⟩,
    ⟨cstr "x_mday", some "日", .no, false, none, none⟩,
    ⟨cstr "x_hour", some "時", .no, false, none, none⟩,
    ⟨cstr "x_min", some "分", .no, false, none, none⟩,
    ⟨cstr "x_sec", some "秒", .no, false, none, none⟩,
    ⟨cstr "x_ntp_hostname", some "ＮＴＰサーバ", .no, false, some .ip4, none⟩,
    ⟨cstr "x_msq_typ", some "IPマスカレード", .always, false, none, some msqTyp⟩,
    ⟨cstr "x_portfw_id", none, .always, false, none, none⟩,
    ⟨cstr "x_portfw_proto___T", none, .always, false, none, none⟩,
    ⟨cstr "x_portfw_interface___T", none, .always, false, none, none⟩,
    ⟨cstr "x_portfw_src_port___T", some "source port", .always, false, some .numeric, none⟩,
    ⟨cstr "x_portfw_dst_ip___T", some "destination IP", .always, false, some .ip4, none⟩,
    ⟨cstr "x_portfw_dst_port___T", some "destination port", .always, false, some .numeric, none⟩,
    ⟨cstr "x_fw_id", none, .always, false, none, none⟩,
    ⟨cstr "x_fw_proto___T", none, .always, false, none, none⟩,
    ⟨cstr "x_fw_src_ip___T", some "source IP", .always, false, some .ip4OrAny, none⟩,
    ⟨cstr "x_fw_src_subnet_mask___T", none, .always, false, none, none⟩,
    ⟨cstr "x_fw_src_port___T", some "source port", .always, false, some .port, none⟩,
    ⟨cstr "x_fw_dst_ip___T", some "destination ip", .always, false, some .ip4OrAny, none⟩,
    ⟨cstr "x_fw_dst_subnet_mask___T", none, .always, false, none, none⟩,
    ⟨cstr "x_fw_dst_port___T", some "destination port", .always, false, some .port, none⟩,
    ⟨cstr "x_fw_action___T", some "動作", .always, false, none, none⟩,
    ⟨cstr "x_dhcpd_enable", some "dhcpdを使用する", .always, false, none, none⟩,
    ⟨cstr "x_dhcpd_eth0_enable", some "eth0側でdhcpdを使用する", .always, false, none, none⟩,
    ⟨cstr "x_dhcpd_eth0_range1", some "eth0 範囲", .dhcp0, false, some .ip4, none⟩,
    ⟨cstr "x_dhcpd_eth0_range2", some "eth0 範囲", .dhcp0, false, some .ip4, none⟩,
    ⟨cstr "x_dhcpd_eth0_nameserver", some "eth0 ネームサーバ", .no, false, some .ip4, none⟩,
    ⟨cstr "x_dhcpd_eth0_domainname", some "eth0 ドメイン名", .no, false, some .hostname, none⟩,
    ⟨cstr "x_dhcpd_eth0_routers", some "eth1 ゲートウェイ", .no, false, some .ip4, none⟩,
    ⟨cstr "x_dhcpd_eth0_subnet_mask", some "eth1 ネットマスク", .no, false, none, none⟩,
    ⟨cstr "x_dhcpd_eth1_enable", some "eth1側でdhcpdを使用する", .always, false, none, none⟩,
    ⟨cstr "x_dhcpd_eth1_range1", some "eth1 範囲", .dhcp1, false, some .ip4, none⟩,
    ⟨cstr "x_dhcpd_eth1_range2", some "eth1 範囲", .dhcp1, false, some .ip4, none⟩,
    ⟨cstr "x_dhcpd_eth1_nameserver", some "eth1 ネームサーバ", .no, false, some .ip4, none⟩,
    ⟨cstr "x_dhcpd_eth1_domainname", some "eth1 ドメイン名", .no, false, some .hostname, none⟩,
    ⟨cstr "x_dhcpd_eth1_routers", some "eth1 ゲートウェイ", .no, false, some .ip4, none⟩,
    ⟨cstr "x_dhcpd_eth1_subnet_mask", some "eth1 ネットマスク", .no, false, none, none⟩,
    ⟨cstr "x_dhcpd_enable__eth0", some "eth0側でdhcpdを使用する", .always, false, none, none⟩,
    ⟨cstr "x_dhcpd_range1__eth0", some "eth0 範囲", .dhcp0, false, some .ip4, none⟩,
    ⟨cstr "x_dhcpd_range2__eth0", some "eth0 範囲", .dhcp0, false, some .ip4, none⟩,
    ⟨cstr "x_dhcpd_nameserver__eth0", some "eth0 ネームサーバ", .no, false, some .ip4, none⟩,
    ⟨cstr "x_dhcpd_domainname__eth0", some "eth0 ドメイン名", .no, false, some .hostname, none⟩,
    ⟨cstr "x_dhcpd_routers__eth0", some "eth0 ゲートウェイ", .no, false, some .ip4, none⟩,
    ⟨cstr "x_dhcpd_subnet_mask__eth0", some "eth0 ネットマスク", .no, false, some .ip4, none⟩,
    ⟨cstr "x_dhcpd_enable__eth1", some "eth1側でdhcpdを使用する", .always, false, none, none⟩,
    ⟨cstr "x_dhcpd_range1__eth1", some "eth1 範囲", .dhcp1, false, some .ip4, none⟩,
    ⟨cstr "x_dhcpd_range2__eth1", some "eth1 範囲", .dhcp1, false, some .ip4, none⟩,
    ⟨cstr "x_dhcpd_nameserver__eth1", some "eth1 ネームサーバ", .no, false, some .ip4, none⟩,
    ⟨cstr "x_dhcpd_domainname__eth1", some "eth1 ドメイン名", .no, false, some .hostname, none⟩,
    ⟨cstr "x_dhcpd_routers__eth1", some "eth1 ゲートウェイ", .no, false, some .ip4, none⟩,
    ⟨cstr "x_dhcpd_subnet_mask__eth1", some "eth1 ネットマスク", .no, false, none, none⟩,
    ⟨cstr "x_sendmail_enable", some "sendmailを使用する", .always, false, none, none⟩,
    ⟨cstr "x_sendmail_my_official_smtp_hostname", some "ホスト名(FQDN)", .always, false, some .hostname, none⟩,
    ⟨cstr "x_sendmail_local_domain_name", some "ドメイン名", .always, false, some .hostname, none⟩,
    ⟨cstr "x_sendmail_domain_alias1", some "別名ドメイン名", .no, false, some .hostname, none⟩,
    ⟨cstr "x_sendmail_relay_id", none, .always, false, none, none⟩,
    ⟨cstr "x_sendmail_relay___T", some "リレー許可ホスト", .always, false, some .hostname, none⟩,
    ⟨cstr "x_named_enable", some "namedを使用する", .always, false, none, none⟩,
    ⟨cstr "x_named_zone_id", none, .always, false, none, none⟩,
    ⟨cstr "x_named_zone_name___T", some "ゾーン名", .always, false, some .hostname, none⟩,
    ⟨cstr "x_named_zone_typ___T", none, .always, false, none, none⟩,
    ⟨cstr "x_named_zone_record_id", none, .always, false, none, none⟩,
    ⟨cstr "x_named_zone_record_domain___T", some "レコード", .no, false, some .hostname, none⟩,
    ⟨cstr "x_named_zone_record_typ___T", some "レコード種別", .always, false, none, none⟩,
    ⟨cstr "x_named_zone_record_resource___T", some "レコード", .always, false, none, none⟩,
    ⟨cstr "x_named_zone_soa_mname__", some "ホスト名", .always, false, some .hostname, none⟩,
    ⟨cstr "x_named_zone_soa_rname__", some "メール・アドレス", .always, false, some .hostname, none⟩,
    ⟨cstr "x_named_zone_master__", some "マスタDNSサーバ", .always, false, some .ip4, none⟩,
    ⟨cstr "x_httpd_enable", some "httpdを使用する", .always, false, none, none⟩,
    ⟨cstr "x_httpd_chroot", some "Data Diectory に chroot する", .always, false, none, none⟩,
    ⟨cstr "x_httpd_dir", some "dir=", .always, false, some .unixpath, none⟩,
    ⟨cstr "x_httpd_cgipat", some "cgipat=", .always, false, some .unixpath, none⟩,
    ⟨cstr "x_httpd_logfile", some "logfile=", .always, false, some .unixpath, none⟩,
    ⟨cstr "x_samba_enable", some "sambaを使用する", .always, false, none, none⟩,
    ⟨cstr "x_samba_workgroup", some "ワークグループ名", .always, false, some .hostname, none⟩,
    ⟨cstr "x_samba_nmbd_enable", some "nmbdを使用する", .always, false, none, none⟩,
    ⟨cstr "x_netatalk_enable", some "NETATALKを使用する", .always, false, none, none⟩,
    ⟨cstr "x_login", none, .always, true, none, none⟩,
    ⟨cstr "x_passwd", none, .always, true, none, none⟩,
    ⟨cstr "x_key", none, .no, false, none, none⟩
  ]

/-- What an error or a change of this row is labelled with. -/
def VTab.label (v : VTab) : Text :=
  match v.desc with
  | some s => .lit s
  | none => .str v.key

/-- The row of a key. -/
def vtabRow (key : Bytes) : Option VTab := vtab.find? fun v ↦ v.key.isPrefixOf key

/-- `err_chk_sub`: the error in the value of `key`, if there is one. -/
def errChkSub (w : World) (p : Proc) (key : Bytes) : Option (Option ErrMsg) :=
  match vtabRow key with
  | none => some (some ⟨.str key, "重大なシステムエラー", none⟩)
  | some v =>
    if getval3 w key p = [] then
      some (if v.notNull.holds w p then some ⟨v.label, "値を入力してください", none⟩ else none)
    else
      match v.chk with
      | none => some none
      | some c => (c.run w p key (getval3 w key p)).map fun m ↦
          m.map fun m ↦ ⟨v.label, m.1, m.2⟩

/-- `err_chk_sub` accepts the value the store holds for the key. -/
def Accepts (w : World) (p : Proc) (key : Bytes) : Prop := errChkSub w p key = some none

instance (w : World) (p : Proc) (key : Bytes) : Decidable (Accepts w p key) :=
  inferInstanceAs (Decidable (_ = _))

/-- The setting an argument `i_...` stands for. -/
def xKey (key : Bytes) : Bytes := 120 :: key.tail

/-- Whether `err_chk` looks at an entry: it is an argument, and the last write changed it. -/
def Entry.checked (e : Entry) : Bool := e.flag == 3 && (cstr "i_").isPrefixOf e.key

/-- `err_chk`: the messages it collects.  The request is accepted if there is none. -/
def errChk (w : World) (p : Proc) : Option (List ErrMsg) :=
  ((p.env.filter Entry.checked).mapM fun e ↦ errChkSub w p (xKey e.key)).map List.reduceOption

/-- `output_change`: what is shown for each argument.  Here it is the key that has to be the
beginning of a name in the table, and the search ends at the first row that is not shown. -/
def outputChange (p : Proc) : Option (List (Text × Text)) :=
  (p.env.filter fun e ↦ (cstr "i_").isPrefixOf e.key).filterMapM fun e ↦
    match (vtab.takeWhile fun v ↦ !v.nodisp).find? fun v ↦ (xKey e.key).isPrefixOf v.key with
    | none => some none
    | some v =>
      match v.valdesc with
      | none => some (some (v.label, .str e.val))
      | some ds =>
        if atoi e.val < 0 then none
        else (ds[(atoi e.val).toNat]?).map fun d ↦ some (v.label, .lit d)

/-! ## What acceptance means -/

theorem accepts_iff {w : World} {p : Proc} {key : Bytes} {v : VTab} (h : vtabRow key = some v) :
    Accepts w p key ↔
      if getval3 w key p = [] then v.notNull.holds w p = false
      else ∀ c ∈ v.chk, c.run w p key (getval3 w key p) = some none := by
  rw [Accepts, errChkSub, h]
  simp only
  split
  · simp
  · cases v.chk <;> simp

theorem not_accepts_of_row_none {w : World} {p : Proc} {key : Bytes} (h : vtabRow key = none) :
    ¬ Accepts w p key := by
  simp [Accepts, errChkSub, h]

/-- **What `err_chk` accepts**: every argument that changed something has an accepted value. -/
theorem errChk_eq_nil_iff {w : World} {p : Proc} :
    errChk w p = some [] ↔ ∀ e ∈ p.env, e.checked = true → Accepts w p (xKey e.key) := by
  have key : ∀ es : List Entry,
      (es.mapM fun e ↦ errChkSub w p (xKey e.key)).map List.reduceOption = some [] ↔
        ∀ e ∈ es, Accepts w p (xKey e.key) := by
    intro es
    induction es with
    | nil => simp
    | cons e es ih =>
      rw [List.mapM_cons, List.forall_mem_cons, ← ih, Accepts]
      cases errChkSub w p (xKey e.key) with
      | none => simp
      | some m =>
        cases es.mapM fun e ↦ errChkSub w p (xKey e.key) with
        | none => simp
        | some ms => cases m <;> simp
  rw [errChk, key]
  simp only [List.mem_filter, and_imp]

end Setup
