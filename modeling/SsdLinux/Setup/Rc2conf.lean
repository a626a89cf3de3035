import SsdLinux.Setup.Ok
import SsdLinux.CLib.Stdio

/-!
# `rc2conf.c`: the configuration files of the services

`yazaki_main` reads the configuration and calls one generator for each service.  A generator takes
its settings out of the store with `getval` and prints files.  `Gen` is what comes of a call: the
store afterwards, the files that were written, and the value returned.

* A file that a generator fills up to a point before it gives up is written up to that point: the
  stream is never closed, but the program flushes it when it exits.
* `rc2sendmail` takes the list of the relays apart with `strtok`, which writes into the string it is
  given.  That string is the one in the store, so the store is part of the result (`strtokCut`).
* `get_ipnum` walks over the end of an address that has fewer than four groups.  What it finds there
  is up to the machine (`Machine.behind`).

Arrays that are too short for what is printed into them are modelled for `rc2named` (`zone` and
`key`, `rc2namedIn`).  Elsewhere, and where the generators run one after the other, these two and
the `val` of `valconv2`, which holds a line of a template with the setting in it, are taken to be
long enough.
-/

set_option autoImplicit false

namespace Setup

open CLib

/-- What the generators ask the machine for. -/
structure Machine where
  /-- The text of a file that can be opened for reading. -/
  read : Bytes → Option Bytes
  /-- Whether a file can be opened for writing. -/
  writable : Bytes → Bool
  /-- What lies behind the end of a string in memory. -/
  behind : Bytes → Bytes

/-- What a generator leaves. -/
structure Gen where
  proc : Proc
  /-- The files that were written, with their names. -/
  files : List (Bytes × Bytes)
  ret : Bool

variable (m : Machine) (w : World)

/-! ## `dhcpd.conf` -/

/-- `get_ipnum`: the number of the next group of an address, and where the one after it begins. -/
def getIpnum (s : Bytes) : BitVec 32 × Bytes :=
  let str := s.takeWhile fun c ↦ c != dot
  if str = [] ∨ 4 ≤ str.length then (0, s)
  else
    match scanInt str with
    | none => (0, s)
    | some (n, _) =>
      if 255 < n then (0, s)
      else
        (BitVec.ofInt 32 n, if str.length = s.length then m.behind s else s.drop (str.length + 1))

/-- The loop over the groups of the address and of the mask, with that many rounds to go. -/
def subnetGroups : ℕ → Bytes → Bytes → List (BitVec 32)
  | 0, _, _ => []
  | n + 1, adr, mask =>
    let (j, adr) := getIpnum m adr
    let (k, mask) := getIpnum m mask
    (j &&& k) :: subnetGroups n adr mask

/-- The key of a setting of `dhcpd` for an interface. -/
def dhcpdKey (name : Bytes) (no : ℕ) : Bytes := cstr "x_dhcpd_" ++ name ++ cstr "__eth" ++ dec no

/-- The settings that are printed if they are there, with what stands around them. -/
def dhcpdOptions : List (Bytes × Bytes × Bytes) :=
  [(cstr "routers", cstr "    option routers ", cstr ";\n"),
    (cstr "nameserver", cstr "    option domain-name-servers ", cstr ";\n"),
    (cstr "domainname", cstr "    option domain-name \"", cstr "\";\n")]

/-- The line with the addresses that are given out. -/
def rangeLine (no : ℕ) (p : Proc) : Bytes :=
  cstr "    range " ++ getval3 w (dhcpdKey (cstr "range1") no) p ++ blank ::
    (getval3 w (dhcpdKey (cstr "range2") no) p ++ cstr ";\n")

/-- `rc2dhcpd_sub`: what is printed for an interface. -/
def rc2dhcpdSub (no : ℕ) (p : Proc) : Bytes :=
  if 3 < no then []
  else if getval3 w (dhcpdKey (cstr "enable") no) p ≠ cstr "YES" then []
  else
    let submask := getval3 w (dhcpdKey (cstr "subnet_mask") no) p
    let range1 := getval3 w (dhcpdKey (cstr "range1") no) p
    cstr "subnet " ++ joinWith dot ((subnetGroups m 4 range1 submask).map fun b ↦ decInt b.toInt)
      ++ cstr " netmask " ++ submask ++ cstr " \x7b\n"
      ++ rangeLine w no p
      ++ (dhcpdOptions.flatMap fun (name, before, after) ↦
          let val := getval3 w (dhcpdKey name no) p
          if val = [] then [] else before ++ val ++ after)
      ++ cstr "\x7d\n"

def dhcpdConf : Bytes := cstr "/etc/dhcpd.conf"

/-- `rc2dhcpd`. -/
def rc2dhcpd (p : Proc) : Gen :=
  if m.writable dhcpdConf then
    ⟨p, [(dhcpdConf, cstr "# setup.cgi (dhcpd) \nddns-update-style none;\n"
      ++ (List.range 4).flatMap fun no ↦ rc2dhcpdSub m w no p)], true⟩
  else ⟨p, [], false⟩

/-! ## `local-host-names` and `relay-domains` -/

/-- A setting on a line of its own, if it is there. -/
def lineOf (val : Bytes) : Bytes := if val = [] then [] else val ++ [nl]

/-- What `strtok(s, " ")` returns, call after call: the runs of other bytes between the blanks.
`w` is the run being read. -/
def strtokGo : Bytes → Bytes → List Bytes
  | w, [] => if w = [] then [] else [w]
  | w, c :: s =>
    if c = blank then (if w = [] then strtokGo [] s else w :: strtokGo [] s)
    else strtokGo (w ++ [c]) s

def strtok (s : Bytes) : List Bytes := strtokGo [] s

/-- What `strtok` leaves of the string itself: a NUL takes the place of the blank behind the first
run. -/
def strtokCut (s : Bytes) : Bytes :=
  s.takeWhile (· == blank) ++ (s.dropWhile (· == blank)).takeWhile (· != blank)

/-- The store after `strtok` has been at the value of `key`. -/
def cutval (key : Bytes) (p : Proc) : Proc :=
  { p with env := Keyed.modify Entry.key key (fun e ↦ { e with val := strtokCut e.val }) p.env }

def localHostNames : Bytes := cstr "/etc/mail/local-host-names"

def relayDomains : Bytes := cstr "/etc/mail/relay-domains"

/-- The ids that the loop of `rc2sendmail` goes through.  The body comes before the test, so a list
of blanks gives one round with a null string. -/
def relayIds (buf : Bytes) : List Bytes :=
  if buf = [] then [] else if strtok buf = [] then [fmtS none] else strtok buf

/-- `rc2sendmail`, in the version for `SENDMAIL_V10`. -/
def rc2sendmail (p : Proc) : Gen :=
  if !m.writable localHostNames then ⟨p, [], false⟩
  else
    let names := lineOf (getval3 w (cstr "x_sendmail_my_official_smtp_hostname") p)
      ++ lineOf (getval3 w (cstr "x_sendmail_domain_alias1") p)
    if !m.writable relayDomains then ⟨p, [(localHostNames, names)], false⟩
    else
      let buf := getval3 w relayKey p
      let p' := cutval relayKey p
      ⟨p', [(localHostNames, names),
        (relayDomains, lineOf (getval3 w (cstr "x_sendmail_client_dom") p)
          ++ (relayIds buf).flatMap fun id ↦ lineOf (getval3 w ((relayKey ++ id).take 31) p'))],
        true⟩

/-! ## The name server -/

/-- The types of records that have one word of data. -/
def plainTypes : List Bytes := [cstr "A", cstr "AAAA", cstr "PTR", cstr "NS", cstr "CNAME"]

/-- The line of the zone file for the pieces of a record. -/
def zonedbLine : List Bytes → Bytes
  | [name, typ, data] =>
    if typ ∈ plainTypes then name ++ cstr "\tIN\t" ++ typ ++ cstr "\t" ++ data ++ [nl] else []
  | [name, typ, pref, data] =>
    if typ = cstr "MX" then
      name ++ cstr "\tIN\t" ++ typ ++ cstr "\t" ++ pref ++ cstr "\t" ++ data ++ [nl]
    else []
  | _ => []

/-- The key of the list of the records of a zone. -/
def zonedbKey (no : Bytes) : Bytes := cstr "x_named_zone_record__" ++ no ++ cstr "__"

/-- `rc2named_zonedb`: the records of the zone `no`. -/
def rc2namedZonedb (no : Bytes) (p : Proc) : Bytes :=
  (listSplit 0 (some (getval3 w (zonedbKey no) p))).flatMap fun item ↦
    zonedbLine (listSplit 0 (some (getval3 w (zonedbKey no ++ item) p)))

/-- `str_named_zone_master`. -/
def masterStanza (name : Bytes) : Bytes :=
  cstr "zone \"" ++ name ++ cstr "\" \x7b\n   type master;\n   file \"" ++ cstr "db" ++ slash :: name
    ++ cstr "\";\n\x7d;\n"

/-- `str_named_zone_slave`. -/
def slaveStanza (name master : Bytes) : Bytes :=
  cstr "zone \"" ++ name ++ cstr "\" \x7b\n   type slave;\n   file \"" ++ cstr "2nd" ++ slash :: name
    ++ cstr "\";\n   masters \x7b\n       " ++ master ++ cstr ";\n   \x7d;\n\x7d;\n"

/-- `str_named_zone_db_head`. -/
def zonedbHead (name mname rname : Bytes) (serial : ℤ) : Bytes :=
  cstr "; zone '" ++ name ++ cstr "'\n$TTL 3600\n@\tIN\tSOA\t" ++ mname ++ cstr ". " ++ rname
    ++ cstr ".  (\n\t\t\t\t" ++ decInt serial ++ cstr "\t; Serial\n\t\t\t\t3600\t\t; Refresh\n"
    ++ cstr "\t\t\t\t300\t\t; Retry\n\t\t\t\t3600000\t\t; Expire\n\t\t\t\t3600)\t\t; Minimum\n"

/-- The file with the records of a zone. -/
def zonedbPath (name : Bytes) : Bytes := cstr "/etc/namedb/" ++ cstr "db" ++ slash :: name

/-- What `rc2named_zone` leaves: what it prints into `named.conf`, the file it writes, and the value
it returns. -/
structure ZoneOut where
  conf : Bytes
  db : Option (Bytes × Bytes)
  ret : Bool
  deriving DecidableEq

/-- `rc2named_zone`, with arrays that are long enough. -/
def rc2namedZone (serial : ℤ) (p : Proc) (no : Bytes) : ZoneOut :=
  match listSplit 0 (some (getval3 w (zoneKey ++ no) p)) with
  | [typ, name] =>
    if typ = cstr "master" then
      if m.writable (zonedbPath name) then
        ⟨masterStanza name, some (zonedbPath name,
          zonedbHead name (fmtS (getval w (cstr "x_named_zone_soa_mname__" ++ no) p))
            (fmtS (getval w (cstr "x_named_zone_soa_rname__" ++ no) p)) serial
            ++ rc2namedZonedb w no p), true⟩
      else ⟨masterStanza name, none, false⟩
    else if typ = cstr "slave" then
      ⟨slaveStanza name (getval3 w (cstr "x_named_zone_master__" ++ no) p), none, true⟩
    else ⟨[], none, true⟩
  | _ => ⟨[], none, false⟩

/-- The loop over the zones, which ends with the first call that does not return 1. -/
def zoneCalls (zone : Bytes → ZoneOut) : List Bytes → List ZoneOut
  | [] => []
  | no :: nos => zone no :: if (zone no).ret then zoneCalls zone nos else []

def namedDefault : Bytes := cstr "/usr/contrib/etc/defaults/named.conf"

def namedConf : Bytes := cstr "/etc/namedb/named.conf"

/-- The calls of `rc2named_zone` for the zones of the store. -/
def namedCalls (serial : ℤ) (p : Proc) : List ZoneOut :=
  zoneCalls (rc2namedZone m w serial p) (listSplit 0 (some (getval3 w zoneKey p)))

/-- What `rc2named` leaves, given the calls in its loop. -/
def namedGen (p : Proc) (base : Bytes) (calls : List ZoneOut) : Gen :=
  ⟨p, (namedConf, cstr "# setup.cgi (named)\n" ++ (fgetsAll 511 base).flatten
      ++ (calls.map ZoneOut.conf).flatten) :: calls.filterMap ZoneOut.db,
    calls.all ZoneOut.ret⟩

/-- `rc2named`, with arrays that are long enough. -/
def rc2named (serial : ℤ) (p : Proc) : Gen :=
  match m.read namedDefault with
  | none => ⟨p, [], false⟩
  | some base =>
    if m.writable namedConf then namedGen p base (namedCalls m w serial p) else ⟨p, [], false⟩

/-- What a call of `rc2named_zone` prints into its `zone` and into the `key` of `rc2named_zonedb`,
with the sizes of the arrays. -/
def zoneArrays (p : Proc) (no : Bytes) : List (Bytes × ℕ) :=
  (zoneKey ++ no, 128) :: match listSplit 0 (some (getval3 w (zoneKey ++ no) p)) with
    | [typ, name] =>
      if typ = cstr "master" then
        if m.writable (zonedbPath name) then [(zonedbKey no, 256)] else []
      else if typ = cstr "slave" then [(cstr "x_named_zone_master__" ++ no, 128)] else []
    | _ => []

/-- The arrays have room for the strings, each with its NUL. -/
def ZoneFits (p : Proc) (no : Bytes) : Prop := ∀ a ∈ zoneArrays m w p no, a.1.length < a.2

instance (p : Proc) (no : Bytes) : Decidable (ZoneFits m w p no) :=
  inferInstanceAs (Decidable (∀ a ∈ zoneArrays m w p no, _))

/-- `rc2named_zone` with its arrays.  Nothing can be said about a call that writes behind one. -/
def rc2namedZoneIn (serial : ℤ) (p : Proc) (no : Bytes) : Option ZoneOut :=
  if ZoneFits m w p no then some (rc2namedZone m w serial p no) else none

/-- The loop over the zones, where a call may leave nothing to go on from. -/
def zoneCallsIn (zone : Bytes → Option ZoneOut) : List Bytes → Option (List ZoneOut)
  | [] => some []
  | no :: nos => (zone no).bind fun out ↦
    if out.ret then (zoneCallsIn zone nos).map (out :: ·) else some [out]

/-- `rc2named`. -/
def rc2namedIn (serial : ℤ) (p : Proc) : Option Gen :=
  match m.read namedDefault with
  | none => some ⟨p, [], false⟩
  | some base =>
    if m.writable namedConf then
      (zoneCallsIn (rc2namedZoneIn m w serial p) (listSplit 0 (some (getval3 w zoneKey p)))).map
        (namedGen p base)
    else some ⟨p, [], false⟩

/-- `str_named_local_head`. -/
def localHead (serial : ℤ) (p : Proc) : Bytes :=
  let host := fmtS (getval w (cstr "x_hostname") p)
  let domain := fmtS (getval w (cstr "x_domainname") p)
  cstr "$TTL 86400\n@\tIN\tSOA\t" ++ host ++ dot :: (domain ++ cstr ". root." ++ domain)
    ++ cstr ".  (\n\t\t\t\t" ++ decInt serial ++ cstr "\t; Serial\n\t\t\t\t10800\t\t; Refresh\n"
    ++ cstr "\t\t\t\t3600\t\t; Retry\n\t\t\t\t604800\t\t; Expire\n\t\t\t\t86400)\t\t; Minimum\n"

/-- The files of `rc2named_local`, and what stands in them after the head. -/
def localZones : List (Bytes × Bytes) :=
  [(cstr "/etc/namedb/localhost",
      cstr "\t\tIN\tNS\tlocalhost.\nlocalhost.\tIN\tA\t127.0.0.1\n\t\tIN\tAAAA\t::1\n"),
    (cstr "/etc/namedb/127", cstr "\t\tIN\tNS\tlocalhost.\n1.0.0\t\tIN\tPTR\tlocalhost.\n"),
    (cstr "/etc/namedb/loopback.v6", cstr "\t\tIN\tNS\tlocalhost.\n1\t\tIN\tPTR\tlocalhost.\n")]

/-- `rc2named_local`, which ends with the first file that cannot be opened. -/
def rc2namedLocal (serial : ℤ) (p : Proc) : Gen :=
  let opened := localZones.takeWhile fun z ↦ m.writable z.1
  ⟨p, opened.map fun z ↦ (z.1, localHead w serial p ++ z.2), opened.length == localZones.length⟩

/-! ## The resolver, the web server and samba -/

def nameserverKeys : List Bytes :=
  [cstr "x_nameserver", cstr "x_nameserver2", cstr "x_nameserver3", cstr "x_nameserver4"]

def resolvConf : Bytes := cstr "/etc/resolv.conf"

/-- `rc2resolv`. -/
def rc2resolv (p : Proc) : Gen :=
  let line (name val : Bytes) : Bytes := if val = [] then [] else name ++ val ++ [nl]
  if m.writable resolvConf then
    ⟨p, [(resolvConf, line (cstr "domain ") (getval3 w (cstr "x_domain") p)
      ++ nameserverKeys.flatMap fun k ↦ line (cstr "nameserver ") (getval3 w k p))], true⟩
  else ⟨p, [], false⟩

/-- A line with its first occurrence of `param` replaced, if there is one. -/
def replaceFirst (param val : Bytes) : Bytes → Option Bytes
  | [] => if param = [] then some val else none
  | c :: s =>
    if param.isPrefixOf (c :: s) then some (val ++ (c :: s).drop param.length)
    else (replaceFirst param val s).map (c :: ·)

/-- `valconv2`: the first of the parameters that occurs in a line gives way to its setting. -/
def valconv2 (rensoh : List (Bytes × Bytes)) (p : Proc) (base : Bytes) : Bytes :=
  (fgetsAll 1023 base).flatMap fun line ↦
    (rensoh.findSome? fun (param, key) ↦ replaceFirst param (getval3 w key p) line).getD line

def httpdDefault : Bytes := cstr "/usr/contrib/etc/defaults/thttpd.conf"

def httpdConf : Bytes := cstr "/usr/contrib/etc/thttpd.conf"

/-- `rc2httpd`. -/
def rc2httpd (p : Proc) : Gen :=
  match m.read httpdDefault with
  | none => ⟨p, [], false⟩
  | some base =>
    if m.writable httpdConf then
      ⟨p, [(httpdConf, valconv2 w [(cstr "_$_DIR_$_", cstr "x_httpd_dir"),
          (cstr "_$_CGIPAT_$_", cstr "x_httpd_cgipat"),
          (cstr "_$_LOGFILE_$_", cstr "x_httpd_logfile")] p base
        ++ if getval3 w (cstr "x_httpd_chroot") p = cstr "YES" then cstr "chroot\n" else [])], true⟩
    else ⟨p, [], false⟩

def sambaDefault : Bytes := cstr "/usr/contrib/etc/defaults/smb.conf"

def sambaConf : Bytes := cstr "/usr/contrib/samba/lib/smb.conf"

/-- `rc2samba`. -/
def rc2samba (p : Proc) : Gen :=
  match m.read sambaDefault with
  | none => ⟨p, [], false⟩
  | some base =>
    if m.writable sambaConf then
      ⟨p, [(sambaConf, valconv2 w [(cstr "MYGROUP", cstr "x_samba_workgroup"),
        (cstr "LinuxServer", cstr "x_hostname")] p base)], true⟩
    else ⟨p, [], false⟩

/-! ## All of them -/

/-- The generators that `yazaki_main` calls. -/
inductive Generator
  | dhcpd | sendmail | named | resolv | httpd | namedLocal | samba
  deriving DecidableEq, Repr

/-- The call of a generator; `serial` is what `time` says. -/
def Generator.run (g : Generator) (serial : ℤ) (p : Proc) : Gen :=
  match g with
  | dhcpd => rc2dhcpd m w p
  | sendmail => rc2sendmail m w p
  | named => rc2named m w serial p
  | resolv => rc2resolv m w p
  | httpd => rc2httpd m w p
  | namedLocal => rc2namedLocal m w serial p
  | samba => rc2samba m w p

/-- Generators one after the other: the store they leave, and the files they write. -/
def runGenerators (serial : ℤ) : List Generator → Proc → Proc × List (Bytes × Bytes)
  | [], p => (p, [])
  | g :: gs, p =>
    let r := g.run m w serial p
    let rest := runGenerators serial gs r.proc
    (rest.1, r.files ++ rest.2)

/-- The generators of `yazaki_main`, in its order. -/
def yazakiGenerators (custom0 : Bool) : List Generator :=
  [.dhcpd, .sendmail, .named, .resolv, .httpd, .namedLocal] ++ if custom0 then [.samba] else []

end Setup
