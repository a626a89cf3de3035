import SsdLinux.Setup.List
import SsdLinux.Setup.Conf

/-!
# `ok.c`: what the pages do with an accepted request

Every page of the menu has a function that is called once the arguments have passed `err_chk`, and
some have one that carries out deletions.  Most of them just write the store to `tmp.conf`.  The
others keep *registries*: a list key such as `x_fw__` holds the ids that are in use, with blanks
between them, and `x_fw__5` holds the record of the id 5.  Two pages run commands.

What a function does is collected in a `Result`.  Where the source calls `write_conf` it does so
last, so the result only says that it was called.  A function that follows a null pointer kills the
process; it has written no file by then, and has no result (`none`).

`printf` prints a null string as `(null)`, and several records are built that way.
-/

set_option autoImplicit false

namespace Setup

open CLib

/-- The return values. -/
inductive Status
  | ng | ok | okSave | okNosave | cont
  deriving DecidableEq, Repr

/-- What a function of `ok.c` has done when it returns. -/
structure Result where
  status : Status
  proc : Proc
  /-- Whether `write_conf` was called. -/
  wrote : Bool
  /-- Whether `RC_CONF_TMP` was renamed to `RC_CONF`. -/
  renamed : Bool
  /-- The arguments of `system`. -/
  cmds : List Bytes

/-- Return without writing anything. -/
def ret (st : Status) (p : Proc) : Result := ⟨st, p, false, false, []⟩

/-- `write_conf(); return st;` -/
def retWrite (st : Status) (p : Proc) : Result := ⟨st, p, true, false, []⟩

@[simp] theorem proc_ret (st : Status) (p : Proc) : (ret st p).proc = p := rfl
@[simp] theorem proc_retWrite (st : Status) (p : Proc) : (retWrite st p).proc = p := rfl

/-- What the functions know besides the store: `HTML_script_arg1` and `HTML_script_arg2`. -/
structure Ctx where
  world : World
  arg1 : Bytes
  arg2 : Bytes

/-- A function of the menu. -/
abbrev Hook := Ctx → Bytes → Proc → Option Result

/-- `%s`, which prints a null string too. -/
def fmtS (s : Option Bytes) : Bytes := s.getD (cstr "(null)")

/-- `%x`. -/
def hex (n : ℕ) : Bytes := (Nat.toDigits 16 n).map fun c ↦ c.toNat.toUInt8

/-! ## Pages that only write -/

def okDhcp : Hook := fun _ _ p ↦ some (retWrite .ok p)

def okHttpd : Hook := fun _ _ p ↦ some (retWrite .ok p)

def okMasq : Hook := fun _ _ p ↦ some (retWrite .ok p)

def okSamba : Hook := fun _ _ p ↦ some (retWrite .ok p)

def okNamedSlave : Hook := fun _ _ p ↦ some (retWrite .ok p)

def okNamedMasterSoa : Hook := fun _ _ p ↦ some (retWrite .ok p)

/-- `ok_save`. -/
def okSave : Hook := fun _ _ p ↦ some ⟨.okSave, p, false, true, []⟩

/-! ## Registries -/

/-- The items of a list key. -/
def items (w : World) (listKey : Bytes) (p : Proc) : List Bytes :=
  listSplit 0 (some (getval3 w listKey p))

theorem items_eq {w : World} {listKey : Bytes} (h : listKey ∉ clockKeys) (p : Proc) :
    items w listKey p = listSplit 0 (some ((stored listKey p).getD [])) := by
  rw [items, getval3_eq h]

/-- A list that is not there has no items. -/
theorem listSplit_getval (w : World) (listKey : Bytes) (p : Proc) :
    listSplit 0 (getval w listKey p) = items w listKey p := by
  rw [items, getval3]
  cases getval w listKey p <;> rfl

/-- `add`: the id under `idKey` joins the list, unless it is there already; the number it stands for
is returned, and `CONT` if it was there.  The id is taken as it is. -/
def add (w : World) (listKey idKey : Bytes) (p : Proc) : Option (Proc × ℤ) :=
  (getval w idKey p).map fun n ↦
    if listGrepItem (items w listKey p) n then (p, 4)
    else (putval listKey (listJoin (listPush (items w listKey p) n)) RC_bWRITE p, atoi n)

/-- The name of a record: the list key and the number of the record. -/
def recKey (listKey : Bytes) (n : ℤ) : Bytes := listKey ++ decInt n

/-- `ok_named_master`: a record of the zone `HTML_script_arg2` is added. -/
def okNamedMaster : Hook := fun ctx _ p ↦
  let w := ctx.world
  let p :=
    if getval w (cstr "x_named_zone_record_id") p = none
    then putval (cstr "x_named_zone_record_id") (cstr "0") RC_bWRITE p else p
  let listKey := cstr "x_named_zone_record__" ++ decInt (atoi ctx.arg2) ++ cstr "__"
  (add w listKey (cstr "x_named_zone_record_id") p).map fun (p, n) ↦
    match getval w (cstr "x_named_zone_record_domain___T") p,
        getval w (cstr "x_named_zone_record_typ___T") p,
        getval w (cstr "x_named_zone_record_resource___T") p with
    | some domain, some typ, some res =>
      retWrite .cont (putval (recKey listKey n) (listJoin [domain, typ, res]) RC_bWRITE p)
    | _, _, _ => retWrite .cont p

/-- The list of the zones. -/
abbrev zoneKey : Bytes := cstr "x_named_zone__"

/-- What `ok_named2` files for the zone `n`: its record and who is responsible for it, if its type
and its name are there. -/
def zoneRecord (w : World) (n : ℤ) (p : Proc) : Proc :=
  match getval w (cstr "x_named_zone_typ___T") p, getval w (cstr "x_named_zone_name___T") p with
  | some typ, some name =>
    let p := putval (recKey zoneKey n) (listJoin [typ, name]) RC_bWRITE p
    let p := putval (recKey (cstr "x_named_zone_soa_mname__") n)
      (joinWith dot [fmtS (getval w (cstr "x_hostname") p),
        fmtS (getval w (cstr "x_domainname") p)]) RC_bWRITE p
    putval (recKey (cstr "x_named_zone_soa_rname__") n)
      (cstr "root." ++ fmtS (getval w (cstr "x_domainname") p)) RC_bWRITE p
  | _, _ => p

/-- The last branch of `ok_named2`: a zone is added. -/
def addZone : Hook := fun ctx _ p ↦
  (add ctx.world zoneKey (cstr "x_named_zone_id") p).map fun (p, n) ↦
    retWrite .cont (zoneRecord ctx.world n p)

/-- `ok_named2`. -/
def okNamed2 : Hook := fun ctx arg p ↦
  (getval ctx.world (cstr "typ") p).bind fun typ ↦
    if typ = cstr "named_master_soa" then okNamedMasterSoa ctx arg p
    else if ctx.arg1.head? = some 109 then okNamedMaster ctx arg p
    else if ctx.arg1.head? = some 115 then okNamedSlave ctx arg p
    else addZone ctx arg p

/-- `ok_named`. -/
def okNamed : Hook := fun ctx arg p ↦
  if arg.head? = some 50 then okNamed2 ctx arg p
  else if ctx.arg1.head? = some 109 then okNamedMaster ctx arg p
  else if ctx.arg1.head? = some 115 then okNamedSlave ctx arg p
  else some (retWrite .ok p)

/-- What `ok_sendmail2`, `ok_portfw` and `ok_fw` share: the number under `idKey` joins the list, in
decimal, and `record` is done.  Nothing is done, and nothing written, if it is there already. -/
def addId (w : World) (listKey idKey : Bytes) (record : ℤ → Proc → Proc) (p : Proc) : Result :=
  let n := getvalInt w idKey p
  if listGrepItem (items w listKey p) (decInt n) then ret .cont p
  else
    retWrite .cont (record n
      (putval listKey (listJoin (listPush (items w listKey p) (decInt n))) RC_bWRITE p))

abbrev relayKey : Bytes := cstr "x_sendmail_relay__"

/-- What `ok_sendmail2` files for the relay `n`: its name, if there is one. -/
def relayRecord (w : World) (n : ℤ) (p : Proc) : Proc :=
  delval (cstr "x_sendmail_relay___T")
    (match getval w (cstr "x_sendmail_relay___T") p with
    | some val => putval (recKey relayKey n) val RC_bWRITE p
    | none => p)

/-- `ok_sendmail2`. -/
def okSendmail2 : Hook := fun ctx _ p ↦
  some (addId ctx.world relayKey (cstr "x_sendmail_relay_id") (relayRecord ctx.world) p)

/-- `ok_sendmail`. -/
def okSendmail : Hook := fun ctx arg p ↦
  if arg.head? = some 50 then okSendmail2 ctx arg p else some (retWrite .ok p)

abbrev portfwKey : Bytes := cstr "x_portfw__"

/-- The fields of a port-forwarding rule. -/
def portfwFields : List Bytes :=
  [cstr "x_portfw_proto___T", cstr "x_portfw_interface___T", cstr "x_portfw_src_port___T",
    cstr "x_portfw_dst_ip___T", cstr "x_portfw_dst_port___T"]

/-- What `ok_portfw` files for the rule `n`. -/
def portfwRecord (w : World) (n : ℤ) (p : Proc) : Proc :=
  putval (recKey portfwKey n) (listJoin (portfwFields.map fun k ↦ fmtS (getval w k p)))
    RC_bWRITE p

/-- `ok_portfw`. -/
def okPortfw : Hook := fun ctx _ p ↦
  some (addId ctx.world portfwKey (cstr "x_portfw_id") (portfwRecord ctx.world) p)

abbrev fwKey : Bytes := cstr "x_fw__"

/-- The fields of a filter rule, after its number. -/
def fwFields : List Bytes :=
  [cstr "x_fw_proto___T", cstr "x_fw_src_ip___T", cstr "x_fw_src_subnet_mask___T",
    cstr "x_fw_src_port___T", cstr "x_fw_dst_ip___T", cstr "x_fw_dst_subnet_mask___T",
    cstr "x_fw_dst_port___T", cstr "x_fw_action___T"]

/-- What `ok_fw` files for the rule `n`. -/
def fwRecord (w : World) (n : ℤ) (p : Proc) : Proc :=
  putval (recKey fwKey n) (listJoin (decInt n :: fwFields.map fun k ↦ fmtS (getval w k p)))
    RC_bWRITE p

/-- `ok_fw`, which also takes the requests of the port-forwarding form. -/
def okFw : Hook := fun ctx arg p ↦
  if arg = [] ∨ arg.head? = some 49 then okPortfw ctx arg p
  else some (addId ctx.world fwKey (cstr "x_fw_id") (fwRecord ctx.world) p)

/-! ## Network -/

/-- `sscanf(s, "%d.%d.%d.%d", …)` into variables that hold something already. -/
def scanDots : List (BitVec 32) → Bytes → List (BitVec 32)
  | [], _ => []
  | v :: vs, s =>
    match scanInt s with
    | none => v :: vs
    | some (n, r) =>
      BitVec.ofInt 32 n :: (if r.head? = some dot then scanDots vs r.tail else vs)

theorem length_scanDots (vs : List (BitVec 32)) (s : Bytes) :
    (scanDots vs s).length = vs.length := by
  induction vs generalizing s with
  | nil => rfl
  | cons u vs ih =>
    rw [scanDots]
    split
    · rfl
    · split
      · rw [List.length_cons, ih, List.length_cons]
      · rfl

/-- The broadcast address of an address and a mask, as text. -/
def bcastText (adr mask : List (BitVec 32)) : Bytes :=
  joinWith dot ((adr.zipWith (fun a m ↦ (a &&& m) ||| (0xff &&& ~~~m)) mask).map fun b ↦
    decInt b.toInt)

/-- One half of `ok_network`; `adr` and `mask` are the two arrays of the source. -/
def ethBroadcast (w : World) (adrKey maskKey bcastKey : Bytes)
    (st : List (BitVec 32) × List (BitVec 32) × Proc) :
    List (BitVec 32) × List (BitVec 32) × Proc :=
  match getval w adrKey st.2.2, getval w maskKey st.2.2 with
  | some adr, some mask =>
    let adrIp4 := scanDots st.1 adr
    let maskIp4 := scanDots st.2.1 mask
    (adrIp4, maskIp4, putval bcastKey (bcastText adrIp4 maskIp4) RC_bWRITE st.2.2)
  | _, _ => st

/-- The arrays keep their lengths. -/
theorem length_ethBroadcast {w : World} {adrKey maskKey bcastKey : Bytes}
    (st : List (BitVec 32) × List (BitVec 32) × Proc) :
    (ethBroadcast w adrKey maskKey bcastKey st).1.length = st.1.length ∧
      (ethBroadcast w adrKey maskKey bcastKey st).2.1.length = st.2.1.length := by
  rw [ethBroadcast]
  split
  · exact ⟨length_scanDots .., length_scanDots ..⟩
  · exact ⟨rfl, rfl⟩

/-- Nothing else is written. -/
theorem getval_ethBroadcast {w : World} {adrKey maskKey bcastKey k : Bytes} (hk : k ≠ bcastKey)
    (st : List (BitVec 32) × List (BitVec 32) × Proc) :
    getval w k (ethBroadcast w adrKey maskKey bcastKey st).2.2 = getval w k st.2.2 := by
  rw [ethBroadcast]
  split
  · exact getval_putval_ne hk _ _ _
  · rfl

/-- `ok_network`. -/
def okNetwork : Hook := fun ctx _ p ↦
  let w := ctx.world
  let arr (i : ℕ) : List (BitVec 32) := (List.range' i 4).map fun j ↦ BitVec.ofInt 32 (w.stack j)
  let st := ethBroadcast w (cstr "x_eth_adr__eth0") (cstr "x_eth_subnet_mask__eth0")
    (cstr "x_eth_broadcast__eth0") (arr 0, arr 4, p)
  let st := ethBroadcast w (cstr "x_eth_adr__eth1") (cstr "x_eth_subnet_mask__eth1")
    (cstr "x_eth_broadcast__eth1") st
  some (retWrite .ok st.2.2)

/-- The interface part of an IPv6 address, made of the hardware address. -/
def ipv6Local (p : Fin 6 → ℕ) : Bytes :=
  joinWith colon [hex ((p 0 ^^^ 2) * 256 + p 1), hex (p 2 * 256 + 0xff), hex (0xfe00 + p 3),
    hex (p 4 * 256 + p 5)]

/-- `ok_ipv6`. -/
def okIpv6 : Hook := fun ctx _ p ↦
  let p := putval (cstr "x_ipv6_local__eth0") (ipv6Local (ctx.world.hwAddr (cstr "eth0")))
    RC_bWRITE p
  some (retWrite .ok (putval (cstr "x_ipv6_local__eth1")
    (ipv6Local (ctx.world.hwAddr (cstr "eth1"))) RC_bWRITE p))

/-! ## System and users -/

/-- The six calls of `setvalflag` at the head of `ok_system` and `ok_system3`. -/
def hideClock (p : Proc) : Proc := clockKeys.foldl (fun p k ↦ setvalflag k RC_bNULL p) p

/-- The command of `ok_system3`. -/
def ntpdateCmd (n : Bytes) : Bytes := cstr "/usr/sbin/ntpdate " ++ n

/-- `ok_system3`. -/
def okSystem3 : Hook := fun ctx _ p ↦
  (getval ctx.world (cstr "x_ntp_hostname") (hideClock p)).map fun n ↦
    { retWrite .ok (hideClock p) with cmds := if 6 < n.length then [ntpdateCmd n] else [] }

/-- `ok_system2`, which sets the clock of the machine. -/
def okSystem2 : Hook := fun _ _ p ↦ some (ret .okNosave p)

/-- `ok_system`. -/
def okSystem : Hook := fun ctx arg p ↦
  if arg.head? = some 50 then okSystem2 ctx arg p
  else if arg.head? = some 51 then okSystem3 ctx arg p
  else some (retWrite .ok (hideClock p))

/-- The command of `ok_user`; `passwd` is the encrypted one. -/
def useraddCmd (uid passwd login name : Bytes) : Bytes :=
  cstr "/usr/sbin/useradd -m -u " ++ uid ++ cstr " -g " ++ decInt 100 ++ cstr " -p " ++ passwd
    ++ cstr " -d " ++ cstr "/home" ++ cstr "/" ++ login ++ cstr " -c '" ++ name ++ cstr "' "
    ++ login ++ cstr " > /dev/null"

/-- `ok_user`. -/
def okUser : Hook := fun ctx _ p ↦
  let w := ctx.world
  (getval w (cstr "x_user_passwd___T") p).bind fun passwd1 ↦
    (getval w (cstr "x_user_passwd2___T") p).map fun passwd2 ↦
      if passwd1 ≠ passwd2 then ret .ng p
      else
        { ret .cont p with
          cmds := [useraddCmd (fmtS (getval w (cstr "x_user_id") p))
            (w.crypt passwd1 (dec w.pid)) (fmtS (getval w (cstr "x_user_login___T") p))
            (fmtS (getval w (cstr "x_user_name___T") p))] }

/-! ## Deletions -/

/-- The commands of `del_user`. -/
def delUser (w : World) (uid : ℤ) : List Bytes :=
  match w.pwName uid with
  | none => []
  | some user =>
    (cstr "/usr/sbin/userdel -r " ++ user) ::
      match w.grName uid with
      | none => []
      | some group => [cstr "/usr/sbin/groupdel " ++ group]

/-- `del_ent`. -/
def delEnt (w : World) (key tgt : Bytes) (p : Proc) : Proc :=
  putval key (listJoin (listRemoveItem (listSplit 0 (getval w key p)) tgt)) RC_bWRITE p

/-- The id in the name of a submit button `d__5`. -/
def delId (key : Bytes) : Option ℤ :=
  if (cstr "d__").isPrefixOf key then (scanInt (key.drop 3)).map Prod.fst else none

/-- The list key that `del` takes an id from. -/
def delList (arg2 typ : Bytes) : Option Bytes :=
  if typ = cstr "sendmail" then some relayKey
  else if typ = cstr "user" then none
  else if typ = cstr "portfw" then some portfwKey
  else if typ = cstr "fw" then some fwKey
  else if typ = cstr "named" then some zoneKey
  else if typ = cstr "named_master" then some (cstr "x_named_zone_record__" ++ arg2 ++ cstr "__")
  else none

/-- `del`: the first `d__…` of the store says what to delete.  Without one, the loop runs into the
null pointer at the end of the list. -/
def del : Hook := fun ctx _ p ↦
  let w := ctx.world
  (p.env.findSome? fun e ↦ delId e.key).bind fun id ↦
    (getval w (cstr "typ") p).map fun typ ↦
      match delList ctx.arg2 typ with
      | some key => retWrite .ok (delEnt w key (decInt id) p)
      | none =>
        { retWrite .ok p with cmds := if typ = cstr "user" then delUser w id else [] }

/-! ## What the functions may change -/

/-- Whether a key begins in one of these ways. -/
def beginsWith (ps : List Bytes) (k : Bytes) : Bool := ps.any fun s ↦ s.isPrefixOf k

theorem beginsWith_append {ps : List Bytes} {s : Bytes} (h : beginsWith ps s = true) (t : Bytes) :
    beginsWith ps (s ++ t) = true := by
  obtain ⟨q, hq, hs⟩ := List.any_eq_true.mp h
  rw [List.isPrefixOf_iff_prefix] at hs
  exact List.any_eq_true.mpr
    ⟨q, hq, List.isPrefixOf_iff_prefix.mpr (hs.trans (List.prefix_append s t))⟩

theorem beginsWith_mono {ps ps' : List Bytes} (hsub : ps ⊆ ps') {k : Bytes}
    (h : beginsWith ps k = true) : beginsWith ps' k = true := by
  obtain ⟨q, hq, hs⟩ := List.any_eq_true.mp h
  exact List.any_eq_true.mpr ⟨q, hsub hq, hs⟩

/-- A key begins in only one of two ways, if neither is the beginning of the other. -/
theorem not_beginsWith {ps ps' : List Bytes}
    (hps : ∀ s ∈ ps, ∀ t ∈ ps', ¬ s <+: t ∧ ¬ t <+: s) {k : Bytes} (h : beginsWith ps k = true) :
    beginsWith ps' k = false := by
  rw [Bool.eq_false_iff]
  intro h'
  obtain ⟨s, hs, hsk⟩ := List.any_eq_true.mp h
  obtain ⟨t, ht, htk⟩ := List.any_eq_true.mp h'
  rw [List.isPrefixOf_iff_prefix] at hsk htk
  exact (List.prefix_or_prefix_of_prefix hsk htk).elim (hps s hs t ht).1 (hps s hs t ht).2

/-- The beginnings of the keys the functions write themselves: registries, records, and what they
compute. -/
def ownPrefixes : List Bytes :=
  [fwKey, portfwKey, relayKey, zoneKey, cstr "x_named_zone_soa_mname__",
    cstr "x_named_zone_soa_rname__", cstr "x_named_zone_record_", cstr "x_eth_broadcast__",
    cstr "x_ipv6_local__"]

/-- The keys the functions write themselves. -/
def ownKey (k : Bytes) : Bool := beginsWith ownPrefixes k

/-- What a function that writes keys with these beginnings may do to the store. -/
def ownFrame (ps : List Bytes) : Frame where
  put q := beginsWith ps q.key = true ∧ q.sw = RC_bWRITE
  hide k := k ∈ clockKeys
  del k := k = cstr "x_sendmail_relay___T"

variable {ps ps' : List Bytes}

theorem ownEdits_put {k : Bytes} (h : beginsWith ps k = true) (v : Bytes) (p : Proc) :
    Edits (ownFrame ps) p (putval k v RC_bWRITE p) :=
  edits_putval (show (ownFrame ps).put ⟨k, v, RC_bWRITE⟩ from ⟨h, rfl⟩) p

theorem ownEdits_add {w : World} {listKey idKey : Bytes} (h : beginsWith ps listKey = true)
    {p p' : Proc} {n : ℤ} (hadd : add w listKey idKey p = some (p', n)) :
    Edits (ownFrame ps) p p' := by
  obtain ⟨id, -, he⟩ := Option.map_eq_some_iff.mp hadd
  split at he
  · cases he
    exact .refl
  · cases he
    exact ownEdits_put h _ p

theorem ownEdits_addId {w : World} {listKey idKey : Bytes} (h : beginsWith ps listKey = true)
    {record : ℤ → Proc → Proc} (hrec : ∀ n p, Edits (ownFrame ps) p (record n p)) (p : Proc) :
    Edits (ownFrame ps) p (addId w listKey idKey record p).proc := by
  simp only [addId]
  split
  · exact .refl
  · exact (ownEdits_put h _ p).trans (hrec _ _)

theorem ownEdits_hideClock (p : Proc) : Edits (ownFrame ps) p (hideClock p) :=
  edits_hide (F := ownFrame ps) (fun _ h ↦ h) p

/-- A function of the menu that writes only keys with these beginnings. -/
def Hook.Tame (ps : List Bytes) (h : Hook) : Prop :=
  ∀ ctx arg p r, h ctx arg p = some r → Edits (ownFrame ps) p r.proc

theorem Hook.Tame.mono {h : Hook} (hh : h.Tame ps) (hsub : ps ⊆ ps') : h.Tame ps' :=
  fun ctx arg p r hr ↦ edits_mono (F := ownFrame ps)
    (fun _ hq ↦ ⟨beginsWith_mono hsub hq.1, hq.2⟩) (fun _ hk ↦ hk) (fun _ hk ↦ hk)
    (hh ctx arg p r hr)

theorem tame_write (st : Status) : Hook.Tame [] fun _ _ p ↦ some (retWrite st p) := by
  rintro ctx arg p r ⟨⟩
  exact .refl

theorem tame_okSave : Hook.Tame [] okSave := by
  rintro ctx arg p r ⟨⟩
  exact .refl

theorem tame_okNamedMaster : Hook.Tame [cstr "x_named_zone_record_"] okNamedMaster := by
  intro ctx arg p r hr
  simp only [okNamedMaster] at hr
  obtain ⟨⟨p2, n⟩, hadd, rfl⟩ := Option.map_eq_some_iff.mp hr
  have h1 : Edits (ownFrame [cstr "x_named_zone_record_"]) p
      (if getval ctx.world (cstr "x_named_zone_record_id") p = none
      then putval (cstr "x_named_zone_record_id") (cstr "0") RC_bWRITE p else p) := by
    split
    · exact ownEdits_put (by decide) _ p
    · exact .refl
  have hkey := beginsWith_append (beginsWith_append
    (show beginsWith [cstr "x_named_zone_record_"] (cstr "x_named_zone_record__") = true by decide)
    (decInt (atoi ctx.arg2))) (cstr "__")
  have h2 := h1.trans (ownEdits_add hkey hadd)
  dsimp only
  split
  · exact h2.trans (ownEdits_put (beginsWith_append hkey _) _ p2)
  · exact h2

theorem tame_addZone : Hook.Tame ownPrefixes addZone := by
  intro ctx arg p r hr
  obtain ⟨⟨p1, n⟩, hadd, rfl⟩ := Option.map_eq_some_iff.mp hr
  have h1 := ownEdits_add (show beginsWith ownPrefixes zoneKey = true by decide) hadd
  have hrec : ∀ s, ownKey s = true → ∀ v p,
      Edits (ownFrame ownPrefixes) p (putval (recKey s n) v RC_bWRITE p) :=
    fun s hs v p ↦ ownEdits_put (beginsWith_append hs _) v p
  rw [proc_retWrite, zoneRecord]
  split
  · refine ((h1.trans (hrec _ ?_ _ _)).trans (hrec _ ?_ _ _)).trans (hrec _ ?_ _ _) <;> decide
  · exact h1

theorem tame_okNamed2 : Hook.Tame ownPrefixes okNamed2 := by
  intro ctx arg p r hr
  obtain ⟨typ, -, hr⟩ := Option.bind_eq_some_iff.mp hr
  split at hr
  · cases hr
    exact .refl
  split at hr
  · exact tame_okNamedMaster.mono (by decide) ctx arg p r hr
  split at hr
  · cases hr
    exact .refl
  · exact tame_addZone ctx arg p r hr

theorem tame_okNamed : Hook.Tame ownPrefixes okNamed := by
  intro ctx arg p r hr
  simp only [okNamed] at hr
  split at hr
  · exact tame_okNamed2 ctx arg p r hr
  split at hr
  · exact tame_okNamedMaster.mono (by decide) ctx arg p r hr
  split at hr <;>
  · cases hr
    exact .refl

theorem tame_okSendmail : Hook.Tame ownPrefixes okSendmail := by
  intro ctx arg p r hr
  simp only [okSendmail] at hr
  split at hr
  · cases hr
    refine ownEdits_addId (by decide) (fun n p ↦ ?_) p
    rw [relayRecord]
    split
    · exact (ownEdits_put (beginsWith_append (by decide) _) _ p).tail (.del rfl _)
    · exact .single (.del rfl p)
  · cases hr
    exact .refl

theorem tame_okFw : Hook.Tame ownPrefixes okFw := by
  intro ctx arg p r hr
  simp only [okFw, okPortfw] at hr
  split at hr <;> cases hr
  · exact ownEdits_addId (by decide)
      (fun n p ↦ ownEdits_put (beginsWith_append (by decide) _) _ p) p
  · exact ownEdits_addId (by decide)
      (fun n p ↦ ownEdits_put (beginsWith_append (by decide) _) _ p) p

theorem ownEdits_ethBroadcast {w : World} {adrKey maskKey bcastKey : Bytes}
    (h : beginsWith ps bcastKey = true) (st : List (BitVec 32) × List (BitVec 32) × Proc) :
    Edits (ownFrame ps) st.2.2 (ethBroadcast w adrKey maskKey bcastKey st).2.2 := by
  rw [ethBroadcast]
  split
  · exact ownEdits_put h _ _
  · exact .refl

theorem tame_okNetwork : Hook.Tame [cstr "x_eth_broadcast__"] okNetwork := by
  intro ctx arg p r hr
  obtain rfl := Option.some.inj hr
  exact (ownEdits_ethBroadcast (by decide) (_, _, p)).trans
    (ownEdits_ethBroadcast (by decide) _)

theorem tame_okIpv6 : Hook.Tame [cstr "x_ipv6_local__"] okIpv6 := by
  intro ctx arg p r hr
  obtain rfl := Option.some.inj hr
  exact (ownEdits_put (k := cstr "x_ipv6_local__eth0") (by decide) _ p).trans
    (ownEdits_put (k := cstr "x_ipv6_local__eth1") (by decide) _ _)

theorem tame_okSystem : Hook.Tame [] okSystem := by
  intro ctx arg p r hr
  simp only [okSystem] at hr
  split at hr
  · cases hr
    exact .refl
  split at hr
  · obtain ⟨n, -, rfl⟩ := Option.map_eq_some_iff.mp hr
    exact ownEdits_hideClock p
  · cases hr
    exact ownEdits_hideClock p

theorem tame_okUser : Hook.Tame [] okUser := by
  intro ctx arg p r hr
  obtain ⟨passwd1, -, hr⟩ := Option.bind_eq_some_iff.mp hr
  obtain ⟨passwd2, -, rfl⟩ := Option.map_eq_some_iff.mp hr
  dsimp only
  split <;> exact .refl

theorem ownKey_of_delList {arg2 typ key : Bytes} (h : delList arg2 typ = some key) :
    ownKey key = true := by
  rw [delList] at h
  split_ifs at h <;> cases h
  · decide
  · decide
  · decide
  · decide
  · exact beginsWith_append (beginsWith_append (by decide) arg2) (cstr "__")

theorem tame_del : Hook.Tame ownPrefixes del := by
  intro ctx arg p r hr
  obtain ⟨id, -, hr⟩ := Option.bind_eq_some_iff.mp hr
  obtain ⟨typ, -, rfl⟩ := Option.map_eq_some_iff.mp hr
  dsimp only
  split
  · rename_i key hkey
    exact ownEdits_put (ownKey_of_delList hkey) _ p
  · exact .refl

end Setup
