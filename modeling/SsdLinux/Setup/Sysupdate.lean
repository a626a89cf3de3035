import SsdLinux.Setup.Duplicate

/-!
# The filter rules: `sysupdate`

`sysupdate` writes the shell script that sets up the packet filter.  It takes the record of each
rule apart with `list_split` and prints the pieces by their position, so a field with white space in
it moves all the fields behind it by one.

`Rule` and `Forward` say what a request means, by name, and what line it should give.
`rule_encoding_iff` is about a request that is accepted and adds a rule or a forwarded port: its
record comes apart into the posted fields again, and the line is the one that was meant, exactly if
the fields have no white space and the number of a rule is written as the number itself.
-/

set_option autoImplicit false

namespace Setup

open CLib

/-! ## Masks -/

/-- `sscanf(s, "%d.%d.…")` with that many numbers; `none` if not all of them are there. -/
def scanGroups : ℕ → Bytes → Option (List ℤ)
  | 0, _ => some []
  | n + 1, s => (scanInt s).bind fun (d, r) ↦
      if n = 0 then some [d]
      else if r.head? = some dot then (scanGroups n r.tail).map (d :: ·) else none

/-- The bits of the first group that is not full. -/
def tailBits (d : ℤ) : ℤ :=
  if d = 0x80 then 1 else if d = 0xc0 then 2 else if d = 0xe0 then 3 else if d = 0xf0 then 4
  else if d = 0xf8 then 5 else if d = 0xfc then 6 else if d = 0xfe then 7 else if d = 0xff then 8
  else 0

/-- `ip4_to_mask`.  With four full groups it goes on to the word behind its array. -/
def ip4ToMask (w : World) (ip4 : Bytes) : ℤ :=
  match scanGroups 4 ip4 with
  | none => 24
  | some d =>
    let full := (d.takeWhile fun g ↦ g == 0xff).length
    8 * full + tailBits ((d[full]?).getD (w.stack 8))

/-! ## The script -/

/-- The host part of a rule, for a host that is not `ANY`. -/
def hostOpt (w : World) (opt ip mask : Bytes) : Bytes :=
  if strcaseeq ip (cstr "ANY") then []
  else opt ++ blank :: (ip ++ slash :: (decInt (ip4ToMask w mask) ++ [blank]))

/-- The port part of a rule, for a port that is not `ANY`. -/
def portOpt (opt port : Bytes) : Bytes :=
  if strcaseeq port (cstr "ANY") then [] else opt ++ blank :: (port ++ [blank])

/-- The line for a rule, of the pieces of its record; there is none if the pieces are not all
there. -/
def fwLine (w : World) : List Bytes → Option Bytes
  | _ :: proto :: src :: srcMask :: sport :: dst :: dstMask :: dport :: action :: _ =>
    some (cstr "/sbin/iptables -A INPUT --proto " ++ proto ++ [blank]
      ++ hostOpt w (cstr "--source") src srcMask ++ portOpt (cstr "--source-port") sport
      ++ hostOpt w (cstr "--destination") dst dstMask
      ++ portOpt (cstr "--destination-port") dport ++ cstr "-j " ++ action ++ [nl])
  | _ => none

/-- The line for a forwarded port, of the pieces of its record. -/
def portfwLine (w : World) (p : Proc) : List Bytes → Option Bytes
  | proto :: iface :: sport :: dip :: dport :: _ =>
    some (cstr "/sbin/iptables -A PREROUTING -t nat -p " ++ proto ++ cstr " -d "
      ++ fmtS (getval w (cstr "x_eth_adr__" ++ iface) p) ++ cstr " --dport " ++ sport
      ++ cstr " -j DNAT --to-destination " ++ dip ++ colon :: dport ++ [nl])
  | _ => none

/-- The lines for the items of a list. -/
def ruleLines (w : World) (listKey : Bytes) (line : List Bytes → Option Bytes) (p : Proc) :
    Option Bytes :=
  ((listSplit 0 (getval w listKey p)).mapM fun item ↦
    line (listSplit 0 (getval w (listKey ++ item) p))).map List.flatten

/-- The line that hides one network behind the address of the other interface. -/
def masqLine (w : World) (p : Proc) : Bytes :=
  match (getval w (cstr "x_msq_typ") p).bind List.head? with
  | some 50 => cstr "/sbin/iptables -t nat -A POSTROUTING -o eth1 -j MASQUERADE\n"
  | some 51 => cstr "/sbin/iptables -t nat -A POSTROUTING -o eth0 -j MASQUERADE\n"
  | _ => []

/-- What `sysupdate` writes to `UPSETCONF`.  A record with too few pieces makes it read beyond the
end of a list, and there is no result. -/
def upsetconf (w : World) (p : Proc) : Option Bytes :=
  (ruleLines w fwKey (fwLine w) p).bind fun rules ↦
    (ruleLines w portfwKey (portfwLine w p) p).map fun forwards ↦ rules ++ masqLine w p ++ forwards

/-- The section of `RADVDCONF` for an interface. -/
def radvdSection (w : World) (p : Proc) (eth : Bytes) : Bytes :=
  if getval w (cstr "x_ipv6_enable__" ++ eth) p = some (cstr "YES") then
    match getval w (cstr "x_ipv6_prefix__" ++ eth) p with
    | some net => cstr "interface " ++ eth ++ cstr "\n\x7b\n\tAdvSendAdvert on;\n\tprefix\t" ++ net
        ++ cstr "::/64\n\t\x7b\n\t\tAdvOnLink on;\n\t\tAdvAutonomous on;\n\t\tAdvRouterAddr on;\n\t\x7d;\n\x7d;\n"
    | none => []
  else []

/-- What `sysupdate` writes to `RADVDCONF`. -/
def radvdconf (w : World) (p : Proc) : Bytes :=
  radvdSection w p (cstr "eth0") ++ radvdSection w p (cstr "eth1")

/-! ## What a rule means -/

/-- The fields of a filter rule. -/
structure Rule where
  id : Bytes
  proto : Bytes
  src : Bytes
  srcMask : Bytes
  sport : Bytes
  dst : Bytes
  dstMask : Bytes
  dport : Bytes
  action : Bytes

namespace Rule

def fields (r : Rule) : List Bytes :=
  [r.id, r.proto, r.src, r.srcMask, r.sport, r.dst, r.dstMask, r.dport, r.action]

/-- An option with its argument, unless the field it is for is `ANY`. -/
def option (field : Bytes) (words : List Bytes) : List Bytes :=
  if strcaseeq field (cstr "ANY") then [] else words

/-- The words of the command for a rule. -/
def words (w : World) (r : Rule) : List Bytes :=
  [cstr "/sbin/iptables", cstr "-A", cstr "INPUT", cstr "--proto", r.proto]
    ++ option r.src [cstr "--source", r.src ++ slash :: decInt (ip4ToMask w r.srcMask)]
    ++ option r.sport [cstr "--source-port", r.sport]
    ++ option r.dst [cstr "--destination", r.dst ++ slash :: decInt (ip4ToMask w r.dstMask)]
    ++ option r.dport [cstr "--destination-port", r.dport]
    ++ [cstr "-j", r.action]

end Rule

/-- The fields of a forwarded port. -/
structure Forward where
  proto : Bytes
  iface : Bytes
  sport : Bytes
  dip : Bytes
  dport : Bytes

namespace Forward

def fields (r : Forward) : List Bytes := [r.proto, r.iface, r.sport, r.dip, r.dport]

/-- The words of the command for a forwarded port, where `adr` is the address of the interface. -/
def words (adr : Bytes) (r : Forward) : List Bytes :=
  [cstr "/sbin/iptables", cstr "-A", cstr "PREROUTING", cstr "-t", cstr "nat", cstr "-p", r.proto,
    cstr "-d", adr, cstr "--dport", r.sport, cstr "-j", cstr "DNAT", cstr "--to-destination",
    r.dip ++ colon :: r.dport]

end Forward

/-- A command on a line of its own. -/
def commandLine (words : List Bytes) : Bytes := joinWith blank words ++ [nl]

/-- Words with a blank after each. -/
def spaced (words : List Bytes) : Bytes := words.flatMap fun t ↦ t ++ [blank]

theorem spaced_append (l l' : List Bytes) : spaced (l ++ l') = spaced l ++ spaced l' :=
  List.flatMap_append

theorem spaced_singleton (s : Bytes) : spaced [s] = s ++ [blank] := List.flatMap_singleton _ s

theorem commandLine_concat (l : List Bytes) (s : Bytes) :
    commandLine (l ++ [s]) = spaced l ++ (s ++ [nl]) := by
  have hjoin : joinWith blank (l ++ [s]) = spaced l ++ s := by
    induction l with
    | nil => simp [joinWith, spaced]
    | cons t l ih =>
      cases l with
      | nil => simp [joinWith, spaced]
      | cons u l =>
        rw [List.cons_append, joinWith_cons, List.cons_append, List.map_cons, List.flatten_cons,
          List.cons_append, ← joinWith_cons, ← List.cons_append, ih]
        simp [spaced]
  rw [commandLine, hjoin, List.append_assoc]

theorem hostOpt_eq (w : World) (opt ip mask : Bytes) :
    hostOpt w opt ip mask
      = spaced (Rule.option ip [opt, ip ++ slash :: decInt (ip4ToMask w mask)]) := by
  rw [hostOpt, Rule.option]
  split <;> simp [spaced]

theorem portOpt_eq (opt port : Bytes) :
    portOpt opt port = spaced (Rule.option port [opt, port]) := by
  rw [portOpt, Rule.option]
  split <;> simp [spaced]

/-- **The pieces of a rule give the command for it.** -/
theorem fwLine_fields (w : World) (r : Rule) :
    fwLine w r.fields = some (commandLine (r.words w)) := by
  have hhead : cstr "/sbin/iptables -A INPUT --proto " ++ r.proto ++ [blank]
      = spaced [cstr "/sbin/iptables", cstr "-A", cstr "INPUT", cstr "--proto", r.proto] := by
    have hlit : cstr "/sbin/iptables -A INPUT --proto "
        = spaced [cstr "/sbin/iptables", cstr "-A", cstr "INPUT", cstr "--proto"] := by decide
    rw [hlit, List.append_assoc, ← spaced_singleton]
    exact (spaced_append _ [r.proto]).symm
  have htail : ∀ l : List Bytes, commandLine (l ++ [cstr "-j", r.action])
      = spaced l ++ cstr "-j " ++ r.action ++ [nl] := fun l ↦ by
    rw [show l ++ [cstr "-j", r.action] = (l ++ [cstr "-j"]) ++ [r.action] by simp,
      commandLine_concat, spaced_append, ← List.append_assoc]
    rfl
  rw [Rule.words, htail, spaced_append, spaced_append, spaced_append, spaced_append, ← hhead,
    ← hostOpt_eq, ← hostOpt_eq, ← portOpt_eq, ← portOpt_eq]
  rfl

/-- **The pieces of a forwarded port give the command for it.** -/
theorem portfwLine_fields (w : World) (p : Proc) (r : Forward) : portfwLine w p r.fields
    = some (commandLine (r.words (fmtS (getval w (cstr "x_eth_adr__" ++ r.iface) p)))) := by
  have h1 : cstr "/sbin/iptables -A PREROUTING -t nat -p " = spaced [cstr "/sbin/iptables",
      cstr "-A", cstr "PREROUTING", cstr "-t", cstr "nat", cstr "-p"] := by decide
  have h2 : cstr " -d " = blank :: spaced [cstr "-d"] := by decide
  have h3 : cstr " --dport " = blank :: spaced [cstr "--dport"] := by decide
  have h4 : cstr " -j DNAT --to-destination "
      = blank :: spaced [cstr "-j", cstr "DNAT", cstr "--to-destination"] := by decide
  have hwords : ∀ adr, r.words adr = ([cstr "/sbin/iptables", cstr "-A", cstr "PREROUTING",
      cstr "-t", cstr "nat", cstr "-p"] ++ [r.proto] ++ [cstr "-d"] ++ [adr] ++ [cstr "--dport"]
      ++ [r.sport] ++ [cstr "-j", cstr "DNAT", cstr "--to-destination"])
      ++ [r.dip ++ colon :: r.dport] := fun adr ↦ rfl
  rw [Forward.fields, portfwLine, h1, h2, h3, h4, hwords, commandLine_concat, spaced_append,
    spaced_append, spaced_append, spaced_append, spaced_append, spaced_append,
    spaced_singleton r.proto, spaced_singleton r.sport, spaced_singleton (fmtS _)]
  simp only [List.append_assoc, List.cons_append, List.nil_append]

/-! ## What is posted, and what is printed -/

/-- The rule that a request posts. -/
def Rule.posted (w : World) (p : Proc) : Rule where
  id := getval3 w (cstr "x_fw_id") p
  proto := getval3 w (cstr "x_fw_proto___T") p
  src := getval3 w (cstr "x_fw_src_ip___T") p
  srcMask := getval3 w (cstr "x_fw_src_subnet_mask___T") p
  sport := getval3 w (cstr "x_fw_src_port___T") p
  dst := getval3 w (cstr "x_fw_dst_ip___T") p
  dstMask := getval3 w (cstr "x_fw_dst_subnet_mask___T") p
  dport := getval3 w (cstr "x_fw_dst_port___T") p
  action := getval3 w (cstr "x_fw_action___T") p

/-- The forwarded port that a request posts. -/
def Forward.posted (w : World) (p : Proc) : Forward where
  proto := getval3 w (cstr "x_portfw_proto___T") p
  iface := getval3 w (cstr "x_portfw_interface___T") p
  sport := getval3 w (cstr "x_portfw_src_port___T") p
  dip := getval3 w (cstr "x_portfw_dst_ip___T") p
  dport := getval3 w (cstr "x_portfw_dst_port___T") p

/-- The two lists of rules. -/
inductive RuleList
  | fw | portfw
  deriving DecidableEq, Repr

namespace RuleList

def reg : RuleList → Registry
  | fw => .fw
  | portfw => .portfw

/-- The fields of a request, in the order of the record. -/
def keys : RuleList → List Bytes
  | fw => cstr "x_fw_id" :: fwFields
  | portfw => portfwFields

/-- The posted fields. -/
def posted (t : RuleList) (w : World) (p : Proc) : List Bytes := t.keys.map fun k ↦ getval3 w k p

/-- The key under which the record of the request is filed. -/
def recordKey (t : RuleList) (w : World) (p : Proc) : Bytes :=
  recKey t.reg.listKey (getvalInt w t.reg.idKey p)

/-- The line that `sysupdate` prints for the pieces of a record. -/
def line (t : RuleList) (w : World) (p : Proc) : List Bytes → Option Bytes :=
  match t with
  | fw => fwLine w
  | portfw => portfwLine w p

/-- The line that is meant by a request `p`, when it is printed in the store `p'`. -/
def meant (t : RuleList) (w : World) (p p' : Proc) : Bytes :=
  match t with
  | fw => commandLine ((Rule.posted w p).words w)
  | portfw => commandLine ((Forward.posted w p).words
      (fmtS (getval w (cstr "x_eth_adr__" ++ (Forward.posted w p).iface) p')))

/-- The request `p` is in the store `p'` as it was posted, and gives the line that was meant. -/
structure Carried (t : RuleList) (w : World) (p p' : Proc) : Prop where
  fields : listSplit 0 (stored (t.recordKey w p) p') = t.posted w p
  line : t.line w p' (listSplit 0 (getval w (t.recordKey w p) p')) = some (t.meant w p p')

/-- No field of the request has white space in it, and the number of a filter rule is written as the
number itself. -/
def Plain (t : RuleList) (w : World) (p : Proc) : Prop :=
  (t = fw → getval3 w (cstr "x_fw_id") p = decInt (getvalInt w (cstr "x_fw_id") p)) ∧
    ∀ k ∈ t.keys, ∀ c ∈ getval3 w k p, isspace c = false

theorem line_posted (t : RuleList) (w : World) (p p' : Proc) :
    t.line w p' (t.posted w p) = some (t.meant w p p') := by
  cases t with
  | fw => exact fwLine_fields w (Rule.posted w p)
  | portfw => exact portfwLine_fields w p' (Forward.posted w p)

variable {t : RuleList} {w : World} {p : Proc}

/-- An accepted field of a rule is not empty. -/
theorem ne_nil_of_accepts {k : Bytes} (hk : k ∈ t.keys) (h : Accepts w p k) :
    getval3 w k p ≠ [] := by
  have hrow : ∀ k ∈ t.keys, (vtabRow k).map VTab.notNull = some .always := by
    cases t <;> decide +kernel
  obtain ⟨v, hv, hnn⟩ := Option.map_eq_some_iff.mp (hrow k hk)
  intro he
  rw [accepts_iff hv, if_pos he, hnn] at h
  cases h

/-- The record as the function writes it: the fields, with the number in decimal. -/
def written (t : RuleList) (w : World) (p : Proc) : List Bytes :=
  match t with
  | fw => decInt (getvalInt w (cstr "x_fw_id") p) :: fwFields.map fun k ↦ getval3 w k p
  | portfw => portfwFields.map fun k ↦ getval3 w k p

theorem record_eq (hposted : ∀ k ∈ t.keys, getval w k p ≠ none) :
    t.reg.record w p = some (listJoin (t.written w p)) := by
  have hmap : ∀ l : List Bytes, l ⊆ t.keys →
      (l.map fun k ↦ fmtS (getval w k p)) = l.map fun k ↦ getval3 w k p := fun l hl ↦
    List.map_congr_left fun k hk ↦ by
      obtain ⟨v, hv⟩ := Option.ne_none_iff_exists'.mp (hposted k (hl hk))
      rw [fmtS, getval3, hv, Option.getD_some, Option.getD_some]
  cases t with
  | fw =>
    rw [reg, Registry.record, hmap fwFields (List.subset_cons_self _ _)]
    rfl
  | portfw => rw [reg, Registry.record, hmap portfwFields (List.Subset.refl _), written]

/-- **A record comes apart into the posted fields exactly if they are plain.** -/
theorem split_written_iff (hne : ∀ k ∈ t.keys, getval3 w k p ≠ []) :
    listSplit 0 (some (listJoin (t.written w p))) = t.posted w p ↔ t.Plain w p := by
  have heq : t.written w p = t.posted w p ↔
      (t = fw → getval3 w (cstr "x_fw_id") p = decInt (getvalInt w (cstr "x_fw_id") p)) := by
    cases t with
    | fw =>
      rw [written, posted, keys, List.map_cons, List.cons_eq_cons]
      exact ⟨fun h _ ↦ h.1.symm, fun h ↦ ⟨(h rfl).symm, rfl⟩⟩
    | portfw => exact ⟨fun _ h ↦ (by cases h), fun _ ↦ rfl⟩
  constructor
  · intro h
    -- the items of a list have no white space, so the record was made of words
    have hplain : ∀ k ∈ t.keys, ∀ c ∈ getval3 w k p, isspace c = false := fun k hk ↦ by
      have hmem : getval3 w k p ∈ t.posted w p := List.mem_map_of_mem hk
      rw [← h] at hmem
      exact isspace_of_mem_listSplit hmem
    have hwords : ∀ s ∈ t.written w p, IsWord s := by
      intro s hs
      cases t with
      | fw =>
        rcases List.mem_cons.mp hs with rfl | hs
        · exact isWord_decInt _
        · obtain ⟨k, hk, rfl⟩ := List.mem_map.mp hs
          have hk := List.mem_cons_of_mem (cstr "x_fw_id") hk
          exact ⟨hne k hk, hplain k hk⟩
      | portfw =>
        obtain ⟨k, hk, rfl⟩ := List.mem_map.mp hs
        exact ⟨hne k hk, hplain k hk⟩
    rw [listSplit_listJoin hwords] at h
    exact ⟨heq.mp h, hplain⟩
  · rintro ⟨hid, hplain⟩
    rw [heq.mpr hid]
    refine listSplit_listJoin fun s hs ↦ ?_
    obtain ⟨k, hk, rfl⟩ := List.mem_map.mp hs
    exact ⟨hne k hk, hplain k hk⟩

/-- **An accepted rule survives its encoding exactly if it is plain.** -/
theorem rule_encoding_iff {a : Adder} {ctx : Ctx} {arg : Bytes} {res : Result}
    (ht : a.target ctx arg p = some (.registry t.reg)) (hrun : a.hook ctx arg p = some res)
    (hnew : t.reg.newItem ctx.world p ∉ items ctx.world t.reg.listKey p)
    (hposted : ∀ k ∈ t.keys, getval ctx.world k p ≠ none)
    (hacc : ∀ k ∈ t.keys, Accepts ctx.world p k) :
    t.Carried ctx.world p res.proc ↔ t.Plain ctx.world p := by
  have hne : ∀ k ∈ t.keys, getval3 ctx.world k p ≠ [] := fun k hk ↦
    ne_nil_of_accepts hk (hacc k hk)
  have hstored : stored (t.recordKey ctx.world p) res.proc
      = some (listJoin (t.written ctx.world p)) := by
    rw [hook_eq_add ht] at hrun
    exact Registry.stored_record_add hrun hnew (record_eq hposted)
  have hclock : t.recordKey ctx.world p ∉ clockKeys :=
    Registry.recKey_not_clock (by cases t <;> decide) _
  constructor
  · intro h
    rw [← split_written_iff hne, ← hstored]
    exact h.fields
  · intro h
    have hsplit := (split_written_iff hne).mpr h
    refine ⟨by rw [hstored, hsplit], ?_⟩
    rw [getval_eq hclock, ← stored, hstored, hsplit, line_posted]

end RuleList

/-! ## Ports with a blank between them -/

/-- A request for the rule 5, for packets from one or two ports. -/
def portRequest (sport : Bytes) : Proc :=
  [⟨cstr "x_fw_id", cstr "5", 3⟩, ⟨cstr "x_fw_proto___T", cstr "tcp", 3⟩,
    ⟨cstr "x_fw_src_ip___T", cstr "ANY", 3⟩, ⟨cstr "x_fw_src_subnet_mask___T", cstr "0", 3⟩,
    ⟨cstr "x_fw_src_port___T", sport, 3⟩, ⟨cstr "x_fw_dst_ip___T", cstr "10.0.0.1", 3⟩,
    ⟨cstr "x_fw_dst_subnet_mask___T", cstr "255.255.255.0", 3⟩,
    ⟨cstr "x_fw_dst_port___T", cstr "ANY", 3⟩,
    ⟨cstr "x_fw_action___T", cstr "ACCEPT", 3⟩].foldl Put.run ⟨[], fun _ ↦ none⟩

theorem rule_encoding_port :
    RuleList.fw.Carried World.bare (portRequest (cstr "80"))
        (addId World.bare fwKey (cstr "x_fw_id") (fwRecord World.bare)
          (portRequest (cstr "80"))).proc ↔
      RuleList.fw.Plain World.bare (portRequest (cstr "80")) :=
  have hrun : Adder.fw.hook ⟨World.bare, [], []⟩ (cstr "2") (portRequest (cstr "80"))
      = some (addId World.bare fwKey (cstr "x_fw_id") (fwRecord World.bare)
          (portRequest (cstr "80"))) := rfl
  RuleList.rule_encoding_iff (t := .fw) rfl hrun (by decide +kernel) (by decide +kernel)
    (by decide +kernel)

/-- `is_port` accepts two ports, and every field behind them moves by one: the second port becomes
the destination, and the mask of the destination becomes its port. -/
theorem ports_shift :
    (∀ k ∈ RuleList.fw.keys, Accepts World.bare (portRequest (cstr "80 443")) k) ∧
    (okFw ⟨World.bare, [], []⟩ (cstr "2") (portRequest (cstr "80 443"))).bind
        (fun r ↦ upsetconf World.bare r.proc)
      = some (cstr "/sbin/iptables -A INPUT --proto tcp --source-port 80 --destination 443/0 "
        ++ cstr "--destination-port 255.255.255.0 -j ANY\n") ∧
    RuleList.fw.meant World.bare (portRequest (cstr "80 443")) (portRequest (cstr "80 443"))
      = cstr "/sbin/iptables -A INPUT --proto tcp --source-port 80 443 "
        ++ cstr "--destination 10.0.0.1/24 -j ACCEPT\n" := by
  decide +kernel

end Setup
