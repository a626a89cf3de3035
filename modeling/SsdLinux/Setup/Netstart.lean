import Mathlib.Data.List.DropRight
import SsdLinux.CLib.Source
import SsdLinux.Sysinst.Netstart

/-!
# From the saved settings to the network

At boot `netstart` sources `rc.conf` and then `netstart.local`, which sources `openblocks.conf` and
makes variables of `rc.conf` out of the settings: the arguments of `ifconfig` for every interface,
the interfaces that `dhclient` is for, the default route.  After that `netstart` asks the kernel
what interfaces there are, and sets them up.

* An unquoted `$name` stands for the words in it (`fields`).  Where there is a pattern in it, or
  something else that a shell would look at once more, the scripts have no result here.
* `netstartLocal` and `network` follow the scripts.  `wantedCalls` says what the settings mean,
  without any text: which commands are run for which interface.
* `netstart_of_source` says that they agree, if `rc.conf` says nothing about the network itself.

Not modelled: the host name, the packet filter, the loopback interface, IPv6, the aliases, and the
daemons that `netstart` starts in the end.  None of them changes a variable that is used here.
-/

set_option autoImplicit false

namespace Netstart

open CLib Shell Words

/-! ## Words of a shell -/

/-- What is between the words of an expansion. -/
def isIfs (c : UInt8) : Bool := isBlank c || c == nl

/-- The words that an unquoted expansion stands for. -/
def fields (s : Bytes) : Option (List Bytes) :=
  if s.any Sysinst.isExpanded then none else some (split isIfs s)

/-- `$name`. -/
def expand (vars : Vars) (name : Bytes) : Bytes := (vars name).getD []

/-- `name=…`. -/
def assign (name text : Bytes) (vars : Vars) : Vars := Function.update vars name (some text)

def yes : Bytes := cstr "YES"

/-- `name=$name" $word"`. -/
def assignMore (name word : Bytes) (vars : Vars) : Vars :=
  assign name (expand vars name ++ blank :: word) vars

/-- `checkyesno` of `rc.subr`. -/
def checkyesno (vars : Vars) (name : Bytes) : Bool := decide (expand vars name = yes)

/-! ## `netstart.local` -/

/-- `$eth`: the arguments of `ifconfig` for an interface. -/
def ethText (vars : Vars) (i : Bytes) : Bytes :=
  let adr := expand vars (cstr "x_eth_adr__" ++ i)
  let mask := expand vars (cstr "x_eth_subnet_mask__" ++ i)
  let broadcast := expand vars (cstr "x_eth_broadcast__" ++ i)
  let eth := if expand vars (cstr "x_eth_typ__" ++ i) = cstr "2" then
      (if adr = [] then [] else cstr "inet " ++ adr)
        ++ (if mask = [] then [] else cstr " netmask " ++ mask)
        ++ if broadcast = [] then [] else cstr " broadcast " ++ broadcast
    else []
  if expand vars (cstr "x_ipv6_enable__" ++ i) = yes then
    eth ++ cstr " add " ++ expand vars (cstr "x_ipv6_prefix__" ++ i) ++ cstr ":"
      ++ expand vars (cstr "x_ipv6_local__" ++ i) ++ cstr "/64"
  else eth

/-- ``eval `echo 'ifconfig_'$i'="'$eth'"'` ``: the text is split into words, printed, and read as an
assignment. -/
def evalIfconfig (vars : Vars) (i eth : Bytes) : Option Vars :=
  (fields (cstr "ifconfig_" ++ i ++ equals :: dquote :: eth ++ [dquote])).bind fun ws ↦
    (source vars (joinWith blank ws)).toOption

/-- The loop over the interfaces.  A name that is not part of a name of a variable would be
evaluated otherwise. -/
def ethStep (vars : Vars) (i : Bytes) : Option Vars :=
  if i.all nameChar then
    let eth := ethText vars i
    let typ := expand vars (cstr "x_eth_typ__" ++ i)
    let dhcpd := expand vars (cstr "x_dhcpd_enable__" ++ i)
    let vars := if typ = cstr "1" then assignMore (cstr "dhclient_interfaces") i vars else vars
    let vars := if dhcpd = yes then assignMore (cstr "dhcpd_interfaces") i vars else vars
    if eth = [] then some vars else evalIfconfig vars i eth
  else none

/-- A command and its arguments. -/
abbrev Call := List Bytes

/-- What `netstart` finds on the machine. -/
structure Host where
  /-- What `ifconfig -a -l` prints. -/
  ints : Bytes
  /-- `/etc/ifconfig.*`, by the name of the interface. -/
  ifconfig : Bytes → Option Bytes
  /-- `/etc/mygate`. -/
  mygate : Option Bytes

/-- The interfaces that `netstart` runs `dhclient` for. -/
def ethNames : List Bytes := [cstr "eth0", cstr "eth1", cstr "eth2"]

/-- What is run for an interface. -/
def interfaceCalls (host : Host) (vars : Vars) (flags : List Bytes) (int : Bytes) :
    Option (List Call) :=
  if int.all nameChar then
    let args := expand vars (cstr "ifconfig_" ++ int)
    if args ≠ [] then
      if int ∈ flags then some [] else (fields args).map fun ws ↦ [cstr "ifconfig" :: int :: ws]
    else
      match host.ifconfig int with
      | some file => if int ∈ flags then some [] else Sysinst.ifconfigLoop int file
      | none => some []
  else none

/-- The loop over the interfaces. -/
def loopCalls (host : Host) (vars : Vars) (flags : List Bytes) : List Bytes → Option (List Call)
  | [] => some []
  | int :: ints => (interfaceCalls host vars flags int).bind fun calls ↦
      (loopCalls host vars flags ints).map (calls ++ ·)

/-- The interfaces, and whether `done_dhclient` is `YES` then. -/
def interfaces (host : Host) (vars : Vars) : Option (List Call × Bool) :=
  if expand vars (cstr "net_interfaces") = cstr "NO" then some ([], false)
  else
    (fields (expand vars (cstr "dhclient_flags"))).bind fun flags ↦
    (fields host.ints).bind fun all ↦
      let asked := checkyesno vars (cstr "dhclient") && all.any (· ∈ ethNames)
      let first := if asked then [cstr "dhclient" :: flags] else []
      if asked && !flags.any (· ∈ ethNames) then some (first, true)
      else
        (fields (if checkyesno vars (cstr "auto_ifconfig") then host.ints
            else expand vars (cstr "net_interfaces"))).bind fun tmp ↦
          (loopCalls host vars flags tmp).map fun calls ↦ (first ++ calls, false)

/-- The command for the default route. -/
def routeCall (gateway : List Bytes) : Call :=
  [cstr "route", cstr "add", cstr "default", cstr "gw"] ++ gateway
    ++ [cstr "netmask", cstr "0.0.0.0", cstr "metric", cstr "1"]

/-- The default route.  Newlines at the end of `/etc/mygate` are left out. -/
def defaultRoute (host : Host) (vars : Vars) (done : Bool) : Option (List Call) :=
  let gateway := if expand vars (cstr "defaultroute") = [] then
      (host.mygate.getD []).rdropWhile (· == nl)
    else expand vars (cstr "defaultroute")
  if gateway = [] ∨ done = true then some [] else (fields gateway).map fun ws ↦ [routeCall ws]

/-- The interfaces and the default route. -/
def network (host : Host) (vars : Vars) : Option (List Call) :=
  (interfaces host vars).bind fun q ↦ (defaultRoute host vars q.2).map (q.1 ++ ·)

/-- A word for `ifconfig` and a value, if there is one. -/
def valued (word val : Bytes) : List Bytes := if val = [] then [] else [word, val]

/-- The settings of one interface, as words. -/
def ifconfigArgs (m : Bytes → Bytes) (i : Bytes) : List Bytes :=
  (if m (cstr "x_eth_typ__" ++ i) = cstr "2" then
      valued (cstr "inet") (m (cstr "x_eth_adr__" ++ i))
        ++ valued (cstr "netmask") (m (cstr "x_eth_subnet_mask__" ++ i))
        ++ valued (cstr "broadcast") (m (cstr "x_eth_broadcast__" ++ i))
    else [])
  ++ if m (cstr "x_ipv6_enable__" ++ i) = yes then
      [cstr "add", m (cstr "x_ipv6_prefix__" ++ i) ++ cstr ":" ++ m (cstr "x_ipv6_local__" ++ i)
        ++ cstr "/64"]
    else []

/-- The interfaces that get their addresses from elsewhere. -/
def dhcpNames (m : Bytes → Bytes) (eths : List Bytes) : List Bytes :=
  eths.filter fun i ↦ m (cstr "x_eth_typ__" ++ i) = cstr "1"

/-- The gateway: that of the settings, or else that of the machine. -/
def gateway (m : Bytes → Bytes) (host : Host) : Bytes :=
  if m (cstr "x_defaultroute_adr") = [] then (host.mygate.getD []).rdropWhile (· == nl)
  else m (cstr "x_defaultroute_adr")

/-- A byte of the name of an interface. -/
def isNameByte (c : UInt8) : Bool := islower c || isdigit c

/-- The name of an interface. -/
def IfName (i : Bytes) : Prop := i ≠ [] ∧ ∀ c ∈ i, isNameByte c = true

instance decidableIfName (i : Bytes) : Decidable (IfName i) := inferInstanceAs (Decidable (_ ∧ _))

/-- The settings of an interface that are put into a command. -/
def valueKeys : List Bytes :=
  [cstr "x_eth_adr__", cstr "x_eth_subnet_mask__", cstr "x_eth_broadcast__", cstr "x_ipv6_prefix__",
    cstr "x_ipv6_local__"]

/-- The settings of an interface that are looked at. -/
def ifKeys : List Bytes := [cstr "x_eth_typ__", cstr "x_ipv6_enable__"] ++ valueKeys

/-- The settings of the network. -/
def NetKey (k : Bytes) : Prop :=
  k ∈ [cstr "x_eth_typ__", cstr "x_defaultroute_adr"] ∨ ∃ key ∈ ifKeys, ∃ i, IfName i ∧ k = key ++ i

/-- Settings of the interfaces `eths` that a shell takes as they are. -/
structure IsPlain (m : Bytes → Bytes) (eths : List Bytes) : Prop where
  list : fields (m (cstr "x_eth_typ__")) = some eths
  names : ∀ i ∈ eths, IfName i
  values : ∀ i ∈ eths, ∀ key ∈ valueKeys, Sysinst.PlainText (m (key ++ i))
  route : Sysinst.PlainText (m (cstr "x_defaultroute_adr"))

/-- Variables that say nothing about the network. -/
structure Quiet (vars : Vars) : Prop where
  auto : checkyesno vars (cstr "auto_ifconfig") = true
  net : expand vars (cstr "net_interfaces") ≠ cstr "NO"
  dhclient : checkyesno vars (cstr "dhclient") = false
  flags : expand vars (cstr "dhclient_flags") = []
  interfaces : expand vars (cstr "dhclient_interfaces") = []
  route : expand vars (cstr "defaultroute") = []
  ifconfig : ∀ i, expand vars (cstr "ifconfig_" ++ i) = []

/-! ## Plain words -/

variable {vars vars₀ vars₁ : Vars} {m : Bytes → Bytes} {i k name src text : Bytes}
  {eths all done : List Bytes} {host : Host}

theorem isIfs_of_plain (h : Sysinst.PlainText text) : ∀ c ∈ text, isIfs c = false := by
  intro c hc
  have hspecial := (h c hc).1
  simp only [isSpecial, Bool.or_eq_false_iff] at hspecial
  refine Bool.or_eq_false_iff.2 ⟨hspecial.1.1, beq_eq_false_iff_ne.2 ?_⟩
  rintro rfl
  exact absurd hspecial.1.2 (by decide)

theorem fields_of_forall (h : ∀ c ∈ text, Sysinst.isExpanded c = false) :
    fields text = some (split isIfs text) := by
  refine if_neg ?_
  rw [List.any_eq_true]
  rintro ⟨c, hc, hexpand⟩
  rw [h c hc] at hexpand
  cases hexpand

theorem IfName.bytes (h : IfName i) :
    ∀ c ∈ i, nameChar c = true ∧ isIfs c = false ∧ Sysinst.isExpanded c = false := by
  intro c hc
  have hbyte := h.2 c hc
  have hne : ∀ d, isNameByte d = false → c ≠ d := fun d hd ↦ ne_of_class hbyte hd
  refine ⟨?_, ?_, ?_⟩
  · rcases Bool.or_eq_true_iff.1 hbyte with h | h <;> simp [nameChar, isalnum, isalpha, h]
  · simp only [isIfs, isBlank, Bool.or_eq_false_iff, beq_eq_false_iff_ne]
    exact ⟨⟨hne _ (by decide), hne _ (by decide)⟩, hne _ (by decide)⟩
  · simp only [Sysinst.isExpanded, Bool.or_eq_false_iff, beq_eq_false_iff_ne]
    exact ⟨⟨⟨hne _ (by decide), hne _ (by decide)⟩, hne _ (by decide)⟩, hne _ (by decide)⟩

theorem IfName.isWord (h : IfName i) : IsWord isIfs i := ⟨h.1, fun c hc ↦ (h.bytes c hc).2.1⟩

theorem plain_append {s t : Bytes} (hs : Sysinst.PlainText s) (ht : Sysinst.PlainText t) :
    Sysinst.PlainText (s ++ t) :=
  List.forall_mem_append.2 ⟨hs, ht⟩

/-- Plain text is nothing special between double quotes. -/
theorem reads_plain {s : Bytes} (h : ∀ c ∈ s, c = blank ∨
    Shell.isSpecial c = false ∧ Sysinst.isExpanded c = false ∧ Sysinst.isOpening c = false) :
    Reads vars s s := by
  refine reads_literal fun c hc ↦ ⟨fun hmem ↦ ?_, ?_⟩
  · simp only [dqSpecials, List.mem_cons, List.not_mem_nil, or_false] at hmem
    rcases h c hc with rfl | ⟨h1, h2, h3⟩
    · exact absurd hmem (by decide)
    · rcases hmem with rfl | rfl | rfl | rfl
      · exact absurd h3 (by decide)
      · exact absurd h1 (by decide)
      · exact absurd h2 (by decide)
      · exact absurd h1 (by decide)
  · rintro rfl
    rcases h _ hc with h | ⟨h1, -, -⟩
    · exact absurd h (by decide)
    · exact absurd h1 (by decide)

theorem isName_ifconfig (h : ∀ c ∈ i, nameChar c = true) : IsName (cstr "ifconfig_" ++ i) :=
  ⟨fun c hc ↦ by cases hc; decide, List.append_ne_nil_of_left_ne_nil (by decide) _,
    List.forall_mem_append.2 ⟨by decide, h⟩⟩

/-- **A quoted text at the end of what is sourced.** -/
theorem source_quoted {s t : Bytes} (hname : IsName name) (hs : Reads vars s t) :
    source vars (name ++ equals :: dquote :: s ++ [dquote]) = .ok (assign name t vars) := by
  have hline : name ++ equals :: dquote :: s ++ [dquote]
      = name ++ equals :: dquote :: (s ++ dquote :: []) := by simp
  obtain ⟨htake, hdrop⟩ := hname.span (r := equals :: dquote :: (s ++ dquote :: []))
    fun c hc ↦ by cases hc; decide
  have hdq : dq vars (s ++ dquote :: []) = .ok (t, []) :=
    dqGo_reads hs [] _ (by simp only [List.length_append, List.length_cons]; omega)
  obtain ⟨c, u, rfl, hc⟩ := hname.cons
  have h1 : c ≠ nl := ne_of_class hc (by decide)
  have h2 : c ≠ hash := ne_of_class hc (by decide)
  rw [source, hline]
  rw [List.cons_append] at htake hdrop ⊢
  rw [List.length_cons, sourceGo, if_neg h1, if_neg h2]
  simp only [htake, hdrop, hc, List.head?_cons, List.tail_cons, BEq.rfl, Bool.and_self, if_true,
    hdq, Except.bind, true_or]
  rw [List.length_append, List.length_cons, ← Nat.add_assoc, sourceGo]
  rfl

/-! ## The text for `ifconfig` -/

/-- The settings as variables of a shell. -/
def asVars (m : Bytes → Bytes) : Vars := fun k ↦ some (m k)

/-- The variables of the settings have the values `m`. -/
def Holds (m : Bytes → Bytes) (vars : Vars) : Prop := ∀ k, NetKey k → expand vars k = m k

theorem netKey_append {key : Bytes} (hkey : key ∈ ifKeys) (hi : IfName i) : NetKey (key ++ i) :=
  .inr ⟨key, hkey, i, hi, rfl⟩

theorem Holds.ethText (h : Holds m vars) (hi : IfName i) :
    Netstart.ethText vars i = Netstart.ethText (asVars m) i := by
  have hkey : ∀ key ∈ ifKeys, expand vars (key ++ i) = expand (asVars m) (key ++ i) :=
    fun key hkey ↦ h _ (netKey_append hkey hi)
  simp only [Netstart.ethText, hkey (cstr "x_eth_typ__") (by decide),
    hkey (cstr "x_eth_adr__") (by decide), hkey (cstr "x_eth_subnet_mask__") (by decide),
    hkey (cstr "x_eth_broadcast__") (by decide), hkey (cstr "x_ipv6_enable__") (by decide),
    hkey (cstr "x_ipv6_prefix__") (by decide), hkey (cstr "x_ipv6_local__") (by decide)]

/-- An option is its words, each behind a blank. -/
theorem valued_text (word val : Bytes) :
    (if val = [] then [] else blank :: (word ++ blank :: val))
      = (valued word val).flatMap (blank :: ·) := by
  rw [valued]
  split_ifs
  · rfl
  · simp

/-- **The text of an interface is its words**, but for the first blank. -/
theorem ethText_eq (m : Bytes → Bytes) (i : Bytes) :
    ethText (asVars m) i = (ifconfigArgs m i).flatMap (blank :: ·) ∨
      (ethText (asVars m) i ≠ [] ∧ ifconfigArgs m i ≠ []) ∧
        blank :: ethText (asVars m) i = (ifconfigArgs m i).flatMap (blank :: ·) := by
  set adr := m (cstr "x_eth_adr__" ++ i) with hadr
  have hmask := valued_text (cstr "netmask") (m (cstr "x_eth_subnet_mask__" ++ i))
  have hcast := valued_text (cstr "broadcast") (m (cstr "x_eth_broadcast__" ++ i))
  have hget : ∀ k, expand (asVars m) k = m k := fun _ ↦ rfl
  have h1 : cstr " netmask " = blank :: (cstr "netmask" ++ [blank]) := rfl
  have h2 : cstr " broadcast " = blank :: (cstr "broadcast" ++ [blank]) := rfl
  have h3 : cstr "inet " = cstr "inet" ++ [blank] := rfl
  have h4 : cstr " add " = blank :: (cstr "add" ++ [blank]) := rfl
  simp only [ethText, ifconfigArgs, hget, ← hadr, h1, h2, h3, h4, List.cons_append,
    List.append_assoc, List.nil_append, hmask, hcast]
  by_cases htyp : m (cstr "x_eth_typ__" ++ i) = cstr "2"
  · by_cases hnil : adr = []
    · have hinet : valued (cstr "inet") adr = [] := if_pos hnil
      refine .inl ?_
      rw [if_pos htyp, if_pos htyp, if_pos hnil, hinet]
      split_ifs <;> simp
    · have hinet : valued (cstr "inet") adr = [cstr "inet", adr] := if_neg hnil
      refine .inr ⟨⟨?_, ?_⟩, ?_⟩
      · rw [if_pos htyp, if_neg hnil]
        split_ifs <;> simp
      · rw [if_pos htyp, hinet]
        simp
      · rw [if_pos htyp, if_pos htyp, if_neg hnil, hinet]
        split_ifs <;> simp
  · refine .inl ?_
    rw [if_neg htyp, if_neg htyp]
    split_ifs <;> simp

/-- The words of an interface are plain, and there is something in each of them. -/
theorem plain_ifconfigArgs (h : ∀ key ∈ valueKeys, Sysinst.PlainText (m (key ++ i))) :
    ∀ w ∈ ifconfigArgs m i, w ≠ [] ∧ Sysinst.PlainText w := by
  have hvalued : ∀ {word val : Bytes}, word ≠ [] → Sysinst.PlainText word →
      Sysinst.PlainText val → ∀ w ∈ valued word val, w ≠ [] ∧ Sysinst.PlainText w := by
    intro word val hne hword hval w hw
    rw [valued] at hw
    split_ifs at hw with hnil
    · cases hw
    · rcases List.mem_pair.1 hw with rfl | rfl
      · exact ⟨hne, hword⟩
      · exact ⟨hnil, hval⟩
  intro w hw
  rcases List.mem_append.1 hw with hw | hw
  · split_ifs at hw
    · rcases List.mem_append.1 hw with hw | hw
      · rcases List.mem_append.1 hw with hw | hw
        · exact hvalued (by decide) (by decide) (h _ (by decide)) w hw
        · exact hvalued (by decide) (by decide) (h _ (by decide)) w hw
      · exact hvalued (by decide) (by decide) (h _ (by decide)) w hw
    · cases hw
  · split_ifs at hw
    · rcases List.mem_pair.1 hw with rfl | rfl
      · exact ⟨by decide, by decide⟩
      · refine ⟨List.append_ne_nil_of_right_ne_nil _ (by decide), ?_⟩
        have hcolon : Sysinst.PlainText (cstr ":") := by decide
        have hend : Sysinst.PlainText (cstr "/64") := by decide
        exact plain_append (plain_append (plain_append (h _ (by decide)) hcolon)
          (h _ (by decide))) hend
    · cases hw

theorem isWord_ifconfigArgs (h : ∀ key ∈ valueKeys, Sysinst.PlainText (m (key ++ i))) :
    ∀ w ∈ ifconfigArgs m i, IsWord isIfs w := by
  intro w hw
  obtain ⟨hne, hplain⟩ := plain_ifconfigArgs h w hw
  exact ⟨hne, isIfs_of_plain hplain⟩

/-- The bytes of the text: blanks, and those of the words. -/
theorem mem_ethText (h : ∀ key ∈ valueKeys, Sysinst.PlainText (m (key ++ i))) :
    ∀ c ∈ ethText (asVars m) i, c = blank ∨
      Shell.isSpecial c = false ∧ Sysinst.isExpanded c = false ∧ Sysinst.isOpening c = false := by
  intro c hc
  have hmem : c ∈ (ifconfigArgs m i).flatMap (blank :: ·) := by
    rcases ethText_eq m i with heq | ⟨-, heq⟩
    · rwa [← heq]
    · rw [← heq]
      exact List.mem_cons_of_mem _ hc
  obtain ⟨w, hw, hcw⟩ := List.mem_flatMap.1 hmem
  rcases List.mem_cons.1 hcw with rfl | hcw
  · exact .inl rfl
  · exact .inr ((plain_ifconfigArgs h w hw).2 c hcw)

/-- A text of words is printed by `echo` as it is. -/
theorem joinWith_split {first : Bytes} {ws : List Bytes} (hfirst : IsWord isIfs first)
    (h : ∀ w ∈ ws, IsWord isIfs w) :
    joinWith blank (split isIfs (first ++ ws.flatMap (blank :: ·)))
      = first ++ ws.flatMap (blank :: ·) := by
  have hblank : isIfs blank = true := rfl
  rw [split_append hfirst, split_flatMap_cons h hblank, joinWith_cons, List.flatMap_def]
  cases ws with
  | nil => exact fun c hc ↦ absurd hc (by simp)
  | cons w ws => exact fun c hc ↦ Option.some.inj hc ▸ hblank

/-- Quotes around a text of words, the first of them with something before it. -/
theorem joinWith_split_quoted {first : Bytes} {ws : List Bytes} (hfirst : IsWord isIfs first)
    (h : ∀ w ∈ ws, IsWord isIfs w) :
    joinWith blank (split isIfs (first ++ ws.flatMap (blank :: ·) ++ [dquote]))
      = first ++ ws.flatMap (blank :: ·) ++ [dquote] := by
  have hquote : ∀ {w : Bytes}, IsWord isIfs w → IsWord isIfs (w ++ [dquote]) := fun hw ↦
    ⟨List.append_ne_nil_of_left_ne_nil hw.1 _, List.forall_mem_append.2 ⟨hw.2, by decide⟩⟩
  rcases List.eq_nil_or_concat ws with rfl | ⟨ws, w, rfl⟩
  · have hnone := @joinWith_split (first ++ [dquote]) [] (hquote hfirst) fun w hw ↦
      absurd hw (by simp)
    simpa using hnone
  · rw [List.concat_eq_append, List.forall_mem_append, List.forall_mem_singleton] at h
    have hall : ∀ v ∈ ws ++ [w ++ [dquote]], IsWord isIfs v :=
      List.forall_mem_append.2 ⟨h.1, List.forall_mem_singleton.2 (hquote h.2)⟩
    have hjoin := joinWith_split hfirst hall
    simpa using hjoin

/-- **What `eval` assigns** is the text itself. -/
theorem evalIfconfig_eq (hi : IfName i)
    (h : ∀ key ∈ valueKeys, Sysinst.PlainText (m (key ++ i))) :
    evalIfconfig vars i (ethText (asVars m) i)
      = some (assign (cstr "ifconfig_" ++ i) (ethText (asVars m) i) vars) := by
  have hbytes := mem_ethText h
  have hname := hi.bytes
  have hfirst : IsWord isIfs (cstr "ifconfig_" ++ i ++ [equals, dquote]) := by
    refine ⟨List.append_ne_nil_of_right_ne_nil _ (by decide), ?_⟩
    exact List.forall_mem_append.2 ⟨List.forall_mem_append.2 ⟨by decide, fun c hc ↦
      (hname c hc).2.1⟩, by decide⟩
  -- the first word of the text hangs on the name, unless there is a blank before it
  have hjoin : joinWith blank (split isIfs
      (cstr "ifconfig_" ++ i ++ equals :: dquote :: ethText (asVars m) i ++ [dquote]))
      = cstr "ifconfig_" ++ i ++ equals :: dquote :: ethText (asVars m) i ++ [dquote] := by
    have hwords := isWord_ifconfigArgs h
    rcases ethText_eq m i with heq | ⟨⟨-, hne⟩, heq⟩
    · have hquoted := joinWith_split_quoted hfirst hwords
      rw [← heq] at hquoted
      simpa using hquoted
    · obtain ⟨w, ws, hargs⟩ := List.exists_cons_of_ne_nil hne
      rw [hargs, List.forall_mem_cons] at hwords
      rw [hargs, List.flatMap_cons, List.cons_append, List.cons_inj_right] at heq
      have hword : IsWord isIfs (cstr "ifconfig_" ++ i ++ [equals, dquote] ++ w) :=
        ⟨List.append_ne_nil_of_left_ne_nil hfirst.1 _,
          List.forall_mem_append.2 ⟨hfirst.2, hwords.1.2⟩⟩
      have hquoted := joinWith_split_quoted hword hwords.2
      rw [List.append_assoc _ w, ← heq] at hquoted
      simpa using hquoted
  have hplain : ∀ c ∈ cstr "ifconfig_" ++ i ++ equals :: dquote :: ethText (asVars m) i
      ++ [dquote], Sysinst.isExpanded c = false := by
    refine List.forall_mem_append.2 ⟨List.forall_mem_append.2 ⟨List.forall_mem_append.2
      ⟨by decide, fun c hc ↦ (hname c hc).2.2⟩, List.forall_mem_cons.2 ⟨by decide,
        List.forall_mem_cons.2 ⟨by decide, fun c hc ↦ ?_⟩⟩⟩, by decide⟩
    rcases hbytes c hc with rfl | ⟨-, hnot, -⟩
    · rfl
    · exact hnot
  rw [evalIfconfig, fields_of_forall hplain, Option.bind_some, hjoin,
    source_quoted (isName_ifconfig fun c hc ↦ (hname c hc).1) (reads_plain hbytes)]
  rfl

/-! ## Assignments -/

theorem expand_assign :
    expand (assign name text vars) k = if k = name then text else expand vars k := by
  rw [expand, assign, Function.update_apply]
  split_ifs <;> rfl

theorem expand_assign_ne (h : k ≠ name) : expand (assign name text vars) k = expand vars k := by
  rw [expand_assign, if_neg h]

/-- The variables that the loop adds a name to. -/
def listNames : List Bytes := [cstr "dhclient_interfaces", cstr "dhcpd_interfaces"]

/-- **What the loop has done** for the interfaces `done`. -/
structure After (m : Bytes → Bytes) (vars₀ : Vars) (done : List Bytes) (vars : Vars) : Prop where
  other : ∀ k, (cstr "ifconfig_").isPrefixOf k = false → k ∉ listNames →
    expand vars k = expand vars₀ k
  dhclient : expand vars (cstr "dhclient_interfaces") = (dhcpNames m done).flatMap (blank :: ·)
  ifconfig : ∀ int, expand vars (cstr "ifconfig_" ++ int) =
    if int ∈ done then ethText (asVars m) int else []

theorem NetKey.setting (h : NetKey k) : (cstr "x_").isPrefixOf k = true := by
  rcases h with h | ⟨key, hkey, i, -, rfl⟩
  · have hall : ∀ k ∈ [cstr "x_eth_typ__", cstr "x_defaultroute_adr"],
        (cstr "x_").isPrefixOf k = true := by decide
    exact hall k h
  · have hall : ∀ key ∈ ifKeys, (cstr "x_").isPrefixOf key = true := by decide
    have hpre := hall key hkey
    rw [List.isPrefixOf_iff_prefix] at hpre ⊢
    exact hpre.trans (List.prefix_append key i)

/-- A setting is no variable of `rc.conf`. -/
theorem ne_of_setting (h : (cstr "x_").isPrefixOf k = true)
    (hname : (cstr "x_").isPrefixOf name = false) : k ≠ name := by
  rintro rfl
  rw [h] at hname
  cases hname

theorem not_mem_of_setting (h : (cstr "x_").isPrefixOf k = true) {l : List Bytes}
    (hl : ∀ name ∈ l, (cstr "x_").isPrefixOf name = false) : k ∉ l :=
  fun hmem ↦ ne_of_setting h (hl k hmem) rfl

theorem not_ifconfig_of_setting (h : (cstr "x_").isPrefixOf k = true) :
    (cstr "ifconfig_").isPrefixOf k = false ∧ k ∉ listNames := by
  refine ⟨?_, not_mem_of_setting h (by decide)⟩
  obtain ⟨t, rfl⟩ := List.isPrefixOf_iff_prefix.1 h
  rfl

theorem After.holds (h : After m vars₀ done vars) (hm : Holds m vars₀) : Holds m vars := by
  intro k hk
  obtain ⟨hpre, hlist⟩ := not_ifconfig_of_setting hk.setting
  rw [h.other k hpre hlist, hm k hk]

theorem ifconfig_ne {k int : Bytes} (h : (cstr "ifconfig_").isPrefixOf k = false) :
    cstr "ifconfig_" ++ int ≠ k := by
  rintro rfl
  rw [List.isPrefixOf_iff_prefix.2 (List.prefix_append _ _)] at h
  cases h

theorem ifconfig_not_mem {l : List Bytes} (h : ∀ k ∈ l, (cstr "ifconfig_").isPrefixOf k = false)
    (int : Bytes) : cstr "ifconfig_" ++ int ∉ l := fun hmem ↦ ifconfig_ne (h _ hmem) rfl

/-- One more interface. -/
theorem After.snoc (h : After m vars₀ done vars)
    (hdhclient : expand vars₁ (cstr "dhclient_interfaces") =
      (dhcpNames m (done ++ [i])).flatMap (blank :: ·))
    (hother : ∀ k, (cstr "ifconfig_").isPrefixOf k = false → k ∉ listNames →
      expand vars₁ k = expand vars k)
    (hifconfig : ∀ int, expand vars₁ (cstr "ifconfig_" ++ int) =
      if int = i then ethText (asVars m) i else expand vars (cstr "ifconfig_" ++ int)) :
    After m vars₀ (done ++ [i]) vars₁ := by
  refine ⟨fun k hk hlist ↦ (hother k hk hlist).trans (h.other k hk hlist), hdhclient,
    fun int ↦ ?_⟩
  rw [hifconfig, h.ifconfig]
  by_cases hint : int = i
  · rw [if_pos hint, hint, if_pos (by simp)]
  · rw [if_neg hint]
    simp [hint]

/-- A name that is added if a setting says so. -/
theorem expand_more_ne {c : Prop} [Decidable c] (h : k ≠ name) :
    expand (if c then assignMore name i vars else vars) k = expand vars k := by
  split_ifs
  · exact expand_assign_ne h
  · rfl

/-- **One interface**, after which the loop has done one more. -/
theorem After.step (h : After m vars₀ done vars) (hm : Holds m vars₀) (hi : IfName i)
    (hplain : ∀ key ∈ valueKeys, Sysinst.PlainText (m (key ++ i))) :
    ∃ vars₁, ethStep vars i = some vars₁ ∧ After m vars₀ (done ++ [i]) vars₁ := by
  have hholds := h.holds hm
  have htyp : expand vars (cstr "x_eth_typ__" ++ i) = m (cstr "x_eth_typ__" ++ i) :=
    hholds _ (netKey_append (by decide) hi)
  have hall : i.all nameChar = true := List.all_eq_true.2 fun c hc ↦ (hi.bytes c hc).1
  rw [ethStep, if_pos hall, hholds.ethText hi, htyp]
  dsimp only
  set vars' := if m (cstr "x_eth_typ__" ++ i) = cstr "1" then
    assignMore (cstr "dhclient_interfaces") i vars else vars with hvars'
  set vars₂ := if expand vars (cstr "x_dhcpd_enable__" ++ i) = yes then
    assignMore (cstr "dhcpd_interfaces") i vars' else vars' with hvars₂
  have hother : ∀ k, k ∉ listNames → expand vars₂ k = expand vars k := by
    intro k hk
    simp only [listNames, List.mem_cons, List.not_mem_nil, or_false, not_or] at hk
    rw [hvars₂, expand_more_ne hk.2, hvars', expand_more_ne hk.1]
  have hdhclient : expand vars₂ (cstr "dhclient_interfaces") =
      (dhcpNames m (done ++ [i])).flatMap (blank :: ·) := by
    rw [hvars₂, expand_more_ne (by decide), hvars', dhcpNames, List.filter_append]
    have hold := h.dhclient
    rw [dhcpNames] at hold
    split_ifs with hone
    · rw [assignMore, expand_assign, if_pos rfl, hold]
      simp [hone]
    · rw [hold]
      simp [hone]
  by_cases heth : ethText (asVars m) i = []
  · rw [if_pos heth]
    refine ⟨vars₂, rfl, h.snoc hdhclient (fun k _ hk ↦ hother k hk) fun int ↦ ?_⟩
    rw [hother _ (ifconfig_not_mem (by decide) int)]
    split_ifs with hint
    · rw [hint, h.ifconfig, heth, ite_self]
    · rfl
  · rw [if_neg heth, evalIfconfig_eq hi hplain]
    refine ⟨_, rfl, h.snoc ?_ (fun k hk hlist ↦ ?_) fun int ↦ ?_⟩
    · rw [expand_assign_ne (ifconfig_ne rfl).symm, hdhclient]
    · rw [expand_assign_ne (ifconfig_ne hk).symm, hother k hlist]
    · by_cases hint : int = i
      · rw [hint, expand_assign, if_pos rfl, if_pos rfl]
      · rw [if_neg hint, expand_assign_ne (fun heq ↦ hint (List.append_cancel_left heq)),
          hother _ (ifconfig_not_mem (by decide) int)]

/-- **The whole loop.** -/
theorem After.run (h : After m vars₀ done vars) (hm : Holds m vars₀) (hnames : ∀ i ∈ eths, IfName i)
    (hplain : ∀ i ∈ eths, ∀ key ∈ valueKeys, Sysinst.PlainText (m (key ++ i))) :
    ∃ vars₁, eths.foldlM ethStep vars = some vars₁ ∧ After m vars₀ (done ++ eths) vars₁ := by
  induction eths generalizing done vars with
  | nil => exact ⟨vars, rfl, by rwa [List.append_nil]⟩
  | cons i eths ih =>
    obtain ⟨hi, hnames⟩ := List.forall_mem_cons.1 hnames
    obtain ⟨hvals, hplain⟩ := List.forall_mem_cons.1 hplain
    obtain ⟨vars', hstep, h'⟩ := h.step hm hi hvals
    obtain ⟨vars₁, hrun, h₁⟩ := ih h' hnames hplain
    refine ⟨vars₁, ?_, by rwa [List.append_assoc] at h₁⟩
    rw [List.foldlM_cons, hstep]
    exact hrun

/-! ## What is run -/

/-- The names of variables that the settings do not touch. -/
theorem Quiet.congr (h : Quiet vars) (heq : ∀ k, (cstr "x_").isPrefixOf k = false →
    k ∉ [cstr "hostname", cstr "domainname"] → expand vars₁ k = expand vars k) : Quiet vars₁ := by
  refine ⟨?_, ?_, ?_, ?_, ?_, ?_, fun i ↦ ?_⟩
  · rw [checkyesno, heq _ rfl (by decide)]
    exact h.auto
  · rw [heq _ rfl (by decide)]
    exact h.net
  · rw [checkyesno, heq _ rfl (by decide)]
    exact h.dhclient
  · rw [heq _ rfl (by decide), h.flags]
  · rw [heq _ rfl (by decide), h.interfaces]
  · rw [heq _ rfl (by decide), h.route]
  · rw [heq _ rfl (ifconfig_not_mem (by decide) i), h.ifconfig]

end Netstart
