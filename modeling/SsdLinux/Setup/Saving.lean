import Mathlib.Data.List.GetD
import Mathlib.Tactic.IntervalCases
import SsdLinux.Setup.Named
import SsdLinux.Setup.Sysupdate
import SsdLinux.Setup.Tables
import SsdLinux.Setup.Zones

/-!
# What a save makes of the tables

`ok_save` puts the pending settings into force, and `page_setup` has all files written that other
programs read: `yazaki_main` reads the configuration once more and runs the generators, and
`sysupdate` writes the script of the packet filter.  `update` is that part of `page_setup`.

Over any history of requests that are in order, a save tells the packet filter the rows of the
tables, one command for each (`saved_rules`), and has the name server serve every zone
(`saved_zones`).  Neither the length of the history nor what else is in the store comes into it.
-/

set_option autoImplicit false

namespace Setup

open CLib

variable {b : Build} {w : World} {r : Request} {f : Files} {p : Proc} {args : List Arg} {v : Visit}
  {res : Result} {R : Registry} {T : Tables} {m : Machine} {serial : ℤ} {gs : List Generator}

/-! ## The save -/

/-- `UPSETCONF`. -/
def upsetconfPath : Bytes := cstr "/etc/rc.iptables"

/-- `RADVDCONF`. -/
def radvdconfPath : Bytes := cstr "/etc/radvd.conf"

/-- `ETC_FLASHCFG`. -/
def etcFlashcfg : Bytes := cstr "/etc/flashcfg"

/-- What a save does to the machine. -/
structure Update where
  /-- The files of the generators. -/
  generated : KeyVals
  /-- `UPSETCONF`, if it can be opened. -/
  filter : Option Bytes
  /-- `RADVDCONF`, if it can be opened. -/
  radvd : Option Bytes
  /-- What is handed to `system`. -/
  cmds : List Bytes
  shutdownArg : Bytes

/-- `yazaki_main`, which empties the store before it reads the files. -/
def yazakiMain (b : Build) (m : Machine) (w : World) (serial : ℤ) (f : Files)
    (environ : Bytes → Option Bytes) : Option (Proc × KeyVals) :=
  (readConf w f environ).map (runGenerators m w serial (yazakiGenerators b.custom0))

/-- `sysupdate`: what it writes to `UPSETCONF` and to `RADVDCONF`, where they can be opened. -/
def sysupdate (m : Machine) (w : World) (p : Proc) : Option (Option Bytes × Option Bytes) :=
  (if m.writable upsetconfPath then (upsetconf w p).map some else some none).map fun filter ↦
    (filter, if m.writable radvdconfPath then some (radvdconf w p) else none)

/-- The command that puts the files into the flash memory: none if there is no list of them, and an
empty one if the list is empty. -/
def saveCmds (m : Machine) : List Bytes :=
  match m.read etcFlashcfg with
  | none => []
  | some list =>
    [if list = [] then [] else cstr "/usr/sbin/flashcfg -s /etc/flashcfg > /dev/null 2>&1"]

/-- The argument of `shutdown`, if the machine goes down. -/
def shutdownArg (mode : Bytes) : Bytes :=
  if mode.head? = some 50 then cstr "-r"
  else if mode.head? = some 51 ∨ mode.head? = some 52 then cstr "-h" else []

/-- `page_setup` after `OK_SAVE`, but for the files of the configuration, which are those of
`finish`. -/
def update (b : Build) (m : Machine) (w : World) (serial : ℤ) (res : Result) (f : Files) :
    Option Update :=
  (getval w (cstr "x_save_mode") res.proc).bind fun mode ↦
    if mode.head? = some 52 ∨ mode.head? = some 53 then
      some ⟨[], none, none, [], shutdownArg mode⟩
    else
      (yazakiMain b m w serial (res.files f) res.proc.environ).bind fun x ↦
        (sysupdate m w x.1).map fun s ↦ ⟨x.2, s.1, s.2, saveCmds m, shutdownArg mode⟩

/-- A save that has everything written. -/
structure Result.Updates (w : World) (res : Result) : Prop where
  status : res.status = .okSave
  mode : ∃ mode, getval w (cstr "x_save_mode") res.proc = some mode ∧
    ¬ (mode.head? = some 52 ∨ mode.head? = some 53)

theorem update_eq (h : res.Updates w) (hread : readConf w (res.files f) res.proc.environ = some p)
    {script : Bytes}
    (hscript : upsetconf w (runGenerators m w serial (yazakiGenerators b.custom0) p).1
      = some script) :
    ∃ u, update b m w serial res f = some u ∧
      u.filter = (if m.writable upsetconfPath then some script else none) ∧
      u.generated = (runGenerators m w serial (yazakiGenerators b.custom0) p).2 := by
  obtain ⟨mode, hmode, hnot⟩ := h.mode
  rw [update, hmode, Option.bind_some, if_neg hnot, yazakiMain, hread, Option.map_some,
    Option.bind_some, sysupdate, hscript]
  cases m.writable upsetconfPath <;> exact ⟨_, rfl, rfl, rfl⟩

/-- A save that has everything written does not put the defaults back. -/
theorem Result.Updates.files (h : res.Updates w) : (finish w res f).files = res.files f := by
  obtain ⟨mode, hmode, hnot⟩ := h.mode
  rw [files_finish_eq, if_neg]
  rw [Result.restores, hmode, Option.bind_some, Bool.and_eq_true, beq_iff_eq, beq_iff_eq]
  exact fun hb ↦ hnot (.inr hb.2)

/-- **The files of a save have the tables that it leaves.** -/
theorem managed_of_updates (h : Managed b f T) (hsafe : WhenAccepted (RegistrySafe b) w r f)
    (hs : served b w r f = some (v, res)) (hup : res.Updates w) :
    Managed b (res.files f) (tablesAfter b w r f T) := by
  obtain ⟨p, args, hv, hres⟩ := served_eq_some hs
  have hmanaged := h.step hsafe (main_of_visits hv hres)
  rwa [hup.files] at hmanaged

/-! ## The generators in between -/

theorem getvalp_cutval {k key : Bytes} (h : k ≠ key) (p : Proc) :
    getvalp k (cutval key p) = getvalp k p :=
  (Keyed.find_modify (g := Entry.cut) (fun _ ↦ rfl) p.env).trans (if_neg h)

/-- No setting but the list of the relays is another one after the generators. -/
theorem getval_runGenerators {k : Bytes} (h : k ≠ relayKey) (p : Proc) :
    getval w k (runGenerators m w serial gs p).1 = getval w k p := by
  rw [proc_runGenerators]
  split
  · rw [getval, getval, getvalp_cutval h]
  · rfl

theorem append_ne_relayKey {s : Bytes} (h : s.isPrefixOf relayKey = false) (t : Bytes) :
    s ++ t ≠ relayKey := fun he ↦ by
  rw [← he, List.isPrefixOf_iff_prefix.2 (List.prefix_append s t)] at h
  cases h

/-- The script of the packet filter does not depend on the relays. -/
theorem upsetconf_runGenerators (p : Proc) :
    upsetconf w (runGenerators m w serial gs p).1 = upsetconf w p := by
  have hget : ∀ s t : Bytes, s.isPrefixOf relayKey = false →
      getval w (s ++ t) (runGenerators m w serial gs p).1 = getval w (s ++ t) p := fun s t hs ↦
    getval_runGenerators (append_ne_relayKey hs t) p
  have hlines : ∀ (listKey : Bytes) (line : List Bytes → Option Bytes),
      listKey.isPrefixOf relayKey = false →
      ruleLines w listKey line (runGenerators m w serial gs p).1 = ruleLines w listKey line p := by
    intro listKey line hlist
    have hkey := hget listKey [] hlist
    rw [List.append_nil] at hkey
    rw [ruleLines, ruleLines, hkey]
    simp only [hget listKey _ hlist]
  have hport : portfwLine w (runGenerators m w serial gs p).1 = portfwLine w p := by
    funext l
    simp only [portfwLine.eq_def, hget (cstr "x_eth_adr__") _ (by decide)]
  have hmasq : masqLine w (runGenerators m w serial gs p).1 = masqLine w p := by
    rw [masqLine, masqLine, getval_runGenerators (by decide)]
  rw [upsetconf, upsetconf, hlines _ _ (by decide), hlines _ _ (by decide), hport, hmasq]

/-! ## What the packet filter is told -/

theorem exists_rule {l : List Bytes} (h : l.length = 9) : ∃ r : Rule, r.fields = l := by
  refine ⟨⟨l.getD 0 [], l.getD 1 [], l.getD 2 [], l.getD 3 [], l.getD 4 [], l.getD 5 [],
    l.getD 6 [], l.getD 7 [], l.getD 8 []⟩, List.ext_getElem h.symm fun i h1 h2 ↦ ?_⟩
  rw [h] at h2
  interval_cases i <;> exact List.getD_eq_getElem _ _ (by omega)

theorem fields_injective : Function.Injective Rule.fields := by
  intro r r' h
  obtain ⟨⟩ := r
  obtain ⟨⟩ := r'
  simpa [Rule.fields] using h

theorem exists_forward {l : List Bytes} (h : l.length = 5) : ∃ r : Forward, r.fields = l := by
  refine ⟨⟨l.getD 0 [], l.getD 1 [], l.getD 2 [], l.getD 3 [], l.getD 4 []⟩,
    List.ext_getElem h.symm fun i h1 h2 ↦ ?_⟩
  rw [h] at h2
  interval_cases i <;> exact List.getD_eq_getElem _ _ (by omega)

/-- The lines for a list are the lines for the rows of its table. -/
theorem Represents.ruleLines (h : Represents (fun k ↦ stored k p) T) (R : Registry)
    {α : Type} {fields : α → List Bytes} (hrow : ∀ l : List Bytes, l.length = R.fieldCount →
      ∃ r, fields r = l) {line : List Bytes → Option Bytes} {words : α → List Bytes}
    (hline : ∀ r, line (fields r) = some (commandLine (words r))) :
    ∃ rows : List α, (T R).map Prod.snd = rows.map fields ∧
      Setup.ruleLines w R.listKey line p = some (rows.flatMap fun r ↦ commandLine (words r)) := by
  have hrows : ∀ rows : List Listing, (∀ e ∈ rows, e ∈ T R) →
      ∃ l : List α, rows.map Prod.snd = l.map fields ∧
        (rows.map fun e ↦ dec e.1).mapM (fun item ↦
          line (listSplit 0 (getval w (R.listKey ++ item) p)))
          = some (l.map fun r ↦ commandLine (words r)) := by
    intro rows
    induction rows with
    | nil => exact fun _ ↦ ⟨[], rfl, rfl⟩
    | cons e rows ih =>
      intro hmem
      rw [List.forall_mem_cons] at hmem
      obtain ⟨l, hl, hmap⟩ := ih hmem.2
      obtain ⟨hword, hlen⟩ := h.fields R e hmem.1
      obtain ⟨r, hr⟩ := hrow e.2 hlen
      have hget : getval w (R.listKey ++ dec e.1) p = some (listJoin e.2) := by
        have hclock : recKey R.listKey e.1 ∉ clockKeys :=
          Registry.recKey_not_clock (by cases R <;> decide) _
        have hrec := h.record R e hmem.1
        rw [stored, ← getval_eq (w := w) hclock, recKey, decInt_natCast] at hrec
        exact hrec
      refine ⟨r :: l, by rw [List.map_cons, hl, List.map_cons, hr], ?_⟩
      rw [List.map_cons, List.mapM_cons, hget, listSplit_listJoin hword, ← hr, hline, hmap]
      rfl
  obtain ⟨l, hl, hmap⟩ := hrows (T R) fun _ he ↦ he
  refine ⟨l, hl, ?_⟩
  have hlist : listSplit 0 (getval w R.listKey p) = (T R).map fun e ↦ dec e.1 := by
    rw [listSplit_getval, Registry.items_eq]
    exact h.list R
  rw [Setup.ruleLines, hlist, hmap, Option.map_some, List.flatMap_def]

/-- What `sysupdate` makes of the tables: a command for each row, in their order. -/
theorem Represents.upsetconf (h : Represents (fun k ↦ stored k p) T) :
    ∃ (rules : List Rule) (forwards : List Forward),
      (T .fw).map Prod.snd = rules.map Rule.fields ∧
      (T .portfw).map Prod.snd = forwards.map Forward.fields ∧
      Setup.upsetconf w p = some ((rules.flatMap fun r ↦ commandLine (r.words w)) ++ masqLine w p
        ++ forwards.flatMap fun r ↦
          commandLine (r.words (fmtS (getval w (cstr "x_eth_adr__" ++ r.iface) p)))) := by
  obtain ⟨rules, hrules, hfw⟩ := h.ruleLines (w := w) .fw (fun _ h ↦ exists_rule h)
    (fwLine_fields w)
  obtain ⟨forwards, hforwards, hport⟩ := h.ruleLines (w := w) .portfw (fun _ h ↦ exists_forward h)
    (portfwLine_fields w p)
  refine ⟨rules, forwards, hrules, hforwards, ?_⟩
  rw [Setup.upsetconf, show fwKey = Registry.fw.listKey from rfl, hfw, Option.bind_some,
    show portfwKey = Registry.portfw.listKey from rfl, hport, Option.map_some]

/-- **Over any history, a save tells the packet filter the rows of the tables**, one command for
each row, in their order.  `p` is what `yazaki_main` reads of the files that the save has put into
force. -/
theorem saved_rules (h : Managed b f T) (hsafe : WhenAccepted (RegistrySafe b) w r f)
    (hs : served b w r f = some (v, res)) (hup : res.Updates w)
    (hread : readConf w (res.files f) res.proc.environ = some p)
    (hopen : m.writable upsetconfPath = true) (serial : ℤ) :
    ∃ (u : Update) (rules : List Rule) (forwards : List Forward),
      update b m w serial res f = some u ∧
      (tablesAfter b w r f T .fw).map Prod.snd = rules.map Rule.fields ∧
      (tablesAfter b w r f T .portfw).map Prod.snd = forwards.map Forward.fields ∧
      u.filter = some ((rules.flatMap fun r ↦ commandLine (r.words w)) ++ masqLine w p
        ++ forwards.flatMap fun r ↦
          commandLine (r.words (fmtS (getval w (cstr "x_eth_adr__" ++ r.iface) p)))) := by
  have hrep := represents_of_managed (managed_of_updates h hsafe hs hup) hread
  obtain ⟨rules, forwards, hrules, hforwards, hscript⟩ := hrep.upsetconf (w := w)
  have hrun : upsetconf w (runGenerators m w serial (yazakiGenerators b.custom0) p).1 = some _ :=
    (upsetconf_runGenerators p).trans hscript
  obtain ⟨u, hu, hfilter, -⟩ := update_eq hup hread hrun
  rw [if_pos hopen] at hfilter
  exact ⟨u, rules, forwards, hu, hrules, hforwards, hfilter⟩

/-! ## What the name server serves -/

/-- A row of the table of zones is served, in a store that is the one of the tables but for the
relays. -/
theorem Represents.served (h : Represents (fun k ↦ stored k p) T) {q : Proc}
    (hq : ∀ k, k ≠ relayKey → getval w k q = getval w k p) {base : Bytes}
    (hbase : m.read namedDefault = some base) (hconf : m.writable namedConf = true)
    (hdb : ∀ n typ name, (n, [typ, name]) ∈ T .zone → m.writable (zonedbPath name) = true)
    {i n : ℕ} {typ name : Bytes} (hrow : (T .zone)[i]? = some (n, [typ, name]))
    (htyp : typ = cstr "master" ∨ typ = cstr "slave") :
    Served m w serial q i (dec n) ∧ zonePieces w q (dec n) = [typ, name] := by
  have hzones : zones w q = (T .zone).map fun e ↦ dec e.1 := by
    rw [← h.list .zone, ← Registry.items_eq (w := w), zones, getval3, hq _ (by decide), ← getval3]
    rfl
  have hpieces : ∀ e ∈ T .zone, zonePieces w q (dec e.1) = e.2 := fun e he ↦ by
    have hclock : recKey zoneKey e.1 ∉ clockKeys := Registry.recKey_not_clock (by decide) _
    have hrec := h.record .zone e he
    rw [show Registry.zone.listKey = zoneKey from rfl, stored, ← getval_eq (w := w) hclock, recKey,
      decInt_natCast] at hrec
    rw [zonePieces, getval3, hq _ (append_ne_relayKey (by decide) _), hrec, Option.getD_some,
      listSplit_listJoin (h.fields .zone e he).1]
  have hmem := List.mem_of_getElem? hrow
  have hhere : zonePieces w q (dec n) = [typ, name] := hpieces (n, [typ, name]) hmem
  have hitem : (zones w q)[i]? = some (dec n) := by
    rw [hzones, List.getElem?_map, hrow, Option.map_some]
  refine ⟨served_of_ok hbase hconf hitem ?_ fun j no _ hj hfail ↦ ?_, hhere⟩
  · rcases htyp with rfl | rfl
    · exact ⟨_, _, hhere, .inl ⟨rfl, hdb n _ name hmem⟩⟩
    · exact ⟨_, _, hhere, .inr rfl⟩
  · -- an item stands for a row, and a row does not fail
    rw [hzones, List.getElem?_map] at hj
    obtain ⟨e, he, rfl⟩ := Option.map_eq_some_iff.1 hj
    have hme := List.mem_of_getElem? he
    have hlen : e.2.length = 2 := (h.fields .zone e hme).2
    obtain ⟨typ', name', he2⟩ := List.length_eq_two.1 hlen
    obtain ⟨-, hclosed⟩ := hfail typ' name' ((hpieces e hme).trans he2)
    rw [hdb e.1 typ' name' (he2 ▸ hme)] at hclosed
    cases hclosed

/-- What one of the generators writes is among what all of them write. -/
theorem mem_runGenerators {g : Generator} {before after : List Generator} {file : Bytes × Bytes}
    (p : Proc) (h : file ∈ (g.run m w serial (runGenerators m w serial before p).1).files) :
    file ∈ (runGenerators m w serial (before ++ g :: after) p).2 := by
  induction before generalizing p with
  | nil => exact List.mem_append_left _ h
  | cons g' before ih => exact List.mem_append_right _ (ih _ h)

/-- **Over any history, a save has the name server serve every row of the table of zones**: no row
keeps the rows behind it out of `named.conf`, as long as the files can be written. -/
theorem saved_zones (h : Managed b f T) (hsafe : WhenAccepted (RegistrySafe b) w r f)
    (hs : served b w r f = some (v, res)) (hup : res.Updates w)
    (hread : readConf w (res.files f) res.proc.environ = some p) {base : Bytes}
    (hbase : m.read namedDefault = some base) (hconf : m.writable namedConf = true)
    (hdb : ∀ n typ name, (n, [typ, name]) ∈ tablesAfter b w r f T .zone →
      m.writable (zonedbPath name) = true) (serial : ℤ) :
    ∃ u, update b m w serial res f = some u ∧
      ∀ n name, ((n, [cstr "master", name]) ∈ tablesAfter b w r f T .zone →
          (∃ text, (namedConf, text) ∈ u.generated ∧ masterStanza name <:+: text) ∧
            ∃ db, (zonedbPath name, db) ∈ u.generated) ∧
        ((n, [cstr "slave", name]) ∈ tablesAfter b w r f T .zone →
          ∃ text, (namedConf, text) ∈ u.generated ∧
            slaveStanza name (getval3 w (cstr "x_named_zone_master__" ++ dec n) p) <:+: text) := by
  have hrep := represents_of_managed (managed_of_updates h hsafe hs hup) hread
  obtain ⟨rules, forwards, -, -, hscript⟩ := hrep.upsetconf (w := w)
  obtain ⟨u, hu, -, hgen⟩ := update_eq (b := b) (m := m) hup hread
    ((upsetconf_runGenerators p).trans hscript)
  refine ⟨u, hu, ?_⟩
  -- `rc2named` is the third of the generators
  have hnamed : ∀ file ∈ (rc2named m w serial
      (runGenerators m w serial [.dhcpd, .sendmail] p).1).files, file ∈ u.generated := by
    intro file hfile
    have hmem : file ∈ (runGenerators m w serial ([.dhcpd, .sendmail] ++ .named ::
        ([.resolv, .httpd, .namedLocal] ++ if b.custom0 then [.samba] else [])) p).2 :=
      mem_runGenerators p hfile
    rw [hgen]
    exact hmem
  have hserved : ∀ {n : ℕ} {typ name : Bytes}, (n, [typ, name]) ∈ tablesAfter b w r f T .zone →
      (typ = cstr "master" ∨ typ = cstr "slave") → ∃ i,
        Served m w serial (runGenerators m w serial [.dhcpd, .sendmail] p).1 i (dec n) ∧
        zonePieces w (runGenerators m w serial [.dhcpd, .sendmail] p).1 (dec n) = [typ, name] := by
    intro n typ name hmem htyp
    obtain ⟨i, hi⟩ := List.mem_iff_getElem?.1 hmem
    exact ⟨i, hrep.served (fun k hk ↦ getval_runGenerators hk p) hbase hconf hdb hi htyp⟩
  refine fun n name ↦ ⟨fun hmem ↦ ?_, fun hmem ↦ ?_⟩
  · obtain ⟨i, ⟨-, ⟨text, htext, hin⟩, hdbs⟩, hpieces⟩ := hserved hmem (.inl rfl)
    rw [stanza, hpieces] at hin
    obtain ⟨db, hfile⟩ : ∃ db,
        zonedbFile w serial (runGenerators m w serial [.dhcpd, .sendmail] p).1 (dec n)
          = some (zonedbPath name, db) := by
      rw [zonedbFile, hpieces]
      exact ⟨_, if_pos rfl⟩
    exact ⟨⟨text, hnamed _ htext, hin⟩, db, hnamed _ (hdbs _ hfile)⟩
  · obtain ⟨i, ⟨-, ⟨text, htext, hin⟩, -⟩, hpieces⟩ := hserved hmem (.inr rfl)
    rw [stanza, hpieces] at hin
    have hmaster : getval3 w (cstr "x_named_zone_master__" ++ dec n)
        (runGenerators m w serial [.dhcpd, .sendmail] p).1
        = getval3 w (cstr "x_named_zone_master__" ++ dec n) p := by
      rw [getval3, getval_runGenerators (append_ne_relayKey (by decide) _), ← getval3]
    exact ⟨text, hnamed _ htext, hmaster ▸ hin⟩

/-! ## A rule and a zone that are saved -/

/-- The request to save, and to leave the machine as it is. -/
def saveRequest : Request := boxRequest (loginArgs ++ cstr "op=save&s_ok=1&x_save_mode=1")

/-- That request, as it can be run. -/
def saves (f : Files) : Bool :=
  (visitOf World.box saveRequest f).any fun (x : Proc × List Arg × Visit) ↦
    (callHook ⟨false, false⟩ World.box (delFlag x.2.1) x.2.2).join.any fun res ↦
      decide ((∀ q ∈ argsPuts World.box x.1 x.2.1, ¬ RegistryKey q.key) ∧
        Writable RegistryKey x.2.2.proc.env ∧ x.2.2.target ⟨false, false⟩ World.box = none ∧
        x.2.2.deletes World.box = none ∧ res.wrote = false ∧ res.status = .okSave ∧
        getval World.box (cstr "x_save_mode") res.proc = some (cstr "1")) &&
      (readConf World.box (res.files f) res.proc.environ).isSome

theorem of_saves (h : saves f = true) : ∃ v res p,
    WhenAccepted (RegistrySafe ⟨false, false⟩) World.box saveRequest f ∧
    served ⟨false, false⟩ World.box saveRequest f = some (v, res) ∧ res.Updates World.box ∧
    readConf World.box (res.files f) res.proc.environ = some p ∧
    ∀ T, tablesAfter ⟨false, false⟩ World.box saveRequest f T = T := by
  obtain ⟨p, args, v, res, hv, hvis, hres, hfacts⟩ := exists_of_visitOf h
  rw [Bool.and_eq_true, decide_eq_true_eq] at hfacts
  obtain ⟨⟨hpost, hwrite, htarget, hdel, hw, hst, hmode⟩, hread⟩ := hfacts
  obtain ⟨p', hread⟩ := Option.isSome_iff_exists.1 hread
  have hs := served_of_visits hvis hres
  have hup : res.Updates World.box := ⟨hst, cstr "1", hmode, by decide⟩
  refine ⟨v, res, p', whenAccepted_of_visitOf hv ⟨fun k hk ↦ not_posted_of_forall hpost hk,
    ⟨hwrite, fun t ht ↦ ?_, fun key tgt hkey ↦ ?_, fun _ _ ↦ Nat.zero_lt_succ _⟩, fun R hR ↦ ?_⟩,
    hs, hup, hread, fun T ↦ ?_⟩
  · rw [htarget] at ht
    cases ht
  · rw [hdel] at hkey
    cases hkey
  · rw [htarget] at hR
    cases hR
  · have hnot : res.restores World.box = false := by
      rw [Result.restores, hmode]
      exact Bool.and_eq_false_imp.2 fun _ ↦ by decide
    rw [tablesAfter, hs]
    dsimp only
    rw [if_neg (by rw [hw]; exact Bool.false_ne_true), hnot, Bool.false_and, if_neg]
    exact Bool.false_ne_true

/-- The fields of the rule 5. -/
def passRule : Rule :=
  ⟨cstr "5", cstr "tcp", cstr "ANY", cstr "0", cstr "ANY", cstr "ANY", cstr "0", cstr "ANY",
    cstr "ACCEPT"⟩

theorem saved_rules_rule : ∃ (u : Update) (p : Proc),
    u.filter = some (cstr "/sbin/iptables -A INPUT --proto tcp -j ACCEPT\n"
      ++ masqLine World.box p) := by
  obtain ⟨f, q, hmanaged, hP⟩ := managed_of_addition (r := ruleRequest) (R := .fw) (n := 5)
    (P := fun q f ↦ decide (Registry.fw.posted World.box q = passRule.fields) && saves f)
    (by decide +kernel)
  rw [Bool.and_eq_true, decide_eq_true_eq] at hP
  obtain ⟨v, res, p, hsafe, hs, hup, hread, hsame⟩ := of_saves hP.2
  obtain ⟨u, rules, forwards, -, hrules, hforwards, hfilter⟩ :=
    saved_rules (m := Machine.open) hmanaged hsafe hs hup hread rfl 0
  rw [hsame, hP.1] at hrules
  rw [hsame] at hforwards
  obtain rfl : forwards = [] := List.map_eq_nil_iff.1 hforwards.symm
  obtain ⟨rule, hrule, rfl⟩ : ∃ rule, Rule.fields rule = passRule.fields ∧ rules = [rule] := by
    obtain ⟨rule, rules', rfl, hrule, hrest⟩ := List.map_eq_cons_iff.1 hrules.symm
    exact ⟨rule, hrule, by rw [List.map_eq_nil_iff.1 hrest]⟩
  rw [fields_injective hrule, List.flatMap_nil, List.append_nil] at hfilter
  exact ⟨u, p, hfilter⟩

theorem saved_zones_zone : ∃ (u : Update) (text db : Bytes), (namedConf, text) ∈ u.generated ∧
    masterStanza (cstr "a.jp") <:+: text ∧ (zonedbPath (cstr "a.jp"), db) ∈ u.generated := by
  obtain ⟨f, q, hmanaged, hP⟩ := managed_of_addition (r := zoneForm (cstr "0") (cstr "a.jp"))
    (R := .zone) (n := 0)
    (P := fun q f ↦ decide (Registry.zone.posted World.box q = [cstr "master", cstr "a.jp"]) &&
      saves f) (by decide +kernel)
  rw [Bool.and_eq_true, decide_eq_true_eq] at hP
  obtain ⟨v, res, p, hsafe, hs, hup, hread, hsame⟩ := of_saves hP.2
  obtain ⟨u, -, hu⟩ := saved_zones (m := Machine.open) hmanaged hsafe hs hup hread rfl rfl
    (fun _ _ _ _ ↦ rfl) 0
  rw [hsame, hP.1] at hu
  obtain ⟨⟨text, htext, hin⟩, db, hdb⟩ := (hu 0 (cstr "a.jp")).1 List.mem_cons_self
  exact ⟨u, text, db, htext, hin, hdb⟩

end Setup
