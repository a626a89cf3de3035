import SsdLinux.Setup.Zones

/-!
# From the form of a record to the file of the zone

`ok_named_master` joins the owner name, the type and the resource of a record with blanks;
`rc2named_zonedb` takes the text apart at white space again and prints a line for what it gets, if
that is three pieces with a type that goes with one word of data, or four pieces of an `MX` record.
Nothing is printed otherwise, and nobody is told: `err_chk` asks of the type and the resource only
that they are not empty.

* The owner name that `err_chk` accepts has no white space, so it is the first piece, also if it is
  empty (`zonedbLine_pieces`).
* A run of additions appends to the file of the zone, in the order of the list, what is printed for
  each record (`Records.zonedb`).
* So **every record has its line exactly if every record can be printed** (`records_served_iff`).

A preference that is forgotten is enough to lose an `MX` record (`mx_lost`).
-/

set_option autoImplicit false

namespace Setup

open CLib

variable {b : Build} {w : World} {r : Request} {f : Files} {p : Proc} {args : List Arg} {v : Visit}
  {res : Result} {k : Bytes}

/-! ## The line of a record -/

abbrev tab : UInt8 := 9

/-- A record, as it is posted. -/
structure DnsRecord where
  id : ℕ
  domain : Bytes
  typ : Bytes
  resource : Bytes
  deriving DecidableEq

namespace DnsRecord

/-- The words of the type and of the resource.  White space only separates them. -/
def words (d : DnsRecord) : List Bytes := splitBlanks none d.typ ++ splitBlanks none d.resource

/-- The line that belongs into the file of the zone. -/
def line (d : DnsRecord) : Bytes := joinWith tab (d.domain :: cstr "IN" :: d.words) ++ [nl]

/-- A type that goes with one word and one word, or an `MX` record with a preference and a host. -/
def Printable (d : DnsRecord) : Prop :=
  (∃ t x, d.words = [t, x] ∧ t ∈ plainTypes) ∨ ∃ n x, d.words = [cstr "MX", n, x]

/-- What is filed for the record. -/
def text (d : DnsRecord) : Bytes := listJoin [d.domain, d.typ, d.resource]

/-- **The owner name is the first piece of what is filed**, and the words follow. -/
theorem listSplit_text {d : DnsRecord} (hd : ∀ c ∈ d.domain, isspace c = false) :
    listSplit 0 (some d.text) = d.domain :: d.words := by
  have hjoin : d.text = d.domain ++ blank :: (d.typ ++ blank :: d.resource) := by
    simp [text, listJoin, joinWith]
  have hfirst : splitBlanks (some []) d.domain = [d.domain] := by
    have h := splitBlanks_append hd [] []
    rwa [List.append_nil, List.nil_append] at h
  have hne : ∃ c s, d.text = c :: s :=
    List.exists_cons_of_ne_nil (hjoin ▸ List.append_ne_nil_of_right_ne_nil _ (List.cons_ne_nil _ _))
  obtain ⟨c, s, hs⟩ := hne
  rw [hs, listSplit, if_pos rfl, ← hs, hjoin, splitBlanks_append_blank, splitBlanks_append_blank,
    hfirst, words, List.singleton_append]
  intro h
  cases h

/-- A line is never empty. -/
theorem line_ne_nil (d : DnsRecord) : d.line ≠ [] :=
  List.append_ne_nil_of_right_ne_nil _ (List.cons_ne_nil _ _)

/-- **The line is printed if the record can be printed, and nothing otherwise.** -/
theorem zonedbLine_pieces (d : DnsRecord) :
    (d.Printable → zonedbLine (d.domain :: d.words) = d.line) ∧
      (¬ d.Printable → zonedbLine (d.domain :: d.words) = []) := by
  rw [Printable, line]
  generalize d.words = ws
  have hin : cstr "\tIN\t" = tab :: (cstr "IN" ++ [tab]) := by decide
  have htab : cstr "\t" = [tab] := by decide
  refine ⟨?_, fun h ↦ ?_⟩
  · rintro (⟨t, x, rfl, ht⟩ | ⟨n, x, rfl⟩)
    · rw [zonedbLine, if_pos ht, hin, htab]
      simp [joinWith]
    · rw [zonedbLine, if_pos rfl, hin, htab]
      simp [joinWith]
  · rw [not_or] at h
    rcases ws with - | ⟨t, - | ⟨n, - | ⟨x, - | ⟨y, ws⟩⟩⟩⟩
    · rfl
    · rfl
    · rw [zonedbLine, if_neg fun ht ↦ h.1 ⟨t, n, rfl, ht⟩]
    · rw [zonedbLine, if_neg]
      rintro rfl
      exact h.2 ⟨n, x, rfl⟩
    · rfl

/-- What is printed for some records is not longer than their lines. -/
theorem length_zonedbLine_le (ds : List DnsRecord) :
    (ds.flatMap fun d ↦ zonedbLine (d.domain :: d.words)).length ≤ (ds.flatMap line).length := by
  induction ds with
  | nil => exact le_rfl
  | cons d ds ih =>
    have hd : (zonedbLine (d.domain :: d.words)).length ≤ d.line.length := by
      by_cases hp : d.Printable
      · rw [d.zonedbLine_pieces.1 hp]
      · rw [d.zonedbLine_pieces.2 hp]
        exact Nat.zero_le _
    rw [List.flatMap_cons, List.flatMap_cons, List.length_append, List.length_append]
    exact Nat.add_le_add hd ih

/-- **All lines are printed exactly if every record can be printed**: a line that is missing makes
the whole shorter. -/
theorem flatMap_zonedbLine_iff (ds : List DnsRecord) :
    (ds.flatMap fun d ↦ zonedbLine (d.domain :: d.words)) = ds.flatMap line ↔
      ∀ d ∈ ds, d.Printable := by
  induction ds with
  | nil => simp
  | cons d ds ih =>
    rw [List.forall_mem_cons, List.flatMap_cons, List.flatMap_cons]
    by_cases hp : d.Printable
    · rw [d.zonedbLine_pieces.1 hp, List.append_cancel_left_eq, ih]
      exact (and_iff_right hp).symm
    · rw [d.zonedbLine_pieces.2 hp, List.nil_append]
      refine iff_of_false (fun he ↦ ?_) fun h ↦ hp h.1
      have hlen := length_zonedbLine_le ds
      have hpos := List.length_pos_of_ne_nil d.line_ne_nil
      rw [he, List.length_append] at hlen
      omega

end DnsRecord

/-! ## The records of a zone -/

/-- The list of the records of a zone, and the records. -/
def ZoneRecordKey (no : Bytes) (k : Bytes) : Prop :=
  persistKey k = true ∧ (zonedbKey no).isPrefixOf k = true

instance decidableZoneRecordKey (no : Bytes) : DecidablePred (ZoneRecordKey no) :=
  fun _ ↦ inferInstanceAs (Decidable (_ ∧ _))

/-- The clock answers nothing of a zone. -/
theorem not_clock_zonedbKey (no s : Bytes) : zonedbKey no ++ s ∉ clockKeys := by
  have hclock : ∀ k ∈ clockKeys, (cstr "x_named_zone_record__").isPrefixOf k = false := by decide
  intro hmem
  have hpre := hclock _ hmem
  rw [zonedbKey, List.append_assoc, List.append_assoc,
    List.isPrefixOf_iff_prefix.mpr (List.prefix_append _ _)] at hpre
  cases hpre

theorem kept_zoneRecordKey (no : Bytes) : Kept (ZoneRecordKey no) where
  persist _ hk := hk.1
  clock k hk hmem := by
    obtain ⟨s, rfl⟩ := List.isPrefixOf_iff_prefix.mp hk.2
    exact not_clock_zonedbKey no s hmem

/-- The keys of a zone and of its records are saved. -/
theorem zoneRecordKey_append (z : ℤ) {s : Bytes} (hs : ∀ c ∈ s, isdigit c = true) :
    ZoneRecordKey (decInt z) (zonedbKey (decInt z) ++ s) := by
  have hassoc : zonedbKey (decInt z) ++ s
      = cstr "x_named_zone_record__" ++ (decInt z ++ (cstr "__" ++ s)) := by
    rw [zonedbKey, List.append_assoc, List.append_assoc]
  refine ⟨?_, List.isPrefixOf_iff_prefix.mpr (List.prefix_append _ _)⟩
  rw [hassoc]
  refine persistKey_append (by decide) ?_ (by decide)
  have hT : (84 : UInt8) ∉ decInt z := fun h ↦ absurd (decInt_chars z _ h) (by decide)
  have hs' : (84 : UInt8) ∉ s := not_mem_of_class hs (by decide)
  have hunder : (84 : UInt8) ∉ cstr "__" := by decide
  simp only [List.mem_append, hT, hs', hunder, or_self, not_false_eq_true]

theorem zoneRecordKey_zonedbKey (z : ℤ) : ZoneRecordKey (decInt z) (zonedbKey (decInt z)) := by
  have h := zoneRecordKey_append z (s := []) (List.forall_mem_nil _)
  rwa [List.append_nil] at h

/-- What `rc2named_zonedb` prints, in the settings. -/
def zonedb (no : Bytes) (m : Bytes → Option Bytes) : Bytes :=
  (listSplit 0 (some ((m (zonedbKey no)).getD []))).flatMap fun item ↦
    zonedbLine (listSplit 0 (some ((m (zonedbKey no ++ item)).getD [])))

theorem rc2namedZonedb_eq (no : Bytes) (p : Proc) :
    rc2namedZonedb w no p = zonedb no fun k ↦ stored k p := by
  have hget : ∀ s, getval3 w (zonedbKey no ++ s) p = (stored (zonedbKey no ++ s) p).getD [] :=
    fun s ↦ getval3_eq (not_clock_zonedbKey no s) p
  have hlist := hget []
  rw [List.append_nil] at hlist
  rw [rc2namedZonedb, zonedb, hlist]
  exact congrArg (List.flatMap · _) (funext fun item ↦ by rw [hget])

/-- The settings list these numbers as the records of a zone. -/
def RecordList (no : Bytes) (ids : List ℕ) (m : Bytes → Option Bytes) : Prop :=
  (m (zonedbKey no)).getD [] = listJoin (ids.map dec)

instance decidableRecordList (no : Bytes) (ids : List ℕ) (m : Bytes → Option Bytes) :
    Decidable (RecordList no ids m) :=
  inferInstanceAs (Decidable (_ = _))

theorem listSplit_ids (ids : List ℕ) :
    listSplit 0 (some (listJoin (ids.map dec))) = ids.map dec :=
  listSplit_listJoin fun s hs ↦ by
    obtain ⟨n, -, rfl⟩ := List.mem_map.mp hs
    exact isWord_dec n

/-- What is printed for a list of numbers. -/
theorem RecordList.zonedb {no : Bytes} {ids : List ℕ} {m : Bytes → Option Bytes}
    (h : RecordList no ids m) : Setup.zonedb no m = ids.flatMap fun n ↦
      zonedbLine (listSplit 0 (some ((m (zonedbKey no ++ dec n)).getD []))) := by
  rw [Setup.zonedb, h, listSplit_ids, List.flatMap_map]

/-! ## Requests that add a record -/

/-- The store holds the posted fields of a record. -/
structure DnsRecord.Posted (d : DnsRecord) (w : World) (p : Proc) : Prop where
  id : getval w (cstr "x_named_zone_record_id") p = some (dec d.id)
  domain : getval w (cstr "x_named_zone_record_domain___T") p = some d.domain
  typ : getval w (cstr "x_named_zone_record_typ___T") p = some d.typ
  resource : getval w (cstr "x_named_zone_record_resource___T") p = some d.resource

instance DnsRecord.decidablePosted (d : DnsRecord) (w : World) (p : Proc) :
    Decidable (d.Posted w p) :=
  decidable_of_iff (getval w (cstr "x_named_zone_record_id") p = some (dec d.id) ∧
      getval w (cstr "x_named_zone_record_domain___T") p = some d.domain ∧
      getval w (cstr "x_named_zone_record_typ___T") p = some d.typ ∧
      getval w (cstr "x_named_zone_record_resource___T") p = some d.resource)
    ⟨fun h ↦ ⟨h.1, h.2.1, h.2.2.1, h.2.2.2⟩, fun h ↦ ⟨h.1, h.2, h.3, h.4⟩⟩

/-- An accepted request that adds the record `d` to the zone `z`. -/
inductive RecordStep (b : Build) (z : ℤ) (d : DnsRecord) (f : Files) : Files → Prop
  | mk {w : World} {r : Request} {p : Proc} {args : List Arg} {v : Visit} {res : Result}
      {o : Outcome} (hmain : main b w r f = some o) (hv : Visits w r f p args v)
      (hcall : callHook b w (delFlag args) v = some (some res)) (hw : res.wrote = true)
      (ht : v.target b w = some .record) (hzone : atoi v.arg2 = z) (hd : d.Posted w v.proc)
      (hdomain : Accepts w v.proc (cstr "x_named_zone_record_domain___T"))
      (hrange : d.id ≤ 2147483647)
      (hpost : ∀ k, ZoneRecordKey (decInt z) k → ¬ Setup.Posted w p args k)
      (hsaves : Saves b (ZoneRecordKey (decInt z)) w v) : RecordStep b z d f o.files

/-- Any number of such requests, one after the other. -/
inductive Records (b : Build) (z : ℤ) (f : Files) : List DnsRecord → Files → Prop
  | nil : Records b z f [] f
  | snoc {ds : List DnsRecord} {d : DnsRecord} {f1 f2 : Files} (h : Records b z f ds f1)
      (hstep : RecordStep b z d f1 f2) : Records b z f (ds ++ [d]) f2

theorem isspace_of_isHostname {s : Bytes} (h : isHostname s = true) :
    ∀ c ∈ s, isspace c = false := by
  intro c hc
  have hclass := List.all_eq_true.mp h c hc
  simp only [Bool.or_eq_true, beq_iff_eq] at hclass
  rcases hclass with (hclass | rfl) | rfl
  · rw [isalnum, Bool.or_eq_true] at hclass
    rcases hclass with hclass | hclass
    · exact isspace_of_isalpha hclass
    · exact isspace_of_isdigit hclass
  · decide
  · decide

/-- The owner name that `err_chk` accepts has no white space. -/
theorem isspace_of_accepts {d : DnsRecord} (hd : d.Posted w p)
    (h : Accepts w p (cstr "x_named_zone_record_domain___T")) :
    ∀ c ∈ d.domain, isspace c = false := by
  have hrow : (vtabRow (cstr "x_named_zone_record_domain___T")).map VTab.chk
      = some (some .hostname) := by
    decide +kernel
  obtain ⟨row, hrow, hchk⟩ := Option.map_eq_some_iff.mp hrow
  rw [accepts_iff hrow, getval3, hd.domain, Option.getD_some] at h
  split at h
  · rename_i he
    rw [he]
    exact List.forall_mem_nil _
  · have hrun := h .hostname hchk
    refine isspace_of_isHostname ?_
    by_contra hno
    rw [Check.run, if_neg hno] at hrun
    cases hrun

section Store

variable {d : DnsRecord} {z : ℤ} {ids : List ℕ}

/-- What an addition of a record leaves under the keys of its zone. -/
theorem stored_add_record {ctx : Ctx} {arg : Bytes} (hzone : atoi ctx.arg2 = z)
    (hd : d.Posted ctx.world p) (hrange : d.id ≤ 2147483647) (hnew : d.id ∉ ids)
    (hlist : RecordList (decInt z) ids fun k ↦ stored k p)
    (hadd : Target.record.add ctx arg p = some res) (hk : ZoneRecordKey (decInt z) k) :
    stored k res.proc
      = if k = zonedbKey (decInt z) then some (listJoin ((ids ++ [d.id]).map dec))
        else if k = zonedbKey (decInt z) ++ dec d.id then some d.text
        else stored k p := by
  have hkey : recordListKey ctx = zonedbKey (decInt z) := by rw [recordListKey, hzone, zonedbKey]
  have hitems : items ctx.world (recordListKey ctx) p = ids.map dec := by
    rw [items, show getval3 ctx.world (recordListKey ctx) p = _ from
      Target.getval3_listKey .record ctx p, Target.listKey, hkey,
      show (stored _ p).getD [] = _ from hlist, listSplit_ids]
  have hitem : Target.record.newItem ctx p = dec d.id := by
    rw [Target.newItem, hd.id, Option.getD_some]
  have hputs : Target.record.puts ctx p
      = [⟨zonedbKey (decInt z), listJoin ((ids ++ [d.id]).map dec), RC_bWRITE⟩,
        ⟨zonedbKey (decInt z) ++ dec d.id, d.text, RC_bWRITE⟩] := by
    have hmem : Target.record.newItem ctx p ∉ items ctx.world (Target.record.listKey ctx) p := by
      rw [hitem, Target.listKey, hitems]
      rintro hmem
      obtain ⟨n, hn, he⟩ := List.mem_map.mp hmem
      exact hnew (dec_injective he ▸ hn)
    rw [Target.puts, if_neg hmem, Target.newList, Target.recordPuts, Target.zoneRecordPuts,
      Target.newNumber, hitem, Target.listKey, hitems, hd.domain, hd.typ, hd.resource,
      atoi_dec hrange, recKey, decInt_natCast, hkey, List.map_append, List.map_singleton]
    rfl
  have hid : k ≠ cstr "x_named_zone_record_id" := by
    rintro rfl
    have hpre : cstr "x_named_zone_record__" <+: cstr "x_named_zone_record_id" := by
      refine List.IsPrefix.trans ?_ (List.isPrefixOf_iff_prefix.mp hk.2)
      rw [zonedbKey, List.append_assoc]
      exact List.prefix_append _ _
    rw [← List.isPrefixOf_iff_prefix] at hpre
    exact absurd hpre (by decide)
  have hne : k ≠ [] := (kept_zoneRecordKey _).ne_nil hk
  rw [Target.stored_add hadd hk.1 hid, hputs, List.foldl_cons, List.foldl_cons, List.foldl_nil]
  have hrec : zonedbKey (decInt z) ++ dec d.id ≠ zonedbKey (decInt z) := by
    rw [ne_eq, List.append_right_eq_self]
    exact dec_ne_nil d.id
  have hrun : ∀ key val p, stored k (Put.run p ⟨key, val, RC_bWRITE⟩)
      = if k = key then some val else stored k p := by
    intro key val p
    split
    · rename_i he
      subst he
      exact stored_putval_self hne val _ p
    · rename_i he
      exact stored_putval_ne he val _ p
  rw [hrun, hrun]
  by_cases h1 : k = zonedbKey (decInt z)
  · rw [if_neg (h1 ▸ hrec.symm), if_pos h1, if_pos h1]
  · rw [if_neg h1, if_neg h1]

/-- **One addition appends one record** to the list and to what is printed. -/
theorem RecordStep.next {f f' : Files} {L : Layers} (hstep : RecordStep b z d f f')
    (hnew : d.id ∉ ids) (h : Tidy (ZoneRecordKey (decInt z)) f L)
    (hL : RecordList (decInt z) ids L.view) :
    ∃ L' : Layers, Tidy (ZoneRecordKey (decInt z)) f' L' ∧
      RecordList (decInt z) (ids ++ [d.id]) L'.view ∧
      zonedb (decInt z) L'.view
        = zonedb (decInt z) L.view ++ zonedbLine (d.domain :: d.words) := by
  obtain ⟨hmain, hv, hcall, hw, ht, hzone, hd, hdomain, hrange, hpost, hsaves⟩ := hstep
  rename_i w r p args v res o
  have hK := kept_zoneRecordKey (decInt z)
  have hlistKey := zoneRecordKey_zonedbKey z
  have hrecKey : ∀ n, ZoneRecordKey (decInt z) (zonedbKey (decInt z) ++ dec n) :=
    fun n ↦ zoneRecordKey_append z (dec_isdigit n)
  -- the store the function works on is the one in the files
  have hstore : ∀ k, ZoneRecordKey (decInt z) k → stored k v.proc = L.view k := fun k hk ↦ by
    rw [stored_visit_of_not_posted hv hk.1 (hpost k hk)]
    exact h.stored (conf_of_readRequest hv.request) hk (hK.ne_nil hk)
  have hlist : RecordList (decInt z) ids fun k ↦ stored k v.proc := by
    rw [RecordList, hstore _ hlistKey]
    exact hL
  obtain ⟨arg, hadd⟩ := add_of_target ht hcall hw
  have hafter : ∀ k, ZoneRecordKey (decInt z) k → _ := fun k hk ↦
    stored_add_record hzone hd hrange hnew hlist hadd hk
  obtain ⟨htidy, hview⟩ := h.write hK hv hcall (hsaves.callHook hv hcall)
  have hlist' : RecordList (decInt z) (ids ++ [d.id])
      (L.write (persistedVals res.proc.env)).view := by
    rw [RecordList, hview _ hlistKey, hafter _ hlistKey, if_pos rfl, Option.getD_some]
  refine ⟨_, ?_, hlist', ?_⟩
  · have hstatus : res.status ≠ .okSave := by
      rw [show Target.record.add = okNamedMaster from rfl, okNamedMaster_eq] at hadd
      obtain ⟨-, -, rfl⟩ := Option.map_eq_some_iff.mp hadd
      nofun
    rw [main_of_visits hv hcall] at hmain
    rw [← Option.some.inj hmain, files_finish hstatus, Result.files, if_pos hw]
    exact htidy
  · have hne : ∀ n, zonedbKey (decInt z) ++ dec n ≠ zonedbKey (decInt z) := fun n he ↦
      dec_ne_nil n (List.append_right_eq_self.mp he)
    rw [hlist'.zonedb, hL.zonedb, List.flatMap_append, List.flatMap_singleton,
      hview _ (hrecKey d.id), hafter _ (hrecKey d.id), if_neg (hne _), if_pos rfl, Option.getD_some,
      DnsRecord.listSplit_text (isspace_of_accepts hd hdomain)]
    -- the records before are as they were
    refine congrArg (· ++ _) (List.flatMap_congr fun n hn ↦ ?_)
    have hold : zonedbKey (decInt z) ++ dec n ≠ zonedbKey (decInt z) ++ dec d.id := fun he ↦
      hnew (dec_injective (List.append_cancel_left he) ▸ hn)
    rw [hview _ (hrecKey n), hafter _ (hrecKey n), if_neg (hne _), if_neg hold,
      hstore _ (hrecKey n)]

/-- **A run of additions appends the records in their order.** -/
theorem Records.zonedb {ds : List DnsRecord} {f f' : Files} {L : Layers}
    (hrun : Records b z f ds f') (hnodup : (ids ++ ds.map DnsRecord.id).Nodup)
    (h : Tidy (ZoneRecordKey (decInt z)) f L) (hL : RecordList (decInt z) ids L.view) :
    ∃ L' : Layers, Tidy (ZoneRecordKey (decInt z)) f' L' ∧
      RecordList (decInt z) (ids ++ ds.map DnsRecord.id) L'.view ∧
      Setup.zonedb (decInt z) L'.view = Setup.zonedb (decInt z) L.view
        ++ ds.flatMap fun d ↦ zonedbLine (d.domain :: d.words) := by
  induction hrun with
  | nil => exact ⟨L, h, by simpa using hL, by simp⟩
  | @snoc ds d f1 f2 _ hstep ih =>
    rw [List.map_append, List.map_singleton, ← List.append_assoc] at hnodup ⊢
    obtain ⟨L1, h1, hL1, hz1⟩ := ih hnodup.of_append_left
    have hnew : d.id ∉ ids ++ ds.map DnsRecord.id := fun hmem ↦
      List.disjoint_of_nodup_append hnodup hmem List.mem_cons_self
    obtain ⟨L2, h2, hL2, hz2⟩ := hstep.next hnew h1 hL1
    refine ⟨L2, h2, hL2, ?_⟩
    rw [hz2, hz1, List.flatMap_append, List.flatMap_singleton, List.append_assoc]

/-- **Every record has its line in the file of the zone, in the order of the list, exactly if every
record can be printed.** -/
theorem records_served_iff {ds : List DnsRecord} {f f' : Files} {L : Layers}
    (h : Tidy (ZoneRecordKey (decInt z)) f L) (hL : RecordList (decInt z) ids L.view)
    (hrun : Records b z f ds f') (hnodup : (ids ++ ds.map DnsRecord.id).Nodup)
    {environ : Bytes → Option Bytes} (hread : readConf w f' environ = some p) :
    items w (zonedbKey (decInt z)) p = (ids ++ ds.map DnsRecord.id).map dec ∧
      (rc2namedZonedb w (decInt z) p = zonedb (decInt z) L.view ++ ds.flatMap DnsRecord.line ↔
        ∀ d ∈ ds, d.Printable) := by
  obtain ⟨L', h', hL', hz⟩ := hrun.zonedb hnodup h hL
  have hK := kept_zoneRecordKey (decInt z)
  have hlist : RecordList (decInt z) (ids ++ ds.map DnsRecord.id) fun k ↦ stored k p := by
    rw [RecordList, h'.stored hread (zoneRecordKey_zonedbKey z)
      (hK.ne_nil (zoneRecordKey_zonedbKey z))]
    exact hL'
  have hfile : rc2namedZonedb w (decInt z) p = zonedb (decInt z) L'.view := by
    rw [rc2namedZonedb_eq, hlist.zonedb, hL'.zonedb]
    refine List.flatMap_congr fun n _ ↦ ?_
    have hk := zoneRecordKey_append z (dec_isdigit n)
    rw [h'.stored hread hk (hK.ne_nil hk)]
  refine ⟨?_, ?_⟩
  · rw [items_eq (hK.clock _ (zoneRecordKey_zonedbKey z))]
    exact (congrArg (fun s ↦ listSplit 0 (some s)) hlist).trans (listSplit_ids _)
  · rw [hfile, hz, List.append_cancel_left_eq]
    exact DnsRecord.flatMap_zonedbLine_iff ds

end Store

/-! ## An address, and a mail exchanger without a preference -/

/-- The address of a host. -/
def wwwRecord : DnsRecord := ⟨0, cstr "www", cstr "A", cstr "10.0.0.1"⟩

theorem www_served : ∃ f' p', Records ⟨false, false⟩ 0 shippedFiles [wwwRecord] f' ∧
    readConf World.box f' insideEnv = some p' ∧
    items World.box (zonedbKey (decInt 0)) p' = ([] ++ [wwwRecord].map DnsRecord.id).map dec ∧
    (rc2namedZonedb World.box (decInt 0) p'
        = zonedb (decInt 0) (Layers.view ⟨shipped, shipped, none⟩)
          ++ [wwwRecord].flatMap DnsRecord.line ↔
      ∀ d ∈ [wwwRecord], d.Printable) := by
  have hfacts : (visitOf World.box (recordForm (cstr "0") (cstr "www") (cstr "A") (cstr "10.0.0.1"))
        shippedFiles).any
      (fun (x : Proc × List Arg × Visit) ↦
        (callHook ⟨false, false⟩ World.box (delFlag x.2.1) x.2.2).join.any fun res ↦
          decide (res.wrote = true ∧ res.status ≠ .okSave ∧
            x.2.2.target ⟨false, false⟩ World.box = some .record ∧ atoi x.2.2.arg2 = 0 ∧
            wwwRecord.Posted World.box x.2.2.proc ∧
            Accepts World.box x.2.2.proc (cstr "x_named_zone_record_domain___T") ∧
            (∀ q ∈ argsPuts World.box x.1 x.2.1, ¬ ZoneRecordKey (decInt 0) q.key) ∧
            Writable (ZoneRecordKey (decInt 0)) x.2.2.proc.env ∧
            Target.record.Fits (ZoneRecordKey (decInt 0)) ⟨World.box, x.2.2.arg1, x.2.2.arg2⟩
              x.2.2.proc ∧
            (readConf World.box (res.files shippedFiles) insideEnv).isSome = true)) = true := by
    decide +kernel
  obtain ⟨p, args, v, res, -, hvis, hcall, hfacts⟩ := exists_of_visitOf hfacts
  rw [decide_eq_true_eq] at hfacts
  obtain ⟨hw, hstatus, ht, hzone, hd, hdomain, hpost, hwrite, hfits, hread⟩ := hfacts
  obtain ⟨p', hread⟩ := Option.isSome_iff_exists.mp hread
  have hstep : RecordStep ⟨false, false⟩ 0 wwwRecord shippedFiles (res.files shippedFiles) :=
    files_finish hstatus ▸ .mk (main_of_visits hvis hcall) hvis hcall hw ht hzone hd hdomain
      (by decide) (fun k hk ↦ not_posted_of_forall hpost hk)
      (saves_of_target hwrite ht hfits fun _ _ ↦ Nat.zero_lt_succ _)
  have hrun : Records ⟨false, false⟩ 0 shippedFiles [wwwRecord] (res.files shippedFiles) :=
    .snoc .nil hstep
  have hlist : RecordList (decInt 0) [] (Layers.view ⟨shipped, shipped, none⟩) := by
    decide +kernel
  exact ⟨_, p', hrun, hread,
    records_served_iff (tidy_shippedFiles _) hlist hrun (List.nodup_singleton _) hread⟩

/-- A mail exchanger, without a preference. -/
def mxRecord : DnsRecord := ⟨0, [], cstr "MX", cstr "mail.a.jp"⟩

/-- **It is accepted, and filed, and nothing is printed for it.** -/
theorem mx_lost : ∃ f p',
    Reaches ⟨false, false⟩
      (fun w r f ↦ ∃ p args v, Visits w r f p args v ∧ v.Accepted w ∧
        (v.target ⟨false, false⟩ World.box = some (.registry .zone) ∨
          v.target ⟨false, false⟩ World.box = some .record ∧ mxRecord.Posted World.box v.proc))
      shippedFiles f ∧
    readConf World.box f insideEnv = some p' ∧ items World.box zoneKey p' = [cstr "0"] ∧
    items World.box (zonedbKey (cstr "0")) p' = [dec mxRecord.id] ∧
    getval3 World.box (zonedbKey (cstr "0") ++ dec mxRecord.id) p' = cstr " MX mail.a.jp" ∧
    rc2namedZonedb World.box (cstr "0") p' = [] ∧
    rc2namedZonedb World.box (cstr "0") p' ≠ mxRecord.line := by
  have hfacts : ([zoneForm (cstr "0") (cstr "a.jp"),
      recordForm (cstr "0") [] (cstr "MX") (cstr "mail.a.jp")].foldlM
        (serve (fun v ↦ v.target ⟨false, false⟩ World.box = some (.registry .zone) ∨
            v.target ⟨false, false⟩ World.box = some .record ∧ mxRecord.Posted World.box v.proc)
          ⟨false, false⟩ World.box) shippedFiles).any (fun f ↦
      (readConf World.box f insideEnv).any fun p' ↦
        decide (items World.box zoneKey p' = [cstr "0"] ∧
          items World.box (zonedbKey (cstr "0")) p' = [dec mxRecord.id] ∧
          getval3 World.box (zonedbKey (cstr "0") ++ dec mxRecord.id) p' = cstr " MX mail.a.jp" ∧
          rc2namedZonedb World.box (cstr "0") p' = [])) = true := by
    decide +kernel
  simp only [Option.any_eq_true, decide_eq_true_eq] at hfacts
  obtain ⟨f, hf, p', hread, hzones, hrecords, htext, hdb⟩ := hfacts
  refine ⟨f, p', reaches_of_serve hf, hread, hzones, hrecords, htext, hdb, ?_⟩
  rw [hdb]
  exact mxRecord.line_ne_nil.symm

end Setup
