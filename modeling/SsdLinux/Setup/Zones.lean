import SsdLinux.Setup.Moves
import SsdLinux.Setup.Rc2conf

/-!
# What a new zone finds

The records of the zone 5 are listed under `x_named_zone_record__5__`, and nothing that is done to
the zone touches them: `del_ent` takes the zone out of the list of the zones and leaves its records
where they are.  The form for a new zone offers the number after the last one, so the number of a
zone that was deleted at the end of the list comes back, and the new zone has the records of the old
one (`oldRecords_return`).

`newZone_empty` says what it takes for a new zone to be empty: a zone is only deleted when it has no
records left, and records are only added to a zone that is there.
-/

set_option autoImplicit false

namespace Setup

open CLib

variable {b : Build} {w : World} {r : Request} {f : Files} {p : Proc} {args : List Arg} {v : Visit}
  {res : Result} {k : Bytes}

/-! ## The keys -/

/-- The list of the zones, and the lists of their records. -/
def ZoneListKey (k : Bytes) : Prop :=
  persistKey k = true ∧
    (k = zoneKey ∨ (cstr "x_named_zone_record__").isPrefixOf k = true) ∧
    k.getLast? = some underscore

instance decidableZoneListKey (k : Bytes) : Decidable (ZoneListKey k) :=
  inferInstanceAs (Decidable (_ ∧ _ ∧ _))

theorem kept_zoneListKey : Kept ZoneListKey where
  persist _ hk := hk.1
  clock k hk hmem := by
    have hclock : ∀ k ∈ clockKeys, k.getLast? ≠ some underscore := by decide
    exact hclock k hmem hk.2.2

theorem zoneListKey_zoneKey : ZoneListKey zoneKey := by decide

theorem zoneListKey_zonedbKey (n : ℕ) : ZoneListKey (zonedbKey (dec n)) := by
  have hassoc : zonedbKey (dec n) = cstr "x_named_zone_record__" ++ (dec n ++ cstr "__") :=
    List.append_assoc ..
  refine ⟨?_, .inr ?_, ?_⟩
  · rw [hassoc]
    refine persistKey_append (by decide) ?_ (by decide)
    rw [List.mem_append, not_or]
    exact ⟨not_mem_of_class (dec_isdigit n) (by decide), by decide⟩
  · rw [hassoc, List.isPrefixOf_iff_prefix]
    exact List.prefix_append _ _
  · rw [zonedbKey, List.getLast?_append_of_ne_nil _ (by decide)]
    decide

theorem zonedbKey_injective : Function.Injective zonedbKey := fun _ _ h ↦
  List.append_cancel_left (List.append_cancel_right h)

theorem zonedbKey_ne_listKey (no : Bytes) (R : Registry) : zonedbKey no ≠ R.listKey := by
  intro he
  have hpre : (cstr "x_named_zone_record__").isPrefixOf R.listKey = true := by
    rw [← he, zonedbKey, List.append_assoc, List.isPrefixOf_iff_prefix]
    exact List.prefix_append _ _
  revert hpre
  cases R <;> decide

/-! ## Zones that are not there have no records -/

/-- The zones are numbered in order, and **no number that is not in use has records**. -/
def ZonesEmpty (m : Bytes → Option Bytes) : Prop :=
  ∃ s : IdList, (m zoneKey).getD [] = s.text ∧
    ∀ n, n ∉ s.vals → (m (zonedbKey (dec n))).getD [] = []

theorem ZonesEmpty.congr {m m' : Bytes → Option Bytes} (hm : ∀ k, ZoneListKey k → m k = m' k)
    (h : ZonesEmpty m) : ZonesEmpty m' := by
  obtain ⟨s, hs, hrec⟩ := h
  refine ⟨s, ?_, fun n hn ↦ ?_⟩
  · rw [← hm _ zoneListKey_zoneKey, hs]
  · rw [← hm _ (zoneListKey_zonedbKey n), hrec n hn]

/-- The list of the zones, as the numbers it stands for. -/
theorem ZonesEmpty.holds (ctx : Ctx) (h : ZonesEmpty fun k ↦ stored k p) :
    ∃ s, Holds (.registry .zone) ctx p s ∧
      ∀ n, n ∉ s.vals → (stored (zonedbKey (dec n)) p).getD [] = [] := by
  obtain ⟨s, hs, hrec⟩ := h
  exact ⟨s, by rw [Holds, Target.getval3_listKey]; exact hs, hrec⟩

theorem ZonesEmpty.of_holds {ctx : Ctx} {s : IdList} (hs : Holds (.registry .zone) ctx p s)
    (hrec : ∀ n, n ∉ s.vals → (stored (zonedbKey (dec n)) p).getD [] = []) :
    ZonesEmpty fun k ↦ stored k p := by
  rw [Holds, Target.getval3_listKey] at hs
  exact ⟨s, hs, hrec⟩

theorem mem_items_iff {s : IdList} {n : ℕ} : dec n ∈ s.items ↔ n ∈ s.vals := by
  rw [IdList.items, List.mem_map_of_injective dec_injective]

/-! ## What happens to them -/

section Steps

variable (ctx : Ctx) {arg : Bytes}

/-- A new zone takes a number that was not in use. -/
theorem ZonesEmpty.add_zone (h : ZonesEmpty fun k ↦ stored k p)
    (hid : getval ctx.world (cstr "x_named_zone_id") p
      = some (nextval (getval3 ctx.world zoneKey p)))
    (hmax : atoi (nextval (getval3 ctx.world zoneKey p)) < 2147483647)
    (hadd : (Target.registry .zone).add ctx arg p = some res) :
    ZonesEmpty fun k ↦ stored k res.proc := by
  obtain ⟨s, hs, hrec⟩ := h.holds ctx
  refine .of_holds (hs.add hid (hs.next_lt hmax) hadd) fun n hn ↦ ?_
  have hkey := zoneListKey_zonedbKey n
  rw [Target.stored_add_of_ne hadd hkey.1 hkey.2.2 (zonedbKey_ne_listKey _ .zone)]
  exact hrec n fun hmem ↦ hn (List.mem_append_left _ hmem)

/-- Records are added to a zone that is there. -/
theorem ZonesEmpty.add_record (h : ZonesEmpty fun k ↦ stored k p)
    (hmem : decInt (atoi ctx.arg2) ∈ items ctx.world zoneKey p)
    (hadd : Target.record.add ctx arg p = some res) : ZonesEmpty fun k ↦ stored k res.proc := by
  obtain ⟨s, hs, hrec⟩ := h.holds ctx
  have hzone : stored zoneKey res.proc = stored zoneKey p :=
    Target.stored_add_of_ne hadd (by decide) (by decide) (zonedbKey_ne_listKey _ .zone).symm
  refine .of_holds (show Holds (.registry .zone) ctx _ s from ?_) fun n hn ↦ ?_
  · rwa [Holds, Target.getval3_listKey, Target.listKey, Registry.listKey, hzone,
      ← Registry.listKey, ← Target.listKey, ← Target.getval3_listKey]
  · have hne : zonedbKey (dec n) ≠ recordListKey ctx := fun he ↦ by
      rw [← zonedbKey_injective he, show items ctx.world zoneKey p = s.items from hs.items,
        mem_items_iff] at hmem
      exact hn hmem
    have hkey := zoneListKey_zonedbKey n
    rw [Target.stored_add_of_ne hadd hkey.1 hkey.2.2 hne]
    exact hrec n hn

/-- The other registries have nothing to do with zones. -/
theorem ZonesEmpty.add_other {R : Registry} (hR : R ≠ .zone) (h : ZonesEmpty fun k ↦ stored k p)
    (hadd : (Target.registry R).add ctx arg p = some res) :
    ZonesEmpty fun k ↦ stored k res.proc := by
  refine h.congr fun k hk ↦ (Target.stored_add_of_ne hadd hk.1 hk.2.2 ?_).symm
  rintro rfl
  have hlist : ZoneListKey R.listKey → R = .zone := by cases R <;> decide
  exact hR (hlist hk)

/-- A zone is deleted when it has no records left. -/
theorem ZonesEmpty.del_zone {tgt : Bytes} (h : ZonesEmpty fun k ↦ stored k p)
    (hempty : tgt ∈ items ctx.world zoneKey p → getval3 ctx.world (zonedbKey tgt) p = []) :
    ZonesEmpty fun k ↦ stored k (delEnt ctx.world zoneKey tgt p) := by
  obtain ⟨s, hs, hrec⟩ := h.holds ctx
  refine .of_holds (hs.del tgt) fun n hn ↦ ?_
  have hsame : stored (zonedbKey (dec n)) (delEnt ctx.world zoneKey tgt p)
      = stored (zonedbKey (dec n)) p := stored_putval_ne (zonedbKey_ne_listKey _ .zone) _ _ p
  rw [hsame]
  by_cases hmem : n ∈ s.vals
  · -- the zone that goes
    have htgt : dec n = tgt := by
      by_contra hne
      exact hn (List.mem_filter.mpr ⟨hmem, decide_eq_true hne⟩)
    subst htgt
    have hitem : dec n ∈ items ctx.world zoneKey p := by
      rw [show items ctx.world zoneKey p = s.items from hs.items, mem_items_iff]
      exact hmem
    have hget := hempty hitem
    rwa [getval3_eq (kept_zoneListKey.clock _ (zoneListKey_zonedbKey n))] at hget
  · exact hrec n hmem

/-- A record that is deleted leaves an empty list empty. -/
theorem ZonesEmpty.del_record (no : Bytes) {tgt : Bytes} (h : ZonesEmpty fun k ↦ stored k p) :
    ZonesEmpty fun k ↦ stored k (delEnt ctx.world (zonedbKey no) tgt p) := by
  obtain ⟨s, hs, hrec⟩ := h.holds ctx
  have hzone : stored zoneKey (delEnt ctx.world (zonedbKey no) tgt p) = stored zoneKey p :=
    stored_putval_ne (zonedbKey_ne_listKey no .zone).symm _ _ p
  refine .of_holds (show Holds (.registry .zone) ctx _ s from ?_) fun n hn ↦ ?_
  · rwa [Holds, Target.getval3_listKey, Target.listKey, Registry.listKey, hzone,
      ← Registry.listKey, ← Target.listKey, ← Target.getval3_listKey]
  by_cases hno : zonedbKey (dec n) = zonedbKey no
  · have hold : items ctx.world (zonedbKey no) p = [] := by
      rw [← hno, items_eq (kept_zoneListKey.clock _ (zoneListKey_zonedbKey n)), hrec n hn]
      rfl
    have hne : zonedbKey no ≠ [] := List.append_ne_nil_of_right_ne_nil _ (by decide)
    rw [hno, stored_delEnt hne, hold]
    rfl
  · have hsame : stored (zonedbKey (dec n)) (delEnt ctx.world (zonedbKey no) tgt p)
        = stored (zonedbKey (dec n)) p := stored_putval_ne hno _ _ p
    rw [hsame]
    exact hrec n hn

/-- The other lists have nothing to do with zones. -/
theorem ZonesEmpty.del_other {R : Registry} {tgt : Bytes} (hR : R ≠ .zone)
    (h : ZonesEmpty fun k ↦ stored k p) :
    ZonesEmpty fun k ↦ stored k (delEnt w R.listKey tgt p) := by
  refine h.congr fun k hk ↦ (stored_putval_ne ?_ _ _ p).symm
  rintro rfl
  have hlist : ZoneListKey R.listKey → R = .zone := by cases R <;> decide
  exact hR (hlist hk)

end Steps

/-! ## Histories -/

/-- A request that leaves no records behind. -/
structure ZoneSafe (b : Build) (w : World) (p : Proc) (args : List Arg) (v : Visit) : Prop where
  /-- Nothing is posted under the keys of the lists. -/
  posted : ∀ k, ZoneListKey k → ¬ Posted w p args k
  saves : Saves b ZoneListKey w v
  /-- A new zone gets the number that the form offers. -/
  zone : v.target b w = some (.registry .zone) →
    getval w (cstr "x_named_zone_id") v.proc = some (nextval (getval3 w zoneKey v.proc)) ∧
      atoi (nextval (getval3 w zoneKey v.proc)) < 2147483647
  /-- Records are only added to a zone that is there. -/
  record : v.target b w = some .record → decInt (atoi v.arg2) ∈ items w zoneKey v.proc
  /-- A zone is only deleted when it has no records left. -/
  delete : ∀ tgt, v.deletes w = some (zoneKey, tgt) → tgt ∈ items w zoneKey v.proc →
    getval3 w (zonedbKey tgt) v.proc = []

/-- **What a function of the menu does leaves no records without their zone.** -/
theorem ZonesEmpty.callHook {dFlg : Bool} (h : ZonesEmpty fun k ↦ stored k v.proc)
    (hsafe : ZoneSafe b w p args v) (hres : callHook b w dFlg v = some (some res)) :
    ZonesEmpty fun k ↦ stored k res.proc := by
  cases callHook_moves hres with
  | @add t _ ht _ hadd =>
    cases t with
    | registry R =>
      by_cases hR : R = .zone
      · subst hR
        obtain ⟨hid, hmax⟩ := hsafe.zone ht
        exact h.add_zone ⟨w, v.arg1, v.arg2⟩ hid hmax hadd
      · exact h.add_other _ hR hadd
    | record => exact h.add_record ⟨w, v.arg1, v.arg2⟩ (hsafe.record ht) hadd
  | @del key tgt hdel hproc =>
    rw [hproc]
    rcases deletes_cases hdel with ⟨R, rfl⟩ | rfl
    · by_cases hR : R = .zone
      · subst hR
        exact h.del_zone ⟨w, v.arg1, v.arg2⟩ (hsafe.delete tgt hdel)
      · exact h.del_other hR
    · exact h.del_record ⟨w, v.arg1, v.arg2⟩ v.arg2
  | same hsame _ _ =>
    refine h.congr fun k hk ↦ (hsame k hk.1 ?_).symm
    rcases hk.2.1 with rfl | hpre
    · decide
    · obtain ⟨t, rfl⟩ := List.isPrefixOf_iff_prefix.mp hpre
      exact beginsWith_append (by decide) t

/-- On a new machine there are neither zones nor records. -/
theorem zonesEmpty_shipped : ZonesEmpty fun k ↦ lookup k shipped := by
  have hkeys : ∀ kv ∈ shipped, (cstr "x_named_zone_record__").isPrefixOf kv.1 = false := by
    decide +kernel
  refine ⟨.empty, by decide +kernel, fun n _ ↦ ?_⟩
  have hnone : lookup (zonedbKey (dec n)) shipped = none := by
    rw [lookup_eq_none_iff, List.mem_map]
    rintro ⟨kv, hkv, he⟩
    have hpre := hkeys kv hkv
    rw [he, zonedbKey, List.append_assoc] at hpre
    exact absurd (List.isPrefixOf_iff_prefix.mpr (List.prefix_append _ _))
      (hpre ▸ Bool.false_ne_true)
  exact (congrArg (·.getD []) hnone).trans rfl

/-- **In the files that are reached, a number that is not in use has no records.** -/
theorem zonesEmpty_of_reaches (hreach : Reaches b (WhenAccepted (ZoneSafe b)) shippedFiles f) :
    ∃ L, Tidy ZoneListKey f L ∧ ZonesEmpty L.view :=
  tidy_of_reaches kept_zoneListKey (fun _ _ hm h ↦ h.congr hm) zonesEmpty_shipped
    (fun _ _ _ _ hsafe ↦ ⟨hsafe.posted, hsafe.saves⟩)
    (fun _ _ _ _ _ _ hsafe hres h ↦ h.callHook hsafe hres) hreach

/-- **A new zone has no records**, in what the next program reads. -/
theorem newZone_empty (hreach : Reaches b (WhenAccepted (ZoneSafe b)) shippedFiles f)
    (hsafe : WhenAccepted (ZoneSafe b) w r f) (hv : Visits w r f p args v)
    (hres : callHook b w (delFlag args) v = some (some res)) (hw : res.wrote = true)
    (ht : v.target b w = some (.registry .zone)) {w' : World} {p' : Proc}
    {environ : Bytes → Option Bytes} (hread : readConf w' (res.files f) environ = some p') :
    ∃ no, getval w (cstr "x_named_zone_id") v.proc = some no ∧ no ∉ items w zoneKey v.proc ∧
      items w' zoneKey p' = items w zoneKey v.proc ++ [no] ∧
      getval3 w' (zonedbKey no) p' = [] ∧ rc2namedZonedb w' no p' = [] := by
  have hok := hsafe p args v hv (accepted_of_wrote hres hw)
  obtain ⟨hid, hmax⟩ := hok.zone ht
  obtain ⟨L, hL, hempty⟩ := zonesEmpty_of_reaches hreach
  -- the store in which the zone is added
  have hview : ZonesEmpty fun k ↦ stored k v.proc := by
    refine hempty.congr fun k hk ↦ ?_
    rw [stored_visit_of_not_posted hv hk.1 (hok.posted k hk),
      hL.stored (conf_of_readRequest hv.request) hk (kept_zoneListKey.ne_nil hk)]
  obtain ⟨s, hs, hrec⟩ := hview.holds ⟨w, v.arg1, v.arg2⟩
  obtain ⟨arg, hadd⟩ := add_of_target ht hres hw
  have hnext : nextval (getval3 w zoneKey v.proc) = dec s.next := hs.nextval
  rw [hnext] at hid
  have hnot : s.next ∉ s.vals := fun hmem ↦ (s.lt_next _ hmem).false
  -- what the next program reads
  have hsaved : ∀ k, ZoneListKey k → getval3 w' k p' = (stored k res.proc).getD [] := fun k hk ↦ by
    rw [getval3_eq (kept_zoneListKey.clock k hk),
      stored_saved kept_zoneListKey hL hok.saves hv hres hw hread hk]
  have hkey := zoneListKey_zonedbKey s.next
  have hrecords : getval3 w' (zonedbKey (dec s.next)) p' = [] := by
    rw [hsaved _ hkey, Target.stored_add_of_ne hadd hkey.1 hkey.2.2 (zonedbKey_ne_listKey _ .zone),
      hrec _ hnot]
  have hlist := hs.add (hnext ▸ hid) (hs.next_lt hmax) hadd
  refine ⟨dec s.next, hid, ?_, ?_, hrecords, ?_⟩
  · rw [show items w zoneKey v.proc = s.items from hs.items]
    exact s.next_not_mem
  · have hsame : items w' zoneKey p' = items w zoneKey res.proc := by
      rw [items, hsaved _ zoneListKey_zoneKey, items_eq (by decide)]
    rw [hsame, show items w zoneKey res.proc = _ from hlist.items,
      show items w zoneKey v.proc = s.items from hs.items]
    exact List.map_append
  · rw [rc2namedZonedb, hrecords]
    rfl

/-! ## The first zone, and a zone that was there before -/

/-- The form for a zone, filled in. -/
def zoneForm (no name : Bytes) : Request :=
  boxRequest (loginArgs ++ cstr "op=named&s_ok2=1&typ=named&i_named_zone_id=" ++ no
    ++ cstr "&i_named_zone_typ___T=master&i_named_zone_name___T=" ++ name)

/-- The form for a record of the zone 0, filled in. -/
def recordForm (no domain typ resource : Bytes) : Request :=
  boxRequest (loginArgs ++ cstr "op=named&a=master&a2=0&s_ok=1&typ=named_master"
    ++ cstr "&i_named_zone_record_id=" ++ no ++ cstr "&i_named_zone_record_domain___T=" ++ domain
    ++ cstr "&i_named_zone_record_typ___T=" ++ typ
    ++ cstr "&i_named_zone_record_resource___T=" ++ resource)

/-- The button that deletes the zone 0. -/
def zoneButton : Request := boxRequest (loginArgs ++ cstr "op=named&typ=named&d__0=1")

/-- A new zone gets the id that is offered. -/
def Offered (w : World) (v : Visit) : Prop :=
  v.target ⟨false, false⟩ w = some (.registry .zone) →
    getval w (cstr "x_named_zone_id") v.proc = some (nextval (getval3 w zoneKey v.proc))

instance decidableOffered (w : World) : DecidablePred (Offered w) :=
  fun _ ↦ inferInstanceAs (Decidable (_ → _))

/-- The first zone of a new machine. -/
theorem newZone_first : ∃ p args v res p',
    Visits World.box (zoneForm (cstr "0") (cstr "a.jp")) shippedFiles p args v ∧
    callHook ⟨false, false⟩ World.box (delFlag args) v = some (some res) ∧ res.wrote = true ∧
    readConf World.box (res.files shippedFiles) insideEnv = some p' ∧
    ∃ no, getval World.box (cstr "x_named_zone_id") v.proc = some no ∧
      no ∉ items World.box zoneKey v.proc ∧
      items World.box zoneKey p' = items World.box zoneKey v.proc ++ [no] ∧
      getval3 World.box (zonedbKey no) p' = [] ∧ rc2namedZonedb World.box no p' = [] := by
  have hfacts : (visitOf World.box (zoneForm (cstr "0") (cstr "a.jp")) shippedFiles).any
      (fun (x : Proc × List Arg × Visit) ↦
        (callHook ⟨false, false⟩ World.box (delFlag x.2.1) x.2.2).join.any fun res ↦
          decide ((∀ q ∈ argsPuts World.box x.1 x.2.1, ¬ ZoneListKey q.key) ∧
            Writable ZoneListKey x.2.2.proc.env ∧
            x.2.2.target ⟨false, false⟩ World.box = some (.registry .zone) ∧
            (Target.registry .zone).Fits ZoneListKey ⟨World.box, x.2.2.arg1, x.2.2.arg2⟩
              x.2.2.proc ∧
            getval World.box (cstr "x_named_zone_id") x.2.2.proc
              = some (nextval (getval3 World.box zoneKey x.2.2.proc)) ∧
            atoi (nextval (getval3 World.box zoneKey x.2.2.proc)) < 2147483647 ∧
            res.wrote = true ∧
            (readConf World.box (res.files shippedFiles) insideEnv).isSome = true)) = true := by
    decide +kernel
  obtain ⟨p, args, v, res, hv, hvis, hcall, hfacts⟩ := exists_of_visitOf hfacts
  rw [decide_eq_true_eq] at hfacts
  obtain ⟨hpost, hwrite, htarget, hfits, hid, hmax, hw, hread⟩ := hfacts
  obtain ⟨p', hread⟩ := Option.isSome_iff_exists.mp hread
  have hsafe : WhenAccepted (ZoneSafe ⟨false, false⟩) World.box
      (zoneForm (cstr "0") (cstr "a.jp")) shippedFiles := by
    refine whenAccepted_of_visitOf hv ⟨fun k hk ↦ not_posted_of_forall hpost hk,
      saves_of_target hwrite htarget hfits fun _ _ ↦ Nat.zero_lt_succ _, fun _ ↦ ⟨hid, hmax⟩,
      fun h ↦ ?_, fun tgt hdel ↦ ?_⟩
    · cases htarget.symm.trans h
    · rw [deletes_eq_none_of_target htarget] at hdel
      cases hdel
  exact ⟨p, args, v, res, p', hvis, hcall, hw, hread,
    newZone_empty .refl hsafe hvis hcall hw htarget hread⟩

/-- **The zone 0 is added, gets a record, and is deleted; the zone that is added next has the record
already.** -/
theorem oldRecords_return : ∃ f f' p args v res p',
    Reaches ⟨false, false⟩
      (fun w r f ↦ ∃ p args v, Visits w r f p args v ∧ v.Accepted w ∧ Offered World.box v)
      shippedFiles f ∧
    Visits World.box (zoneForm (cstr "0") (cstr "b.jp")) f p args v ∧ Offered World.box v ∧
    v.target ⟨false, false⟩ World.box = some (.registry .zone) ∧
    callHook ⟨false, false⟩ World.box (delFlag args) v = some (some res) ∧ res.wrote = true ∧
    f' = res.files f ∧ readConf World.box f' insideEnv = some p' ∧
    items World.box zoneKey v.proc = [] ∧ items World.box zoneKey p' = [cstr "0"] ∧
    getval3 World.box (zonedbKey (cstr "0")) p' = cstr "0" ∧
    rc2namedZonedb World.box (cstr "0") p' = cstr "www\tIN\tA\t10.0.0.1\n" := by
  have hfacts : ([zoneForm (cstr "0") (cstr "a.jp"),
      recordForm (cstr "0") (cstr "www") (cstr "A") (cstr "10.0.0.1"), zoneButton].foldlM
        (serve (Offered World.box) ⟨false, false⟩ World.box) shippedFiles).any (fun f ↦
      (visitOf World.box (zoneForm (cstr "0") (cstr "b.jp")) f).any
        fun (x : Proc × List Arg × Visit) ↦
          (callHook ⟨false, false⟩ World.box (delFlag x.2.1) x.2.2).join.any fun res ↦
            (readConf World.box (res.files f) insideEnv).any fun p' ↦
              decide (Offered World.box x.2.2 ∧
                x.2.2.target ⟨false, false⟩ World.box = some (.registry .zone) ∧
                res.wrote = true ∧ items World.box zoneKey x.2.2.proc = [] ∧
                items World.box zoneKey p' = [cstr "0"] ∧
                getval3 World.box (zonedbKey (cstr "0")) p' = cstr "0" ∧
                rc2namedZonedb World.box (cstr "0") p' = cstr "www\tIN\tA\t10.0.0.1\n"))
      = true := by
    decide +kernel
  simp only [Option.any_eq_true, decide_eq_true_eq] at hfacts
  obtain ⟨f, hf, ⟨p, args, v⟩, hv, res, hres, p', hread, hoff, ht, hw, hitems, hitems', hrec,
    hdb⟩ := hfacts
  exact ⟨f, _, p, args, v, res, p', reaches_of_serve hf, visits_of_visitOf hv, hoff, ht,
    Option.join_eq_some_iff.mp hres, hw, rfl, hread, hitems, hitems', hrec, hdb⟩

end Setup
