import SsdLinux.Setup.Writes

/-!
# What a request can do to a registry

Whatever page a request is for, there are three things it can do to the lists and the records that
`ok.c` keeps.  It adds to one of the lists (`Visit.target` says to which), it takes an item out of
one, or it leaves all of them as they are.  `callHook_moves` says so once, and the invariants of the
registries are read off from it.
-/

set_option autoImplicit false

namespace Setup

open CLib

variable {b : Build} {w : World} {r : Request} {f : Files} {p : Proc} {args : List Arg} {v : Visit}
  {res : Result} {k : Bytes} {K : Bytes → Prop}

/-- What the keys of the lists and of their records begin with. -/
def registryPrefixes : List Bytes :=
  [fwKey, portfwKey, relayKey, zoneKey, cstr "x_named_zone_record__"]

/-- The list that the page of the name server adds to, if it adds to one. -/
def namedTarget (ctx : Ctx) (arg : Bytes) (p : Proc) : Option Target :=
  if arg.head? = some 50 then Adder.named2.target ctx arg p
  else if ctx.arg1.head? = some 109 then some .record
  else none

/-- The list that a page adds to, if it adds to one. -/
def Menu.target (m : Menu) (ctx : Ctx) (arg : Bytes) (p : Proc) : Option Target :=
  if m.tmpl = cstr "fw" then Adder.fw.target ctx arg p
  else if m.tmpl = cstr "sendmail" then
    if arg.head? = some 50 then some (.registry .relay) else none
  else if m.tmpl = cstr "named" then namedTarget ctx arg p
  else none

/-- The list that a request adds to, if it adds to one. -/
def Visit.target (b : Build) (w : World) (v : Visit) : Option Target :=
  (okArg v.proc.env).bind fun arg ↦ (v.menu b).bind fun m ↦
    m.target ⟨w, v.arg1, v.arg2⟩ arg v.proc

/-- The list key and the item of a request that deletes, if it does. -/
def Visit.deletes (w : World) (v : Visit) : Option (Bytes × Bytes) :=
  if okArg v.proc.env = none then
    (v.proc.env.findSome? fun e ↦ delId e.key).bind fun id ↦
      (getval w (cstr "typ") v.proc).bind fun typ ↦
        (delList v.arg2 typ).map fun key ↦ (key, decInt id)
  else none

/-! ## The pages -/

/-- The functions that are called for an accepted request, with the names of their pages. -/
theorem okHook_cases {m : Menu} (hm : m ∈ menus b) {hook : Hook} (hh : m.okHook = some hook) :
    (m.tmpl = cstr "fw" ∧ hook = okFw) ∨ (m.tmpl = cstr "sendmail" ∧ hook = okSendmail) ∨
      (m.tmpl = cstr "named" ∧ hook = okNamed) ∨
      (m.tmpl ∉ [cstr "fw", cstr "sendmail", cstr "named"] ∧ hook ∈ plainHooks) := by
  have key : ∀ (custom0 ipv6 : Bool), ∀ m ∈ menus ⟨custom0, ipv6⟩, ∀ hook ∈ m.okHook,
      (m.tmpl = cstr "fw" ∧ hook = okFw) ∨ (m.tmpl = cstr "sendmail" ∧ hook = okSendmail) ∨
        (m.tmpl = cstr "named" ∧ hook = okNamed) ∨
        (m.tmpl ∉ [cstr "fw", cstr "sendmail", cstr "named"] ∧ hook ∈ plainHooks) := by
    intro custom0 ipv6
    cases custom0 <;> cases ipv6 <;> simp +decide [menus, plainHooks]
  exact key _ _ m hm hook hh

/-- Only `del` is called for deletions. -/
theorem delHook_cases {m : Menu} (hm : m ∈ menus b) {hook : Hook} (hh : m.delHook = some hook) :
    hook = del := by
  have key : ∀ (custom0 ipv6 : Bool), ∀ m ∈ menus ⟨custom0, ipv6⟩, ∀ hook ∈ m.delHook,
      hook = del := by
    intro custom0 ipv6
    cases custom0 <;> cases ipv6 <;> simp [menus]
  exact key _ _ m hm hook hh

/-- A function that writes no key of the registries leaves them as they are. -/
theorem stored_of_tame {ps : List Bytes} {hook : Hook} (hh : hook.Tame ps)
    (hps : ∀ s ∈ ps, ∀ t ∈ registryPrefixes, ¬ s <+: t ∧ ¬ t <+: s) {ctx : Ctx} {arg : Bytes}
    {r : Result} (hr : hook ctx arg p = some r) (hk : persistKey k = true)
    (hreg : beginsWith registryPrefixes k = true) : stored k r.proc = stored k p := by
  refine stored_edits (hh ctx arg p r hr) (fun q hq he ↦ ?_) (fun k' hk' he ↦ ?_)
  · rw [not_beginsWith hps (he ▸ hq.1)] at hreg
    cases hreg
  · rw [← he, show k' = cstr "x_sendmail_relay___T" from hk'] at hk
    exact absurd hk (by decide)

theorem stored_of_plainHook {hook : Hook} (hh : hook ∈ plainHooks) {ctx : Ctx} {arg : Bytes}
    {r : Result} (hr : hook ctx arg p = some r) (hk : persistKey k = true)
    (hreg : beginsWith registryPrefixes k = true) : stored k r.proc = stored k p := by
  rcases tame_of_mem_plainHooks hh with htame | rfl | rfl
  · exact stored_of_tame htame (List.forall_mem_nil _) hr hk hreg
  · exact stored_of_tame tame_okNetwork (by decide) hr hk hreg
  · exact stored_of_tame tame_okIpv6 (by decide) hr hk hreg

/-! ## The three moves -/

/-- What a request does to the registries. -/
inductive Moves (b : Build) (w : World) (v : Visit) (res : Result) : Prop
  /-- An item is added to a list. -/
  | add {t : Target} {arg : Bytes} (ht : v.target b w = some t) (herr : errChk w v.proc = some [])
      (hadd : t.add ⟨w, v.arg1, v.arg2⟩ arg v.proc = some res)
  /-- An item is taken out of a list. -/
  | del {key tgt : Bytes} (hdel : v.deletes w = some (key, tgt))
      (hproc : res.proc = delEnt w key tgt v.proc)
  /-- Nothing happens to them. -/
  | same (hsame : ∀ k, persistKey k = true → beginsWith registryPrefixes k = true →
        stored k res.proc = stored k v.proc)
      (hedits : (∀ i j, w.hwAddr i j < 256) → ∀ K, Edits (saveFrame K) v.proc res.proc)
      (hnone : res.wrote = true → v.target b w = none)

/-- Nothing happens to the store at all. -/
theorem moves_of_eq (h : res.proc = v.proc) (hnone : res.wrote = true → v.target b w = none) :
    Moves b w v res :=
  .same (fun _ _ _ ↦ by rw [h]) (fun _ _ ↦ by rw [h]) hnone

theorem moves_del {r : Result} (hok : okArg v.proc.env = none) (hproc : res.proc = r.proc)
    (hr : del ⟨w, v.arg1, v.arg2⟩ [] v.proc = some r) : Moves b w v res := by
  obtain ⟨id, hid, hr⟩ := Option.bind_eq_some_iff.mp hr
  obtain ⟨typ, htyp, rfl⟩ := Option.map_eq_some_iff.mp hr
  dsimp only at hproc
  cases hkey : delList v.arg2 typ with
  | none =>
    rw [hkey] at hproc
    refine moves_of_eq hproc fun _ ↦ ?_
    rw [Visit.target, hok, Option.bind_none]
  | some key =>
    rw [hkey] at hproc
    refine .del ?_ hproc
    rw [Visit.deletes, if_pos hok, hid, Option.bind_some, htyp, Option.bind_some, hkey,
      Option.map_some]

/-- What the page of the name server does for an accepted request. -/
theorem okNamed_cases {ctx : Ctx} {arg : Bytes} (hr : okNamed ctx arg p = some res) :
    (∃ t, namedTarget ctx arg p = some t ∧ t.add ctx arg p = some res) ∨
      namedTarget ctx arg p = none ∧ res.proc = p := by
  rw [okNamed] at hr
  rw [namedTarget]
  split at hr
  · rename_i h2
    rw [if_pos h2]
    cases ht : Adder.named2.target ctx arg p with
    | some t => exact .inl ⟨t, rfl, (hook_eq_add ht).symm.trans hr⟩
    | none =>
      -- the two branches of `ok_named2` that only write
      obtain ⟨typ, htyp, hr⟩ := Option.bind_eq_some_iff.mp hr
      rw [Adder.target, htyp, Option.bind_some] at ht
      split_ifs at hr ht
      · cases hr
        exact .inr ⟨rfl, rfl⟩
      · cases hr
        exact .inr ⟨rfl, rfl⟩
  · rename_i h2
    rw [if_neg h2]
    split at hr
    · rename_i h1
      rw [if_pos h1]
      exact .inl ⟨.record, rfl, hr⟩
    · rename_i h1
      rw [if_neg h1]
      split at hr <;>
      · cases hr
        exact .inr ⟨rfl, rfl⟩

/-- **Whatever is called for a request makes one of the three moves.** -/
theorem callHook_moves {dFlg : Bool} (h : callHook b w dFlg v = some (some res)) :
    Moves b w v res := by
  rcases callHook_cases h with ⟨st, rfl⟩ | ⟨m, hm, ⟨arg, hook, harg, herr, hok, hr⟩ |
    ⟨hook, r, hnone, -, hdel, hr, rfl⟩⟩
  · exact moves_of_eq rfl nofun
  · have htarget : v.target b w = m.target ⟨w, v.arg1, v.arg2⟩ arg v.proc := by
      rw [Visit.target, harg, Option.bind_some, hm, Option.bind_some]
    rcases okHook_cases (mem_menus_of_menu hm) hok with
      ⟨hname, rfl⟩ | ⟨hname, rfl⟩ | ⟨hname, rfl⟩ | ⟨hname, hplain⟩
    · rw [Menu.target, if_pos hname] at htarget
      obtain ⟨t, ht⟩ : ∃ t, Adder.fw.target ⟨w, v.arg1, v.arg2⟩ arg v.proc = some t := by
        rw [Adder.target]
        split <;> exact ⟨_, rfl⟩
      exact .add (htarget.trans ht) herr ((hook_eq_add ht).symm.trans hr)
    · rw [Menu.target, hname, if_neg (by decide), if_pos rfl] at htarget
      rw [okSendmail] at hr
      split at hr <;> rename_i h2
      · rw [if_pos h2] at htarget
        exact .add htarget herr (show (Target.registry .relay).add _ arg _ = _ from hr)
      · rw [if_neg h2] at htarget
        cases hr
        exact moves_of_eq rfl fun _ ↦ htarget
    · rw [Menu.target, hname, if_neg (by decide), if_neg (by decide), if_pos rfl] at htarget
      rcases okNamed_cases hr with ⟨t, ht, hadd⟩ | ⟨hnone, hsame⟩
      · exact .add (htarget.trans ht) herr hadd
      · exact moves_of_eq hsame fun _ ↦ htarget.trans hnone
    · simp only [List.mem_cons, List.not_mem_nil, or_false, not_or] at hname
      rw [Menu.target, if_neg hname.1, if_neg hname.2.1, if_neg hname.2.2] at htarget
      exact .same (fun k hk hreg ↦ stored_of_plainHook hplain hr hk hreg)
        (fun hw _ ↦ edits_plainHook hplain hw hr) fun _ ↦ htarget
  · obtain rfl := delHook_cases (mem_menus_of_menu hm) hdel
    exact moves_del (r := r) hnone rfl hr

/-- A request that adds to a list takes nothing out of one. -/
theorem deletes_eq_none_of_target {t : Target} (ht : v.target b w = some t) :
    v.deletes w = none := by
  obtain ⟨arg, harg, -⟩ := Option.bind_eq_some_iff.mp ht
  rw [Visit.deletes, if_neg (by rw [harg]; nofun)]

/-- **A request that adds to a list and is saved has added to it.** -/
theorem add_of_target {dFlg : Bool} {t : Target} (ht : v.target b w = some t)
    (h : callHook b w dFlg v = some (some res)) (hw : res.wrote = true) :
    ∃ arg, t.add ⟨w, v.arg1, v.arg2⟩ arg v.proc = some res := by
  cases callHook_moves h with
  | add ht' _ hadd =>
    obtain rfl := Option.some.inj (ht.symm.trans ht')
    exact ⟨_, hadd⟩
  | del hdel _ =>
    rw [deletes_eq_none_of_target ht] at hdel
    cases hdel
  | same _ _ hnone =>
    rw [hnone hw] at ht
    cases ht

/-- **What an addition leaves in the settings** are its writes. -/
theorem Target.stored_add {t : Target} {ctx : Ctx} {arg : Bytes} (h : t.add ctx arg p = some res)
    (hk : persistKey k = true) (hid : k ≠ cstr "x_named_zone_record_id") :
    stored k res.proc = stored k ((t.puts ctx p).foldl Put.run p) := by
  have hne : k ≠ [] := ne_nil_of_isSetting (isSetting_of_persistKey hk)
  have hprep : stored k (t.prepare ctx p) = stored k p := by
    cases t with
    | registry R => rfl
    | record => exact stored_withRecordId hid
  have htidy : k ≠ cstr "x_sendmail_relay___T" := by
    rintro rfl
    exact absurd hk (by decide)
  have hputs : stored k ((t.puts ctx p).foldl Put.run (t.prepare ctx p))
      = stored k ((t.puts ctx p).foldl Put.run p) := by
    rw [stored_foldl hne, stored_foldl hne, hprep]
  rcases proc_add h with hproc | hproc <;> rw [hproc]
  · exact hputs
  · rw [stored, getvalp_delval_ne htidy, ← stored, hputs]

/-- A name that ends with an underscore is none of a record. -/
theorem recKey_ne_of_last (hlast : k.getLast? = some underscore) (s : Bytes) (n : ℤ) :
    recKey s n ≠ k := by
  rintro rfl
  have hmem : underscore ∈ decInt n := by
    have hne := decInt_ne_nil n
    rw [recKey, List.getLast?_append_of_ne_nil _ hne] at hlast
    exact List.mem_of_getLast? hlast
  exact absurd (decInt_chars n _ hmem) (by decide)

/-- The keys that an addition writes. -/
theorem Target.key_puts {t : Target} {ctx : Ctx} {q : Put} (hq : q ∈ t.puts ctx p) :
    q.key = t.listKey ctx ∨ ∃ s n, q.key = recKey s n := by
  have hreg : ∀ R n, q ∈ Registry.recordPuts R ctx.world p n → ∃ s n, q.key = recKey s n := by
    intro R n hq
    obtain ⟨kv, hkv, rfl⟩ := List.mem_map.mp hq
    obtain ⟨s, -, he⟩ := Registry.key_records hkv
    exact ⟨s, n, he⟩
  have hrec : ∀ n, q ∈ Target.zoneRecordPuts ctx p n → ∃ s n, q.key = recKey s n := by
    intro n hq
    have hk := List.mem_map_of_mem (f := Put.key) hq
    rcases map_key_zoneRecordPuts ctx p n with hkeys | hkeys <;> rw [hkeys] at hk
    · cases hk
    · exact ⟨_, _, List.mem_singleton.mp hk⟩
  rw [puts] at hq
  split at hq
  · cases t with
    | registry R =>
      cases R with
      | zone => exact .inr (hreg _ _ hq)
      | fw | portfw | relay => cases hq
    | record => exact .inr (hrec _ hq)
  · rcases List.mem_cons.mp hq with rfl | hq
    · exact .inl rfl
    · cases t with
      | registry R => exact .inr (hreg _ _ hq)
      | record => exact .inr (hrec _ hq)

/-- **An addition leaves the other lists alone.** -/
theorem Target.stored_add_of_ne {t : Target} {ctx : Ctx} {arg : Bytes}
    (h : t.add ctx arg p = some res) (hk : persistKey k = true)
    (hlast : k.getLast? = some underscore) (hne : k ≠ t.listKey ctx) :
    stored k res.proc = stored k p := by
  have hid : k ≠ cstr "x_named_zone_record_id" := by
    rintro rfl
    exact absurd hlast (by decide)
  rw [stored_add h hk hid, stored, getvalp_foldl_of_not_mem, ← stored]
  rintro q hq rfl
  rcases key_puts hq with hlist | ⟨s, n, hrec⟩
  · exact hne hlist
  · exact recKey_ne_of_last hlast s n hrec.symm

/-! ## What is saved -/

/-- What a request takes an item out of. -/
theorem deletes_cases {key tgt : Bytes} (h : v.deletes w = some (key, tgt)) :
    (∃ R : Registry, key = R.listKey) ∨
      key = cstr "x_named_zone_record__" ++ v.arg2 ++ cstr "__" := by
  rw [Visit.deletes] at h
  split at h
  case isFalse => cases h
  obtain ⟨id, -, h⟩ := Option.bind_eq_some_iff.mp h
  obtain ⟨typ, -, h⟩ := Option.bind_eq_some_iff.mp h
  obtain ⟨key', hkey, he⟩ := Option.map_eq_some_iff.mp h
  obtain ⟨rfl, -⟩ := Prod.mk.inj he
  rw [delList] at hkey
  split_ifs at hkey <;> cases hkey
  · exact .inl ⟨.relay, rfl⟩
  · exact .inl ⟨.portfw, rfl⟩
  · exact .inl ⟨.fw, rfl⟩
  · exact .inl ⟨.zone, rfl⟩
  · exact .inr rfl

/-- The clock answers no list. -/
theorem not_clock_of_deletes {key tgt : Bytes} (h : v.deletes w = some (key, tgt)) :
    key ∉ clockKeys := by
  have hclock : ∀ k ∈ clockKeys, beginsWith registryPrefixes k = false := by decide
  intro hmem
  have hreg := hclock _ hmem
  rcases deletes_cases h with ⟨R, rfl⟩ | rfl
  · revert hreg
    cases R <;> decide
  · rw [List.append_assoc, beginsWith_append (by decide)] at hreg
    cases hreg

/-- The program does what the request asks for: it has passed the check, or is not checked. -/
def Visit.Accepted (w : World) (v : Visit) : Prop :=
  okArg v.proc.env = none ∨ errChk w v.proc = some []

/-- A request after which the settings of interest can be written out and read back. -/
structure Saves (b : Build) (K : Bytes → Prop) (w : World) (v : Visit) : Prop where
  /-- Every argument stays on its line, and is plain where that is of interest. -/
  writable : Writable K v.proc.env
  /-- What is added to a list fits. -/
  fits : ∀ t, v.target b w = some t → t.Fits K ⟨w, v.arg1, v.arg2⟩ v.proc
  /-- What an item is taken out of is a list that can be saved. -/
  deletes : ∀ key tgt, v.deletes w = some (key, tgt) → ConfKey key ∧ persistKey key = true
  /-- The bytes of the hardware addresses are bytes. -/
  hwAddr : ∀ i j, w.hwAddr i j < 256

theorem accepted_of_wrote {dFlg : Bool} (h : callHook b w dFlg v = some (some res))
    (hw : res.wrote = true) : v.Accepted w := by
  rcases callHook_cases h with ⟨st, rfl⟩ | ⟨m, hm, ⟨arg, hook, -, herr, -⟩ | ⟨hook, r, hok, -⟩⟩
  · cases hw
  · exact .inr herr
  · exact .inl hok

/-- **A writable store stays writable**, whatever is called. -/
theorem Saves.callHook {dFlg : Bool} (hs : Saves b K w v) (hv : Visits w r f p args v)
    (h : callHook b w dFlg v = some (some res)) : Writable K res.proc.env := by
  have hedits : Edits (saveFrame K) v.proc res.proc := by
    cases callHook_moves h with
    | add ht _ hrun => exact Target.edits_add (hs.fits _ ht) hrun
    | @del key tgt hkey hproc =>
      rw [hproc]
      obtain ⟨hconf, hpers⟩ := hs.deletes key tgt hkey
      refine edits_putval (F := saveFrame K) (saveOk_delEnt tgt hconf ?_ fun u hu ↦ ?_) _
      · exact not_clock_of_deletes hkey
      · obtain ⟨e, he, rfl⟩ := Option.map_eq_some_iff.mp hu
        have hkey : e.key = key := Keyed.key_of_find Entry.key he
        have hmem : e ∈ persisted v.proc.env := List.mem_filter.mpr
          ⟨Keyed.mem_of_find _ he, persistable_of_flag hpers (flag_of_visits hpers hv) e he⟩
        exact hkey ▸ writable_iff.mp hs.writable e hmem
    | same _ hedits _ => exact hedits hs.hwAddr K
  exact hs.writable.edits hedits fun _ hq ↦ hq

/-- A request that adds to a list. -/
theorem saves_of_target {t : Target} (hwrite : Writable K v.proc.env) (ht : v.target b w = some t)
    (hfits : t.Fits K ⟨w, v.arg1, v.arg2⟩ v.proc) (hw : ∀ i j, w.hwAddr i j < 256) :
    Saves b K w v := by
  refine ⟨hwrite, fun t' ht' ↦ ?_, fun key tgt hdel ↦ ?_, hw⟩
  · obtain rfl := Option.some.inj (ht.symm.trans ht')
    exact hfits
  · rw [deletes_eq_none_of_target ht] at hdel
    cases hdel

/-! ## Histories of such requests -/

/-- The request meets a condition if it is accepted. -/
def WhenAccepted (C : World → Proc → List Arg → Visit → Prop) (w : World) (r : Request)
    (f : Files) : Prop :=
  ∀ p args v, Visits w r f p args v → v.Accepted w → C w p args v

/-- A request has one way to `page_setup`, so that it is enough to look at that one. -/
theorem whenAccepted_of_visitOf {C : World → Proc → List Arg → Visit → Prop}
    (hv : visitOf w r f = some (p, args, v)) (h : C w p args v) : WhenAccepted C w r f := by
  intro p' args' v' hvis _
  cases (visitOf_of_visits hvis).symm.trans hv
  exact h

/-- **An invariant of the settings, from the shipped files on**: it holds of the shipped settings,
the requests post nothing that it is about and can be saved, and the functions of the menu keep
it. -/
theorem tidy_of_reaches {C : World → Proc → List Arg → Visit → Prop}
    {Q : (Bytes → Option Bytes) → Prop} (hK : Kept K)
    (hQ : ∀ m m', (∀ k, K k → m k = m' k) → Q m → Q m') (hshipped : Q fun k ↦ lookup k shipped)
    (hC : ∀ w p args v, C w p args v → (∀ k, K k → ¬ Posted w p args k) ∧ Saves b K w v)
    (hstep : ∀ w p args v dFlg res, C w p args v → callHook b w dFlg v = some (some res) →
      (Q fun k ↦ stored k v.proc) → Q fun k ↦ stored k res.proc)
    (hreach : Reaches b (WhenAccepted C) shippedFiles f) : ∃ L, Tidy K f L ∧ Q L.view := by
  have hstart : Q (Layers.view ⟨shipped, shipped, none⟩) := by
    refine hQ _ _ (fun k _ ↦ ?_) hshipped
    rw [Layers.view, Layers.base, Option.or_self]
    rfl
  exact settings_of_reaches hK hQ (tidy_shippedFiles K) hshipped hstart
    (fun w r f p args v res hreq hv hres hw h ↦ by
      have hok := hreq p args v hv (accepted_of_wrote hres hw)
      obtain ⟨hpost, hsaves⟩ := hC w p args v hok
      refine ⟨hsaves.callHook hv hres, hstep w p args v _ res hok hres (hQ _ _ (fun k hk ↦ ?_) h)⟩
      exact (stored_visit_of_not_posted hv (hK.persist k hk) (hpost k hk)).symm)
    hreach

/-- Such an invariant holds of what the next program reads. -/
theorem invariant_of_reaches {C : World → Proc → List Arg → Visit → Prop}
    {Q : (Bytes → Option Bytes) → Prop} (hK : Kept K)
    (hQ : ∀ m m', (∀ k, K k → m k = m' k) → Q m → Q m') (hshipped : Q fun k ↦ lookup k shipped)
    (hC : ∀ w p args v, C w p args v → (∀ k, K k → ¬ Posted w p args k) ∧ Saves b K w v)
    (hstep : ∀ w p args v dFlg res, C w p args v → callHook b w dFlg v = some (some res) →
      (Q fun k ↦ stored k v.proc) → Q fun k ↦ stored k res.proc)
    (hreach : Reaches b (WhenAccepted C) shippedFiles f) {environ : Bytes → Option Bytes}
    (hread : readConf w f environ = some p) : Q fun k ↦ stored k p := by
  obtain ⟨L, hL, hview⟩ := tidy_of_reaches hK hQ hshipped hC hstep hreach
  exact hQ _ _ (fun k hk ↦ (hL.stored hread hk (hK.ne_nil hk)).symm) hview

/-- **What a request has saved is what the next program reads.** -/
theorem stored_saved {dFlg : Bool} {w' : World} {p' : Proc} {environ : Bytes → Option Bytes}
    (hK : Kept K) {L : Layers} (hL : Tidy K f L) (hs : Saves b K w v)
    (hv : Visits w r f p args v) (hres : callHook b w dFlg v = some (some res))
    (hw : res.wrote = true) (hread : readConf w' (res.files f) environ = some p') (hk : K k) :
    stored k p' = stored k res.proc := by
  obtain ⟨htidy, hview⟩ := hL.write hK hv hres (hs.callHook hv hres)
  rw [Result.files, if_pos hw] at hread
  rw [htidy.stored hread hk (hK.ne_nil hk), hview k hk]

/-! ## Requests one after the other -/

instance decidableAccepted (w : World) (v : Visit) : Decidable (v.Accepted w) :=
  inferInstanceAs (Decidable (_ ∨ _))

/-- A request that does what it asks for, and that is not to save, if it meets a condition. -/
def serve (C : Visit → Prop) [DecidablePred C] (b : Build) (w : World) (f : Files) (r : Request) :
    Option Files :=
  (visitOf w r f).bind fun x ↦
    (callHook b w (delFlag x.2.1) x.2.2).join.bind fun res ↦
      if x.2.2.Accepted w ∧ C x.2.2 ∧ res.status ≠ .okSave then some (res.files f) else none

/-- The requests of a list lead from the first files to the last. -/
theorem reaches_of_serve {C : Visit → Prop} [DecidablePred C] {rs : List Request} {f' : Files}
    (h : rs.foldlM (serve C b w) f = some f') :
    Reaches b (fun w r f ↦ ∃ p args v, Visits w r f p args v ∧ v.Accepted w ∧ C v) f f' := by
  induction rs generalizing f with
  | nil =>
    cases h
    exact .refl
  | cons r rs ih =>
    rw [List.foldlM_cons] at h
    obtain ⟨f1, h1, h⟩ := Option.bind_eq_some_iff.mp h
    obtain ⟨⟨p, args, v⟩, hvis, h1⟩ := Option.bind_eq_some_iff.mp h1
    obtain ⟨res, hres, h1⟩ := Option.bind_eq_some_iff.mp h1
    dsimp only at hres h1
    split_ifs at h1 with hok
    cases h1
    have hv := visits_of_visitOf hvis
    exact (ih h).head ⟨w, r, _, main_of_visits hv (Option.join_eq_some_iff.mp hres),
      ⟨p, args, v, hv, hok.1, hok.2.1⟩, files_finish hok.2.2⟩

end Setup
