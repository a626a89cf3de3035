import SsdLinux.Setup.Registry

/-!
# Adding what is there already

`ok_fw` says that nothing is done when an id is registered already, and the function for the relays
and the one for the forwarded ports do the same.  The two that go through `add` learn of it from the
number that `add` returns: it is `CONT`, which is 4, and to them that is an id like any other.  So
the record of the request is filed, under the number 4.

`readd_unchanged_iff` says for all five functions when the keys of their registry are as before:
always for the three, and for the other two exactly if the record has a field missing, or is what
the number 4 has already.
-/

set_option autoImplicit false

namespace Setup

open CLib

/-- The functions of `ok.c` that add to a list. -/
inductive Adder
  | fw | portfw | sendmail2 | named2 | namedMaster
  deriving DecidableEq, Repr

def Adder.hook : Adder → Hook
  | fw => okFw
  | portfw => okPortfw
  | sendmail2 => okSendmail2
  | named2 => okNamed2
  | namedMaster => okNamedMaster

/-- A list that is added to: that of a registry, or that of the records of a zone. -/
inductive Target
  | registry (R : Registry)
  | record
  deriving DecidableEq, Repr

/-- The list of the records of the zone `HTML_script_arg2`. -/
def recordListKey (ctx : Ctx) : Bytes :=
  cstr "x_named_zone_record__" ++ decInt (atoi ctx.arg2) ++ cstr "__"

/-- The list a request adds to, if it adds to one. -/
def Adder.target (a : Adder) (ctx : Ctx) (arg : Bytes) (p : Proc) : Option Target :=
  match a with
  | fw => if arg = [] ∨ arg.head? = some 49 then some (.registry .portfw) else some (.registry .fw)
  | portfw => some (.registry .portfw)
  | sendmail2 => some (.registry .relay)
  | named2 => (getval ctx.world (cstr "typ") p).bind fun typ ↦
      if typ = cstr "named_master_soa" then none
      else if ctx.arg1.head? = some 109 then some .record
      else if ctx.arg1.head? = some 115 then none
      else some (.registry .zone)
  | namedMaster => some .record

namespace Target

def add : Target → Hook
  | registry R => R.add
  | record => okNamedMaster

def listKey (ctx : Ctx) : Target → Bytes
  | registry R => R.listKey
  | record => recordListKey ctx

/-- The item that joins the list. -/
def newItem (ctx : Ctx) (p : Proc) : Target → Bytes
  | registry R => R.newItem ctx.world p
  | record => (getval ctx.world (cstr "x_named_zone_record_id") p).getD (cstr "0")

/-- What the keys of a registry begin with: the list key, the entries and what goes with them. -/
def prefixes : Target → List Bytes
  | registry .zone => [zoneKey, cstr "x_named_zone_soa_", cstr "x_named_zone_record__"]
  | registry R => [R.listKey]
  | record => [zoneKey, cstr "x_named_zone_soa_", cstr "x_named_zone_record__"]

/-- A record of a zone, as it is filed under the number `n`. -/
def zoneRecordPuts (ctx : Ctx) (p : Proc) (n : ℤ) : List Put :=
  match getval ctx.world (cstr "x_named_zone_record_domain___T") p,
      getval ctx.world (cstr "x_named_zone_record_typ___T") p,
      getval ctx.world (cstr "x_named_zone_record_resource___T") p with
  | some domain, some typ, some res =>
    [⟨recKey (recordListKey ctx) n, listJoin [domain, typ, res], RC_bWRITE⟩]
  | _, _, _ => []

/-- What is written although the id is there: the record, under the number that `CONT` is. -/
def refiled (ctx : Ctx) (p : Proc) : Target → List Put
  | registry .zone => Registry.zone.recordPuts ctx.world p 4
  | registry _ => []
  | record => zoneRecordPuts ctx p 4

end Target

variable {ctx : Ctx} {arg : Bytes} {p : Proc} {t : Target} {res : Result}

/-- A function that adds to a list does nothing else. -/
theorem hook_eq_add {a : Adder} (ht : a.target ctx arg p = some t) :
    a.hook ctx arg p = t.add ctx arg p := by
  cases a with
  | fw =>
    rw [Adder.target] at ht
    split at ht <;> rename_i h <;> obtain rfl := Option.some.inj ht
    · rw [Adder.hook, okFw, if_pos h]
      rfl
    · rw [Adder.hook, okFw, if_neg h]
      rfl
  | portfw | sendmail2 | namedMaster =>
    obtain rfl := Option.some.inj ht
    rfl
  | named2 =>
    obtain ⟨typ, htyp, ht⟩ := Option.bind_eq_some_iff.mp ht
    rw [Adder.hook, okNamed2, htyp, Option.bind_some]
    by_cases hsoa : typ = cstr "named_master_soa"
    · rw [if_pos hsoa] at ht
      cases ht
    rw [if_neg hsoa] at ht ⊢
    by_cases hm : ctx.arg1.head? = some 109
    · rw [if_pos hm] at ht ⊢
      obtain rfl := Option.some.inj ht
      rfl
    rw [if_neg hm] at ht ⊢
    by_cases hs : ctx.arg1.head? = some 115
    · rw [if_pos hs] at ht
      cases ht
    rw [if_neg hs] at ht ⊢
    obtain rfl := Option.some.inj ht
    rfl

/-! ## Writes that change nothing -/

/-- A write of several keys leaves each with its value. -/
theorem stored_foldl_of_mem {qs : List Put} (hnd : (qs.map Put.key).Nodup)
    (hne : ∀ q ∈ qs, q.key ≠ []) {q : Put} (hq : q ∈ qs) (p : Proc) :
    stored q.key (qs.foldl Put.run p) = some q.val := by
  induction qs generalizing p with
  | nil => cases hq
  | cons r qs ih =>
    rw [List.map_cons, List.nodup_cons] at hnd
    rcases List.mem_cons.mp hq with rfl | hq
    · have hfresh : ∀ r ∈ qs, r.key ≠ q.key := fun r hr he ↦
        hnd.1 (he ▸ List.mem_map_of_mem hr)
      rw [List.foldl_cons, stored, getvalp_foldl_of_not_mem hfresh, ← stored]
      exact stored_putval_self (hne q List.mem_cons_self) _ _ p
    · exact ih hnd.2 (fun q hq ↦ hne q (List.mem_cons_of_mem _ hq)) hq _

theorem stored_putval_of_eq {k key val : Bytes} {sw : BitVec 32} (hne : key ≠ [])
    (h : stored key p = some val) : stored k (putval key val sw p) = stored k p := by
  by_cases hk : k = key
  · rw [hk, stored_putval_self hne, h]
  · exact stored_putval_ne hk _ _ p

/-- **Writes leave the keys as they are exactly if every one of them writes what is there.** -/
theorem stored_foldl_eq_iff {P : Bytes → Prop} {qs : List Put} (hnd : (qs.map Put.key).Nodup)
    (hne : ∀ q ∈ qs, q.key ≠ []) (hP : ∀ q ∈ qs, P q.key) :
    (∀ k, P k → stored k (qs.foldl Put.run p) = stored k p) ↔
      ∀ q ∈ qs, stored q.key p = some q.val := by
  refine ⟨fun h q hq ↦ ?_, fun h k _ ↦ ?_⟩
  · rw [← h q.key (hP q hq), stored_foldl_of_mem hnd hne hq]
  · clear hnd hP
    induction qs generalizing p with
    | nil => rfl
    | cons q qs ih =>
      have hq := h q List.mem_cons_self
      have hsame : ∀ k, stored k (q.run p) = stored k p := fun k ↦
        stored_putval_of_eq (hne q List.mem_cons_self) hq
      rw [List.foldl_cons, ih (fun r hr ↦ hne r (List.mem_cons_of_mem _ hr)), hsame]
      intro r hr
      rw [hsame, h r (List.mem_cons_of_mem _ hr)]

/-! ## What is filed again -/

theorem add_of_mem {w : World} {listKey idKey id : Bytes} (hid : getval w idKey p = some id)
    (hdup : id ∈ items w listKey p) : Setup.add w listKey idKey p = some (p, 4) := by
  rw [Setup.add, hid, Option.map_some, listGrepItem, decide_eq_true hdup, if_pos rfl]

theorem addId_of_mem {w : World} (listKey idKey : Bytes) {record : ℤ → Proc → Proc}
    (hdup : decInt (getvalInt w idKey p) ∈ items w listKey p) :
    addId w listKey idKey record p = ret .cont p := by
  rw [addId, listGrepItem, decide_eq_true hdup, if_pos rfl]

/-- A request for a record that does not say which number gets the number 0. -/
def withRecordId (w : World) (p : Proc) : Proc :=
  if getval w (cstr "x_named_zone_record_id") p = none
  then putval (cstr "x_named_zone_record_id") (cstr "0") RC_bWRITE p else p

/-- `ok_named_master` as a sequence of writes. -/
theorem okNamedMaster_eq (ctx : Ctx) (arg : Bytes) (p : Proc) : okNamedMaster ctx arg p
    = (Setup.add ctx.world (recordListKey ctx) (cstr "x_named_zone_record_id")
        (withRecordId ctx.world p)).map fun r ↦
      retWrite .cont ((Target.zoneRecordPuts ctx r.1 r.2).foldl Put.run r.1) := by
  rw [okNamedMaster]
  refine congrArg₂ Option.map (funext fun x ↦ ?_) rfl
  obtain ⟨p, n⟩ := x
  dsimp only
  rw [Target.zoneRecordPuts]
  cases getval ctx.world (cstr "x_named_zone_record_domain___T") p <;>
    cases getval ctx.world (cstr "x_named_zone_record_typ___T") p <;>
    cases getval ctx.world (cstr "x_named_zone_record_resource___T") p <;> rfl

theorem getval_withRecordId (w : World) (p : Proc) :
    getval w (cstr "x_named_zone_record_id") (withRecordId w p)
      = some ((getval w (cstr "x_named_zone_record_id") p).getD (cstr "0")) := by
  rw [withRecordId]
  cases h : getval w (cstr "x_named_zone_record_id") p with
  | none =>
    rw [if_pos rfl, getval_eq (by decide)]
    exact stored_putval_self (by decide) _ _ p
  | some id =>
    rw [if_neg (Option.some_ne_none id), h]
    rfl

theorem stored_withRecordId {w : World} {k : Bytes} (hk : k ≠ cstr "x_named_zone_record_id") :
    stored k (withRecordId w p) = stored k p := by
  rw [withRecordId]
  split
  · exact stored_putval_ne hk _ _ p
  · rfl

/-- The key of the list of a zone's records is not that of the id of a record. -/
theorem recordListKey_ne : recordListKey ctx ≠ cstr "x_named_zone_record_id" := by
  intro he
  have hpre : cstr "x_named_zone_record__" <+: recordListKey ctx := by
    rw [recordListKey, List.append_assoc]
    exact List.prefix_append _ _
  rw [he, ← List.isPrefixOf_iff_prefix] at hpre
  exact absurd hpre (by decide)

/-- What is filed for a record of a zone does not depend on its list and its id. -/
theorem zoneRecordPuts_congr {q : Proc} (h : ∀ k, k ≠ recordListKey ctx →
    k ≠ cstr "x_named_zone_record_id" → stored k q = stored k p) (n : ℤ) :
    Target.zoneRecordPuts ctx q n = Target.zoneRecordPuts ctx p n := by
  have hlist : cstr "x_named_zone_record__" <+: recordListKey ctx := by
    rw [recordListKey, List.append_assoc]
    exact List.prefix_append _ _
  have hfield : ∀ k, (cstr "x_named_zone_record__").isPrefixOf k = false →
      k ≠ cstr "x_named_zone_record_id" → getval ctx.world k q = getval ctx.world k p := by
    refine fun k hk hid ↦ getval_congr (h k (fun he ↦ ?_) hid)
    rw [he, List.isPrefixOf_iff_prefix.mpr hlist] at hk
    cases hk
  rw [Target.zoneRecordPuts, hfield _ (by decide) (by decide), hfield _ (by decide) (by decide),
    hfield _ (by decide) (by decide), Target.zoneRecordPuts]

/-- The items of a zone's records do not depend on the id. -/
theorem items_withRecordId (ctx : Ctx) (p : Proc) :
    items ctx.world (recordListKey ctx) (withRecordId ctx.world p)
      = items ctx.world (recordListKey ctx) p := by
  rw [items, getval3, getval_congr (stored_withRecordId recordListKey_ne), ← getval3, ← items]

/-- The store that an addition works on. -/
def Target.prepare (ctx : Ctx) (p : Proc) : Target → Proc
  | registry _ => p
  | record => withRecordId ctx.world p

/-! ## The five functions -/

/-- The keys of what is written go with the number 4. -/
theorem map_key_recordPuts (w : World) (p : Proc) :
    (Registry.zone.recordPuts w p 4).map Put.key = [] ∨
    (Registry.zone.recordPuts w p 4).map Put.key = [recKey zoneKey 4,
      recKey (cstr "x_named_zone_soa_mname__") 4, recKey (cstr "x_named_zone_soa_rname__") 4] := by
  rw [Registry.recordPuts, Registry.records]
  cases Registry.zone.record w p with
  | none => exact .inl rfl
  | some u => exact .inr rfl

theorem map_key_zoneRecordPuts (ctx : Ctx) (p : Proc) (n : ℤ) :
    (Target.zoneRecordPuts ctx p n).map Put.key = [] ∨
    (Target.zoneRecordPuts ctx p n).map Put.key = [recKey (recordListKey ctx) n] := by
  rw [Target.zoneRecordPuts]
  split
  · exact .inr rfl
  · exact .inl rfl

/-- What is written goes to different keys, all of the registry. -/
theorem refiled_keys (ctx : Ctx) (p : Proc) (t : Target) : ((t.refiled ctx p).map Put.key).Nodup ∧
    ∀ k ∈ (t.refiled ctx p).map Put.key, beginsWith t.prefixes k = true := by
  cases t with
  | registry R =>
    cases R with
    | fw | portfw | relay => exact ⟨.nil, List.forall_mem_nil _⟩
    | zone =>
      rw [Target.refiled]
      rcases map_key_recordPuts ctx.world p with h | h <;> rw [h]
      · exact ⟨.nil, List.forall_mem_nil _⟩
      · exact ⟨by decide, by decide⟩
  | record =>
    rw [Target.refiled]
    rcases map_key_zoneRecordPuts ctx p 4 with h | h <;> rw [h]
    · exact ⟨.nil, List.forall_mem_nil _⟩
    · refine ⟨List.nodup_singleton _, fun k hk ↦ ?_⟩
      rw [List.mem_singleton.mp hk, recKey, recordListKey, List.append_assoc, List.append_assoc]
      exact beginsWith_append (by decide) _

/-- With an id that is there, a function files again. -/
theorem proc_add_of_mem (h : t.add ctx arg p = some res)
    (hdup : t.newItem ctx p ∈ items ctx.world (t.listKey ctx) p) :
    res.proc = (t.refiled ctx p).foldl Put.run (t.prepare ctx p) := by
  cases t with
  | registry R =>
    cases R with
    | fw =>
      rw [← Option.some.inj h, addId_of_mem fwKey (cstr "x_fw_id") hdup]
      rfl
    | portfw =>
      rw [← Option.some.inj h, addId_of_mem portfwKey (cstr "x_portfw_id") hdup]
      rfl
    | relay =>
      rw [← Option.some.inj h, addId_of_mem relayKey (cstr "x_sendmail_relay_id") hdup]
      rfl
    | zone =>
      obtain ⟨⟨p1, n⟩, hadd, rfl⟩ := Option.map_eq_some_iff.mp h
      obtain ⟨id, hid, -⟩ := Option.map_eq_some_iff.mp hadd
      have hitem : Target.newItem ctx p (.registry .zone) = id := by
        rw [Target.newItem, Registry.newItem, getval3,
          show getval ctx.world Registry.zone.idKey p = some id from hid]
        rfl
      rw [add_of_mem hid (hitem ▸ hdup)] at hadd
      cases hadd
      rw [proc_retWrite, Registry.zoneRecord_eq]
      rfl
  | record =>
    have hdup' : Target.record.newItem ctx p
        ∈ items ctx.world (recordListKey ctx) (withRecordId ctx.world p) := by
      rwa [items_withRecordId]
    have hrun : okNamedMaster ctx arg p = some res := h
    rw [okNamedMaster_eq, add_of_mem (getval_withRecordId _ p) hdup', Option.map_some,
      zoneRecordPuts_congr fun k _ hk ↦ stored_withRecordId hk] at hrun
    rw [← Option.some.inj hrun]
    rfl

/-! ## What an addition writes -/

namespace Target

/-- The records that are filed under the number `n`. -/
def recordPuts (ctx : Ctx) (p : Proc) (n : ℤ) : Target → List Put
  | registry R => R.recordPuts ctx.world p n
  | record => zoneRecordPuts ctx p n

/-- The number that a new item stands for. -/
def newNumber (ctx : Ctx) (p : Proc) : Target → ℤ
  | registry R => getvalInt ctx.world R.idKey p
  | record => atoi (record.newItem ctx p)

/-- The list with the new item. -/
def newList (t : Target) (ctx : Ctx) (p : Proc) : Bytes :=
  listJoin (items ctx.world (t.listKey ctx) p ++ [t.newItem ctx p])

/-- The writes of an addition: the list and the records, or, if the item is there already, what is
filed again. -/
def puts (t : Target) (ctx : Ctx) (p : Proc) : List Put :=
  if t.newItem ctx p ∈ items ctx.world (t.listKey ctx) p then t.refiled ctx p
  else ⟨t.listKey ctx, t.newList ctx p, RC_bWRITE⟩ :: t.recordPuts ctx p (t.newNumber ctx p)

/-- **An addition does its writes**, and may take the field of the form out of the store. -/
theorem proc_add (h : t.add ctx arg p = some res) :
    res.proc = (t.puts ctx p).foldl Put.run (t.prepare ctx p) ∨ res.proc
      = delval (cstr "x_sendmail_relay___T") ((t.puts ctx p).foldl Put.run (t.prepare ctx p)) := by
  by_cases hdup : t.newItem ctx p ∈ items ctx.world (t.listKey ctx) p
  · rw [puts, if_pos hdup]
    exact .inl (proc_add_of_mem h hdup)
  · rw [puts, if_neg hdup]
    cases t with
    | registry R =>
      rw [Registry.add_eq h hdup, proc_retWrite]
      cases R with
      | relay => exact .inr rfl
      | fw | portfw | zone => exact .inl rfl
    | record =>
      have hnew : (getval ctx.world (cstr "x_named_zone_record_id") p).getD (cstr "0")
          ∉ items ctx.world (recordListKey ctx) (withRecordId ctx.world p) := by
        rwa [items_withRecordId]
      have hrun : okNamedMaster ctx arg p = some res := h
      rw [okNamedMaster_eq, Setup.add, getval_withRecordId, Option.map_some, listGrepItem,
        decide_eq_false hnew, if_neg Bool.false_ne_true, Option.map_some, listPush,
        items_withRecordId] at hrun
      rw [← Option.some.inj hrun, proc_retWrite, zoneRecordPuts_congr fun k hlist hk ↦
        (stored_putval_ne hlist _ _ _).trans (stored_withRecordId hk)]
      exact .inl rfl

end Target

/-! ## When nothing changes -/

/-- With an id that is there, a function leaves under the keys of the registry what is filed
again. -/
theorem stored_add_of_mem (h : t.add ctx arg p = some res)
    (hdup : t.newItem ctx p ∈ items ctx.world (t.listKey ctx) p) {k : Bytes}
    (hk : beginsWith t.prefixes k = true) :
    stored k res.proc = stored k ((t.refiled ctx p).foldl Put.run p) := by
  rw [proc_add_of_mem h hdup]
  cases t with
  | registry R => rfl
  | record =>
    have hne : ∀ k', beginsWith (Target.prefixes .record) k' = false → k ≠ k' := by
      rintro k' hk' rfl
      rw [hk] at hk'
      cases hk'
    rw [stored_foldl (hne _ (by decide)), stored_foldl (hne _ (by decide)), Target.prepare,
      stored_withRecordId (hne _ (by decide))]

/-- **Adding what is there already leaves the registry as it is exactly if nothing is filed, or what
is there already.** -/
theorem readd_unchanged_iff {a : Adder} (ht : a.target ctx arg p = some t)
    (hdup : t.newItem ctx p ∈ items ctx.world (t.listKey ctx) p)
    (hrun : a.hook ctx arg p = some res) :
    (∀ k, beginsWith t.prefixes k = true → stored k res.proc = stored k p) ↔
      ∀ q ∈ t.refiled ctx p, stored q.key p = some q.val := by
  rw [hook_eq_add ht] at hrun
  obtain ⟨hnd, hkeys⟩ := refiled_keys ctx p t
  have hP : ∀ q ∈ t.refiled ctx p, beginsWith t.prefixes q.key = true := fun q hq ↦
    hkeys _ (List.mem_map_of_mem hq)
  have hne : ∀ q ∈ t.refiled ctx p, q.key ≠ [] := by
    intro q hq he
    have h := he ▸ hP q hq
    revert h
    cases t with
    | registry R => cases R <;> decide
    | record => decide
  rw [← stored_foldl_eq_iff (P := fun k ↦ beginsWith t.prefixes k = true) hnd hne hP]
  exact forall₂_congr fun k hk ↦ by rw [stored_add_of_mem hrun hdup hk]

/-! ## A rule and a zone that are there -/

/-- A request for the rule 5, which is there. -/
def ruleAgain : Proc :=
  [⟨fwKey, cstr "5", 0⟩, ⟨cstr "x_fw__5", cstr "5 tcp ANY 0 ANY ANY 0 ANY ACCEPT", 0⟩,
    ⟨cstr "x_fw_id", cstr "5", 3⟩].foldl Put.run ⟨[], fun _ ↦ none⟩

theorem readd_rule :
    (∀ k, beginsWith [fwKey] k = true → stored k
        (ret .cont ruleAgain).proc = stored k ruleAgain) ↔
      ∀ q ∈ (Target.registry .fw).refiled ⟨World.bare, [], []⟩ ruleAgain,
        stored q.key ruleAgain = some q.val :=
  have hrun : Adder.fw.hook ⟨World.bare, [], []⟩ (cstr "2") ruleAgain
      = some (ret .cont ruleAgain) := rfl
  readd_unchanged_iff (t := .registry .fw) rfl (by decide +kernel) hrun

/-- The zones 0 and 4, and a request that adds 0 once more, under another name. -/
def zoneAgain : Proc :=
  [⟨zoneKey, cstr "0 4", 0⟩, ⟨cstr "x_named_zone__0", cstr "master zero.jp", 0⟩,
    ⟨cstr "x_named_zone__4", cstr "master four.jp", 0⟩, ⟨cstr "typ", cstr "named", 3⟩,
    ⟨cstr "x_named_zone_id", cstr "0", 3⟩, ⟨cstr "x_named_zone_typ___T", cstr "master", 3⟩,
    ⟨cstr "x_named_zone_name___T", cstr "new.jp", 3⟩].foldl Put.run ⟨[], fun _ ↦ none⟩

/-- The zone 4 gets the name that was meant for a zone that is there already. -/
theorem zoneAgain_overwrites :
    Adder.named2.target ⟨World.bare, [], []⟩ [] zoneAgain = some (.registry .zone) ∧
    cstr "0" ∈ items World.bare zoneKey zoneAgain ∧
    stored (cstr "x_named_zone__4") zoneAgain = some (cstr "master four.jp") ∧
    (okNamed2 ⟨World.bare, [], []⟩ [] zoneAgain).map
        (fun r ↦ stored (cstr "x_named_zone__4") r.proc)
      = some (some (cstr "master new.jp")) := by
  decide +kernel

end Setup
