import SsdLinux.Setup.History
import SsdLinux.Setup.Validation

/-!
# The registries

Filter rules, port-forwarding rules, mail relays and zones are kept in the same way: a list key with
the ids in use, and a record for each id.  `Registry.add` is the function of `ok.c` that adds to a
registry; `add_eq` says what it does to the store, as a sequence of writes: the list with the new
item at its end, and the records.

`Registry.keeps` follows a registry over a whole history of additions.  Each of them reads the list
from the files, appends one id and writes everything back, and the reader keeps only the first 255
bytes of a value.  So nothing is lost as long as the list fits, and the first id that goes over the
limit is cut (`fullList_loses`).
-/

set_option autoImplicit false

namespace Setup

open CLib

/-- The registries that `ok.c` keeps. -/
inductive Registry
  | fw | portfw | relay | zone
  deriving DecidableEq, Repr

namespace Registry

def listKey : Registry → Bytes
  | fw => fwKey
  | portfw => portfwKey
  | relay => relayKey
  | zone => zoneKey

def idKey : Registry → Bytes
  | fw => cstr "x_fw_id"
  | portfw => cstr "x_portfw_id"
  | relay => cstr "x_sendmail_relay_id"
  | zone => cstr "x_named_zone_id"

/-- The function that adds to the registry. -/
def add : Registry → Hook
  | fw => fun ctx _ p ↦ some (addId ctx.world fwKey (cstr "x_fw_id") (fwRecord ctx.world) p)
  | portfw => okPortfw
  | relay => okSendmail2
  | zone => addZone

variable {w : World} {p : Proc}

/-- The item that joins the list: the id in decimal, except that the one of a zone is taken as it
is. -/
def newItem (R : Registry) (w : World) (p : Proc) : Bytes :=
  match R with
  | zone => getval3 w R.idKey p
  | _ => decInt (getvalInt w R.idKey p)

/-- The record that is filed with a new item. -/
def record (R : Registry) (w : World) (p : Proc) : Option Bytes :=
  match R with
  | fw => some (listJoin (decInt (getvalInt w R.idKey p) ::
      fwFields.map fun k ↦ fmtS (getval w k p)))
  | portfw => some (listJoin (portfwFields.map fun k ↦ fmtS (getval w k p)))
  | relay => getval w (cstr "x_sendmail_relay___T") p
  | zone =>
    (getval w (cstr "x_named_zone_typ___T") p).bind fun typ ↦
      (getval w (cstr "x_named_zone_name___T") p).map fun name ↦ listJoin [typ, name]

/-- Who is responsible for a new zone. -/
def extras (R : Registry) (w : World) (p : Proc) (n : ℤ) : KeyVals :=
  match R with
  | zone =>
    [(recKey (cstr "x_named_zone_soa_mname__") n,
        joinWith dot [fmtS (getval w (cstr "x_hostname") p),
          fmtS (getval w (cstr "x_domainname") p)]),
      (recKey (cstr "x_named_zone_soa_rname__") n,
        cstr "root." ++ fmtS (getval w (cstr "x_domainname") p))]
  | _ => []

/-- What is filed under the number `n`, if there is a record. -/
def records (R : Registry) (w : World) (p : Proc) (n : ℤ) : KeyVals :=
  match R.record w p with
  | some u => (recKey R.listKey n, u) :: R.extras w p n
  | none => []

/-- The writes of records. -/
def recordPuts (R : Registry) (w : World) (p : Proc) (n : ℤ) : List Put :=
  putsOf RC_bWRITE (R.records w p n)

/-- The list with the new item. -/
def newList (R : Registry) (w : World) (p : Proc) : Bytes :=
  listJoin (items w R.listKey p ++ [R.newItem w p])

/-- The writes of an addition. -/
def puts (R : Registry) (w : World) (p : Proc) : List Put :=
  ⟨R.listKey, R.newList w p, RC_bWRITE⟩ :: R.recordPuts w p (getvalInt w R.idKey p)

/-- What is taken out of the store afterwards. -/
def tidyUp (R : Registry) (p : Proc) : Proc :=
  match R with
  | relay => delval (cstr "x_sendmail_relay___T") p
  | _ => p

/-! ## What an addition does -/

/-- A record has another name than a key its list key is not the beginning of. -/
theorem recKey_ne {s k : Bytes} (h : s.isPrefixOf k = false) (n : ℤ) : recKey s n ≠ k := by
  rintro rfl
  rw [recKey, List.isPrefixOf_iff_prefix.mpr (List.prefix_append s (decInt n))] at h
  cases h

/-- The clock answers no record. -/
theorem recKey_not_clock {s : Bytes} (h : ∀ k ∈ clockKeys, s.isPrefixOf k = false) (n : ℤ) :
    recKey s n ∉ clockKeys :=
  fun hk ↦ recKey_ne (h _ hk) n rfl

/-- A record has another name than its list. -/
theorem recKey_ne_self (s : Bytes) (n : ℤ) : recKey s n ≠ s := fun h ↦
  decInt_ne_nil n (List.append_right_eq_self.mp h)

theorem addId_eq (listKey idKey : Bytes) {record : ℤ → Proc → Proc}
    (hnew : decInt (getvalInt w idKey p) ∉ items w listKey p) :
    addId w listKey idKey record p = retWrite .cont (record (getvalInt w idKey p)
      (putval listKey (listJoin (items w listKey p ++ [decInt (getvalInt w idKey p)]))
        RC_bWRITE p)) := by
  rw [addId, listGrepItem, decide_eq_false hnew, if_neg Bool.false_ne_true, listPush]

/-- `relayRecord` as a sequence of writes. -/
theorem relayRecord_eq (n : ℤ) :
    relayRecord w n p = relay.tidyUp ((relay.recordPuts w p n).foldl Put.run p) := by
  rw [relayRecord, recordPuts, records, record]
  cases getval w (cstr "x_sendmail_relay___T") p <;> rfl

/-- The number of an item does not depend on the list. -/
theorem getvalInt_putval (R : Registry) (val : Bytes) :
    getvalInt w R.idKey (putval R.listKey val RC_bWRITE p) = getvalInt w R.idKey p := by
  rw [getvalInt, getval_putval_ne (by cases R <;> decide), getvalInt]

/-- What is filed with an item does not depend on the list. -/
theorem record_putval (R : Registry) (val : Bytes) :
    R.record w (putval R.listKey val RC_bWRITE p) = R.record w p := by
  have hfields : ∀ (fields : List Bytes), R.listKey ∉ fields →
      (fields.map fun k ↦ fmtS (getval w k (putval R.listKey val RC_bWRITE p)))
        = fields.map fun k ↦ fmtS (getval w k p) := fun fields h ↦
    List.map_congr_left fun k hk ↦ by
      rw [getval_putval_ne fun he : k = R.listKey ↦ h (he ▸ hk)]
  have hid := R.getvalInt_putval (w := w) (p := p) val
  cases R with
  | fw => rw [record, hfields fwFields (by decide), hid, record]
  | portfw => rw [record, hfields portfwFields (by decide), record]
  | relay => rw [record, getval_putval_ne (by decide), record]
  | zone => rw [record, getval_putval_ne (by decide), getval_putval_ne (by decide), record]

theorem recordPuts_putval (R : Registry) (val : Bytes) (n : ℤ) :
    R.recordPuts w (putval R.listKey val RC_bWRITE p) n = R.recordPuts w p n := by
  have hextras : R.extras w (putval R.listKey val RC_bWRITE p) n = R.extras w p n := by
    cases R with
    | zone => rw [extras, getval_putval_ne (by decide), getval_putval_ne (by decide), extras]
    | fw | portfw | relay => rfl
  rw [recordPuts, records, record_putval, hextras, ← records, ← recordPuts]

/-- `zoneRecord` as a sequence of writes. -/
theorem zoneRecord_eq (n : ℤ) : zoneRecord w n p = (zone.recordPuts w p n).foldl Put.run p := by
  rw [zoneRecord, recordPuts, records, record]
  cases getval w (cstr "x_named_zone_typ___T") p with
  | none => rfl
  | some typ =>
    cases getval w (cstr "x_named_zone_name___T") p with
    | none => rfl
    | some name =>
      have hne : ∀ s k, s.isPrefixOf k = false → k ≠ recKey s n :=
        fun s k hs ↦ (recKey_ne hs _).symm
      dsimp only
      rw [getval_putval_ne (hne _ _ (by decide)), getval_putval_ne (hne _ _ (by decide)),
        getval_putval_ne (hne _ _ (by decide))]
      rfl

/-- **An addition writes the list with the new item, and the records.** -/
theorem add_eq {R : Registry} {ctx : Ctx} {arg : Bytes} {res : Result}
    (h : R.add ctx arg p = some res)
    (hnew : R.newItem ctx.world p ∉ items ctx.world R.listKey p) :
    res = retWrite .cont (R.tidyUp ((R.puts ctx.world p).foldl Put.run p)) := by
  rw [puts, List.foldl_cons, ← recordPuts_putval R (R.newList ctx.world p)]
  have hnum := R.getvalInt_putval (w := ctx.world) (p := p) (R.newList ctx.world p)
  cases R with
  | fw =>
    obtain rfl := Option.some.inj h
    rw [addId_eq fwKey (cstr "x_fw_id") hnew, recordPuts, records, record, hnum]
    rfl
  | portfw =>
    obtain rfl := Option.some.inj h
    rw [addId_eq portfwKey (cstr "x_portfw_id") hnew]
    rfl
  | relay =>
    obtain rfl := Option.some.inj h
    rw [addId_eq relayKey (cstr "x_sendmail_relay_id") hnew, relayRecord_eq]
    rfl
  | zone =>
    obtain ⟨⟨p1, n⟩, hadd, rfl⟩ := Option.map_eq_some_iff.mp h
    obtain ⟨id, hid, he⟩ := Option.map_eq_some_iff.mp hadd
    have hitem : newItem zone ctx.world p = id := by
      rw [newItem, getval3, show getval ctx.world zone.idKey p = some id from hid]
      rfl
    have hatoi : getvalInt ctx.world zone.idKey p = atoi id := by
      rw [getvalInt, show getval ctx.world zone.idKey p = some id from hid]
      rfl
    rw [listGrepItem, decide_eq_false (hitem ▸ hnew), if_neg Bool.false_ne_true, listPush] at he
    cases he
    dsimp only
    rw [hatoi, zoneRecord_eq, newList, hitem]
    rfl

/-- An addition changes the store by its writes, and may take the field of the form out of it. -/
theorem edits_puts_tidyUp {R : Registry} {qs : List Put} (p : Proc) :
    Edits ⟨fun q ↦ q ∈ qs, fun _ ↦ False, fun k ↦ k = cstr "x_sendmail_relay___T"⟩ p
      (R.tidyUp (qs.foldl Put.run p)) := by
  have hputs : Edits ⟨fun q ↦ q ∈ qs, fun _ ↦ False, fun k ↦ k = cstr "x_sendmail_relay___T"⟩ p
      (qs.foldl Put.run p) := edits_puts (fun _ h ↦ h) p
  cases R with
  | relay => exact hputs.tail (.del rfl _)
  | fw | portfw | zone => exact hputs

theorem stored_tidyUp {R : Registry} {k : Bytes} (hk : persistKey k = true) :
    stored k (R.tidyUp p) = stored k p := by
  cases R with
  | relay =>
    have hne : k ≠ cstr "x_sendmail_relay___T" := by
      rintro rfl
      exact absurd hk (by decide)
    rw [stored, stored, tidyUp, getvalp_delval_ne hne]
  | fw | portfw | zone => rfl

/-- The keys of the records begin with those of the lists, or with the two of a zone. -/
theorem key_records {R : Registry} {n : ℤ} {kv : Bytes × Bytes} (h : kv ∈ R.records w p n) :
    ∃ s ∈ [R.listKey, cstr "x_named_zone_soa_mname__", cstr "x_named_zone_soa_rname__"],
      kv.1 = recKey s n := by
  rw [records] at h
  split at h
  · rcases List.mem_cons.mp h with rfl | h
    · exact ⟨_, List.mem_cons_self, rfl⟩
    · cases R with
      | zone =>
        simp only [extras, List.mem_cons, List.not_mem_nil, or_false] at h
        rcases h with rfl | rfl
        · exact ⟨cstr "x_named_zone_soa_mname__", by simp, rfl⟩
        · exact ⟨cstr "x_named_zone_soa_rname__", by simp, rfl⟩
      | fw | portfw | relay => cases h
  · cases h

theorem key_records_ne {R : Registry} {n : ℤ} {kv : Bytes × Bytes} (h : kv ∈ R.records w p n) :
    kv.1 ≠ R.listKey := by
  obtain ⟨s, hs, hkv⟩ := key_records h
  rw [hkv]
  simp only [List.mem_cons, List.not_mem_nil, or_false] at hs
  rcases hs with rfl | rfl | rfl
  · exact recKey_ne_self _ _
  · exact recKey_ne (by cases R <;> decide) _
  · exact recKey_ne (by cases R <;> decide) _

/-- **An addition leaves the list with the new item.** -/
theorem stored_listKey_add {R : Registry} {ctx : Ctx} {arg : Bytes} {res : Result}
    (h : R.add ctx arg p = some res)
    (hnew : R.newItem ctx.world p ∉ items ctx.world R.listKey p) :
    stored R.listKey res.proc = some (R.newList ctx.world p) := by
  rw [add_eq h hnew, proc_retWrite, stored_tidyUp (by cases R <;> decide), puts, List.foldl_cons,
    stored, getvalp_foldl_of_not_mem, ← stored]
  · exact stored_putval_self (by cases R <;> decide) _ _ p
  · intro q hq
    obtain ⟨kv, hkv, rfl⟩ := List.mem_map.mp hq
    exact key_records_ne hkv

/-- What goes with a record has other names than the record. -/
theorem key_extras_ne {R : Registry} {n : ℤ} {kv : Bytes × Bytes} (h : kv ∈ R.extras w p n) :
    kv.1 ≠ recKey R.listKey n := by
  cases R with
  | zone =>
    have hne : ∀ s, s ∈ [cstr "x_named_zone_soa_mname__", cstr "x_named_zone_soa_rname__"] →
        recKey s n ≠ recKey zoneKey n := fun s hs he ↦ by
      have hs := List.append_cancel_right he ▸ hs
      exact absurd hs (by decide)
    simp only [extras, List.mem_cons, List.not_mem_nil, or_false] at h
    rcases h with rfl | rfl <;> exact hne _ (by simp)
  | fw | portfw | relay => cases h

/-- **An addition leaves the record under its number.** -/
theorem stored_record_add {R : Registry} {ctx : Ctx} {arg u : Bytes} {res : Result}
    (h : R.add ctx arg p = some res) (hnew : R.newItem ctx.world p ∉ items ctx.world R.listKey p)
    (hu : R.record ctx.world p = some u) :
    stored (recKey R.listKey (getvalInt ctx.world R.idKey p)) res.proc = some u := by
  have hkey : recKey R.listKey (getvalInt ctx.world R.idKey p) ≠ [] :=
    List.append_ne_nil_of_left_ne_nil (by cases R <;> decide) _
  have htidy : ∀ q : Proc, stored (recKey R.listKey (getvalInt ctx.world R.idKey p)) (R.tidyUp q)
      = stored (recKey R.listKey (getvalInt ctx.world R.idKey p)) q := by
    intro q
    cases R with
    | relay =>
      have hne : recKey relayKey (getvalInt ctx.world relay.idKey p) ≠ relayKey ++ cstr "_T" :=
        fun he ↦ absurd (decInt_chars (getvalInt ctx.world relay.idKey p) underscore
          (List.append_cancel_left he ▸ List.mem_cons_self)) (by decide)
      rw [stored, stored, tidyUp]
      exact congrArg _ (getvalp_delval_ne hne ..)
    | fw | portfw | zone => rfl
  rw [add_eq h hnew, proc_retWrite, htidy, puts, recordPuts, records, hu, putsOf, List.map_cons,
    List.foldl_cons, List.foldl_cons, stored, getvalp_foldl_of_not_mem, ← stored]
  · exact stored_putval_self hkey _ _ _
  · intro q hq
    obtain ⟨kv, hkv, rfl⟩ := List.mem_map.mp hq
    exact key_extras_ne hkv

/-! ## Additions, one after the other -/

/-- What the reader has to be able to take back: the store is written line by line, the records fit
on their lines, and the list fits into the buffer. -/
structure Fits (R : Registry) (w : World) (p : Proc) : Prop where
  tidy : Writable (fun _ ↦ False) p.env
  records : ∀ kv ∈ R.records w p (getvalInt w R.idKey p),
    nl ∉ kv.2 ∧ (confLine kv.1 kv.2).length < lineSize
  list : (R.newList w p).length < tokenSize

instance (R : Registry) (w : World) (p : Proc) : Decidable (R.Fits w p) :=
  decidable_of_iff (Writable (fun _ ↦ False) p.env ∧
      (∀ kv ∈ R.records w p (getvalInt w R.idKey p),
        nl ∉ kv.2 ∧ (confLine kv.1 kv.2).length < lineSize) ∧
      (R.newList w p).length < tokenSize)
    ⟨fun h ↦ ⟨h.1, h.2.1, h.2.2⟩, fun h ↦ ⟨h.1, h.2, h.3⟩⟩

theorem confKey_recKey {s : Bytes} (hs : ConfKey s) (hl : s.length ≤ 100) {n : ℤ} (h0 : 0 ≤ n)
    (h1 : n ≤ 2147483647) : ConfKey (recKey s n) := by
  obtain ⟨m, rfl⟩ := Int.eq_ofNat_of_zero_le h0
  have hlen := length_dec_le (n := m) (by omega)
  rw [recKey, decInt_natCast]
  refine ⟨List.append_ne_nil_of_left_ne_nil hs.ne_nil _, fun c hc ↦ ?_, ?_⟩
  · rcases List.mem_append.mp hc with hc | hc
    · exact hs.isAtom c hc
    · simp [Setup.isAtom, isalnum_of_isdigit (dec_isdigit m c hc)]
  · have hsize : tokenSize = 256 := rfl
    rw [List.length_append]
    omega

/-- A number at the end of a list brings nothing special into it. -/
theorem confVal_listJoin_concat {ids : List Bytes} {n : ℕ} (h : ConfVal (listJoin ids))
    (hl : (listJoin (ids ++ [dec n])).length < tokenSize) :
    ConfVal (listJoin (ids ++ [dec n])) := by
  have key : ∀ c : UInt8, isdigit c = false → c ≠ blank → c ∉ listJoin ids →
      c ∉ listJoin (ids ++ [dec n]) := by
    intro c hd hb hc
    have hdec : c ∉ dec n := not_mem_of_class (dec_isdigit n) hd
    rw [listJoin_concat]
    split
    · exact hdec
    · simp [hc, hb, hdec]
  exact ⟨key _ (by decide) (by decide) h.backslash, key _ (by decide) (by decide) h.dollar,
    key _ (by decide) (by decide) h.dquote, key _ (by decide) (by decide) h.nl, hl⟩

/-- What an addition leaves can be written, and the list comes back as it is. -/
theorem writable_add {R : Registry} {n : ℕ} (hwf : p.WF) (hfit : R.Fits w p)
    (hid : getval w R.idKey p = some (dec n)) (hlist : ConfVal (R.newList w p))
    (hstored : stored R.listKey (R.tidyUp ((R.puts w p).foldl Put.run p))
      = some (R.newList w p)) :
    Writable (· = R.listKey) (R.tidyUp ((R.puts w p).foldl Put.run p)).env := by
  have hwf' : (R.tidyUp ((R.puts w p).foldl Put.run p)).WF := hwf.edits (edits_puts_tidyUp p)
  have hnum : 0 ≤ getvalInt w R.idKey p ∧ getvalInt w R.idKey p ≤ 2147483647 := by
    rw [getvalInt, hid, Option.map_some, Option.getD_some, atoi_dec_eq, clampInt]
    omega
  have hlines : ∀ e ∈ persisted (R.tidyUp ((R.puts w p).foldl Put.run p)).env,
      ConfKey e.key ∧ nl ∉ e.val ∧ (confLine e.key e.val).length < lineSize := by
    intro e he
    rcases persisted_edits (edits_puts_tidyUp p) e he with
      ⟨e', he', hkey, hval⟩ | ⟨q, hq, hkey, hval⟩
    · have h := hfit.tidy e' he'
      rw [hkey, hval] at h
      exact ⟨h.1, h.2.1, h.2.2.1⟩
    · rw [← hkey, ← hval]
      rcases List.mem_cons.mp hq with rfl | hq
      · have hk : ConfKey R.listKey := by cases R <;> decide
        exact ⟨hk, hlist.nl, length_confLine_lt hk hlist.length_lt⟩
      · obtain ⟨kv, hkv, rfl⟩ := List.mem_map.mp hq
        refine ⟨?_, hfit.records kv hkv⟩
        obtain ⟨s, hs, hkv⟩ := key_records hkv
        have hpre : ∀ s ∈ [R.listKey, cstr "x_named_zone_soa_mname__",
            cstr "x_named_zone_soa_rname__"], ConfKey s ∧ s.length ≤ 100 := by
          cases R <;> decide
        exact hkv ▸ confKey_recKey (hpre s hs).1 (hpre s hs).2 hnum.1 hnum.2
  intro e he
  obtain ⟨h1, h2, h3⟩ := hlines e he
  refine ⟨h1, h2, h3, fun hkey ↦ ?_⟩
  have hget := hwf'.getvalp_eq (List.mem_filter.mp he).1
  rw [stored, ← hkey, hget, Option.map_some, Option.some_inj] at hstored
  exact hstored ▸ hlist

/-- A request that adds the id `n`, in a store that fits. -/
inductive AddStep (b : Build) (R : Registry) (n : ℕ) (f : Files) : Files → Prop
  | mk {w : World} {r : Request} {p : Proc} {args : List Arg} {v : Visit} {res : Result}
      {arg : Bytes} {o : Outcome} (hmain : main b w r f = some o) (hv : Visits w r f p args v)
      (hcall : callHook b w (delFlag args) v = some (some res))
      (hadd : R.add ⟨w, v.arg1, v.arg2⟩ arg v.proc = some res)
      (hid : getval w R.idKey v.proc = some (dec n))
      (hlist : ¬ Posted w p args R.listKey) (hrange : R = zone ∨ n ≤ 2147483647)
      (hfit : R.Fits w v.proc) : AddStep b R n f o.files

/-- Any number of such requests, one after the other. -/
inductive Adds (b : Build) (R : Registry) (f : Files) : List ℕ → Files → Prop
  | nil : Adds b R f [] f
  | snoc {ns : List ℕ} {n : ℕ} {f1 f2 : Files} (h : Adds b R f ns f1)
      (hstep : AddStep b R n f1 f2) : Adds b R f (ns ++ [n]) f2

theorem kept_listKey (R : Registry) : Kept (· = R.listKey) :=
  ⟨by rintro k rfl; cases R <;> decide, by rintro k rfl; cases R <;> decide⟩

/-- The list of a registry, in the settings. -/
def listed (R : Registry) (m : Bytes → Option Bytes) : Bytes := (m R.listKey).getD []

theorem items_eq {R : Registry} : items w R.listKey p
    = listSplit 0 (some (R.listed fun k ↦ stored k p)) :=
  Setup.items_eq (by cases R <;> decide) p

/-- **One addition appends one id to the list that is read back.** -/
theorem AddStep.list {b : Build} {R : Registry} {n : ℕ} {f f' : Files} {L : Layers}
    {ids : List Bytes} (hids : ∀ s ∈ ids, IsWord s) (hnew : dec n ∉ ids)
    (h : Tidy (· = R.listKey) f L) (hL : R.listed L.view = listJoin ids)
    (hstep : AddStep b R n f f') :
    ∃ L' : Layers, Tidy (· = R.listKey) f' L' ∧ R.listed L'.view = listJoin (ids ++ [dec n]) := by
  obtain ⟨hmain, hv, hcall, hadd, hid, hlist, hrange, hfit⟩ := hstep
  rename_i w r p args v res arg o
  have hK := kept_listKey R
  -- the list the function works on is the one in the files
  have hstore : stored R.listKey v.proc = L.view R.listKey := by
    rw [stored_visit_of_not_posted hv (hK.persist _ rfl) hlist]
    exact h.stored (conf_of_readRequest hv.request) rfl (hK.ne_nil rfl)
  have hitems : items w R.listKey v.proc = ids := by
    rw [items_eq, listed, hstore, ← listed, hL, listSplit_listJoin hids]
  have hitem : R.newItem w v.proc = dec n := by
    have hdec : R ≠ zone → decInt (getvalInt w R.idKey v.proc) = dec n := fun hR ↦ by
      rw [getvalInt, hid, Option.map_some, Option.getD_some, atoi_dec (hrange.resolve_left hR),
        decInt_natCast]
    cases R with
    | zone => rw [newItem, getval3, hid, Option.getD_some]
    | fw | portfw | relay => exact hdec (by decide)
  have hfresh : R.newItem w v.proc ∉ items w R.listKey v.proc := by rwa [hitem, hitems]
  have hjoin : R.newList w v.proc = listJoin (ids ++ [dec n]) := by rw [newList, hitem, hitems]
  have hconf : ConfVal (R.newList w v.proc) := by
    have hold : ConfVal (listJoin ids) := by
      rw [← hL, listed]
      cases hu : L.view R.listKey with
      | none => decide
      | some u => exact h.plain rfl u hu
    exact hjoin ▸ confVal_listJoin_concat hold (hjoin ▸ hfit.list)
  obtain rfl := add_eq hadd hfresh
  have hnewList := stored_listKey_add hadd hfresh
  rw [proc_retWrite] at hnewList
  have hwf : v.proc.WF := ((readConf_wf (conf_of_readRequest hv.request)).edits
    (edits_getargs p args)).edits (edits_gate hv.gate)
  obtain ⟨ht, hview⟩ := h.write hK hv hcall (writable_add hwf hfit hid hconf hnewList)
  refine ⟨_, ?_, by rw [listed, hview _ rfl, proc_retWrite, hnewList, hjoin]; rfl⟩
  rw [main_of_visits hv hcall] at hmain
  cases hmain
  exact ht

/-- **No registration is lost over a whole history of additions that fit.** -/
theorem keeps {b : Build} {R : Registry} {f f' : Files} {L : Layers} {ids : List Bytes}
    {ns : List ℕ} (h : Tidy (· = R.listKey) f L) (hids : ∀ s ∈ ids, IsWord s)
    (hL : R.listed L.view = listJoin ids) (hnodup : ns.Nodup) (hnew : ∀ n ∈ ns, dec n ∉ ids)
    (hrun : Adds b R f ns f') {environ : Bytes → Option Bytes}
    (hread : readConf w f' environ = some p) :
    items w R.listKey p = ids ++ ns.map dec := by
  suffices hinv : (∀ s ∈ ids ++ ns.map dec, IsWord s) ∧ ∃ L' : Layers, Tidy (· = R.listKey) f' L' ∧
      R.listed L'.view = listJoin (ids ++ ns.map dec) by
    obtain ⟨hwords, L', h', hL'⟩ := hinv
    rw [items_eq, listed, h'.stored hread rfl ((kept_listKey R).ne_nil rfl), ← listed, hL',
      listSplit_listJoin hwords]
  clear hread
  induction hrun with
  | nil => simpa using ⟨hids, L, h, hL⟩
  | @snoc ns n f1 f2 _ hstep ih =>
    rw [List.nodup_append] at hnodup
    obtain ⟨hwords, L', h', hL'⟩ := ih hnodup.1 fun m hm ↦ hnew m (List.mem_append_left _ hm)
    have hfresh : dec n ∉ ids ++ ns.map dec := by
      rw [List.mem_append, not_or]
      refine ⟨hnew n (by simp), fun hm ↦ ?_⟩
      obtain ⟨m, hm, he⟩ := List.mem_map.mp hm
      exact hnodup.2.2 m hm n List.mem_cons_self (dec_injective he)
    rw [List.map_append, List.map_singleton, ← List.append_assoc]
    refine ⟨fun s hs ↦ ?_, hstep.list hwords hfresh h' hL'⟩
    rcases List.mem_append.mp hs with hs | hs
    · exact hwords s hs
    · exact List.mem_singleton.mp hs ▸ isWord_dec n

end Registry

/-! ## A first rule, and one too many -/

/-- A request of the filter page calls the function that adds a rule. -/
theorem callHook_fw {w : World} (dFlg : Bool) {v : Visit} {arg : Bytes}
    (hop : v.op = cstr "fw") (hsub : v.subop = none) (harg : okArg v.proc.env = some arg)
    (herr : errChk w v.proc = some []) (hne : ¬ (arg = [] ∨ arg.head? = some 49)) :
    callHook ⟨false, false⟩ w dFlg v
      = some (Registry.fw.add ⟨w, v.arg1, v.arg2⟩ arg v.proc) := by
  have hmenu : v.menu ⟨false, false⟩ = some ⟨cstr "fw", some okFw, some del⟩ := by
    rw [Visit.menu, hsub, hop]
    rfl
  rw [callHook, hmenu]
  dsimp only
  rw [harg]
  dsimp only
  rw [herr, Option.map_some, if_neg (not_not.mpr rfl), okFw, if_neg hne]
  rfl

/-- The fields of a rule that lets everything pass. -/
abbrev passFields : Bytes :=
  cstr "&i_fw_proto___T=tcp&i_fw_src_ip___T=ANY&i_fw_src_subnet_mask___T=0&i_fw_src_port___T=ANY"
    ++ cstr "&i_fw_dst_ip___T=ANY&i_fw_dst_subnet_mask___T=0&i_fw_dst_port___T=ANY"
    ++ cstr "&i_fw_action___T=ACCEPT"

/-- A request for the rule 5. -/
def ruleRequest : Request := boxRequest (loginArgs ++ cstr "op=fw&s_ok2=1&i_fw_id=5" ++ passFields)

theorem tidy_boxFiles {K : Bytes → Prop} (hK : ¬ K limitKey) :
    Tidy K boxFiles ⟨[(limitKey, cstr "eth0")], [], none⟩ := by
  have hline : boxFiles.dflt = confLine limitKey (cstr "eth0") ++ [] := by decide
  refine ⟨⟨?_, by simp, ?_⟩, ⟨.nil, by simp, by simp⟩, .none, fun T hT ↦ absurd hT (by simp)⟩
  · rw [hline]
    exact .assign (by decide) (by decide) (by decide) .nil
  · intro kv hkv hk
    rw [List.mem_singleton.mp hkv] at hk
    exact absurd hk hK

theorem keeps_rule : ∃ f', Registry.Adds ⟨false, false⟩ .fw boxFiles [5] f' ∧
    ∀ environ p, readConf World.box f' environ = some p → items World.box fwKey p = [dec 5] := by
  have hfacts : (visitOf World.box ruleRequest boxFiles).any (fun x ↦
      decide (x.2.2.op = cstr "fw" ∧ x.2.2.subop = none ∧
        okArg x.2.2.proc.env = some (cstr "2") ∧ errChk World.box x.2.2.proc = some [] ∧
        getval World.box (cstr "x_fw_id") x.2.2.proc = some (dec 5) ∧
        ¬ Posted World.box x.1 x.2.1 fwKey ∧ Registry.fw.Fits World.box x.2.2.proc)) = true := by
    decide +kernel
  simp only [Option.any_eq_true, decide_eq_true_eq] at hfacts
  obtain ⟨⟨p, args, v⟩, hv, hop, hsub, harg, herr, hid, hlist, hfit⟩ := hfacts
  have hvis := visits_of_visitOf hv
  have hcall := callHook_fw (delFlag args) hop hsub harg herr (by decide)
  have hmain := main_of_visits hvis hcall
  have hadds : Registry.Adds ⟨false, false⟩ .fw boxFiles [5] _ :=
    .snoc .nil (.mk hmain hvis hcall
      (show Registry.fw.add _ (cstr "2") v.proc = some _ from rfl) hid hlist (.inr (by decide))
      hfit)
  exact ⟨_, hadds, fun environ p hread ↦
    Registry.keeps (tidy_boxFiles (by decide)) (List.forall_mem_nil IsWord) rfl (by simp)
      (by simp) hadds hread⟩

/-- The ids of 23 rules, which fill the list up. -/
def fullIds : List ℕ := (List.range 23).map fun i ↦ 1000000001 + i

/-- The files with these rules. -/
def fullFiles : Files := { boxFiles with conf := confLine fwKey (listJoin (fullIds.map dec)) }

/-- A request for one rule more. -/
def moreRequest : Request :=
  boxRequest (loginArgs ++ cstr "op=fw&s_ok2=1&i_fw_id=1000000024" ++ passFields)

/-- The id of the new rule is cut when the list is read back. -/
theorem fullList_loses :
    (readConf World.box fullFiles insideEnv).map (items World.box fwKey)
      = some (fullIds.map dec) ∧
    ((main ⟨false, false⟩ World.box moreRequest fullFiles).bind fun o ↦
      (readConf World.box o.files insideEnv).map (items World.box fwKey))
      = some (fullIds.map dec ++ [cstr "10"]) ∧
    dec 1000000024 ∉ fullIds.map dec ++ [cstr "10"] := by
  refine ⟨by decide +kernel, by decide +kernel, by decide +kernel⟩

end Setup
