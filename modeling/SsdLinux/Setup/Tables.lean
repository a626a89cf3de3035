import SsdLinux.Setup.Integrity

/-!
# The registries as tables

What the administrator has in mind are four tables: the packets to filter, the ports to forward, the
domains to relay for and the zones.  A row has a number and fields, and there are two things to do
to a table, adding a row and taking one out.  What the program has are strings: a list of numbers
and a record for each of them, in three files of which a request replaces one.

`Visit.change` is what a request does to the tables, and `Managed` follows them through a history.
`Represents` says that the settings are these tables, and `represents_of_managed` is the simulation:
the settings of a history are the tables of the history.

Two things are as they are in the program.  An addition of a zone under a number that is taken
leaves the table alone, but for the zone 4, which gets the new fields.  And what is deleted goes by
the text of its number.
-/

set_option autoImplicit false

namespace Setup

open CLib

variable {b : Build} {w : World} {r : Request} {f : Files} {p : Proc} {args : List Arg} {v : Visit}
  {res : Result} {o : Outcome} {k : Bytes} {R : Registry}

/-! ## Tables -/

/-- A row: its number and its fields. -/
abbrev Listing := ℕ × List Bytes

abbrev Tables := Registry → List Listing

namespace Registry

/-- The fields that are posted for a row. -/
def posted (R : Registry) (w : World) (p : Proc) : List Bytes :=
  match R with
  | fw => decInt (getvalInt w (cstr "x_fw_id") p) :: fwFields.map fun k ↦ fmtS (getval w k p)
  | portfw => portfwFields.map fun k ↦ fmtS (getval w k p)
  | relay => (getval w (cstr "x_sendmail_relay___T") p).toList
  | zone => (getval w (cstr "x_named_zone_typ___T") p).toList
      ++ (getval w (cstr "x_named_zone_name___T") p).toList

/-- The number that is posted for a row. -/
def number (R : Registry) (w : World) (p : Proc) : ℕ := (getvalInt w R.idKey p).toNat

/-- What becomes of a table when a row is added whose number is taken. -/
def refile (R : Registry) (fields : List Bytes) (rows : List Listing) : List Listing :=
  match R with
  | zone => rows.map fun e ↦ if e.1 = 4 then (4, fields) else e
  | fw | portfw | relay => rows

/-- A row is added. -/
def addRow (R : Registry) (w : World) (p : Proc) (rows : List Listing) : List Listing :=
  if R.number w p ∈ rows.map Prod.fst then R.refile (R.posted w p) rows
  else rows ++ [(R.number w p, R.posted w p)]

/-- The record of fields that are words. -/
theorem record_posted (h : R.WordFields w p) : R.record w p = some (listJoin (R.posted w p)) ∧
    (∀ s ∈ R.posted w p, IsWord s) ∧ (R.posted w p).length = R.fieldCount := by
  cases R with
  | fw =>
    refine ⟨rfl, List.forall_mem_cons.2 ⟨isWord_decInt _, fun s hs ↦ ?_⟩, rfl⟩
    obtain ⟨k, hk, rfl⟩ := List.mem_map.1 hs
    exact h k hk
  | portfw =>
    refine ⟨rfl, fun s hs ↦ ?_, rfl⟩
    obtain ⟨k, hk, rfl⟩ := List.mem_map.1 hs
    exact h k hk
  | relay =>
    obtain ⟨name, hname, hword⟩ := h
    rw [posted, hname, Option.toList_some, record, hname]
    refine ⟨?_, List.forall_mem_singleton.2 hword, rfl⟩
    rw [listJoin_cons, List.map_nil, List.flatten_nil, List.append_nil]
  | zone =>
    obtain ⟨typ, htyp, hwt, name, hname, hwn⟩ := h
    rw [posted, htyp, hname, Option.toList_some, Option.toList_some, record, htyp, Option.bind_some,
      hname, Option.map_some]
    exact ⟨rfl, List.forall_mem_cons.2 ⟨hwt, List.forall_mem_singleton.2 hwn⟩, rfl⟩

end Registry

/-- A row is taken out, by the text of its number. -/
def takeRow (tgt : Bytes) (rows : List Listing) : List Listing :=
  rows.eraseP fun e ↦ dec e.1 == tgt

/-- **What a request that writes does to the tables.** -/
def Visit.change (b : Build) (w : World) (v : Visit) (T : Tables) : Tables :=
  match v.target b w, v.deletes w with
  | some (.registry R), _ => Function.update T R (R.addRow w v.proc (T R))
  | _, some (key, tgt) => fun R ↦ if key = R.listKey then takeRow tgt (T R) else T R
  | _, none => T

/-- The settings `m` are the tables `T`. -/
structure Represents (m : Bytes → Option Bytes) (T : Tables) : Prop where
  list : ∀ R : Registry, listSplit 0 (some (R.listed m)) = (T R).map fun e ↦ dec e.1
  record : ∀ R : Registry, ∀ e ∈ T R, m (recKey R.listKey e.1) = some (listJoin e.2)
  fields : ∀ R : Registry, ∀ e ∈ T R, (∀ s ∈ e.2, IsWord s) ∧ e.2.length = R.fieldCount
  nodup : ∀ R : Registry, ((T R).map Prod.fst).Nodup

variable {m m' : Bytes → Option Bytes} {T : Tables}

theorem Represents.congr (h : Represents m T) (hm : ∀ k, RegistryKey k → m k = m' k) :
    Represents m' T := by
  refine ⟨fun R ↦ ?_, fun R e he ↦ ?_, h.fields, h.nodup⟩
  · rw [Registry.listed, ← hm _ R.registryKey_listKey]
    exact h.list R
  · rw [← hm _ (R.registryKey_recKey e.1), h.record R e he]

/-- One table is another one, and the settings with it. -/
theorem Represents.update (h : Represents m T) {rows : List Listing}
    (hother : ∀ R', R' ≠ R → m' R'.listKey = m R'.listKey ∧
      ∀ n : ℕ, m' (recKey R'.listKey n) = m (recKey R'.listKey n))
    (hlist : listSplit 0 (some (R.listed m')) = rows.map fun e ↦ dec e.1)
    (hrecord : ∀ e ∈ rows, m' (recKey R.listKey e.1) = some (listJoin e.2))
    (hfields : ∀ e ∈ rows, (∀ s ∈ e.2, IsWord s) ∧ e.2.length = R.fieldCount)
    (hnodup : (rows.map Prod.fst).Nodup) : Represents m' (Function.update T R rows) := by
  refine ⟨fun R' ↦ ?_, fun R' e he ↦ ?_, fun R' e he ↦ ?_, fun R' ↦ ?_⟩ <;>
  by_cases hR : R' = R
  · subst hR
    rw [Function.update_self]
    exact hlist
  · rw [Function.update_of_ne hR, Registry.listed, (hother R' hR).1]
    exact h.list R'
  · subst hR
    rw [Function.update_self] at he
    exact hrecord e he
  · rw [Function.update_of_ne hR] at he
    rw [(hother R' hR).2, h.record R' e he]
  · subst hR
    rw [Function.update_self] at he
    exact hfields e he
  · rw [Function.update_of_ne hR] at he
    exact h.fields R' e he
  · subst hR
    rw [Function.update_self]
    exact hnodup
  · rw [Function.update_of_ne hR]
    exact h.nodup R'

/-! ## An addition -/

/-- What an addition leaves under the keys of the registries. -/
theorem stored_add_registry {ctx : Ctx} {arg : Bytes}
    (hadd : (Target.registry R).add ctx arg p = some res) (hk : RegistryKey k) :
    stored k res.proc = stored k (((Target.registry R).puts ctx p).foldl Put.run p) := by
  refine Target.stored_add hadd hk.1 ?_
  rintro rfl
  exact absurd hk (by decide)

/-- **A number that is taken**: the table stays, but for the zone 4. -/
theorem Represents.refile {ctx : Ctx} {arg : Bytes} (h : Represents (fun k ↦ stored k p) T)
    (hok : R.AddOk ctx.world p) (hadd : (Target.registry R).add ctx arg p = some res)
    (hdup : (Target.registry R).newItem ctx p
      ∈ items ctx.world ((Target.registry R).listKey ctx) p) :
    Represents (fun k ↦ stored k res.proc)
      (Function.update T R (R.refile (R.posted ctx.world p) (T R))) := by
  obtain ⟨hrec, hword, hlen⟩ := Registry.record_posted hok.fields
  have hstored : ∀ k, RegistryKey k → stored k res.proc
      = stored k (((Target.registry R).refiled ctx p).foldl Put.run p) := fun k hk ↦ by
    rw [stored_add_registry hadd hk, Target.puts, if_pos hdup]
  cases R with
  | zone =>
    have hzone : ∀ k, RegistryKey k → stored k res.proc
        = if k = recKey Registry.zone.listKey 4
          then some (listJoin (Registry.zone.posted ctx.world p)) else stored k p := fun k hk ↦ by
      rw [hstored k hk, Target.refiled, Registry.stored_recordPuts hrec hk]
    have hlist : ∀ R : Registry, stored R.listKey res.proc = stored R.listKey p := fun R ↦ by
      rw [hzone _ R.registryKey_listKey, if_neg (Registry.recKey_ne_listKey .zone R 4).symm]
    have hother : ∀ (R : Registry) (n : ℕ), (R, n) ≠ (.zone, 4) →
        stored (recKey R.listKey n) res.proc = stored (recKey R.listKey n) p := fun R n hne ↦ by
      rw [hzone _ (R.registryKey_recKey n), if_neg fun he ↦ ?_]
      obtain ⟨rfl, hn⟩ : R = .zone ∧ (n : ℤ) = 4 := Registry.recKey_inj he
      obtain rfl : n = 4 := by omega
      exact hne rfl
    have hfst : (Registry.zone.refile (Registry.zone.posted ctx.world p) (T .zone)).map Prod.fst
        = (T .zone).map Prod.fst := by
      rw [Registry.refile, List.map_map]
      refine List.map_congr_left fun e _ ↦ ?_
      rw [Function.comp_apply]
      split
      · exact Eq.symm ‹_›
      · rfl
    refine h.update (fun R hR ↦ ⟨hlist R, fun n ↦ hother R n fun he ↦ hR (Prod.mk.inj he).1⟩)
      ?_ (fun e he ↦ ?_) (fun e he ↦ ?_) (hfst ▸ h.nodup .zone)
    · have hdec : ∀ l l' : List Listing, l.map Prod.fst = l'.map Prod.fst →
          (l.map fun e ↦ dec e.1) = l'.map fun e ↦ dec e.1 := fun l l' he ↦ by
        have := congrArg (List.map dec) he
        rwa [List.map_map, List.map_map] at this
      rw [Registry.listed, hlist, hdec _ _ hfst]
      exact h.list .zone
    · obtain ⟨e', he', rfl⟩ := List.mem_map.1 he
      split
      · exact (hzone _ (Registry.registryKey_recKey .zone 4)).trans (if_pos rfl)
      · rename_i hne
        rw [hother .zone e'.1 fun he ↦ hne (Prod.mk.inj he).2]
        exact h.record .zone e' he'
    · obtain ⟨e', he', rfl⟩ := List.mem_map.1 he
      split
      · exact ⟨hword, hlen⟩
      · exact h.fields .zone e' he'
  | fw | portfw | relay =>
    rw [Registry.refile, Function.update_eq_self]
    exact h.congr fun k hk ↦ (hstored k hk).symm

/-- **A new number**: the table gets a row. -/
theorem Represents.push {ctx : Ctx} {arg : Bytes} (h : Represents (fun k ↦ stored k p) T)
    (hok : R.AddOk ctx.world p) (hadd : (Target.registry R).add ctx arg p = some res)
    (hnew : (Target.registry R).newItem ctx p
      ∉ items ctx.world ((Target.registry R).listKey ctx) p)
    (hfresh : R.number ctx.world p ∉ (T R).map Prod.fst) :
    Represents (fun k ↦ stored k res.proc)
      (Function.update T R (T R ++ [(R.number ctx.world p, R.posted ctx.world p)])) := by
  obtain ⟨hrec, hword, hlen⟩ := Registry.record_posted hok.fields
  have hnum : (R.number ctx.world p : ℤ) = getvalInt ctx.world R.idKey p :=
    Int.toNat_of_nonneg hok.nonneg
  have hitem : R.newItem ctx.world p = dec (R.number ctx.world p) := by
    rw [hok.id, ← hnum, decInt_natCast]
  have hstored : ∀ k, RegistryKey k → k ≠ R.listKey → stored k res.proc
      = if k = recKey R.listKey (R.number ctx.world p : ℕ)
        then some (listJoin (R.posted ctx.world p)) else stored k p := fun k hk hne ↦ by
    rw [stored_add_registry hadd hk, Target.puts, if_neg hnew, List.foldl_cons, Target.recordPuts,
      Target.newNumber, ← hnum, Registry.stored_recordPuts hrec hk, Put.run]
    exact if_congr Iff.rfl rfl (stored_putval_ne hne _ _ p)
  have hrecord : ∀ (R' : Registry) (n : ℕ), (R', n) ≠ (R, R.number ctx.world p) →
      stored (recKey R'.listKey n) res.proc = stored (recKey R'.listKey n) p := fun R' n hne ↦ by
    rw [hstored _ (R'.registryKey_recKey n) (R'.recKey_ne_listKey R n), if_neg fun he ↦ ?_]
    obtain ⟨rfl, hn⟩ := Registry.recKey_inj he
    exact hne (by rw [Int.ofNat_inj.1 hn])
  refine h.update (fun R' hR ↦ ⟨?_, fun n ↦ hrecord R' n fun he ↦ hR (Prod.mk.inj he).1⟩)
    ?_ (fun e he ↦ ?_) (fun e he ↦ ?_) ?_
  · have hne : R'.listKey ≠ R.listKey := fun he ↦ hR (Registry.eq_of_take (by rw [he]))
    rw [hstored _ R'.registryKey_listKey hne, if_neg (Registry.recKey_ne_listKey R R' _).symm]
  · have hsplit : items ctx.world R.listKey p = (T R).map fun e ↦ dec e.1 := by
      rw [Registry.items_eq]
      exact h.list R
    rw [Registry.listed, Registry.stored_listKey_add hadd hnew, Option.getD_some, Registry.newList,
      hitem, hsplit, listSplit_listJoin, List.map_append, List.map_singleton]
    refine List.forall_mem_append.2 ⟨fun i hi ↦ ?_, List.forall_mem_singleton.2 (isWord_dec _)⟩
    obtain ⟨e, -, rfl⟩ := List.mem_map.1 hi
    exact isWord_dec e.1
  · rcases List.mem_append.1 he with he | he
    · rw [hrecord R e.1 fun heq ↦ hfresh ((Prod.mk.inj heq).2 ▸ List.mem_map_of_mem he)]
      exact h.record R e he
    · rw [List.mem_singleton.1 he]
      exact (hstored _ (R.registryKey_recKey _) (R.recKey_ne_listKey R _)).trans (if_pos rfl)
  · rcases List.mem_append.1 he with he | he
    · exact h.fields R e he
    · rw [List.mem_singleton.1 he]
      exact ⟨hword, hlen⟩
  · rw [List.map_append, List.map_singleton, ← List.concat_eq_append]
    exact (h.nodup R).concat hfresh

/-- **An addition adds to its table.** -/
theorem Represents.add {ctx : Ctx} {arg : Bytes} (h : Represents (fun k ↦ stored k p) T)
    (hok : R.AddOk ctx.world p) (hadd : (Target.registry R).add ctx arg p = some res) :
    Represents (fun k ↦ stored k res.proc)
      (Function.update T R (R.addRow ctx.world p (T R))) := by
  have hmem : (Target.registry R).newItem ctx p
      ∈ items ctx.world ((Target.registry R).listKey ctx) p
      ↔ R.number ctx.world p ∈ (T R).map Prod.fst := by
    have hitem : R.newItem ctx.world p = dec (R.number ctx.world p) := by
      rw [hok.id, ← decInt_natCast, Registry.number, Int.toNat_of_nonneg hok.nonneg]
    have hsplit : items ctx.world R.listKey p = (T R).map fun e ↦ dec e.1 := by
      rw [Registry.items_eq]
      exact h.list R
    rw [Target.newItem, Target.listKey, hitem, hsplit, List.mem_map, List.mem_map]
    exact exists_congr fun e ↦ and_congr_right fun _ ↦ dec_injective.eq_iff
  rw [Registry.addRow]
  split
  · exact h.refile hok hadd (hmem.2 ‹_›)
  · exact h.push hok hadd (fun hm ↦ ‹¬ _› (hmem.1 hm)) ‹_›

/-! ## One request -/

/-- **Taking an item out takes its row out.** -/
theorem Represents.del (h : Represents (fun k ↦ stored k p) T) (R : Registry) (tgt : Bytes) :
    Represents (fun k ↦ stored k (delEnt w R.listKey tgt p))
      (Function.update T R (takeRow tgt (T R))) := by
  have hother : ∀ k, k ≠ R.listKey → stored k (delEnt w R.listKey tgt p) = stored k p :=
    fun k hk ↦ stored_putval_ne hk _ _ p
  have hsub : (takeRow tgt (T R)).Sublist (T R) := List.eraseP_sublist
  refine h.update (fun R' hR ↦ ⟨hother _ fun he ↦ hR (Registry.eq_of_take (by rw [he])),
    fun n ↦ hother _ (R'.recKey_ne_listKey R n)⟩) ?_ (fun e he ↦ ?_)
    (fun e he ↦ h.fields R e (hsub.subset he)) ((h.nodup R).sublist (hsub.map _))
  · have hlist := h.list R
    rw [split_delEnt tgt, hlist, List.erase_eq_eraseP', List.eraseP_map]
    · rfl
    · intro i hi
      rw [hlist] at hi
      obtain ⟨e, -, rfl⟩ := List.mem_map.1 hi
      exact isWord_dec e.1
  · rw [hother _ (R.recKey_ne_listKey R e.1)]
    exact h.record R e (hsub.subset he)

/-- A request that deletes and is saved has taken its item out. -/
theorem proc_of_deletes {dFlg : Bool} {key tgt : Bytes} (hdel : v.deletes w = some (key, tgt))
    (h : callHook b w dFlg v = some (some res)) (hw : res.wrote = true) :
    res.proc = delEnt w key tgt v.proc := by
  rw [Visit.deletes] at hdel
  split at hdel
  case isFalse => cases hdel
  rename_i hok
  obtain ⟨id, hid, hdel⟩ := Option.bind_eq_some_iff.1 hdel
  obtain ⟨typ, htyp, hdel⟩ := Option.bind_eq_some_iff.1 hdel
  obtain ⟨key', hkey, he⟩ := Option.map_eq_some_iff.1 hdel
  obtain ⟨rfl, rfl⟩ := Prod.mk.inj he
  rcases callHook_cases h with ⟨st, rfl⟩ | ⟨m, hm, ⟨arg, hook, harg, -⟩ |
    ⟨hook, r, -, -, hhook, hr, rfl⟩⟩
  · cases hw
  · rw [hok] at harg
    cases harg
  · obtain rfl := delHook_cases (mem_menus_of_menu hm) hhook
    have hrun : del ⟨w, v.arg1, v.arg2⟩ [] v.proc
        = some (retWrite .ok (delEnt w key' (decInt id) v.proc)) := by
      rw [Setup.del, hid, Option.bind_some, htyp, Option.map_some, hkey]
    rw [hrun] at hr
    rw [← Option.some.inj hr]
    rfl

/-- An addition to the records of a zone is none to the registries. -/
theorem stored_add_zoneRecord {ctx : Ctx} {arg : Bytes}
    (hadd : Target.record.add ctx arg p = some res) (hk : RegistryKey k) :
    stored k res.proc = stored k p := by
  refine stored_edits (tame_okNamedMaster ctx arg p res hadd) ?_ ?_
  · rintro q hq rfl
    rw [RegistryKey, not_beginsWith (by decide) hq.1] at hk
    exact Bool.false_ne_true hk.2
  · rintro k' hk' rfl
    rw [RegistryKey, show k' = cstr "x_sendmail_relay___T" from hk'] at hk
    exact absurd hk.1 (by decide)

/-- Taking an item out of the records of a zone takes none out of the registries. -/
theorem stored_delEnt_record (arg2 tgt : Bytes) (hk : RegistryKey k) :
    stored k (delEnt w (cstr "x_named_zone_record__" ++ arg2 ++ cstr "__") tgt p)
      = stored k p := by
  refine stored_putval_ne ?_ _ _ _
  rintro rfl
  have hrec : beginsWith [cstr "x_named_zone_record__"]
      (cstr "x_named_zone_record__" ++ (arg2 ++ cstr "__")) = true :=
    beginsWith_append (by decide) _
  rw [RegistryKey, List.append_assoc, not_beginsWith (by decide) hrec] at hk
  exact Bool.false_ne_true hk.2

/-- **What a request that writes does to the settings is what it does to the tables.** -/
theorem Represents.callHook {dFlg : Bool} (h : Represents (fun k ↦ stored k v.proc) T)
    (hok : ∀ R, v.target b w = some (.registry R) → R.AddOk w v.proc)
    (hres : callHook b w dFlg v = some (some res)) (hw : res.wrote = true) :
    Represents (fun k ↦ stored k res.proc) (v.change b w T) := by
  cases htarget : v.target b w with
  | some t =>
    have hdel := deletes_eq_none_of_target htarget
    obtain ⟨arg, hadd⟩ := add_of_target htarget hres hw
    rw [Visit.change, htarget, hdel]
    cases t with
    | registry R =>
      have hrow := h.add (hok R htarget) hadd
      exact hrow
    | record => exact h.congr fun k hk ↦ (stored_add_zoneRecord hadd hk).symm
  | none =>
    rw [Visit.change, htarget]
    cases hdel : v.deletes w with
    | some d =>
      obtain ⟨key, tgt⟩ := d
      rw [proc_of_deletes hdel hres hw]
      dsimp only
      rcases deletes_cases hdel with ⟨R, rfl⟩ | rfl
      · have heq : (fun R' ↦ if R.listKey = Registry.listKey R' then takeRow tgt (T R') else T R')
            = Function.update T R (takeRow tgt (T R)) := by
          funext R'
          by_cases he : R' = R
          · subst he
            rw [if_pos rfl, Function.update_self]
          · rw [if_neg fun hk ↦ he (Registry.eq_of_take (by rw [hk])), Function.update_of_ne he]
        rw [heq]
        exact h.del R tgt
      · have heq : (fun R' ↦ if cstr "x_named_zone_record__" ++ v.arg2 ++ cstr "__"
            = Registry.listKey R' then takeRow tgt (T R') else T R') = T := by
          funext R'
          refine if_neg fun hk ↦ ?_
          have hreg := R'.registryKey_listKey
          have hrec : beginsWith [cstr "x_named_zone_record__"]
              (cstr "x_named_zone_record__" ++ (v.arg2 ++ cstr "__")) = true :=
            beginsWith_append (by decide) _
          rw [← hk, RegistryKey, List.append_assoc, not_beginsWith (by decide) hrec] at hreg
          exact Bool.false_ne_true hreg.2
        rw [heq]
        exact h.congr fun k hk ↦ (stored_delEnt_record v.arg2 tgt hk).symm
    | none =>
      refine h.congr fun k hk ↦ ?_
      cases callHook_moves hres with
      | add ht _ hadd =>
        rw [htarget] at ht
        cases ht
      | del hdel' _ =>
        rw [hdel] at hdel'
        cases hdel'
      | same hsame _ _ => exact (hsame k hk.1 (beginsWith_mono (by decide) hk.2)).symm

/-! ## Histories -/

/-- The request saves, and asks for the defaults instead of what was saved (`x_save_mode` 5). -/
def Result.restores (w : World) (res : Result) : Bool :=
  res.status == .okSave && (getval w (cstr "x_save_mode") res.proc).bind List.head? == some 53

theorem files_finish_eq (w : World) (res : Result) (f : Files) : (finish w res f).files
    = if res.restores w then { res.files f with conf := (res.files f).dflt } else res.files f := by
  by_cases hst : res.status = .okSave
  · rw [finish, hst, Result.restores, hst]
    cases getval w (cstr "x_save_mode") res.proc with
    | none => rfl
    | some mode =>
      dsimp only
      rw [beq_self_eq_true, Bool.true_and, Option.bind_some]
      exact (if_congr beq_iff_eq rfl rfl).symm
  · rw [files_finish hst, if_neg]
    rw [Result.restores, Bool.and_eq_true, beq_iff_eq]
    exact fun h ↦ hst h.1

/-- What a request does, if it does anything. -/
def served (b : Build) (w : World) (r : Request) (f : Files) : Option (Visit × Result) :=
  (visitOf w r f).bind fun x ↦ (callHook b w (delFlag x.2.1) x.2.2).join.map fun res ↦ (x.2.2, res)

theorem served_eq_some {x : Visit × Result} (h : served b w r f = some x) :
    ∃ p args, Visits w r f p args x.1 ∧ callHook b w (delFlag args) x.1 = some (some x.2) := by
  obtain ⟨⟨p, args, v⟩, hv, h⟩ := Option.bind_eq_some_iff.1 h
  obtain ⟨res, hres, rfl⟩ := Option.map_eq_some_iff.1 h
  exact ⟨p, args, visits_of_visitOf hv, Option.join_eq_some_iff.1 hres⟩

theorem served_of_visits (hv : Visits w r f p args v)
    (hres : callHook b w (delFlag args) v = some (some res)) :
    served b w r f = some (v, res) := by
  rw [served, visitOf_of_visits hv, Option.bind_some]
  dsimp only
  rw [hres, Option.join_some, Option.map_some]

/-- **The tables after a request**: what is written changes them, and defaults that are put back
with nothing pending empty them. -/
def tablesAfter (b : Build) (w : World) (r : Request) (f : Files) (T : Tables) : Tables :=
  match served b w r f with
  | none => T
  | some (v, res) =>
    if res.wrote then v.change b w T
    else if res.restores w && (res.files f).tmp.isNone then fun _ ↦ []
    else T

/-- The files of a history, with the tables that the requests have made.  What is asked of a request
is asked only if it is accepted. -/
inductive Managed (b : Build) : Files → Tables → Prop
  | shipped : Managed b shippedFiles fun _ ↦ []
  | step {f : Files} {T : Tables} {w : World} {r : Request} {o : Outcome} (hT : Managed b f T)
      (hsafe : WhenAccepted (RegistrySafe b) w r f) (hmain : main b w r f = some o) :
      Managed b o.files (tablesAfter b w r f T)

theorem represents_shipped : Represents (fun k ↦ lookup k shipped) fun _ ↦ [] := by
  have hnone : ∀ R : Registry, lookup R.listKey shipped = none := by
    intro R
    cases R <;> decide +kernel
  refine ⟨fun R ↦ ?_, fun R e he ↦ absurd he List.not_mem_nil,
    fun R e he ↦ absurd he List.not_mem_nil, fun R ↦ List.nodup_nil⟩
  rw [Registry.listed, hnone R]
  rfl

/-- **One request**: what it leaves in the files are the tables that it has made. -/
theorem Represents.main {L : Layers} (h : Represents L.view T) (ht : Tidy RegistryKey f L)
    (hd : L.dflt = shipped) (hsafe : WhenAccepted (RegistrySafe b) w r f)
    (hm : main b w r f = some o) : ∃ L' : Layers, Tidy RegistryKey o.files L' ∧
      L'.dflt = shipped ∧ Represents L'.view (tablesAfter b w r f T) := by
  cases hs : served b w r f with
  | none =>
    have hfiles : o.files = f := by
      rcases main_cases hm with hsame | ⟨p, args, v, res, hv, hres, -⟩
      · exact hsame
      · rw [served_of_visits hv hres] at hs
        cases hs
    rw [tablesAfter, hs, hfiles]
    exact ⟨L, ht, hd, h⟩
  | some x =>
    obtain ⟨v, res⟩ := x
    obtain ⟨p, args, hv, hres⟩ := served_eq_some hs
    obtain rfl := Option.some.inj ((main_of_visits hv hres).symm.trans hm)
    rw [tablesAfter, hs, files_finish_eq]
    dsimp only at hv hres ⊢
    by_cases hw : res.wrote = true
    · -- the store is written out: it is what the function of the menu has left
      have hok := hsafe p args v hv (accepted_of_wrote hres hw)
      obtain ⟨htidy, hview⟩ := ht.write kept_registryKey hv hres (hok.saves.callHook hv hres)
      have hstore : Represents (fun k ↦ stored k v.proc) T := h.congr fun k hk ↦ by
        rw [stored_visit_of_not_posted hv hk.1 (hok.posted k hk),
          ht.stored (conf_of_readRequest hv.request) hk (kept_registryKey.ne_nil hk)]
      have hnew : Represents (L.write (persistedVals res.proc.env)).view (v.change b w T) :=
        (hstore.callHook hok.addOk hres hw).congr fun k hk ↦ (hview k hk).symm
      rw [if_pos hw, Result.files, if_pos hw]
      split
      · refine ⟨_, htidy.reset, hd, hnew.congr fun k hk ↦ ?_⟩
        rw [Layers.view_of_tmp rfl htidy.covers hk,
          Layers.view_of_tmp rfl (Layers.covers_reset htidy.covers) hk]
      · exact ⟨_, htidy, hd, hnew⟩
    · -- nothing is written: the settings stay, if they are not put back
      obtain ⟨L1, h1, hd1, hview⟩ : ∃ L1 : Layers, Tidy RegistryKey (res.files f) L1 ∧
          L1.dflt = shipped ∧ Represents L1.view T := by
        rw [Result.files, if_neg hw]
        split
        · refine ⟨L.save, ht.save, ?_, h.congr fun k hk ↦ (Layers.view_save ht.covers hk).symm⟩
          rw [Layers.save]
          cases L.tmp <;> exact hd
        · exact ⟨L, ht, hd, h⟩
      rw [if_neg hw]
      by_cases hback : res.restores w = true
      · rw [if_pos hback, hback, Bool.true_and]
        have htmp := h1.tmp
        have hreset := h1.reset
        cases hT : (res.files f).tmp with
        | none =>
          rw [hT] at htmp hreset
          have hnone : L1.tmp = none := by
            cases hL : L1.tmp with
            | none => rfl
            | some t =>
              rw [hL] at htmp
              cases htmp
          refine ⟨L1.reset, hreset, hd1, represents_shipped.congr fun k _ ↦ ?_⟩
          rw [Layers.view_of_no_tmp (show L1.reset.tmp = none from hnone), Layers.base_reset, hd1]
        | some t =>
          rw [hT] at htmp hreset
          cases hL : L1.tmp with
          | none =>
            rw [hL] at htmp
            cases htmp
          | some t' =>
            refine ⟨L1.reset, hreset, hd1, hview.congr fun k hk ↦ ?_⟩
            rw [Layers.view_of_tmp hL h1.covers hk,
              Layers.view_of_tmp (show L1.reset.tmp = some t' from hL)
                (Layers.covers_reset h1.covers) hk]
      · rw [if_neg hback, if_neg]
        · exact ⟨L1, h1, hd1, hview⟩
        · rw [Bool.and_eq_true]
          exact fun hb ↦ hback hb.1

/-- **The settings of a history are its tables.** -/
theorem represents_of_managed (h : Managed b f T) {environ : Bytes → Option Bytes}
    (hread : readConf w f environ = some p) : Represents (fun k ↦ stored k p) T := by
  suffices hinv : ∃ L : Layers, Tidy RegistryKey f L ∧ L.dflt = shipped ∧ Represents L.view T by
    obtain ⟨L, hL, -, hview⟩ := hinv
    exact hview.congr fun k hk ↦ (hL.stored hread hk (kept_registryKey.ne_nil hk)).symm
  clear hread
  induction h with
  | shipped =>
    refine ⟨_, tidy_shippedFiles RegistryKey, rfl, represents_shipped.congr fun k _ ↦ ?_⟩
    rw [Layers.view, Layers.base, Option.or_self]
    rfl
  | step _ hsafe hmain ih =>
    obtain ⟨L, hL, hd, hview⟩ := ih
    exact hview.main hL hd hsafe hmain

/-! ## One row -/

instance decidableWordFields (R : Registry) (w : World) (p : Proc) : Decidable (R.WordFields w p) :=
  match R with
  | .fw => inferInstanceAs (Decidable (∀ k ∈ fwFields, IsWord (fmtS (getval w k p))))
  | .portfw => inferInstanceAs (Decidable (∀ k ∈ portfwFields, IsWord (fmtS (getval w k p))))
  | .relay => inferInstanceAs (Decidable (∃ name ∈ getval w (cstr "x_sendmail_relay___T") p,
      IsWord name))
  | .zone => inferInstanceAs (Decidable (∃ typ ∈ getval w (cstr "x_named_zone_typ___T") p,
      IsWord typ ∧ ∃ name ∈ getval w (cstr "x_named_zone_name___T") p, IsWord name))

/-- The first addition to a table, as it can be run. -/
theorem managed_of_addition {n : ℕ} {P : Proc → Files → Bool}
    (h : (visitOf World.box r shippedFiles).any (fun (x : Proc × List Arg × Visit) ↦
      (callHook ⟨false, false⟩ World.box (delFlag x.2.1) x.2.2).join.any fun res ↦
        decide ((∀ q ∈ argsPuts World.box x.1 x.2.1, ¬ RegistryKey q.key) ∧
          Writable RegistryKey x.2.2.proc.env ∧
          x.2.2.target ⟨false, false⟩ World.box = some (.registry R) ∧
          (Target.registry R).Fits RegistryKey ⟨World.box, x.2.2.arg1, x.2.2.arg2⟩ x.2.2.proc ∧
          R.newItem World.box x.2.2.proc = decInt (getvalInt World.box R.idKey x.2.2.proc) ∧
          0 ≤ getvalInt World.box R.idKey x.2.2.proc ∧ R.WordFields World.box x.2.2.proc ∧
          res.wrote = true ∧ res.status ≠ .okSave ∧ R.number World.box x.2.2.proc = n) &&
        P x.2.2.proc (res.files shippedFiles)) = true) :
    ∃ f p, Managed ⟨false, false⟩ f (Function.update (fun _ ↦ []) R [(n, R.posted World.box p)]) ∧
      P p f = true := by
  obtain ⟨p, args, v, res, hv, hvis, hres, hfacts⟩ := exists_of_visitOf h
  rw [Bool.and_eq_true, decide_eq_true_eq] at hfacts
  obtain ⟨⟨hpost, hwrite, htarget, hfits, hid, hnonneg, hfields, hw, hstatus, hnumber⟩, hP⟩ :=
    hfacts
  have hsafe : WhenAccepted (RegistrySafe ⟨false, false⟩) World.box r shippedFiles := by
    refine whenAccepted_of_visitOf hv ⟨fun k hk ↦ not_posted_of_forall hpost hk,
      saves_of_target hwrite htarget hfits fun _ _ ↦ Nat.zero_lt_succ _, fun R' hR ↦ ?_⟩
    obtain rfl := Target.registry.inj (Option.some.inj (htarget.symm.trans hR))
    exact ⟨hid, hnonneg, hfields⟩
  have hmanaged := Managed.shipped.step hsafe (main_of_visits hvis hres)
  have htables : tablesAfter ⟨false, false⟩ World.box r shippedFiles (fun _ ↦ [])
      = Function.update (fun _ : Registry ↦ []) R [(n, R.posted World.box v.proc)] := by
    rw [tablesAfter, served_of_visits hvis hres]
    dsimp only
    rw [if_pos hw, Visit.change, htarget]
    dsimp only
    rw [Registry.addRow, hnumber]
    rfl
  rw [htables, files_finish hstatus] at hmanaged
  exact ⟨_, _, hmanaged, hP⟩

end Setup
