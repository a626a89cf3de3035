import SsdLinux.Setup.Moves

/-!
# Lists and records that belong together

`x_fw__` lists the ids of the filter rules and `x_fw__5` is the rule 5; nothing but the code keeps
the two together.  `Integrity` is what the readers of the registries take for granted: every item of
a list is the decimal text of a number, the record of that number is there, and it has as many
pieces as are read from it.

The code keeps it so only for requests that the forms would send.  It takes the id of a zone as it
is posted, and it adds an id to a list whether or not there is anything to file under it
(`badId_breaks`).  `integrity_of_reaches` says what is asked of every request.
-/

set_option autoImplicit false

namespace Setup

open CLib

variable {b : Build} {w : World} {r : Request} {f : Files} {p : Proc} {args : List Arg} {v : Visit}
  {res : Result} {k : Bytes} {R : Registry}

/-! ## What the readers rely on -/

/-- How many pieces of a record are read. -/
def Registry.fieldCount : Registry → ℕ
  | fw => 9
  | portfw => 5
  | relay => 1
  | zone => 2

/-- **Every item of a list stands for a number, and the record of the number is there** with as many
pieces as are read. -/
def Integrity (m : Bytes → Option Bytes) : Prop :=
  ∀ R : Registry, ∀ item ∈ listSplit 0 (some (R.listed m)), ∃ n : ℕ, item = dec n ∧
    ∃ u, m (recKey R.listKey n) = some u ∧ (listSplit 0 (some u)).length = R.fieldCount

/-- The keys of the four lists and of their records. -/
def RegistryKey (k : Bytes) : Prop :=
  persistKey k = true ∧ beginsWith [fwKey, portfwKey, relayKey, zoneKey] k = true

instance decidableRegistryKey (k : Bytes) : Decidable (RegistryKey k) :=
  inferInstanceAs (Decidable (_ ∧ _))

theorem kept_registryKey : Kept RegistryKey where
  persist _ hk := hk.1
  clock k hk hmem := by
    have hclock : ∀ k ∈ clockKeys, beginsWith [fwKey, portfwKey, relayKey, zoneKey] k = false := by
      decide
    rw [RegistryKey, hclock k hmem] at hk
    exact absurd hk.2 Bool.false_ne_true

namespace Registry

theorem registryKey_listKey (R : Registry) : RegistryKey R.listKey := by
  cases R <;> decide

theorem registryKey_recKey (R : Registry) (n : ℕ) : RegistryKey (recKey R.listKey n) := by
  have hlist : persistKey R.listKey = true ∧
      (∀ k ∈ loginKeys, R.listKey.isPrefixOf k = false) ∧
      beginsWith [fwKey, portfwKey, relayKey, zoneKey] R.listKey = true := by
    cases R <;> decide
  obtain ⟨hpers, hlogin, hbegin⟩ := hlist
  rw [recKey, decInt_natCast]
  exact ⟨persistKey_append hpers (not_mem_of_class (dec_isdigit n) (by decide)) hlogin,
    beginsWith_append hbegin _⟩

/-- Six bytes of a key say which registry it is of. -/
theorem eq_of_take {R R' : Registry} (h : R.listKey.take 6 = R'.listKey.take 6) : R = R' := by
  revert h
  cases R <;> cases R' <;> decide

theorem take_recKey (R : Registry) (n : ℤ) : (recKey R.listKey n).take 6 = R.listKey.take 6 := by
  rw [recKey, List.take_append_of_le_length (by cases R <;> decide)]

/-- The name of a record says which registry it is of, and under which number. -/
theorem recKey_inj {R R' : Registry} {n n' : ℤ}
    (h : recKey R.listKey n = recKey R'.listKey n') : R = R' ∧ n = n' := by
  obtain rfl : R = R' := eq_of_take (by rw [← take_recKey R n, h, take_recKey])
  exact ⟨rfl, decInt_injective (List.append_cancel_left h)⟩

/-- No record has the name of a list. -/
theorem recKey_ne_listKey (R R' : Registry) (n : ℤ) : recKey R.listKey n ≠ R'.listKey :=
  recKey_ne_of_last (by cases R' <;> decide) _ n

/-! ## What is asked of an addition -/

/-- Every field of the form is one word. -/
def WordFields (R : Registry) (w : World) (p : Proc) : Prop :=
  match R with
  | fw => ∀ k ∈ fwFields, IsWord (fmtS (getval w k p))
  | portfw => ∀ k ∈ portfwFields, IsWord (fmtS (getval w k p))
  | relay => ∃ name ∈ getval w (cstr "x_sendmail_relay___T") p, IsWord name
  | zone => ∃ typ ∈ getval w (cstr "x_named_zone_typ___T") p, IsWord typ ∧
      ∃ name ∈ getval w (cstr "x_named_zone_name___T") p, IsWord name

/-- An addition that the readers of the registry can use: the id is the text of a number that is not
negative, and every field is one word. -/
structure AddOk (R : Registry) (w : World) (p : Proc) : Prop where
  id : R.newItem w p = decInt (getvalInt w R.idKey p)
  nonneg : 0 ≤ getvalInt w R.idKey p
  fields : R.WordFields w p

/-- **The record of such fields has as many pieces as are read.** -/
theorem length_record (h : R.WordFields w p) :
    ∃ u, R.record w p = some u ∧ (listSplit 0 (some u)).length = R.fieldCount := by
  cases R with
  | fw =>
    refine ⟨_, rfl, ?_⟩
    rw [listSplit_listJoin]
    · rfl
    · refine List.forall_mem_cons.mpr ⟨isWord_decInt _, fun s hs ↦ ?_⟩
      obtain ⟨k, hk, rfl⟩ := List.mem_map.mp hs
      exact h k hk
  | portfw =>
    refine ⟨_, rfl, ?_⟩
    rw [listSplit_listJoin]
    · rfl
    · intro s hs
      obtain ⟨k, hk, rfl⟩ := List.mem_map.mp hs
      exact h k hk
  | relay =>
    obtain ⟨name, hname, hword⟩ := h
    have hsplit := listSplit_listJoin (l := [name]) (List.forall_mem_singleton.mpr hword)
    rw [listJoin_cons, List.map_nil, List.flatten_nil, List.append_nil] at hsplit
    exact ⟨name, hname, by rw [hsplit]; rfl⟩
  | zone =>
    obtain ⟨typ, htyp, hwt, name, hname, hwn⟩ := h
    refine ⟨listJoin [typ, name], ?_, ?_⟩
    · rw [record, htyp, Option.bind_some, hname, Option.map_some]
    · rw [listSplit_listJoin]
      · rfl
      · exact List.forall_mem_cons.mpr ⟨hwt, List.forall_mem_singleton.mpr hwn⟩

/-- What is written for a record touches nothing else of the four registries. -/
theorem stored_recordPuts {u : Bytes} (hu : R.record w p = some u) (hk : RegistryKey k) (n : ℤ)
    (q : Proc) : stored k ((R.recordPuts w p n).foldl Put.run q)
      = if k = recKey R.listKey n then some u else stored k q := by
  have hextras : ∀ e ∈ (R.extras w p n).map fun kv ↦ (⟨kv.1, kv.2, RC_bWRITE⟩ : Put),
      e.key ≠ k := by
    rintro e he rfl
    obtain ⟨kv, hkv, rfl⟩ := List.mem_map.mp he
    have hsoa : beginsWith [cstr "x_named_zone_soa_"] kv.1 = true := by
      cases R with
      | zone =>
        simp only [extras, List.mem_cons, List.not_mem_nil, or_false] at hkv
        rcases hkv with rfl | rfl <;> exact beginsWith_append (by decide) _
      | fw | portfw | relay => cases hkv
    rw [RegistryKey, not_beginsWith (by decide) hsoa] at hk
    exact Bool.false_ne_true hk.2
  rw [recordPuts, records, hu, putsOf, List.map_cons, List.foldl_cons, stored,
    getvalp_foldl_of_not_mem hextras, ← stored, Put.run]
  dsimp only
  split
  · rename_i he
    rw [he]
    exact stored_putval_self (ne_nil_of_isSetting (isSetting_of_persistKey (he ▸ hk).1)) _ _ q
  · exact stored_putval_ne ‹_› _ _ q

end Registry

/-! ## The three moves -/

/-- The items are old ones, or have their record, and every record is an old one, or has as many
pieces as are read. -/
theorem Integrity.mono {m m' : Bytes → Option Bytes} (h : Integrity m)
    (hrec : ∀ (R : Registry) (n : ℕ), m' (recKey R.listKey n) = m (recKey R.listKey n) ∨
      ∃ u, m' (recKey R.listKey n) = some u ∧ (listSplit 0 (some u)).length = R.fieldCount)
    (hlist : ∀ R : Registry, ∀ item ∈ listSplit 0 (some (R.listed m')),
      item ∈ listSplit 0 (some (R.listed m)) ∨ ∃ n : ℕ, item = dec n ∧
        ∃ u, m' (recKey R.listKey n) = some u ∧ (listSplit 0 (some u)).length = R.fieldCount) :
    Integrity m' := by
  intro R item hitem
  rcases hlist R item hitem with hold | hnew
  · obtain ⟨n, hn, u, hu, hlen⟩ := h R item hold
    refine ⟨n, hn, ?_⟩
    rcases hrec R n with hsame | hfiled
    · exact ⟨u, hsame.trans hu, hlen⟩
    · exact hfiled
  · exact hnew

theorem Integrity.congr {m m' : Bytes → Option Bytes} (hm : ∀ k, RegistryKey k → m k = m' k)
    (h : Integrity m) : Integrity m' := by
  refine h.mono (fun R n ↦ .inl (hm _ (R.registryKey_recKey n)).symm) fun R item hitem ↦ .inl ?_
  rwa [Registry.listed, hm _ R.registryKey_listKey]

/-- The items of a list are words. -/
theorem Integrity.isWord {m : Bytes → Option Bytes} (h : Integrity m) :
    ∀ i ∈ listSplit 0 (some (R.listed m)), IsWord i := by
  intro i hi
  obtain ⟨n, rfl, -⟩ := h R i hi
  exact isWord_dec n

/-- The items after one has been taken out. -/
theorem split_delEnt (tgt : Bytes)
    (hwords : ∀ i ∈ listSplit 0 (some (R.listed fun k ↦ stored k p)), IsWord i) :
    listSplit 0 (some (R.listed fun k ↦ stored k (delEnt w R.listKey tgt p)))
      = (listSplit 0 (some (R.listed fun k ↦ stored k p))).erase tgt := by
  rw [Registry.listed, stored_delEnt (by cases R <;> decide), Option.getD_some, Registry.items_eq,
    listRemoveItem, listSplit_listJoin fun i hi ↦ hwords i (List.mem_of_mem_erase hi)]

/-- **Taking an item out keeps the lists and the records together.** -/
theorem Integrity.del (h : Integrity fun k ↦ stored k p) (R : Registry) (tgt : Bytes) :
    Integrity fun k ↦ stored k (delEnt w R.listKey tgt p) := by
  have hother : ∀ k, k ≠ R.listKey → stored k (delEnt w R.listKey tgt p) = stored k p :=
    fun k hk ↦ stored_putval_ne hk _ _ p
  refine h.mono (fun R' n ↦ .inl (hother _ (R'.recKey_ne_listKey R n))) fun R' item hitem ↦ .inl ?_
  by_cases hR : R' = R
  · subst hR
    rw [split_delEnt tgt h.isWord] at hitem
    exact List.mem_of_mem_erase hitem
  · have hne : R'.listKey ≠ R.listKey := fun he ↦ hR (Registry.eq_of_take (by rw [he]))
    rwa [Registry.listed, hother _ hne] at hitem

/-- **An addition that is asked for properly keeps the lists and the records together.** -/
theorem Integrity.add {ctx : Ctx} {arg : Bytes} (h : Integrity fun k ↦ stored k p)
    (hok : R.AddOk ctx.world p) (hadd : (Target.registry R).add ctx arg p = some res) :
    Integrity fun k ↦ stored k res.proc := by
  have hstored : ∀ k, RegistryKey k → stored k res.proc
      = stored k (((Target.registry R).puts ctx p).foldl Put.run p) := fun k hk ↦ by
    refine Target.stored_add hadd hk.1 ?_
    rintro rfl
    exact absurd hk (by decide)
  obtain ⟨u, hu, hlen⟩ := Registry.length_record hok.fields
  by_cases hdup : (Target.registry R).newItem ctx p
      ∈ items ctx.world ((Target.registry R).listKey ctx) p
  · -- the id is there already: nothing is filed, or a record with all its pieces
    have hfiled : ∀ k, RegistryKey k → stored k res.proc = stored k p ∨
        k = recKey R.listKey 4 ∧ stored k res.proc = some u := fun k hk ↦ by
      rw [hstored k hk, Target.puts, if_pos hdup]
      cases R with
      | zone =>
        rw [Target.refiled, Registry.stored_recordPuts hu hk]
        split
        · exact .inr ⟨‹_›, rfl⟩
        · exact .inl rfl
      | fw | portfw | relay => exact .inl rfl
    refine h.mono (fun R' n ↦ ?_) fun R' item hitem ↦ .inl ?_
    · refine (hfiled _ (R'.registryKey_recKey n)).imp_right fun h ↦ ⟨u, h.2, ?_⟩
      rw [(Registry.recKey_inj h.1).1, hlen]
    · rcases hfiled _ R'.registryKey_listKey with hsame | ⟨hk, -⟩
      · rwa [Registry.listed, hsame] at hitem
      · exact absurd hk.symm (Registry.recKey_ne_listKey R R' 4)
  · -- the list gets the id, and the record is filed under it
    obtain ⟨n, hn⟩ := Int.eq_ofNat_of_zero_le hok.nonneg
    have hitem : R.newItem ctx.world p = dec n := by rw [hok.id, hn, decInt_natCast]
    have hfiled : ∀ k, RegistryKey k → k ≠ R.listKey → stored k res.proc
        = if k = recKey R.listKey n then some u else stored k p := fun k hk hne ↦ by
      rw [hstored k hk, Target.puts, if_neg hdup, List.foldl_cons, Target.recordPuts,
        Target.newNumber, hn, Registry.stored_recordPuts hu hk, Put.run]
      exact if_congr Iff.rfl rfl (stored_putval_ne hne _ _ p)
    have hlist : listSplit 0 (some (R.listed fun k ↦ stored k res.proc))
        = listSplit 0 (some (R.listed fun k ↦ stored k p)) ++ [dec n] := by
      have hwords := h.isWord (R := R)
      have hnew : stored R.listKey res.proc = some (R.newList ctx.world p) :=
        Registry.stored_listKey_add hadd hdup
      rw [Registry.listed, hnew, Option.getD_some, Registry.newList, hitem, Registry.items_eq,
        listSplit_listJoin]
      exact List.forall_mem_append.mpr ⟨hwords, List.forall_mem_singleton.mpr (isWord_dec n)⟩
    refine h.mono (fun R' m ↦ ?_) fun R' item hmem ↦ ?_
    · rw [hfiled _ (R'.registryKey_recKey m) (R'.recKey_ne_listKey R m)]
      split
      · rename_i hk
        exact .inr ⟨u, rfl, by rw [hlen, (Registry.recKey_inj hk).1]⟩
      · exact .inl rfl
    · by_cases hR : R' = R
      · subst hR
        rw [hlist, List.mem_append, List.mem_singleton] at hmem
        refine hmem.imp_right fun he ↦ ⟨n, he, u, ?_, hlen⟩
        rw [hfiled _ (R'.registryKey_recKey n) (R'.recKey_ne_listKey R' n), if_pos rfl]
      · refine .inl ?_
        have hne : R'.listKey ≠ R.listKey := fun he ↦ hR (Registry.eq_of_take (by rw [he]))
        rwa [Registry.listed, hfiled _ R'.registryKey_listKey hne,
          if_neg (Registry.recKey_ne_listKey R R' n).symm] at hmem

/-- An addition to the records of a zone is none to the registries. -/
theorem Integrity.add_record {ctx : Ctx} {arg : Bytes} (h : Integrity fun k ↦ stored k p)
    (hadd : Target.record.add ctx arg p = some res) : Integrity fun k ↦ stored k res.proc := by
  refine h.congr fun k hk ↦ (stored_edits (tame_okNamedMaster ctx arg p res hadd) ?_ ?_).symm
  · rintro q hq rfl
    rw [RegistryKey, not_beginsWith (by decide) hq.1] at hk
    exact Bool.false_ne_true hk.2
  · rintro k' hk' rfl
    rw [RegistryKey, show k' = cstr "x_sendmail_relay___T" from hk'] at hk
    exact absurd hk.1 (by decide)

/-! ## Histories -/

/-- A request that keeps the registries in order: it can be saved, it posts nothing under the keys
of the registries themselves, and what it adds to one of them is in order. -/
structure RegistrySafe (b : Build) (w : World) (p : Proc) (args : List Arg) (v : Visit) : Prop where
  posted : ∀ k, RegistryKey k → ¬ Posted w p args k
  saves : Saves b RegistryKey w v
  addOk : ∀ R, v.target b w = some (.registry R) → R.AddOk w v.proc

/-- **What a function of the menu does keeps the lists and the records together.** -/
theorem Integrity.callHook {dFlg : Bool} (h : Integrity fun k ↦ stored k v.proc)
    (hok : ∀ R, v.target b w = some (.registry R) → R.AddOk w v.proc)
    (hres : callHook b w dFlg v = some (some res)) : Integrity fun k ↦ stored k res.proc := by
  cases callHook_moves hres with
  | @add t _ ht _ hadd =>
    cases t with
    | registry R => exact h.add (hok R ht) hadd
    | record => exact h.add_record hadd
  | @del key tgt hdel hproc =>
    rw [hproc]
    rcases deletes_cases hdel with ⟨R, rfl⟩ | rfl
    · exact h.del R tgt
    · refine h.congr fun k hk ↦ (stored_putval_ne ?_ _ _ _).symm
      rintro rfl
      have hrec : beginsWith [cstr "x_named_zone_record__"]
          (cstr "x_named_zone_record__" ++ (v.arg2 ++ cstr "__")) = true :=
        beginsWith_append (by decide) _
      rw [RegistryKey, List.append_assoc, not_beginsWith (by decide) hrec] at hk
      exact Bool.false_ne_true hk.2
  | same hsame _ _ =>
    refine h.congr fun k hk ↦ (hsame k hk.1 (beginsWith_mono ?_ hk.2)).symm
    decide

/-- **In every store that is reached, the lists and the records belong together**, if every request
that is accepted on the way is in order. -/
theorem integrity_of_reaches (hreach : Reaches b (WhenAccepted (RegistrySafe b)) shippedFiles f)
    {environ : Bytes → Option Bytes} (hread : readConf w f environ = some p) :
    Integrity fun k ↦ stored k p := by
  refine invariant_of_reaches (Q := Integrity) kept_registryKey (fun m m' hm h ↦ h.congr hm) ?_
    (fun w p args v hsafe ↦ ⟨hsafe.posted, hsafe.saves⟩)
    (fun w p args v _ res hsafe hres h ↦ h.callHook hsafe.addOk hres) hreach hread
  have hnone : ∀ R : Registry, lookup R.listKey shipped = none := by
    intro R
    cases R <;> decide +kernel
  intro R item hitem
  rw [Registry.listed, hnone R] at hitem
  cases hitem

/-! ## A rule, and a zone without a number -/

theorem integrity_rule : ∃ o, main ⟨false, false⟩ World.box ruleRequest shippedFiles = some o ∧
    Reaches ⟨false, false⟩ (WhenAccepted (RegistrySafe ⟨false, false⟩)) shippedFiles o.files ∧
    ∀ environ p, readConf World.box o.files environ = some p → Integrity fun k ↦ stored k p := by
  have hfacts : (visitOf World.box ruleRequest shippedFiles).any
      (fun (x : Proc × List Arg × Visit) ↦
        (callHook ⟨false, false⟩ World.box (delFlag x.2.1) x.2.2).join.any fun _ ↦
          decide ((∀ q ∈ argsPuts World.box x.1 x.2.1, ¬ RegistryKey q.key) ∧
            Writable RegistryKey x.2.2.proc.env ∧
            x.2.2.target ⟨false, false⟩ World.box = some (.registry .fw) ∧
            (Target.registry .fw).Fits RegistryKey ⟨World.box, x.2.2.arg1, x.2.2.arg2⟩
              x.2.2.proc ∧
            Registry.fw.newItem World.box x.2.2.proc
              = decInt (getvalInt World.box Registry.fw.idKey x.2.2.proc) ∧
            0 ≤ getvalInt World.box Registry.fw.idKey x.2.2.proc ∧
            ∀ k ∈ fwFields, IsWord (fmtS (getval World.box k x.2.2.proc)))) = true := by
    decide +kernel
  obtain ⟨p, args, v, res, hv, hvis, hres, hfacts⟩ := exists_of_visitOf hfacts
  rw [decide_eq_true_eq] at hfacts
  obtain ⟨hpost, hwrite, htarget, hfits, hid, hnonneg, hfields⟩ := hfacts
  have hmain := main_of_visits hvis hres
  have hsafe : WhenAccepted (RegistrySafe ⟨false, false⟩) World.box ruleRequest shippedFiles := by
    refine whenAccepted_of_visitOf hv ⟨fun k hk ↦ not_posted_of_forall hpost hk,
      saves_of_target hwrite htarget hfits fun _ _ ↦ Nat.zero_lt_succ _, fun R hR ↦ ?_⟩
    obtain rfl := Target.registry.inj (Option.some.inj (htarget.symm.trans hR))
    exact ⟨hid, hnonneg, hfields⟩
  have hreach : Reaches ⟨false, false⟩ (WhenAccepted (RegistrySafe ⟨false, false⟩))
      shippedFiles _ :=
    .single ⟨_, _, _, hmain, hsafe, rfl⟩
  exact ⟨_, hmain, hreach, fun environ p hread ↦ integrity_of_reaches hreach hread⟩

/-- A request for a zone with an id that is no number. -/
def badIdRequest : Request :=
  boxRequest (loginArgs ++ cstr "op=named&s_ok2=1&typ=named&i_named_zone_id=abc"
    ++ cstr "&i_named_zone_typ___T=master&i_named_zone_name___T=example.jp")

/-- It is accepted, and the id stands in the list of the zones. -/
theorem badId_breaks : ∃ f p, Reaches ⟨false, false⟩
      (fun w r f ↦ ∃ p args v, Visits w r f p args v ∧ errChk w v.proc = some []) shippedFiles f ∧
    readConf World.box f insideEnv = some p ∧ ¬ Integrity fun k ↦ stored k p := by
  have hfacts : (visitOf World.box badIdRequest shippedFiles).any
      (fun (x : Proc × List Arg × Visit) ↦
        (callHook ⟨false, false⟩ World.box (delFlag x.2.1) x.2.2).join.any fun res ↦
          decide (errChk World.box x.2.2.proc = some [] ∧ res.status ≠ .okSave) &&
          (readConf World.box (res.files shippedFiles) insideEnv).any fun p ↦
            decide (cstr "abc" ∈ listSplit 0 (some (Registry.zone.listed fun k ↦ stored k p))))
      = true := by
    decide +kernel
  obtain ⟨p, args, v, res, -, hvis, hres, hfacts⟩ := exists_of_visitOf hfacts
  simp only [Bool.and_eq_true, decide_eq_true_eq, Option.any_eq_true] at hfacts
  obtain ⟨⟨herr, hstatus⟩, p', hread, hmem⟩ := hfacts
  refine ⟨_, p', .single ⟨_, _, _, main_of_visits hvis hres, ⟨p, args, v, hvis, herr⟩,
    files_finish hstatus⟩, hread, fun hint ↦ ?_⟩
  obtain ⟨n, hn, -⟩ := hint .zone _ hmem
  exact absurd (dec_isdigit n 97 (hn ▸ List.mem_cons_self)) (by decide)

end Setup
