import SsdLinux.Setup.Duplicate

/-!
# Ids that `nextval` offers

The form for a new item of a list offers the id after the last one of the list (`func_nextval`).
The lists are kept as text, `del_ent` compares items as text, and the id offered comes from the
number an item is read as.  `IdList` is what such a list stands for: numbers that increase strictly.
Its three operations are mirrored by the text:

* `nextval_text`: the id offered is the next number, in decimal;
* `listPush_text`: pushing its text adds the next number at the end;
* `remove_items`: removing an item by its text takes out the number, and nothing else.

`Generated` are the stores that come about when a list is only touched in these ways, and
`generated_fresh` carries the correspondence over any number of them.
-/

set_option autoImplicit false

namespace Setup

open CLib

/-- `func_nextval` of a list with this text. -/
def nextval (list : Bytes) : Bytes :=
  match (listSplit 0 (some list)).getLast? with
  | some item => decInt (BitVec.ofInt 32 (atoi item + 1)).toInt
  | none => cstr "0"

/-! ## Increasing lists of numbers -/

/-- Ids below `INT_MAX`, in increasing order. -/
structure IdList where
  vals : List ℕ
  increasing : vals.Pairwise (· < ·)
  below : ∀ n ∈ vals, n < 2147483647

namespace IdList

def empty : IdList := ⟨[], .nil, List.forall_mem_nil _⟩

/-- The number after the last one. -/
def next (s : IdList) : ℕ := (s.vals.getLast?.map (· + 1)).getD 0

theorem lt_next (s : IdList) : ∀ n ∈ s.vals, n < s.next := by
  intro n hn
  rcases List.eq_nil_or_concat' s.vals with h | ⟨l, m, h⟩
  · rw [h] at hn
    cases hn
  · have hinc := s.increasing
    rw [h, List.pairwise_append] at hinc
    rw [next, h, List.getLast?_concat]
    rw [h, List.mem_append, List.mem_singleton] at hn
    rcases hn with hn | rfl
    · exact Nat.lt_succ_of_lt (hinc.2.2 n hn m (List.mem_singleton_self m))
    · exact Nat.lt_succ_self n

theorem nodup (s : IdList) : s.vals.Nodup := s.increasing.imp Nat.ne_of_lt

/-- The list with the next number. -/
def push (s : IdList) (h : s.next < 2147483647) : IdList where
  vals := s.vals ++ [s.next]
  increasing := by
    refine List.pairwise_append.mpr ⟨s.increasing, List.pairwise_singleton _ _, fun n hn m hm ↦ ?_⟩
    rw [List.mem_singleton.mp hm]
    exact s.lt_next n hn
  below n hn := by
    rcases List.mem_append.mp hn with hn | hn
    · exact s.below n hn
    · rwa [List.mem_singleton.mp hn]

/-- The list without the number that is written `tgt`. -/
def remove (s : IdList) (tgt : Bytes) : IdList where
  vals := s.vals.filter fun n ↦ decide (dec n ≠ tgt)
  increasing := s.increasing.filter _
  below n hn := s.below n (List.mem_of_mem_filter hn)

theorem remove_next (s : IdList) (h : s.next < 2147483647) :
    ((s.push h).remove (dec s.next)).vals = s.vals := by
  have hold : ∀ n ∈ s.vals, decide (dec n ≠ dec s.next) = true := fun n hn ↦
    decide_eq_true fun he ↦ (s.lt_next n hn).ne (dec_injective he)
  have hnew : decide (dec s.next ≠ dec s.next) = false := decide_eq_false fun he ↦ he rfl
  change List.filter _ (s.vals ++ [s.next]) = s.vals
  rw [List.filter_append, List.filter_eq_self.mpr hold,
    List.filter_singleton, hnew, cond_false, List.append_nil]

/-! ## Their text -/

/-- The items of the list. -/
def items (s : IdList) : List Bytes := s.vals.map dec

/-- The text of the list. -/
def text (s : IdList) : Bytes := listJoin s.items

theorem isWord_items (s : IdList) : ∀ i ∈ s.items, IsWord i := by
  intro i hi
  obtain ⟨n, -, rfl⟩ := List.mem_map.mp hi
  exact isWord_dec n

theorem listSplit_text (s : IdList) : listSplit 0 (some s.text) = s.items :=
  listSplit_listJoin s.isWord_items

/-- **The id that is offered is the next number.** -/
theorem nextval_text (s : IdList) : nextval s.text = dec s.next := by
  rw [nextval, listSplit_text, items, List.getLast?_map, next]
  cases h : s.vals.getLast? with
  | none => rfl
  | some n =>
    have hn : n < 2147483647 := s.below n (List.mem_of_getLast? h)
    have hnat : (BitVec.ofInt 32 ((n : ℤ) + 1)).toInt = ((n + 1 : ℕ) : ℤ) := by
      rw [BitVec.toInt_ofInt, Int.bmod_eq_of_le (by omega) (by omega)]
      rfl
    rw [Option.map_some, Option.map_some, Option.getD_some]
    dsimp only
    rw [atoi_dec (by omega), hnat, decInt_natCast]

theorem next_not_mem (s : IdList) : dec s.next ∉ s.items := by
  intro h
  obtain ⟨n, hn, he⟩ := List.mem_map.mp h
  exact (s.lt_next n hn).ne (dec_injective he)

theorem listPush_text (s : IdList) (h : s.next < 2147483647) :
    listJoin (listPush s.items (dec s.next)) = (s.push h).text := by
  rw [text, items, items, push, List.map_append, List.map_singleton, listPush]

/-- **An item is removed, and the others stay in their order.** -/
theorem remove_items (s : IdList) (tgt : Bytes) :
    listRemoveItem s.items tgt = (s.remove tgt).items ∧
      listRemoveItem s.items tgt = s.items.filter fun i ↦ decide (i ≠ tgt) := by
  have herase : listRemoveItem s.items tgt = s.items.filter fun i ↦ decide (i ≠ tgt) := by
    have hnodup : s.items.Nodup := s.nodup.map dec_injective
    rw [listRemoveItem, hnodup.erase_eq_filter]
    exact List.filter_congr fun i _ ↦ by by_cases h : i = tgt <;> simp [h]
  refine ⟨?_, herase⟩
  rw [herase, items, remove, items, List.filter_map]
  rfl

end IdList

/-! ## What the functions do to such a list -/

namespace Target

variable {t : Target} {ctx : Ctx} {arg : Bytes} {p : Proc} {res : Result}

def idKey : Target → Bytes
  | registry R => R.idKey
  | record => cstr "x_named_zone_record_id"

theorem listKey_ne_nil (t : Target) (ctx : Ctx) : t.listKey ctx ≠ [] := by
  cases t with
  | registry R => exact (by cases R <;> decide : R.listKey ≠ [])
  | record => exact List.append_ne_nil_of_left_ne_nil (List.append_ne_nil_of_left_ne_nil
      (by decide) _) _

/-- What the key of a list is not. -/
theorem listKey_ne {k : Bytes} (hk : k ∉ [fwKey, portfwKey, relayKey, zoneKey])
    (hpre : (cstr "x_named_zone_record__").isPrefixOf k = false) (t : Target) (ctx : Ctx) :
    t.listKey ctx ≠ k := by
  rintro rfl
  cases t with
  | registry R => exact hk (by cases R <;> decide : R.listKey ∈ _)
  | record =>
    rw [listKey, recordListKey, List.append_assoc,
      List.isPrefixOf_iff_prefix.mpr (List.prefix_append _ _)] at hpre
    cases hpre

/-- The key of a list is none of those that the clock answers. -/
theorem listKey_not_clock (t : Target) (ctx : Ctx) : t.listKey ctx ∉ clockKeys := by
  have hclock : ∀ k ∈ clockKeys, k ∉ [fwKey, portfwKey, relayKey, zoneKey] ∧
      (cstr "x_named_zone_record__").isPrefixOf k = false := by decide
  exact fun h ↦ listKey_ne (hclock _ h).1 (hclock _ h).2 t ctx rfl

theorem getval3_listKey (t : Target) (ctx : Ctx) (p : Proc) :
    getval3 ctx.world (t.listKey ctx) p = (stored (t.listKey ctx) p).getD [] :=
  getval3_eq (t.listKey_not_clock ctx) p

/-- The item for an id that is posted in decimal. -/
theorem newItem_of_dec {n : ℕ} (hid : getval ctx.world t.idKey p = some (dec n))
    (hn : n ≤ 2147483647) : t.newItem ctx p = dec n := by
  have hint : ∀ R : Registry, getval ctx.world R.idKey p = some (dec n) →
      decInt (getvalInt ctx.world R.idKey p) = dec n := fun R h ↦ by
    rw [getvalInt, h, Option.map_some, Option.getD_some, atoi_dec hn, decInt_natCast]
  cases t with
  | registry R =>
    cases R with
    | fw | portfw | relay => exact hint _ hid
    | zone =>
      rw [newItem, Registry.newItem, getval3,
        show getval ctx.world Registry.zone.idKey p = _ from hid]
      rfl
  | record =>
    rw [newItem, show getval ctx.world (cstr "x_named_zone_record_id") p = _ from hid]
    rfl

/-- **Adding leaves the list with the new item.** -/
theorem stored_listKey_add (h : t.add ctx arg p = some res)
    (hnew : t.newItem ctx p ∉ Setup.items ctx.world (t.listKey ctx) p) :
    stored (t.listKey ctx) res.proc
      = some (listJoin (Setup.items ctx.world (t.listKey ctx) p ++ [t.newItem ctx p])) := by
  have hrecords : ∀ q ∈ t.recordPuts ctx p (t.newNumber ctx p), q.key ≠ t.listKey ctx := by
    intro q hq
    cases t with
    | registry R =>
      obtain ⟨kv, hkv, rfl⟩ := List.mem_map.mp hq
      exact Registry.key_records_ne hkv
    | record =>
      have hk := List.mem_map_of_mem (f := Put.key) hq
      rcases map_key_zoneRecordPuts ctx p _ with hkeys | hkeys <;> rw [recordPuts, hkeys] at hk
      · cases hk
      · rw [List.mem_singleton.mp hk]
        exact Registry.recKey_ne_self _ _
  have hwritten : stored (t.listKey ctx) ((t.puts ctx p).foldl Put.run (t.prepare ctx p))
      = some (t.newList ctx p) := by
    rw [puts, if_neg hnew, List.foldl_cons, stored, getvalp_foldl_of_not_mem hrecords, ← stored]
    exact stored_putval_self (t.listKey_ne_nil ctx) _ _ _
  rcases proc_add h with hproc | hproc <;> rw [hproc]
  · exact hwritten
  · rw [stored, getvalp_delval_ne (listKey_ne (by decide) (by decide) t ctx), ← stored]
    exact hwritten

end Target

theorem stored_delEnt {w : World} {key tgt : Bytes} (hne : key ≠ []) (p : Proc) :
    stored key (delEnt w key tgt p) = some (listJoin (listRemoveItem (items w key p) tgt)) := by
  rw [delEnt, stored_putval_self hne, listSplit_getval]

/-! ## Stores in which only such ids are added -/

/-- The stores that come about from an empty list when ids are added as they are offered and taken
out at will, whatever else happens to the store. -/
inductive Generated (t : Target) (ctx : Ctx) : Proc → Prop
  | start {p : Proc} (h : stored (t.listKey ctx) p = none ∨ stored (t.listKey ctx) p = some []) :
      Generated t ctx p
  | other {p p' : Proc} (h : Generated t ctx p)
      (hsame : stored (t.listKey ctx) p' = stored (t.listKey ctx) p) : Generated t ctx p'
  | add {p : Proc} {arg : Bytes} {res : Result} (h : Generated t ctx p)
      (hid : getval ctx.world t.idKey p = some (nextval (getval3 ctx.world (t.listKey ctx) p)))
      (hmax : atoi (nextval (getval3 ctx.world (t.listKey ctx) p)) < 2147483647)
      (hadd : t.add ctx arg p = some res) : Generated t ctx res.proc
  | del {p : Proc} (h : Generated t ctx p) (tgt : Bytes) :
      Generated t ctx (delEnt ctx.world (t.listKey ctx) tgt p)

variable {t : Target} {ctx : Ctx} {arg : Bytes} {p : Proc} {res : Result}

/-- The store holds the list `s`; an empty list may be absent. -/
def Holds (t : Target) (ctx : Ctx) (p : Proc) (s : IdList) : Prop :=
  getval3 ctx.world (t.listKey ctx) p = s.text

theorem Holds.items {s : IdList} (h : Holds t ctx p s) :
    items ctx.world (t.listKey ctx) p = s.items := by
  rw [Setup.items, h, s.listSplit_text]

theorem Holds.nextval {s : IdList} (h : Holds t ctx p s) :
    nextval (getval3 ctx.world (t.listKey ctx) p) = dec s.next := by
  rw [h, s.nextval_text]

/-- The next number is below the limit if the id that is offered is. -/
theorem Holds.next_lt {s : IdList} (h : Holds t ctx p s)
    (hmax : atoi (Setup.nextval (getval3 ctx.world (t.listKey ctx) p)) < 2147483647) :
    s.next < 2147483647 := by
  rw [h.nextval, atoi_dec_eq, clampInt] at hmax
  omega

theorem Holds.of_stored {s : IdList} (h : stored (t.listKey ctx) p = some s.text) :
    Holds t ctx p s := by
  rw [Holds, t.getval3_listKey, h, Option.getD_some]

/-- **Adding the id that is offered adds the next number.** -/
theorem Holds.add {s : IdList} (h : Holds t ctx p s)
    (hid : getval ctx.world t.idKey p = some (Setup.nextval (getval3 ctx.world (t.listKey ctx) p)))
    (hmax : s.next < 2147483647) (hadd : t.add ctx arg p = some res) :
    Holds t ctx res.proc (s.push hmax) := by
  rw [h.nextval] at hid
  have hitem := Target.newItem_of_dec hid hmax.le
  have hnew : t.newItem ctx p ∉ Setup.items ctx.world (t.listKey ctx) p := by
    rw [hitem, h.items]
    exact s.next_not_mem
  refine .of_stored ?_
  rw [Target.stored_listKey_add hadd hnew, hitem, h.items, ← s.listPush_text hmax, listPush]

/-- **Deleting takes the item out.** -/
theorem Holds.del {s : IdList} (h : Holds t ctx p s) (tgt : Bytes) :
    Holds t ctx (delEnt ctx.world (t.listKey ctx) tgt p) (s.remove tgt) := by
  refine .of_stored ?_
  rw [stored_delEnt (t.listKey_ne_nil ctx), h.items, (s.remove_items tgt).1, IdList.text]

/-- The list of such a store is always an increasing one. -/
theorem Generated.holds (h : Generated t ctx p) : ∃ s, Holds t ctx p s := by
  induction h with
  | start h =>
    refine ⟨.empty, ?_⟩
    rw [Holds, t.getval3_listKey]
    rcases h with h | h <;> rw [h] <;> rfl
  | other _ hsame ih =>
    obtain ⟨s, hs⟩ := ih
    exact ⟨s, by rwa [Holds, t.getval3_listKey, hsame, ← t.getval3_listKey]⟩
  | add _ hid hmax hadd ih =>
    obtain ⟨s, hs⟩ := ih
    exact ⟨_, hs.add hid (hs.next_lt hmax) hadd⟩
  | del _ tgt ih =>
    obtain ⟨s, hs⟩ := ih
    exact ⟨_, hs.del tgt⟩

/-- **Ids that are generated are fresh**, in every store that adding and deleting them leads to. -/
theorem generated_fresh (h : Generated t ctx p) : ∃ ids : List ℕ,
    ids.Pairwise (· < ·) ∧ items ctx.world (t.listKey ctx) p = ids.map dec ∧
    (∃ n, nextval (getval3 ctx.world (t.listKey ctx) p) = dec n ∧ ∀ m ∈ ids, m < n) ∧
    nextval (getval3 ctx.world (t.listKey ctx) p) ∉ items ctx.world (t.listKey ctx) p ∧
    (∀ tgt, items ctx.world (t.listKey ctx) (delEnt ctx.world (t.listKey ctx) tgt p)
      = (items ctx.world (t.listKey ctx) p).filter fun i ↦ decide (i ≠ tgt)) ∧
    ∀ arg res,
      getval ctx.world t.idKey p = some (nextval (getval3 ctx.world (t.listKey ctx) p)) →
      atoi (nextval (getval3 ctx.world (t.listKey ctx) p)) < 2147483647 →
      t.add ctx arg p = some res →
      getval3 ctx.world (t.listKey ctx) (delEnt ctx.world (t.listKey ctx)
          (nextval (getval3 ctx.world (t.listKey ctx) p)) res.proc)
        = getval3 ctx.world (t.listKey ctx) p := by
  obtain ⟨s, hs⟩ := h.holds
  refine ⟨s.vals, s.increasing, hs.items, ⟨s.next, hs.nextval, s.lt_next⟩, ?_, fun tgt ↦ ?_, ?_⟩
  · rw [hs.nextval, hs.items]
    exact s.next_not_mem
  · rw [(hs.del tgt).items, ← (s.remove_items tgt).1, (s.remove_items tgt).2, hs.items]
  · intro arg res hid hmax hadd
    have hback := (hs.add hid (hs.next_lt hmax) hadd).del (dec s.next)
    rw [hs.nextval, hback, hs, IdList.text, IdList.items, s.remove_next (hs.next_lt hmax),
      IdList.text, IdList.items]

/-- A box without rules, and a request with the first id. -/
def firstRequest : Proc := putval (cstr "x_fw_id") (cstr "0") 3 ⟨[], fun _ ↦ none⟩

/-- The box with its first rule. -/
def firstRule : Proc :=
  (addId World.bare fwKey (cstr "x_fw_id") (fwRecord World.bare) firstRequest).proc

theorem generated_firstRule : items World.bare fwKey firstRule = [cstr "0"] ∧
    ∃ ids : List ℕ, ids.Pairwise (· < ·) ∧ items World.bare fwKey firstRule = ids.map dec ∧
      ∃ n, nextval (getval3 World.bare fwKey firstRule) = dec n ∧ ∀ m ∈ ids, m < n := by
  have hgen : Generated (.registry .fw) ⟨World.bare, [], []⟩ firstRule :=
    .add (.start (.inl rfl)) (by decide +kernel) (by decide +kernel)
      (show (Target.registry .fw).add _ (cstr "2") firstRequest = some _ from rfl)
  obtain ⟨ids, hinc, hitems, hnext, -⟩ := generated_fresh hgen
  exact ⟨by decide +kernel, ids, hinc, hitems, hnext⟩

end Setup
