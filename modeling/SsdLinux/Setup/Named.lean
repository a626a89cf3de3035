import SsdLinux.Setup.Generators

/-!
# `named.conf`: is every zone served?

`rc2named` calls `rc2named_zone` for one zone after the other and gives up with the first call that
does not return 1.  So a zone whose record has not two pieces, or whose file cannot be opened, takes
all the zones behind it out of `named.conf`, and their files are not written either.  And an item of
the list that is too long for the arrays the names of its settings are printed into may take the
whole file with it.  `zones_served_iff` says that nothing else keeps a well-formed zone out.
-/

set_option autoImplicit false

namespace Setup

open CLib

variable {m : Machine} {w : World} {serial : ℤ} {p : Proc}

/-- The calls in the loop are those for the items up to the first that fails, and for that one. -/
theorem getElem?_zoneCalls {zone : Bytes → ZoneOut} {l : List Bytes} {i : ℕ} {no : Bytes}
    (hno : l[i]? = some no) : (zoneCalls zone l)[i]? = some (zone no) ↔
      ∀ j no', j < i → l[j]? = some no' → (zone no').ret = true := by
  induction l generalizing i with
  | nil => cases hno
  | cons a l ih =>
    cases i with
    | zero =>
      obtain rfl := Option.some.inj hno
      exact iff_of_true rfl fun j _ hj ↦ absurd hj (Nat.not_lt_zero j)
    | succ i =>
      rw [List.getElem?_cons_succ] at hno
      rw [zoneCalls, List.getElem?_cons_succ]
      cases hret : (zone a).ret with
      | false =>
        rw [if_neg Bool.false_ne_true]
        refine iff_of_false (by simp) fun h ↦ ?_
        rw [h 0 a (Nat.succ_pos i) rfl] at hret
        cases hret
      | true =>
        rw [if_pos rfl, ih hno]
        constructor
        · intro h j no' hj hno'
          cases j with
          | zero => exact Option.some.inj hno' ▸ hret
          | succ j => exact h j no' (Nat.lt_of_succ_lt_succ hj) hno'
        · exact fun h j no' hj hno' ↦ h (j + 1) no' (Nat.succ_lt_succ hj) hno'

/-! ## What a zone needs -/

/-- The items of the list of zones. -/
def zones (w : World) (p : Proc) : List Bytes := listSplit 0 (some (getval3 w zoneKey p))

/-- The pieces of the entry of a zone. -/
def zonePieces (w : World) (p : Proc) (no : Bytes) : List Bytes :=
  listSplit 0 (some (getval3 w (zoneKey ++ no) p))

/-- The entry of the zone is in order: there are two pieces, and it is a master whose file can be
opened, or a slave. -/
def ZoneOk (m : Machine) (w : World) (p : Proc) (no : Bytes) : Prop :=
  ∃ typ name, zonePieces w p no = [typ, name] ∧
    (typ = cstr "master" ∧ m.writable (zonedbPath name) = true ∨ typ = cstr "slave")

/-- The entry of the zone makes `rc2named_zone` give up: there are not two pieces, or it is a master
whose file cannot be opened. -/
def ZoneFails (m : Machine) (w : World) (p : Proc) (no : Bytes) : Prop :=
  ∀ typ name, zonePieces w p no = [typ, name] →
    typ = cstr "master" ∧ m.writable (zonedbPath name) = false

/-- What `named.conf` should say about a zone whose entry is in order. -/
def stanza (w : World) (p : Proc) (no : Bytes) : Bytes :=
  match zonePieces w p no with
  | [typ, name] =>
    if typ = cstr "master" then masterStanza name
    else slaveStanza name (getval3 w (cstr "x_named_zone_master__" ++ no) p)
  | _ => []

/-- The file that should be written for a master. -/
def zonedbFile (w : World) (serial : ℤ) (p : Proc) (no : Bytes) : Option (Bytes × Bytes) :=
  match zonePieces w p no with
  | [typ, name] =>
    if typ = cstr "master" then
      some (zonedbPath name,
        zonedbHead name (fmtS (getval w (cstr "x_named_zone_soa_mname__" ++ no) p))
          (fmtS (getval w (cstr "x_named_zone_soa_rname__" ++ no) p)) serial
          ++ rc2namedZonedb w no p)
    else none
  | _ => none

/-- **For a zone in order, `rc2named_zone` prints what it should and returns 1.** -/
theorem rc2namedZone_of_ok {no : Bytes} (h : ZoneOk m w p no) :
    rc2namedZone m w serial p no = ⟨stanza w p no, zonedbFile w serial p no, true⟩ := by
  obtain ⟨typ, name, hp, ⟨rfl, hw⟩ | rfl⟩ := h
  · have hsplit := hp
    rw [zonePieces] at hsplit
    rw [rc2namedZone, stanza, zonedbFile, hp, hsplit]
    simp only [if_pos, hw]
  · have hsplit := hp
    rw [zonePieces] at hsplit
    have hne : cstr "slave" ≠ cstr "master" := by decide
    rw [rc2namedZone, stanza, zonedbFile, hp, hsplit]
    simp only [if_neg hne, if_pos]

theorem ret_rc2namedZone {no : Bytes} :
    (rc2namedZone m w serial p no).ret = false ↔ ZoneFails m w p no := by
  rw [rc2namedZone, ZoneFails, zonePieces]
  split
  · rename_i typ name h
    simp only [h, List.cons.injEq, and_true, and_imp]
    by_cases hm : typ = cstr "master"
    · rw [if_pos hm]
      cases hw : m.writable (zonedbPath name) <;> simp [hm, hw]
    · rw [if_neg hm]
      split <;> simp [hm]
  · rename_i h
    exact iff_of_true rfl fun typ name he ↦ absurd he (h typ name)

/-! ## Is it served? -/

/-- The item `no`, in place `i` of the list, is served: `rc2named_zone` is called for it, its stanza
is in `named.conf`, and the file of a master is written. -/
structure Served (m : Machine) (w : World) (serial : ℤ) (p : Proc) (i : ℕ) (no : Bytes) :
    Prop where
  call : (namedCalls m w serial p)[i]? = some (rc2namedZone m w serial p no)
  conf : ∃ text, (namedConf, text) ∈ (rc2named m w serial p).files ∧ stanza w p no <:+: text
  db : ∀ file ∈ zonedbFile w serial p no, file ∈ (rc2named m w serial p).files

/-- What `rc2named` writes. -/
theorem files_rc2named {base : Bytes} (hbase : m.read namedDefault = some base)
    (hconf : m.writable namedConf = true) : (rc2named m w serial p).files =
      (namedConf, cstr "# setup.cgi (named)\n" ++ (fgetsAll 511 base).flatten
        ++ ((namedCalls m w serial p).map ZoneOut.conf).flatten)
        :: (namedCalls m w serial p).filterMap ZoneOut.db := by
  rw [rc2named, hbase]
  dsimp only
  rw [if_pos hconf]
  rfl

/-- A zone in order is served if none before it fails. -/
theorem served_of_ok {base no : Bytes} {i : ℕ} (hbase : m.read namedDefault = some base)
    (hconf : m.writable namedConf = true) (hi : (zones w p)[i]? = some no) (hok : ZoneOk m w p no)
    (hbefore : ∀ j no', j < i → (zones w p)[j]? = some no' → ¬ ZoneFails m w p no') :
    Served m w serial p i no := by
  have hcall : (namedCalls m w serial p)[i]? = some (rc2namedZone m w serial p no) := by
    refine (getElem?_zoneCalls hi).2 fun j no' hj hno' ↦ ?_
    rw [← Bool.not_eq_false, ret_rc2namedZone]
    exact hbefore j no' hj hno'
  have hmem := List.mem_of_getElem? hcall
  rw [rc2namedZone_of_ok hok] at hmem
  refine ⟨hcall, ⟨_, by rw [files_rc2named hbase hconf]; exact List.mem_cons_self, ?_⟩,
    fun file hfile ↦ ?_⟩
  · exact (List.infix_of_mem_flatten (List.mem_map_of_mem (f := ZoneOut.conf) hmem)).trans
      (List.suffix_append _ _).isInfix
  · rw [files_rc2named hbase hconf]
    exact List.mem_cons_of_mem _ (List.mem_filterMap.2 ⟨_, hmem, hfile⟩)

/-! ## Do the names fit? -/

/-- A loop that goes on behind the items with `ok` comes to `b`. -/
def ComesTo {α : Type} (ok : α → Prop) (l : List α) (b : α) : Prop :=
  ∃ pre post, l = pre ++ b :: post ∧ ∀ a ∈ pre, ok a

theorem comesTo_cons {α : Type} {ok : α → Prop} {a b : α} {l : List α} :
    ComesTo ok (a :: l) b ↔ b = a ∨ ok a ∧ ComesTo ok l b := by
  constructor
  · rintro ⟨pre, post, hl, hpre⟩
    cases pre with
    | nil => exact .inl (List.cons.inj hl).1.symm
    | cons c pre =>
      obtain ⟨rfl, htail⟩ := List.cons.inj hl
      rw [List.forall_mem_cons] at hpre
      exact .inr ⟨hpre.1, pre, post, htail, hpre.2⟩
  · rintro (rfl | ⟨ha, pre, post, rfl, hpre⟩)
    · exact ⟨[], l, rfl, List.forall_mem_nil _⟩
    · exact ⟨a :: pre, post, rfl, List.forall_mem_cons.2 ⟨ha, hpre⟩⟩

/-- **The loop comes to its end exactly if each call that it comes to does.** -/
theorem zoneCallsIn_eq_some_iff {zone : Bytes → ZoneOut} {P : Bytes → Prop} [DecidablePred P]
    {l : List Bytes} {calls : List ZoneOut} :
    zoneCallsIn (fun no ↦ if P no then some (zone no) else none) l = some calls ↔
      calls = zoneCalls zone l ∧ ∀ no, ComesTo (fun a ↦ (zone a).ret = true) l no → P no := by
  induction l generalizing calls with
  | nil =>
    rw [zoneCallsIn, zoneCalls, Option.some.injEq, eq_comm]
    refine (and_iff_left ?_).symm
    rintro no ⟨pre, post, h, -⟩
    simp at h
  | cons a l ih =>
    simp only [comesTo_cons, forall_eq_or_imp]
    rw [zoneCallsIn, zoneCalls]
    by_cases ha : P a
    · rw [if_pos ha, Option.bind_some]
      cases hret : (zone a).ret with
      | false =>
        simp only [Bool.false_eq_true, if_false, false_and, false_imp_iff, implies_true, and_true,
          Option.some.injEq, ha, eq_comm (a := calls)]
      | true =>
        simp only [if_true, Option.map_eq_some_iff, ih, ha, true_and]
        constructor
        · rintro ⟨calls', ⟨rfl, h⟩, rfl⟩
          exact ⟨rfl, h⟩
        · rintro ⟨rfl, h⟩
          exact ⟨_, ⟨rfl, h⟩, rfl⟩
    · simp [ha]

/-- The names that are printed for a zone fit into their arrays if the item is not too long. -/
theorem zoneFits_iff {no : Bytes} : ZoneFits m w p no ↔
    no.length ≤ 113 ∧ ∀ name, zonePieces w p no = [cstr "slave", name] → no.length ≤ 106 := by
  have hzone : (zoneKey ++ no).length = 14 + no.length := by
    rw [List.length_append]
    rfl
  have hkey : (zonedbKey no).length = 23 + no.length := by
    rw [zonedbKey, List.length_append, List.length_append]
    exact (Nat.add_right_comm 21 no.length 2)
  have hmaster : (cstr "x_named_zone_master__" ++ no).length = 21 + no.length := by
    rw [List.length_append]
    rfl
  rw [ZoneFits, zoneArrays, List.forall_mem_cons, zonePieces]
  dsimp only
  rw [hzone]
  have hslave : cstr "slave" ≠ cstr "master" := by decide
  split
  · rename_i typ name hpieces
    simp only [hpieces, List.cons.injEq, and_true]
    split_ifs with hm hw hs
    · subst hm
      simp only [List.forall_mem_singleton, hkey, hslave.symm, false_and, false_imp_iff,
        implies_true, and_true]
      omega
    · subst hm
      simp only [List.not_mem_nil, hslave.symm, false_and, false_imp_iff, implies_true, and_true]
      omega
    · subst hs
      simp only [List.forall_mem_singleton, hmaster, true_and, forall_eq']
      omega
    · simp only [List.not_mem_nil, hs, false_and, false_imp_iff, implies_true, and_true]
      omega
  · rename_i hpieces
    have hnone : ∀ name, listSplit 0 (some (getval3 w (zoneKey ++ no) p)) ≠ [cstr "slave", name] :=
      fun name ↦ hpieces _ name
    simp only [List.not_mem_nil, hnone, false_imp_iff, implies_true, and_true]
    omega

/-- Every item that `rc2named_zone` is called for is short enough for the names. -/
def ItemsFit (m : Machine) (w : World) (p : Proc) : Prop :=
  ∀ no, ComesTo (fun a ↦ ¬ ZoneFails m w p a) (zones w p) no →
    no.length ≤ 113 ∧ ∀ name, zonePieces w p no = [cstr "slave", name] → no.length ≤ 106

/-- Items of ordinary length fit. -/
theorem itemsFit_of_length_le (h : ∀ no ∈ zones w p, no.length ≤ 106) : ItemsFit m w p := by
  rintro no ⟨pre, post, hl, -⟩
  have hno : no.length ≤ 106 := h no (hl ▸ List.mem_append_right _ List.mem_cons_self)
  exact ⟨by omega, fun _ _ ↦ hno⟩

/-- **A run of `rc2named` stays in its arrays exactly if the items fit**, and then leaves what it
would leave with longer ones. -/
theorem rc2namedIn_eq_some_iff {base : Bytes} (hbase : m.read namedDefault = some base)
    (hconf : m.writable namedConf = true) {gen : Gen} :
    rc2namedIn m w serial p = some gen ↔ gen = rc2named m w serial p ∧ ItemsFit m w p := by
  have hcalls : ∀ calls, zoneCallsIn (rc2namedZoneIn m w serial p) (zones w p) = some calls ↔
      calls = namedCalls m w serial p ∧ ItemsFit m w p := fun calls ↦ by
    refine zoneCallsIn_eq_some_iff.trans (and_congr_right fun _ ↦ forall_congr' fun no ↦ ?_)
    rw [zoneFits_iff]
    simp only [← Bool.not_eq_false, ret_rc2namedZone]
  rw [rc2namedIn, rc2named, hbase]
  dsimp only
  rw [if_pos hconf, if_pos hconf, Option.map_eq_some_iff]
  constructor
  · rintro ⟨calls, h, rfl⟩
    obtain ⟨rfl, hfit⟩ := (hcalls calls).1 h
    exact ⟨rfl, hfit⟩
  · rintro ⟨rfl, hfit⟩
    exact ⟨_, (hcalls _).2 ⟨rfl, hfit⟩, rfl⟩

/-- The run comes to its end, and the item is served. -/
structure ServedIn (m : Machine) (w : World) (serial : ℤ) (p : Proc) (i : ℕ) (no : Bytes) :
    Prop where
  run : rc2namedIn m w serial p = some (rc2named m w serial p)
  served : Served m w serial p i no

/-- **Every zone in order is served exactly if, when there is one, no zone that fails stands before
it, and the items fit.** -/
theorem zones_served_iff {base : Bytes} (hbase : m.read namedDefault = some base)
    (hconf : m.writable namedConf = true) :
    (∀ (i : ℕ) (no : Bytes), (zones w p)[i]? = some no → ZoneOk m w p no →
      ServedIn m w serial p i no) ↔
      ∀ (j : ℕ) (no' : Bytes), (zones w p)[j]? = some no' → ZoneOk m w p no' →
        (∀ (i : ℕ) (no : Bytes), i < j → (zones w p)[i]? = some no → ¬ ZoneFails m w p no) ∧
          ItemsFit m w p := by
  constructor
  · intro h j no' hj hok
    obtain ⟨hrun, hserved⟩ := h j no' hj hok
    refine ⟨fun i no hij hi hfail ↦ ?_, ((rc2namedIn_eq_some_iff hbase hconf).1 hrun).2⟩
    have hret := (getElem?_zoneCalls hj).1 hserved.call i no hij hi
    rw [ret_rc2namedZone.2 hfail] at hret
    cases hret
  · intro h i no hi hok
    obtain ⟨hbefore, hfit⟩ := h i no hi hok
    exact ⟨(rc2namedIn_eq_some_iff hbase hconf).2 ⟨rfl, hfit⟩,
      served_of_ok hbase hconf hi hok fun j no' hj hno' ↦ hbefore j no' hj hno'⟩

/-! ## A zone without a name -/

/-- The machine on which the templates are there and every file can be written. -/
def Machine.open : Machine := { Machine.bare with read := fun _ ↦ some [] }

/-- The zone 0 is in order and the zone 1 has no name; `order` is the list of the zones. -/
def zonesProc (order : Bytes) : Proc :=
  [⟨zoneKey, order, 0⟩, ⟨cstr "x_named_zone__0", cstr "master example.jp", 0⟩,
    ⟨cstr "x_named_zone__1", cstr "master", 0⟩].foldl Put.run ⟨[], fun _ ↦ none⟩

/-- Behind the other it does no harm. -/
theorem badZone_last :
    zones World.bare (zonesProc (cstr "0 1")) = [cstr "0", cstr "1"] ∧
    ServedIn Machine.open World.bare 0 (zonesProc (cstr "0 1")) 0 (cstr "0") := by
  have hzones : zones World.bare (zonesProc (cstr "0 1")) = [cstr "0", cstr "1"] := by
    decide +kernel
  have hpieces : zonePieces World.bare (zonesProc (cstr "0 1")) (cstr "0")
      = [cstr "master", cstr "example.jp"] := by decide +kernel
  refine ⟨hzones, (zones_served_iff rfl rfl).mpr (fun j no' hj hok ↦ ⟨fun i no hij hi hfail ↦ ?_,
    itemsFit_of_length_le (by rw [hzones]; decide)⟩) 0 (cstr "0") (by rw [hzones]; rfl)
      ⟨cstr "master", cstr "example.jp", hpieces, .inl ⟨rfl, rfl⟩⟩⟩
  rw [hzones] at hi hj
  have hj1 : j < 2 := (List.getElem?_eq_some_iff.mp hj).1
  obtain rfl : i = 0 := by omega
  obtain rfl := Option.some.inj hi
  exact absurd (hfail _ _ hpieces).2 (by decide)

/-- Before it, it takes it out of `named.conf`, and its file is not written. -/
theorem badZone_first :
    zones World.bare (zonesProc (cstr "1 0")) = [cstr "1", cstr "0"] ∧
    ZoneOk Machine.open World.bare (zonesProc (cstr "1 0")) (cstr "0") ∧
    rc2namedIn Machine.open World.bare 0 (zonesProc (cstr "1 0"))
      = some (rc2named Machine.open World.bare 0 (zonesProc (cstr "1 0"))) ∧
    (rc2named Machine.open World.bare 0 (zonesProc (cstr "1 0"))).files
      = [(namedConf, cstr "# setup.cgi (named)\n")] ∧
    ¬ Served Machine.open World.bare 0 (zonesProc (cstr "1 0")) 1 (cstr "0") := by
  have hzones : zones World.bare (zonesProc (cstr "1 0")) = [cstr "1", cstr "0"] := by
    decide +kernel
  have hfiles : (rc2named Machine.open World.bare 0 (zonesProc (cstr "1 0"))).files
      = [(namedConf, cstr "# setup.cgi (named)\n")] := by decide +kernel
  have hstanza : ¬ stanza World.bare (zonesProc (cstr "1 0")) (cstr "0")
      <:+: cstr "# setup.cgi (named)\n" := by decide +kernel
  refine ⟨hzones, ⟨cstr "master", cstr "example.jp", by decide +kernel, .inl ⟨rfl, rfl⟩⟩,
    (rc2namedIn_eq_some_iff rfl rfl).2 ⟨rfl, itemsFit_of_length_le (by rw [hzones]; decide)⟩,
    hfiles, fun h ↦ ?_⟩
  obtain ⟨text, hmem, hinfix⟩ := h.conf
  rw [hfiles, List.mem_singleton, Prod.mk.injEq] at hmem
  exact hstanza (hmem.2 ▸ hinfix)

end Setup
