import Mathlib.Data.List.Find
import SsdLinux.Setup.Main

/-!
# Which row of `vtab` a name finds

`vtab` is searched twice, in opposite directions.  `err_chk_sub` takes the first row whose name the
key begins with, and `output_change` the first row whose name begins with the key.  Neither looks
for the row of that name.

* `ownRow` is the row that a key belongs to: the one of its name, or one that ends in `__` and has
  a number behind it in the key.
* `checkedByOwn_iff`: a key is checked by the rule of its own row unless a shorter name stands above
  it, or it only begins like a name of the table.
* `describedByOwn_iff`: the summary of the changes describes each argument by its own row and stays
  inside the tables of texts, unless a name is cut short or a number is out of range.
-/

set_option autoImplicit false

namespace Setup

open CLib

/-! ## Rows and their rules -/

/-- A decimal number behind a name that ends in `__`. -/
def numbered (name key : Bytes) : Bool :=
  (cstr "__").isSuffixOf name && name.isPrefixOf key && decide (key.drop name.length ≠ [])
    && (key.drop name.length).all isdigit

/-- The row that a key belongs to. -/
def ownRow (key : Bytes) : Option VTab :=
  (vtab.find? fun v ↦ decide (v.key = key)).or (vtab.find? fun v ↦ numbered v.key key)

/-- What a row says about values: when they may not be empty, and the check for the others. -/
def VTab.rule (v : VTab) : NotNull × Option Check := (v.notNull, v.chk)

/-- What a rule says about the value of `key`. -/
def verdict (w : World) (p : Proc) (key : Bytes) (rule : NotNull × Option Check) :
    Option (Option (String × Option Bytes)) :=
  if getval3 w key p = [] then
    some (if rule.1.holds w p then some ("値を入力してください", none) else none)
  else
    match rule.2 with
    | none => some none
    | some c => c.run w p key (getval3 w key p)

/-- The key is checked by the rule of its own row, and refused if it has none. -/
def CheckedByOwn (key : Bytes) : Prop :=
  ∀ w p, match ownRow key with
    | some v =>
      (errChkSub w p key).map (fun m ↦ m.map fun m ↦ (m.text, m.arg)) = verdict w p key v.rule
    | none => ∃ m, errChkSub w p key = some (some m)

/-- The names of `vtab`. -/
def vtabKeys : List Bytes := vtab.map VTab.key

/-- The names whose rows are never found, and have another rule than the one that is. -/
def shadowedKeys : List Bytes :=
  [cstr "x_domainname", cstr "x_ipv6_tunnel_here", cstr "x_ipv6_tunnel_there"]

/-! ## Lookup by prefix -/

/-- Whether one of two texts is the beginning of the other. -/
def comparable : Bytes → Bytes → Bool
  | [], _ => true
  | _, [] => true
  | c :: s, d :: t => c == d && comparable s t

theorem comparable_iff {s t : Bytes} : comparable s t = true ↔ s <+: t ∨ t <+: s := by
  induction s generalizing t with
  | nil => simp [comparable]
  | cons c s ih =>
    cases t with
    | nil => simp [comparable]
    | cons d t =>
      rw [comparable, Bool.and_eq_true, beq_iff_eq, ih, List.cons_prefix_cons,
        List.cons_prefix_cons, eq_comm (a := d), ← and_or_left]

/-- The first that is found is the one that none before it is in the way of. -/
theorem find?_of_pairwise {α : Type*} {R : α → α → Prop} {l : List α} (h : l.Pairwise R) {a : α}
    (ha : a ∈ l) {f : α → Bool} (hf : f a = true) (hR : ∀ b, R b a → f b = false) :
    l.find? f = some a := by
  induction l with
  | nil => cases ha
  | cons b l ih =>
    rw [List.pairwise_cons] at h
    rcases List.mem_cons.mp ha with rfl | ha
    · exact List.find?_cons_of_pos hf
    · rw [List.find?_cons_of_neg (by simp [hR b (h.1 a ha)]), ih h.2 ha]

/-- A text behind a name changes nothing if no name of the list goes on behind that name. -/
theorem find?_prefix_append {l : List VTab} {name : Bytes}
    (hlong : ∀ v ∈ l, name <+: v.key → v.key = name) (t : Bytes) :
    l.find? (fun v ↦ v.key.isPrefixOf (name ++ t)) = l.find? fun v ↦ v.key.isPrefixOf name := by
  refine List.find?_congr fun v hv ↦ Bool.eq_iff_iff.mpr ?_
  rw [List.isPrefixOf_iff_prefix, List.isPrefixOf_iff_prefix]
  refine ⟨fun h ↦ ?_, fun h ↦ h.trans (List.prefix_append name t)⟩
  rcases le_total v.key.length name.length with hle | hle
  · exact List.prefix_of_prefix_length_le h (List.prefix_append name t) hle
  · rw [hlong v hv (List.prefix_of_prefix_length_le (List.prefix_append name t) h hle)]

/-! ## `err_chk_sub` -/

/-- The rule of the row that is found is applied. -/
theorem errChkSub_verdict {w : World} {p : Proc} {key : Bytes} {v : VTab}
    (h : vtabRow key = some v) :
    (errChkSub w p key).map (fun m ↦ m.map fun m ↦ (m.text, m.arg)) = verdict w p key v.rule := by
  rw [errChkSub, h, verdict]
  simp only [VTab.rule]
  split
  · rcases Bool.eq_false_or_eq_true (v.notNull.holds w p) with hn | hn <;> simp [hn]
  · cases v.chk with
    | none => rfl
    | some c =>
      dsimp only
      cases c.run w p key (getval3 w key p) with
      | none => rfl
      | some m => cases m <;> rfl

/-- Where both rows have one rule, the key is checked by its own. -/
theorem checkedByOwn_of_rule {key : Bytes}
    (h : (vtabRow key).map VTab.rule = (ownRow key).map VTab.rule) : CheckedByOwn key := by
  intro w p
  cases hrow : vtabRow key with
  | none =>
    rw [hrow, Option.map_none, eq_comm, Option.map_eq_none_iff] at h
    rw [h]
    exact ⟨_, by rw [errChkSub, hrow]⟩
  | some v =>
    rw [hrow, Option.map_some, eq_comm, Option.map_eq_some_iff] at h
    obtain ⟨u, hu, hrule⟩ := h
    rw [hu]
    exact (errChkSub_verdict hrow).trans (congrArg _ hrule.symm)

/-- A value that the check lets pass on a machine without users. -/
def Check.sample : Check → Bytes
  | .ip4 | .ip4OrAny | .eth0 | .eth1 => cstr "1.2.3.4"
  | .uid => cstr "40000"
  | .numeric | .port => cstr "1"
  | .unixpath | .hostname | .login | .print => cstr "a"

theorem run_sample (c : Check) (p : Proc) (key : Bytes) :
    c.run .bare p key c.sample = some none := by
  have hip : (isIp4 (cstr "1.2.3.4")).map (ip4Msg (cstr "1.2.3.4")) = some none := by decide
  cases c with
  | eth0 =>
    rw [Check.run, Check.sample, hip, ite_self]
  | eth1 =>
    rw [Check.run, Check.sample, hip, ite_self]
  | unixpath | hostname | ip4 | ip4OrAny | numeric | port | uid | login | print => rfl

/-- **Every row lets some value pass.** -/
theorem exists_accepted {key : Bytes} (hclock : key ∉ clockKeys) (hne : key ≠ []) {v : VTab}
    (h : vtabRow key = some v) : ∃ p, errChkSub .bare p key = some none := by
  have hval : ∀ s, getval3 .bare key (putval key s 0 ⟨[], fun _ ↦ none⟩) = s := fun s ↦ by
    rw [getval3_eq hclock, stored_putval_self hne, Option.getD_some]
  cases hc : v.chk with
  | none =>
    refine ⟨putval key [97] 0 ⟨[], fun _ ↦ none⟩, (accepts_iff h).mpr ?_⟩
    rw [hval, if_neg (by decide), hc]
    exact fun c hc ↦ by cases hc
  | some c =>
    refine ⟨putval key c.sample 0 ⟨[], fun _ ↦ none⟩, (accepts_iff h).mpr ?_⟩
    have hsample : c.sample ≠ [] := by cases c <;> decide
    rw [hval, if_neg hsample, hc]
    rintro _ ⟨⟩
    exact run_sample c _ key

/-- The names that begin, or begin with, a name above them. -/
def overlappingKeys : List Bytes :=
  cstr "x_nameserver" :: cstr "x_dhcpd_enable__eth0" :: cstr "x_dhcpd_enable__eth1" :: shadowedKeys

/-- A table of names: which of them begin one another. -/
structure NameTable where
  /-- The rows of the table. -/
  rows : List VTab
  /-- The names that begin, or begin with, a name above them. -/
  overlapping : List Bytes
  pairwise : rows.Pairwise fun u v ↦ comparable u.key v.key = false ∨ v.key ∈ overlapping
  /-- The names that end in `__` begin no other one. -/
  numbered : ∀ v ∈ rows, (cstr "__").isSuffixOf v.key = true →
    v.key ∉ overlapping ∧ ∀ u ∈ rows, v.key.isPrefixOf u.key = true → u.key = v.key

/-- `vtab`. -/
def vtabNames : NameTable where
  rows := vtab
  overlapping := overlappingKeys
  pairwise := by decide +kernel
  numbered := by decide +kernel

/-- **Apart from those, no name of the table begins another.** -/
theorem pairwise_vtab :
    vtab.Pairwise fun u v ↦ comparable u.key v.key = false ∨ v.key ∈ overlappingKeys :=
  vtabNames.pairwise

/-- What only holds of names that begin one another finds the row of each other name. -/
theorem find?_own {l : List VTab} (hl : l.Sublist vtab) {v : VTab} (hv : v ∈ l)
    (ho : v.key ∉ overlappingKeys) {f : VTab → Bool} (hf : f v = true)
    (hcmp : ∀ u, f u = true → comparable u.key v.key = true) : l.find? f = some v := by
  refine find?_of_pairwise (pairwise_vtab.sublist hl) hv hf fun u hu ↦ ?_
  by_contra h
  have hc := hcmp u (by simpa using h)
  rw [(or_iff_left ho).mp hu] at hc
  cases hc

theorem find?_key {v : VTab} (hv : v ∈ vtab) (ho : v.key ∉ overlappingKeys) :
    vtab.find? (fun u ↦ decide (u.key = v.key)) = some v :=
  find?_own (List.Sublist.refl _) hv ho (by simp) fun u hu ↦
    comparable_iff.mpr (.inl (of_decide_eq_true hu ▸ List.prefix_rfl))

theorem vtabRow_key {v : VTab} (hv : v ∈ vtab) (ho : v.key ∉ overlappingKeys) :
    vtabRow v.key = some v :=
  find?_own (List.Sublist.refl _) hv ho (List.isPrefixOf_iff_prefix.mpr List.prefix_rfl) fun _ hu ↦
    comparable_iff.mpr (.inl (List.isPrefixOf_iff_prefix.mp hu))

/-- What each row of the table finds for its own name. -/
theorem rule_vtabRow {key : Bytes} (hkey : key ∈ vtabKeys) (hs : key ∉ shadowedKeys) :
    (vtabRow key).map VTab.rule = (ownRow key).map VTab.rule := by
  by_cases ho : key ∈ overlappingKeys
  · revert hs
    revert key
    decide +kernel
  · obtain ⟨v, hv, rfl⟩ := List.mem_map.mp hkey
    rw [vtabRow_key hv ho, ownRow, find?_key hv ho, Option.some_or]

/-- The names that end in `__` begin no other one. -/
theorem vtab_numbered : ∀ v ∈ vtab, (cstr "__").isSuffixOf v.key = true →
    v.key ∉ overlappingKeys ∧ ∀ u ∈ vtab, v.key.isPrefixOf u.key = true → u.key = v.key :=
  vtabNames.numbered

/-- There is one way to read a name with a number behind it. -/
theorem eq_of_numbered {u v : VTab} (hu : u ∈ vtab) (hv : v ∈ vtab) {key : Bytes}
    (hunum : numbered u.key key = true) (hvnum : numbered v.key key = true) : u = v := by
  simp only [numbered, Bool.and_eq_true, List.isPrefixOf_iff_prefix] at hunum hvnum
  obtain ⟨⟨⟨husuffix, hupre⟩, -⟩, -⟩ := hunum
  obtain ⟨⟨⟨hvsuffix, hvpre⟩, -⟩, -⟩ := hvnum
  -- the longer name is one of those that no other name goes on behind
  have hkey : u.key = v.key := by
    rcases le_total u.key.length v.key.length with hle | hle
    · have h := List.prefix_of_prefix_length_le hupre hvpre hle
      exact ((vtab_numbered u hu husuffix).2 v hv (List.isPrefixOf_iff_prefix.mpr h)).symm
    · have h := List.prefix_of_prefix_length_le hvpre hupre hle
      exact (vtab_numbered v hv hvsuffix).2 u hu (List.isPrefixOf_iff_prefix.mpr h)
  have hu' := find?_key hu (vtab_numbered u hu husuffix).1
  rw [hkey, find?_key hv (vtab_numbered v hv hvsuffix).1] at hu'
  exact (Option.some.inj hu').symm

/-- A name with a number behind it finds its row, and there is no row of all of it. -/
theorem rule_numbered {v : VTab} (hv : v ∈ vtab) {key : Bytes} (hnum : numbered v.key key = true) :
    (vtabRow key).map VTab.rule = (ownRow key).map VTab.rule := by
  have hnum' := hnum
  simp only [numbered, Bool.and_eq_true, decide_eq_true_eq, List.isPrefixOf_iff_prefix] at hnum'
  obtain ⟨⟨⟨hsuffix, ⟨t, rfl⟩⟩, hne⟩, -⟩ := hnum'
  rw [List.drop_left] at hne
  obtain ⟨ho, hlong⟩ := vtab_numbered v hv hsuffix
  have hrow : vtabRow (v.key ++ t) = vtabRow v.key :=
    find?_prefix_append (fun u hu h ↦ hlong u hu (List.isPrefixOf_iff_prefix.mpr h)) t
  have hnone : vtab.find? (fun u ↦ decide (u.key = v.key ++ t)) = none := by
    refine List.find?_eq_none.mpr fun u hu he ↦ hne ?_
    have hu' := hlong u hu (List.isPrefixOf_iff_prefix.mpr ⟨t, (of_decide_eq_true he).symm⟩)
    rw [of_decide_eq_true he] at hu'
    exact List.append_right_eq_self.mp hu'
  have hsome : vtab.find? (fun u ↦ numbered u.key (v.key ++ t)) = some v := by
    cases hf : vtab.find? fun u ↦ numbered u.key (v.key ++ t) with
    | none => exact absurd hnum (List.find?_eq_none.mp hf v hv)
    | some u =>
      have hu := List.find?_some hf
      rw [eq_of_numbered (List.mem_of_find?_eq_some hf) hv hu hnum]
  rw [hrow, vtabRow_key hv ho, ownRow, hnone, hsome, Option.none_or]

theorem CheckedByOwn.verdict_eq {key : Bytes} (h : CheckedByOwn key) (w : World) (p : Proc) :
    ∀ v ∈ ownRow key,
      (errChkSub w p key).map (fun m ↦ m.map fun m ↦ (m.text, m.arg)) = verdict w p key v.rule := by
  intro v hv
  have hv' := h w p
  rw [Option.mem_def.mp hv] at hv'
  exact hv'

/-- The rows that are found in place of the shadowed ones let something else pass. -/
theorem not_checkedByOwn_of_shadowed {key : Bytes} (h : key ∈ shadowedKeys) :
    ¬ CheckedByOwn key := by
  intro hc
  simp only [shadowedKeys, List.mem_cons, List.not_mem_nil, or_false] at h
  rcases h with rfl | rfl | rfl
  · exact absurd (hc.verdict_eq .bare ⟨[], fun _ ↦ none⟩) (by decide +kernel)
  · exact absurd (hc.verdict_eq .bare ⟨[⟨cstr "x_ipv6_tunnel_here", cstr "x", 0⟩], fun _ ↦ none⟩)
      (by decide +kernel)
  · exact absurd (hc.verdict_eq .bare ⟨[⟨cstr "x_ipv6_tunnel_there", cstr "x", 0⟩], fun _ ↦ none⟩)
      (by decide +kernel)

/-- **A key is checked by its own rule exactly if it is a name whose row is not shadowed, or a name
with its number, or does not begin like any name.** -/
theorem checkedByOwn_iff (key : Bytes) :
    CheckedByOwn key ↔ (key ∈ vtabKeys ∧ key ∉ shadowedKeys) ∨
      (∃ v ∈ vtab, numbered v.key key = true) ∨ ∀ v ∈ vtab, ¬ v.key <+: key := by
  constructor
  · intro hc
    by_cases hname : key ∈ vtabKeys
    · exact .inl ⟨hname, fun hs ↦ not_checkedByOwn_of_shadowed hs hc⟩
    by_cases hnum : ∃ v ∈ vtab, numbered v.key key = true
    · exact .inr (.inl hnum)
    refine .inr (.inr fun v hv hpre ↦ ?_)
    -- the key has no row of its own, but the one that is found lets a value pass
    have hown : ownRow key = none := by
      rw [ownRow, Option.or_eq_none_iff]
      refine ⟨List.find?_eq_none.mpr fun u hu he ↦ hname ?_,
        List.find?_eq_none.mpr fun u hu he ↦ hnum ⟨u, hu, he⟩⟩
      exact List.mem_map.mpr ⟨u, hu, of_decide_eq_true he⟩
    have hclock : ∀ k ∈ clockKeys, k ∈ vtabKeys := by decide +kernel
    have hempty : ∀ v ∈ vtab, v.key ≠ [] := by decide +kernel
    cases hrow : vtabRow key with
    | none => exact List.find?_eq_none.mp hrow v hv (List.isPrefixOf_iff_prefix.mpr hpre)
    | some u =>
      obtain ⟨p, hp⟩ := exists_accepted (fun h ↦ hname (hclock key h))
        (fun h ↦ hempty v hv (List.prefix_nil.mp (h ▸ hpre))) hrow
      have := hc .bare p
      rw [hown] at this
      obtain ⟨m, hm⟩ := this
      rw [hp] at hm
      cases hm
  · rintro (⟨hname, hs⟩ | ⟨v, hv, hnum⟩ | hnone)
    · exact checkedByOwn_of_rule (rule_vtabRow hname hs)
    · exact checkedByOwn_of_rule (rule_numbered hv hnum)
    · have hrow : vtabRow key = none :=
        List.find?_eq_none.mpr fun v hv h ↦ hnone v hv (List.isPrefixOf_iff_prefix.mp h)
      have hown : ownRow key = none := by
        rw [ownRow, Option.or_eq_none_iff]
        refine ⟨List.find?_eq_none.mpr fun v hv he ↦ hnone v hv ?_,
          List.find?_eq_none.mpr fun v hv he ↦ hnone v hv ?_⟩
        · rw [of_decide_eq_true he]
        · simp only [numbered, Bool.and_eq_true, List.isPrefixOf_iff_prefix] at he
          exact he.1.1.2
      exact checkedByOwn_of_rule (by rw [hrow, hown])

/-- An end of the tunnel is not checked for being an address, and a name that does not exist is
checked as the host name. -/
theorem checkedByOwn_fails :
    ¬ CheckedByOwn (cstr "x_ipv6_tunnel_here") ∧ ¬ CheckedByOwn (cstr "x_hostnameFOO") := by
  refine ⟨not_checkedByOwn_of_shadowed (by decide), fun hc ↦ ?_⟩
  have hown : ownRow (cstr "x_hostnameFOO") = none := by decide +kernel
  have herr := hc .bare ⟨[⟨cstr "x_hostnameFOO", cstr "a", 0⟩], fun _ ↦ none⟩
  rw [hown] at herr
  obtain ⟨m, hm⟩ := herr
  have hpass : errChkSub .bare ⟨[⟨cstr "x_hostnameFOO", cstr "a", 0⟩], fun _ ↦ none⟩
      (cstr "x_hostnameFOO") = some none := by decide +kernel
  rw [hpass] at hm
  cases hm

/-! ## `output_change` -/

/-- The rows that `output_change` goes through. -/
def shownRows : List VTab := vtab.takeWhile fun v ↦ !v.nodisp

/-- The row that describes a key. -/
def shownRow (key : Bytes) : Option VTab := shownRows.find? fun v ↦ key.isPrefixOf v.key

/-- The arguments in the store. -/
def arguments (env : List Entry) : List Entry := env.filter fun e ↦ (cstr "i_").isPrefixOf e.key

/-- The line for one argument; there is none if no row describes it. -/
def describe (e : Entry) : Option (Option (Text × Text)) :=
  match shownRow (xKey e.key) with
  | none => some none
  | some v =>
    match v.valdesc with
    | none => some (some (v.label, .str e.val))
    | some ds =>
      if atoi e.val < 0 then none
      else (ds[(atoi e.val).toNat]?).map fun d ↦ some (v.label, .lit d)

theorem outputChange_eq (p : Proc) : outputChange p = (arguments p.env).filterMapM describe := rfl

/-- The number of a row with texts of its own is the number of one of them. -/
def InRange (e : Entry) : Prop :=
  ∀ v ∈ shownRow (xKey e.key), ∀ ds ∈ v.valdesc, 0 ≤ atoi e.val ∧ atoi e.val < ds.length

theorem isSome_describe (e : Entry) : (describe e).isSome = true ↔ InRange e := by
  rw [describe, InRange]
  cases shownRow (xKey e.key) with
  | none => simp
  | some v =>
    cases hds : v.valdesc with
    | none => simp [hds]
    | some ds =>
      by_cases hneg : atoi e.val < 0
      · simp [hds, hneg]
      · simp only [if_neg hneg, Option.isSome_map, Option.mem_def, Option.some.injEq,
          forall_eq', hds, isSome_getElem?]
        omega

theorem isSome_filterMapM {α β : Type*} {f : α → Option (Option β)} (l : List α) :
    (l.filterMapM f).isSome = true ↔ ∀ a ∈ l, (f a).isSome = true := by
  induction l with
  | nil => simp
  | cons a l ih =>
    rw [List.filterMapM_cons, List.forall_mem_cons, ← ih]
    cases f a with
    | none => simp
    | some o =>
      cases l.filterMapM f with
      | none => cases o <;> simp
      | some bs => cases o <;> simp

/-- **The summary is printed exactly if every number is in range.** -/
theorem outputChange_isSome_iff (p : Proc) :
    (outputChange p).isSome = true ↔ ∀ e ∈ arguments p.env, InRange e := by
  rw [outputChange_eq, isSome_filterMapM]
  exact forall₂_congr fun e _ ↦ isSome_describe e

/-- What the numbers behind a name may be. -/
def NumberOk (e : Entry) : Prop :=
  (xKey e.key ∈ [cstr "x_eth_typ__eth0", cstr "x_eth_typ__eth1"] →
      0 ≤ atoi e.val ∧ atoi e.val < 3) ∧
    (xKey e.key = cstr "x_msq_typ" → 0 ≤ atoi e.val ∧ atoi e.val < 4)

/-- What the names that are shown find, and the rows that have texts for numbers. -/
theorem shown_names :
    (∀ key ∈ overlappingKeys, key ≠ cstr "x_nameserver" →
      (shownRow key).map VTab.key = some key) ∧
    (shownRow (cstr "x_nameserver")).map VTab.key = some (cstr "x_nameserver3") ∧
    ∀ v ∈ shownRows, v.valdesc.map List.length =
      if v.key ∈ [cstr "x_eth_typ__eth0", cstr "x_eth_typ__eth1"] then some 3
      else if v.key = cstr "x_msq_typ" then some 4 else none := by
  decide +kernel

theorem shownRow_key {v : VTab} (hv : v ∈ shownRows) (hne : v.key ≠ cstr "x_nameserver") :
    (shownRow v.key).map VTab.key = some v.key := by
  by_cases ho : v.key ∈ overlappingKeys
  · exact shown_names.1 v.key ho hne
  · have hrow : shownRow v.key = some v :=
      find?_own (List.takeWhile_sublist _) hv ho (List.isPrefixOf_iff_prefix.mpr List.prefix_rfl)
        fun _ hu ↦ comparable_iff.mpr (.inr (List.isPrefixOf_iff_prefix.mp hu))
    rw [hrow, Option.map_some]

/-- **One argument.**  It is described by the row of its name and in range exactly if it begins no
name, or is a name that begins no other one above it, with a number in range. -/
theorem described_iff (e : Entry) :
    (InRange e ∧ ∀ v ∈ shownRow (xKey e.key), v.key = xKey e.key) ↔
      (∀ v ∈ shownRows, ¬ xKey e.key <+: v.key) ∨
        xKey e.key ∈ shownRows.map VTab.key ∧ xKey e.key ≠ cstr "x_nameserver" ∧ NumberOk e := by
  cases hrow : shownRow (xKey e.key) with
  | none =>
    have hno := List.find?_eq_none.mp hrow
    refine iff_of_true ⟨fun v hv ↦ ?_, fun v hv ↦ by cases hv⟩
      (.inl fun v hv h ↦ hno v hv (List.isPrefixOf_iff_prefix.mpr h))
    rw [hrow] at hv
    cases hv
  | some v =>
    have hv := List.mem_of_find?_eq_some hrow
    have hfound := List.find?_some hrow
    have hpre : xKey e.key <+: v.key := List.isPrefixOf_iff_prefix.mp hfound
    rw [or_iff_right fun h ↦ h v hv hpre]
    have hns := shown_names.2.1
    -- the name is one of the table, and finds its own row
    have hown : (∀ u ∈ some v, u.key = xKey e.key) ↔
        xKey e.key ∈ shownRows.map VTab.key ∧ xKey e.key ≠ cstr "x_nameserver" := by
      constructor
      · intro h
        have hkey := h v rfl
        refine ⟨hkey ▸ List.mem_map_of_mem hv, fun he ↦ ?_⟩
        rw [← he, hrow, Option.map_some, Option.some.injEq, hkey, he] at hns
        exact absurd hns (by decide)
      · rintro ⟨hmem, hne⟩ u ⟨⟩
        obtain ⟨u, hu, he⟩ := List.mem_map.mp hmem
        have := shownRow_key hu (he ▸ hne)
        rw [he, hrow] at this
        exact Option.some.inj this
    have hrange : v.key = xKey e.key → (InRange e ↔ NumberOk e) := by
      intro hkey
      have hlen := shown_names.2.2 v hv
      rw [InRange, hrow, NumberOk, ← hkey]
      split_ifs at hlen with h1 h2
      · obtain ⟨ds, hds, hn⟩ := Option.map_eq_some_iff.mp hlen
        have hmsq : v.key ≠ cstr "x_msq_typ" := fun h ↦ by
          rw [h] at h1
          exact absurd h1 (by decide)
        simp [hds, hn, h1, hmsq]
      · obtain ⟨ds, hds, hn⟩ := Option.map_eq_some_iff.mp hlen
        have heth : cstr "x_msq_typ" ∉ [cstr "x_eth_typ__eth0", cstr "x_eth_typ__eth1"] := by decide
        rw [h2]
        simp [hds, hn, heth]
      · rw [Option.map_eq_none_iff] at hlen
        simp [hlen, h1, h2]
    constructor
    · rintro ⟨hin, hkey⟩
      obtain ⟨hmem, hne⟩ := hown.mp hkey
      exact ⟨hmem, hne, (hrange (hkey v rfl)).mp hin⟩
    · rintro ⟨hmem, hne, hnum⟩
      have hkey := hown.mpr ⟨hmem, hne⟩
      exact ⟨(hrange (hkey v rfl)).mpr hnum, hkey⟩

/-- **The summary stays inside its tables and describes every argument by the row of its name,
exactly if this holds of each argument**: it begins no name that is shown, or it is one, is not
`i_nameserver`, and has a number in range where there are texts for numbers. -/
theorem describedByOwn_iff (p : Proc) :
    ((outputChange p).isSome = true ∧
        ∀ e ∈ arguments p.env, ∀ v ∈ shownRow (xKey e.key), v.key = xKey e.key) ↔
      ∀ e ∈ arguments p.env, (∀ v ∈ shownRows, ¬ xKey e.key <+: v.key) ∨
        xKey e.key ∈ shownRows.map VTab.key ∧ xKey e.key ≠ cstr "x_nameserver" ∧ NumberOk e := by
  rw [outputChange_isSome_iff, ← forall₂_and]
  exact forall₂_congr fun e _ ↦ described_iff e

/-- A number behind the last text of its row passes the check and is looked up all the same, and
`i_nameserver` is described by the row of another name server. -/
theorem describedByOwn_fails :
    (∃ p args v res,
      visitOf World.box (boxRequest (loginArgs ++ cstr "op=masq&s_ok=1&i_msq_typ=9")) boxFiles
        = some (p, args, v) ∧
      errChk World.box v.proc = some [] ∧
      callHook ⟨false, false⟩ World.box (delFlag args) v = some (some res) ∧
      res.status = .ok ∧ outputChange res.proc = none) ∧
    (shownRow (cstr "x_nameserver")).map VTab.key = some (cstr "x_nameserver3") := by
  refine ⟨?_, shown_names.2.1⟩
  have hfacts : (visitOf World.box (boxRequest (loginArgs ++ cstr "op=masq&s_ok=1&i_msq_typ=9"))
      boxFiles).any (fun (x : Proc × List Arg × Visit) ↦
        (callHook ⟨false, false⟩ World.box (delFlag x.2.1) x.2.2).join.any fun res ↦
          decide (errChk World.box x.2.2.proc = some [] ∧ res.status = .ok ∧
            outputChange res.proc = none)) = true := by
    decide +kernel
  obtain ⟨p, args, v, res, hv, -, hres, hfacts⟩ := exists_of_visitOf hfacts
  obtain ⟨hchk, hstatus, hchange⟩ := of_decide_eq_true hfacts
  exact ⟨p, args, v, res, hv, hchk, hres, hstatus, hchange⟩

end Setup
