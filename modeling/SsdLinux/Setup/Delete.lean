import SsdLinux.Setup.Moves
import SsdLinux.Setup.Nextval

/-!
# `del`: what a request deletes

A form with a list has a button `d__5` for each item, and a hidden field `typ` that says which list
it shows.  A request with an argument `d_…` is routed to `del`, whatever else it holds.

* `wantedId` is what the button asks for: a name that is `d__` and a decimal number.  `delId` is
  what `sscanf` makes of a name, which reads more names than that.
* `DelExact` is what the deletion ought to do to the store.
* `del_exact` says when it does that: a name is read and `typ` is there, or else a null pointer is
  followed, and the number that is read is the one that is asked for, or makes no difference.
-/

set_option autoImplicit false

namespace Setup

open CLib

variable {b : Build} {w : World} {p : Proc}

/-- The number in the name of a button. -/
def wantedId (key : Bytes) : Option ℕ :=
  if (cstr "d__").isPrefixOf key ∧ key.drop 3 ≠ [] ∧ (key.drop 3).all isdigit then
    some (digitsVal (key.drop 3))
  else none

/-- The item that the first button of the store asks for. -/
def wanted (env : List Entry) : Option Bytes := (env.findSome? fun e ↦ wantedId e.key).map dec

/-- The ids in a list. -/
def ids (w : World) (listKey : Bytes) (p : Proc) : List Bytes :=
  (items w listKey p).filter fun i ↦ decide (i ≠ [])

/-- The list that the store names. -/
def Visit.delKey (w : World) (v : Visit) : Option Bytes :=
  (getval w (cstr "typ") v.proc).bind (delList v.arg2)

/-- The store `q` differs from that of the request in that the item that is asked for is no longer
in the list that is named. -/
structure DelExact (w : World) (v : Visit) (q : Proc) : Prop where
  other : ∀ k, v.delKey w ≠ some k → stored k q = stored k v.proc
  list : ∀ k, v.delKey w = some k →
    ids w k q = (wanted v.proc.env).elim (ids w k v.proc) (ids w k v.proc).erase

/-! ## Lists and their texts -/

theorem filter_splitBlanks {l : List Bytes} (hl : ∀ s ∈ l, ∀ c ∈ s, isspace c = false) :
    (∀ u, (splitBlanks (some u) ((l.map fun s ↦ blank :: s).flatten)).filter
        (fun i ↦ decide (i ≠ [])) = (u :: l).filter fun i ↦ decide (i ≠ [])) ∧
      (splitBlanks none ((l.map fun s ↦ blank :: s).flatten)).filter (fun i ↦ decide (i ≠ []))
        = l.filter fun i ↦ decide (i ≠ []) := by
  induction l with
  | nil => exact ⟨fun u ↦ rfl, rfl⟩
  | cons s l ih =>
    rw [List.forall_mem_cons] at hl
    obtain ⟨ih1, ih2⟩ := ih hl.2
    have hblank : isspace blank = true := by decide
    -- the item behind the blank
    have hitem : (splitBlanks none (s ++ (l.map fun s ↦ blank :: s).flatten)).filter
        (fun i ↦ decide (i ≠ [])) = (s :: l).filter fun i ↦ decide (i ≠ []) := by
      by_cases hs : s = []
      · rw [hs, List.nil_append, ih2, List.filter_cons_of_neg (by simp)]
      · rw [splitBlanks_word ⟨hs, hl.1⟩, ih1]
    rw [List.map_cons, List.flatten_cons, List.cons_append]
    refine ⟨fun u ↦ ?_, ?_⟩
    · rw [splitBlanks, if_pos hblank, ← List.singleton_append, List.filter_append, hitem,
        ← List.filter_append, List.singleton_append]
    · rw [splitBlanks, if_pos hblank, hitem]

/-- **Ids survive the text of their list**, whatever empty items there are. -/
theorem filter_listSplit_listJoin {l : List Bytes} (hl : ∀ s ∈ l, ∀ c ∈ s, isspace c = false) :
    (listSplit 0 (some (listJoin l))).filter (fun i ↦ decide (i ≠ []))
      = l.filter fun i ↦ decide (i ≠ []) := by
  have hsplit : ∀ s, (listSplit 0 (some s)).filter (fun i ↦ decide (i ≠ []))
      = (splitBlanks (some []) s).filter fun i ↦ decide (i ≠ []) := fun s ↦ by
    cases s with
    | nil => rfl
    | cons c s =>
      rw [listSplit, if_pos rfl]
      exact List.cons_ne_nil c s
  rw [hsplit]
  cases l with
  | nil => rfl
  | cons s l =>
    rw [List.forall_mem_cons] at hl
    rw [listJoin_cons, splitBlanks_append hl.1, List.nil_append, (filter_splitBlanks hl.2).1]

/-- Taking out one item or another gives the same only if neither is there. -/
theorem erase_eq_erase_iff {l : List Bytes} {s t : Bytes} (hne : s ≠ t) :
    l.erase s = l.erase t ↔ s ∉ l ∧ t ∉ l := by
  constructor
  · intro h
    have hs : s ∉ l := fun hmem ↦ by
      have hcount := congrArg (List.count s) h
      rw [List.count_erase_self, List.count_erase_of_ne hne] at hcount
      have := List.count_pos_iff.mpr hmem
      omega
    refine ⟨hs, fun hmem ↦ ?_⟩
    rw [List.erase_of_not_mem hs] at h
    have := List.length_erase_of_mem hmem
    rw [← h] at this
    have := List.length_pos_of_mem hmem
    omega
  · rintro ⟨hs, ht⟩
    rw [List.erase_of_not_mem hs, List.erase_of_not_mem ht]

/-! ## The deletion -/

/-- The list keys are no settings of the clock. -/
theorem delList_key {arg2 typ key : Bytes} (h : delList arg2 typ = some key) :
    key ∉ clockKeys ∧ key ≠ [] := by
  have hown := ownKey_of_delList h
  have hclock : ∀ k ∈ clockKeys, ownKey k = false := by decide
  refine ⟨fun hmem ↦ ?_, ?_⟩
  · rw [hclock _ hmem] at hown
    cases hown
  · rintro rfl
    exact absurd hown (by decide)

/-- **`del_ent` takes one id out of its list.** -/
theorem ids_delEnt {arg2 typ key tgt : Bytes} (h : delList arg2 typ = some key) (p : Proc) :
    ids w key (delEnt w key tgt p) = (ids w key p).erase tgt := by
  obtain ⟨hclock, hne⟩ := delList_key h
  rw [ids, items_eq hclock, stored_delEnt hne, Option.getD_some, listRemoveItem,
    filter_listSplit_listJoin, ids, List.erase_filter]
  exact fun s hs ↦ isspace_of_mem_listSplit (List.mem_of_mem_erase hs)

/-- What `del` leaves of the store. -/
theorem del_some {ctx : Ctx} {arg : Bytes} {id : ℤ} {typ : Bytes}
    (hid : (p.env.findSome? fun e ↦ delId e.key) = some id)
    (htyp : getval ctx.world (cstr "typ") p = some typ) :
    ∃ r, del ctx arg p = some r ∧
      r.proc = (delList ctx.arg2 typ).elim p fun key ↦ delEnt ctx.world key (decInt id) p := by
  rw [del]
  simp only [hid, htyp, Option.bind_some, Option.map_some]
  cases delList ctx.arg2 typ with
  | none => exact ⟨_, rfl, rfl⟩
  | some key => exact ⟨_, rfl, rfl⟩

/-- The page's deletion for a request that asks for it. -/
theorem callHook_del {v : Visit} {m : Menu} (hm : v.menu b = some m) (hdel : m.delHook = some del)
    (hok : okArg v.proc.env = none) :
    callHook b w true v
      = some ((del ⟨w, v.arg1, v.arg2⟩ [] v.proc).map fun r ↦ { r with status := .cont }) := by
  rw [callHook, hm]
  simp only [hok, hdel, if_pos]

/-- The number that is read is the one that is asked for, or neither is in the list. -/
def SameTarget (w : World) (v : Visit) (id : ℤ) (key : Bytes) : Prop :=
  wanted v.proc.env = some (decInt id) ∨
    decInt id ∉ ids w key v.proc ∧ ∀ i ∈ wanted v.proc.env, i ∉ ids w key v.proc

theorem delEnt_exact_iff {v : Visit} {typ key : Bytes} {id : ℤ}
    (hkey : delList v.arg2 typ = some key) :
    ids w key (delEnt w key (decInt id) v.proc)
        = (wanted v.proc.env).elim (ids w key v.proc) (ids w key v.proc).erase ↔
      SameTarget w v id key := by
  rw [ids_delEnt hkey, SameTarget]
  cases wanted v.proc.env with
  | none => simp [List.erase_eq_self_iff]
  | some i =>
    by_cases hi : decInt id = i
    · simp [hi]
    · simp [Ne.symm hi, erase_eq_erase_iff hi]

/-- **The deletion does what is asked for exactly if it does not run into a null pointer and the
number it reads makes no difference.** -/
theorem del_exact {v : Visit} {m : Menu} (hm : v.menu b = some m) (hdel : m.delHook = some del)
    (hok : okArg v.proc.env = none) :
    (∃ r, callHook b w true v = some (some r) ∧ DelExact w v r.proc) ↔
      ∃ id, (v.proc.env.findSome? fun e ↦ delId e.key) = some id ∧
        getval w (cstr "typ") v.proc ≠ none ∧
        ∀ key, v.delKey w = some key → SameTarget w v id key := by
  rw [callHook_del hm hdel hok]
  cases hid : v.proc.env.findSome? fun e ↦ delId e.key with
  | none => simp [del, hid]
  | some id =>
  cases htyp : getval w (cstr "typ") v.proc with
  | none => simp [del, hid, htyp]
  | some typ =>
  obtain ⟨r, hr, hproc⟩ := @del_some v.proc ⟨w, v.arg1, v.arg2⟩ [] id typ hid htyp
  have hkeyOf : v.delKey w = delList v.arg2 typ := by rw [Visit.delKey, htyp, Option.bind_some]
  have hexact : DelExact w v r.proc ↔ ∀ key, v.delKey w = some key → SameTarget w v id key := by
    rw [hproc, hkeyOf]
    cases hkey : delList v.arg2 typ with
    | none =>
      rw [hkey] at hkeyOf
      exact iff_of_true ⟨fun _ _ ↦ rfl, fun k hk ↦ by rw [hkeyOf] at hk; cases hk⟩
        fun k hk ↦ by cases hk
    | some key =>
      rw [hkey] at hkeyOf
      have hlist := @delEnt_exact_iff w v typ key id hkey
      constructor
      · rintro hd k hk
        cases hk
        exact hlist.mp (hd.list key hkeyOf)
      · refine fun hsame ↦ ⟨fun k hk ↦ ?_, fun k hk ↦ ?_⟩
        · rw [hkeyOf] at hk
          exact stored_putval_ne (fun he ↦ hk (congrArg some he.symm)) _ _ _
        · obtain rfl := Option.some.inj (hkeyOf.symm.trans hk)
          exact hlist.mpr (hsame key rfl)
  rw [hr, Option.map_some]
  constructor
  · rintro ⟨_, ⟨rfl⟩, hd⟩
    exact ⟨id, rfl, by simp, hexact.mp hd⟩
  · rintro ⟨_, ⟨rfl⟩, -, hsame⟩
    exact ⟨_, rfl, hexact.mpr hsame⟩

/-- A visit that deletes the second of three rules. -/
def secondRule : Visit :=
  ⟨cstr "fw", none, [], [],
    ⟨[⟨fwKey, cstr "1 2 3", 0⟩, ⟨cstr "typ", cstr "fw", 0⟩, ⟨cstr "d__2", cstr "x", 0⟩],
      fun _ ↦ none⟩⟩

theorem del_exact_secondRule : ∃ r, callHook ⟨false, false⟩ .bare true secondRule
    = some (some r) ∧ DelExact .bare secondRule r.proc :=
  (del_exact (b := ⟨false, false⟩) (m := ⟨cstr "fw", some okFw, some del⟩) rfl rfl
    (by decide)).mpr ⟨2, by decide, by decide, fun key hkey ↦ .inl (by decide)⟩

/-- A request that asks the list of filter rules for a deletion, and the process comes to no end
of it. -/
def RunsOff (q : Bytes) : Prop :=
  ∃ p args v, visitOf World.box (boxRequest (loginArgs ++ q)) boxFiles = some (p, args, v) ∧
    delFlag args = true ∧ okArg v.proc.env = none ∧
    (v.menu ⟨false, false⟩).map Menu.tmpl = some (cstr "fw") ∧
    ¬ ∃ r, callHook ⟨false, false⟩ World.box (delFlag args) v = some (some r)

/-- A request with an argument `d_x`, which names no item, and one with a button but without
`typ`: the process follows a null pointer. -/
theorem del_runs_off :
    RunsOff (cstr "op=fw&typ=fw&d_x=1") ∧ RunsOff (cstr "op=fw&d__1=x") := by
  have hfacts : ∀ q ∈ [cstr "op=fw&typ=fw&d_x=1", cstr "op=fw&d__1=x"],
      (visitOf World.box (boxRequest (loginArgs ++ q)) boxFiles).any (fun x ↦
        delFlag x.2.1 && decide (okArg x.2.2.proc.env = none) &&
          decide ((x.2.2.menu ⟨false, false⟩).map Menu.tmpl = some (cstr "fw")) &&
          (callHook ⟨false, false⟩ World.box (delFlag x.2.1) x.2.2).join.isNone) = true := by
    decide +kernel
  have hruns : ∀ q ∈ [cstr "op=fw&typ=fw&d_x=1", cstr "op=fw&d__1=x"], RunsOff q := by
    intro q hq
    obtain ⟨⟨p, args, v⟩, hv, h⟩ := (Option.any_eq_true ..).mp (hfacts q hq)
    simp only [Bool.and_eq_true, decide_eq_true_eq, Option.isNone_iff_eq_none] at h
    refine ⟨p, args, v, hv, h.1.1.1, h.1.1.2, h.1.2, ?_⟩
    rintro ⟨r, hr⟩
    rw [hr] at h
    cases h.2
  exact ⟨hruns _ (by simp), hruns _ (by simp)⟩

end Setup
