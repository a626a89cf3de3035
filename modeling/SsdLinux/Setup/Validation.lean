import SsdLinux.Setup.Pending

/-!
# What is checked before it is written

`err_chk` goes through the arguments `i_…` whose last write changed them, and applies
`err_chk_sub` to the setting `x_…` of each.  What is saved are the settings.  An argument `i_foo`
writes both, so that the two go together; but a setting can also reach the store on its own:

* `x_foo=…` writes the setting and leaves no `i_foo` behind;
* `i_foo` posted twice with the same value does not count as changed;
* a request without `s_ok` and with a `d_…` does the page's deletions, and saves, without any check.

`validated_iff` says that these are all the ways: when something is saved, every posted setting is
acceptable exactly if those are that went past the check.
-/

set_option autoImplicit false

namespace Setup

open CLib

variable {b : Build} {w : World} {r : Request} {f : Files} {p p' p0 : Proc} {args : List Arg}
  {v : Visit} {res : Result} {qs : List Put} {k : Bytes}

/-! ## What acceptance depends on -/

/-- The settings that decide how others are checked. -/
def crossKeys : List Bytes :=
  [cstr "x_eth_typ__eth0", cstr "x_eth_typ__eth1", cstr "x_dhcpd_enable__eth0",
    cstr "x_dhcpd_enable__eth1", cstr "x_ipv6_tunnel"]

/-- **Whether a value is accepted depends on the value and on the five settings.** -/
theorem accepts_congr (hk : stored k p = stored k p')
    (hcross : ∀ k' ∈ crossKeys, stored k' p = stored k' p') : Accepts w p k ↔ Accepts w p' k := by
  have h0 := getval_congr (w := w) hk
  simp only [crossKeys, List.forall_mem_cons, List.not_mem_nil, false_implies, implies_true,
    and_true] at hcross
  obtain ⟨h1, h2, h3, h4, h5⟩ := hcross
  have hnull : ∀ n : NotNull, n.holds w p = n.holds w p' := fun n ↦ by
    cases n <;>
      simp only [NotNull.holds, getval3, getval_congr h3, getval_congr h4, getval_congr h5]
  have hdhcp : ∀ typKey, stored typKey p = stored typKey p' →
      ethIsDhcp w p typKey = ethIsDhcp w p' typKey := fun typKey h ↦ by
    rw [ethIsDhcp, ethIsDhcp, getvalInt, getvalInt, getval_congr h]
  have hrun : ∀ (c : Check) (u : Bytes), c.run w p k u = c.run w p' k u := fun c u ↦ by
    cases c <;> simp only [Check.run, hdhcp _ h1, hdhcp _ h2]
  rw [Accepts, Accepts, errChkSub, errChkSub, getval3, getval3, h0]
  simp only [hnull, hrun]

/-! ## What is posted and what is checked -/

/-- The arguments of the request write the key. -/
def Posted (w : World) (p : Proc) (args : List Arg) (k : Bytes) : Prop :=
  ∃ q ∈ argsPuts w p args, q.key = k

instance (w : World) (p : Proc) (args : List Arg) (k : Bytes) : Decidable (Posted w p args k) :=
  inferInstanceAs (Decidable (∃ q ∈ argsPuts w p args, _))

/-- The arguments write none of the keys. -/
theorem not_posted_of_forall {K : Bytes → Prop} (h : ∀ q ∈ argsPuts w p args, ¬ K q.key)
    {k : Bytes} (hk : K k) : ¬ Posted w p args k := by
  rintro ⟨q, hq, rfl⟩
  exact h q hq hk

/-- The argument a setting is checked through. -/
def iKey (k : Bytes) : Bytes := 105 :: k.tail

/-- `err_chk` is called and looks at the setting: its argument was changed by the last write. -/
def Checked (v : Visit) (p0 : Proc) (qs : List Put) (k : Bytes) : Prop :=
  okArg v.proc.env ≠ none ∧ ChangedLast p0 qs (iKey k)

/-- Every setting that was posted and is going to be saved has an accepted value. -/
def Validated (w : World) (p : Proc) (args : List Arg) (v : Visit) : Prop :=
  ∀ k, persistKey k = true → Posted w p args k → Accepts w v.proc k

/-- What is saved is not touched by `main` itself. -/
theorem stored_visit (hv : gate w p = some (.enter v)) (hk : persistKey k = true) :
    stored k v.proc = stored k p := by
  obtain ⟨s, rfl⟩ := exists_of_isSetting (isSetting_of_persistKey hk)
  refine stored_edits (edits_gate hv) ?_ (fun _ h ↦ h.elim)
  rintro q (hq | ⟨hq, -⟩ | hq) he
  · have hcolor : ∀ q ∈ colorPuts, q.key.head? ≠ some 120 := by decide
    exact hcolor q hq (by rw [he]; rfl)
  · rw [hq] at he
    rw [← he] at hk
    exact absurd hk (by decide)
  · rw [hq] at he
    exact absurd (congrArg List.head? he) (by simp; decide)

/-- A setting that is not posted is the one of the files. -/
theorem stored_visit_of_not_posted (hv : Visits w r f p args v) (hk : persistKey k = true)
    (hpost : ¬ Posted w p args k) : stored k v.proc = stored k p := by
  rw [stored_visit hv.gate hk, getargs, stored, getvalp_foldl_of_not_mem, ← stored]
  exact fun q hq he ↦ hpost ⟨q, hq, he⟩

/-- An argument `i_…` keeps its entry until `page_setup`. -/
theorem getvalp_visit_iKey (hv : gate w p = some (.enter v)) (k : Bytes) :
    getvalp (iKey k) v.proc = getvalp (iKey k) p := by
  have hhead : ∀ k', k' = iKey k → k'.head? = some 105 := fun k' h ↦ by rw [h]; rfl
  refine getvalp_edits (edits_gate hv) ?_ ?_ (fun _ h ↦ h.elim)
  · rintro q (hq | ⟨hq, -⟩ | hq) he
    · have hcolor : ∀ q ∈ colorPuts, q.key.head? ≠ some 105 := by decide
      exact hcolor q hq (hhead _ he)
    · exact absurd (hhead _ he) (by rw [hq]; decide)
    · exact absurd (hhead _ he) (by rw [hq]; decide)
  · intro k' hk' he
    have hhide : ∀ k ∈ [cstr "x_key", cstr "x_login", cstr "x_passwd"], k.head? ≠ some 105 := by
      decide
    exact hhide k' hk' (hhead _ he)

/-- **What is checked is accepted**, if the page's function is called. -/
theorem accepts_of_checked (hv : gate w (getargs w p args) = some (.enter v))
    (h0 : readSaved w f r.environ = some p0) (hqs : requestPuts w f p0 args = some qs)
    (hstore : getargs w p args = qs.foldl Put.run p0) (herr : errChk w v.proc = some [])
    (hk : isSetting k = true) (hc : ChangedLast p0 qs (iKey k)) : Accepts w v.proc k := by
  obtain ⟨s, rfl⟩ := exists_of_isSetting hk
  have hflag := (flag_foldl p0 qs (k := iKey (120 :: underscore :: s)) (List.cons_ne_nil _ _)
    (fun q hq he ↦ requestPuts_sw hqs q hq (by rw [he]; rfl))
    (fun e he ↦ readSaved_flag_zero h0 e (Keyed.mem_of_find _ he))).2
  obtain ⟨e, he, h3⟩ := hflag.mpr hc
  rw [← hstore, ← getvalp_visit_iKey hv] at he
  have hkey : e.key = iKey (120 :: underscore :: s) := Keyed.key_of_find Entry.key he
  have h := errChk_eq_nil_iff.mp herr e (Keyed.mem_of_find _ he) (by
    rw [Entry.checked, h3, hkey, iKey, show cstr "i_" = [105, underscore] by decide]
    simp)
  rw [hkey] at h
  exact h

/-- A function of the menu leaves the settings alone that are not its own. -/
theorem stored_callHook {dFlg : Bool} (hres : callHook b w dFlg v = some (some res))
    (hk : persistKey k = true) (hown : ownKey k = false) :
    stored k res.proc = stored k v.proc := by
  refine stored_edits (edits_callHook hres) (fun q hq he ↦ ?_) (fun k' hk' he ↦ ?_)
  · rw [← he, ownKey, hq.1] at hown
    cases hown
  · rw [← he, show k' = cstr "x_sendmail_relay___T" from hk'] at hk
    exact absurd hk (by decide)

/-- **When something is saved, every posted setting is acceptable exactly if those are that went
past the check.**  What is saved is what was posted, unless the page's function writes the key
itself. -/
theorem validated_iff (hv : Visits w r f p args v)
    (hres : callHook b w (delFlag args) v = some (some res)) (hwrote : res.wrote = true) :
    ∃ p0 qs, readSaved w f r.environ = some p0 ∧ requestPuts w f p0 args = some qs ∧
      (Validated w p args v ↔ ∀ k, persistKey k = true → Posted w p args k →
        ¬ Checked v p0 qs k → Accepts w v.proc k) ∧
      ∀ k, persistKey k = true →
        (ownKey k = false → stored k res.proc = stored k (getargs w p args)) ∧
        (stored k res.proc = stored k v.proc → (Accepts w res.proc k ↔ Accepts w v.proc k)) := by
  obtain ⟨p0, qs, h0, hqs, hstore⟩ := exists_requestPuts (conf_of_readRequest hv.request) args
  refine ⟨p0, qs, h0, hqs, ⟨fun h k hk hpost _ ↦ h k hk hpost, fun h k hk hpost ↦ ?_⟩,
    fun k hk ↦ ⟨fun hown ↦ ?_, fun hsame ↦ ?_⟩⟩
  · by_cases hc : Checked v p0 qs k
    · rcases callHook_cases hres with ⟨st, rfl⟩ | ⟨m, hm, ⟨arg, hook, -, herr, -⟩ |
        ⟨hook, r, harg, -⟩⟩
      · cases hwrote
      · exact accepts_of_checked hv.gate h0 hqs hstore herr (isSetting_of_persistKey hk) hc.2
      · exact absurd harg hc.1
    · exact h k hk hpost hc
  · rw [← stored_visit hv.gate hk]
    exact stored_callHook hres hk hown
  · refine accepts_congr hsame fun k' hk' ↦ stored_callHook hres ?_ ?_ <;>
    · revert k'
      decide

/-- A login, and a new name for the machine. -/
def renameRequest : Request := boxRequest (loginArgs ++ cstr "op=system&s_ok=1&i_hostname=blocks")

theorem validated_rename : ∃ p args v p0 qs, ∃ res : Result,
    Visits World.box renameRequest boxFiles p args v ∧ res.wrote = true ∧
    requestPuts World.box boxFiles p0 args = some qs ∧
    (Validated World.box p args v ↔ ∀ k, persistKey k = true → Posted World.box p args k →
      ¬ Checked v p0 qs k → Accepts World.box v.proc k) := by
  have hfacts : (visitOf World.box renameRequest boxFiles).any (fun x ↦
      (callHook ⟨false, false⟩ World.box (delFlag x.2.1) x.2.2).join.any Result.wrote) = true := by
    decide +kernel
  obtain ⟨p, args, v, res, -, hvis, hres, hw⟩ := exists_of_visitOf hfacts
  obtain ⟨p0, qs, -, hqs, hiff, -⟩ := validated_iff hvis hres hw
  exact ⟨p, args, v, p0, qs, res, hvis, hw, hqs, hiff⟩

/-- The name of a machine posted under the name of the setting. -/
def badNameRequest : Request :=
  boxRequest (loginArgs ++ cstr "op=system&s_ok=1&x_hostname=bad%20host")

/-- It is saved without a check. -/
theorem badName_not_validated : ∃ p args v res,
    Visits World.box badNameRequest boxFiles p args v ∧
    callHook ⟨false, false⟩ World.box (delFlag args) v = some (some res) ∧ res.wrote = true ∧
    stored (cstr "x_hostname") res.proc = some (cstr "bad host") ∧
    ¬ Validated World.box p args v := by
  have hfacts : (visitOf World.box badNameRequest boxFiles).any (fun x ↦
      (callHook ⟨false, false⟩ World.box (delFlag x.2.1) x.2.2).join.any fun res ↦
        res.wrote && decide (stored (cstr "x_hostname") res.proc = some (cstr "bad host")) &&
        decide (cstr "x_hostname" ∈ (argsPuts World.box x.1 x.2.1).map Put.key) &&
        decide (¬ Accepts World.box x.2.2.proc (cstr "x_hostname"))) = true := by
    decide +kernel
  obtain ⟨p, args, v, res, -, hvis, hres, hfacts⟩ := exists_of_visitOf hfacts
  simp only [Bool.and_eq_true, decide_eq_true_eq] at hfacts
  obtain ⟨⟨⟨hw, hval⟩, hpost⟩, hnot⟩ := hfacts
  obtain ⟨q, hq, hkey⟩ := List.mem_map.mp hpost
  exact ⟨p, args, v, res, hvis, hres, hw, hval, fun h ↦ hnot (h _ (by decide) ⟨q, hq, hkey⟩)⟩

end Setup
