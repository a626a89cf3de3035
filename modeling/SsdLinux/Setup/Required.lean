import SsdLinux.Setup.Moves
import SsdLinux.Setup.Rc2conf

/-!
# Settings that need other settings

`err_chk` refuses an empty bound of the addresses that `dhcpd` gives out, but only while `dhcpd` is
on for the interface, and it only looks at the fields that a request changes.  So the bounds can be
cleared while `dhcpd` is off, and when it is turned on later on nobody looks at them again
(`cleared_then_enabled`).

The two addresses of the tunnel are worse off: the row `x_ipv6_tunnel` stands before theirs in the
table and is the beginning of their names, so `err_chk` takes that one for them and checks nothing
(`accepts_tunnel`).

`required_of_reaches` says what the requests have to see to themselves.  The interfaces `eth2` and
`eth3`, which `rc2dhcpd_sub` prints as well, are no different: their bounds have no row at all, and
`err_chk` refuses whatever is posted for them.
-/

set_option autoImplicit false

namespace Setup

open CLib

variable {b : Build} {w : World} {r : Request} {f : Files} {p : Proc} {args : List Arg} {v : Visit}
  {res : Result} {k : Bytes} {m : Bytes → Option Bytes}

/-! ## The rules -/

/-- What can be turned on, and needs two addresses then. -/
inductive Service
  | dhcpd (no : Fin 4)
  | tunnel
  deriving DecidableEq, Repr

namespace Service

/-- The setting that turns it on. -/
def switch : Service → Bytes
  | dhcpd no => dhcpdKey (cstr "enable") no
  | tunnel => cstr "x_ipv6_tunnel"

/-- The settings that it needs. -/
def needs : Service → List Bytes
  | dhcpd no => [dhcpdKey (cstr "range1") no, dhcpdKey (cstr "range2") no]
  | tunnel => [cstr "x_ipv6_tunnel_here", cstr "x_ipv6_tunnel_there"]

def all : List Service := (List.finRange 4).map dhcpd ++ [tunnel]

theorem mem_all (s : Service) : s ∈ all := by
  cases s with
  | dhcpd no =>
    revert no
    decide
  | tunnel => decide

/-- It is on. -/
def On (s : Service) (m : Bytes → Option Bytes) : Prop :=
  strcaseeq ((m s.switch).getD []) (cstr "YES") = true

instance decidableOn (s : Service) (m : Bytes → Option Bytes) : Decidable (s.On m) :=
  inferInstanceAs (Decidable (_ = _))

end Service

/-- The setting is an address. -/
def IsAddr (m : Bytes → Option Bytes) (k : Bytes) : Prop :=
  (m k).getD [] ≠ [] ∧ isIp4 ((m k).getD []) = some true

instance decidableIsAddr (m : Bytes → Option Bytes) : DecidablePred (IsAddr m) :=
  fun _ ↦ inferInstanceAs (Decidable (_ ∧ _))

/-- **What is on has its addresses.** -/
def Required (m : Bytes → Option Bytes) : Prop := ∀ s : Service, s.On m → ∀ k ∈ s.needs, IsAddr m k

/-- The keys that the rules are about. -/
def RequiredKey (k : Bytes) : Prop := ∃ s ∈ Service.all, k = s.switch ∨ k ∈ s.needs

instance decidableRequiredKey : DecidablePred RequiredKey :=
  fun _ ↦ inferInstanceAs (Decidable (∃ s ∈ Service.all, _))

theorem requiredKey_switch (s : Service) : RequiredKey s.switch := ⟨s, s.mem_all, .inl rfl⟩

theorem requiredKey_needs {s : Service} (hk : k ∈ s.needs) : RequiredKey k :=
  ⟨s, s.mem_all, .inr hk⟩

theorem forall_requiredKey {P : Bytes → Prop}
    (h : ∀ s ∈ Service.all, P s.switch ∧ ∀ k ∈ s.needs, P k) (hk : RequiredKey k) : P k := by
  obtain ⟨s, hs, rfl | hk⟩ := hk
  · exact (h s hs).1
  · exact (h s hs).2 k hk

theorem kept_requiredKey : Kept RequiredKey where
  persist _ hk := forall_requiredKey (P := fun k ↦ persistKey k = true) (by decide) hk
  clock _ hk := forall_requiredKey (P := fun k ↦ k ∉ clockKeys) (by decide) hk

theorem ownKey_of_requiredKey (hk : RequiredKey k) : ownKey k = false :=
  forall_requiredKey (P := fun k ↦ ownKey k = false) (by decide) hk

theorem Required.congr {m' : Bytes → Option Bytes} (hm : ∀ k, RequiredKey k → m k = m' k)
    (h : Required m) : Required m' := by
  intro s hon k hk
  rw [Service.On, ← hm _ (requiredKey_switch s)] at hon
  have hk' := h s hon k hk
  rwa [IsAddr, hm k (requiredKey_needs hk)] at hk'

/-! ## What `err_chk` says about them -/

/-- **The addresses of the tunnel are never checked.** -/
theorem accepts_tunnel (hk : k ∈ Service.tunnel.needs) : Accepts w p k := by
  have hrow : ∀ k ∈ Service.tunnel.needs,
      (vtabRow k).map (fun row ↦ (row.key, row.notNull, row.chk))
        = some (cstr "x_ipv6_tunnel", .no, none) := by
    decide +kernel
  obtain ⟨row, hrow, he⟩ := Option.map_eq_some_iff.mp (hrow k hk)
  simp only [Prod.mk.injEq] at he
  rw [accepts_iff hrow, he.2.1, he.2.2]
  split
  · rfl
  · nofun

theorem getval3_requiredKey (hk : RequiredKey k) : getval3 w k p = (stored k p).getD [] :=
  getval3_eq (kept_requiredKey.clock k hk) p

/-- What passes a row that wants an address now is one. -/
theorem isAddr_of_row {n : NotNull} (hk : RequiredKey k) (h : Accepts w p k)
    (hrow : (vtabRow k).map (fun row ↦ (row.notNull, row.chk)) = some (n, some .ip4))
    (hn : n.holds w p = true) : IsAddr (fun k ↦ stored k p) k := by
  obtain ⟨row, hrow, he⟩ := Option.map_eq_some_iff.mp hrow
  obtain ⟨hnull, hchk⟩ := Prod.mk.inj he
  rw [accepts_iff hrow, hnull, hchk, hn, getval3_requiredKey hk] at h
  split at h
  · cases h
  · rename_i hne
    obtain ⟨ok, hok, hmsg⟩ := Option.map_eq_some_iff.mp (h .ip4 rfl)
    refine ⟨hne, hok.trans (congrArg some ?_)⟩
    by_contra hno
    rw [ip4Msg, if_neg hno] at hmsg
    cases hmsg

/-- **A bound that is accepted while `dhcpd` is on is an address.** -/
theorem isAddr_of_accepts {no : Fin 4} (hk : k ∈ (Service.dhcpd no).needs) (h : Accepts w p k)
    (hon : (Service.dhcpd no).On fun k ↦ stored k p) : IsAddr (fun k ↦ stored k p) k := by
  have hrow : ∀ no : Fin 4, ∀ k ∈ (Service.dhcpd no).needs,
      (vtabRow k).map (fun row ↦ (row.notNull, row.chk)) = if no = 0 then some (.dhcp0, some .ip4)
        else if no = 1 then some (.dhcp1, some .ip4) else none := by
    decide +kernel
  have hkey := requiredKey_needs hk
  have hon' : strcaseeq (getval3 w (Service.dhcpd no).switch p) (cstr "YES") = true := by
    rw [getval3_requiredKey (requiredKey_switch _)]
    exact hon
  have hnone : (vtabRow k).map (fun row ↦ (row.notNull, row.chk)) ≠ none := fun he ↦
    not_accepts_of_row_none (Option.map_eq_none_iff.mp he) h
  match no with
  | 0 => exact isAddr_of_row hkey h (hrow 0 k hk) hon'
  | 1 => exact isAddr_of_row hkey h (hrow 1 k hk) hon'
  | 2 => exact absurd (hrow 2 k hk) hnone
  | 3 => exact absurd (hrow 3 k hk) hnone

/-! ## Histories -/

/-- A request that sees to what is on. -/
structure RequiredSafe (b : Build) (w : World) (p : Proc) (v : Visit) (p0 : Proc)
    (qs : List Put) : Prop where
  saves : Saves b RequiredKey w v
  /-- An address that the request changes, of something that is on then, is checked, or it is an
  address anyway. -/
  changed : ∀ s : Service, (s.On fun k ↦ stored k v.proc) → ∀ k ∈ s.needs,
    stored k v.proc ≠ stored k p →
      (∃ no, s = .dhcpd no) ∧ Checked v p0 qs k ∨ IsAddr (fun k ↦ stored k v.proc) k
  /-- What the request turns on without changing an address had that address before. -/
  turned : ∀ s : Service, (s.On fun k ↦ stored k v.proc) → (¬ s.On fun k ↦ stored k p) →
    ∀ k ∈ s.needs, stored k v.proc = stored k p → IsAddr (fun k ↦ stored k p) k

/-- The request sees to what is on, if it is accepted. -/
def SeesTo (b : Build) (w : World) (r : Request) (f : Files) : Prop :=
  ∀ p args v p0 qs, Visits w r f p args v → v.Accepted w → readSaved w f r.environ = some p0 →
    requestPuts w f p0 args = some qs → RequiredSafe b w p v p0 qs

/-- What is on has its addresses after such a request. -/
theorem Required.visit {p0 : Proc} {qs : List Put} (h : Required fun k ↦ stored k p)
    (hsafe : RequiredSafe b w p v p0 qs) (hv : Visits w r f p args v) (hacc : v.Accepted w)
    (h0 : readSaved w f r.environ = some p0) (hqs : requestPuts w f p0 args = some qs)
    (hstore : getargs w p args = qs.foldl Put.run p0) : Required fun k ↦ stored k v.proc := by
  intro s hon k hk
  have hkey := requiredKey_needs hk
  by_cases hsame : stored k v.proc = stored k p
  · -- an address that was there before
    have hold : IsAddr (fun k ↦ stored k p) k := by
      by_cases hbefore : s.On fun k ↦ stored k p
      · exact h s hbefore k hk
      · exact hsafe.turned s hon hbefore k hk hsame
    rwa [IsAddr, ← hsame] at hold
  · rcases hsafe.changed s hon k hk hsame with ⟨⟨no, rfl⟩, hc⟩ | haddr
    · have herr := hacc.resolve_left hc.1
      exact isAddr_of_accepts hk (accepts_of_checked hv.gate h0 hqs hstore herr
        (isSetting_of_persistKey (kept_requiredKey.persist k hkey)) hc.2) hon
    · exact haddr

/-- **In every store that is reached, what is on has its addresses**, and what is printed for
`dhcpd` has both bounds. -/
theorem required_of_reaches (hreach : Reaches b (SeesTo b) shippedFiles f)
    {environ : Bytes → Option Bytes} (hread : readConf w f environ = some p) :
    (∀ s : Service, strcaseeq (getval3 w s.switch p) (cstr "YES") = true → ∀ k ∈ s.needs,
      getval3 w k p ≠ [] ∧ isIp4 (getval3 w k p) = some true) ∧
    ∀ (m : Machine) (no : ℕ), rc2dhcpdSub m w no p ≠ [] →
      getval3 w (dhcpdKey (cstr "range1") no) p ≠ [] ∧
        getval3 w (dhcpdKey (cstr "range2") no) p ≠ [] := by
  have hK := kept_requiredKey
  have hshipped : Required fun k ↦ lookup k shipped := by
    have hall : ∀ s ∈ Service.all, (s.On fun k ↦ lookup k shipped) → ∀ k ∈ s.needs,
        IsAddr (fun k ↦ lookup k shipped) k := by
      decide +kernel
    exact fun s ↦ hall s s.mem_all
  have hstart : Required (Layers.view ⟨shipped, shipped, none⟩) := by
    refine hshipped.congr fun k _ ↦ ?_
    rw [Layers.view, Layers.base, Option.or_self]
    rfl
  obtain ⟨L, hL, hview⟩ := settings_of_reaches hK (fun _ _ hm h ↦ h.congr hm)
    (tidy_shippedFiles RequiredKey) hshipped hstart
    (fun w r f p args v res hreq hv hres hw h ↦ by
      have hacc := accepted_of_wrote hres hw
      obtain ⟨p0, qs, h0, hqs, hstore⟩ := exists_requestPuts (conf_of_readRequest hv.request) args
      have hsafe := hreq p args v p0 qs hv hacc h0 hqs
      refine ⟨hsafe.saves.callHook hv hres,
        (h.visit hsafe hv hacc h0 hqs hstore).congr fun k hk ↦ ?_⟩
      exact (stored_callHook hres (hK.persist k hk) (ownKey_of_requiredKey hk)).symm)
    hreach
  have hget : ∀ k, RequiredKey k → getval3 w k p = (L.view k).getD [] := fun k hk ↦ by
    rw [getval3_requiredKey hk, hL.stored hread hk (hK.ne_nil hk)]
  have haddr : ∀ s : Service, strcaseeq (getval3 w s.switch p) (cstr "YES") = true →
      ∀ k ∈ s.needs, getval3 w k p ≠ [] ∧ isIp4 (getval3 w k p) = some true := by
    intro s hon k hk
    rw [hget _ (requiredKey_switch s)] at hon
    rw [hget k (requiredKey_needs hk)]
    exact hview s hon k hk
  refine ⟨haddr, fun m no hne ↦ ?_⟩
  rw [rc2dhcpdSub] at hne
  split_ifs at hne with hno hyes
  · exact absurd rfl hne
  · exact absurd rfl hne
  · have hon : strcaseeq (getval3 w (Service.dhcpd ⟨no, by omega⟩).switch p) (cstr "YES")
        = true := by
      rw [Service.switch, not_not.mp hyes]
      decide
    exact ⟨(haddr _ hon _ List.mem_cons_self).1,
      (haddr _ hon _ (List.mem_cons_of_mem _ List.mem_cons_self)).1⟩

/-! ## Turning `dhcpd` on -/

/-- The button of the page of `dhcpd`, with these fields. -/
def dhcpdForm (fields : Bytes) : Request :=
  boxRequest (loginArgs ++ cstr "op=dhcpd&s_ok=1" ++ fields)

/-- On a new machine the bounds are there. -/
theorem required_enabled : ∃ o,
    main ⟨false, false⟩ World.box (dhcpdForm (cstr "&i_dhcpd_enable__eth0=YES")) shippedFiles
      = some o ∧
    Reaches ⟨false, false⟩ (SeesTo ⟨false, false⟩) shippedFiles o.files ∧
    ∀ environ p, readConf World.box o.files environ = some p →
      (∀ s : Service, strcaseeq (getval3 World.box s.switch p) (cstr "YES") = true →
        ∀ k ∈ s.needs, getval3 World.box k p ≠ [] ∧ isIp4 (getval3 World.box k p) = some true) ∧
      ∀ (m : Machine) (no : ℕ), rc2dhcpdSub m World.box no p ≠ [] →
        getval3 World.box (dhcpdKey (cstr "range1") no) p ≠ [] ∧
          getval3 World.box (dhcpdKey (cstr "range2") no) p ≠ [] := by
  have hfacts : (visitOf World.box (dhcpdForm (cstr "&i_dhcpd_enable__eth0=YES"))
      shippedFiles).any (fun (x : Proc × List Arg × Visit) ↦
        (callHook ⟨false, false⟩ World.box (delFlag x.2.1) x.2.2).join.any fun _ ↦
          decide (Writable RequiredKey x.2.2.proc.env ∧
            x.2.2.target ⟨false, false⟩ World.box = none ∧ x.2.2.deletes World.box = none ∧
            ∀ s ∈ Service.all, (s.On fun k ↦ stored k x.2.2.proc) → ∀ k ∈ s.needs,
              stored k x.2.2.proc = stored k x.1 ∧ IsAddr (fun k ↦ stored k x.1) k)) = true := by
    decide +kernel
  obtain ⟨p, args, v, res, hv, hvis, hres, hfacts⟩ := exists_of_visitOf hfacts
  rw [decide_eq_true_eq] at hfacts
  obtain ⟨hwrite, htarget, hdel, haddr⟩ := hfacts
  have hmain := main_of_visits hvis hres
  have hsees : SeesTo ⟨false, false⟩ World.box (dhcpdForm (cstr "&i_dhcpd_enable__eth0=YES"))
      shippedFiles := by
    intro p' args' v' p0 qs hvis' _ _ _
    cases (visitOf_of_visits hvis').symm.trans hv
    refine ⟨⟨hwrite, fun t ht ↦ ?_, fun key tgt h ↦ ?_, fun _ _ ↦ Nat.zero_lt_succ _⟩,
      fun s hon k hk hne ↦ absurd (haddr s s.mem_all hon k hk).1 hne,
      fun s hon _ k hk _ ↦ (haddr s s.mem_all hon k hk).2⟩
    · cases htarget.symm.trans ht
    · cases hdel.symm.trans h
  have hreach : Reaches ⟨false, false⟩ (SeesTo ⟨false, false⟩) shippedFiles _ :=
    .single ⟨_, _, _, hmain, hsees, rfl⟩
  exact ⟨_, hmain, hreach, fun environ p hread ↦ required_of_reaches hreach hread⟩

/-- **The lower bound is cleared while `dhcpd` is off; then it is turned on**, and the range that is
printed has no lower bound. -/
theorem cleared_then_enabled : ∃ f p,
    Reaches ⟨false, false⟩
      (fun w r f ↦ ∃ p args v, Visits w r f p args v ∧ v.Accepted w ∧ okArg v.proc.env ≠ none)
      shippedFiles f ∧
    readConf World.box f insideEnv = some p ∧
    getval3 World.box (cstr "x_dhcpd_enable__eth0") p = cstr "YES" ∧
    getval3 World.box (cstr "x_dhcpd_range1__eth0") p = [] ∧
    rangeLine World.box 0 p = cstr "    range  192.168.253.131;\n" ∧
    ∀ m : Machine, rc2dhcpdSub m World.box 0 p ≠ [] := by
  have hfacts : ([dhcpdForm (cstr "&i_dhcpd_range1__eth0="),
      dhcpdForm (cstr "&i_dhcpd_enable__eth0=YES")].foldlM
        (serve (fun v ↦ okArg v.proc.env ≠ none) ⟨false, false⟩ World.box) shippedFiles).any
      (fun f ↦ (readConf World.box f insideEnv).any fun p ↦
        decide (getval3 World.box (cstr "x_dhcpd_enable__eth0") p = cstr "YES" ∧
          getval3 World.box (cstr "x_dhcpd_range1__eth0") p = [] ∧
          rangeLine World.box 0 p = cstr "    range  192.168.253.131;\n")) = true := by
    decide +kernel
  simp only [Option.any_eq_true, decide_eq_true_eq] at hfacts
  obtain ⟨f, hf, p, hread, hon, hrange, hline⟩ := hfacts
  refine ⟨f, p, reaches_of_serve hf, hread, hon, hrange, hline, fun m ↦ ?_⟩
  have hkey : dhcpdKey (cstr "enable") 0 = cstr "x_dhcpd_enable__eth0" := by decide
  rw [rc2dhcpdSub, if_neg (by decide), hkey, if_neg (not_not.mpr hon)]
  exact List.append_ne_nil_of_right_ne_nil _ (by decide)

end Setup
