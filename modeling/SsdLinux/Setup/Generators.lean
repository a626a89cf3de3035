import SsdLinux.Setup.Rc2conf
import SsdLinux.Setup.Conf

/-!
# Do the generators leave the settings alone?

All but one of them only look.  `rc2sendmail` hands the list of the relays to `strtok`, which writes
a NUL behind the first id, and from then on the list is that id alone.  `generators_unchanged_iff`
is about any of the generators, in any order and any number: the store is what it was, and so are
the files of a second run and the configuration that a `write_conf` would write, exactly if
`rc2sendmail` does not get as far as the list or the list has nothing behind its first id.
-/

set_option autoImplicit false

namespace Setup

open CLib

variable {m : Machine} {w : World} {p : Proc} {gs : List Generator} {serial : ℤ}

/-! ## `strtok` -/

/-- `strtok` leaves a string as it is exactly if no blank comes after its first run. -/
theorem strtokCut_eq_self_iff (s : Bytes) :
    strtokCut s = s ↔ blank ∉ s.dropWhile (· == blank) := by
  have hsplit : s = s.takeWhile (· == blank) ++ s.dropWhile (· == blank) :=
    List.takeWhile_append_dropWhile.symm
  rw [strtokCut]
  conv_lhs => rhs; rw [hsplit]
  rw [List.append_cancel_left_eq, List.takeWhile_eq_self_iff]
  exact ⟨fun h hb ↦ by simpa using h _ hb, fun h c hc ↦ by
    simpa using fun he : c = blank ↦ h (he ▸ hc)⟩

theorem strtokCut_strtokCut (s : Bytes) : strtokCut (strtokCut s) = strtokCut s := by
  have hhead : ∀ t : Bytes, (∀ c ∈ t.head?, c ≠ blank) → t.dropWhile (· == blank) = t := by
    intro t ht
    cases t with
    | nil => rfl
    | cons c t => exact List.dropWhile_cons_of_neg (by simpa using ht c rfl)
  have hdrop : (strtokCut s).dropWhile (· == blank)
      = (s.dropWhile (· == blank)).takeWhile (· != blank) := by
    have hblanks : ∀ c ∈ s.takeWhile (· == blank), (c == blank) = true := fun c hc ↦
      List.mem_takeWhile_imp (p := (· == blank)) hc
    rw [strtokCut, List.dropWhile_append_of_pos hblanks]
    refine hhead _ fun c hc ↦ ?_
    simpa using List.mem_takeWhile_imp (List.mem_of_mem_head? hc)
  rw [strtokCut_eq_self_iff, hdrop]
  intro hb
  simpa using List.mem_takeWhile_imp hb

/-- An entry after `strtok` has been at its value. -/
def Entry.cut (e : Entry) : Entry := { e with val := strtokCut e.val }

theorem cutval_cutval (key : Bytes) (p : Proc) : cutval key (cutval key p) = cutval key p := by
  have htwice : Keyed.modify Entry.key key Entry.cut (Keyed.modify Entry.key key Entry.cut p.env)
      = Keyed.modify Entry.key key Entry.cut p.env := by
    refine Keyed.modify_modify ?_ ?_ _
    · exact fun e ↦ rfl
    · exact fun e ↦ congrArg (Entry.mk e.key · e.flag) (strtokCut_strtokCut e.val)
  exact congrArg (Proc.mk · p.environ) htwice

theorem cutval_env_iff (key : Bytes) (p : Proc) :
    (cutval key p).env = p.env ↔ ∀ v ∈ stored key p, blank ∉ v.dropWhile (· == blank) := by
  rw [cutval, Keyed.modify_eq_self_iff, stored]
  simp only [Option.mem_def, Option.map_eq_some_iff, forall_exists_index, and_imp,
    forall_apply_eq_imp_iff₂]
  refine forall₂_congr fun e _ ↦ ?_
  rw [← strtokCut_eq_self_iff]
  exact ⟨fun h ↦ congrArg Entry.val h, fun h ↦ by rw [h]⟩

/-! ## Runs of generators -/

/-- `rc2sendmail` is among them, and gets as far as the list of the relays. -/
def ReachesRelays (m : Machine) (gs : List Generator) : Prop :=
  .sendmail ∈ gs ∧ m.writable localHostNames = true ∧ m.writable relayDomains = true

instance (m : Machine) (gs : List Generator) : Decidable (ReachesRelays m gs) :=
  inferInstanceAs (Decidable (_ ∧ _))

/-- **What a generator does to the store.** -/
theorem proc_run (g : Generator) :
    (g.run m w serial p).proc = if ReachesRelays m [g] then cutval relayKey p else p := by
  cases g with
  | sendmail =>
    rw [Generator.run, rc2sendmail]
    cases h1 : m.writable localHostNames <;> cases h2 : m.writable relayDomains <;>
      simp [ReachesRelays, h1, h2]
  | dhcpd =>
    rw [Generator.run, rc2dhcpd]
    split <;> simp [ReachesRelays]
  | named =>
    rw [Generator.run, rc2named]
    split
    · simp [ReachesRelays]
    · split <;> simp [ReachesRelays, namedGen]
  | resolv =>
    rw [Generator.run, rc2resolv]
    dsimp only
    split <;> simp [ReachesRelays]
  | httpd =>
    rw [Generator.run, rc2httpd]
    split
    · simp [ReachesRelays]
    · split <;> simp [ReachesRelays]
  | namedLocal => simp [Generator.run, rc2namedLocal, ReachesRelays]
  | samba =>
    rw [Generator.run, rc2samba]
    split
    · simp [ReachesRelays]
    · split <;> simp [ReachesRelays]

/-- **What any number of generators do to the store.** -/
theorem proc_runGenerators (gs : List Generator) (p : Proc) :
    (runGenerators m w serial gs p).1 = if ReachesRelays m gs then cutval relayKey p else p := by
  induction gs generalizing p with
  | nil => simp [runGenerators, ReachesRelays]
  | cons g gs ih =>
    rw [runGenerators]
    dsimp only
    rw [ih, proc_run]
    by_cases hg : ReachesRelays m [g]
    · have hall : ReachesRelays m (g :: gs) :=
        ⟨List.mem_singleton.mp hg.1 ▸ List.mem_cons_self, hg.2⟩
      rw [if_pos hg, if_pos hall, cutval_cutval, ite_self]
    · have hiff : ReachesRelays m (g :: gs) ↔ ReachesRelays m gs := by
        refine ⟨fun h ↦ ⟨?_, h.2⟩, fun h ↦ ⟨List.mem_cons_of_mem _ h.1, h.2⟩⟩
        rcases List.mem_cons.mp h.1 with he | hmem
        · exact absurd ⟨List.mem_singleton.mpr he, h.2⟩ hg
        · exact hmem
      rw [if_neg hg]
      simp only [hiff]

/-- **Generating the service files leaves the configuration as it is exactly if `rc2sendmail` finds
no second relay.** -/
theorem generators_unchanged_iff :
    ((runGenerators m w serial gs p).1.env = p.env ∧
      (∀ w' serial', (runGenerators m w' serial' gs (runGenerators m w serial gs p).1).2
        = (runGenerators m w' serial' gs p).2) ∧
      writeConf (runGenerators m w serial gs p).1.env = writeConf p.env) ↔
    (ReachesRelays m gs → ∀ v ∈ stored relayKey p, blank ∉ v.dropWhile (· == blank)) := by
  rw [proc_runGenerators]
  by_cases hgs : ReachesRelays m gs
  · rw [if_pos hgs, ← cutval_env_iff]
    refine ⟨fun h _ ↦ h.1, fun h ↦ ?_⟩
    have hsame : cutval relayKey p = p := by
      have henv := h hgs
      rw [cutval] at henv ⊢
      cases p
      exact congrArg (Proc.mk · _) henv
    rw [hsame]
    exact ⟨rfl, fun _ _ ↦ rfl, rfl⟩
  · rw [if_neg hgs]
    exact ⟨fun _ h ↦ absurd h hgs, fun _ ↦ ⟨rfl, fun _ _ ↦ rfl, rfl⟩⟩

/-! ## Two relays -/

/-- A machine on which every file can be written and there is nothing to read. -/
def Machine.bare : Machine := ⟨fun _ ↦ none, fun _ ↦ true, fun _ ↦ []⟩

/-- Two relays. -/
def relayProc : Proc :=
  [⟨relayKey, cstr "0 1", 0⟩, ⟨cstr "x_sendmail_relay__0", cstr "10.0.0.1", 0⟩,
    ⟨cstr "x_sendmail_relay__1", cstr "10.0.0.2", 0⟩].foldl Put.run ⟨[], fun _ ↦ none⟩

/-- The second relay is lost to everything that comes after `rc2sendmail`. -/
theorem relayProc_cut :
    stored relayKey relayProc = some (cstr "0 1") ∧
    stored relayKey (runGenerators Machine.bare World.bare 0 (yazakiGenerators false) relayProc).1
      = some (cstr "0") ∧
    (runGenerators Machine.bare World.bare 0 [.sendmail] relayProc).2
      = [(localHostNames, []), (relayDomains, cstr "10.0.0.1\n10.0.0.2\n")] ∧
    (runGenerators Machine.bare World.bare 0 [.sendmail]
        (runGenerators Machine.bare World.bare 0 [.sendmail] relayProc).1).2
      = [(localHostNames, []), (relayDomains, cstr "10.0.0.1\n")] := by
  decide +kernel

end Setup
