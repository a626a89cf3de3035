import SsdLinux.Setup.Nextval

/-!
# What a request saves

A store that is written out comes back as it is if every line of the file is an entry of its own and
the values one is interested in are plain (`Writable`).  The functions of the menu write into the
store themselves, and this module says when a store is still writable after one of them:

* the broadcast addresses and the interface parts of the IPv6 addresses are always fine;
* an item that is taken out of a list only makes the list shorter;
* what an addition writes has to fit (`Target.Fits`).
-/

set_option autoImplicit false

namespace Setup

open CLib

variable {w : World} {p : Proc} {res : Result} {K : Bytes → Prop}

/-! ## A list that gets shorter -/

/-- What the items of a list take, each with a byte after it. -/
def listSize (l : List Bytes) : ℕ := (l.map fun s ↦ s.length + 1).sum

theorem listSize_splitBlanks (s : Bytes) : listSize (splitBlanks none s) ≤ s.length + 1 ∧
    ∀ u, listSize (splitBlanks (some u) s) ≤ u.length + s.length + 1 := by
  induction s with
  | nil => exact ⟨by simp [splitBlanks, listSize], fun u ↦ by simp [splitBlanks, listSize]⟩
  | cons c s ih =>
    refine ⟨?_, fun u ↦ ?_⟩
    · rw [splitBlanks]
      split
      · exact ih.1.trans (by simp)
      · simpa [Nat.add_comm, Nat.add_left_comm] using ih.2 [c]
    · rw [splitBlanks]
      split
      · have h := ih.1
        simp only [listSize, List.map_cons, List.sum_cons, List.length_cons] at h ⊢
        omega
      · have h := ih.2 (u ++ [c])
        simp only [List.length_append, List.length_cons, List.length_nil] at h ⊢
        omega

theorem listSize_erase (l : List Bytes) (tgt : Bytes) : listSize (l.erase tgt) ≤ listSize l := by
  induction l with
  | nil => simp
  | cons s l ih =>
    rw [List.erase_cons]
    split
    · simp [listSize]
    · simpa [listSize] using ih

/-- **A list an item has been taken out of** has no byte that was not there, and is not longer. -/
theorem listJoin_remove (s tgt : Bytes) :
    (∀ c ∈ listJoin (listRemoveItem (listSplit 0 (some s)) tgt), c = blank ∨ c ∈ s) ∧
      (listJoin (listRemoveItem (listSplit 0 (some s)) tgt)).length ≤ s.length := by
  have hitems : (∀ i ∈ listSplit 0 (some s), ∀ c ∈ i, c ∈ s) ∧
      listSize (listSplit 0 (some s)) ≤ s.length + 1 := by
    cases s with
    | nil => exact ⟨List.forall_mem_nil _, by simp [listSplit, listSize]⟩
    | cons c s =>
      rw [listSplit, if_pos rfl]
      · exact ⟨forall_mem_splitBlanks (fun u hu ↦ by simp [← Option.some.inj hu]) fun _ h _ ↦ h,
          by simpa using (listSize_splitBlanks (c :: s)).2 []⟩
      · exact List.cons_ne_nil c s
  refine ⟨fun c hc ↦ ?_, ?_⟩
  · refine (mem_joinWith hc).imp_right fun h ↦ ?_
    obtain ⟨i, hi, hci⟩ := h
    exact hitems.1 i (List.mem_of_mem_erase hi) c hci
  · have hle := (listSize_erase (listSplit 0 (some s)) tgt).trans hitems.2
    rw [listJoin, length_joinWith, listRemoveItem, ← listSize]
    omega

/-! ## What the program computes -/

/-- The bytes of the addresses that the program prints. -/
def isAddrChar (c : UInt8) : Bool := isalnum c || c == dot || c == colon || c == minus

theorem confVal_of_isAddrChar {val : Bytes} (h : ∀ c ∈ val, isAddrChar c = true)
    (hl : val.length < tokenSize) : ConfVal val :=
  ⟨not_mem_of_class h (by decide), not_mem_of_class h (by decide), not_mem_of_class h (by decide),
    not_mem_of_class h (by decide), hl⟩

/-- A few short groups with a byte between them. -/
theorem confVal_joinWith {sep : UInt8} (hsep : isAddrChar sep = true) {l : List Bytes}
    (hl : l.length ≤ 4) (h : ∀ s ∈ l, (∀ c ∈ s, isAddrChar c = true) ∧ s.length ≤ 11) :
    ConfVal (joinWith sep l) := by
  refine confVal_of_isAddrChar (fun c hc ↦ ?_) ?_
  · rcases mem_joinWith hc with rfl | ⟨s, hs, hc⟩
    · exact hsep
    · exact (h s hs).1 c hc
  · have hsum : (l.map fun s ↦ s.length + 1).sum ≤ 12 * l.length := by
      clear hl
      induction l with
      | nil => simp
      | cons s l ih =>
        have hs := (h s List.mem_cons_self).2
        have hrest := ih fun t ht ↦ h t (List.mem_cons_of_mem _ ht)
        rw [List.map_cons, List.sum_cons, List.length_cons]
        omega
    have hsize : tokenSize = 256 := rfl
    rw [length_joinWith]
    omega

theorem isAddrChar_decInt (n : ℤ) : ∀ c ∈ decInt n, isAddrChar c = true := by
  intro c hc
  rcases decInt_chars n c hc with h | rfl
  · rw [isAddrChar, isalnum_of_isdigit h]
    rfl
  · decide

theorem isAddrChar_hex (n : ℕ) : ∀ c ∈ hex n, isAddrChar c = true := by
  have hdigit : ∀ d < 16, isAddrChar (Nat.digitChar d).toNat.toUInt8 = true := by decide
  intro c hc
  obtain ⟨d, hd, rfl⟩ := List.mem_map.mp hc
  clear hc
  induction n using Nat.strong_induction_on with
  | _ n ih =>
    rw [Nat.toDigits_eq_if (by decide)] at hd
    split at hd
    · rename_i hlt
      exact List.mem_singleton.mp hd ▸ hdigit n hlt
    · rename_i hge
      rcases List.mem_append.mp hd with hd | hd
      · exact ih (n / 16) (by omega) hd
      · exact List.mem_singleton.mp hd ▸ hdigit _ (Nat.mod_lt _ (by decide))

theorem length_hex_le {n : ℕ} (h : n < 65536) : (hex n).length ≤ 11 := by
  rw [hex, List.length_map]
  exact ((Nat.length_toDigits_le_iff (k := 4) (by decide) (by decide)).mpr (by omega)).trans
    (by decide)

theorem confVal_bcastText {adr mask : List (BitVec 32)} (h : adr.length ≤ 4) :
    ConfVal (bcastText adr mask) := by
  refine confVal_joinWith (by decide) ?_ (fun s hs ↦ ?_)
  · rw [List.length_map, List.length_zipWith]
    omega
  · obtain ⟨n, -, rfl⟩ := List.mem_map.mp hs
    exact ⟨isAddrChar_decInt _, length_decInt_le n⟩

theorem confVal_ipv6Local {q : Fin 6 → ℕ} (h : ∀ i, q i < 256) : ConfVal (ipv6Local q) := by
  refine confVal_joinWith (by decide) le_rfl ?_
  have hxor : q 0 ^^^ 2 < 256 := Nat.xor_lt_two_pow (n := 8) (h 0) (by decide)
  have h1 := h 1
  have h2 := h 2
  have h3 := h 3
  have h4 := h 4
  have h5 := h 5
  simp only [List.forall_mem_cons, List.not_mem_nil, false_implies, implies_true, and_true]
  exact ⟨⟨isAddrChar_hex _, length_hex_le (by omega)⟩, ⟨isAddrChar_hex _, length_hex_le (by omega)⟩,
    ⟨isAddrChar_hex _, length_hex_le (by omega)⟩, isAddrChar_hex _, length_hex_le (by omega)⟩

/-! ## The functions -/

/-- The functions that add to no list. -/
def plainHooks : List Hook :=
  [okSave, okSystem, okUser, okNetwork, okSamba, okIpv6, okMasq, okDhcp, okHttpd]

/-- Two of them write something of their own. -/
theorem tame_of_mem_plainHooks {hook : Hook} (hh : hook ∈ plainHooks) :
    hook.Tame [] ∨ hook = okNetwork ∨ hook = okIpv6 := by
  simp only [plainHooks, List.mem_cons, List.not_mem_nil, or_false] at hh
  rcases hh with rfl | rfl | rfl | rfl | rfl | rfl | rfl | rfl | rfl
  · exact .inl tame_okSave
  · exact .inl tame_okSystem
  · exact .inl tame_okUser
  · exact .inr (.inl rfl)
  · exact .inl (tame_write _)
  · exact .inr (.inr rfl)
  · exact .inl (tame_write _)
  · exact .inl (tame_write _)
  · exact .inl (tame_write _)

/-- Any changes that leave a writable store writable. -/
def saveFrame (K : Bytes → Prop) : Frame where
  put q := SaveOk K q.key q.val
  hide _ := True
  del _ := True

theorem edits_ethBroadcast {adrKey maskKey bcastKey : Bytes} (hk : ConfKey bcastKey)
    (st : List (BitVec 32) × List (BitVec 32) × Proc) (hst : st.1.length ≤ 4) :
    Edits (saveFrame K) st.2.2 (ethBroadcast w adrKey maskKey bcastKey st).2.2 := by
  rw [ethBroadcast]
  split
  · exact edits_putval (F := saveFrame K)
      (saveOk_of_confVal hk (confVal_bcastText (by rwa [length_scanDots]))) _
  · exact .refl

/-- **A function that adds to no list leaves a writable store writable**, where the bytes of the
hardware addresses are bytes. -/
theorem edits_plainHook {hook : Hook} (hh : hook ∈ plainHooks) {ctx : Ctx} {arg : Bytes}
    {r : Result} (hw : ∀ i j, ctx.world.hwAddr i j < 256) (hr : hook ctx arg p = some r) :
    Edits (saveFrame K) p r.proc := by
  rcases tame_of_mem_plainHooks hh with htame | rfl | rfl
  · exact edits_mono (F := ownFrame []) (fun _ hq ↦ by cases hq.1) (fun _ _ ↦ trivial)
      (fun _ _ ↦ trivial) (htame ctx arg p r hr)
  · obtain rfl := Option.some.inj hr
    exact (edits_ethBroadcast (by decide) (_, _, p) (by simp)).trans
      (edits_ethBroadcast (by decide) _ (by simp [length_ethBroadcast]))
  · obtain rfl := Option.some.inj hr
    have hput : ∀ i k, ConfKey k → ∀ p, Edits (saveFrame K) p
        (putval k (ipv6Local (ctx.world.hwAddr i)) RC_bWRITE p) := fun i k hk p ↦
      edits_putval (F := saveFrame K) (saveOk_of_confVal hk (confVal_ipv6Local (hw i))) p
    exact (hput (cstr "eth0") (cstr "x_ipv6_local__eth0") (by decide) p).trans
      (hput (cstr "eth1") (cstr "x_ipv6_local__eth1") (by decide) _)

/-- A list an item is taken out of can be written if the list could. -/
theorem saveOk_delEnt {key : Bytes} (tgt : Bytes) (hk : ConfKey key) (hclock : key ∉ clockKeys)
    (h : ∀ u, stored key p = some u → SaveOk K key u) :
    SaveOk K key (listJoin (listRemoveItem (listSplit 0 (getval w key p)) tgt)) := by
  rw [getval_eq hclock, ← stored]
  cases hu : stored key p with
  | none => exact saveOk_of_confVal hk (show ConfVal [] by decide)
  | some u =>
    obtain ⟨hmem, hlen⟩ := listJoin_remove u tgt
    have hnot : ∀ c, c ≠ blank → c ∉ u →
        c ∉ listJoin (listRemoveItem (listSplit 0 (some u)) tgt) :=
      fun c hb hc h ↦ (hmem c h).elim hb hc
    obtain ⟨-, hnl, hline, hplain⟩ := h u hu
    refine ⟨hk, hnot _ (by decide) hnl, ?_, fun hK ↦ ?_⟩
    · rw [length_confLine] at hline ⊢
      omega
    · have hv := hplain hK
      exact ⟨hnot _ (by decide) hv.1, hnot _ (by decide) hv.2, hnot _ (by decide) hv.3,
        hnot _ (by decide) hv.4, hlen.trans_lt hv.5⟩

namespace Target

variable {t : Target} {ctx : Ctx} {arg : Bytes}

/-- What an addition writes stays on its line, and is plain where that is of interest. -/
def Fits (K : Bytes → Prop) (ctx : Ctx) (p : Proc) (t : Target) : Prop :=
  ∀ q ∈ t.puts ctx p, SaveOk K q.key q.val

instance decidableFits (K : Bytes → Prop) [DecidablePred K] (ctx : Ctx) (p : Proc) (t : Target) :
    Decidable (t.Fits K ctx p) :=
  inferInstanceAs (Decidable (∀ q ∈ t.puts ctx p, _))

/-- **An addition that fits leaves a writable store writable.** -/
theorem edits_add (hfit : t.Fits K ctx p) (h : t.add ctx arg p = some res) :
    Edits (saveFrame K) p res.proc := by
  have hprep : Edits (saveFrame K) p (t.prepare ctx p) := by
    cases t with
    | registry R => exact .refl
    | record =>
      rw [prepare, withRecordId]
      split
      · exact edits_putval (F := saveFrame K) (saveOk_of_confVal (by decide) (by decide)) p
      · exact .refl
  have hputs := hprep.trans (edits_puts (F := saveFrame K) hfit _)
  rcases proc_add h with hproc | hproc <;> rw [hproc]
  · exact hputs
  · exact hputs.tail (.del trivial _)

end Target

end Setup
