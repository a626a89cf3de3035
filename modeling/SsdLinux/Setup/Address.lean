import SsdLinux.CLib.Dotted
import SsdLinux.Setup.Rc2conf
import SsdLinux.Setup.Valtab

/-!
# Addresses: the check and the readers behind it

An address is checked once, by `is_ip4`, and read twice: by `sscanf` in `ok_network`, which works
out the broadcast address, and by `get_ipnum`, with which `rc2dhcpd_sub` works out the subnet.

* `isIp4_exact` says when the check does what it is for.  It takes four dotted octets
  (`isIp4_true`), but it also takes them with a dot and anything else behind, and a string of one
  to three octets is read past its end.
* `scanDots_octets` and `ipnums_octets` are the two readers on octets: both see the numbers that
  they denote.
* `network_consistent` is the arithmetic: the two formulas give the last and the first address of
  one network.
-/

set_option autoImplicit false

namespace Setup

open CLib

/-- The numbers that so many calls of `get_ipnum` give, each on what the one before it left. -/
def ipnums (m : Machine) : ℕ → Bytes → List (BitVec 32)
  | 0, _ => []
  | n + 1, s => (getIpnum m s).1 :: ipnums m n (getIpnum m s).2

/-- An address cut short: less than four octets. -/
def CutShort (v : Bytes) : Prop := ∃ n, 0 < n ∧ n < 4 ∧ IsOctets n v

/-- An address with a dot behind it and possibly more. -/
def Trailing (v : Bytes) : Prop := ∃ (q : Quad) (r : Bytes), v = q.text ++ dot :: r

/-! ## `is_ip4` -/

/-- A group that is accepted is an octet, and what is behind it. -/
theorem ip4Group_octet (o : Octet) :
    ip4Group o.text = some none ∧ ∀ r, ip4Group (o.text ++ dot :: r) = some (some r) := by
  have hok : ¬ (o.text = [] ∨ 4 ≤ o.text.length ∨ 255 < digitsVal o.text) := by
    have h1 := o.length_le
    have h2 := o.val_le
    rw [not_or, not_or]
    exact ⟨o.ne_nil, by omega, by omega⟩
  constructor
  · have hs := span_eq o.digits (r := []) (by simp)
    rw [List.append_nil] at hs
    simp only [ip4Group, hs.1, hs.2, if_neg hok]
  · intro r
    have hs := span_eq o.digits (r := dot :: r) (fun c hc ↦ by cases hc; decide)
    simp only [ip4Group, hs.1, hs.2, if_neg hok, if_pos]

theorem octet_of_ip4Group {s : Bytes} {o : Option Bytes} (h : ip4Group s = some o) :
    ∃ a : Octet, s = a.text ++ (o.elim [] fun r ↦ dot :: r) := by
  have hsplit := List.takeWhile_append_dropWhile (p := isdigit) (l := s)
  simp only [ip4Group] at h
  split at h
  · cases h
  rename_i hok
  rw [not_or, not_or] at hok
  refine ⟨⟨s.takeWhile isdigit, hok.1, fun _ ↦ List.mem_takeWhile_imp, by omega, by omega⟩, ?_⟩
  split at h
  · rename_i hd
    cases h
    rw [hd] at hsplit
    exact hsplit.symm
  · rename_i c r hd
    split at h
    · rename_i hc
      cases h
      rw [hd, hc] at hsplit
      exact hsplit.symm
    · cases h

theorem ip4Group_eq_end {s : Bytes} : ip4Group s = some none ↔ IsOctets 1 s := by
  rw [isOctets_one]
  constructor
  · intro h
    obtain ⟨a, ha⟩ := octet_of_ip4Group h
    exact ⟨a, by rwa [Option.elim, List.append_nil] at ha⟩
  · rintro ⟨a, rfl⟩
    exact (ip4Group_octet a).1

theorem ip4Group_eq_dot {s r : Bytes} :
    ip4Group s = some (some r) ↔ ∃ a : Octet, s = a.text ++ dot :: r :=
  ⟨octet_of_ip4Group, by rintro ⟨a, rfl⟩; exact (ip4Group_octet a).2 r⟩

/-- The round of the loop that reads one octet and a dot. -/
theorem isIp4Go_octet (k : ℕ) (a : Octet) (r : Bytes) :
    isIp4Go (k + 1) (a.text ++ dot :: r) = isIp4Go k r := by
  rw [isIp4Go, (ip4Group_octet a).2]

/-- **The loop leaves the string exactly if the string ends after too few octets.** -/
theorem isIp4Go_none (k : ℕ) (s : Bytes) :
    isIp4Go k s = none ↔ ∃ n, n + 1 < k ∧ IsOctets (n + 1) s := by
  induction k generalizing s with
  | zero => simp [isIp4Go]
  | succ k ih =>
    constructor
    · intro h
      rw [isIp4Go] at h
      split at h
      · cases h
      · rename_i hg
        split at h
        · cases h
        · exact ⟨0, by omega, ip4Group_eq_end.mp hg⟩
      · rename_i r hg
        obtain ⟨a, rfl⟩ := ip4Group_eq_dot.mp hg
        obtain ⟨n, hn, hr⟩ := (ih r).mp h
        exact ⟨n + 1, by omega, isOctets_succ.mpr ⟨a, r, rfl, hr⟩⟩
    · rintro ⟨n, hn, hs⟩
      cases n with
      | zero =>
        rw [isIp4Go, ip4Group_eq_end.mpr hs]
        exact if_neg (by omega)
      | succ n =>
        obtain ⟨a, r, rfl, hr⟩ := isOctets_succ.mp hs
        rw [isIp4Go_octet]
        exact (ih r).mpr ⟨n, by omega, hr⟩

/-- **The loop accepts its octets, and its octets with a dot and anything behind them.** -/
theorem isIp4Go_true (k : ℕ) (s : Bytes) :
    isIp4Go (k + 1) s = some true ↔
      IsOctets (k + 1) s ∨ ∃ t r, IsOctets (k + 1) t ∧ s = t ++ dot :: r := by
  induction k generalizing s with
  | zero =>
    rw [isIp4Go]
    constructor
    · intro h
      split at h
      · cases h
      · rename_i hg
        exact .inl (ip4Group_eq_end.mp hg)
      · rename_i r hg
        obtain ⟨a, rfl⟩ := ip4Group_eq_dot.mp hg
        exact .inr ⟨_, r, isOctets_one.mpr ⟨a, rfl⟩, rfl⟩
    · rintro (hs | ⟨t, r, ht, rfl⟩)
      · rw [ip4Group_eq_end.mpr hs]
        rfl
      · obtain ⟨a, rfl⟩ := isOctets_one.mp ht
        rw [(ip4Group_octet a).2]
        rfl
  | succ k ih =>
    constructor
    · intro h
      rw [isIp4Go] at h
      split at h
      · cases h
      · rw [if_neg (by omega)] at h
        cases h
      · rename_i r hg
        obtain ⟨a, rfl⟩ := ip4Group_eq_dot.mp hg
        rcases (ih r).mp h with hr | ⟨t, u, ht, rfl⟩
        · exact .inl (isOctets_succ.mpr ⟨a, r, rfl, hr⟩)
        · exact .inr ⟨_, u, isOctets_succ.mpr ⟨a, t, rfl, ht⟩, by simp⟩
    · rintro (hs | ⟨t, u, ht, rfl⟩)
      · obtain ⟨a, r, rfl, hr⟩ := isOctets_succ.mp hs
        rw [isIp4Go_octet]
        exact (ih r).mpr (.inl hr)
      · obtain ⟨a, r, rfl, hr⟩ := isOctets_succ.mp ht
        rw [List.append_assoc, List.cons_append, isIp4Go_octet]
        exact (ih _).mpr (.inr ⟨r, u, hr, rfl⟩)

theorem isIp4_none {v : Bytes} : isIp4 v = none ↔ CutShort v := by
  rw [isIp4, isIp4Go_none]
  constructor
  · rintro ⟨n, hn, hs⟩
    exact ⟨n + 1, by omega, hn, hs⟩
  · rintro ⟨n, h0, hn, hs⟩
    obtain ⟨n, rfl⟩ := Nat.exists_eq_succ_of_ne_zero h0.ne'
    exact ⟨n, hn, hs⟩

/-- What `is_ip4` accepts. -/
theorem isIp4_true {v : Bytes} : isIp4 v = some true ↔ (∃ q : Quad, v = q.text) ∨ Trailing v := by
  rw [isIp4, isIp4Go_true, isOctets_four]
  refine or_congr_right ⟨?_, ?_⟩
  · rintro ⟨t, r, ht, rfl⟩
    obtain ⟨q, rfl⟩ := isOctets_four.mp ht
    exact ⟨q, r, rfl⟩
  · rintro ⟨q, r, rfl⟩
    exact ⟨q.text, r, isOctets_four.mpr ⟨q, rfl⟩, rfl⟩

/-- Four octets with something behind them are not four octets. -/
theorem not_quad_of_trailing {v : Bytes} (h : Trailing v) : ¬ ∃ q : Quad, v = q.text := by
  rintro ⟨q, hq⟩
  obtain ⟨q', r, rfl⟩ := h
  have h3 := (isOctets_four.mpr ⟨q, rfl⟩).count
  have h3' := (isOctets_four.mpr ⟨q', rfl⟩).count
  rw [← hq, List.count_append, h3', List.count_cons_self] at h3
  omega

/-! ## `sscanf` -/

/-- One `%d` reads one octet. -/
theorem scanInt_octet (o : Octet) {r : Bytes} (hr : ∀ c ∈ r.head?, isdigit c = false) :
    scanInt (o.text ++ r) = some ((o.val : ℤ), r) := by
  have hv := o.val_lt
  have hclamp : clampInt (o.val : ℤ) = o.val := by
    rw [clampInt]
    omega
  rw [scanInt_digits o.ne_nil o.digits r hr]
  exact congrArg (fun n ↦ some (n, r)) hclamp

/-- **`sscanf` reads as many octets as it is asked for.** -/
theorem scanDots_octets (vs : List (BitVec 32)) (os : List Octet) (h : vs.length = os.length)
    {r : Bytes} (hr : ∀ c ∈ r.head?, isdigit c = false) :
    scanDots vs (octetsText os ++ r) = os.map fun o ↦ BitVec.ofNat 32 o.val := by
  induction os generalizing vs with
  | nil =>
    rw [List.length_eq_zero_iff.mp h]
    rfl
  | cons o os ih =>
    obtain ⟨v, vs, rfl⟩ := List.exists_cons_of_length_eq_add_one h
    have hlen : vs.length = os.length := Nat.succ.inj h
    cases os with
    | nil =>
      obtain rfl := List.length_eq_zero_iff.mp hlen
      rw [scanDots, octetsText_singleton, scanInt_octet o hr]
      simp [scanDots, BitVec.ofInt_natCast]
    | cons o' os =>
      rw [octetsText_cons_cons, List.append_assoc, List.cons_append, scanDots,
        scanInt_octet o (fun c hc ↦ by cases hc; decide)]
      simp only [List.head?_cons, if_pos, List.tail_cons, ih vs hlen, BitVec.ofInt_natCast,
        List.map_cons]

/-! ## `get_ipnum` -/

variable (m : Machine)

/-- The number of one group, and where the next one begins if there is a dot before it. -/
theorem getIpnum_octet (o : Octet) {r : Bytes} (hr : ∀ c ∈ r.head?, c = dot) :
    (getIpnum m (o.text ++ r)).1 = BitVec.ofNat 32 o.val ∧
      (r ≠ [] → (getIpnum m (o.text ++ r)).2 = r.tail) := by
  have hs := span_eq (p := fun c ↦ c != dot) (s := o.text) (r := r)
    (fun c hc ↦ bne_iff_ne.mpr fun he ↦ o.dot_notMem (he ▸ hc)) (fun c hc ↦ by simp [hr c hc])
  have hlen : ¬ (o.text = [] ∨ 4 ≤ o.text.length) := by
    have := o.length_le
    rw [not_or]
    exact ⟨o.ne_nil, by omega⟩
  have hscan := scanInt_octet o (r := []) (by simp)
  rw [List.append_nil] at hscan
  have hval : ¬ (255 : ℤ) < (o.val : ℤ) := by
    have := o.val_lt
    omega
  simp only [getIpnum, hs.1, if_neg hlen, hscan, if_neg hval, BitVec.ofInt_natCast, true_and]
  intro hne
  have hpos := List.length_pos_iff.mpr hne
  rw [if_neg (by rw [List.length_append]; omega), List.drop_append,
    List.drop_eq_nil_of_le (by omega),
    List.nil_append, Nat.add_sub_cancel_left, List.drop_one]

/-- **`get_ipnum` reads one octet after the other.** -/
theorem ipnums_octets (os : List Octet) {r : Bytes} (hr : ∀ c ∈ r.head?, c = dot) :
    ipnums m os.length (octetsText os ++ r) = os.map fun o ↦ BitVec.ofNat 32 o.val := by
  induction os with
  | nil => rfl
  | cons o os ih =>
    cases os with
    | nil =>
      rw [octetsText_singleton, List.length_singleton, ipnums, ipnums, (getIpnum_octet m o hr).1,
        List.map_singleton]
    | cons o' os =>
      have ho := getIpnum_octet m o (r := dot :: (octetsText (o' :: os) ++ r))
        (fun c hc ↦ (Option.some.inj hc).symm)
      rw [octetsText_cons_cons, List.append_assoc, List.cons_append, List.length_cons, ipnums, ho.1,
        ho.2 (List.cons_ne_nil _ _), List.tail_cons, ih]
      rfl

/-- The loop of `rc2dhcpd_sub` on what `get_ipnum` reads from the two texts. -/
theorem subnetGroups_eq (n : ℕ) (adr mask : Bytes) :
    subnetGroups m n adr mask = List.zipWith (· &&& ·) (ipnums m n adr) (ipnums m n mask) := by
  induction n generalizing adr mask with
  | zero => rfl
  | succ n ih =>
    rw [subnetGroups, ipnums, ipnums, List.zipWith_cons_cons, ← ih]

/-! ## What the check is worth -/

/-- Both readers see the four numbers of `q` in the text `v`. -/
def ReadAs (v : Bytes) (q : Quad) : Prop :=
  (∀ vs : List (BitVec 32), vs.length = 4 → scanDots vs v = q.addr.words) ∧
    ∀ m, ipnums m 4 v = q.addr.words

theorem readAs_quad (q : Quad) {r : Bytes} (hr : ∀ c ∈ r.head?, c = dot) :
    ReadAs (q.text ++ r) q := by
  have hlen : (List.ofFn q).length = 4 := List.length_ofFn
  refine ⟨fun vs hvs ↦ ?_, fun m ↦ ?_⟩
  · rw [Quad.text, Quad.words_addr, scanDots_octets vs _ (by rw [hvs, hlen])
      (fun c hc ↦ by rw [hr c hc]; decide)]
  · have h := ipnums_octets m (List.ofFn q) hr
    rw [hlen] at h
    rw [Quad.text, h, Quad.words_addr]

theorem readAs_text (q : Quad) : ReadAs q.text q := by
  have hq := readAs_quad q (r := []) (by simp)
  rwa [List.append_nil] at hq

/-- The two readers see the four octets of whatever is accepted. -/
theorem readAs_of_isIp4 {v : Bytes} (h : isIp4 v = some true) :
    ∃ q : Quad, (v = q.text ∨ ∃ r, v = q.text ++ dot :: r) ∧ ReadAs v q := by
  rcases isIp4_true.mp h with ⟨q, rfl⟩ | ⟨q, r, rfl⟩
  · exact ⟨q, .inl rfl, readAs_text q⟩
  · exact ⟨q, .inr ⟨r, rfl⟩, readAs_quad q fun c hc ↦ (Option.some.inj hc).symm⟩

/-- **`is_ip4` accepts exactly the dotted quads and stays inside the string, as long as the string
is no address cut short and no address with a dot behind it.** -/
theorem isIp4_exact (v : Bytes) :
    (isIp4 v ≠ none ∧ (isIp4 v = some true ↔ ∃ q : Quad, v = q.text) ∧
        (isIp4 v = some true → ∃ q : Quad, (v = q.text ∨ ∃ r, v = q.text ++ dot :: r) ∧
          ReadAs v q)) ↔
      ¬ CutShort v ∧ ¬ Trailing v := by
  rw [← isIp4_none]
  constructor
  · rintro ⟨hin, hquad, -⟩
    exact ⟨hin, fun ht ↦ not_quad_of_trailing ht (hquad.mp (isIp4_true.mpr (.inr ht)))⟩
  · rintro ⟨hin, ht⟩
    refine ⟨hin, ?_, readAs_of_isIp4⟩
    rw [isIp4_true]
    exact or_iff_left ht

/-- Three octets are read past their end, and a name behind four is not noticed. -/
theorem isIp4_not_exact :
    isIp4 (cstr "1.2.3") = none ∧ isIp4 (cstr "1.2.3.4.x") = some true ∧
      ¬ ∃ q : Quad, cstr "1.2.3.4.x" = q.text := by
  refine ⟨by decide, by decide, ?_⟩
  rintro ⟨q, hq⟩
  have h := (isOctets_four.mpr ⟨q, hq⟩).count
  exact absurd h (by decide)

/-! ## Broadcast and subnet -/

/-- The broadcast address is worked out byte by byte. -/
theorem bcastText_words (a m : Addr) : bcastText a.words m.words = dotted (a.bcast m) := by
  have hword : ∀ x y : BitVec 8, (x.setWidth 32 &&& y.setWidth 32) ||| (0xff &&& ~~~y.setWidth 32)
      = (x ||| ~~~y).setWidth 32 := fun x y ↦ by
    ext i hi
    have h255 : (0xff : BitVec 32)[i] = decide (i < 8) := by
      revert i
      decide
    simp only [BitVec.getElem_or, BitVec.getElem_and, BitVec.getElem_not, BitVec.getElem_setWidth,
      BitVec.getLsbD_or, BitVec.getLsbD_not, h255]
    by_cases h8 : i < 8
    · cases hx : x.getLsbD i <;> cases hy : y.getLsbD i <;> simp [h8]
    · simp [h8, BitVec.getLsbD_of_ge _ _ (not_lt.mp h8)]
  exact dotted_words (f := fun x y ↦ (x &&& y) ||| (0xff &&& ~~~y)) (g := fun x y ↦ x ||| ~~~y)
    hword a m

/-- The subnet is worked out byte by byte. -/
theorem subnetText_words (a m : Addr) :
    joinWith dot ((List.zipWith (· &&& ·) a.words m.words).map fun b ↦ decInt b.toInt)
      = dotted (a.subnet m) :=
  dotted_words (fun _ _ ↦ BitVec.setWidth_and.symm) a m

/-- One half of `ok_network`, where both texts are four octets. -/
theorem ethBroadcast_quads {w : World} {adrKey maskKey bcastKey : Bytes} {a m : Quad}
    {st : List (BitVec 32) × List (BitVec 32) × Proc} (h1 : st.1.length = 4)
    (h2 : st.2.1.length = 4) (ha : getval w adrKey st.2.2 = some a.text)
    (hm : getval w maskKey st.2.2 = some m.text) :
    (ethBroadcast w adrKey maskKey bcastKey st).2.2
      = putval bcastKey (dotted (a.addr.bcast m.addr)) RC_bWRITE st.2.2 := by
  rw [ethBroadcast, ha, hm]
  simp only [(readAs_text a).1 _ h1, (readAs_text m).1 _ h2, bcastText_words]

/-- The broadcast addresses `ok_network` stores. -/
theorem okNetwork_quads (a m : Quad) {eth : Bytes} (he : eth ∈ [cstr "eth0", cstr "eth1"])
    (ctx : Ctx) (arg : Bytes) (p : Proc)
    (ha : getval ctx.world (cstr "x_eth_adr__" ++ eth) p = some a.text)
    (hm : getval ctx.world (cstr "x_eth_subnet_mask__" ++ eth) p = some m.text) :
    ∃ r, okNetwork ctx arg p = some r ∧
      getval ctx.world (cstr "x_eth_broadcast__" ++ eth) r.proc
        = some (dotted (a.addr.bcast m.addr)) := by
  refine ⟨_, rfl, ?_⟩
  rw [proc_retWrite]
  simp only [List.mem_cons, List.not_mem_nil, or_false] at he
  rcases he with rfl | rfl
  · rw [getval_ethBroadcast (by decide),
      ethBroadcast_quads (by simp) (by simp) (by exact ha) (by exact hm), getval_eq (by decide)]
    exact stored_putval_self (by decide) _ _ _
  · rw [ethBroadcast_quads (a := a) (m := m) (by rw [(length_ethBroadcast _).1]; simp)
      (by rw [(length_ethBroadcast _).2]; simp)
      (by rw [getval_ethBroadcast (by decide)]; exact ha)
      (by rw [getval_ethBroadcast (by decide)]; exact hm), getval_eq (by decide)]
    exact stored_putval_self (by decide) _ _ _

/-- The subnet `rc2dhcpd_sub` prints. -/
theorem rc2dhcpdSub_quads (a m : Quad) (M : Machine) (w : World) {no : ℕ} (hno : no ≤ 3) (p : Proc)
    (hon : getval3 w (dhcpdKey (cstr "enable") no) p = cstr "YES")
    (ha : getval3 w (dhcpdKey (cstr "range1") no) p = a.text)
    (hm : getval3 w (dhcpdKey (cstr "subnet_mask") no) p = m.text) :
    ∃ rest, rc2dhcpdSub M w no p
      = cstr "subnet " ++ (dotted (a.addr.subnet m.addr) ++ (cstr " netmask " ++ rest)) := by
  rw [rc2dhcpdSub, if_neg (not_lt.mpr hno), if_neg (not_not.mpr hon)]
  simp only [ha, hm, subnetGroups_eq, (readAs_text a).2 M, (readAs_text m).2 M, subnetText_words,
    List.append_assoc]
  exact ⟨_, rfl⟩

/-- **The two formulas belong together.**  What `ok_network` stores is the last address and what
`rc2dhcpd_sub` prints is the first one of those that agree with `a` under the mask `m`. -/
theorem network_consistent (a m : Quad) :
    (∀ eth ∈ [cstr "eth0", cstr "eth1"], ∀ ctx arg p,
      getval ctx.world (cstr "x_eth_adr__" ++ eth) p = some a.text →
      getval ctx.world (cstr "x_eth_subnet_mask__" ++ eth) p = some m.text →
      ∃ r, okNetwork ctx arg p = some r ∧
        getval ctx.world (cstr "x_eth_broadcast__" ++ eth) r.proc
          = some (dotted fun i ↦ a.addr i ||| ~~~m.addr i)) ∧
    (∀ M w no p, no ≤ 3 → getval3 w (dhcpdKey (cstr "enable") no) p = cstr "YES" →
      getval3 w (dhcpdKey (cstr "range1") no) p = a.text →
      getval3 w (dhcpdKey (cstr "subnet_mask") no) p = m.text →
      ∃ rest, rc2dhcpdSub M w no p
        = cstr "subnet " ++ ((dotted fun i ↦ a.addr i &&& m.addr i)
          ++ (cstr " netmask " ++ rest))) ∧
    (a.addr.subnet m.addr).subnet m.addr = a.addr.subnet m.addr ∧
    (∀ i, a.addr.bcast m.addr i ||| m.addr i = 255#8) ∧
    ∀ b : Addr, b.subnet m.addr = a.addr.subnet m.addr →
      (a.addr.subnet m.addr ≤ b ∧ b ≤ a.addr.bcast m.addr) ∧
      (a.addr.subnet m.addr).toNat ≤ b.toNat ∧ b.toNat ≤ (a.addr.bcast m.addr).toNat :=
  ⟨fun _ he ctx arg p ↦ okNetwork_quads a m he ctx arg p,
    fun M w _ p hno ↦ rc2dhcpdSub_quads a m M w hno p,
    Addr.subnet_subnet a.addr m.addr, Addr.bcast_or a.addr m.addr,
    fun _ hb ↦ ⟨⟨Addr.subnet_le hb, Addr.le_bcast hb⟩, Addr.toNat_mono (Addr.subnet_le hb),
      Addr.toNat_mono (Addr.le_bcast hb)⟩⟩

/-- 192.168.1.7 with three bytes of mask. -/
theorem network_consistent_box :
    ∃ r, okNetwork ⟨.bare, [], []⟩ []
        ⟨[⟨cstr "x_eth_adr__eth0", cstr "192.168.1.7", 0⟩,
          ⟨cstr "x_eth_subnet_mask__eth0", cstr "255.255.255.0", 0⟩], fun _ ↦ none⟩ = some r ∧
      getval .bare (cstr "x_eth_broadcast__eth0") r.proc = some (cstr "192.168.1.255") := by
  have h := (network_consistent (Quad.ofAddr ![192, 168, 1, 7])
    (Quad.ofAddr ![255, 255, 255, 0])).1 (cstr "eth0") (by decide) ⟨.bare, [], []⟩ []
    ⟨[⟨cstr "x_eth_adr__eth0", cstr "192.168.1.7", 0⟩,
      ⟨cstr "x_eth_subnet_mask__eth0", cstr "255.255.255.0", 0⟩], fun _ ↦ none⟩
    (by decide) (by decide)
  exact h

end Setup
