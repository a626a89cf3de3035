import SsdLinux.Setup.Address
import SsdLinux.Setup.Eval

/-!
# `ip4_to_mask` and `mask_to_ip4`

`ip4_to_mask` counts the leading bits of a mask in dotted form, and `mask_to_ip4` writes the mask of
so many bits.  The first one has an array of four numbers and a loop that tests the number before it
tests the count, so four full groups carry it to the word behind the array.  `ip4ToMaskIn` is the
same computation with that read as a failure, and `ip4ToMask_inverse` says when there is none.
-/

set_option autoImplicit false

namespace Setup

open CLib

/-- The loop of `ip4_to_mask` and the tests behind it, with `n` bits counted.  There is no result
when the element that is looked at is not in the array. -/
def maskGo : List ℤ → ℤ → Option ℤ
  | [], _ => none
  | g :: d, n => if g = 0xff ∧ n < 32 then maskGo d (n + 8) else some (n + tailBits g)

/-- `ip4_to_mask`, as far as it stays in its array. -/
def ip4ToMaskIn (ip4 : Bytes) : Option ℤ :=
  match scanGroups 4 ip4 with
  | none => some 24
  | some d => maskGo d 0

/-! ## The loop -/

theorem tailBits_bounds (d : ℤ) : 0 ≤ tailBits d ∧ tailBits d ≤ 8 := by
  rw [tailBits]
  split_ifs <;> decide

/-- The count is that of the full groups in front and of the bits of the next one. -/
theorem maskGo_eq (d : List ℤ) {n : ℤ} (hn : n + 8 * d.length ≤ 32) :
    maskGo d n = (d[(d.takeWhile fun g ↦ g == 0xff).length]?).map fun g ↦
      n + 8 * (d.takeWhile fun g ↦ g == 0xff).length + tailBits g := by
  induction d generalizing n with
  | nil => rfl
  | cons g d ih =>
    rw [List.length_cons] at hn
    push_cast at hn
    rw [maskGo]
    by_cases hg : g = 0xff
    · rw [if_pos ⟨hg, by omega⟩, ih (by omega), List.takeWhile_cons_of_pos (by simp [hg]),
        List.length_cons, List.getElem?_cons_succ]
      congr 1
      funext x
      push_cast
      omega
    · rw [if_neg fun h ↦ hg h.1, List.takeWhile_cons_of_neg (by simp [hg])]
      simp

/-- The bits that are counted are bits of the groups that are there. -/
theorem maskGo_bounds (d : List ℤ) {n k : ℤ} (h : maskGo d n = some k) :
    n ≤ k ∧ k ≤ n + 8 * d.length := by
  induction d generalizing n with
  | nil => cases h
  | cons g d ih =>
    rw [maskGo] at h
    rw [List.length_cons]
    push_cast
    split at h
    · obtain ⟨h1, h2⟩ := ih h
      omega
    · cases h
      have hb := tailBits_bounds g
      omega

/-- **The loop leaves the array exactly if all groups are full.** -/
theorem maskGo_none (d : List ℤ) {n : ℤ} (hn : n + 8 * d.length ≤ 32) :
    maskGo d n = none ↔ ∀ g ∈ d, g = 0xff := by
  induction d generalizing n with
  | nil => simp [maskGo]
  | cons g d ih =>
    rw [List.length_cons] at hn
    push_cast at hn
    rw [maskGo, List.forall_mem_cons]
    by_cases hg : g = 0xff
    · rw [if_pos ⟨hg, by omega⟩, ih (by omega), and_iff_right hg]
    · rw [if_neg fun h ↦ hg h.1]
      exact iff_of_false (by simp) fun h ↦ hg h.1

/-! ## The function -/

theorem length_scanGroups {n : ℕ} {s : Bytes} {d : List ℤ} (h : scanGroups n s = some d) :
    d.length = n := by
  induction n generalizing s d with
  | zero =>
    cases h
    rfl
  | succ n ih =>
    obtain ⟨⟨g, r⟩, -, h⟩ := Option.bind_eq_some_iff.mp h
    dsimp only at h
    split at h
    · rename_i hn
      cases h
      rw [hn]
      rfl
    · split at h
      · obtain ⟨d, hd, rfl⟩ := Option.map_eq_some_iff.mp h
        rw [List.length_cons, ih hd]
      · cases h

/-- **`sscanf` reads the octets.** -/
theorem scanGroups_octets (os : List Octet) (o : Octet) :
    scanGroups (os.length + 1) (octetsText (o :: os))
      = some ((o :: os).map fun o ↦ (o.val : ℤ)) := by
  induction os generalizing o with
  | nil =>
    have h := scanInt_octet o (r := []) (by simp)
    rw [List.append_nil] at h
    rw [octetsText_singleton, List.length_nil, Nat.zero_add, scanGroups, h]
    rfl
  | cons o' os ih =>
    rw [octetsText_cons_cons, scanGroups, scanInt_octet o (fun c hc ↦ by cases hc; decide),
      Option.bind_some]
    simp only [List.length_cons, Nat.add_one_ne_zero, if_false, List.head?_cons, if_pos,
      List.tail_cons, ih, Option.map_some, List.map_cons]

theorem scanGroups_dotted (a : Addr) :
    scanGroups 4 (dotted a) = some ((List.ofFn a).map fun b ↦ (b.toNat : ℤ)) := by
  rw [← Quad.text_ofAddr, Quad.text, List.ofFn_succ]
  have h := scanGroups_octets (List.ofFn fun i : Fin 3 ↦ Quad.ofAddr a i.succ) (Quad.ofAddr a 0)
  rw [List.length_ofFn] at h
  rw [h]
  simp [Quad.ofAddr, List.ofFn_succ]

/-- The function is what it is inside its array, and otherwise depends on the word behind it. -/
theorem ip4ToMask_eq (w : World) (s : Bytes) :
    ip4ToMask w s = (ip4ToMaskIn s).getD (32 + tailBits (w.stack 8)) := by
  rw [ip4ToMask, ip4ToMaskIn]
  cases hd : scanGroups 4 s with
  | none => rfl
  | some d =>
    have hlen := length_scanGroups hd
    have hn : (0 : ℤ) + 8 * d.length ≤ 32 := by rw [hlen]; decide
    simp only [maskGo_eq d hn]
    cases hg : d[(d.takeWhile fun g ↦ g == 0xff).length]? with
    | none =>
      have hle := List.getElem?_eq_none_iff.mp hg
      have hle' := (List.takeWhile_prefix (l := d) fun g : ℤ ↦ g == 0xff).length_le
      simp only [Option.getD_none, Option.map_none]
      omega
    | some g => simp only [Option.getD_some, Option.map_some, zero_add]

/-- The numbers of a mask, and the bits that are counted in them. -/
theorem maskGo_netmask {k : ℕ} (hk : k < 32) :
    maskGo ((List.ofFn (Addr.netmask k)).map fun b ↦ (b.toNat : ℤ)) 0 = some (k : ℤ) := by
  revert k
  decide

/-- `mask_tbl` has the masks in its rows. -/
theorem maskToIp4_eq {k : ℕ} (hk : k ≤ 32) : maskToIp4 k = dotted (Addr.netmask k) := by
  have hrow : ∀ k < 33, ∀ j : Fin 4,
      256 - 2 ^ (8 - (k - 8 * j.val)) = (Addr.netmask k j).toNat := by decide
  rw [maskToIp4, if_pos (by omega), dotted, List.map_ofFn, Int.toNat_natCast]
  congr 1
  simp only [List.ofFn_succ, List.ofFn_zero, Function.comp_apply, ← hrow k (Nat.lt_succ_of_le hk)]
  rfl

/-- **Counting the bits of a mask stays inside the array, gives 0 to 32 and is undone by
`mask_to_ip4`, exactly if the four numbers are not all 255.** -/
theorem ip4ToMask_inverse (s : Bytes) :
    (∃ n, ip4ToMaskIn s = some n ∧ (∀ w, ip4ToMask w s = n) ∧ 0 ≤ n ∧ n ≤ 32 ∧
        ∀ k ≤ 32, s = dotted (Addr.netmask k) → maskToIp4 n = s) ↔
      scanGroups 4 s ≠ some [255, 255, 255, 255] := by
  have hfull : ip4ToMaskIn s = none ↔ scanGroups 4 s = some [255, 255, 255, 255] := by
    rw [ip4ToMaskIn]
    cases hd : scanGroups 4 s with
    | none => simp
    | some d =>
      have hlen := length_scanGroups hd
      rw [Option.some.injEq]
      refine (maskGo_none d (by rw [hlen]; decide)).trans ?_
      rw [← List.eq_replicate_length, hlen]
      rfl
  constructor
  · rintro ⟨n, hn, -⟩ hs
    rw [hfull.mpr hs] at hn
    cases hn
  · intro hs
    obtain ⟨n, hn⟩ := Option.ne_none_iff_exists'.mp fun h ↦ hs (hfull.mp h)
    refine ⟨n, hn, fun w ↦ by rw [ip4ToMask_eq, hn, Option.getD_some], ?_⟩
    have hbounds : 0 ≤ n ∧ n ≤ 32 := by
      rw [ip4ToMaskIn] at hn
      split at hn
      · cases hn
        decide
      · rename_i d hd
        have hb := maskGo_bounds d hn
        rw [length_scanGroups hd] at hb
        exact ⟨hb.1, hb.2⟩
    refine ⟨hbounds.1, hbounds.2, ?_⟩
    rintro k hk rfl
    rw [scanGroups_dotted] at hs
    have hlt : k < 32 := by
      refine lt_of_le_of_ne hk ?_
      rintro rfl
      exact hs (by decide)
    rw [ip4ToMaskIn, scanGroups_dotted] at hn
    obtain rfl := Option.some.inj ((maskGo_netmask hlt).symm.trans hn)
    exact maskToIp4_eq hk

/-- The mask with all bits set reads past the array, and can then come out as no mask at all. -/
theorem ip4ToMask_full :
    ip4ToMaskIn (cstr "255.255.255.255") = none ∧
      cstr "255.255.255.255" = dotted (Addr.netmask 32) ∧
      maskToIp4 (ip4ToMask { World.bare with stack := fun _ ↦ 255 } (cstr "255.255.255.255"))
        = cstr "0.0.0.0" := by
  decide

end Setup
