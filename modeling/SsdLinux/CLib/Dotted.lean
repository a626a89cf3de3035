import Mathlib.Algebra.Order.BigOperators.Group.Finset
import Mathlib.Data.Fin.VecNotation
import SsdLinux.CLib.Bytes

/-!
# Addresses in dotted form

An address of four bytes, the text it is written as, and the arithmetic of masks.  Nothing here is
about any one program.

* An `Octet` is a text of one to three digits that denotes a byte, and a `Quad` is four of them with
  a dot between.  A byte can be written with zeros in front, so a `Quad` is a text and `Quad.addr`
  the address it stands for; `dotted` writes an address without such zeros.
* `Addr.subnet` and `Addr.bcast` are the first and the last address that agree with a given one
  under a mask (`Addr.subnet_le`, `Addr.le_bcast`), byte by byte and as numbers of 32 bits
  (`Addr.toNat_mono`).
* `Addr.netmask k` is the mask that has its first `k` bits set.
-/

set_option autoImplicit false

namespace CLib

/-! ## The text of a byte -/

/-- One to three digits that denote a number up to 255. -/
structure Octet where
  text : Bytes
  ne_nil : text ≠ []
  digits : ∀ c ∈ text, isdigit c = true
  length_le : text.length ≤ 3
  val_le : digitsVal text ≤ 255

namespace Octet

/-- The number an octet denotes. -/
def val (o : Octet) : ℕ := digitsVal o.text

/-- The byte an octet denotes. -/
def byte (o : Octet) : BitVec 8 := BitVec.ofNat 8 o.val

theorem val_lt (o : Octet) : o.val < 256 := Nat.lt_succ_of_le o.val_le

@[simp] theorem toNat_byte (o : Octet) : o.byte.toNat = o.val := by
  rw [byte, BitVec.toNat_ofNat, Nat.mod_eq_of_lt o.val_lt]

theorem setWidth_byte (o : Octet) : o.byte.setWidth 32 = BitVec.ofNat 32 o.val := by
  rw [byte, BitVec.setWidth_ofNat_of_le_of_lt (by decide) o.val_lt]

theorem dot_notMem (o : Octet) : dot ∉ o.text := not_mem_of_class o.digits (by decide)

/-- The text of a byte without zeros in front. -/
def ofByte (b : BitVec 8) : Octet where
  text := dec b.toNat
  ne_nil := dec_ne_nil _
  digits := dec_isdigit _
  length_le := by
    rw [dec, List.length_map]
    exact (Nat.length_toDigits_le_iff (by decide) (by decide)).mpr (b.isLt.trans (by decide))
  val_le := by
    rw [digitsVal_dec]
    exact Nat.le_of_lt_succ b.isLt

@[simp] theorem val_ofByte (b : BitVec 8) : (ofByte b).val = b.toNat := digitsVal_dec _

@[simp] theorem byte_ofByte (b : BitVec 8) : (ofByte b).byte = b := by
  rw [byte, val_ofByte, BitVec.ofNat_toNat, BitVec.setWidth_eq]

end Octet

/-! ## Octets with dots between them -/

/-- Some octets with dots between them. -/
def octetsText (os : List Octet) : Bytes := joinWith dot (os.map Octet.text)

@[simp] theorem octetsText_singleton (o : Octet) : octetsText [o] = o.text := by
  simp [octetsText, joinWith]

@[simp] theorem octetsText_cons_cons (o o' : Octet) (os : List Octet) :
    octetsText (o :: o' :: os) = o.text ++ dot :: octetsText (o' :: os) := by
  simp only [octetsText, List.map_cons, joinWith_cons, List.flatten_cons, List.cons_append]

/-- There is a dot between any two octets and nowhere else. -/
theorem count_dot_octetsText (o : Octet) (os : List Octet) :
    (octetsText (o :: os)).count dot = os.length := by
  induction os generalizing o with
  | nil => rw [octetsText_singleton, List.count_eq_zero.mpr o.dot_notMem, List.length_nil]
  | cons o' os ih =>
    rw [octetsText_cons_cons, List.count_append, List.count_eq_zero.mpr o.dot_notMem,
      List.count_cons_self, ih, List.length_cons, Nat.zero_add]

/-- So many octets, with single dots between them and nothing before or after. -/
def IsOctets (n : ℕ) (s : Bytes) : Prop := ∃ os : List Octet, os.length = n ∧ s = octetsText os

theorem IsOctets.count {n : ℕ} {s : Bytes} (h : IsOctets (n + 1) s) : s.count dot = n := by
  obtain ⟨os, hn, rfl⟩ := h
  obtain ⟨o, os, rfl⟩ := List.exists_cons_of_length_eq_add_one hn
  rw [count_dot_octetsText]
  exact Nat.succ.inj hn

/-- Octets and a first one in front of them. -/
theorem isOctets_succ {n : ℕ} {s : Bytes} :
    IsOctets (n + 2) s ↔
      ∃ (o : Octet) (r : Bytes), s = o.text ++ dot :: r ∧ IsOctets (n + 1) r := by
  constructor
  · rintro ⟨os, hn, rfl⟩
    obtain ⟨o, os, rfl⟩ := List.exists_cons_of_length_eq_add_one hn
    obtain ⟨o', os, rfl⟩ := List.exists_cons_of_length_eq_add_one (Nat.succ.inj hn)
    exact ⟨o, _, octetsText_cons_cons o o' os, o' :: os, Nat.succ.inj hn, rfl⟩
  · rintro ⟨o, r, rfl, os, hn, rfl⟩
    obtain ⟨o', os, rfl⟩ := List.exists_cons_of_length_eq_add_one hn
    exact ⟨o :: o' :: os, congrArg _ hn, (octetsText_cons_cons o o' os).symm⟩

theorem isOctets_one {s : Bytes} : IsOctets 1 s ↔ ∃ o : Octet, s = o.text := by
  constructor
  · rintro ⟨os, hn, rfl⟩
    obtain ⟨o, rfl⟩ := List.length_eq_one_iff.mp hn
    exact ⟨o, octetsText_singleton o⟩
  · rintro ⟨o, rfl⟩
    exact ⟨[o], rfl, (octetsText_singleton o).symm⟩

/-! ## Addresses -/

/-- Four bytes. -/
abbrev Addr := Fin 4 → BitVec 8

/-- Four octets. -/
abbrev Quad := Fin 4 → Octet

/-- The text of four octets. -/
def Quad.text (q : Quad) : Bytes := octetsText (List.ofFn q)

/-- The address that four octets stand for. -/
def Quad.addr (q : Quad) : Addr := fun i ↦ (q i).byte

/-- The bytes of an address, as words of 32 bits. -/
def Addr.words (a : Addr) : List (BitVec 32) := (List.ofFn a).map (BitVec.setWidth 32)

/-- An address in dotted form. -/
def dotted (a : Addr) : Bytes := joinWith dot ((List.ofFn a).map fun b ↦ dec b.toNat)

theorem Quad.words_addr (q : Quad) :
    q.addr.words = (List.ofFn q).map fun o ↦ BitVec.ofNat 32 o.val := by
  rw [Addr.words, List.map_ofFn, List.map_ofFn]
  exact congrArg List.ofFn (funext fun i ↦ (q i).setWidth_byte)

/-- An operation on words that does not leave the low eight bits, as one on addresses. -/
theorem dotted_words {f : BitVec 32 → BitVec 32 → BitVec 32} {g : BitVec 8 → BitVec 8 → BitVec 8}
    (hfg : ∀ x y, f (x.setWidth 32) (y.setWidth 32) = (g x y).setWidth 32) (a b : Addr) :
    joinWith dot ((List.zipWith f a.words b.words).map fun c ↦ decInt c.toInt)
      = dotted fun i ↦ g (a i) (b i) := by
  have hbyte : ∀ c : BitVec 8, decInt (c.setWidth 32).toInt = dec c.toNat := fun c ↦ by
    have hc : (c.setWidth 32).toNat = c.toNat := by
      rw [BitVec.toNat_setWidth, Nat.mod_eq_of_lt (c.isLt.trans (by decide))]
    have hlt : 2 * (c.setWidth 32).toNat < 2 ^ 32 := by
      have := c.isLt
      omega
    rw [BitVec.toInt_eq_toNat_of_lt hlt, hc, decInt_natCast]
  rw [dotted]
  congr 1
  simp only [Addr.words, List.ofFn_succ, List.ofFn_zero, List.map_cons, List.map_nil,
    List.zipWith_cons_cons, List.zipWith_nil_left, hfg, hbyte]

/-- The octets of the dotted form. -/
def Quad.ofAddr (a : Addr) : Quad := fun i ↦ Octet.ofByte (a i)

@[simp] theorem Quad.addr_ofAddr (a : Addr) : (Quad.ofAddr a).addr = a :=
  funext fun i ↦ Octet.byte_ofByte (a i)

theorem Quad.text_ofAddr (a : Addr) : (Quad.ofAddr a).text = dotted a := by
  rw [Quad.text, octetsText, List.map_ofFn, dotted, List.map_ofFn]
  rfl

theorem isOctets_four {s : Bytes} : IsOctets 4 s ↔ ∃ q : Quad, s = q.text := by
  constructor
  · rintro ⟨os, hn, rfl⟩
    refine ⟨fun i ↦ os.get (i.cast hn.symm), ?_⟩
    rw [Quad.text]
    congr 1
    refine List.ext_get (by rw [List.length_ofFn, hn]) fun i _ _ ↦ ?_
    rw [List.get_ofFn]
    rfl
  · rintro ⟨q, rfl⟩
    exact ⟨List.ofFn q, List.length_ofFn, rfl⟩

namespace Addr

/-- The number of 32 bits that an address is. -/
def toNat (a : Addr) : ℕ := ∑ i, (a i).toNat * 256 ^ (3 - i.val)

theorem toNat_mono {a b : Addr} (h : a ≤ b) : a.toNat ≤ b.toNat :=
  Finset.sum_le_sum fun i _ ↦ Nat.mul_le_mul_right _ (BitVec.le_def.mp (h i))

/-- The first address of the network of `a`. -/
def subnet (a m : Addr) : Addr := fun i ↦ a i &&& m i

/-- The last address of the network of `a`. -/
def bcast (a m : Addr) : Addr := fun i ↦ a i ||| ~~~m i

theorem subnet_subnet (a m : Addr) : (subnet a m).subnet m = subnet a m :=
  funext fun i ↦ by simp [subnet, BitVec.and_assoc]

/-- Every bit that is not in the mask is set. -/
theorem bcast_or (a m : Addr) (i : Fin 4) : bcast a m i ||| m i = 255#8 := by
  rw [bcast, BitVec.or_assoc, BitVec.or_comm (~~~m i)]
  ext j hj
  have h255 : (255#8)[j] = true := by
    rw [show (255#8) = BitVec.allOnes 8 from rfl, BitVec.getElem_allOnes]
  simp only [h255, BitVec.getElem_or, BitVec.getElem_not, Bool.or_not_self, Bool.or_true]

/-- An address of the network is not before the first one. -/
theorem subnet_le {a b m : Addr} (h : b.subnet m = a.subnet m) : a.subnet m ≤ b := by
  intro i
  rw [← h, BitVec.le_def, subnet, BitVec.toNat_and]
  exact Nat.and_le_left

/-- An address of the network is not behind the last one. -/
theorem le_bcast {a b m : Addr} (h : b.subnet m = a.subnet m) : b ≤ a.bcast m := by
  intro i
  have hor : b i ||| a.bcast m i = a.bcast m i := by
    ext j hj
    have hj' : (b i &&& m i)[j] = (a i &&& m i)[j] := by rw [show b i &&& m i = a i &&& m i from
      congrFun h i]
    rw [BitVec.getElem_and, BitVec.getElem_and] at hj'
    simp only [bcast, BitVec.getElem_or, BitVec.getElem_not]
    cases hm : (m i)[j] with
    | true =>
      rw [hm, Bool.and_true, Bool.and_true] at hj'
      rw [hj', ← Bool.or_assoc, Bool.or_self]
    | false => simp
  rw [BitVec.le_def, ← hor, BitVec.toNat_or]
  exact Nat.left_le_or

/-- The mask with the first `k` bits set. -/
def netmask (k : ℕ) : Addr :=
  fun i ↦ (BitVec.allOnes 32 <<< (32 - k)).extractLsb' (24 - 8 * i.val) 8

end Addr

end CLib
