import Mathlib.Tactic.IntervalCases
import SsdLinux.CLib.Dotted

/-!
# `sysinst`: addresses as numbers

The installer keeps addresses as texts.  To compute with one it reads it with `sscanf` into four
numbers, which it puts together (`ip2int`), and prints the result byte by byte (`ip2char`).

* `scanUint` is one `%u`.  A `long` has 32 bits, and a number that is too large for it is the
  largest one.
* If `sscanf` stops before the fourth number, the rest of them is whatever the stack holds, so
  `ip2int` has no result.

`ip2int_dotted` says what it reads from four numbers with dots between them, and `ip2int_ip2char`
that it reads what was printed.  The other way round it depends on the text, as `ip2int` also takes
zeros in front of a number; a `PlainQuad` has none, and `ip_roundTrip` puts both ways together.
-/

set_option autoImplicit false

namespace Sysinst

open CLib

def IPADDRESSLEN : ℕ := 16

/-- One `%u` of `sscanf`, and what is behind it. -/
def scanUint (s : Bytes) : Option (BitVec 32 × Bytes) :=
  let s := s.dropWhile isspace
  let neg := s.head? == some minus
  let s := if neg || s.head? == some plus then s.tail else s
  let n := digitsVal (s.takeWhile isdigit)
  if s.takeWhile isdigit = [] then none
  else
    some (if 2 ^ 32 ≤ n then BitVec.allOnes 32
      else if neg then -BitVec.ofNat 32 n else BitVec.ofNat 32 n, s.dropWhile isdigit)

/-- A dot and a `%u`. -/
def scanDotUint (s : Bytes) : Option (BitVec 32 × Bytes) :=
  if s.head? = some dot then scanUint s.tail else none

/-- The number that four bytes make up. -/
def packBytes (p3 p2 p1 p0 : BitVec 32) : BitVec 32 :=
  (p3 <<< 24) ||| (p2 <<< 16) ||| (p1 <<< 8) ||| p0

/-- `ip2int`. -/
def ip2int (cip : Bytes) : Option (BitVec 32) :=
  (scanUint cip).bind fun (p3, s) ↦
  (scanDotUint s).bind fun (p2, s) ↦
  (scanDotUint s).bind fun (p1, s) ↦
  (scanDotUint s).map fun (p0, _) ↦ packBytes p3 p2 p1 p0

/-- `ip2char`. -/
def ip2char (ip : BitVec 32) : Bytes :=
  (joinWith dot ([ip >>> 24, ip >>> 16, ip >>> 8, ip].map fun p ↦
    dec (p &&& 0xff#32).toNat)).take (IPADDRESSLEN - 1)

/-! ## Reading -/

/-- Four texts with dots between them. -/
def fourDotted (t3 t2 t1 t0 : Bytes) : Bytes := t3 ++ dot :: (t2 ++ dot :: (t1 ++ dot :: t0))

/-- The digits of a number that fits. -/
structure IsUint (t : Bytes) : Prop where
  ne_nil : t ≠ []
  digits : ∀ c ∈ t, isdigit c = true
  lt : digitsVal t < 2 ^ 32

theorem scanUint_digits {t : Bytes} (h : IsUint t) (r : Bytes)
    (hr : ∀ c ∈ r.head?, isdigit c = false) :
    scanUint (t ++ r) = some (BitVec.ofNat 32 (digitsVal t), r) := by
  obtain ⟨c, cs, hc⟩ := List.exists_cons_of_ne_nil h.ne_nil
  have hd : isdigit c = true := h.digits c (by simp [hc])
  have hsp : (t ++ r).dropWhile isspace = t ++ r := by
    rw [hc, List.cons_append, List.dropWhile_cons_of_neg (by simp [isspace_of_isdigit hd])]
  have hm : (t ++ r).head? = some c := by rw [hc]; rfl
  have h1 : c ≠ minus := ne_of_class hd (by decide)
  have h2 : c ≠ plus := ne_of_class hd (by decide)
  obtain ⟨htake, hdrop⟩ := span_eq h.digits hr
  have hlt : ¬4294967296 ≤ digitsVal t := not_le.2 h.lt
  rw [scanUint, hsp]
  simp [hm, h1, h2, htake, hdrop, h.ne_nil, hlt]

theorem scanDotUint_digits {t : Bytes} (h : IsUint t) (r : Bytes)
    (hr : ∀ c ∈ r.head?, isdigit c = false) :
    scanDotUint (dot :: (t ++ r)) = some (BitVec.ofNat 32 (digitsVal t), r) :=
  (if_pos rfl).trans (scanUint_digits h r hr)

/-- **Four numbers with dots between them.** -/
theorem ip2int_dotted {t3 t2 t1 t0 : Bytes} (h3 : IsUint t3) (h2 : IsUint t2) (h1 : IsUint t1)
    (h0 : IsUint t0) :
    ip2int (fourDotted t3 t2 t1 t0) =
      some (packBytes (BitVec.ofNat 32 (digitsVal t3)) (BitVec.ofNat 32 (digitsVal t2))
        (BitVec.ofNat 32 (digitsVal t1)) (BitVec.ofNat 32 (digitsVal t0))) := by
  have hdot : ∀ r : Bytes, ∀ c ∈ (dot :: r).head?, isdigit c = false := by
    rintro r c ⟨⟩
    decide
  have hlast := scanDotUint_digits h0 [] (by rintro c ⟨⟩)
  rw [List.append_nil] at hlast
  rw [ip2int, fourDotted, scanUint_digits h3 _ (hdot _), Option.bind_some]
  dsimp only
  rw [scanDotUint_digits h2 _ (hdot _), Option.bind_some]
  dsimp only
  rw [scanDotUint_digits h1 _ (hdot _), Option.bind_some]
  dsimp only
  rw [hlast, Option.map_some]

/-! ## An address that is entered -/

theorem isUint_octet (o : Octet) : IsUint o.text :=
  ⟨o.ne_nil, o.digits, o.val_le.trans_lt (by decide)⟩

theorem quad_text_eq (q : Quad) :
    q.text = fourDotted (q 0).text (q 1).text (q 2).text (q 3).text := by
  simp [Quad.text, List.ofFn_succ, fourDotted]

/-- The number that an address stands for. -/
def quadBits (q : Quad) : BitVec 32 :=
  packBytes (BitVec.ofNat 32 (q 0).val) (BitVec.ofNat 32 (q 1).val) (BitVec.ofNat 32 (q 2).val)
    (BitVec.ofNat 32 (q 3).val)

theorem ip2int_quad (q : Quad) : ip2int q.text = some (quadBits q) := by
  rw [quad_text_eq, ip2int_dotted (isUint_octet _) (isUint_octet _) (isUint_octet _)
    (isUint_octet _)]
  rfl

theorem quad_text_ne_nil (q : Quad) : q.text ≠ [] := by
  rw [quad_text_eq]
  exact List.append_ne_nil_of_left_ne_nil (q 0).ne_nil _

/-! ## An address that is printed -/

theorem byte_lt (p : BitVec 32) : (p &&& 0xff#32).toNat < 256 := by
  rw [BitVec.toNat_and]
  exact Nat.lt_succ_of_le Nat.and_le_right

theorem length_dec_byte {n : ℕ} (h : n < 256) : (dec n).length ≤ 3 := by
  have hle : (dec (BitVec.ofNat 8 n).toNat).length ≤ 3 :=
    (Octet.ofByte (BitVec.ofNat 8 n)).length_le
  rwa [BitVec.toNat_ofNat, Nat.mod_eq_of_lt h] at hle

/-- A printed address is not cut. -/
theorem ip2char_eq (ip : BitVec 32) :
    ip2char ip = fourDotted (dec ((ip >>> 24) &&& 0xff#32).toNat)
      (dec ((ip >>> 16) &&& 0xff#32).toNat) (dec ((ip >>> 8) &&& 0xff#32).toNat)
      (dec (ip &&& 0xff#32).toNat) := by
  have h3 := length_dec_byte (byte_lt (ip >>> 24))
  have h2 := length_dec_byte (byte_lt (ip >>> 16))
  have h1 := length_dec_byte (byte_lt (ip >>> 8))
  have h0 := length_dec_byte (byte_lt ip)
  have hjoin : joinWith dot ([ip >>> 24, ip >>> 16, ip >>> 8, ip].map fun p ↦
      dec (p &&& 0xff#32).toNat) = fourDotted (dec ((ip >>> 24) &&& 0xff#32).toNat)
        (dec ((ip >>> 16) &&& 0xff#32).toNat) (dec ((ip >>> 8) &&& 0xff#32).toNat)
        (dec (ip &&& 0xff#32).toNat) := by
    simp [fourDotted, joinWith_cons]
  rw [ip2char, hjoin, List.take_of_length_le]
  simp only [fourDotted, List.length_append, List.length_cons, IPADDRESSLEN]
  omega

theorem isUint_dec {n : ℕ} (h : n < 256) : IsUint (dec n) :=
  ⟨dec_ne_nil n, dec_isdigit n, by rw [digitsVal_dec]; exact h.trans (by decide)⟩

/-- The bytes of a number make it up. -/
theorem packBytes_bytes (v : BitVec 32) :
    packBytes ((v >>> 24) &&& 0xff#32) ((v >>> 16) &&& 0xff#32) ((v >>> 8) &&& 0xff#32)
      (v &&& 0xff#32) = v := by
  rw [packBytes]
  ext i hi
  simp only [BitVec.getElem_or, BitVec.getElem_shiftLeft, BitVec.getElem_and]
  interval_cases i <;> simp

/-- **What is printed is read back.** -/
theorem ip2int_ip2char (ip : BitVec 32) : ip2int (ip2char ip) = some ip := by
  rw [ip2char_eq, ip2int_dotted (isUint_dec (byte_lt _)) (isUint_dec (byte_lt _))
    (isUint_dec (byte_lt _)) (isUint_dec (byte_lt _))]
  simp only [digitsVal_dec, BitVec.ofNat_toNat, BitVec.setWidth_eq, packBytes_bytes]

theorem ip2char_ne_nil (ip : BitVec 32) : ip2char ip ≠ [] := by
  rw [ip2char_eq]
  exact List.append_ne_nil_of_left_ne_nil (dec_ne_nil _) _

/-! ## Both ways -/

/-- The bytes of a number. -/
def ipBytes (ip : BitVec 32) : Addr := fun i ↦ (ip >>> (24 - 8 * i.val)).setWidth 8

/-- Four octets, none of which has a zero in front. -/
structure PlainQuad where
  quad : Quad
  plain : ∀ i, (quad i).text.length = 1 ∨ (quad i).text.head? ≠ some 48

theorem setWidth_and (p : BitVec 32) : (p.setWidth 8).toNat = (p &&& 0xff#32).toNat := by
  rw [BitVec.toNat_setWidth, BitVec.toNat_and]
  exact (Nat.and_two_pow_sub_one_eq_mod p.toNat 8).symm

/-- A printed address is the dotted form of its bytes. -/
theorem ip2char_ipBytes (ip : BitVec 32) : ip2char ip = dotted (ipBytes ip) := by
  rw [ip2char_eq, ← Quad.text_ofAddr, quad_text_eq]
  simp only [← setWidth_and]
  rfl

/-- An address and its NUL take at most sixteen bytes. -/
theorem length_dotted_lt (a : Addr) : (dotted a).length + 1 ≤ IPADDRESSLEN := by
  have h : ∀ i, (Quad.ofAddr a i).text.length ≤ 3 := fun i ↦ (Quad.ofAddr a i).length_le
  have h0 := h 0
  have h1 := h 1
  have h2 := h 2
  have h3 := h 3
  rw [← Quad.text_ofAddr, quad_text_eq]
  simp only [fourDotted, List.length_append, List.length_cons, IPADDRESSLEN]
  omega

/-- The bytes of a number that was put together from bytes. -/
theorem ipBytes_packBytes (a : Addr) :
    ipBytes (packBytes ((a 0).setWidth 32) ((a 1).setWidth 32) ((a 2).setWidth 32)
      ((a 3).setWidth 32)) = a := by
  funext i
  ext j hj
  obtain ⟨i, hi⟩ := i
  interval_cases i <;> interval_cases j <;> simp [ipBytes, packBytes]

/-- An octet without a zero in front is the print of its number. -/
theorem PlainQuad.dec_val (p : PlainQuad) (i : Fin 4) :
    dec (p.quad i).val = (p.quad i).text := by
  have hdigits := (p.quad i).digits
  rw [Octet.val]
  rcases p.plain i with hone | hhead
  · obtain ⟨c, hc⟩ := List.length_eq_one_iff.1 hone
    rw [hc] at hdigits ⊢
    rw [← dec_digit (hdigits c List.mem_cons_self), digitsVal_dec]
  · exact (dec_digitsVal hdigits (p.quad i).ne_nil hhead).2

/-- Such an address is printed as it was written. -/
theorem PlainQuad.text_ofAddr (p : PlainQuad) : dotted p.quad.addr = p.quad.text := by
  have hbyte : ∀ i, (Quad.ofAddr p.quad.addr i).text = (p.quad i).text := fun i ↦
    (congrArg dec (p.quad i).toNat_byte).trans (p.dec_val i)
  rw [← Quad.text_ofAddr, quad_text_eq, quad_text_eq, hbyte, hbyte, hbyte, hbyte]

/-- **An address goes through both ways**, as a number and as a text. -/
theorem ip_roundTrip (ip : BitVec 32) (p : PlainQuad) :
    (ip2char ip = dotted (ipBytes ip) ∧ (dotted (ipBytes ip)).length + 1 ≤ IPADDRESSLEN) ∧
      ip2int (ip2char ip) = some ip ∧
      (ip2int p.quad.text).map ip2char = some p.quad.text := by
  refine ⟨⟨ip2char_ipBytes ip, length_dotted_lt _⟩, ip2int_ip2char ip, ?_⟩
  have hbytes : ipBytes (quadBits p.quad) = p.quad.addr := by
    rw [quadBits]
    simp only [← Octet.setWidth_byte]
    exact ipBytes_packBytes p.quad.addr
  rw [ip2int_quad, Option.map_some, ip2char_ipBytes, hbytes, p.text_ofAddr]

/-- The address `192.0.2.10`. -/
def plainQuad : PlainQuad := ⟨Quad.ofAddr ![192, 0, 2, 10], by decide +kernel⟩

theorem ip_roundTrip_plainQuad : ip2int (ip2char 0xc000020a#32) = some 0xc000020a#32 ∧
    (ip2int (cstr "192.0.2.10")).map ip2char = some (cstr "192.0.2.10") := by
  have htext : plainQuad.quad.text = cstr "192.0.2.10" := by decide +kernel
  exact htext ▸ (ip_roundTrip 0xc000020a#32 plainQuad).2

end Sysinst
