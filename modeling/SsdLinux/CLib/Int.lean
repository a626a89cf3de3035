import SsdLinux.CLib.Bytes

/-!
# C integers of 32 bits

What is left of an integer in an `int` (`asInt`) and in an `unsigned` (`asUnsigned`).  One that fits
stays what it is (`asInt_of_lt`), and an `unsigned` is read back into an `int` without a loss
(`asInt_asUnsigned`).
-/

set_option autoImplicit false

namespace CLib

variable {n : ℤ}

/-- An integer in an `int`. -/
def asInt (n : ℤ) : ℤ := n.bmod 4294967296

/-- An integer in an `unsigned`. -/
def asUnsigned (n : ℤ) : ℤ := n % 4294967296

theorem asInt_of_lt (hlow : -2147483648 ≤ n) (hhigh : n < 2147483648) : asInt n = n :=
  Int.bmod_eq_of_le_mul_two (by omega) (by omega)

theorem asInt_bounds (n : ℤ) : -2147483648 ≤ asInt n ∧ asInt n < 2147483648 :=
  ⟨Int.le_bmod (by decide), Int.bmod_lt (by decide)⟩

/-- What is lost is a multiple of `2 ^ 32`. -/
theorem exists_asInt (n : ℤ) : ∃ k, asInt n = n - 4294967296 * k := by
  obtain ⟨k, hk⟩ := Int.dvd_self_sub_bmod (x := n) (m := 4294967296)
  exact ⟨k, by rw [asInt]; omega⟩

theorem asInt_eq_iff : asInt n = n ↔ -2147483648 ≤ n ∧ n < 2147483648 :=
  ⟨fun h ↦ h ▸ asInt_bounds n, fun h ↦ asInt_of_lt h.1 h.2⟩

theorem asInt_asUnsigned (n : ℤ) : asInt (asUnsigned n) = asInt n :=
  Int.emod_bmod n 4294967296

theorem asUnsigned_of_lt (hlow : 0 ≤ n) (hhigh : n < 4294967296) : asUnsigned n = n :=
  Int.emod_eq_of_lt hlow hhigh

end CLib
