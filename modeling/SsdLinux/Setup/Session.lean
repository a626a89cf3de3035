import SsdLinux.Setup.List
import SsdLinux.Setup.Env

/-!
# Session keys

Whoever has logged in carries a key `hash:stamp` from page to page.  The hash is that of the login,
the time stamp and a constant, written one after the other:

  `crypt(login ++ stamp ++ "SECRET", …)`

`check_key` hashes again and compares.  Nothing separates the login from the stamp, so a key binds
the two only *together*: `checkKey_binds_iff` says that two accepted pairs with the same hash are
the same pair exactly if their stamps have the same length.  A digit that moves from the end of the
login to the beginning of the stamp changes nothing (`admin1_as_admin`).

`sscanf(stamp, "%d", &t)` in `check_key` reads the stamp into a variable nothing looks at; a key is
never too old.
-/

set_option autoImplicit false

namespace Setup

open CLib

variable {w : World}

/-- What is hashed. -/
def keyText (login stamp : Bytes) : Bytes := login ++ stamp ++ cstr "SECRET"

/-- The time as `create_key` prints it, with the `%d` of an `int`. -/
def stampText (w : World) : Bytes := decInt (BitVec.ofNat 32 w.time).toInt

/-- `create_key`. -/
def createKey (w : World) (login : Bytes) : Bytes :=
  w.crypt (keyText login (stampText w)) (cstr "$1$" ++ dec w.pid) ++ colon :: stampText w

/-- `check_key`.  A key without a colon, or with nothing after it, has no second item to read. -/
def checkKey (w : World) (login str : Bytes) : Option Bool :=
  match listSplit colon (some str) with
  | key :: stamp :: _ => some (w.crypt (keyText login stamp) key == key)
  | _ => none

/-! ## Splitting the key -/

theorem splitSep_word {sep : UInt8} {s : Bytes} (hs : sep ∉ s) (v : Bytes) :
    splitSep sep v s = [v ++ s] := by
  induction s generalizing v with
  | nil => simp [splitSep]
  | cons c s ih =>
    rw [List.mem_cons, not_or] at hs
    rw [splitSep, if_neg (Ne.symm hs.1), ih hs.2]
    simp

/-- A stamp: decimal digits. -/
def IsStamp (s : Bytes) : Prop := s ≠ [] ∧ ∀ c ∈ s, isdigit c = true

instance (s : Bytes) : Decidable (IsStamp s) := inferInstanceAs (Decidable (_ ∧ _))

theorem listSplit_key {h s : Bytes} (hh : colon ∉ h) (hne : s ≠ []) (hs : colon ∉ s) :
    listSplit colon (some (h ++ colon :: s)) = [h, s] := by
  obtain ⟨c, t, ht⟩ := List.exists_cons_of_ne_nil (l := h ++ colon :: s) (by simp)
  rw [ht, listSplit, if_neg (by decide), ← ht, splitSep_append hh [] hne, splitSep_word hs]
  · rfl
  · exact List.cons_ne_nil c t

/-- **What `check_key` accepts.** -/
theorem checkKey_eq {login h s : Bytes} (hh : colon ∉ h) (hs : IsStamp s) :
    checkKey w login (h ++ colon :: s) = some (w.crypt (keyText login s) h == h) := by
  rw [checkKey, listSplit_key hh hs.1 (not_mem_of_class hs.2 (by decide))]

/-- A key is accepted with the login it was made for, if hashing with a hash for the salt gives that
hash again, as `crypt` does. -/
theorem checkKey_createKey {login : Bytes}
    (hcrypt : ∀ key salt, w.crypt key (w.crypt key salt) = w.crypt key salt)
    (hcolon : ∀ key salt, colon ∉ w.crypt key salt) (htime : w.time < 2 ^ 31) :
    checkKey w login (createKey w login) = some true := by
  have hstamp : IsStamp (stampText w) := by
    have hnat : (BitVec.ofNat 32 w.time).toNat = w.time := by
      rw [BitVec.toNat_ofNat, Nat.mod_eq_of_lt (by omega)]
    rw [stampText, BitVec.toInt_eq_toNat_of_lt (by omega), hnat, decInt, if_neg (by omega)]
    exact ⟨dec_ne_nil _, dec_isdigit _⟩
  rw [createKey, checkKey_eq (hcolon _ _) hstamp, hcrypt, beq_self_eq_true]

/-! ## What a key binds -/

theorem keyText_inj_iff {l1 l2 s1 s2 : Bytes} (h : keyText l1 s1 = keyText l2 s2) :
    (l1 = l2 ∧ s1 = s2) ↔ s1.length = s2.length :=
  ⟨fun he ↦ congrArg List.length he.2, fun hlen ↦
    List.append_inj' (List.append_cancel_right h) hlen⟩

/-- **A key binds login and stamp up to the place where one ends and the other begins**: two pairs
that one hash is accepted with are the same exactly if the stamps have the same length. -/
theorem checkKey_binds_iff (hcrypt : ∀ salt, Function.Injective fun key ↦ w.crypt key salt)
    {h l1 s1 l2 s2 : Bytes} (hh : colon ∉ h) (hs1 : IsStamp s1) (hs2 : IsStamp s2)
    (h1 : checkKey w l1 (h ++ colon :: s1) = some true)
    (h2 : checkKey w l2 (h ++ colon :: s2) = some true) :
    (l1 = l2 ∧ s1 = s2) ↔ s1.length = s2.length := by
  rw [checkKey_eq hh hs1, Option.some_inj, beq_iff_eq] at h1
  rw [checkKey_eq hh hs2, Option.some_inj, beq_iff_eq] at h2
  exact keyText_inj_iff (hcrypt h (h1.trans h2.symm))

/-- Spelling a string out in half bytes loses nothing. -/
theorem bare_crypt_injective (salt : Bytes) :
    Function.Injective fun key ↦ World.bare.crypt key salt := by
  have hspell : ∀ c d : UInt8, c / 16 + 65 = d / 16 + 65 → c % 16 + 65 = d % 16 + 65 → c = d := by
    intro c d h1 h2
    rw [UInt8.add_left_inj, ← UInt8.toNat_inj] at h1 h2
    rw [← UInt8.toNat_inj]
    have hdiv : ∀ e : UInt8, (e / 16).toNat = e.toNat / 16 := fun e ↦ by simp
    have hmod : ∀ e : UInt8, (e % 16).toNat = e.toNat % 16 := fun e ↦ by simp
    rw [hdiv, hdiv] at h1
    rw [hmod, hmod] at h2
    omega
  intro k1 k2 h
  replace h := List.append_cancel_left h
  induction k1 generalizing k2 with
  | nil => cases k2 <;> simp_all
  | cons c k1 ih =>
    cases k2 with
    | nil => simp at h
    | cons d k2 =>
      simp only [List.flatMap_cons, List.cons_append, List.nil_append, List.cons.injEq] at h
      rw [hspell c d h.1 h.2.1, ih h.2.2]

/-- The hash of `admin1` at a time in 2001. -/
def admin1Hash : Bytes := World.bare.crypt (keyText (cstr "admin1") (cstr "980911800")) (cstr "ab")

theorem checkKey_binds_admin1 :
    (cstr "admin1" = cstr "admin1" ∧ cstr "980911800" = cstr "980911800") ↔
      (cstr "980911800").length = (cstr "980911800").length :=
  checkKey_binds_iff (w := World.bare) bare_crypt_injective (h := admin1Hash) (by decide +kernel)
    (by decide) (by decide) (by decide +kernel) (by decide +kernel)

/-- The key of `admin1` is also one of `admin`, with a stamp that begins with the 1. -/
theorem admin1_as_admin :
    (∀ salt, Function.Injective fun key ↦ World.bare.crypt key salt) ∧ colon ∉ admin1Hash ∧
    IsStamp (cstr "980911800") ∧ IsStamp (cstr "1980911800") ∧
    checkKey World.bare (cstr "admin1") (admin1Hash ++ colon :: cstr "980911800") = some true ∧
    checkKey World.bare (cstr "admin") (admin1Hash ++ colon :: cstr "1980911800") = some true ∧
    ¬ (cstr "admin1" = cstr "admin" ∧ cstr "980911800" = cstr "1980911800") :=
  ⟨bare_crypt_injective, by decide +kernel, by decide, by decide, by decide +kernel,
    by decide +kernel, by decide⟩

end Setup
