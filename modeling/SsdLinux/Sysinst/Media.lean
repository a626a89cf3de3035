import SsdLinux.Sysinst.Listing
import SsdLinux.Sysinst.Menu

/-!
# `sysinst`: disks, media and distributions

`probe_hd` and `probe_md` find out which disks there are and where the binaries can come from: the
first Ethernet interface and the CD-ROMs.  Three simple menus let the user choose one place for the
boot block, one medium, and some distributions.

* The menus are loops that end with an `x` (`menuLoop`).  The first two go round their list, one
  place for each `t` (`cycle`); in the last one the number of a distribution takes it in or out.
* `probe_md` copies four bytes of the name of an interface, and no NUL.  What lies behind them is in
  the name too (`behind`).
* `probe_hd` says nothing of the partition 0 of a disk (`Fresh`).

`cycle_answers` and `toggle_answers` say what the menus come to.
-/

set_option autoImplicit false

namespace Sysinst

open CLib

/-! ## Menus -/

/-- `while((i=getanswer()) != 'x')`, with a body that takes the answer and may read more.  The first
number bounds the rounds, each of which takes something of the input. -/
def loopGo {σ : Type} (signed : Bool) (body : ℤ → σ → Bytes → Option (σ × Bytes)) :
    ℕ → σ → Bytes → Option (σ × Bytes)
  | 0, _, _ => none
  | n + 1, s, input =>
    (getanswer signed input).bind fun (c, rest) ↦
      if c = 120 then some (s, rest)
      else (body c s rest).bind fun (s, rest) ↦ loopGo signed body n s rest

def menuLoop {σ : Type} (signed : Bool) (body : ℤ → σ → Bytes → Option (σ × Bytes)) (s : σ)
    (input : Bytes) : Option (σ × Bytes) :=
  loopGo signed body (input.length + 1) s input

/-- What every round keeps is there in the end. -/
theorem menuLoop_keeps {σ : Type} {I : σ → Prop} {signed : Bool}
    {body : ℤ → σ → Bytes → Option (σ × Bytes)}
    (hbody : ∀ {c s rest s' rest'}, body c s rest = some (s', rest') → I s → I s') {s s' : σ}
    {input rest : Bytes} (h : menuLoop signed body s input = some (s', rest)) (hs : I s) :
    I s' := by
  rw [menuLoop] at h
  generalize input.length + 1 = n at h
  induction n generalizing s input with
  | zero => cases h
  | succ n ih =>
    rw [loopGo] at h
    obtain ⟨⟨c, mid⟩, -, h⟩ := Option.bind_eq_some_iff.1 h
    dsimp only at h
    split_ifs at h
    · cases h
      exact hs
    · obtain ⟨⟨s₁, mid'⟩, hround, h⟩ := Option.bind_eq_some_iff.1 h
      exact ih (hbody hround hs) h

/-- A menu that reads nothing but answers. -/
def menu {σ : Type} (signed : Bool) (step : σ → ℤ → σ) (s : σ) (input : Bytes) :
    Option (σ × Bytes) :=
  menuLoop signed (fun c s rest ↦ some (step s c, rest)) s input

/-- The answers before the `x`. -/
def answersGo (signed : Bool) : ℕ → Bytes → Option (List ℤ × Bytes)
  | 0, _ => none
  | n + 1, input =>
    (getanswer signed input).bind fun (c, rest) ↦
      if c = 120 then some ([], rest)
      else (answersGo signed n rest).map fun (cs, rest) ↦ (c :: cs, rest)

def answers (signed : Bool) (input : Bytes) : Option (List ℤ × Bytes) :=
  answersGo signed (input.length + 1) input

/-! ## The places to choose from -/

/-- `md_t`: `cdrom` is its type. -/
structure Medium where
  name : Bytes
  cdrom : Bool
  deriving DecidableEq

def MAXMD : ℕ := 16

/-- What is in the structure of a disk before anything is put there. -/
structure Fresh where
  type : ℕ
  size : ℤ
  bootable : Bool

/-- A disk as `probe_hd` leaves it, if this is the name of one. -/
def freshDisk (fresh : Fresh) (name : Bytes) : Option Hd :=
  if h : name.length = 3 ∧ ∀ c ∈ name, c ≠ blank ∧ c ≠ 9 ∧ c ≠ nl then
    some ⟨false, ⟨name, false, fun k ↦ if k = 0 then fresh.type else 0,
      fun k ↦ if k = 0 then fresh.size else 0, fun k ↦ if k = 0 then fresh.bootable else false,
      h.1, h.2⟩⟩
  else none

/-- A line of `/proc/partitions`: the name of a disk, if the line has one. -/
def diskLine (buf : Bytes) : Option (Option Bytes) :=
  if (cString buf).length = 1 then some none
  else
    (getarg (fun _ ↦ []) (tab2sp buf)).map fun (i, word) ↦
      if i = 4 ∧ (word 3).length = 3 then some (word 3) else none

/-- `probe_hd`, which ends with the disk 16. -/
def probeHd (fresh : ℕ → Fresh) (partitions : Bytes) : Option (List Hd) :=
  ((fgetsAll (BUFSIZ - 1) partitions).mapM diskLine).bind fun names ↦
    ((names.reduceOption.take MAXHDDEV).zipIdx).mapM fun (name, j) ↦ freshDisk (fresh j) name

/-- `strncpy` of four bytes. -/
def interfaceName (behind name : Bytes) : Bytes :=
  if name.length < 4 then name else name.take 4 ++ behind

/-- The first interface that a line of `/proc/net/dev` is about. -/
def probeNet (behind : Bytes) : List Bytes → Option (List Medium)
  | [] => some []
  | buf :: bufs =>
    if (cString buf).length = 1 then probeNet behind bufs
    else
      (getarg (fun _ ↦ []) (tab2sp buf)).bind fun (i, word) ↦
        if (i = 17 ∨ i = 16) ∧ (word 0).take 3 = cstr "eth" then
          some [⟨interfaceName behind (word 0), false⟩]
        else probeNet behind bufs

/-- The disk of that name is a CD-ROM. -/
def markCd (name : Bytes) : List Hd → List Hd
  | [] => []
  | h :: hd =>
    if name.take 3 = h.disk.name then { h with flagCd := true } :: hd else h :: markCd name hd

/-- A drive. -/
def probeDrive (x : List Medium × List Hd) (word : Bytes) : Option (List Medium × List Hd) :=
  let (md, hd) := x
  if word.take 2 = cstr "sr" then
    if MAXMD ≤ md.length then some (md, hd)
    else (getlu word 2).map fun n ↦ (md ++ [⟨printName (cstr "/dev/scd" ++ decInt n), true⟩], hd)
  else if word.take 2 = cstr "hd" then
    if MAXMD ≤ md.length then some (md, hd)
    else some (md ++ [⟨printName (cstr "/dev/" ++ word), true⟩], markCd word hd)
  else some (md, hd)

/-- A line of `/proc/sys/dev/cdrom/info`. -/
def driveLine (x : List Medium × List Hd) (buf : Bytes) : Option (List Medium × List Hd) :=
  if (cString buf).length = 1 ∨ (tab2sp buf).head? = some hash then some x
  else
    (getarg (fun _ ↦ []) (tab2sp buf)).bind fun (i, word) ↦
      if 2 < i ∧ word 0 = cstr "drive" ∧ word 1 = cstr "name:" then
        ((List.range' 2 (i - 2)).map word).foldlM probeDrive x
      else some x

/-- `probe_md`: the media, and the disks with the CD-ROMs marked.  A file that cannot be opened is
left out. -/
def probeMd (behind : Bytes) (netDev cdromInfo : Option Bytes) (hd : List Hd) :
    Option (List Medium × List Hd) :=
  (probeNet behind (netDev.elim [] (fgetsAll (BUFSIZ - 1)))).bind fun md ↦
    (cdromInfo.elim [] (fgetsAll (BUFSIZ - 1))).foldlM driveLine (md, hd)

/-! ## Choosing -/

/-- The answer in a menu that goes round `n` places. -/
def cycle (n : ℕ) (j : ℕ) (c : ℤ) : ℕ := if c = 116 then if j + 1 = n then 0 else j + 1 else j

/-- `set_boot_partition`. -/
def setBootPartition (signed : Bool) (num_bp : ℕ) (input : Bytes) : Option (ℕ × Bytes) :=
  menu signed (cycle num_bp) 0 input

/-- `set_install_media`. -/
def setInstallMedia (signed : Bool) (num_md : ℕ) (input : Bytes) : Option (ℕ × Bytes) :=
  menu signed (cycle num_md) 0 input

/-- `struct dist_list_t`. -/
structure Dist where
  name : Bytes
  flagInst : Bool
  flagResult : ℤ
  deriving DecidableEq

/-- The answer in the menu of the distributions, of which there are `n`. -/
def toggleDist (n : ℕ) (l : List Dist) (c : ℤ) : List Dist :=
  if c - 48 < 0 ∨ c - 48 > (n : ℤ) - 1 then l
  else l.modify (c - 48).toNat fun d ↦ { d with flagInst := !d.flagInst }

/-- `set_distributions`. -/
def setDistributions (signed : Bool) (n : ℕ) (l : List Dist) (input : Bytes) :
    Option (List Dist × Bytes) :=
  menu signed (toggleDist n) l input

/-! ## What the menus come to -/

variable {signed : Bool} {input rest : Bytes} {cs : List ℤ}

theorem loopGo_answers {σ : Type} (step : σ → ℤ → σ) (n : ℕ) (s : σ) (input : Bytes) :
    loopGo signed (fun c s rest ↦ some (step s c, rest)) n s input =
      (answersGo signed n input).map fun x ↦ (x.1.foldl step s, x.2) := by
  induction n generalizing s input with
  | zero => rfl
  | succ n ih =>
    rw [loopGo, answersGo]
    rcases getanswer signed input with - | ⟨c, rest⟩
    · rfl
    · dsimp only [Option.bind_some]
      split_ifs with hc
      · rfl
      · rw [ih, Option.map_map]
        rfl

/-- **A menu is the answers that are given, one after the other.** -/
theorem menu_eq {σ : Type} (step : σ → ℤ → σ) (s : σ) (input : Bytes) :
    menu signed step s input =
      (answers signed input).map fun x ↦ (x.1.foldl step s, x.2) :=
  loopGo_answers step _ s input

theorem cycle_of_lt {n j : ℕ} (hj : j < n) (c : ℤ) :
    cycle n j c = (j + if c = 116 then 1 else 0) % n := by
  rw [cycle]
  split_ifs with hc hn
  · rw [hn, Nat.mod_self]
  · rw [Nat.mod_eq_of_lt (by omega)]
  · rw [Nat.add_zero, Nat.mod_eq_of_lt hj]

/-- **Going round**: the place is the number of the `t`s, counted round the places. -/
theorem cycle_answers {n j : ℕ} (hj : j < n) (cs : List ℤ) :
    cs.foldl (cycle n) j = (j + cs.count 116) % n := by
  induction cs generalizing j with
  | nil => rw [List.foldl_nil, List.count_nil, Nat.add_zero, Nat.mod_eq_of_lt hj]
  | cons c cs ih =>
    have hlt : cycle n j c < n := by
      rw [cycle_of_lt hj]
      exact Nat.mod_lt _ (by omega)
    rw [List.foldl_cons, ih hlt, cycle_of_lt hj, List.count_cons, Nat.mod_add_mod]
    congr 1
    by_cases hc : c = 116 <;> simp [hc]
    omega

/-- The distribution `i` after some answers. -/
theorem toggleDist_getElem? {n i : ℕ} (hi : i < n) (l : List Dist) (c : ℤ) :
    (toggleDist n l c)[i]? =
      l[i]?.map fun d ↦ { d with flagInst := d.flagInst ^^ decide (c = 48 + i) } := by
  rw [toggleDist]
  by_cases hc : c = 48 + i
  · have hin : ¬(c - 48 < 0 ∨ c - 48 > (n : ℤ) - 1) := by omega
    have hto : (c - 48).toNat = i := by omega
    rw [if_neg hin, hto, List.getElem?_modify_eq]
    simp [hc]
  · have hsame : l[i]?.map (fun d ↦ { d with flagInst := d.flagInst ^^ decide (c = 48 + i) })
        = l[i]? := by simp [hc]
    rw [hsame]
    split_ifs with hin
    · rfl
    · rw [List.getElem?_modify_ne]
      omega

/-- **A distribution is taken in or out by each answer with its number**, and by no other. -/
theorem toggle_answers {n i : ℕ} (hi : i < n) (l : List Dist) (cs : List ℤ) :
    (cs.foldl (toggleDist n) l)[i]? = l[i]?.map fun d ↦
      { d with flagInst := d.flagInst ^^ decide (cs.count (48 + (i : ℤ)) % 2 = 1) } := by
  induction cs generalizing l with
  | nil => simp
  | cons c cs ih =>
    rw [List.foldl_cons, ih, toggleDist_getElem? hi, Option.map_map]
    refine congrArg (Option.map · l[i]?) (funext fun d ↦ ?_)
    by_cases hc : c = 48 + i
    · have hflip : ∀ k : ℕ, (!decide (k % 2 = 1)) = decide ((k + 1) % 2 = 1) := fun k ↦ by
        by_cases hk : k % 2 = 1 <;> simp [hk] <;> omega
      simp [hc, ← hflip]
    · simp [hc]

end Sysinst
