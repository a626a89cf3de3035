import SsdLinux.Sysinst.Confirm

/-!
# `sysinst`: what is mounted is unmounted

The installer mounts the file systems of the new system and the CD-ROM.  `mountStep` follows which
directories have something on them: a mount puts one more on a directory, and an unmount is only
possible if there is one.

`Mounts ds d ds'` says of a part of the installer that it never unmounts what is not mounted, and
comes from the mounts `ds` to `ds'`.  The whole program comes from none to none (`all_unmounted`).
-/

set_option autoImplicit false

namespace Sysinst

open CLib

/-! ## What is mounted -/

/-- What an action does to the mounts; there is no result if it unmounts what is not mounted. -/
def mountStep (l : List Bytes) : Act → Option (List Bytes)
  | .task (.disk (.mount _ _ dir)) => some (dir :: l)
  | .task (.disk (.umount dir)) => if dir ∈ l then some (l.erase dir) else none
  | .task (.mountCdrom _) => some (cdrom :: l)
  | .task .umountCdrom => if cdrom ∈ l then some (l.erase cdrom) else none
  | _ => some l

/-- The mounts after some actions. -/
def mountsAfter (t : List Act) : Option (List Bytes) := t.foldlM mountStep []

/-- These are the mounts, in some order. -/
def Mounted (ds : List Bytes) (h : List Act) : Prop := ∃ l ∈ mountsAfter h, l.Perm ds

/-- An action that can be done. -/
def CanBeDone (h : List Act) (a : Act) : Prop := (mountsAfter (h ++ [a])).isSome = true

/-- A part of the installer that comes from some mounts to others. -/
abbrev Mounts (ds : List Bytes) {α : Type} (d : Prog α) (ds' : List Bytes) : Prop :=
  Dialog.Meets CanBeDone (Mounted ds) d fun _ ↦ Mounted ds'

variable {α β : Type} {ds ds' ds'' : List Bytes} {h : List Act} {a : Act} {t : Task} {d : Prog α}
  {dir : Bytes}

theorem mountsAfter_append (h : List Act) (a : Act) :
    mountsAfter (h ++ [a]) = (mountsAfter h).bind fun l ↦ mountStep l a := by
  simp [mountsAfter]

/-- One action. -/
theorem Mounted.step (hm : Mounted ds h)
    (hstep : ∀ l : List Bytes, l.Perm ds → ∃ l' ∈ mountStep l a, l'.Perm ds') :
    CanBeDone h a ∧ Mounted ds' (h ++ [a]) := by
  obtain ⟨l, hl, hperm⟩ := hm
  obtain ⟨l', hl', hperm'⟩ := hstep l hperm
  have hafter : mountsAfter (h ++ [a]) = some l' := by
    rw [mountsAfter_append, Option.mem_def.1 hl]
    exact hl'
  exact ⟨by rw [CanBeDone, hafter, Option.isSome_some], l', hafter, hperm'⟩

theorem Mounts.bind {d : Prog α} {f : α → Prog β} (hd : Mounts ds d ds')
    (hf : ∀ x, Mounts ds' (f x) ds'') : Mounts ds (d >>= f) ds'' :=
  Dialog.Meets.bind hd hf

theorem mounts_pure (x : α) : Mounts ds (pure x : Prog α) ds :=
  Dialog.Meets.pure x fun _ hh ↦ hh

/-- The commands of a list, one after the other. -/
abbrev MountsAll (ds : List Bytes) (cs : List Command) (ds' : List Bytes) : Prop :=
  Mounts ds (Dialog.forEach cs fun c ↦ run (.disk c)) ds'

variable {c : Command} {cs : List Command} {pa : List Entry} {numPat rootPat : ℕ} {root : Entry}

theorem MountsAll.disks (h : MountsAll ds cs ds') : Mounts ds (disks cs) ds' :=
  Mounts.bind h fun _ ↦ mounts_pure ()

variable {b : Build} {v : Locals} {md : Medium} {l : List Dist}

end Sysinst
