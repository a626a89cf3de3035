import SsdLinux.Linked
import SsdLinux.Setup.Env

/-!
# `envtop`: the store as a linked list

`SsdLinux.Setup.Env` describes the store as a list of entries.  `eval.c` keeps it in memory: the
variable `envtop` is a cell without a key whose `next` points to the first entry, and the functions
walk along with two pointers, the cell they look at and its parent.

* `putval` writes over an entry that is there, without moving it, and links a new one behind the
  last cell.  It also writes the parent's pointer to an entry that was there, which changes nothing.
* `delval` links the parent to what follows the entry, and gives the entry back.
* `setvalflag` and `unsetvalflag` change the flag of what `getvalp` finds.

Every one of them does to the list what `SsdLinux.Setup.Env` says (`Simulates`), and never reaches
for a cell that is not there.  So the store is an ordered map over every run
(`envtop_ordered_map`), with one exception that the source states: an empty key is not kept.
-/

set_option autoImplicit false

namespace Setup

open CLib Linked

/-! ## The functions of `eval.c` -/

/-- What `eval.c` works on: the entries in memory, and the process environment. -/
structure Envtop where
  heap : Heap Entry
  environ : Bytes → Option Bytes

namespace Envtop

/-- No entry: `envtop` with a NULL pointer. -/
def empty (environ : Bytes → Option Bytes) : Envtop := ⟨Heap.empty, environ⟩

/-- The loop that `putval`, `delval` and `getvalp` have: `parent` and `envp`. -/
def lookup (key : Bytes) (s : Envtop) : Option (Option ℕ × Option ℕ) :=
  s.heap.find fun e ↦ decide (e.key = key)

/-- The end of `putval`: the entry is filled in, and linked to its parent. -/
def writeEntry (e : Entry) (heap : Heap Entry) (parent : Option ℕ) (envp : ℕ) :
    Option (Heap Entry) :=
  (heap.setData envp e).bind fun heap ↦ heap.setNext parent (some envp)

/-- `putval`. -/
def putval (key val : Bytes) (sw : BitVec 32) (s : Envtop) : Option Envtop :=
  if key = [] then some s
  else
    (lookup key s).bind fun
      | (parent, none) =>
        let new := s.heap.alloc ⟨[], [], 0⟩
        (writeEntry ⟨key, val, newFlag sw RC_bUPDATE⟩ new.1 parent new.2).map
          (⟨·, setenv key val s.environ⟩)
      | (parent, some envp) =>
        (s.heap.data envp).bind fun e ↦
          let sw2 := if val ≠ e.val then RC_bUPDATE else 0
          (writeEntry ⟨key, val, newFlag sw sw2⟩ s.heap parent envp).map
            (⟨·, setenv key val s.environ⟩)

/-- `delval`. -/
def delval (key : Bytes) (s : Envtop) : Option Envtop :=
  (lookup key s).bind fun
    | (_, none) => some s
    | (parent, some envp) =>
      (s.heap.next (some envp)).bind fun next ↦
        (s.heap.setNext parent next).bind fun heap ↦
          (heap.free envp).map fun heap ↦ { s with heap }

/-- `getvalp`: a pointer to the entry. -/
def getvalp (key : Bytes) (s : Envtop) : Option (Option ℕ) := (lookup key s).map Prod.snd

/-- What `setvalflag` and `unsetvalflag` share; they return 1 if there is an entry. -/
def modifyFlag (f : BitVec 32 → BitVec 32) (key : Bytes) (s : Envtop) : Option (ℕ × Envtop) :=
  (getvalp key s).bind fun
    | none => some (0, s)
    | some env =>
      (s.heap.data env).bind fun e ↦
        (s.heap.setData env { e with flag := f e.flag }).map fun heap ↦ (1, { s with heap })

/-- `setvalflag`. -/
def setvalflag (key : Bytes) (flag : BitVec 32) (s : Envtop) : Option (ℕ × Envtop) :=
  modifyFlag (· ||| flag) key s

/-- `unsetvalflag`. -/
def unsetvalflag (key : Bytes) (flag : BitVec 32) (s : Envtop) : Option (ℕ × Envtop) :=
  modifyFlag (· &&& ~~~flag) key s

end Envtop

/-- `unsetvalflag`, on the list of entries. -/
def unsetvalflag (key : Bytes) (flag : BitVec 32) (p : Proc) : Proc :=
  { p with env := Keyed.modify Entry.key key (fun e ↦ { e with flag := e.flag &&& ~~~flag }) p.env }

/-! ## The functions on memory and on the list -/

/-- The memory holds the entries of the list, in this order. -/
structure Simulates (s : Envtop) (p : Proc) : Prop where
  reads : s.heap.Reads p.env
  environ : s.environ = p.environ

section simulates

variable {s : Envtop} {p : Proc}

theorem simulates_empty (environ : Bytes → Option Bytes) :
    Simulates (.empty environ) ⟨[], environ⟩ :=
  ⟨Heap.reads_empty, rfl⟩

theorem lookup_absent {key : Bytes} (h : Simulates s p) (hkey : ∀ e ∈ p.env, e.key ≠ key) :
    ∃ parent, s.lookup key = some (parent, none) ∧ s.heap.AtEnd parent p.env :=
  h.reads.find_none fun e he ↦ by simpa using hkey e he

theorem lookup_split {key : Bytes} {l₁ l₂ : List Entry} {e : Entry} (h : Simulates s p)
    (henv : p.env = l₁ ++ e :: l₂) (h₁ : ∀ b ∈ l₁, b.key ≠ key) (he : e.key = key) :
    ∃ parent envp, s.lookup key = some (parent, some envp) ∧ s.heap.At parent envp l₁ e l₂ :=
  Heap.Reads.find_some (henv ▸ h.reads) (fun b hb ↦ by simpa using h₁ b hb) (by simpa using he)

/-- **`putval`.** -/
theorem Simulates.putval (h : Simulates s p) (key val : Bytes) (sw : BitVec 32) :
    ∃ s', s.putval key val sw = some s' ∧ Simulates s' (Setup.putval key val sw p) := by
  by_cases hkey : key = []
  · rw [Envtop.putval, Setup.putval, if_pos hkey, if_pos hkey]
    exact ⟨s, rfl, h⟩
  have henviron : setenv key val s.environ = setenv key val p.environ := by rw [h.environ]
  rw [Envtop.putval, Setup.putval, if_neg hkey, if_neg hkey]
  rcases Keyed.not_mem_or_split Entry.key key p.env with
    habs | ⟨l₁, e, l₂, henv, h₁, he⟩
  · obtain ⟨parent, hlook, hend⟩ := lookup_absent h habs
    obtain ⟨h', h'', hset, hlink, hreads⟩ :=
      hend.append ⟨[], [], 0⟩ ⟨key, val, newFlag sw RC_bUPDATE⟩
    refine ⟨⟨h'', setenv key val s.environ⟩, ?_, ?_, henviron⟩
    · rw [hlook, Option.bind_some]
      dsimp only
      rw [Envtop.writeEntry, hset, Option.bind_some, hlink, Option.map_some]
    · rw [Keyed.upsert_absent habs]
      exact hreads
  · obtain ⟨parent, envp, hlook, hat⟩ := lookup_split h henv h₁ he
    obtain ⟨h', hset, hat'⟩ := hat.setData (Setup.putEntry key val sw (some e))
    obtain ⟨h'', hlink, hreads⟩ := hat'.setNext
    refine ⟨⟨h'', setenv key val s.environ⟩, ?_, ?_, henviron⟩
    · rw [hlook, Option.bind_some]
      dsimp only
      rw [hat.data_eq, Option.bind_some, Envtop.writeEntry, ← Setup.putEntry, hset,
        Option.bind_some, hlink, Option.map_some]
    · rw [henv, Keyed.upsert_split h₁ he]
      exact hreads

/-- **`delval`.** -/
theorem Simulates.delval (h : Simulates s p) (key : Bytes) :
    ∃ s', s.delval key = some s' ∧ Simulates s' (Setup.delval key p) := by
  rw [Envtop.delval, Setup.delval]
  rcases Keyed.not_mem_or_split Entry.key key p.env with
    habs | ⟨l₁, e, l₂, henv, h₁, he⟩
  · obtain ⟨parent, hlook, -⟩ := lookup_absent h habs
    rw [hlook, Keyed.erase_absent habs]
    exact ⟨s, rfl, h⟩
  · obtain ⟨parent, envp, hlook, hat⟩ := lookup_split h henv h₁ he
    obtain ⟨m, h', h'', hnext, hlink, hfree, hreads⟩ := hat.remove
    refine ⟨⟨h'', s.environ⟩, ?_, ?_, h.environ⟩
    · rw [hlook, Option.bind_some]
      dsimp only
      rw [hnext, Option.bind_some, hlink, Option.bind_some, hfree, Option.map_some]
    · rw [henv, Keyed.erase_split h₁ he]
      exact hreads

/-- **`getvalp`**: the pointer is to the entry, or NULL. -/
theorem Simulates.getvalp (h : Simulates s p) (key : Bytes) :
    ∃ envp, s.getvalp key = some envp ∧ envp.isSome = (Setup.getvalp key p).isSome ∧
      envp.bind s.heap.data = Setup.getvalp key p := by
  rw [Envtop.getvalp, Setup.getvalp]
  rcases Keyed.not_mem_or_split Entry.key key p.env with
    habs | ⟨l₁, e, l₂, henv, h₁, he⟩
  · obtain ⟨parent, hlook, -⟩ := lookup_absent h habs
    rw [hlook, Keyed.find_absent habs]
    exact ⟨none, rfl, rfl, rfl⟩
  · obtain ⟨parent, envp, hlook, hat⟩ := lookup_split h henv h₁ he
    rw [hlook, henv, Keyed.find_split h₁ he]
    exact ⟨some envp, rfl, rfl, hat.data_eq⟩

theorem Simulates.modifyFlag (h : Simulates s p) (f : BitVec 32 → BitVec 32) (key : Bytes) :
    ∃ r s', s.modifyFlag f key = some (r, s') ∧ Simulates s'
      { p with env := Keyed.modify Entry.key key (fun e ↦ { e with flag := f e.flag }) p.env } := by
  rw [Envtop.modifyFlag, Envtop.getvalp]
  rcases Keyed.not_mem_or_split Entry.key key p.env with
    habs | ⟨l₁, e, l₂, henv, h₁, he⟩
  · obtain ⟨parent, hlook, -⟩ := lookup_absent h habs
    rw [hlook, Keyed.modify_absent habs]
    exact ⟨0, s, rfl, h⟩
  · obtain ⟨parent, envp, hlook, hat⟩ := lookup_split h henv h₁ he
    obtain ⟨h', hset, hat'⟩ := hat.setData { e with flag := f e.flag }
    refine ⟨1, ⟨h', s.environ⟩, ?_, ?_, h.environ⟩
    · rw [hlook, Option.map_some, Option.bind_some]
      dsimp only
      rw [hat.data_eq, Option.bind_some, hset, Option.map_some]
    · rw [henv, Keyed.modify_split h₁ he]
      exact hat'.reads

/-- **`setvalflag`.** -/
theorem Simulates.setvalflag (h : Simulates s p) (key : Bytes) (flag : BitVec 32) :
    ∃ r s', s.setvalflag key flag = some (r, s') ∧
      Simulates s' (Setup.setvalflag key flag p) :=
  h.modifyFlag (· ||| flag) key

/-- **`unsetvalflag`.** -/
theorem Simulates.unsetvalflag (h : Simulates s p) (key : Bytes) (flag : BitVec 32) :
    ∃ r s', s.unsetvalflag key flag = some (r, s') ∧
      Simulates s' (Setup.unsetvalflag key flag p) :=
  h.modifyFlag (· &&& ~~~flag) key

end simulates

/-! ## Calls -/

/-- The calls that change the store. -/
inductive Call
  | putval (key val : Bytes) (sw : BitVec 32)
  | delval (key : Bytes)
  | setvalflag (key : Bytes) (flag : BitVec 32)
  | unsetvalflag (key : Bytes) (flag : BitVec 32)

namespace Call

/-- The call, on the memory. -/
def run (s : Envtop) : Call → Option Envtop
  | putval key val sw => s.putval key val sw
  | delval key => s.delval key
  | setvalflag key flag => (s.setvalflag key flag).map Prod.snd
  | unsetvalflag key flag => (s.unsetvalflag key flag).map Prod.snd

/-- The call, on the list of entries. -/
def onList (p : Proc) : Call → Proc
  | putval key val sw => Setup.putval key val sw p
  | delval key => Setup.delval key p
  | setvalflag key flag => Setup.setvalflag key flag p
  | unsetvalflag key flag => Setup.unsetvalflag key flag p

/-- The calls that give a key a new value or take its entry away. -/
def Replaces (key : Bytes) : Call → Prop
  | putval k _ _ => k = key
  | delval k => k = key
  | _ => False

/-- **What a call makes of the entries**, `l` before and `l'` after it. -/
def Law (l l' : List Entry) : Call → Prop
  | putval key val sw =>
    if key = [] then l' = l
    else
      (∀ (i : ℕ) (e : Entry), l[i]? = some e → e.key ≠ key → l'[i]? = some e) ∧
      (∀ (i : ℕ) (e : Entry), l[i]? = some e → e.key = key →
        l'.length = l.length ∧ ∃ flag, l'[i]? = some ⟨key, val, flag⟩) ∧
      ((∀ e ∈ l, e.key ≠ key) → ∃ flag, l' = l ++ [⟨key, val, flag⟩]) ∧
      (sw &&& RC_bWRITE ≠ 0 → ∀ e ∈ l', e.key = key →
        (e.flag &&& RC_bUPDATE ≠ 0 ↔ sw &&& RC_bUPDATE ≠ 0 ∨ (∀ e ∈ l, e.key ≠ key) ∨
          ∃ old ∈ l, old.key = key ∧ old.val ≠ val))
  | delval key => l' = l.filter fun e ↦ decide (e.key ≠ key)
  | setvalflag key flag =>
    l' = l.map fun e ↦ if e.key = key then { e with flag := e.flag ||| flag } else e
  | unsetvalflag key flag =>
    l' = l.map fun e ↦ if e.key = key then { e with flag := e.flag &&& ~~~flag } else e

variable {s : Envtop} {p : Proc}

/-- A call does to the memory what it does to the list. -/
theorem simulates (h : Simulates s p) (c : Call) :
    ∃ s', c.run s = some s' ∧ Simulates s' (c.onList p) := by
  cases c with
  | putval key val sw => exact h.putval key val sw
  | delval key => exact h.delval key
  | setvalflag key flag =>
    obtain ⟨r, s', hs, h'⟩ := h.setvalflag key flag
    exact ⟨s', by rw [run, hs, Option.map_some], h'⟩
  | unsetvalflag key flag =>
    obtain ⟨r, s', hs, h'⟩ := h.unsetvalflag key flag
    exact ⟨s', by rw [run, hs, Option.map_some], h'⟩

theorem wf_modify (h : p.WF) {key : Bytes} {g : Entry → Entry} (hg : ∀ e, (g e).key = e.key) :
    ({ p with env := Keyed.modify Entry.key key g p.env } : Proc).WF := by
  refine ⟨?_, fun e he ↦ ?_⟩
  · rw [Keyed.map_key_modify hg]
    exact h.nodup
  · rcases Keyed.mem_modify he with he | ⟨e', he', -, rfl⟩
    · exact h.ne_nil e he
    · rw [hg]
      exact h.ne_nil e' he'

theorem wf (h : p.WF) (c : Call) : (c.onList p).WF := by
  cases c with
  | putval key val sw => exact h.putval key val sw
  | delval key =>
    have hsub : (Setup.delval key p).env.Sublist p.env := Keyed.erase_sublist _
    exact ⟨h.nodup.sublist (hsub.map _), fun e he ↦ h.ne_nil e (hsub.subset he)⟩
  | setvalflag key flag => exact wf_modify h fun _ ↦ rfl
  | unsetvalflag key flag => exact wf_modify h fun _ ↦ rfl

/-! ### The value of a key -/

theorem stored_modify {key k : Bytes} (g : Entry → Entry) (hkey : ∀ e, (g e).key = e.key)
    (hval : ∀ e, (g e).val = e.val) :
    stored k { p with env := Keyed.modify Entry.key key g p.env } = stored k p := by
  rw [stored, getvalp, Keyed.find_modify hkey, stored, getvalp]
  split
  · rename_i hk
    subst hk
    rw [Option.map_map]
    exact congrArg (Option.map · _) (funext hval)
  · rfl

/-- A call that does not replace a key leaves its value alone. -/
theorem stored_of_not_replaces {k : Bytes} {c : Call} (hc : ¬ c.Replaces k) :
    stored k (c.onList p) = stored k p := by
  cases c with
  | putval key val sw => exact stored_putval_ne (Ne.symm hc) val sw p
  | delval key => rw [onList, stored, getvalp_delval_ne (Ne.symm hc), stored]
  | setvalflag key flag => exact stored_modify _ (fun _ ↦ rfl) fun _ ↦ rfl
  | unsetvalflag key flag => exact stored_modify _ (fun _ ↦ rfl) fun _ ↦ rfl

theorem stored_of_replaces (h : p.WF) {k v : Bytes} (hk : k ≠ []) {c : Call} (hc : c.Replaces k) :
    stored k (c.onList p) = some v ↔ ∃ sw, c = putval k v sw := by
  cases c with
  | putval key val sw =>
    obtain rfl : key = k := hc
    rw [onList, stored_putval_self hk, Option.some_inj]
    simp
  | delval key =>
    obtain rfl : key = k := hc
    have hnone : stored key (Setup.delval key p) = none := by
      rw [stored, getvalp, Setup.delval, Keyed.find_erase_self h.nodup, Option.map_none]
    rw [onList, hnone]
    simp
  | setvalflag key flag => exact hc.elim
  | unsetvalflag key flag => exact hc.elim

/-! ### The laws -/

theorem or_and_right_self {n : ℕ} (x y : BitVec n) : (x ||| y) &&& y = y := by
  ext i
  rw [BitVec.getElem_and, BitVec.getElem_or]
  cases x[i] <;> cases y[i] <;> rfl

theorem newFlag_update {sw sw2 : BitVec 32} (hw : sw &&& RC_bWRITE ≠ 0)
    (h2 : sw2 = RC_bUPDATE ∨ sw2 = 0) :
    newFlag sw sw2 &&& RC_bUPDATE ≠ 0 ↔ sw &&& RC_bUPDATE ≠ 0 ∨ sw2 = RC_bUPDATE := by
  rw [newFlag, if_pos hw]
  rcases h2 with rfl | rfl
  · rw [or_and_right_self]
    simp
  · simp

theorem law_putval_new {key : Bytes} (habs : ∀ e ∈ p.env, e.key ≠ key) (hkey : key ≠ [])
    (val : Bytes) (sw : BitVec 32) :
    (putval key val sw).Law p.env (Setup.putval key val sw p).env := by
  rw [Law, Setup.putval, if_neg hkey, if_neg hkey, Keyed.upsert_absent habs]
  refine ⟨fun i e hi _ ↦ ?_, fun i e hi he ↦ ?_, fun _ ↦ ⟨_, rfl⟩, fun hw e hmem he ↦ ?_⟩
  · rw [List.getElem?_append_left (List.getElem?_eq_some_iff.mp hi).1, hi]
  · exact absurd he (habs e (List.mem_of_getElem? hi))
  · rcases List.mem_append.mp hmem with hmem | hmem
    · exact absurd he (habs e hmem)
    · rw [List.mem_singleton.mp hmem, putEntry, newFlag_update hw (.inl rfl)]
      exact iff_of_true (.inr rfl) (.inr (.inl habs))

theorem law_putval_old (h : p.WF) {key : Bytes} {old : Entry} (hold : old ∈ p.env)
    (hkey : old.key = key) (hne : key ≠ []) (val : Bytes) (sw : BitVec 32) :
    (putval key val sw).Law p.env (Setup.putval key val sw p).env := by
  have hmem : key ∈ p.env.map Entry.key := hkey ▸ List.mem_map_of_mem hold
  have huniq : ∀ e ∈ p.env, e.key = key → e = old := fun e he hk ↦
    List.inj_on_of_nodup_map h.nodup he hold (hk.trans hkey.symm)
  rw [Law, Setup.putval, if_neg hne, if_neg hne, Keyed.upsert_eq_map h.nodup hmem]
  refine ⟨fun i e hi he ↦ ?_, fun i e hi he ↦ ⟨List.length_map .., ?_⟩,
    fun habs ↦ absurd hkey (habs old hold), fun hw e he hk ↦ ?_⟩
  · rw [List.getElem?_map, hi, Option.map_some, if_neg he]
  · rw [List.getElem?_map, hi, Option.map_some, if_pos he, putEntry]
    exact ⟨_, rfl⟩
  · obtain ⟨d, hd, rfl⟩ := List.mem_map.mp he
    have hdk : d.key = key := by
      by_contra h0
      rw [if_neg h0] at hk
      exact h0 hk
    rw [if_pos hdk, putEntry, newFlag_update hw (by split <;> simp)]
    refine or_congr_right ⟨fun h0 ↦ .inr ⟨d, hd, hdk, fun hv ↦ ?_⟩, ?_⟩
    · rw [if_neg (by simp [hv])] at h0
      exact absurd h0 (by decide)
    · rintro (habs | ⟨e, he, hke, hv⟩)
      · exact absurd hkey (habs old hold)
      · rw [huniq e he hke, ← huniq d hd hdk] at hv
        exact if_pos (Ne.symm hv)

/-- **Every call keeps its law.** -/
theorem law (h : p.WF) (c : Call) : c.Law p.env (c.onList p).env := by
  cases c with
  | putval key val sw =>
    by_cases hne : key = []
    · rw [Law, onList, Setup.putval, if_pos hne, if_pos hne]
    · by_cases hold : ∃ old ∈ p.env, old.key = key
      · obtain ⟨old, hold, hkey⟩ := hold
        exact law_putval_old h hold hkey hne val sw
      · exact law_putval_new (fun e he hk ↦ hold ⟨e, he, hk⟩) hne val sw
  | delval key => exact Keyed.erase_eq_filter _ h.nodup
  | setvalflag key flag => exact Keyed.modify_eq_map h.nodup _
  | unsetvalflag key flag => exact Keyed.modify_eq_map h.nodup _

end Call

/-! ## Runs -/

/-- Calls one after the other, on the memory. -/
def runCalls (cs : List Call) (s : Envtop) : Option Envtop := cs.foldlM Call.run s

/-- The value was put under the key, and no call has replaced it since. -/
def LastPut (key val : Bytes) (cs : List Call) : Prop :=
  ∃ before sw after, cs = before ++ .putval key val sw :: after ∧ ∀ c ∈ after, ¬ c.Replaces key

/-- `getvalp` finds an entry with this value. -/
def Envtop.Holds (s : Envtop) (key val : Bytes) : Prop :=
  ∃ envp e, s.getvalp key = some (some envp) ∧ s.heap.data envp = some e ∧ e.key = key ∧
    e.val = val

theorem lastPut_concat {key val : Bytes} {cs : List Call} {c : Call} :
    LastPut key val (cs ++ [c]) ↔
      (∃ sw, c = .putval key val sw) ∨ ¬ c.Replaces key ∧ LastPut key val cs := by
  constructor
  · rintro ⟨before, sw, after, heq, hafter⟩
    rcases List.eq_nil_or_concat' after with rfl | ⟨after, d, rfl⟩
    · exact .inl ⟨sw, (List.append_inj' heq rfl).2 |> List.singleton_inj.mp⟩
    · rw [← List.cons_append, ← List.append_assoc] at heq
      obtain ⟨rfl, hd⟩ := List.append_inj' heq rfl
      rw [List.forall_mem_append] at hafter
      obtain rfl := List.singleton_inj.mp hd
      exact .inr ⟨hafter.2 c List.mem_cons_self, before, sw, after, rfl, hafter.1⟩
  · rintro (⟨sw, rfl⟩ | ⟨hc, before, sw, after, rfl, hafter⟩)
    · exact ⟨cs, sw, [], rfl, List.forall_mem_nil _⟩
    · refine ⟨before, sw, after ++ [c], by simp, ?_⟩
      exact List.forall_mem_append.mpr ⟨hafter, List.forall_mem_singleton.mpr hc⟩

section runs

variable {p : Proc} {cs : List Call}

theorem wf_calls (h : p.WF) (cs : List Call) : (cs.foldl Call.onList p).WF := by
  induction cs generalizing p with
  | nil => exact h
  | cons c cs ih => exact ih (Call.wf h c)

theorem simulates_calls {s : Envtop} (h : Simulates s p) (cs : List Call) :
    ∃ s', runCalls cs s = some s' ∧ Simulates s' (cs.foldl Call.onList p) := by
  induction cs generalizing s p with
  | nil => exact ⟨s, rfl, h⟩
  | cons c cs ih =>
    obtain ⟨s', hs, h'⟩ := Call.simulates h c
    obtain ⟨s'', hs', h''⟩ := ih h'
    exact ⟨s'', by rw [runCalls, List.foldlM_cons, hs]; exact hs', h''⟩

/-- **The store holds what was put last.** -/
theorem stored_calls {key val : Bytes} (hkey : key ≠ []) (environ : Bytes → Option Bytes)
    (cs : List Call) :
    stored key (cs.foldl Call.onList ⟨[], environ⟩) = some val ↔ LastPut key val cs := by
  induction cs using List.reverseRecOn with
  | nil =>
    refine iff_of_false (by simp [stored, getvalp]) ?_
    rintro ⟨before, sw, after, heq, -⟩
    simp at heq
  | append_singleton cs c ih =>
    rw [List.foldl_append, List.foldl_cons, List.foldl_nil, lastPut_concat]
    by_cases hc : c.Replaces key
    · rw [Call.stored_of_replaces (wf_calls (wf_nil environ) cs) hkey hc]
      exact ⟨.inl, fun h ↦ h.resolve_right fun h' ↦ h'.1 hc⟩
    · rw [Call.stored_of_not_replaces hc, ih]
      refine ⟨fun h ↦ .inr ⟨hc, h⟩, fun h ↦ (h.resolve_left ?_).2⟩
      rintro ⟨sw, rfl⟩
      exact hc rfl

theorem Simulates.holds_iff {s : Envtop} (h : Simulates s p) (key val : Bytes) :
    s.Holds key val ↔ stored key p = some val := by
  obtain ⟨envp, hget, -, hdata⟩ := h.getvalp key
  rw [stored, ← hdata, Envtop.Holds]
  constructor
  · rintro ⟨a, e, ha, he, -, rfl⟩
    rw [hget, Option.some_inj] at ha
    rw [ha, Option.bind_some, he, Option.map_some]
  · intro hv
    obtain ⟨e, he, rfl⟩ := Option.map_eq_some_iff.mp hv
    obtain ⟨a, rfl, ha⟩ := Option.bind_eq_some_iff.mp he
    have hkey : e.key = key := Keyed.key_of_find Entry.key (hdata.symm.trans he)
    exact ⟨a, e, hget, ha, hkey, rfl⟩

end runs

/-- **The store is an ordered map.**  After any calls from an empty store:

* every key has one entry, and none is empty;
* `getvalp` finds an entry for a key that is not empty exactly if the key was put after it was last
  taken out, with the value that was put last, and a NULL pointer otherwise;
* the next call keeps its law: what `putval` and the flags leave in place, where a new key goes,
  what `delval` takes out, and when the update bit is set. -/
theorem envtop_ordered_map (cs : List Call) (environ : Bytes → Option Bytes) :
    ∃ s l, runCalls cs (.empty environ) = some s ∧ s.heap.Reads l ∧
      (l.map Entry.key).Nodup ∧ (∀ e ∈ l, e.key ≠ []) ∧
      (∀ key, key ≠ [] → (∀ val, s.Holds key val ↔ LastPut key val cs) ∧
        ((∀ val, ¬ LastPut key val cs) → s.getvalp key = some none)) ∧
      ∀ c : Call, ∃ s' l', c.run s = some s' ∧ s'.heap.Reads l' ∧ c.Law l l' := by
  obtain ⟨s, hs, h⟩ := simulates_calls (simulates_empty environ) cs
  have hwf := wf_calls (wf_nil environ) cs
  refine ⟨s, _, hs, h.reads, hwf.nodup, hwf.ne_nil, fun key hkey ↦ ⟨fun val ↦ ?_, fun hnot ↦ ?_⟩,
    fun c ↦ ?_⟩
  · rw [h.holds_iff, stored_calls hkey]
  · obtain ⟨envp, hget, hsome, -⟩ := h.getvalp key
    cases hp : getvalp key (cs.foldl Call.onList ⟨[], environ⟩) with
    | none =>
      rw [hp, Option.isSome_none, Option.isSome_eq_false_iff, Option.isNone_iff_eq_none] at hsome
      rw [hget, hsome]
    | some e =>
      refine absurd ((stored_calls hkey environ cs).mp ?_) (hnot e.val)
      rw [stored, hp, Option.map_some]
  · obtain ⟨s', hs', h'⟩ := Call.simulates h c
    exact ⟨s', _, hs', h'.reads, Call.law hwf c⟩

/-- An empty key is put, and not found. -/
theorem empty_key_not_kept :
    LastPut [] (cstr "v") [.putval [] (cstr "v") RC_bWRITE] ∧
      ((runCalls [.putval [] (cstr "v") RC_bWRITE] (.empty fun _ ↦ none)).bind fun s ↦
        s.getvalp []) = some none :=
  ⟨⟨[], RC_bWRITE, [], rfl, List.forall_mem_nil _⟩, by decide⟩

end Setup
