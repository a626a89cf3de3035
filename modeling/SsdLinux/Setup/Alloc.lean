import SsdLinux.Setup.List
import SsdLinux.Slots
import SsdLinux.Words

/-!
# `list.c`: room for the items

A `List` of the source has `sz` slots for items to begin with, and uses `n` of them.  `list_split`
counts the separators before it splits, so it has room for what it finds (`listSplit_spec`).
`list_push` allocates twice as many slots when there are none left, but it does not write down that
it did: from then on every push allocates `2 * sz` slots again, and there is no room for more.
`list_join` counts the bytes of the items and not the blanks between them.

* `CList` is a list in memory, with its slots as in `SsdLinux.Slots`.
* `CList.Holds l xs` says that `l` has the items `xs`, in their order.
* `RoomFor sz xs ops`: no push in `ops` finds `2 * sz` items or more.
* `list_room_iff` puts it together for a list that is `Built` in either way.
-/

set_option autoImplicit false

namespace Setup

open CLib

/-! ## The source -/

/-- A `List`: what `item` points to, `n` and `sz`.  These are `int`s in the source, and numbers
here: no list comes to more items than an `int` counts. -/
structure CList where
  item : List (Option Bytes)
  n : ℕ
  sz : ℕ

/-- `list_new`. -/
def listNew (sz : ℕ) : CList := ⟨Slots.fresh (2 * sz), 0, 2 * sz⟩

/-- The counting pass of `list_split`. -/
def countSeps (sep : UInt8) : Bytes → ℕ
  | [] => 0
  | c :: s => (if sep = 0 ∧ isspace c = true ∨ c = sep then 1 else 0) + countSeps sep s

/-- What `list_split` allocates. -/
def splitRoom (sep : UInt8) : Option Bytes → CList
  | none => listNew 0
  | some str => listNew (countSeps sep str + 1)

/-- `list_split` with its stores. -/
def CList.split (sep : UInt8) (str : Option Bytes) : Option CList :=
  (Slots.fill (splitRoom sep str).item 0 ((listSplit sep str).map some)).map fun item ↦
    { splitRoom sep str with item, n := (listSplit sep str).length }

/-- `list_push`. -/
def CList.push (l : CList) (item : Bytes) : Option CList :=
  if l.n < l.sz then
    (Slots.store l.item l.n (some item)).map fun slots ↦ { l with item := slots, n := l.n + 1 }
  else
    -- `sz` is left as it is
    (Slots.fill (Slots.fresh (l.sz * 2)) 0 (l.item.take l.n ++ [some item])).map fun slots ↦
      { l with item := slots, n := l.n + 1 }

/-- `list_remove_item`. -/
def CList.removeItem (l : CList) (str : Bytes) : Option CList :=
  let i := (l.item.take l.n).idxOf (some str)
  if i < l.n then
    (Slots.shift (l.n - 1 - i) i l.item).map fun slots ↦ { l with item := slots, n := l.n - 1 }
  else some l

/-- `list_pop`: the last item, and the list without it. -/
def CList.pop (l : CList) : Option Bytes × CList :=
  if l.n > 0 then (l.item[l.n - 1]?.join, { l with n := l.n - 1 }) else (none, l)

/-- What `list_join` allocates. -/
def joinSize (l : List Bytes) : ℕ := 1 + (l.map List.length).sum

/-! ## What `list_split` finds -/

theorem length_splitBlanks_le (o : Option Bytes) (s : Bytes) :
    (splitBlanks o s).length ≤ countSeps 0 s + 1 := by
  induction s generalizing o with
  | nil => cases o <;> simp [splitBlanks]
  | cons c s ih =>
    rw [countSeps]
    by_cases hc : isspace c = true
    · rw [if_pos (.inl ⟨rfl, hc⟩)]
      have := ih none
      cases o with
      | none => rw [splitBlanks, if_pos hc]; omega
      | some w => rw [splitBlanks, if_pos hc, List.length_cons]; omega
    · cases o with
      | none =>
        rw [splitBlanks, if_neg hc]
        have := ih (some [c])
        omega
      | some w =>
        rw [splitBlanks, if_neg hc]
        have := ih (some (w ++ [c]))
        omega

theorem length_splitSep_le (sep : UInt8) (w s : Bytes) :
    (splitSep sep w s).length ≤ countSeps sep s + 1 := by
  induction s generalizing w with
  | nil => exact le_of_eq rfl
  | cons c s ih =>
    rw [countSeps, splitSep]
    by_cases hc : c = sep
    · rw [if_pos hc, if_pos (c := sep = 0 ∧ isspace c = true ∨ c = sep) (.inr hc), List.length_cons]
      have := ih []
      split_ifs
      · rw [List.length_nil]
        omega
      · omega
    · rw [if_neg hc]
      have := ih (w ++ [c])
      omega

/-- **No more items than separators, and one.** -/
theorem length_listSplit_le (sep : UInt8) (str : Option Bytes) :
    (listSplit sep str).length ≤ (splitRoom sep str).sz := by
  rcases str with - | - | ⟨c, s⟩
  · exact Nat.zero_le _
  · exact Nat.zero_le _
  · have hslots : (splitRoom sep (some (c :: s))).sz = 2 * (countSeps sep (c :: s) + 1) := rfl
    rw [hslots, listSplit]
    · split_ifs with h
      · have := length_splitBlanks_le (some []) (c :: s)
        rw [h]
        omega
      · have := length_splitSep_le sep [] (c :: s)
        omega
    · exact List.cons_ne_nil c s

/-- Where white space is skipped, the items are the words. -/
theorem splitBlanks_eq (s : Bytes) : splitBlanks none s = Words.split isspace s ∧
    ∀ w, Words.IsWord isspace w → splitBlanks (some w) s = Words.split isspace (w ++ s) := by
  induction s with
  | nil =>
    refine ⟨(Words.split_nil _).symm, fun w hw ↦ ?_⟩
    rw [List.append_nil, Words.split_of_isWord hw]
    rfl
  | cons c s ih =>
    by_cases hc : isspace c = true
    · refine ⟨?_, fun w hw ↦ ?_⟩
      · have hsplit := Words.split_append_cons [] hc s
        rw [List.nil_append, Words.split_nil, List.nil_append] at hsplit
        rw [splitBlanks, if_pos hc, ih.1, hsplit]
      · rw [splitBlanks, if_pos hc, ih.1, Words.split_append_cons w hc s,
          Words.split_of_isWord hw]
        rfl
    · have hchar : ∀ d ∈ [c], isspace d = false := List.forall_mem_singleton.2 (by simpa using hc)
      refine ⟨?_, fun w hw ↦ ?_⟩
      · rw [splitBlanks, if_neg hc, ih.2 [c] ⟨List.cons_ne_nil c [], hchar⟩]
        rfl
      · rw [splitBlanks, if_neg hc, ih.2 (w ++ [c])
          ⟨List.append_ne_nil_of_left_ne_nil hw.1 _, List.forall_mem_append.2 ⟨hw.2, hchar⟩⟩,
          List.append_assoc]
        rfl

/-- **The items are the words**, behind an empty one if there is white space in front. -/
theorem listSplit_blanks (s : Bytes) :
    listSplit 0 (some s)
      = (if s.head?.any isspace = true then [[]] else []) ++ Words.split isspace s := by
  cases s with
  | nil => simp [listSplit]
  | cons c s =>
    rw [listSplit, if_pos rfl]
    · have hwords := (splitBlanks_eq (c :: s)).1
      rw [splitBlanks] at hwords
      rw [splitBlanks, List.head?_cons, Option.any_some, ← hwords]
      by_cases hc : isspace c = true
      · rw [if_pos hc, if_pos hc, if_pos hc]
        rfl
      · rw [if_neg hc, if_neg hc, if_neg hc]
        rfl
    · exact List.cons_ne_nil c s

/-- **What `list_split` does**: words that were joined come back, there are slots for all items, and
without a separator the items are the words of the text, behind an empty item if the text begins
with white space. -/
theorem listSplit_spec :
    (∀ l, (∀ s ∈ l, IsWord s) → listSplit 0 (some (listJoin l)) = l) ∧
    (∀ sep str, (listSplit sep str).length ≤ (splitRoom sep str).item.length) ∧
    ∀ s, listSplit 0 (some s)
        = (if s.head?.any isspace = true then [[]] else []) ++ Words.split isspace s ∧
      ∀ w ∈ Words.split isspace s, Words.IsWord isspace w := by
  refine ⟨fun l hl ↦ listSplit_listJoin hl, fun sep str ↦ ?_,
    fun s ↦ ⟨listSplit_blanks s, fun w hw ↦ Words.isWord_of_mem hw⟩⟩
  have hslots : (splitRoom sep str).item.length = (splitRoom sep str).sz := by
    cases str <;> exact List.length_replicate
  exact hslots ▸ length_listSplit_le sep str

/-! ## Runs -/

/-- What is done to a list. -/
inductive ListOp
  | push (item : Bytes)
  | removeItem (str : Bytes)
  | pop

variable {l : CList} {xs : List Bytes} {ops : List ListOp}

def ListOp.run : ListOp → CList → Option CList
  | push item, l => l.push item
  | removeItem str, l => l.removeItem str
  | pop, l => some l.pop.2

def runOps : List ListOp → CList → Option CList
  | [], l => some l
  | o :: ops, l => (o.run l).bind (runOps ops)

/-- What it comes to for the items. -/
def ListOp.apply : ListOp → List Bytes → List Bytes
  | push item, xs => listPush xs item
  | removeItem str, xs => listRemoveItem xs str
  | pop, xs => xs.dropLast

def applyOps (ops : List ListOp) (xs : List Bytes) : List Bytes :=
  ops.foldl (fun xs o ↦ o.apply xs) xs

/-- The list `l` has the items `xs`. -/
structure CList.Holds (l : CList) (xs : List Bytes) : Prop where
  items : Slots.Holds l.item xs
  length : l.n = xs.length
  room : l.sz ≤ l.item.length

/-- A push is not one too many. -/
def ListOp.HasRoom (sz : ℕ) (xs : List Bytes) : ListOp → Prop
  | push _ => xs.length < 2 * sz
  | _ => True

/-- No push finds `2 * sz` items or more. -/
def RoomFor (sz : ℕ) : List Bytes → List ListOp → Prop
  | _, [] => True
  | xs, o :: ops => o.HasRoom sz xs ∧ RoomFor sz (o.apply xs) ops

theorem listNew_holds (k : ℕ) : (listNew k).Holds [] :=
  ⟨Slots.holds_nil _, rfl, le_of_eq List.length_replicate.symm⟩

theorem split_holds (sep : UInt8) (str : Option Bytes) :
    ∃ l, CList.split sep str = some l ∧ l.sz = (splitRoom sep str).sz ∧
      l.Holds (listSplit sep str) := by
  have hslots : (splitRoom sep str).item.length = (splitRoom sep str).sz := by
    cases str <;> exact List.length_replicate
  obtain ⟨block, hfill, hlen, hholds⟩ := @Slots.fill_holds _ _ _ (listSplit sep str)
    (Slots.holds_nil (splitRoom sep str).item)
    (by rw [List.length_nil, Nat.zero_add, hslots]; exact length_listSplit_le sep str)
  refine ⟨{ splitRoom sep str with item := block, n := (listSplit sep str).length }, ?_, rfl,
    hholds, rfl, ?_⟩
  · rw [CList.split]
    exact congrArg _ hfill
  · rw [hlen, hslots]

theorem push_holds (h : l.Holds xs) (item : Bytes) (hlt : xs.length < 2 * l.sz) :
    ∃ l', l.push item = some l' ∧ l'.sz = l.sz ∧ l'.Holds (listPush xs item) := by
  rw [CList.push, h.length]
  by_cases hn : xs.length < l.sz
  · obtain ⟨block, hstore, hlen, hholds⟩ :=
      Slots.store_holds (x := item) h.items (hn.trans_le h.room)
    rw [if_pos hn, hstore]
    refine ⟨_, rfl, rfl, hholds, ?_, hlen ▸ h.room⟩
    rw [listPush, List.length_append, List.length_singleton]
  · have hfresh : (Slots.fresh (l.sz * 2) : List (Option Bytes)).length = l.sz * 2 :=
      List.length_replicate
    obtain ⟨block, hfill, hlen, hholds⟩ := @Slots.fill_holds _ _ _ (xs ++ [item])
      (Slots.holds_nil (Slots.fresh (l.sz * 2)))
      (by rw [hfresh, List.length_nil, List.length_append, List.length_singleton]; omega)
    rw [if_neg hn, h.items]
    rw [List.map_append] at hfill
    refine ⟨⟨block, xs.length + 1, l.sz⟩, congrArg _ hfill, rfl, hholds, ?_, ?_⟩
    · rw [listPush, List.length_append, List.length_singleton]
    · rw [hlen, hfresh]
      exact Nat.le_mul_of_pos_right _ (by decide)

theorem push_eq_none (h : l.Holds xs) (item : Bytes) (hge : ¬xs.length < 2 * l.sz) :
    l.push item = none := by
  have hfresh : (Slots.fresh (l.sz * 2) : List (Option Bytes)).length = l.sz * 2 :=
    List.length_replicate
  rw [CList.push, h.length, if_neg (by omega), h.items, Slots.fill_eq_none]
  · rfl
  · exact List.append_ne_nil_of_right_ne_nil _ (List.cons_ne_nil _ _)
  · rw [hfresh, List.length_append, List.length_map, List.length_singleton]
    omega

theorem removeItem_holds (h : l.Holds xs) (str : Bytes) :
    ∃ l', l.removeItem str = some l' ∧ l'.sz = l.sz ∧ l'.Holds (listRemoveItem xs str) := by
  rw [CList.removeItem, h.length, h.items]
  by_cases hmem : str ∈ xs
  · obtain ⟨as, bs, rfl, has⟩ := List.eq_append_cons_of_mem hmem
    have hidx : ((as ++ str :: bs).map some).idxOf (some str) = as.length := by
      rw [List.map_append, List.idxOf_append_of_notMem (by simpa using has), List.map_cons,
        List.idxOf_cons_self, List.length_map, Nat.add_zero]
    have hsub : (as ++ str :: bs).length - 1 - as.length = bs.length := by
      rw [List.length_append, List.length_cons]
      omega
    obtain ⟨block, hshift, hlen, hholds⟩ := Slots.shift_holds h.items
    rw [hidx, if_pos (by rw [List.length_append, List.length_cons]; omega), hsub, hshift]
    refine ⟨_, rfl, rfl, ?_, ?_, hlen ▸ h.room⟩
    · rwa [listRemoveItem, List.erase_append_right _ has, List.erase_cons_head]
    · rw [listRemoveItem, List.length_erase_of_mem hmem]
  · have hidx : (xs.map some).idxOf (some str) = xs.length := by
      rw [List.idxOf_eq_length (by simpa using hmem), List.length_map]
    rw [hidx, if_neg (lt_irrefl _)]
    exact ⟨l, rfl, rfl, by rwa [listRemoveItem, List.erase_of_not_mem hmem]⟩

/-- `list_pop` takes the last item. -/
theorem pop_holds (h : l.Holds xs) :
    l.pop.1 = xs.getLast? ∧ l.pop.2.sz = l.sz ∧ l.pop.2.Holds xs.dropLast := by
  rw [CList.pop, h.length]
  rcases List.eq_nil_or_concat' xs with rfl | ⟨ys, y, rfl⟩
  · exact ⟨rfl, rfl, h⟩
  · obtain ⟨rest, hitem⟩ := h.items.exists_append
    have hlen : (ys ++ [y]).length - 1 = ys.length := by simp
    have hget : l.item[ys.length]? = some (some y) := by
      rw [hitem]
      simp
    rw [if_pos (by simp), hlen, hget, List.getLast?_concat, List.dropLast_concat]
    exact ⟨rfl, rfl, h.items.of_append, rfl, h.room⟩

/-- **One step.** -/
theorem run_holds (h : l.Holds xs) (o : ListOp) (hroom : o.HasRoom l.sz xs) :
    ∃ l', o.run l = some l' ∧ l'.sz = l.sz ∧ l'.Holds (o.apply xs) := by
  cases o with
  | push item => exact push_holds h item hroom
  | removeItem str => exact removeItem_holds h str
  | pop => exact ⟨l.pop.2, rfl, (pop_holds h).2⟩

/-- **A run**: it comes to an end with the items it should have exactly if there is room for all
that is pushed. -/
theorem runOps_iff (h : l.Holds xs) :
    (∃ l', runOps ops l = some l' ∧ l'.Holds (applyOps ops xs)) ↔ RoomFor l.sz xs ops := by
  induction ops generalizing l xs with
  | nil => exact iff_of_true ⟨l, rfl, h⟩ trivial
  | cons o ops ih =>
    rw [RoomFor]
    by_cases hroom : o.HasRoom l.sz xs
    · obtain ⟨l₁, hrun, hsz, h₁⟩ := run_holds h o hroom
      rw [and_iff_right hroom, ← hsz, ← ih h₁, runOps, hrun]
      rfl
    · refine iff_of_false ?_ fun h ↦ hroom h.1
      rintro ⟨l', hrun, -⟩
      cases o with
      | push item =>
        rw [runOps, ListOp.run, push_eq_none h item hroom] at hrun
        cases hrun
      | removeItem => exact hroom trivial
      | pop => exact hroom trivial

theorem joinSize_iff (l : List Bytes) : (listJoin l).length + 1 ≤ joinSize l ↔ l.length ≤ 1 := by
  have hsum : ∀ l : List Bytes,
      (l.map fun s ↦ s.length + 1).sum = (l.map List.length).sum + l.length := fun l ↦ by
    induction l with
    | nil => rfl
    | cons s l ih => rw [List.map_cons, List.sum_cons, ih, List.map_cons, List.sum_cons,
        List.length_cons]; omega
  rw [listJoin, length_joinWith, hsum, joinSize]
  omega

/-- How a list is built. -/
inductive Built
  | new (sz : ℕ)
  | split (sep : UInt8) (str : Option Bytes)

def Built.list : Built → Option CList
  | new sz => some (listNew sz)
  | split sep str => CList.split sep str

/-- The items that it has to begin with. -/
def Built.items : Built → List Bytes
  | new _ => []
  | split sep str => listSplit sep str

/-- The slots that it has to begin with. -/
def Built.sz : Built → ℕ
  | new sz => (listNew sz).sz
  | split sep str => (splitRoom sep str).sz

theorem Built.holds (b : Built) : ∃ l, b.list = some l ∧ l.sz = b.sz ∧ l.Holds b.items := by
  cases b with
  | new sz => exact ⟨listNew sz, rfl, rfl, listNew_holds sz⟩
  | split sep str => exact split_holds sep str

/-- **The stores are within what is allocated** exactly if no push finds twice as many items as the
list began with slots, and if no more than one item is joined. -/
theorem list_room_iff (b : Built) (ops : List ListOp) (xs : List Bytes) :
    ((∃ l, b.list.bind (runOps ops) = some l ∧ l.Holds (applyOps ops b.items)) ↔
        RoomFor b.sz b.items ops) ∧
      ((listJoin xs).length + 1 ≤ joinSize xs ↔ xs.length ≤ 1) := by
  obtain ⟨l, hlist, hsz, hholds⟩ := b.holds
  refine ⟨?_, joinSize_iff xs⟩
  rw [hlist, ← hsz]
  exact runOps_iff hholds

/-- A push onto the list of a key that is not set, the fifth push onto `list_new(1)`, and two items
that are joined. -/
theorem list_overruns :
    (CList.split 0 none).bind (runOps [.push (cstr "1")]) = none ∧
      runOps (List.replicate 5 (.push (cstr "1"))) (listNew 1) = none ∧
      ¬(listJoin [cstr "a", cstr "b"]).length + 1 ≤ joinSize [cstr "a", cstr "b"] :=
  ⟨rfl, rfl, by decide⟩

end Setup
