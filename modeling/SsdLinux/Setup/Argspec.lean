import SsdLinux.Setup.Arguments
import SsdLinux.Setup.Safe

/-!
# What the arguments of a request mean

The arguments of a request should mean what they say: cut the text at every `&`, split a piece at
its first `=`, decode the value, and put it under the name.  `specStore` is that, one piece after
the other, and `htGetarg_spec_iff` says for which texts `ht_getarg` does the same.

Two kinds of arguments get another value than the one in the text.

* A piece without a `=` should have an empty value.  It has the value of the piece before it,
  decoded once more.
* A value that ends in a `%` and one digit is read together with what follows in the buffer
  (`cString_copyOf_iff`).

Such a value does no harm if a later argument writes over it, except that `putval` compares: an
argument that is written as a change is marked as one if the value was another one before.  So it is
the last two arguments of every name that count (`Settled`).
-/

set_option autoImplicit false

namespace Setup

open CLib

variable {w : World} {p : Proc}

/-! ## The specification -/

/-- A value decoded by itself.  An escape that is cut off stands for the digits it has. -/
def urlDecode : Bytes → Bytes
  | [] => []
  | [c] => [if c = plus then blank else if c = percent then 0 else c]
  | [c, a] =>
    if c = percent then [hexByte a 0]
    else (if c = plus then blank else c) :: urlDecode [a]
  | c :: a :: b :: s =>
    if c = percent then hexByte a b :: urlDecode s
    else (if c = plus then blank else c) :: urlDecode (a :: b :: s)

/-- The arguments that a text denotes.  A store holds strings, so a value ends at a NUL. -/
def specArgs (text : Bytes) : List Arg :=
  (text.splitOn ampersand).map fun piece ↦ (pieceName piece, cString (urlDecode (pieceValue piece)))

/-- Put an argument under its name. -/
def specPut (w : World) (p : Proc) (a : Arg) : Proc :=
  match a.1 with
  | c :: d :: s =>
    if d = underscore then
      if c = 105 then
        putval (120 :: d :: s) a.2 RC_bWRITE (putval (105 :: d :: s) a.2 RC_bWRITE p)
      else if c = 106 then
        if getval w (105 :: d :: s) p = none then
          putval (120 :: d :: s) a.2 RC_bWRITE (putval (105 :: d :: s) a.2 RC_bWRITE p)
        else p
      else putval (c :: d :: s) a.2 RC_bWRITE p
    else putval (c :: d :: s) a.2 0 p
  | name => putval name a.2 0 p

/-- The store after all of them. -/
def specStore (w : World) (p : Proc) (text : Bytes) : Proc := (specArgs text).foldl (specPut w) p

/-- Whether a name begins with `d_`. -/
def specFlag (text : Bytes) : Bool := (specArgs text).any fun a ↦ (cstr "d_").isPrefixOf a.1

theorem specPut_eq (p : Proc) (a : Arg) : specPut w p a = (argPuts w p a).foldl Put.run p := by
  obtain ⟨name, v⟩ := a
  rcases name with _ | ⟨c, _ | ⟨d, s⟩⟩
  · rfl
  · rfl
  · simp only [specPut, argPuts]
    by_cases hd : d = underscore
    · rw [if_pos hd, if_pos hd]
      by_cases hi : c = 105
      · rw [if_pos hi, if_neg (by rw [hi]; decide), if_pos hi]
        rfl
      · rw [if_neg hi]
        by_cases hj : c = 106
        · rw [if_pos hj, if_pos hj]
          split <;> rfl
        · rw [if_neg hj, if_neg hj, if_neg hi]
          rfl
    · rw [if_neg hd, if_neg hd]
      rfl

theorem foldl_specPut (p : Proc) (args : List Arg) :
    args.foldl (specPut w) p = getargs w p args := by
  induction args generalizing p with
  | nil => rfl
  | cons a args ih => rw [List.foldl_cons, ih, specPut_eq, getargs_cons]

/-- The arguments that `ht_getarg` counts, with the values they should have. -/
def wantedArgs (text : Bytes) : List Arg :=
  (pieces text).map fun piece ↦ (pieceName piece, cString (urlDecode (pieceValue piece)))

theorem specStore_eq (p : Proc) (text : Bytes) :
    specStore w p text = getargs w p (wantedArgs text) ∧
      specFlag text = delFlag (wantedArgs text) := by
  rw [specStore, foldl_specPut, specFlag, wantedArgs, specArgs, pieces, delFlag]
  split
  · rename_i hnil
    rw [hnil]
    exact ⟨rfl, by decide⟩
  · exact ⟨rfl, rfl⟩

/-! ## Writes in terms of names -/

section keyed

variable {α β : Type}

/-- The keys that arguments are written under, with what the arguments carry. -/
def keyedArgs (p : Proc) : List Bytes → List (Bytes × α) → List (Bytes × α)
  | _, [] => []
  | before, a :: args =>
    ((writtenKeys p before a.1).map fun k ↦ (k, a.2)) ++ keyedArgs p (before ++ [a.1]) args

theorem keyedArgs_map (p : Proc) (f : α → β) (before : List Bytes) (args : List (Bytes × α)) :
    keyedArgs p before (args.map fun a ↦ (a.1, f a.2))
      = (keyedArgs p before args).map fun e ↦ (e.1, f e.2) := by
  induction args generalizing before with
  | nil => rfl
  | cons a args ih =>
    rw [List.map_cons, keyedArgs, keyedArgs, List.map_append, ih, List.map_map]
    rfl

end keyed

/-- The call of `putval` that writes this. -/
def putOf (e : Bytes × Bytes) : Put := ⟨e.1, e.2, keyFlag e.1⟩

theorem argsPuts_eq (done args : List Arg) :
    argsPuts w (getargs w p done) args = (keyedArgs p (done.map Prod.fst) args).map putOf := by
  induction args generalizing done with
  | nil => rfl
  | cons a args ih =>
    have hdone : (done ++ [a]).map Prod.fst = done.map Prod.fst ++ [a.1] := by simp
    rw [argsPuts, ← getargs_concat, ih, argPuts_eq, keyedArgs, hdone, List.map_append,
      List.map_map]
    rfl

/-- The store after arguments, in terms of their names. -/
theorem getargs_eq (w : World) (p : Proc) (args : List Arg) :
    getargs w p args = ((keyedArgs p [] args).map putOf).foldl Put.run p := by
  have hputs := argsPuts_eq (w := w) (p := p) [] args
  rw [getargs_nil] at hputs
  rw [getargs, hputs]
  rfl

/-! ## One key -/

/-- The values a key was given and those it should have been given, in order: the last two are
alike, and if the key records changes, the two before it are the same as the last one or differ from
it together. -/
def Settled (key : Bytes) (l : List (Bytes × Bytes)) : Prop :=
  ∀ last ∈ l.getLast?, last.1 = last.2 ∧
    (keyFlag key = RC_bWRITE → ∀ prev ∈ l.dropLast.getLast?,
      (prev.1 = last.1 ↔ prev.2 = last.1))

instance decidableSettled (key : Bytes) (l : List (Bytes × Bytes)) : Decidable (Settled key l) :=
  Option.decidableForallMem (o := l.getLast?)

theorem putEntry_eq (key val : Bytes) (sw : BitVec 32) (o : Option Entry) :
    putEntry key val sw o
      = ⟨key, val, newFlag sw (if o.map Entry.val = some val then 0 else RC_bUPDATE)⟩ := by
  rw [← flag_putEntry key val sw o]
  cases o <;> rfl

theorem newFlag_keyFlag_iff {key : Bytes} {a b : Prop} [Decidable a] [Decidable b] :
    newFlag (keyFlag key) (if a then 0 else RC_bUPDATE)
        = newFlag (keyFlag key) (if b then 0 else RC_bUPDATE) ↔
      (keyFlag key = RC_bWRITE → (a ↔ b)) := by
  have hkey : keyFlag key = RC_bWRITE ∨ keyFlag key = 0 := by
    rw [keyFlag]
    split
    · exact .inl rfl
    · exact .inr rfl
  rcases hkey with hkey | hkey
  · rw [hkey]
    by_cases ha : a <;> by_cases hb : b <;> simp [ha, hb, newFlag]
  · rw [hkey]
    refine iff_of_true ?_ fun h ↦ absurd h (by decide)
    rw [newFlag, newFlag, if_neg (by decide), if_neg (by decide)]

/-- The entry of a key after some writes to it. -/
def entryAfter (key : Bytes) (vals : List Bytes) (o : Option Entry) : Option Entry :=
  vals.foldl (fun o v ↦ some (putEntry key v (keyFlag key) o)) o

theorem entryAfter_concat (key : Bytes) (vals : List Bytes) (v : Bytes) (o : Option Entry) :
    entryAfter key (vals ++ [v]) o
      = some (putEntry key v (keyFlag key) (entryAfter key vals o)) := by
  rw [entryAfter, List.foldl_append]
  rfl

theorem val_entryAfter (key : Bytes) (vals : List Bytes) (o : Option Entry) :
    (entryAfter key vals o).map Entry.val = vals.getLast?.or (o.map Entry.val) := by
  rcases List.eq_nil_or_concat' vals with rfl | ⟨vals, v, rfl⟩
  · rfl
  · rw [entryAfter_concat, Option.map_some, val_putEntry, List.getLast?_concat, Option.some_or]

/-- **One key.** -/
theorem entryAfter_eq_iff {key : Bytes} {l : List (Bytes × Bytes)} {o : Option Entry} :
    entryAfter key (l.map Prod.fst) o = entryAfter key (l.map Prod.snd) o ↔ Settled key l := by
  rcases List.eq_nil_or_concat' l with rfl | ⟨l, last, rfl⟩
  · exact iff_of_true rfl fun _ h ↦ by cases h
  · simp only [Settled, List.getLast?_concat, List.dropLast_concat, Option.mem_some_iff,
      forall_eq', List.map_append, List.map_singleton, entryAfter_concat, putEntry_eq,
      Option.some_inj, Entry.mk.injEq, true_and, val_entryAfter]
    refine and_congr_right fun hval ↦ ?_
    rw [newFlag_keyFlag_iff, hval]
    refine imp_congr_right fun _ ↦ ?_
    rcases List.eq_nil_or_concat' l with rfl | ⟨l, prev, rfl⟩
    · simp
    · simp

/-! ## The whole store -/

theorem environ_foldl (qs : List Put) (p : Proc) (n : Bytes) :
    (qs.foldl Put.run p).environ n
      = if n = [] ∨ equals ∈ n then p.environ n
        else (((qs.filter fun q ↦ decide (q.key = n)).getLast?).map Put.val).or (p.environ n) := by
  induction qs using List.reverseRecOn with
  | nil => simp
  | append_singleton qs q ih =>
    rw [List.foldl_append, List.foldl_cons, List.foldl_nil, Put.run, putval, List.filter_append]
    by_cases hq : q.key = n
    · subst hq
      rw [List.filter_cons_of_pos (by simp), List.filter_nil, List.getLast?_concat]
      by_cases hkey : q.key = []
      · rw [if_pos hkey, ih, if_pos (.inl hkey), if_pos (.inl hkey)]
      · rw [if_neg hkey]
        simp only [setenv]
        by_cases hname : q.key = [] ∨ equals ∈ q.key
        · rw [if_pos hname, if_pos hname, ih, if_pos hname]
        · rw [if_neg hname, if_neg hname, Function.update_self]
          rfl
    · rw [List.filter_cons_of_neg (by simpa using hq), List.filter_nil, List.append_nil, ← ih]
      split
      · rfl
      · simp only [setenv]
        split
        · rfl
        · exact Function.update_of_ne (Ne.symm hq) _ _

theorem map_key_foldl {qs qs' : List Put} (h : qs.map Put.key = qs'.map Put.key) {p p' : Proc}
    (hp : p.env.map Entry.key = p'.env.map Entry.key) :
    (qs.foldl Put.run p).env.map Entry.key = (qs'.foldl Put.run p').env.map Entry.key := by
  induction qs generalizing qs' p p' with
  | nil =>
    obtain rfl := List.map_eq_nil_iff.mp h.symm
    exact hp
  | cons q qs ih =>
    obtain ⟨q', qs', rfl, hq, hqs⟩ := List.map_eq_cons_iff.mp h.symm
    refine ih hqs.symm ?_
    by_cases hne : q.key = []
    · rw [Put.run, putval, if_pos hne, Put.run, putval, if_pos (hq.trans hne)]
      exact hp
    · rw [Put.run, env_putval hne, Put.run, env_putval (hq ▸ hne),
        Keyed.map_key_upsert fun _ ↦ key_putEntry .., Keyed.map_key_upsert fun _ ↦ key_putEntry ..,
        hq, hp]

theorem Proc.WF.puts (h : p.WF) (qs : List Put) : (qs.foldl Put.run p).WF := by
  induction qs generalizing p with
  | nil => exact h
  | cons q qs ih => exact ih (h.putval q.key q.val q.sw)

theorem getvalp_nil (h : p.WF) : getvalp [] p = none := by
  rw [getvalp, Keyed.find_eq_none_iff]
  intro hmem
  obtain ⟨e, he, hk⟩ := List.mem_map.mp hmem
  exact h.ne_nil e he hk

/-- What was written under a key, and what should have been. -/
def valuesOf (key : Bytes) (l : List (Bytes × Bytes × Bytes)) : List (Bytes × Bytes) :=
  (l.filter fun e ↦ decide (e.1 = key)).map Prod.snd

theorem filter_putOf (f : Bytes × Bytes → Bytes) (key : Bytes) (l : List (Bytes × Bytes × Bytes)) :
    ((l.map fun e ↦ putOf (e.1, f e.2)).filter fun q ↦ decide (q.key = key))
      = ((valuesOf key l).map f).map fun v ↦ ⟨key, v, keyFlag key⟩ := by
  induction l with
  | nil => rfl
  | cons e l ih =>
    rw [valuesOf] at ih ⊢
    by_cases he : e.1 = key
    · rw [List.map_cons, List.filter_cons_of_pos (by simp [putOf, he]), ih,
        List.filter_cons_of_pos (by simpa using he), List.map_cons, List.map_cons, List.map_cons,
        putOf, he]
    · rw [List.map_cons, List.filter_cons_of_neg (by simp [putOf, he]), ih,
        List.filter_cons_of_neg (by simpa using he)]

theorem getvalp_putOf {key : Bytes} (hkey : key ≠ []) (f : Bytes × Bytes → Bytes)
    (l : List (Bytes × Bytes × Bytes)) (p : Proc) :
    getvalp key ((l.map fun e ↦ putOf (e.1, f e.2)).foldl Put.run p)
      = entryAfter key ((valuesOf key l).map f) (getvalp key p) := by
  rw [getvalp_foldl hkey, filter_putOf, List.foldl_map, entryAfter]

/-- **Two ways to write the same keys** leave the same store exactly if every key is settled. -/
theorem foldl_putOf_eq_iff (h : p.WF) (l : List (Bytes × Bytes × Bytes)) :
    (l.map fun e ↦ putOf (e.1, e.2.1)).foldl Put.run p
        = (l.map fun e ↦ putOf (e.1, e.2.2)).foldl Put.run p ↔
      ∀ key, key ≠ [] → Settled key (valuesOf key l) := by
  constructor
  · intro heq key hkey
    rw [← entryAfter_eq_iff (o := getvalp key p), ← getvalp_putOf hkey, ← getvalp_putOf hkey, heq]
  · intro hall
    have henv : ((l.map fun e ↦ putOf (e.1, e.2.1)).foldl Put.run p).env
        = ((l.map fun e ↦ putOf (e.1, e.2.2)).foldl Put.run p).env := by
      refine Keyed.eq_of_find Entry.key (h.puts _).nodup (map_key_foldl ?_ rfl) fun key ↦ ?_
      · rw [List.map_map, List.map_map]
        rfl
      · by_cases hkey : key = []
        · subst hkey
          exact (getvalp_nil (h.puts _)).trans (getvalp_nil (h.puts _)).symm
        · have hone := entryAfter_eq_iff (o := getvalp key p).mpr (hall key hkey)
          rw [← getvalp_putOf hkey, ← getvalp_putOf hkey] at hone
          exact hone
    have henviron : ((l.map fun e ↦ putOf (e.1, e.2.1)).foldl Put.run p).environ
        = ((l.map fun e ↦ putOf (e.1, e.2.2)).foldl Put.run p).environ := by
      funext n
      rw [environ_foldl, environ_foldl]
      by_cases hn : n = [] ∨ equals ∈ n
      · rw [if_pos hn, if_pos hn]
      · rw [if_neg hn, if_neg hn, filter_putOf, filter_putOf]
        simp only [List.getLast?_map, Option.map_map]
        cases hlast : (valuesOf n l).getLast? with
        | none => rfl
        | some last =>
          have heq := (hall n (fun h ↦ hn (.inl h)) last hlast).1
          simp only [Option.map_some, Function.comp_apply, heq]
    exact (Proc.mk.injEq ..).mpr ⟨henv, henviron⟩

/-! ## One value -/

/-- The first byte that is decoded from here on is a NUL. -/
def StartsNul : Bytes → Prop
  | [] => False
  | c :: mem => c = 0 ∨ c = percent ∧ hexByte (mem.headD 0) (mem.tail.headD 0) = 0

/-- A value that ends in a `%` and one digit is read together with what follows, if there is no NUL
in it and what follows does not begin with one. -/
def RunsOn (after : Bytes) : Bytes → Prop
  | [] => False
  | [_] => False
  | [c, a] => c = percent ∧ hexByte a 0 ≠ 0 ∧ ¬ StartsNul after
  | c :: a :: b :: s =>
    if c = percent then hexByte a b ≠ 0 ∧ RunsOn after s else RunsOn after (a :: b :: s)

theorem cString_cons {c : UInt8} (hc : c ≠ 0) (t : Bytes) : cString (c :: t) = c :: cString t := by
  rw [cString, List.takeWhile_cons_of_pos (by simpa using hc)]
  rfl

/-- What one round of the decoder writes for a byte that is no `%`. -/
def plainByte (c : UInt8) : UInt8 := if c = plus then blank else c

theorem plainByte_ne_zero {c : UInt8} (hc : c ≠ 0) : plainByte c ≠ 0 := by
  rw [plainByte]
  split
  · decide
  · exact hc

theorem htdecodeGo_plain {k : ℕ} {c : UInt8} {mem t : Bytes} (hc : c ≠ 0) (hp : c ≠ percent)
    (h : htdecodeGo k (c :: mem) = some t) :
    ∃ k' t', htdecodeGo k' mem = some t' ∧ t = plainByte c :: t' := by
  cases k with
  | zero => cases h
  | succ k =>
    rw [htdecodeGo, if_neg hc] at h
    split_ifs at h with hplus
    · obtain ⟨t', ht', rfl⟩ := Option.map_eq_some_iff.mp h
      exact ⟨k, t', ht', by rw [plainByte, if_pos hplus]⟩
    · obtain ⟨t', ht', rfl⟩ := Option.map_eq_some_iff.mp h
      exact ⟨k, t', ht', by rw [plainByte, if_neg hplus]⟩

theorem htdecodeGo_escape {k : ℕ} {mem t : Bytes} (h : htdecodeGo k (percent :: mem) = some t) :
    ∃ a b rest k' t', mem = a :: b :: rest ∧ htdecodeGo k' rest = some t' ∧
      t = hexByte a b :: t' := by
  cases k with
  | zero => cases h
  | succ k =>
    rw [htdecodeGo, if_neg (by decide), if_neg (by decide), if_pos rfl] at h
    rcases mem with _ | ⟨a, _ | ⟨b, rest⟩⟩
    · cases h
    · cases h
    · rw [if_neg (by simp)] at h
      obtain ⟨t', ht', rfl⟩ := Option.map_eq_some_iff.mp h
      exact ⟨a, b, rest, k, t', rfl, ht', rfl⟩

theorem htdecodeGo_nul {k : ℕ} {mem t : Bytes} (h : htdecodeGo k (0 :: mem) = some t) : t = [] := by
  cases k with
  | zero => cases h
  | succ k => exact (Option.some.inj h).symm

theorem cString_eq_nil_iff {k : ℕ} {mem t : Bytes} (h : htdecodeGo k mem = some t) :
    cString t = [] ↔ StartsNul mem := by
  rcases mem with _ | ⟨c, mem⟩
  · cases k <;> cases h
  rw [StartsNul]
  by_cases h0 : c = 0
  · subst h0
    rw [htdecodeGo_nul h]
    exact iff_of_true rfl (.inl rfl)
  by_cases hp : c = percent
  · subst hp
    obtain ⟨a, b, rest, k', t', rfl, -, rfl⟩ := htdecodeGo_escape h
    by_cases hab : hexByte a b = 0
    · rw [hab]
      exact iff_of_true rfl (.inr ⟨rfl, hab⟩)
    · rw [cString_cons hab]
      exact iff_of_false (List.cons_ne_nil _ _) fun h ↦ h.elim h0 fun h ↦ hab h.2
  · obtain ⟨k', t', -, rfl⟩ := htdecodeGo_plain h0 hp h
    rw [cString_cons (plainByte_ne_zero h0)]
    exact iff_of_false (List.cons_ne_nil _ _) fun h ↦ h.elim h0 fun h ↦ hp h.1

theorem cString_htdecodeGo_iff {s after : Bytes} (h0 : 0 ∉ s) {k : ℕ} {t : Bytes}
    (h : htdecodeGo k (s ++ 0 :: after) = some t) :
    cString t = cString (urlDecode s) ↔ ¬ RunsOn after s := by
  induction s using urlDecode.induct generalizing k t with
  | case1 =>
    rw [htdecodeGo_nul h]
    exact iff_of_true rfl fun h ↦ h
  | case2 c =>
    have hc : c ≠ 0 := fun hc ↦ h0 (hc ▸ List.mem_cons_self)
    refine iff_of_true ?_ fun h ↦ h
    by_cases hp : c = percent
    · subst hp
      obtain ⟨a, b, rest, k', t', hmem, -, rfl⟩ := htdecodeGo_escape h
      obtain ⟨rfl, -⟩ := List.cons.inj hmem
      rfl
    · obtain ⟨k', t', ht', rfl⟩ := htdecodeGo_plain hc hp h
      rw [htdecodeGo_nul ht', urlDecode, if_neg hp, plainByte]
  | case3 a =>
    obtain ⟨a', b, rest, k', t', hmem, ht', rfl⟩ := htdecodeGo_escape h
    obtain ⟨rfl, hmem'⟩ := List.cons.inj hmem
    obtain ⟨rfl, rfl⟩ := List.cons.inj hmem'
    rw [urlDecode, if_pos rfl, RunsOn]
    by_cases hab : hexByte a 0 = 0
    · rw [hab]
      exact iff_of_true rfl fun h ↦ h.2.1 rfl
    · rw [cString_cons hab, cString_cons hab, List.cons_inj_right,
        show cString [] = [] from rfl, cString_eq_nil_iff ht']
      simp [hab]
  | case4 c a hp ih =>
    rw [List.mem_cons, not_or] at h0
    obtain ⟨k', t', ht', rfl⟩ := htdecodeGo_plain (Ne.symm h0.1) hp h
    have hne := plainByte_ne_zero (Ne.symm h0.1)
    rw [urlDecode, if_neg hp, ← plainByte, cString_cons hne, cString_cons hne, List.cons_inj_right,
      ih h0.2 ht', RunsOn, RunsOn]
    simp [hp]
  | case5 a b s ih =>
    obtain ⟨a', b', rest, k', t', hmem, ht', rfl⟩ := htdecodeGo_escape h
    obtain ⟨rfl, hmem'⟩ := List.cons.inj hmem
    obtain ⟨rfl, rfl⟩ := List.cons.inj hmem'
    have hs : 0 ∉ s := fun h ↦ h0 (by simp [h])
    rw [urlDecode, if_pos rfl, RunsOn, if_pos rfl]
    by_cases hab : hexByte a b = 0
    · rw [hab]
      exact iff_of_true rfl fun h ↦ h.1 rfl
    · rw [cString_cons hab, cString_cons hab, List.cons_inj_right, ih hs ht']
      simp [hab]
  | case6 c a b s hp ih =>
    rw [List.mem_cons, not_or] at h0
    obtain ⟨k', t', ht', rfl⟩ := htdecodeGo_plain (Ne.symm h0.1) hp h
    have hne := plainByte_ne_zero (Ne.symm h0.1)
    rw [urlDecode, if_neg hp, ← plainByte, cString_cons hne, cString_cons hne, List.cons_inj_right,
      ih h0.2 ht', RunsOn, if_neg hp]

/-- **A value is read as it stands**, exactly if it does not run on. -/
theorem cString_copyOf_iff {s after copy : Bytes} (h0 : 0 ∉ s)
    (h : copyOf (s ++ 0 :: after) = some copy) :
    cString copy = cString (urlDecode s) ↔ ¬ RunsOn after s := by
  obtain ⟨t, ht, rfl⟩ := Option.map_eq_some_iff.mp h
  rw [cString_append_nul]
  exact cString_htdecodeGo_iff h0 (Option.filter_eq_some_iff.mp ht).1

/-! ## The comparison -/

/-- The arguments as they are read, with the values they should have. -/
def compared (args wanted : List Arg) : List (Bytes × Bytes × Bytes) :=
  args.zipWith (fun a b ↦ (a.1, a.2, b.2)) wanted

theorem compared_map {args wanted : List Arg}
    (h : args.map Prod.fst = wanted.map Prod.fst) :
    (compared args wanted).map (fun a ↦ (a.1, a.2.1)) = args ∧
      (compared args wanted).map (fun a ↦ (a.1, a.2.2)) = wanted := by
  induction args generalizing wanted with
  | nil =>
    obtain rfl := List.map_eq_nil_iff.mp h.symm
    exact ⟨rfl, rfl⟩
  | cons a args ih =>
    obtain ⟨b, wanted, rfl, hb, hrest⟩ := List.map_eq_cons_iff.mp h.symm
    obtain ⟨h1, h2⟩ := ih hrest.symm
    refine ⟨congrArg (a :: ·) h1, ?_⟩
    rw [compared, List.zipWith_cons_cons, List.map_cons, ← compared, h2]
    exact congrArg (· :: wanted) (Prod.ext hb.symm rfl)

/-- What each key was given, and what it should have been given. -/
def givenTo (p : Proc) (key : Bytes) (args wanted : List Arg) : List (Bytes × Bytes) :=
  valuesOf key (keyedArgs p [] (compared args wanted))

theorem getargs_eq_iff (hp : p.WF) {args wanted : List Arg}
    (h : args.map Prod.fst = wanted.map Prod.fst) :
    getargs w p args = getargs w p wanted ↔
      ∀ key, key ≠ [] → Settled key (givenTo p key args wanted) := by
  obtain ⟨h1, h2⟩ := compared_map h
  have hleft : getargs w p args = ((keyedArgs p [] (compared args wanted)).map fun e ↦
      putOf (e.1, e.2.1)).foldl Put.run p := by
    conv_lhs => rw [← h1, getargs_eq, keyedArgs_map p Prod.fst, List.map_map]
    rfl
  have hright : getargs w p wanted = ((keyedArgs p [] (compared args wanted)).map fun e ↦
      putOf (e.1, e.2.2)).foldl Put.run p := by
    conv_lhs => rw [← h2, getargs_eq, keyedArgs_map p Prod.snd, List.map_map]
    rfl
  rw [hleft, hright, foldl_putOf_eq_iff hp]
  rfl

theorem delFlag_eq {args wanted : List Arg} (h : args.map Prod.fst = wanted.map Prod.fst) :
    delFlag args = delFlag wanted := by
  have hany : ∀ l : List Arg,
      delFlag l = (l.map Prod.fst).any fun n ↦ (cstr "d_").isPrefixOf n := fun l ↦ by
    rw [List.any_map]
    rfl
  rw [hany, hany, h]

/-- **`ht_getarg` does what it should** exactly if every value can be decoded where it stands, and
every key is settled: whatever was read for the last two arguments that write it, its entry is the
same. -/
theorem htGetarg_spec_iff (w : World) (c : UInt8) {text : Bytes} (h0 : 0 ∉ text) (after : Bytes)
    {p : Proc} (hp : p.WF) :
    htGetarg w (some c) (text ++ 0 :: after) p = some (specStore w p text, specFlag text) ↔
      AllStay after (pieces text) [0] ∧
        ∀ args, copyArgs after (pieces text) [0] = some args →
          ∀ key, key ≠ [] → Settled key (givenTo p key args (wantedArgs text)) := by
  obtain ⟨hstore, hflag⟩ := specStore_eq (w := w) p text
  rw [htGetarg_eq w (some c) h0, if_neg (by simp), hstore, hflag, ← copyArgs_ne_none_iff]
  cases hargs : copyArgs after (pieces text) [0] with
  | none => simp
  | some args =>
    have hnames : args.map Prod.fst = (wantedArgs text).map Prod.fst := by
      rw [copyArgs_names hargs, wantedArgs, List.map_map]
      rfl
    rw [Option.map_some, Option.some_inj, Prod.mk.injEq, delFlag_eq hnames, and_iff_left rfl,
      getargs_eq_iff hp hnames]
    simp

/-- A request as browsers send them. -/
theorem login_as_specified :
    htGetarg World.bare (some 0) (cstr "i_login=admin&op=a%26b" ++ 0 :: []) ⟨[], fun _ ↦ none⟩
      = some (specStore World.bare ⟨[], fun _ ↦ none⟩ (cstr "i_login=admin&op=a%26b"),
          specFlag (cstr "i_login=admin&op=a%26b")) := by
  have hargs : copyArgs [] (pieces (cstr "i_login=admin&op=a%26b")) [0]
      = some (wantedArgs (cstr "i_login=admin&op=a%26b")) := by
    decide +kernel
  refine (htGetarg_spec_iff World.bare 0 (by decide) [] (wf_nil _)).mpr
    ⟨copyArgs_ne_none_iff.mp (by rw [hargs]; exact Option.some_ne_none _), fun args h ↦ ?_⟩
  rw [hargs, Option.some_inj] at h
  subst h
  exact (getargs_eq_iff (w := World.bare) (wf_nil _) rfl).mp rfl

/-- An argument without a value has the one before it. -/
theorem bare_argument_inherits :
    (htGetarg World.bare (some 0) (cstr "op=1&subop" ++ [0]) ⟨[], fun _ ↦ none⟩).map
        (fun r ↦ stored (cstr "subop") r.1) = some (some (cstr "1")) ∧
      stored (cstr "subop") (specStore World.bare ⟨[], fun _ ↦ none⟩ (cstr "op=1&subop"))
        = some [] := by
  decide +kernel

end Setup
