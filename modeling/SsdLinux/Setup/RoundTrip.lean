import SsdLinux.Setup.Valtab

/-!
# Saving the settings and loading them again

`write_conf2` prints `key="value"` with the value as it is; `read_conf_sub` reads the value as
quoted text, with escapes and references, from a buffer of 1024 bytes and into one of 256.  So a
value survives if the text between the quotes means itself.

`conf_roundTrip_iff` says exactly when a store survives: when every value that is printed is a
`ConfVal`, that is, free of backslashes, dollars, double quotes and newlines and shorter than 256
bytes.  No weaker condition will do, because

* whatever is read has no newline and at most 255 bytes (`readConfSub_values`), wherever it comes
  from;
* reading loses a backslash for each one it sees, so a value that contains one comes back with
  fewer (`qatom_special`), and without a backslash neither a quote nor a dollar can come back.

The checks of `SsdLinux.Setup.Valtab` let such values through: `is_unixpath` accepts a double quote,
and many settings have no check at all.
-/

set_option autoImplicit false

namespace Setup

open CLib

variable {w : World} {p : Proc}

/-! ## What a token can be -/

theorem not_mem_clockVal {tm : Tm} {key v : Bytes} (h : clockVal tm key = some v) {c : UInt8}
    (hc : isdigit c = false ∧ c ≠ blank) : c ∉ v := by
  intro hm
  rcases clockVal_chars h c hm with hd | hd
  · exact absurd hd (by simp [hc.1])
  · exact hc.2 hd

/-- A byte that is in no value of the store is in no text a reference stands for. -/
theorem not_mem_val {c : UInt8} (hc : isdigit c = false ∧ c ≠ blank)
    (hp : ∀ e ∈ p.env, c ∉ e.val) (s : Bytes) : c ∉ (val w p s).1 := by
  rcases val_fst (w := w) (p := p) s with h | ⟨k, hk⟩
  · simp [h]
  · rcases getval_cases hk with h | ⟨e, he, -, h⟩
    · exact not_mem_clockVal h hc
    · exact h ▸ hp e he

theorem not_mem_dropLast_of_suffix {c : UInt8} {s t : Bytes} (hs : s <:+ t)
    (h : c ∉ t.dropLast) : c ∉ s.dropLast := by
  obtain ⟨pre, rfl⟩ := hs
  rcases List.eq_nil_or_concat s with rfl | ⟨s, d, rfl⟩
  · simp
  · simp only [List.concat_eq_append, ← List.append_assoc, List.dropLast_concat,
      List.mem_append, not_or] at h ⊢
    exact h.2

theorem not_mem_dropLast_cons {c d : UInt8} {s : Bytes} (hs : s ≠ []) (h : c ∉ (d :: s).dropLast) :
    c ≠ d ∧ c ∉ s.dropLast := by
  rw [List.dropLast_cons_of_ne_nil hs, List.mem_cons, not_or] at h
  exact h

/-- Quoted text that is closed has no newline, if only the last byte of the piece can be one. -/
theorem qatom_nl (hp : ∀ e ∈ p.env, nl ∉ e.val) {s t r : Bytes} (h : qatom w p s = some (t, r))
    (hr : r ≠ []) (hs : nl ∉ s.dropLast) : nl ∉ t := by
  have hne : ∀ {s t r : Bytes}, qatom w p s = some (t, r) → r ≠ [] → s ≠ [] := by
    rintro s t r h hr rfl
    rw [qatom_nil] at h
    cases h
    exact hr rfl
  refine qatom_induct (P := fun s t r ↦ r ≠ [] → nl ∉ s.dropLast → nl ∉ t) ?_ ?_ ?_ ?_ ?_
    s t r h hr hs
  · exact fun hr _ ↦ absurd rfl hr
  · intro d s t r hq ih hr hs
    have hs0 := hne hq hr
    have h1 := not_mem_dropLast_cons (List.cons_ne_nil d s) hs
    have h2 := not_mem_dropLast_cons hs0 h1.2
    exact List.not_mem_cons_of_ne_of_not_mem h2.1 (ih hr h2.2)
  · intro s t r hq ih hr hs
    obtain ⟨pre, hpre, -⟩ := val_suffix (w := w) (p := p) s
    have hs' : nl ∉ (val w p s).2.dropLast :=
      not_mem_dropLast_of_suffix ⟨dollar :: pre, congrArg (dollar :: ·) hpre.symm⟩ hs
    rw [List.mem_append, not_or]
    exact ⟨not_mem_val (by decide) hp s, ih hr hs'⟩
  · exact fun _ _ _ ↦ List.not_mem_nil
  · intro c s t r _ _ _ hq ih hr hs
    have h1 := not_mem_dropLast_cons (hne hq hr) hs
    exact List.not_mem_cons_of_ne_of_not_mem h1.1 (ih hr h1.2)

/-- A token has no newline. -/
theorem token_nl (hp : ∀ e ∈ p.env, nl ∉ e.val) {s t r : Bytes} (h : token w p s = some (t, r))
    (hs : nl ∉ s.dropLast) : nl ∉ t := by
  rcases token_cases h with ⟨q, q', hq, ht, -⟩ | h
  · exact qatom_nl hp ht (List.cons_ne_nil _ _)
      (not_mem_dropLast_of_suffix ((List.suffix_cons _ _).trans hq) hs)
  · rw [show t = (tokenAtom s).1 by rw [← h]]
    exact not_mem_of_class (tokenAtom_isAtom s) (by decide)

/-- What an assignment of the file can assign. -/
theorem readConfLine_value (hp : ∀ e ∈ p.env, nl ∉ e.val) {buf k v : Bytes}
    (hs : nl ∉ buf.dropLast) (h : readConfLine w p buf = some (some (k, v))) :
    nl ∉ v ∧ v.length < tokenSize := by
  rw [readConfLine] at h
  split at h
  · simp at h
  · obtain ⟨⟨k', r⟩, hk, h⟩ := Option.bind_eq_some_iff.mp h
    cases r with
    | nil => simp at h
    | cons c s =>
      simp only at h
      split at h
      · obtain ⟨⟨v', r'⟩, hv, he⟩ := Option.map_eq_some_iff.mp h
        obtain ⟨⟨k'', r''⟩, hk', hke⟩ := Option.map_eq_some_iff.mp hk
        obtain ⟨⟨v'', r₂⟩, hv', hve⟩ := Option.map_eq_some_iff.mp hv
        cases hke
        cases hve
        cases he
        have hsuf : s <:+ buf := (List.suffix_cons c s).trans (token_suffix hk')
        have hnl := token_nl hp hv' (not_mem_dropLast_of_suffix hsuf hs)
        exact ⟨fun hm ↦ hnl (List.mem_of_mem_take hm), by
          have hsize : tokenSize = 256 := rfl
          rw [List.length_take]
          omega⟩
      · simp at h

/-- An induction over the assignments of a file, for the runs that have a result. -/
theorem readConfSub_induct {P : Proc → Prop} {sw : BitVec 32} {file : Bytes} {p p' : Proc}
    (step : ∀ p buf k v, P p → nl ∉ buf.dropLast → readConfLine w p buf = some (some (k, v)) →
      P (putval k v sw p))
    (h : readConfSub w sw file p = some p') (hp : P p) : P p' := by
  have key : ∀ (bufs : List Bytes) (p : Proc), (∀ buf ∈ bufs, nl ∉ buf.dropLast) → P p →
      bufs.foldlM (readConfStep w sw) p = some p' → P p' := by
    intro bufs
    induction bufs with
    | nil =>
      intro p _ hp h
      cases h
      exact hp
    | cons buf bufs ih =>
      intro p hbufs hp h
      rw [List.foldlM_cons] at h
      obtain ⟨p1, h1, h2⟩ := Option.bind_eq_some_iff.mp h
      refine ih p1 (fun b hb ↦ hbufs b (List.mem_cons_of_mem _ hb)) ?_ h2
      obtain ⟨o, ho, rfl⟩ := Option.map_eq_some_iff.mp h1
      cases o with
      | none => exact hp
      | some kv => exact step p buf kv.1 kv.2 hp (hbufs buf List.mem_cons_self) ho
  exact key _ p (fun buf hb ↦ nl_not_mem_dropLast hb) hp h

/-- **What is read from a file has no newline and fits its buffer**, whatever the file. -/
theorem readConfSub_values {sw : BitVec 32} {file : Bytes} {p p' : Proc}
    (h : readConfSub w sw file p = some p')
    (hp : ∀ e ∈ p.env, nl ∉ e.val ∧ e.val.length < tokenSize) :
    ∀ e ∈ p'.env, nl ∉ e.val ∧ e.val.length < tokenSize := by
  refine readConfSub_induct (P := fun p ↦ ∀ e ∈ p.env, nl ∉ e.val ∧ e.val.length < tokenSize)
    (fun p buf k v hp hbuf hline e he ↦ ?_) h hp
  rcases mem_putval he with he | ⟨o, rfl⟩
  · exact hp e he
  · rw [val_putEntry]
    exact readConfLine_value (fun e he ↦ (hp e he).1) hbuf hline

/-- A write does not mark its entry, unless it is told to. -/
theorem flag_putEntry_null {sw : BitVec 32} (hsw : sw &&& RC_bNULL = 0) (key val : Bytes)
    (o : Option Entry) : (putEntry key val sw o).flag &&& RC_bNULL = 0 := by
  rw [flag_putEntry, newFlag]
  split
  · rw [BitVec.and_comm, BitVec.and_or_distrib_left, BitVec.and_comm, hsw]
    split <;> decide
  · exact hsw

/-- Reading a file marks nothing as not to be written. -/
theorem readConfSub_flags {sw : BitVec 32} (hsw : sw &&& RC_bNULL = 0) {file : Bytes}
    {p p' : Proc} (h : readConfSub w sw file p = some p')
    (hp : ∀ e ∈ p.env, e.flag &&& RC_bNULL = 0) : ∀ e ∈ p'.env, e.flag &&& RC_bNULL = 0 := by
  refine readConfSub_induct (P := fun p ↦ ∀ e ∈ p.env, e.flag &&& RC_bNULL = 0)
    (fun p buf k v hp hbuf hline e he ↦ ?_) h hp
  rcases mem_putval he with he | ⟨o, rfl⟩
  · exact hp e he
  · exact flag_putEntry_null hsw k v o

/-! ## What reading loses -/

/-- The bytes that do not stand for themselves in quoted text. -/
def quotedSpecials : Bytes := [backslash, dollar, dquote]

/-- **Reading quoted text loses its backslashes.**  The text that was consumed either has no
backslash, and then what was read has nothing special in it, or what was read has fewer. -/
theorem qatom_special (hp : ∀ e ∈ p.env, ∀ c ∈ quotedSpecials, c ∉ e.val) {s t r : Bytes}
    (h : qatom w p s = some (t, r)) :
    ∃ pre, s = pre ++ r ∧ (backslash ∉ pre → ∀ c ∈ quotedSpecials, c ∉ t) ∧
      (backslash ∈ pre → t.count backslash < pre.count backslash) := by
  refine qatom_induct (P := fun s t r ↦ ∃ pre, s = pre ++ r ∧
    (backslash ∉ pre → ∀ c ∈ quotedSpecials, c ∉ t) ∧
    (backslash ∈ pre → t.count backslash < pre.count backslash)) ?_ ?_ ?_ ?_ ?_ s t r h
  · exact ⟨[], rfl, by simp, by simp⟩
  · rintro d s t r - ⟨pre, rfl, hplain, hless⟩
    refine ⟨backslash :: d :: pre, rfl, by simp, fun _ ↦ ?_⟩
    have hle : t.count backslash ≤ pre.count backslash := by
      by_cases hb : backslash ∈ pre
      · exact (hless hb).le
      · rw [List.count_eq_zero_of_not_mem (hplain hb backslash (by decide))]
        exact Nat.zero_le _
    rw [List.count_cons_self, List.count_cons, List.count_cons]
    omega
  · rintro s t r - ⟨pre, hs, hplain, hless⟩
    obtain ⟨name, hname, hchars⟩ := val_suffix (w := w) (p := p) s
    have hval : ∀ c ∈ quotedSpecials, c ∉ (val w p s).1 := fun c hc ↦ by
      refine not_mem_val ?_ (fun e he ↦ hp e he c hc) s
      revert c
      decide
    have hb : backslash ∉ dollar :: name := by
      refine List.not_mem_cons_of_ne_of_not_mem (by decide) fun hm ↦ ?_
      rcases hchars _ hm with h | h | h <;> exact absurd h (by decide)
    have hcount : (dollar :: name).count backslash = 0 := List.count_eq_zero_of_not_mem hb
    refine ⟨dollar :: name ++ pre, by rw [hname, hs]; simp, fun hn c hc ↦ ?_, fun hm ↦ ?_⟩
    · rw [List.mem_append, not_or] at hn ⊢
      exact ⟨hval c hc, hplain hn.2 c hc⟩
    · have hpre := hless ((List.mem_append.mp hm).resolve_left hb)
      have ht := List.count_eq_zero_of_not_mem (hval backslash (by decide))
      rw [List.count_append, List.count_append]
      omega
  · exact fun s ↦ ⟨[], rfl, by simp, by simp⟩
  · rintro c s t r h1 h2 h3 - ⟨pre, rfl, hplain, hless⟩
    refine ⟨c :: pre, rfl, fun hn d hd ↦ ?_, fun hm ↦ ?_⟩
    · rw [List.mem_cons, not_or] at hn ⊢
      refine ⟨?_, hplain hn.2 d hd⟩
      simp only [quotedSpecials, List.mem_cons, List.not_mem_nil, or_false] at hd
      rcases hd with rfl | rfl | rfl
      exacts [h1.symm, h2.symm, h3.symm]
    · have hpre := hless ((List.mem_cons.mp hm).resolve_left h1.symm)
      rw [List.count_cons_of_ne h1, List.count_cons_of_ne h1]
      exact hpre

/-- **A value that is read back as it is has nothing special in it.** -/
theorem plain_of_readVal (hp : ∀ e ∈ p.env, ∀ c ∈ quotedSpecials, c ∉ e.val) {v : Bytes}
    (h : readVal w p v = some v) : ∀ c ∈ quotedSpecials, c ∉ v := by
  rw [readVal, tToken, List.cons_append, token_quoted] at h
  simp only [Option.map_map, Option.map_eq_some_iff, Function.comp_def] at h
  obtain ⟨⟨t, r⟩, hq, ht⟩ := h
  cases r with
  | nil =>
    simp only [List.take_nil] at ht
    simp [← ht]
  | cons d r =>
    obtain rfl : d = dquote := (qatom_suffix hq).2 d rfl
    simp only [if_pos] at ht
    obtain ⟨pre, hpre, hplain, hless⟩ := qatom_special hp hq
    have hsub : pre <+: v := by
      have hlen : pre.length ≤ v.length := by
        by_contra hlt
        obtain ⟨a, ha⟩ := List.append_eq_append_iff.mp hpre |>.resolve_right
          (by rintro ⟨b, hb, -⟩; rw [hb, List.length_append] at hlt; omega)
        have hlen2 := congrArg List.length ha.2
        simp only [List.length_cons, List.length_append, List.length_nil] at hlen2
        rw [ha.1, List.length_append] at hlt
        have ha1 : a.length = 1 ∧ r = [] := ⟨by omega, List.eq_nil_of_length_eq_zero (by omega)⟩
        obtain ⟨b, rfl⟩ := List.length_eq_one_iff.mp ha1.1
        rw [ha1.2] at ha
        simp [dquote, nl] at ha
      exact List.prefix_of_prefix_length_le ⟨_, hpre.symm⟩ (List.prefix_append _ _) hlen
    have hv : v.Sublist t := ht ▸ List.take_sublist _ _
    have hb : backslash ∉ pre := fun hb ↦ by
      have h1 := hless hb
      have h2 := hv.count_le backslash
      have h3 := hsub.sublist.count_le backslash
      omega
    exact fun c hc hm ↦ hplain hb c hc (hv.subset hm)

/-! ## Fresh keys -/

theorem env_putval_fresh {key : Bytes} (h : key ≠ []) (hf : key ∉ p.env.map Entry.key)
    (val : Bytes) (sw : BitVec 32) :
    (putval key val sw p).env = p.env ++ [putEntry key val sw none] := by
  rw [env_putval h, Keyed.upsert_of_not_mem hf]

/-- The keys and values of a store. -/
def contents (p : Proc) : List (Bytes × Bytes) := p.env.map fun e ↦ (e.key, e.val)

theorem map_fst_contents (p : Proc) : (contents p).map Prod.fst = p.env.map Entry.key := by
  simp [contents, Function.comp_def]

theorem contents_putval_fresh {key : Bytes} (h : key ≠ [])
    (hf : key ∉ (contents p).map Prod.fst) (val : Bytes) (sw : BitVec 32) :
    contents (putval key val sw p) = contents p ++ [(key, val)] := by
  rw [map_fst_contents] at hf
  rw [contents, env_putval_fresh h hf, List.map_append, contents]
  simp

/-- One line of a file after another. -/
def readVals (w : World) (sw : BitVec 32) (kvs : List (Bytes × Bytes)) (p : Proc) : Option Proc :=
  kvs.foldlM (fun p kv ↦ (readVal w p kv.2).map fun v ↦ putval kv.1 v sw p) p

theorem readVals_cons {sw : BitVec 32} {kv : Bytes × Bytes} {kvs : List (Bytes × Bytes)}
    {p' : Proc} (h : readVals w sw (kv :: kvs) p = some p') :
    ∃ v, readVal w p kv.2 = some v ∧ readVals w sw kvs (putval kv.1 v sw p) = some p' := by
  rw [readVals, List.foldlM_cons] at h
  obtain ⟨p1, h1, h2⟩ := Option.bind_eq_some_iff.mp h
  obtain ⟨v, hv, rfl⟩ := Option.map_eq_some_iff.mp h1
  exact ⟨v, hv, h2⟩

/-- Keys that are all new, to be filed one after the other. -/
structure Fresh (p : Proc) (kvs : List (Bytes × Bytes)) : Prop where
  ne_nil : ∀ kv ∈ kvs, kv.1 ≠ []
  nodup : (contents p ++ kvs).map Prod.fst |>.Nodup

theorem Fresh.not_mem {kv : Bytes × Bytes} {kvs : List (Bytes × Bytes)}
    (h : Fresh p (kv :: kvs)) : kv.1 ∉ (contents p).map Prod.fst := by
  have := h.nodup
  rw [List.map_append, List.nodup_append] at this
  exact fun hm ↦ this.2.2 _ hm _ (by simp) rfl

theorem Fresh.putval {kv : Bytes × Bytes} {kvs : List (Bytes × Bytes)}
    (h : Fresh p (kv :: kvs)) (v : Bytes) (sw : BitVec 32) :
    Fresh (Setup.putval kv.1 v sw p) kvs := by
  refine ⟨fun kv hkv ↦ h.ne_nil kv (List.mem_cons_of_mem _ hkv), ?_⟩
  rw [contents_putval_fresh (h.ne_nil kv List.mem_cons_self) h.not_mem]
  simpa using h.nodup

/-- Reading new keys adds entries at the end. -/
theorem readVals_fresh {sw : BitVec 32} {kvs : List (Bytes × Bytes)} {p' : Proc}
    (hf : Fresh p kvs) (h : readVals w sw kvs p = some p') :
    ∃ new, contents p' = contents p ++ new ∧ new.map Prod.fst = kvs.map Prod.fst := by
  induction kvs generalizing p with
  | nil =>
    cases h
    exact ⟨[], by simp⟩
  | cons kv kvs ih =>
    obtain ⟨v, -, h⟩ := readVals_cons h
    obtain ⟨new, hnew, hkeys⟩ := ih (hf.putval v sw) h
    rw [contents_putval_fresh (hf.ne_nil kv List.mem_cons_self) hf.not_mem] at hnew
    exact ⟨(kv.1, v) :: new, by simpa using hnew, by simp [hkeys]⟩

/-- **If the lines are read back as they are, no value has anything special in it.** -/
theorem plain_of_readVals {sw : BitVec 32} {kvs : List (Bytes × Bytes)} {p' : Proc}
    (hf : Fresh p kvs) (hp : ∀ e ∈ p.env, ∀ c ∈ quotedSpecials, c ∉ e.val)
    (h : readVals w sw kvs p = some p') (hback : contents p' = contents p ++ kvs) :
    ∀ kv ∈ kvs, ∀ c ∈ quotedSpecials, c ∉ kv.2 := by
  induction kvs generalizing p with
  | nil => simp
  | cons kv kvs ih =>
    obtain ⟨v, hv, h⟩ := readVals_cons h
    have hk := hf.ne_nil kv List.mem_cons_self
    have hcons := contents_putval_fresh hk hf.not_mem v sw
    obtain ⟨new, hnew, -⟩ := readVals_fresh (hf.putval v sw) h
    -- the entry filed for this line is the one that is found at its place in the end
    have hkv : (kv.1, v) = kv := by
      rw [hback, hcons, List.append_assoc] at hnew
      exact (List.cons_eq_cons.mp (List.append_cancel_left hnew)).1.symm
    obtain rfl : v = kv.2 := congrArg Prod.snd hkv
    have hplain := plain_of_readVal hp hv
    intro kv' hkv'
    rcases List.mem_cons.mp hkv' with rfl | hkv'
    · exact hplain
    · refine ih (hf.putval _ sw) ?_ h ?_ kv' hkv'
      · rw [env_putval_fresh hk (map_fst_contents p ▸ hf.not_mem)]
        intro e he
        rcases List.mem_append.mp he with he | he
        · exact hp e he
        · rw [List.mem_singleton.mp he, val_putEntry]
          exact hplain
      · rw [hback, hcons, List.append_assoc]
        rfl

/-- Plain values are filed under their new keys. -/
theorem contents_putsOf {sw : BitVec 32} {kvs : List (Bytes × Bytes)} (hf : Fresh p kvs) :
    contents ((putsOf sw kvs).foldl Put.run p) = contents p ++ kvs := by
  induction kvs generalizing p with
  | nil => simp [putsOf]
  | cons kv kvs ih =>
    have := ih (hf.putval kv.2 sw)
    rw [contents_putval_fresh (hf.ne_nil kv List.mem_cons_self) hf.not_mem,
      List.append_assoc] at this
    exact this

/-! ## The round trip -/

/-- `write_conf2(file, 0)` and then `read_conf_sub` into an empty store gives back the persistable
entries: the same keys in the same order, each with its value. -/
def RoundTrips (w : World) (sw : BitVec 32) (env : List Entry) (environ : Bytes → Option Bytes) :
    Prop :=
  ∃ p, readConfSub w sw (writeConf env) ⟨[], environ⟩ = some p ∧
    persistedVals p.env = persistedVals env

theorem ne_nil_of_persistable {e : Entry} (h : e.persistable = true) : e.key ≠ [] := by
  intro he
  rw [Entry.persistable, he, show (cstr "x_").isPrefixOf [] = false by decide] at h
  simp at h

/-- Where every key is one that is printed and nothing is marked, everything is printed. -/
theorem persistedVals_eq_contents {env : List Entry} (hflag : ∀ e ∈ p.env, e.flag &&& RC_bNULL = 0)
    (hkeys : (contents p).map Prod.fst = (persistedVals env).map Prod.fst) :
    persistedVals p.env = contents p := by
  have hall : ∀ e ∈ p.env, e.persistable = true := fun e he ↦ by
    have hk : e.key ∈ (persistedVals env).map Prod.fst :=
      hkeys ▸ map_fst_contents p ▸ List.mem_map_of_mem he
    simp only [persistedVals, List.map_map, List.mem_map, Function.comp_apply] at hk
    obtain ⟨e', he', heq⟩ := hk
    have h := (List.mem_filter.mp he').2
    simp only [Entry.persistable, Bool.and_eq_true, heq] at h ⊢
    exact ⟨⟨h.1.1, beq_iff_eq.mpr (hflag e he)⟩, h.2⟩
  rw [persistedVals, persisted, List.filter_eq_self.mpr hall]
  rfl

/-- **A store survives being written and read exactly if every value that is written is read as it
stands.** -/
theorem conf_roundTrip_iff {sw : BitVec 32} (hsw : sw &&& RC_bNULL = 0) {env : List Entry}
    {environ : Bytes → Option Bytes}
    (hatom : ∀ e ∈ persisted env, ∀ c ∈ e.key, isAtom c = true)
    (hlen : ∀ e ∈ persisted env, e.key.length < tokenSize)
    (hdist : ((persisted env).map Entry.key).Nodup) :
    RoundTrips w sw env environ ↔ ∀ e ∈ persisted env, ConfVal e.val := by
  have hne : ∀ e ∈ persisted env, e.key ≠ [] := fun e he ↦
    ne_nil_of_persistable (List.mem_filter.mp he).2
  have hkey : ∀ e ∈ persisted env, ConfKey e.key := fun e he ↦
    ⟨hne e he, hatom e he, hlen e he⟩
  have hfresh : Fresh ⟨[], environ⟩ (persistedVals env) := by
    refine ⟨fun kv hkv ↦ ?_, ?_⟩
    · obtain ⟨e, he, rfl⟩ := List.mem_map.mp hkv
      exact hne e he
    · simpa [contents, persistedVals, Function.comp_def] using hdist
  constructor
  · rintro ⟨p, hread, hback⟩
    have hfit : ∀ e ∈ persisted env, nl ∉ e.val ∧ e.val.length < tokenSize := fun e he ↦ by
      have hmem : (e.key, e.val) ∈ persistedVals p.env := hback ▸ List.mem_map_of_mem he
      obtain ⟨e', he', heq⟩ := List.mem_map.mp hmem
      rw [← (Prod.mk.inj heq).2]
      exact readConfSub_values hread (by simp) e' (List.mem_filter.mp he').1
    have hflag := readConfSub_flags hsw hread (by simp)
    rw [readConfSub_confText (confText_writeConf hkey fun e he ↦
      ⟨(hfit e he).1, length_confLine_lt (hkey e he) (hfit e he).2⟩)] at hread
    obtain ⟨new, hnew, hkeys⟩ := readVals_fresh hfresh hread
    rw [show contents ⟨[], environ⟩ = [] from rfl, List.nil_append] at hnew
    rw [persistedVals_eq_contents hflag (hnew ▸ hkeys)] at hback
    have hplain := plain_of_readVals hfresh (by simp) hread hback
    intro e he
    have h := hplain (e.key, e.val) (List.mem_map_of_mem he)
    exact ⟨h _ (by decide), h _ (by decide), h _ (by decide), (hfit e he).1, (hfit e he).2⟩
  · intro hval
    have htext := confText_writeConf hkey fun e he ↦
      ⟨(hval e he).nl, length_confLine_lt (hkey e he) (hval e he).length_lt⟩
    have hread : readConfSub w sw (writeConf env) ⟨[], environ⟩ = _ :=
      readConfSub_eq_foldl htext (fun kv hkv ↦ by
        obtain ⟨e, he, rfl⟩ := List.mem_map.mp hkv
        exact hval e he) _
    have hcont : contents ((putsOf sw (persistedVals env)).foldl Put.run ⟨[], environ⟩) = _ :=
      contents_putsOf hfresh
    have hkeys := congrArg (List.map Prod.fst) hcont
    exact ⟨_, hread, (persistedVals_eq_contents (readConfSub_flags hsw hread (by simp)) hkeys).trans
      hcont⟩

/-- Two settings of a machine. -/
def hostEnv : List Entry :=
  [⟨cstr "x_hostname", cstr "blocks", 0⟩, ⟨cstr "x_domainname", cstr "example.jp", 0⟩]

theorem hostEnv_roundTrip :
    RoundTrips World.bare 0 hostEnv (fun _ ↦ none) ↔ ∀ e ∈ persisted hostEnv, ConfVal e.val :=
  conf_roundTrip_iff (by decide) (by decide) (by decide) (by decide)

/-- A directory with a double quote in its name. -/
def quotedDirEnv : List Entry := [⟨cstr "x_httpd_dir", cstr "/ho\"me", 0⟩]

/-- `is_unixpath` accepts the double quote, and the value comes back cut at it. -/
theorem quotedDirEnv_not_roundTrip :
    (∀ e ∈ persisted quotedDirEnv, ∀ c ∈ e.key, isAtom c = true) ∧
    (∀ e ∈ persisted quotedDirEnv, e.key.length < tokenSize) ∧
    ((persisted quotedDirEnv).map Entry.key).Nodup ∧
    (∀ e ∈ persisted quotedDirEnv, Accepts World.bare ⟨quotedDirEnv, fun _ ↦ none⟩ e.key) ∧
    ¬ RoundTrips World.bare 0 quotedDirEnv (fun _ ↦ none) := by
  refine ⟨by decide, by decide, by decide, by decide +kernel, ?_⟩
  rintro ⟨p, hread, hback⟩
  have hval : (readConfSub World.bare 0 (writeConf quotedDirEnv) ⟨[], fun _ ↦ none⟩).map
      (fun p ↦ persistedVals p.env) = some [(cstr "x_httpd_dir", cstr "/ho")] := by decide +kernel
  rw [hread, Option.map_some, hback] at hval
  exact absurd hval (by decide)

end Setup
