import SsdLinux.Setup.Pending

/-!
# From one request to the next

A request leaves nothing behind but the files, so what the settings are over a whole history is
decided by what goes through `write_conf` and `read_conf`.  Seen from far away, the files are three
layers of settings (`Layers`): the defaults, what is saved, and what is pending.  A request reads
the topmost value of each key; it may then replace the pending layer as a whole, or save it, or put
the defaults back.

The files are such layers as far as they are *tidy*: every line is an entry of its own, and the
values of the keys one is interested in come back as they are.  These keys are a parameter, the
predicate `K`; about other values nothing is asked but that they stay on their line.

`Tidy.main` is the simulation: a request that leaves tidy files takes the layers one of the steps
above.  `settings_of_reaches` is the induction over a history.
-/

set_option autoImplicit false

namespace Setup

open CLib

variable {b : Build} {w : World} {r : Request} {f : Files} {p p' : Proc} {args : List Arg}
  {v : Visit} {res : Result} {o : Outcome} {K : Bytes → Prop} {k : Bytes}

/-! ## Layers of settings -/

abbrev KeyVals := List (Bytes × Bytes)

/-- The value filed under a key. -/
def lookup (k : Bytes) (kvs : KeyVals) : Option Bytes := (Keyed.find Prod.fst k kvs).map Prod.snd

/-- The three layers. -/
structure Layers where
  dflt : KeyVals
  conf : KeyVals
  tmp : Option KeyVals

namespace Layers

/-- What is saved, over the defaults. -/
def base (L : Layers) (k : Bytes) : Option Bytes := (lookup k L.conf).or (lookup k L.dflt)

/-- The settings. -/
def view (L : Layers) (k : Bytes) : Option Bytes := (lookup k (L.tmp.getD [])).or (L.base k)

/-- The pending layer is replaced. -/
def write (L : Layers) (T : KeyVals) : Layers := { L with tmp := some T }

/-- The pending layer is saved, if there is one. -/
def save (L : Layers) : Layers :=
  match L.tmp with
  | some T => ⟨L.dflt, T, none⟩
  | none => L

/-- The defaults are put back. -/
def reset (L : Layers) : Layers := { L with conf := L.dflt }

/-- The pending layer, if there is one, has every key of the layers under it. -/
def Covers (K : Bytes → Prop) (L : Layers) : Prop :=
  ∀ T ∈ L.tmp, ∀ k, K k → L.base k ≠ none → lookup k T ≠ none

variable {L : Layers}

theorem view_of_tmp {T : KeyVals} (h : L.tmp = some T) (hc : L.Covers K) (hk : K k) :
    L.view k = lookup k T := by
  rw [view, h, Option.getD_some]
  cases hT : lookup k T with
  | some u => rfl
  | none =>
    rw [Option.none_or]
    by_contra hne
    exact hc T h k hk hne hT

theorem view_of_no_tmp (h : L.tmp = none) : L.view k = L.base k := by
  rw [view, h]
  rfl

/-- **Saving changes no setting.** -/
theorem view_save (hc : L.Covers K) (hk : K k) : L.save.view k = L.view k := by
  cases h : L.tmp with
  | none => rw [save, h]
  | some T =>
    rw [view_of_tmp h hc hk, save, h, view_of_no_tmp rfl, base]
    cases hT : lookup k T with
    | some u => rfl
    | none =>
      rw [Option.none_or]
      by_contra hne
      refine hc T h k hk ?_ hT
      rw [base]
      exact fun hbase ↦ hne (Option.or_eq_none_iff.mp hbase).2

theorem covers_save : L.save.Covers K := by
  cases h : L.tmp with
  | none =>
    rw [save, h]
    intro T hT
    rw [h] at hT
    cases hT
  | some T =>
    rw [save, h]
    intro T hT
    cases hT

@[simp] theorem base_reset : L.reset.base k = lookup k L.dflt := by simp [base, reset]

theorem covers_reset (hc : L.Covers K) : L.reset.Covers K := by
  intro T hT k hk hne
  rw [base_reset] at hne
  exact hc T hT k hk fun hbase ↦ hne (Option.or_eq_none_iff.mp hbase).2

/-- **Putting the defaults back changes nothing while something is pending**; otherwise the settings
are the defaults. -/
theorem view_reset (hc : L.Covers K) :
    (∀ k, K k → L.reset.view k = L.view k) ∨ ∀ k, L.reset.view k = lookup k L.dflt := by
  cases h : L.tmp with
  | some T =>
    refine .inl fun k hk ↦ ?_
    rw [view_of_tmp h hc hk, view_of_tmp (show L.reset.tmp = some T from h) (covers_reset hc) hk]
  | none =>
    refine .inr fun k ↦ ?_
    rw [view_of_no_tmp (show L.reset.tmp = none from h), base_reset]

end Layers

/-! ## Files that are layers -/

/-- A file with these entries, none of them twice, and with plain values under the keys of
interest. -/
structure Layer (K : Bytes → Prop) (file : Bytes) (kvs : KeyVals) : Prop where
  text : ConfText file kvs
  nodup : (kvs.map Prod.fst).Nodup
  plain : ∀ kv ∈ kvs, K kv.1 → ConfVal kv.2

/-- The files are these layers. -/
structure Tidy (K : Bytes → Prop) (f : Files) (L : Layers) : Prop where
  dflt : Layer K f.dflt L.dflt
  conf : Layer K f.conf L.conf
  tmp : Option.Rel (Layer K) f.tmp L.tmp
  covers : L.Covers K

theorem lookup_cons (kv : Bytes × Bytes) (kvs : KeyVals) :
    lookup k (kv :: kvs) = if kv.1 = k then some kv.2 else lookup k kvs := by
  rw [lookup, Keyed.find_cons]
  split <;> rfl

theorem lookup_eq_none_iff {kvs : KeyVals} : lookup k kvs = none ↔ k ∉ kvs.map Prod.fst := by
  rw [lookup, Option.map_eq_none_iff, Keyed.find_eq_none_iff]

/-- Reading lines one after the other gives a key the value of its line, if that is plain. -/
theorem stored_readVals {sw : BitVec 32} {kvs : KeyVals} (hk : k ≠ [])
    (hnodup : (kvs.map Prod.fst).Nodup) (hplain : ∀ kv ∈ kvs, kv.1 = k → ConfVal kv.2)
    (h : readVals w sw kvs p = some p') : stored k p' = (lookup k kvs).or (stored k p) := by
  induction kvs generalizing p with
  | nil =>
    cases h
    rfl
  | cons kv kvs ih =>
    obtain ⟨u, hu, h⟩ := readVals_cons h
    rw [List.map_cons, List.nodup_cons] at hnodup
    rw [List.forall_mem_cons] at hplain
    rw [ih hnodup.2 hplain.2 h, lookup_cons]
    by_cases hkv : kv.1 = k
    · rw [if_pos hkv, lookup_eq_none_iff.mpr (hkv ▸ hnodup.1), Option.none_or, ← hkv,
        stored_putval_self (hkv ▸ hk)]
      rw [readVal_eq (hplain.1 hkv)] at hu
      exact hu.symm
    · rw [if_neg hkv, stored_putval_ne (Ne.symm hkv)]

theorem Layer.stored {file : Bytes} {kvs : KeyVals} (h : Layer K file kvs) {sw : BitVec 32}
    (hread : readConfSub w sw file p = some p') (hk : K k) (hne : k ≠ []) :
    stored k p' = (lookup k kvs).or (stored k p) := by
  rw [readConfSub_confText h.text] at hread
  exact stored_readVals hne h.nodup (fun kv hkv he ↦ h.plain kv hkv (he ▸ hk)) hread

/-- **What a request reads are the settings of the layers.** -/
theorem Tidy.stored {L : Layers} (h : Tidy K f L) {environ : Bytes → Option Bytes}
    (hread : readConf w f environ = some p) (hk : K k) (hne : k ≠ []) :
    stored k p = L.view k := by
  obtain ⟨p0, h0, hread⟩ := Option.bind_eq_some_iff.mp hread
  obtain ⟨p1, h1, h0⟩ := Option.bind_eq_some_iff.mp h0
  have hbase : Setup.stored k p0 = L.base k := by
    rw [h.conf.stored h0 hk hne, h.dflt.stored h1 hk hne, Layers.base]
    exact congrArg _ (Option.or_none ..)
  have htmp := h.tmp
  rw [Layers.view]
  revert htmp hread
  cases f.tmp with
  | none =>
    rintro ⟨⟩ hrel
    cases hT : L.tmp with
    | none => simpa [lookup] using hbase
    | some T =>
      rw [hT] at hrel
      cases hrel
  | some t =>
    intro hread hrel
    cases hT : L.tmp with
    | none =>
      rw [hT] at hrel
      cases hrel
    | some T =>
      rw [hT] at hrel
      cases hrel with
      | some hlayer => rw [hlayer.stored hread hk hne, hbase, Option.getD_some]

theorem Layer.plain_of_lookup {file : Bytes} {kvs : KeyVals} (h : Layer K file kvs) (hk : K k)
    {u : Bytes} (hu : lookup k kvs = some u) : ConfVal u := by
  obtain ⟨kv, hkv, rfl⟩ := Option.map_eq_some_iff.mp hu
  refine h.plain kv (Keyed.mem_of_find _ hkv) ?_
  rwa [Keyed.key_of_find _ hkv]

/-- The settings of interest have plain values. -/
theorem Tidy.plain {L : Layers} (h : Tidy K f L) (hk : K k) : ∀ u ∈ L.view k, ConfVal u := by
  intro u hu
  rcases Option.or_eq_some_iff.mp hu with htop | ⟨-, hbase⟩
  · have htmp := h.tmp
    cases hT : L.tmp with
    | none =>
      rw [hT] at htop
      cases htop
    | some T =>
      rw [hT] at htop htmp
      generalize f.tmp = t at htmp
      cases htmp with
      | some ht => exact ht.plain_of_lookup hk htop
  · rcases Option.or_eq_some_iff.mp hbase with hconf | ⟨-, hdflt⟩
    · exact h.conf.plain_of_lookup hk hconf
    · exact h.dflt.plain_of_lookup hk hdflt

/-! ## Writing a layer -/

/-- Settings that are always written out: they are saved, and no page hides them. -/
structure Kept (K : Bytes → Prop) : Prop where
  persist : ∀ k, K k → persistKey k = true
  clock : ∀ k, K k → k ∉ clockKeys

/-- Every entry that is written stays on its line, and the keys of interest have plain values. -/
def Writable (K : Bytes → Prop) (env : List Entry) : Prop :=
  ∀ e ∈ persisted env, ConfKey e.key ∧ nl ∉ e.val ∧ (confLine e.key e.val).length < lineSize ∧
    (K e.key → ConfVal e.val)

instance (K : Bytes → Prop) [DecidablePred K] (env : List Entry) : Decidable (Writable K env) :=
  inferInstanceAs (Decidable (∀ e ∈ persisted env, _))

/-- An entry that is written stays on its line, and has a plain value if its key is of interest. -/
structure SaveOk (K : Bytes → Prop) (key val : Bytes) : Prop where
  confKey : ConfKey key
  nl : nl ∉ val
  line : (confLine key val).length < lineSize
  plain : K key → ConfVal val

instance decidableSaveOk (K : Bytes → Prop) [DecidablePred K] (key val : Bytes) :
    Decidable (SaveOk K key val) :=
  decidable_of_iff (ConfKey key ∧ CLib.nl ∉ val ∧ (confLine key val).length < lineSize ∧
      (K key → ConfVal val))
    ⟨fun h ↦ ⟨h.1, h.2.1, h.2.2.1, h.2.2.2⟩, fun h ↦ ⟨h.1, h.2, h.3, h.4⟩⟩

theorem writable_iff {env : List Entry} :
    Writable K env ↔ ∀ e ∈ persisted env, SaveOk K e.key e.val :=
  forall₂_congr fun _ _ ↦
    ⟨fun h ↦ ⟨h.1, h.2.1, h.2.2.1, h.2.2.2⟩, fun h ↦ ⟨h.1, h.2, h.3, h.4⟩⟩

theorem saveOk_of_confVal {key val : Bytes} (hk : ConfKey key) (hv : ConfVal val) :
    SaveOk K key val :=
  ⟨hk, hv.nl, length_confLine_lt hk hv.length_lt, fun _ ↦ hv⟩

/-- What is written was there before, or is one of the changes. -/
theorem persisted_edits {F : Frame} (h : Edits F p p') : ∀ e ∈ persisted p'.env,
    (∃ e' ∈ persisted p.env, e'.key = e.key ∧ e'.val = e.val) ∨
      ∃ q, F.put q ∧ q.key = e.key ∧ q.val = e.val := by
  induction h with
  | refl => exact fun e he ↦ .inl ⟨e, he, rfl, rfl⟩
  | @tail p1 _ _ hstep ih =>
    intro e he
    obtain ⟨hmem, hpers⟩ := List.mem_filter.mp he
    cases hstep with
    | @put q hq =>
      rcases mem_putval hmem with hmem | ⟨o, rfl⟩
      · exact ih e (List.mem_filter.mpr ⟨hmem, hpers⟩)
      · exact .inr ⟨q, hq, (key_putEntry ..).symm, (val_putEntry ..).symm⟩
    | hide =>
      rcases Keyed.mem_modify hmem with hmem | ⟨e', -, -, rfl⟩
      · exact ih e (List.mem_filter.mpr ⟨hmem, hpers⟩)
      · -- an entry that was hidden is not written
        have hflag : (e'.flag ||| RC_bNULL) &&& RC_bNULL = RC_bNULL := by
          ext i
          simpa using fun h ↦ .inr h
        have hnull : (RC_bNULL == 0) = false := by decide
        simp only [Entry.persistable, hflag, hnull, Bool.and_false, Bool.false_and,
          Bool.false_eq_true] at hpers
    | del => exact ih e (List.mem_filter.mpr ⟨(Keyed.erase_sublist _).subset hmem, hpers⟩)

/-- **A writable store stays so**, if what is written into it stays on its line. -/
theorem Writable.edits {F : Frame} (h : Writable K p.env) (he : Edits F p p')
    (hput : ∀ q, F.put q → SaveOk K q.key q.val) : Writable K p'.env := by
  rw [writable_iff] at h ⊢
  intro e hmem
  rcases persisted_edits he e hmem with ⟨e', he', hkey, hval⟩ | ⟨q, hq, hkey, hval⟩
  · exact hkey ▸ hval ▸ h e' he'
  · exact hkey ▸ hval ▸ hput q hq

theorem Kept.ne_nil (hK : Kept K) (hk : K k) : k ≠ [] :=
  ne_nil_of_isSetting (isSetting_of_persistKey (hK.persist k hk))

/-- What is written is a layer. -/
theorem layer_writeConf (hwf : p.WF) (h : Writable K p.env) :
    Layer K (writeConf p.env) (persistedVals p.env) := by
  refine ⟨confText_writeConf (fun e he ↦ (h e he).1) (fun e he ↦ ⟨(h e he).2.1, (h e he).2.2.1⟩),
    ?_, fun kv hkv hk ↦ ?_⟩
  · have hsub : ((persistedVals p.env).map Prod.fst).Sublist (p.env.map Entry.key) := by
      rw [persistedVals, List.map_map]
      exact (List.filter_sublist (p := Entry.persistable)).map Entry.key
    exact hwf.nodup.sublist hsub
  · obtain ⟨e, he, rfl⟩ := List.mem_map.mp hkv
    exact (h e he).2.2.2 hk

/-- In what is written, a key that is not hidden has the value of the store. -/
theorem lookup_persistedVals (hwf : p.WF) (h : ∀ e ∈ getvalp k p, e.persistable = true) :
    lookup k (persistedVals p.env) = stored k p := by
  rw [stored]
  cases he : getvalp k p with
  | none =>
    rw [Option.map_none, lookup_eq_none_iff]
    rw [getvalp, Keyed.find_eq_none_iff] at he
    intro hm
    obtain ⟨kv, hkv, rfl⟩ := List.mem_map.mp hm
    obtain ⟨e, hmem, rfl⟩ := List.mem_map.mp hkv
    exact he (List.mem_map_of_mem (List.mem_filter.mp hmem).1)
  | some e =>
    have hkey : e.key = k := Keyed.key_of_find Entry.key he
    have hmem : (e.key, e.val) ∈ persistedVals p.env :=
      List.mem_map_of_mem (List.mem_filter.mpr ⟨Keyed.mem_of_find _ he, h e he⟩)
    have hnodup : ((persistedVals p.env).map Prod.fst).Nodup := by
      rw [persistedVals, List.map_map]
      exact hwf.nodup.sublist ((List.filter_sublist (p := Entry.persistable)).map Entry.key)
    rw [lookup, ← hkey, Keyed.find_of_mem Prod.fst hnodup hmem]
    rfl

/-- What is not hidden on the way keeps its entry unmarked. -/
theorem edits_flag {F : Frame} (h : Edits F p p')
    (hput : ∀ q, F.put q → q.key = k → q.sw &&& RC_bNULL = 0) (hhide : ∀ k', F.hide k' → k' ≠ k)
    (hdel : ∀ k', F.del k' → k' ≠ k) (hp : ∀ e ∈ getvalp k p, e.flag &&& RC_bNULL = 0) :
    ∀ e ∈ getvalp k p', e.flag &&& RC_bNULL = 0 := by
  induction h with
  | refl => exact hp
  | tail _ hstep ih =>
    cases hstep with
    | @put q hq =>
      by_cases hk : q.key = k
      · by_cases hne : q.key = []
        · rwa [Put.run, putval, if_pos hne]
        · intro e he
          rw [← hk, Put.run, getvalp_putval_self hne, Option.mem_def, Option.some_inj] at he
          exact he ▸ flag_putEntry_null (hput q hq hk) _ _ _
      · rwa [Put.run, getvalp_putval_ne (Ne.symm hk)]
    | hide hk => rwa [getvalp_setvalflag, if_neg (hhide _ hk).symm]
    | del hk => rwa [getvalp_delval_ne (hdel _ hk).symm]

theorem readConf_flags {environ : Bytes → Option Bytes} (h : readConf w f environ = some p) :
    ∀ e ∈ p.env, e.flag &&& RC_bNULL = 0 := by
  obtain ⟨p0, h0, h⟩ := Option.bind_eq_some_iff.mp h
  have hp0 : ∀ e ∈ p0.env, e.flag &&& RC_bNULL = 0 := fun e he ↦ by
    rw [readSaved_flag_zero h0 e he]
    decide
  cases htmp : f.tmp with
  | none =>
    rw [htmp] at h
    cases h
    exact hp0
  | some tmp =>
    rw [htmp] at h
    exact readConfSub_flags (by decide) h hp0

theorem readConf_wf {environ : Bytes → Option Bytes} (h : readConf w f environ = some p) :
    p.WF := by
  obtain ⟨p0, h0, h⟩ := Option.bind_eq_some_iff.mp h
  cases htmp : f.tmp with
  | none =>
    rw [htmp] at h
    cases h
    exact readSaved_wf h0
  | some tmp =>
    rw [htmp] at h
    exact readConfSub_wf h (readSaved_wf h0)

/-- The frame of the arguments: a key with an underscore in the second place is written as a
change. -/
def argFrame : Frame where
  put q := q.key.tail.head? = some underscore → q.sw = RC_bWRITE
  hide _ := False
  del _ := False

theorem edits_getargs (p : Proc) (args : List Arg) : Edits argFrame p (getargs w p args) :=
  edits_puts (F := argFrame) (argsPuts_induct
    (P := fun q ↦ q.key.tail.head? = some underscore → q.sw = RC_bWRITE)
    fun _ _ _ _ hq hs ↦ argPuts_sw hq hs) p

theorem wf_of_visits (hv : Visits w r f p args v) : v.proc.WF :=
  ((readConf_wf (conf_of_readRequest hv.request)).edits (edits_getargs (w := w) p args)).edits
    (edits_gate hv.gate)

/-- A setting that is not hidden is written out. -/
theorem persistable_of_flag (hk : persistKey k = true)
    (h : ∀ e ∈ getvalp k p, e.flag &&& RC_bNULL = 0) : ∀ e ∈ getvalp k p, e.persistable = true := by
  intro e he
  have hkey : e.key = k := Keyed.key_of_find Entry.key he
  obtain ⟨s, rfl⟩ := exists_of_isSetting (isSetting_of_persistKey hk)
  simp only [persistKey, Bool.and_eq_true, decide_eq_true_eq, Bool.not_eq_true'] at hk
  simp only [Entry.persistable, Bool.and_eq_true, hkey, beq_iff_eq, Bool.not_eq_true']
  exact ⟨⟨hk.1.1, h e he⟩, hk.1.2⟩

/-- **From the files to the page's function, no setting is hidden.** -/
theorem flag_of_visits (hk : persistKey k = true) (hv : Visits w r f p args v) :
    ∀ e ∈ getvalp k v.proc, e.flag &&& RC_bNULL = 0 := by
  obtain ⟨s, rfl⟩ := exists_of_isSetting (isSetting_of_persistKey hk)
  simp only [persistKey, Bool.and_eq_true, decide_eq_true_eq] at hk
  have hlogin : ∀ k' ∈ loginKeys, k' ≠ 120 :: underscore :: s := fun k' h he ↦ hk.2 (he ▸ h)
  have hput : ∀ q, gateFrame.put q → q.key ≠ 120 :: underscore :: s := by
    rintro q (hq | ⟨hq, -⟩ | hq) he
    · have hcolor : ∀ q ∈ colorPuts, q.key.head? ≠ some 120 := by decide
      exact hcolor q hq (by rw [he]; rfl)
    · exact hlogin _ (by decide) (hq ▸ he)
    · rw [hq] at he
      exact absurd (congrArg List.head? he) (by simp; decide)
  have hhide : ∀ k', gateFrame.hide k' → k' ≠ 120 :: underscore :: s := fun k' h ↦ by
    refine hlogin k' ?_
    simp only [gateFrame, List.mem_cons, List.not_mem_nil, or_false] at h
    rcases h with rfl | rfl | rfl <;> decide
  exact edits_flag (edits_gate hv.gate) (fun q hq he ↦ absurd he (hput q hq)) hhide
    (fun _ h ↦ h.elim)
    (edits_flag (edits_getargs (w := w) p args) (fun q hq he ↦ by rw [hq (by rw [he]; rfl)]; decide)
      (fun _ h ↦ h.elim) (fun _ h ↦ h.elim)
      (fun e he ↦ readConf_flags (conf_of_readRequest hv.request) e (Keyed.mem_of_find _ he)))

/-- **From the files to what is written, every key stays and no key of interest is hidden.** -/
theorem kept_of_visits {dFlg : Bool} (hK : Kept K) (hv : Visits w r f p args v)
    (hres : callHook b w dFlg v = some (some res)) :
    res.proc.WF ∧ ∀ k, K k → (∀ e ∈ getvalp k res.proc, e.persistable = true) ∧
      (stored k p ≠ none → stored k res.proc ≠ none) := by
  have hhook := edits_callHook hres
  refine ⟨(wf_of_visits hv).edits hhook, fun k hk ↦ ?_⟩
  have hpers := hK.persist _ hk
  have hhide : ∀ k', (ownFrame ownPrefixes).hide k' → k' ≠ k := fun k' h he ↦
    hK.clock _ hk (he ▸ h)
  have hdel : ∀ k', (ownFrame ownPrefixes).del k' → k' ≠ k := fun k' h he ↦ by
    rw [← he, show k' = cstr "x_sendmail_relay___T" from h] at hpers
    exact absurd hpers (by decide)
  constructor
  · exact persistable_of_flag hpers (edits_flag hhook (fun q hq _ ↦ by rw [hq.2]; decide) hhide hdel
      (flag_of_visits hpers hv))
  · simp only [stored, ne_eq, Option.map_eq_none_iff]
    exact fun h ↦ edits_present hhook hdel (edits_present (edits_gate hv.gate) (fun _ h ↦ h.elim)
      (edits_present (edits_getargs p args) (fun _ h ↦ h.elim) h))

/-! ## The steps of the files -/

/-- `write_conf` is the step `Layers.write`. -/
theorem Tidy.write {L : Layers} {dFlg : Bool} (hK : Kept K) (h : Tidy K f L)
    (hv : Visits w r f p args v) (hres : callHook b w dFlg v = some (some res))
    (hw : Writable K res.proc.env) :
    Tidy K { f with tmp := some (writeConf res.proc.env) } (L.write (persistedVals res.proc.env)) ∧
      ∀ k, K k → (L.write (persistedVals res.proc.env)).view k = Setup.stored k res.proc := by
  obtain ⟨hwf, hkept⟩ := kept_of_visits hK hv hres
  have hlookup : ∀ k, K k → lookup k (persistedVals res.proc.env) = Setup.stored k res.proc :=
    fun k hk ↦ lookup_persistedVals hwf (hkept k hk).1
  have hcov : (L.write (persistedVals res.proc.env)).Covers K := by
    intro T hT k hk hne
    cases hT
    rw [hlookup k hk]
    refine (hkept k hk).2 ?_
    rw [h.stored (conf_of_readRequest hv.request) hk (hK.ne_nil hk), Layers.view]
    exact fun hnone ↦ hne (Option.or_eq_none_iff.mp hnone).2
  refine ⟨⟨h.dflt, h.conf, .some (layer_writeConf hwf hw), hcov⟩, fun k hk ↦ ?_⟩
  rw [Layers.view_of_tmp rfl hcov hk, hlookup k hk]

/-- The files after `rename(RC_CONF_TMP, RC_CONF)`. -/
def Files.save (f : Files) : Files :=
  match f.tmp with
  | some tmp => { f with conf := tmp, tmp := none }
  | none => f

/-- `ok_save` is the step `Layers.save`. -/
theorem Tidy.save {L : Layers} (h : Tidy K f L) : Tidy K f.save L.save := by
  have htmp := h.tmp
  have hcov := Layers.covers_save (K := K) (L := L)
  revert hcov
  rw [Files.save, Layers.save]
  cases hf : f.tmp with
  | none =>
    rw [hf] at htmp
    cases hT : L.tmp with
    | none => exact fun _ ↦ h
    | some T =>
      rw [hT] at htmp
      cases htmp
  | some t =>
    rw [hf] at htmp
    cases hT : L.tmp with
    | none =>
      rw [hT] at htmp
      cases htmp
    | some T =>
      rw [hT] at htmp
      cases htmp with
      | some ht => exact fun hcov ↦ ⟨h.dflt, ht, .none, hcov⟩

/-- Copying the defaults over the saved file is the step `Layers.reset`. -/
theorem Tidy.reset {L : Layers} (h : Tidy K f L) :
    Tidy K { f with conf := f.dflt } L.reset :=
  ⟨h.dflt, h.dflt, h.tmp, Layers.covers_reset h.covers⟩

/-- **What a request can do to the files.** -/
theorem files_main (h : main b w r f = some o) :
    ∃ g : Files, (o.files = g ∨ o.files = { g with conf := g.dflt }) ∧
      (g = f ∨ g = f.save ∨ ∃ p args v res, Visits w r f p args v ∧
        callHook b w (delFlag args) v = some (some res) ∧ res.wrote = true ∧
        g = { f with tmp := some (writeConf res.proc.env) }) := by
  rcases main_cases h with h | ⟨p, args, v, res, hv, hres, rfl⟩
  · exact ⟨f, .inl h, .inl rfl⟩
  · have hfin : (finish w res f).files = res.files f ∨
        (finish w res f).files = { res.files f with conf := (res.files f).dflt } := by
      rw [finish]
      cases res.status with
      | okSave =>
        cases getval w (cstr "x_save_mode") res.proc with
        | none => exact .inl rfl
        | some mode =>
          dsimp only
          split
          · exact .inr rfl
          · exact .inl rfl
      | ok | okNosave =>
        dsimp only
        split
        · split <;> exact .inl rfl
        · exact .inl rfl
      | ng | cont => exact .inl rfl
    rw [Result.files] at hfin
    by_cases hw : res.wrote = true
    · rw [if_pos hw] at hfin
      exact ⟨_, hfin, .inr (.inr ⟨p, args, v, res, hv, hres, hw, rfl⟩)⟩
    · rw [if_neg hw] at hfin
      by_cases hr : res.renamed = true
      · rw [if_pos hr] at hfin
        refine ⟨f.save, ?_, .inr (.inl rfl)⟩
        rw [Files.save]
        cases htmp : f.tmp <;> rw [htmp] at hfin <;> exact hfin
      · rw [if_neg hr] at hfin
        exact ⟨f, hfin, .inl rfl⟩

/-- **A request that leaves tidy files takes a step of the layers**: the settings of interest stay,
or go back to the defaults, or become those of the store that was written. -/
theorem Tidy.main {L : Layers} (hK : Kept K) (h : Tidy K f L) (hm : main b w r f = some o)
    (hwrite : ∀ p args v res, Visits w r f p args v →
      callHook b w (delFlag args) v = some (some res) → res.wrote = true →
        Writable K res.proc.env) :
    ∃ L' : Layers, Tidy K o.files L' ∧ L'.dflt = L.dflt ∧
      ((∀ k, K k → L'.view k = L.view k) ∨ (∀ k, K k → L'.view k = lookup k L.dflt) ∨
        ∃ p args v res, Visits w r f p args v ∧
          callHook b w (delFlag args) v = some (some res) ∧ res.wrote = true ∧
          ∀ k, K k → L'.view k = Setup.stored k res.proc) := by
  obtain ⟨g, hg, hcase⟩ := files_main hm
  -- first the page's function, then what `page_setup` may still do to the saved file
  obtain ⟨L1, h1, hd1, hview⟩ : ∃ L1 : Layers, Tidy K g L1 ∧ L1.dflt = L.dflt ∧
      ((∀ k, K k → L1.view k = L.view k) ∨
        ∃ p args v res, Visits w r f p args v ∧
          callHook b w (delFlag args) v = some (some res) ∧ res.wrote = true ∧
          ∀ k, K k → L1.view k = Setup.stored k res.proc) := by
    rcases hcase with rfl | rfl | ⟨p, args, v, res, hv, hres, hw, rfl⟩
    · exact ⟨L, h, rfl, .inl fun _ _ ↦ rfl⟩
    · refine ⟨L.save, h.save, ?_, .inl fun k hk ↦ Layers.view_save h.covers hk⟩
      rw [Layers.save]
      cases L.tmp <;> rfl
    · obtain ⟨ht, hview⟩ := h.write hK hv hres (hwrite p args v res hv hres hw)
      exact ⟨_, ht, rfl, .inr ⟨p, args, v, res, hv, hres, hw, hview⟩⟩
  rcases hg with hg | hg
  · exact ⟨L1, hg ▸ h1, hd1, hview.imp_right .inr⟩
  · refine ⟨L1.reset, hg ▸ h1.reset, hd1, ?_⟩
    rcases Layers.view_reset h1.covers with hsame | hdflt
    · rcases hview with hview | ⟨p, args, v, res, hv, hres, hw, hview⟩
      · exact .inl fun k hk ↦ (hsame k hk).trans (hview k hk)
      · exact .inr (.inr ⟨p, args, v, res, hv, hres, hw,
          fun k hk ↦ (hsame k hk).trans (hview k hk)⟩)
    · exact .inr (.inl fun k _ ↦ (hdflt k).trans (by rw [hd1]))

/-! ## Histories -/

/-- One request, on whatever machine, that meets a condition. -/
def Step (b : Build) (C : World → Request → Files → Prop) (f f' : Files) : Prop :=
  ∃ w r o, main b w r f = some o ∧ C w r f ∧ o.files = f'

/-- Any number of requests that all meet a condition. -/
abbrev Reaches (b : Build) (C : World → Request → Files → Prop) : Files → Files → Prop :=
  Relation.ReflTransGen (Step b C)

/-- **A property of the settings over a whole history**: it holds of the settings of every file that
is reached if it holds of the defaults and of what is there at first, and if every store that is
written is writable and has it again. -/
theorem settings_of_reaches {L : Layers} {C : World → Request → Files → Prop}
    {Q : (Bytes → Option Bytes) → Prop} {f' : Files} (hK : Kept K)
    (hQ : ∀ m m', (∀ k, K k → m k = m' k) → Q m → Q m') (h : Tidy K f L)
    (hdflt : Q fun k ↦ lookup k L.dflt) (hview : Q L.view)
    (hstep : ∀ w r f p args v res, C w r f → Visits w r f p args v →
      callHook b w (delFlag args) v = some (some res) → res.wrote = true →
      (Q fun k ↦ stored k p) → Writable K res.proc.env ∧ Q fun k ↦ stored k res.proc)
    (hreach : Reaches b C f f') :
    ∃ L' : Layers, Tidy K f' L' ∧ Q L'.view := by
  suffices hinv : ∃ L' : Layers, Tidy K f' L' ∧ Q L'.view ∧ L'.dflt = L.dflt by
    obtain ⟨L', h', hQ', -⟩ := hinv
    exact ⟨L', h', hQ'⟩
  induction hreach with
  | refl => exact ⟨L, h, hview, rfl⟩
  | tail _ hlast ih =>
    obtain ⟨L1, h1, hQ1, hd1⟩ := ih
    obtain ⟨w, r, o, hm, hC, rfl⟩ := hlast
    have hread : ∀ p args v, Visits w r _ p args v → Q fun k ↦ stored k p := fun p args v hv ↦
      hQ _ _ (fun k hk ↦ (h1.stored (conf_of_readRequest hv.request) hk (hK.ne_nil hk)).symm) hQ1
    obtain ⟨L2, h2, hd2, hcase⟩ := h1.main hK hm fun p args v res hv hres hw ↦
      (hstep w r _ p args v res hC hv hres hw (hread p args v hv)).1
    refine ⟨L2, h2, ?_, hd2.trans hd1⟩
    rcases hcase with hsame | hback | ⟨p, args, v, res, hv, hres, hw, hnew⟩
    · exact hQ _ _ (fun k hk ↦ (hsame k hk).symm) hQ1
    · exact hQ _ _ (fun k hk ↦ ((hback k hk).trans (by rw [hd1])).symm) hdflt
    · exact hQ _ _ (fun k hk ↦ (hnew k hk).symm)
        (hstep w r _ p args v res hC hv hres hw (hread p args v hv)).2

/-! ## The shipped configuration -/

/-- The settings of `etc/openblocks.conf`. -/
def shipped : KeyVals :=
  [(cstr "x_openblocks_access_limit", cstr "eth0"),
    (cstr "x_autoconf_ver", cstr "1"),
    (cstr "x_eth_typ__", cstr "eth0 eth1"),
    (cstr "x_hostname", cstr "LinuxServer"),
    (cstr "x_domainname", cstr "localdomain.co.jp"),
    (cstr "x_defaultroute_adr", cstr "192.168.253.194"),
    (cstr "x_defaultroute_interface", cstr "eth0"),
    (cstr "x_eth_typ__eth0", cstr "2"),
    (cstr "x_eth_adr__eth0", cstr "192.168.253.254"),
    (cstr "x_eth_subnet_mask__eth0", cstr "255.255.255.0"),
    (cstr "x_eth_broadcast__eth0", cstr "192.168.253.255"),
    (cstr "x_eth_typ__eth1", cstr "2"),
    (cstr "x_eth_adr__eth1", cstr "192.168.254.254"),
    (cstr "x_eth_subnet_mask__eth1", cstr "255.255.255.0"),
    (cstr "x_eth_broadcast__eth1", cstr "192.168.254.255"),
    (cstr "x_nameserver", cstr "192.168.253.194"),
    (cstr "x_nameserver2", cstr "192.168.253.200"),
    (cstr "x_nameserver3", cstr ""),
    (cstr "x_domain", cstr "localdomain.co.jp"),
    (cstr "x_msq_typ", cstr "1"),
    (cstr "x_dhcpd_enable", cstr "NO"),
    (cstr "x_sendmail_enable", cstr "NO"),
    (cstr "x_sendmail_my_official_smtp_hostname", cstr "mailto.localdomain.co.jp"),
    (cstr "x_sendmail_local_domain_name", cstr "localdomain.co.jp"),
    (cstr "x_sendmail_domain_alias1", cstr ""),
    (cstr "x_named_enable", cstr "NO"),
    (cstr "x_httpd_enable", cstr "NO"),
    (cstr "x_httpd_chroot", cstr "NO"),
    (cstr "x_httpd_dir", cstr "/home/www"),
    (cstr "x_httpd_cgipat", cstr "**.cgi"),
    (cstr "x_httpd_logfile", cstr "/dev/null"),
    (cstr "x_samba_enable", cstr "NO"),
    (cstr "x_samba_nmbd_enable", cstr "NO"),
    (cstr "x_samba_workgroup", cstr "MYGROUP"),
    (cstr "x_netatalk_enable", cstr "NO"),
    (cstr "x_user_id", cstr "32769"),
    (cstr "x_dhcpd_enable__eth0", cstr "NO"),
    (cstr "x_dhcpd_range1__eth0", cstr "192.168.253.100"),
    (cstr "x_dhcpd_range2__eth0", cstr "192.168.253.131"),
    (cstr "x_dhcpd_nameserver__eth0", cstr ""),
    (cstr "x_dhcpd_domainname__eth0", cstr ""),
    (cstr "x_dhcpd_routers__eth0", cstr ""),
    (cstr "x_dhcpd_subnet_mask__eth0", cstr "255.255.255.0"),
    (cstr "x_dhcpd_enable__eth1", cstr "NO"),
    (cstr "x_dhcpd_range1__eth1", cstr "192.168.254.100"),
    (cstr "x_dhcpd_range2__eth1", cstr "192.168.254.131"),
    (cstr "x_dhcpd_nameserver__eth1", cstr ""),
    (cstr "x_dhcpd_domainname__eth1", cstr ""),
    (cstr "x_dhcpd_routers__eth1", cstr ""),
    (cstr "x_dhcpd_subnet_mask__eth1", cstr "255.255.255.0")]

/-- The text of `etc/openblocks.conf`. -/
def shippedConf : Bytes := confHead ++ (shipped.map fun kv ↦ confLine kv.1 kv.2).flatten

/-- The files of a new machine: the shipped configuration is installed as the defaults, and once
more as what is saved. -/
def shippedFiles : Files := ⟨shippedConf, shippedConf, none⟩

theorem layer_shippedConf (K : Bytes → Prop) : Layer K shippedConf shipped := by
  have hplain : ∀ kv ∈ shipped, ConfKey kv.1 ∧ ConfVal kv.2 := by decide +kernel
  exact ⟨confText_head (confText_lines (fun kv hkv ↦ (hplain kv hkv).1) fun kv hkv ↦
      ⟨(hplain kv hkv).2.nl, length_confLine_lt (hplain kv hkv).1 (hplain kv hkv).2.length_lt⟩),
    by decide +kernel, fun kv hkv _ ↦ (hplain kv hkv).2⟩

theorem tidy_shippedFiles (K : Bytes → Prop) : Tidy K shippedFiles ⟨shipped, shipped, none⟩ :=
  ⟨layer_shippedConf K, layer_shippedConf K, .none, fun _ hT ↦ absurd hT (by simp)⟩

end Setup
