import SsdLinux.Setup.History

/-!
# What `read_conf` leaves in the store

`read_conf` reads three files into one list: the defaults, what is saved, and `tmp.conf` with what
is pending.  `SsdLinux.Setup.History` says which value a key has after that.  Here is the rest: the
list itself, with the order of its entries and their flags (`readConf_overlay`).

A file in question is one like those that `write_conf2` writes (`layer_confFile`): every line is an
entry of its own, no key stands there twice, and every value is read back as it is.
-/

set_option autoImplicit false

namespace Setup

open CLib

variable {w : World} {p : Proc} {k : Bytes}

/-! ## The list that is meant -/

namespace Layers

/-- The keys, in the order in which they first appear. -/
def keys (L : Layers) : List Bytes :=
  Keyed.mergeKeys (Keyed.mergeKeys (L.dflt.map Prod.fst) (L.conf.map Prod.fst))
    ((L.tmp.getD []).map Prod.fst)

/-- The flag of a key: whether it is pending, and if so whether that is news. -/
def flag (L : Layers) (k : Bytes) : BitVec 32 :=
  match lookup k (L.tmp.getD []) with
  | none => 0
  | some v => if L.base k = some v then RC_bWRITE else RC_bWRITE ||| RC_bUPDATE

/-- The entry of a key. -/
def entry (L : Layers) (k : Bytes) : Entry := ⟨k, (L.view k).getD [], L.flag k⟩

variable {L : Layers}

/-- The keys are those that one of the layers defines. -/
theorem mem_keys : k ∈ L.keys ↔ L.view k ≠ none := by
  rw [keys, Keyed.mem_mergeKeys, Keyed.mem_mergeKeys, view, base, Ne, Option.or_eq_none_iff,
    Option.or_eq_none_iff, lookup_eq_none_iff, lookup_eq_none_iff, lookup_eq_none_iff]
  tauto

end Layers

/-! ## Writing a layer over a store -/

theorem ConfText.confKey {file : Bytes} {kvs : KeyVals} (h : ConfText file kvs) :
    ∀ kv ∈ kvs, ConfKey kv.1 := by
  induction h with
  | nil => exact nofun
  | comment hb hl h ih => exact ih
  | assign hk hv hl h ih => exact List.forall_mem_cons.mpr ⟨hk, ih⟩

theorem map_key_putsOf {sw : BitVec 32} {kvs : KeyVals} (hne : ∀ kv ∈ kvs, kv.1 ≠ [])
    (hnodup : (kvs.map Prod.fst).Nodup) : ((putsOf sw kvs).foldl Put.run p).env.map Entry.key
      = Keyed.mergeKeys (p.env.map Entry.key) (kvs.map Prod.fst) := by
  have hmap : (putsOf sw kvs).map Put.key = kvs.map Prod.fst := by
    rw [putsOf, List.map_map]
    rfl
  have hall : (putsOf sw kvs).filter (fun q ↦ decide (q.key ≠ [])) = putsOf sw kvs := by
    refine List.filter_eq_self.mpr fun q hq ↦ ?_
    obtain ⟨kv, hkv, rfl⟩ := List.mem_map.mp hq
    exact decide_eq_true (hne kv hkv)
  rw [env_foldl, hall, Keyed.map_key_foldl_upsert Entry.key (K := Put.key)
    (F := fun q ↦ putEntry q.key q.val q.sw) (fun _ _ ↦ key_putEntry ..) (hmap ▸ hnodup), hmap]

theorem getvalp_putsOf {sw : BitVec 32} {kvs : KeyVals} (hk : k ≠ [])
    (hnodup : (kvs.map Prod.fst).Nodup) : getvalp k ((putsOf sw kvs).foldl Put.run p)
      = ((lookup k kvs).map fun v ↦ putEntry k v sw (getvalp k p)).or (getvalp k p) := by
  induction kvs generalizing p with
  | nil => rfl
  | cons kv kvs ih =>
    rw [List.map_cons, List.nodup_cons] at hnodup
    rw [putsOf, List.map_cons, List.foldl_cons, ← putsOf, ih hnodup.2, lookup_cons, Put.run]
    by_cases hkv : kv.1 = k
    · subst hkv
      rw [if_pos rfl, lookup_eq_none_iff.mpr hnodup.1, Option.map_none, Option.none_or,
        getvalp_putval_self hk, Option.map_some, Option.some_or]
    · rw [if_neg hkv, getvalp_putval_ne (Ne.symm hkv)]

/-- Reading a layer with plain values is writing it over the store. -/
theorem Layer.readConfSub {file : Bytes} {kvs : KeyVals} (h : Layer (fun _ ↦ True) file kvs)
    (sw : BitVec 32) (p : Proc) :
    readConfSub w sw file p = some ((putsOf sw kvs).foldl Put.run p) :=
  readConfSub_eq_foldl h.text (fun kv hkv ↦ h.plain kv hkv trivial) p

theorem Layer.ne_nil {file : Bytes} {kvs : KeyVals} (h : Layer (fun _ ↦ True) file kvs) :
    ∀ kv ∈ kvs, kv.1 ≠ [] :=
  fun kv hkv ↦ (h.text.confKey kv hkv).ne_nil

/-! ## The three layers -/

variable {f : Files} {L : Layers} {environ : Bytes → Option Bytes}

/-- The defaults and what is saved leave entries without flags. -/
theorem getvalp_base (hd : (L.dflt.map Prod.fst).Nodup) (hc : (L.conf.map Prod.fst).Nodup)
    (hk : k ≠ []) : getvalp k
      ((putsOf 0 L.conf).foldl Put.run ((putsOf 0 L.dflt).foldl Put.run ⟨[], environ⟩))
      = (L.base k).map fun v ↦ ⟨k, v, 0⟩ := by
  have hput (v : Bytes) (o : Option Entry) : putEntry k v 0 o = ⟨k, v, 0⟩ := by
    cases o <;> rfl
  rw [getvalp_putsOf hk hc, getvalp_putsOf hk hd, Layers.base]
  simp only [hput]
  cases lookup k L.conf <;> cases lookup k L.dflt <;> rfl

/-- A pending value marks its entry, and twice if it is news. -/
theorem putEntry_pending (k v : Bytes) (o : Option Bytes) :
    putEntry k v RC_bWRITE (o.map fun u ↦ ⟨k, u, 0⟩)
      = ⟨k, v, if o = some v then RC_bWRITE else RC_bWRITE ||| RC_bUPDATE⟩ := by
  cases o with
  | none => rfl
  | some u =>
    by_cases hu : u = v
    · subst hu
      simp [putEntry, newFlag]
    · simp [putEntry, newFlag, hu, Ne.symm hu]

/-- **What `read_conf` leaves**: every key once, in the order of first appearance, with the value of
the last file that defines it, and marked if it is pending. -/
theorem readConf_overlay (hd : Layer (fun _ ↦ True) f.dflt L.dflt)
    (hc : Layer (fun _ ↦ True) f.conf L.conf)
    (ht : Option.Rel (Layer fun _ ↦ True) f.tmp L.tmp) :
    ∃ p, readConf w f environ = some p ∧ p.env = L.keys.map L.entry ∧ L.keys.Nodup := by
  obtain ⟨T, hT, htne, htnd, hread⟩ : ∃ T, L.tmp.getD [] = T ∧ (∀ kv ∈ T, kv.1 ≠ []) ∧
      (T.map Prod.fst).Nodup ∧ readConf w f environ = some ((putsOf RC_bWRITE T).foldl Put.run
        ((putsOf 0 L.conf).foldl Put.run ((putsOf 0 L.dflt).foldl Put.run ⟨[], environ⟩))) := by
    have hsaved : readSaved w f environ = some ((putsOf 0 L.conf).foldl Put.run
        ((putsOf 0 L.dflt).foldl Put.run ⟨[], environ⟩)) := by
      rw [readSaved, hd.readConfSub, Option.bind_some, hc.readConfSub]
    rw [readConf, hsaved, Option.bind_some]
    generalize f.tmp = tmp, L.tmp = T at ht ⊢
    cases ht with
    | none => exact ⟨[], rfl, List.forall_mem_nil _, List.nodup_nil, rfl⟩
    | some hlayer => exact ⟨_, rfl, hlayer.ne_nil, hlayer.nodup, hlayer.readConfSub _ _⟩
  have hkeys : L.keys.Nodup := by
    rw [Layers.keys, hT]
    exact Keyed.nodup_mergeKeys (Keyed.nodup_mergeKeys hd.nodup hc.nodup) htnd
  have hmap : ((putsOf RC_bWRITE T).foldl Put.run ((putsOf 0 L.conf).foldl Put.run
      ((putsOf 0 L.dflt).foldl Put.run ⟨[], environ⟩))).env.map Entry.key = L.keys := by
    rw [map_key_putsOf htne htnd, map_key_putsOf hc.ne_nil hc.nodup,
      map_key_putsOf hd.ne_nil hd.nodup, Layers.keys, hT, List.map_nil, Keyed.nil_mergeKeys]
  refine ⟨_, hread, ?_, hkeys⟩
  rw [← hmap]
  refine Keyed.eq_map_of_find Entry.key (hmap ▸ hkeys) fun k hk ↦ ?_
  rw [hmap] at hk
  have hne : k ≠ [] := by
    rw [Layers.keys, hT] at hk
    rcases Keyed.mem_mergeKeys.mp hk with hk | hk
    · rcases Keyed.mem_mergeKeys.mp hk with hk | hk
      all_goals obtain ⟨kv, hkv, rfl⟩ := List.mem_map.mp hk
      exacts [hd.ne_nil kv hkv, hc.ne_nil kv hkv]
    · obtain ⟨kv, hkv, rfl⟩ := List.mem_map.mp hk
      exact htne kv hkv
  change getvalp k _ = _
  rw [getvalp_putsOf hne htnd, getvalp_base hd.nodup hc.nodup hne, Layers.entry, Layers.flag,
    Layers.view, hT]
  cases hv : lookup k T with
  | some v =>
    rw [Option.map_some, Option.some_or, Option.some_or, Option.getD_some, putEntry_pending]
  | none =>
    have hbase : L.base k ≠ none := by
      rw [Layers.mem_keys, Layers.view, hT, hv, Option.none_or] at hk
      exact hk
    obtain ⟨v, hv⟩ := Option.ne_none_iff_exists'.mp hbase
    rw [hv]
    rfl

/-! ## Files of the form of `write_conf2` -/

/-- The text that `write_conf2` writes for these entries, when there are `i` in the store. -/
def confFile (i : ℕ) (kvs : KeyVals) : Bytes :=
  confHead ++ (kvs.map fun kv ↦ confLine kv.1 kv.2).flatten ++ confFoot kvs.length i

theorem writeConf_eq_confFile (env : List Entry) :
    writeConf env = confFile env.length (persistedVals env) := by
  rw [writeConf, confFile, persistedVals, List.map_map, List.length_map]
  rfl

theorem layer_confFile {i : ℕ} {kvs : KeyVals} (h : ∀ kv ∈ kvs, ConfKey kv.1 ∧ ConfVal kv.2)
    (hnodup : (kvs.map Prod.fst).Nodup) : Layer (fun _ ↦ True) (confFile i kvs) kvs := by
  obtain ⟨body, hbody, hnl⟩ := confFoot_eq kvs.length i
  have hlen := length_confFoot_le kvs.length i
  have hsize : lineSize = 1024 := rfl
  rw [hbody, List.length_append, List.length_cons, List.length_singleton] at hlen
  refine ⟨?_, hnodup, fun kv hkv _ ↦ (h kv hkv).2⟩
  rw [confFile, hbody]
  refine confText_append_comment (confText_head (confText_lines (fun kv hkv ↦ (h kv hkv).1)
    fun kv hkv ↦ ⟨(h kv hkv).2.nl, length_confLine_lt (h kv hkv).1 (h kv hkv).2.length_lt⟩)) hnl ?_
  omega

/-- The changes of a store that are pending: a key as it was, one with another value, and one that
is new. -/
def pendingEnv : List Entry :=
  [⟨cstr "x_domain", cstr "net", 3⟩, ⟨cstr "op", cstr "ok", 1⟩, ⟨cstr "x_hostname", cstr "obs", 1⟩,
    ⟨cstr "x_domainname", cstr "example.net", 3⟩]

/-- They lie over a layer that is saved and one of defaults. -/
def overlayLayers : Layers where
  dflt := [(cstr "x_hostname", cstr "obs"), (cstr "x_domainname", cstr "example.jp")]
  conf := [(cstr "x_domainname", cstr "example.com"), (cstr "x_eth_typ__eth0", cstr "1")]
  tmp := some (persistedVals pendingEnv)

theorem overlayLayers_read :
    ∃ p, readConf World.bare ⟨confFile 2 overlayLayers.dflt, confFile 2 overlayLayers.conf,
        some (writeConf pendingEnv)⟩ (fun _ ↦ none) = some p ∧
      p.env = [⟨cstr "x_hostname", cstr "obs", 1⟩, ⟨cstr "x_domainname", cstr "example.net", 3⟩,
        ⟨cstr "x_eth_typ__eth0", cstr "1", 0⟩, ⟨cstr "x_domain", cstr "net", 3⟩] := by
  rw [writeConf_eq_confFile]
  obtain ⟨p, hread, henv, -⟩ := readConf_overlay (w := World.bare) (L := overlayLayers)
    (f := ⟨confFile 2 overlayLayers.dflt, confFile 2 overlayLayers.conf,
      some (confFile pendingEnv.length (persistedVals pendingEnv))⟩)
    (layer_confFile (by decide) (by decide)) (layer_confFile (by decide) (by decide))
    (.some (layer_confFile (by decide) (by decide)))
  exact ⟨p, hread, henv.trans (by decide +kernel)⟩

end Setup
