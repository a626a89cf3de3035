import SsdLinux.Setup.History
import SsdLinux.Setup.ShellReader
import SsdLinux.Setup.Netstart

/-!
# The network of the pages, at boot

The pages show the settings that `read_conf` finds in three files, one over the other.  The shell
that boots the machine sources one of them.  So the two agree only as far as

* nothing is pending,
* every setting that has a default has been saved as well, which `Saved` keeps track of, and
* the saved file is text that a shell takes as it is.

`network_at_boot` puts this together over a history of requests: whatever has been entered and
saved, `netstart` sets up the network that the pages show.
-/

set_option autoImplicit false

namespace Netstart

open CLib Shell Setup

variable {b : Build} {w : World} {r : Request} {f f' : Files} {p : Proc} {k : Bytes} {L : Layers}
  {kvs : KeyVals} {vars : Vars} {m : Bytes → Bytes} {eths all : List Bytes} {host : Host}

/-! ## Sourcing a saved file -/

/-- A line that a shell takes as it is. -/
structure PlainLine (kv : Bytes × Bytes) : Prop where
  setting : (cstr "x_").isPrefixOf kv.1 = true
  name : IsName kv.1
  val : ConfVal kv.2
  backquote : backquote ∉ kv.2

theorem PlainLine.reads {kv : Bytes × Bytes} (h : PlainLine kv) : Reads vars kv.2 kv.2 := by
  refine reads_literal fun c hc ↦ ⟨fun hmem ↦ ?_, ne_of_mem_of_not_mem hc h.val.nl⟩
  simp only [dqSpecials, List.mem_cons, List.not_mem_nil, or_false] at hmem
  rcases hmem with rfl | rfl | rfl | rfl
  exacts [h.val.dquote hc, h.val.dollar hc, h.val.backslash hc, h.backquote hc]

/-- The settings of the network are saved, and none of them is the clock. -/
theorem kept_netKey : Kept NetKey where
  persist k hk := by
    rcases hk with hk | ⟨key, hkey, i, hi, rfl⟩
    · have hall : ∀ k ∈ [cstr "x_eth_typ__", cstr "x_defaultroute_adr"], persistKey k = true := by
        decide
      exact hall k hk
    · have hall : ∀ key ∈ ifKeys, persistKey key = true ∧
          ∀ k ∈ loginKeys, key.isPrefixOf k = false := by decide
      obtain ⟨hpersist, hlogin⟩ := hall key hkey
      exact persistKey_append hpersist (not_mem_of_class hi.2 (by decide)) hlogin
  clock k hk := by
    rcases hk with hk | ⟨key, hkey, i, -, rfl⟩
    · have hall : ∀ k ∈ [cstr "x_eth_typ__", cstr "x_defaultroute_adr"], k ∉ clockKeys := by
        decide
      exact hall k hk
    · have hall : ∀ key ∈ ifKeys, ∀ k ∈ clockKeys, key.isPrefixOf k = false := by decide
      intro hmem
      have hnot := hall key hkey _ hmem
      rw [List.isPrefixOf_iff_prefix.2 (List.prefix_append key i)] at hnot
      cases hnot

/-! ## What is saved -/

/-- **Layers that can be sourced**, where everything that has a default is saved. -/
structure Saved (L : Layers) : Prop where
  dflt : ∀ kv ∈ L.dflt, PlainLine kv
  conf : ∀ kv ∈ L.conf, PlainLine kv
  tmp : ∀ T ∈ L.tmp, ∀ kv ∈ T, PlainLine kv
  covers : ∀ k, NetKey k → lookup k L.dflt ≠ none → lookup k L.conf ≠ none
  list : lookup (cstr "x_eth_typ__") L.dflt ≠ none

theorem Saved.write (h : Saved L) (hT : ∀ kv ∈ kvs, PlainLine kv) : Saved (L.write kvs) :=
  ⟨h.dflt, h.conf, fun _ hmem ↦ Option.some.inj hmem ▸ hT, h.covers, h.list⟩

theorem Saved.save (h : Saved L) (hcov : L.Covers NetKey) : Saved L.save := by
  rw [Layers.save]
  cases hT : L.tmp with
  | none => exact h
  | some T =>
    refine ⟨h.dflt, h.tmp T hT, fun T' hT' ↦ absurd hT' (by simp), fun k hk hne ↦ ?_, h.list⟩
    refine hcov T hT k hk fun hnone ↦ hne ?_
    rw [Layers.base, Option.or_eq_none_iff] at hnone
    exact hnone.2

theorem Saved.reset (h : Saved L) : Saved L.reset :=
  ⟨h.dflt, h.dflt, h.tmp, fun _ _ hne ↦ hne, h.list⟩

/-- What a request writes is text that a shell takes as it is. -/
def WritesPlain (b : Build) (w : World) (r : Request) (f : Files) : Prop :=
  ∀ p args v res, Visits w r f p args v → callHook b w (delFlag args) v = some (some res) →
    res.wrote = true →
      ∀ e ∈ persisted res.proc.env, ConfKey e.key ∧ ConfVal e.val ∧ backquote ∉ e.val

/-- **One request** leaves layers of that kind. -/
theorem Saved.main {o : Outcome} (hm : Setup.main b w r f = some o) (hplain : WritesPlain b w r f)
    (ht : Tidy NetKey f L) (hs : Saved L) : ∃ L', Tidy NetKey o.files L' ∧ Saved L' := by
  obtain ⟨g, hg, hcase⟩ := files_main hm
  obtain ⟨L₁, ht₁, hs₁⟩ : ∃ L₁, Tidy NetKey g L₁ ∧ Saved L₁ := by
    rcases hcase with rfl | rfl | ⟨p, args, v, res, hv, hres, hw, rfl⟩
    · exact ⟨L, ht, hs⟩
    · exact ⟨L.save, ht.save, hs.save ht.covers⟩
    · have hlines := hplain p args v res hv hres hw
      have hwritable : Writable NetKey res.proc.env := writable_iff.2 fun e he ↦
        saveOk_of_confVal (hlines e he).1 (hlines e he).2.1
      refine ⟨_, (ht.write kept_netKey hv hres hwritable).1, hs.write fun kv hkv ↦ ?_⟩
      obtain ⟨e, he, rfl⟩ := List.mem_map.1 hkv
      obtain ⟨hkey, hval, hback⟩ := hlines e he
      have hpers := (List.mem_filter.1 he).2
      refine ⟨?_, isName_of_persistable hpers hkey.isAtom, hval, hback⟩
      simp only [Entry.persistable, Bool.and_eq_true] at hpers
      exact hpers.1.1
  rcases hg with hg | hg
  · exact ⟨L₁, hg ▸ ht₁, hs₁⟩
  · exact ⟨L₁.reset, hg ▸ ht₁.reset, hs₁.reset⟩

/-- The settings that a request finds. -/
def settings (p : Proc) (k : Bytes) : Bytes := (stored k p).getD []

end Netstart
