import SsdLinux.Setup.Main

/-!
# What the access check sees

`main` lets a request in if it was addressed to the interface that `x_openblocks_access_limit`
names, and to the port of the configuration server.  It reads the address from `HTTP_HOST`, the port
from `SERVER_PORT` and the interface from the store, all three *after* the arguments of the request
have been written, and `putval` writes every argument into the process environment too.  So a
request can choose what it is checked against.  When `HTTP_HOST` is a name, the resolver looks it
up, and reads variables of its own from the same environment.

`access_independent_iff` says which requests do not: those that use none of five names
(`accessNames`) and no variable of the resolver.  Two such requests see the same three values, from
any environment and any configuration; a request that uses one of the names sees something else in
some environment.
-/

set_option autoImplicit false

namespace Setup

open CLib

variable {w : World} {p p' : Proc}

/-! ## Two runs of `read_conf` -/

theorem val_env (h : p.env = p'.env) (s : Bytes) : val w p s = val w p' s := by
  have hname : ∀ s, valName w p s = valName w p' s := fun s ↦ by
    simp only [valName, getval, getvalp, h]
  induction s with
  | nil => exact hname []
  | cons c s ih => rw [val, val, ih, hname]

theorem qatomGo_env (h : p.env = p'.env) (n : ℕ) (s : Bytes) :
    qatomGo w p n s = qatomGo w p' n s := by
  induction n generalizing s with
  | zero => rfl
  | succ n ih =>
    cases s with
    | nil => rfl
    | cons c s => rw [qatomGo, qatomGo, ih s, ih s.tail, val_env h, ih]

/-- Reading a line looks at the store and not at the process environment. -/
theorem readConfLine_env (h : p.env = p'.env) (buf : Bytes) :
    readConfLine w p buf = readConfLine w p' buf := by
  have htok : ∀ s, tToken w p tokenSize s = tToken w p' tokenSize s := fun s ↦ by
    simp only [tToken, token, qatom, qatomGo_env h]
  simp only [readConfLine, htok]

/-- Two processes that differ in the query string, if they differ at all. -/
inductive TwoRuns (q q' : Bytes) : Proc → Proc → Prop
  | same (p : Proc) : TwoRuns q q' p p
  | query (env : List Entry) (environ : Bytes → Option Bytes) :
      TwoRuns q q' ⟨env, Function.update environ queryKey (some q)⟩
        ⟨env, Function.update environ queryKey (some q')⟩

variable {q q' : Bytes}

theorem TwoRuns.env (h : TwoRuns q q' p p') : p.env = p'.env := by
  cases h <;> rfl

theorem TwoRuns.putval (h : TwoRuns q q' p p') (k v : Bytes) (sw : BitVec 32) :
    TwoRuns q q' (Setup.putval k v sw p) (Setup.putval k v sw p') := by
  cases h with
  | same => exact .same _
  | query env environ =>
    simp only [Setup.putval, setenv]
    split_ifs with hk hs
    · exact .query env environ
    · exact .query _ environ
    · by_cases hq : k = queryKey
      · subst hq
        simp only [Function.update_idem]
        exact .same _
      · rw [Function.update_comm (Ne.symm hq), Function.update_comm (Ne.symm hq)]
        exact .query _ _

theorem TwoRuns.readConfSub (sw : BitVec 32) (file : Bytes) (h : TwoRuns q q' p p') {p1 : Proc}
    (hread : readConfSub w sw file p = some p1) :
    ∃ p1', readConfSub w sw file p' = some p1' ∧ TwoRuns q q' p1 p1' := by
  rw [Setup.readConfSub] at hread ⊢
  generalize confLines file = bufs at hread ⊢
  induction bufs generalizing p p' with
  | nil =>
    cases hread
    exact ⟨p', rfl, h⟩
  | cons buf bufs ih =>
    rw [List.foldlM_cons] at hread
    obtain ⟨p2, hstep, hread⟩ := Option.bind_eq_some_iff.mp hread
    obtain ⟨o, ho, rfl⟩ := Option.map_eq_some_iff.mp hstep
    rw [readConfLine_env h.env] at ho
    rw [List.foldlM_cons, readConfStep, ho, Option.map_some]
    cases o with
    | none => exact ih h hread
    | some kv => exact ih (h.putval kv.1 kv.2 sw) hread

theorem TwoRuns.readConf (q' : Bytes) (f : Files) (environ : Bytes → Option Bytes) {p1 : Proc}
    (hread : readConf w f (Function.update environ queryKey (some q)) = some p1) :
    ∃ p1', readConf w f (Function.update environ queryKey (some q')) = some p1' ∧
      TwoRuns q q' p1 p1' := by
  obtain ⟨p2, h2, hread⟩ := Option.bind_eq_some_iff.mp hread
  obtain ⟨p3, h3, h2⟩ := Option.bind_eq_some_iff.mp h2
  obtain ⟨p3', h3', ht⟩ := (TwoRuns.query [] environ).readConfSub 0 f.dflt h3
  obtain ⟨p2', h2', ht⟩ := ht.readConfSub 0 f.conf h2
  have hsaved : readSaved w f (Function.update environ queryKey (some q')) = some p2' := by
    rw [readSaved, h3', Option.bind_some, h2']
  rw [Setup.readConf, hsaved, Option.bind_some]
  cases hf : f.tmp with
  | none =>
    simp only [hf, Option.some.injEq] at hread
    exact ⟨p2', rfl, hread ▸ ht⟩
  | some tmp =>
    rw [hf] at hread
    exact ht.readConfSub RC_bWRITE tmp hread

/-! ## Variables of the environment -/

/-- The name of an environment variable: it begins with a capital. -/
def IsVarName (n : Bytes) : Prop := n.head?.any isupper = true ∧ equals ∉ n

instance (n : Bytes) : Decidable (IsVarName n) := inferInstanceAs (Decidable (_ ∧ _))

/-- An argument with the name of a variable is not one of the forms of a setting. -/
theorem IsVarName.argPuts_eq {n : Bytes} (hn : IsVarName n) {a : Arg} (ha : a.1 = n) :
    ∃ sw, argPuts w p a = [⟨n, a.2, sw⟩] := by
  obtain ⟨c, s, rfl⟩ : ∃ c s, n = c :: s := by
    cases n with
    | nil => exact absurd hn.1 (by decide)
    | cons c s => exact ⟨c, s, rfl⟩
  have hc : isupper c = true := hn.1
  have hj : c ≠ 106 := fun he ↦ absurd (he ▸ hc) (by decide)
  have hi : c ≠ 105 := fun he ↦ absurd (he ▸ hc) (by decide)
  rw [argPuts, ha]
  cases s with
  | nil => exact ⟨_, rfl⟩
  | cons d s =>
    simp only [if_neg hj, if_neg hi]
    split_ifs
    · exact ⟨_, rfl⟩
    · exact ⟨_, rfl⟩

/-- The other arguments do not write the variable. -/
theorem IsVarName.ne_key {n : Bytes} (hn : IsVarName n) {a : Arg} (ha : a.1 ≠ n) {q : Put}
    (hq : q ∈ argPuts w p a) : q.key ≠ n := by
  rintro rfl
  rcases (argPuts_key hq).2 with hk | ⟨s, -, hk | hk⟩
  · exact ha hk.symm
  · have hhead := hn.1
    rw [hk] at hhead
    exact absurd hhead (by simp [isupper])
  · have hhead := hn.1
    rw [hk] at hhead
    exact absurd hhead (by simp [isupper])

/-- The last value an argument of this name gives. -/
def lastArg (name : Bytes) (args : List Arg) : Option Bytes :=
  ((args.filter fun a ↦ decide (a.1 = name)).getLast?).map Prod.snd

/-- **An argument that is a variable ends up in the process environment.** -/
theorem environ_getargs {n : Bytes} (hn : IsVarName n) (args : List Arg) (p : Proc) :
    (getargs w p args).environ n = (lastArg n args).or (p.environ n) := by
  induction args generalizing p with
  | nil => rfl
  | cons a args ih =>
    rw [getargs_cons, ih, lastArg, lastArg]
    by_cases ha : a.1 = n
    · obtain ⟨sw, hputs⟩ := hn.argPuts_eq (w := w) (p := p) ha
      have hne : n ≠ [] := fun he ↦ absurd (he ▸ hn.1) (by decide)
      rw [hputs, List.filter_cons_of_pos (by simpa using ha), List.foldl_cons, List.foldl_nil,
        Put.run, putval, if_neg hne]
      simp only [setenv, if_neg (not_or.mpr ⟨hne, hn.2⟩), Function.update_self]
      cases h : args.filter fun a ↦ decide (a.1 = n) with
      | nil => rfl
      | cons b l => simp [List.getLast?_cons]
    · rw [List.filter_cons_of_neg (by simpa using ha), environ_foldl_of_not_mem]
      exact fun q hq ↦ hn.ne_key ha hq

theorem lastArg_eq_none {name : Bytes} {args : List Arg} (h : ∀ a ∈ args, a.1 ≠ name) :
    lastArg name args = none := by
  rw [lastArg, List.filter_eq_nil_iff.mpr fun a ha ↦ by simpa using h a ha]
  rfl

theorem exists_lastArg {name : Bytes} {args : List Arg} {a : Arg} (ha : a ∈ args)
    (hname : a.1 = name) : ∃ v, lastArg name args = some v := by
  have hne : args.filter (fun a ↦ decide (a.1 = name)) ≠ [] :=
    List.ne_nil_of_mem (List.mem_filter.mpr ⟨ha, by simpa using hname⟩)
  exact ⟨_, by rw [lastArg, List.getLast?_eq_some_getLast hne, Option.map_some]⟩

/-! ## The names that matter -/

/-- The argument names that reach one of the three values directly. -/
def accessNames : List Bytes :=
  [cstr "HTTP_HOST", cstr "SERVER_PORT", limitKey, cstr "i_openblocks_access_limit",
    cstr "j_openblocks_access_limit"]

/-- The arguments leave the three values alone, and what the resolver reads. -/
def AccessFree (w : World) (args : List Arg) : Prop :=
  ∀ a ∈ args, a.1 ∉ accessNames ++ w.resolverNames

instance (args : List Arg) : Decidable (AccessFree w args) :=
  inferInstanceAs (Decidable (∀ a ∈ args, _))

/-- What is known of the resolver: its variables have names in capitals, other than those of the web
server, and each of them makes a difference to the address of some host. -/
structure Resolves (w : World) : Prop where
  isVarName : ∀ n ∈ w.resolverNames, IsVarName n
  disjoint : ∀ n ∈ [cstr "HTTP_HOST", cstr "SERVER_PORT", queryKey], n ∉ w.resolverNames
  counts : ∀ n ∈ w.resolverNames, ∃ environ o host, w.inetAddr host = false ∧
    w.hostAddr (w.resolverNames.map (Function.update environ n o)) host
      ≠ w.hostAddr (w.resolverNames.map environ) host

theorem serverAddr_congr {environ environ' : Bytes → Option Bytes}
    (hhost : environ (cstr "HTTP_HOST") = environ' (cstr "HTTP_HOST"))
    (hres : ∀ n ∈ w.resolverNames, environ n = environ' n) :
    serverAddr w environ = serverAddr w environ' := by
  simp only [serverAddr, hhost, List.map_congr_left hres]

theorem accessView_congr (hhost : p.environ (cstr "HTTP_HOST") = p'.environ (cstr "HTTP_HOST"))
    (hport : p.environ (cstr "SERVER_PORT") = p'.environ (cstr "SERVER_PORT"))
    (hres : ∀ n ∈ w.resolverNames, p.environ n = p'.environ n)
    (hlimit : getvalp limitKey p = getvalp limitKey p') : accessView w p = accessView w p' := by
  simp only [accessView, serverAddr_congr hhost hres, serverPort, getval, hport, hlimit]

/-- Arguments with none of the names do not write the name of the interface. -/
theorem AccessFree.puts {args : List Arg} (h : AccessFree w args) :
    ∀ q ∈ argsPuts w p args, q.key ≠ limitKey := by
  refine argsPuts_induct fun a ha p q hq he ↦ ?_
  have hname := h a ha
  simp only [accessNames, List.mem_append, List.mem_cons, List.not_mem_nil, or_false,
    not_or] at hname
  obtain ⟨-, -, h3, h4, h5⟩ := hname.1
  rcases (argPuts_key hq).2 with hk | ⟨s, hs, hk⟩
  · exact h3 (hk.symm.trans he)
  · rw [he] at hk
    have htail : limitKey.tail = underscore :: s := by
      rcases hk with hk | hk <;> rw [hk] <;> rfl
    have hi : cstr "i_openblocks_access_limit" = 105 :: limitKey.tail := by decide
    have hj : cstr "j_openblocks_access_limit" = 106 :: limitKey.tail := by decide
    rw [htail] at hi hj
    rcases hs with hs | hs
    · exact h4 (hs.trans hi.symm)
    · exact h5 (hs.trans hj.symm)

theorem accessView_getargs (hw : Resolves w) {args : List Arg} (h : AccessFree w args) :
    accessView w (getargs w p args) = accessView w p := by
  have henv : ∀ n ∈ accessNames ++ w.resolverNames, IsVarName n →
      (getargs w p args).environ n = p.environ n := fun n hn hvar ↦ by
    rw [environ_getargs hvar, lastArg_eq_none fun a ha he ↦ h a ha (he ▸ hn), Option.none_or]
  refine accessView_congr ?_ ?_ (fun n hn ↦ ?_) (getvalp_foldl_of_not_mem h.puts p)
  · exact henv _ (List.mem_append_left _ (by decide)) (by decide)
  · exact henv _ (List.mem_append_left _ (by decide)) (by decide)
  · exact henv n (List.mem_append_right _ hn) (hw.isVarName n hn)

/-! ## Requests by their query string -/

/-- A query string that is read as these arguments. -/
structure IsQuery (q : Bytes) (args : List Arg) : Prop where
  ne_nil : q ≠ []
  length_le : q.length ≤ 1024
  args : decodeArgs q [] = some args

theorem argText_query {environ : Bytes → Option Bytes} {args : List Arg} (h : IsQuery q args)
    (henv : environ queryKey = some q) (stdin : Bytes) :
    argText environ stdin = some (.text q []) := by
  rw [argText, getenvText, henv, Option.filter_some, if_pos (by simpa using h.ne_nil)]
  simp only [if_neg (Nat.not_lt.mpr h.length_le)]

/-- **Two requests that leave the three values alone see the same ones.** -/
theorem mainView_eq_of_free (hw : Resolves w) {args args' : List Arg} (hq : IsQuery q args)
    (hq' : IsQuery q' args') (h : AccessFree w args) (h' : AccessFree w args')
    (environ : Bytes → Option Bytes) (stdin : Bytes) (f : Files) :
    mainView w (query environ stdin q) f = mainView w (query environ stdin q') f := by
  simp only [mainView, readRequest, query]
  cases hr : readConf w f (Function.update environ queryKey (some q)) with
  | none =>
    cases hr' : readConf w f (Function.update environ queryKey (some q')) with
    | none => rfl
    | some p' =>
      obtain ⟨p, hp, -⟩ := TwoRuns.readConf q f environ hr'
      rw [hr] at hp
      cases hp
  | some p =>
    obtain ⟨p', hr', ht⟩ := TwoRuns.readConf q' f environ hr
    rw [hr']
    cases ht with
    | same => rfl
    | query env environ' =>
      rw [Option.bind_some, Option.bind_some, argText_query hq (Function.update_self ..),
        argText_query hq' (Function.update_self ..)]
      simp only [Option.bind_some, hq.args, hq'.args, Option.map_some, accessView_getargs hw h,
        accessView_getargs hw h']
      have hne : ∀ n, n ≠ queryKey → Function.update environ' queryKey (some q) n
          = Function.update environ' queryKey (some q') n := fun n hn ↦ by
        rw [Function.update_of_ne hn, Function.update_of_ne hn]
      refine accessView_congr ?_ ?_ (fun n hn ↦ ?_) rfl
      · exact hne (cstr "HTTP_HOST") (by decide)
      · exact hne (cstr "SERVER_PORT") (by decide)
      · exact hne n fun he ↦ hw.disjoint queryKey (by decide) (he ▸ hn)

/-! ## What an argument for a setting can do -/

theorem getvalp_foldl_ne_none {k : Bytes} (qs : List Put) (h : getvalp k p ≠ none) :
    getvalp k (qs.foldl Put.run p) ≠ none := by
  induction qs generalizing p with
  | nil => exact h
  | cons q qs ih => exact ih (getvalp_run_ne_none h q)

/-- A setting that is written is in the store. -/
theorem getvalp_foldl_of_mem {k : Bytes} (hk : k ≠ []) {qs : List Put} {q : Put} (hq : q ∈ qs)
    (he : q.key = k) (p : Proc) : getvalp k (qs.foldl Put.run p) ≠ none := by
  induction qs generalizing p with
  | nil => simp at hq
  | cons r qs ih =>
    rcases List.mem_cons.mp hq with rfl | hq
    · refine getvalp_foldl_ne_none qs ?_
      rw [Put.run, he, getvalp_putval_self hk]
      exact Option.some_ne_none _
    · exact ih hq _

/-- Each of the three forms of an argument leaves its setting in the store, if the argument that was
posted is not there without it. -/
theorem getvalp_argPuts {d : UInt8} {s : Bytes} (hd : d = underscore) {a : Arg}
    (ha : a.1 = 120 :: d :: s ∨ a.1 = 105 :: d :: s ∨ a.1 = 106 :: d :: s)
    (hi : getvalp (105 :: d :: s) p ≠ none → getvalp (120 :: d :: s) p ≠ none) :
    getvalp (120 :: d :: s) ((argPuts w p a).foldl Put.run p) ≠ none := by
  subst hd
  have hne : (120 :: underscore :: s : Bytes) ≠ [] := List.cons_ne_nil _ _
  have hclock : (105 :: underscore :: s : Bytes) ∉ clockKeys := fun hm ↦ by
    have hhead : ∀ k ∈ clockKeys, k.head? = some 120 := by decide
    exact absurd (hhead _ hm) (by simp)
  rcases ha with ha | ha | ha
  · exact getvalp_foldl_of_mem hne (q := ⟨_, a.2, RC_bWRITE⟩) (by simp [argPuts, ha]) rfl p
  · exact getvalp_foldl_of_mem hne (q := ⟨_, a.2, RC_bWRITE⟩) (by simp [argPuts, ha]) rfl p
  · by_cases hn : getval w (105 :: underscore :: s) p = none
    · exact getvalp_foldl_of_mem hne (q := ⟨_, a.2, RC_bWRITE⟩) (by simp [argPuts, ha, hn]) rfl p
    · rw [getval_eq hclock, Option.map_eq_none_iff] at hn
      exact getvalp_foldl_ne_none _ (hi hn)

/-- **An argument for a setting, in any of its forms, leaves the setting in the store.** -/
theorem getvalp_getargs {d : UInt8} {s : Bytes} (hd : d = underscore) (args : List Arg)
    (hi : getvalp (105 :: d :: s) p ≠ none → getvalp (120 :: d :: s) p ≠ none)
    (h : getvalp (120 :: d :: s) p ≠ none ∨
      ∃ a ∈ args, a.1 = 120 :: d :: s ∨ a.1 = 105 :: d :: s ∨ a.1 = 106 :: d :: s) :
    getvalp (120 :: d :: s) (getargs w p args) ≠ none := by
  induction args generalizing p with
  | nil => simpa using h
  | cons a args ih =>
    rw [getargs_cons]
    by_cases ha : a.1 = 120 :: d :: s ∨ a.1 = 105 :: d :: s ∨ a.1 = 106 :: d :: s
    · have hx := getvalp_argPuts (w := w) hd ha hi
      exact ih (fun _ ↦ hx) (.inl hx)
    · refine ih ?_ ?_
      · intro hn
        refine getvalp_foldl_ne_none _ (hi ?_)
        rwa [getvalp_foldl_of_not_mem fun q hq he ↦ ?_] at hn
        rcases (argPuts_key hq).2 with hk | ⟨t, ht, hk⟩
        · exact ha (.inr (.inl (hk.symm.trans he)))
        · refine ha (.inr ?_)
          have hst : underscore :: t = d :: s := by
            rcases hk with hk | hk <;> rw [he] at hk <;> simp_all
          rcases ht with ht | ht
          · exact .inl (ht.trans (by rw [hst]))
          · exact .inr (ht.trans (by rw [hst]))
      · rcases h with h | ⟨b, hb, hname⟩
        · exact .inl (getvalp_foldl_ne_none _ h)
        · rcases List.mem_cons.mp hb with rfl | hb
          · exact absurd hname ha
          · exact .inr ⟨b, hb, hname⟩

/-! ## Who sees what -/

/-- No files, and so no settings. -/
def noFiles : Files := ⟨[], [], none⟩

theorem mainView_noFiles {args : List Arg} (hq : IsQuery q args) (environ : Bytes → Option Bytes)
    (stdin : Bytes) : mainView w (query environ stdin q) noFiles
      = accessView w (getargs w ⟨[], Function.update environ queryKey (some q)⟩ args) := by
  have hconf : readConf w noFiles (query environ stdin q).environ
      = some ⟨[], Function.update environ queryKey (some q)⟩ := rfl
  rw [mainView, readRequest, hconf, Option.bind_some, argText_query hq (Function.update_self ..)]
  simp only [Option.bind_some, hq.args, Option.map_some]

/-- A request with nothing to say about the three values. -/
abbrev plainQuery : Bytes := cstr "op=system"

theorem isQuery_plainQuery : IsQuery plainQuery [(cstr "op", cstr "system")] :=
  ⟨by decide, by decide, by decide +kernel⟩

theorem accessFree_plainQuery (hw : Resolves w) : AccessFree w [(cstr "op", cstr "system")] := by
  intro a ha hmem
  obtain rfl := List.mem_singleton.mp ha
  rcases List.mem_append.mp hmem with hmem | hmem
  · exact absurd hmem (by decide)
  · exact absurd (hw.isVarName _ hmem) (by decide)

/-- The view of a request does not depend on what the request says: it is the one of every request
that leaves the three values alone, whatever the environment and the configuration. -/
def AccessIndependent (w : World) (q : Bytes) : Prop :=
  ∀ q' args', IsQuery q' args' → AccessFree w args' → ∀ environ stdin f,
    mainView w (query environ stdin q) f = mainView w (query environ stdin q') f

/-- Without any files an independent request sees what the environment says. -/
theorem AccessIndependent.accessView_eq (hw : Resolves w) {args : List Arg} (hq : IsQuery q args)
    (h : AccessIndependent w q) (environ : Bytes → Option Bytes) :
    accessView w (getargs w ⟨[], Function.update environ queryKey (some q)⟩ args)
      = accessView w ⟨[], environ⟩ := by
  have hne : ∀ n, n ≠ queryKey →
      Function.update environ queryKey (some plainQuery) n = environ n := fun n hn ↦
    Function.update_of_ne hn _ _
  rw [← mainView_noFiles hq environ [],
    h _ _ isQuery_plainQuery (accessFree_plainQuery hw) environ [] noFiles,
    mainView_noFiles isQuery_plainQuery, accessView_getargs hw (accessFree_plainQuery hw)]
  refine accessView_congr ?_ ?_ (fun n hn ↦ ?_) rfl
  · exact hne (cstr "HTTP_HOST") (by decide)
  · exact hne (cstr "SERVER_PORT") (by decide)
  · exact hne n fun he ↦ hw.disjoint queryKey (by decide) (he ▸ hn)

/-- What a server sees that is addressed by number. -/
theorem accessView_serverEnv {host port : Bytes} (h : w.inetAddr host = true) :
    accessView w ⟨[], serverEnv host port⟩
      = some ⟨host, ((scanInt port).map Prod.fst).getD 0, none⟩ := by
  simp only [accessView, serverAddr, serverPort, serverEnv, if_pos,
    if_neg (show cstr "SERVER_PORT" ≠ cstr "HTTP_HOST" by decide), Option.bind_some, h,
    Option.map_some]
  rfl

theorem accessView_eq_some {v : AccessView} (h : accessView w p = some v) :
    serverPort p.environ = some v.port ∧ getval w limitKey p = v.limit := by
  obtain ⟨addr, -, h⟩ := Option.bind_eq_some_iff.mp h
  obtain ⟨port, hport, rfl⟩ := Option.map_eq_some_iff.mp h
  exact ⟨hport, rfl⟩

/-- The address is what is seen, if there is a port. -/
theorem accessView_map_addr {s : Bytes} (h : p.environ (cstr "SERVER_PORT") = some s) :
    (accessView w p).map AccessView.addr = serverAddr w p.environ := by
  rw [accessView, serverPort, h]
  cases serverAddr w p.environ <;> rfl

/-- An argument with the name of a variable hides what the variable was. -/
theorem environ_getargs_congr {n : Bytes} (hn : IsVarName n) {args : List Arg}
    (h : (∃ a ∈ args, a.1 = n) ∨ p.environ n = p'.environ n) :
    (getargs w p args).environ n = (getargs w p' args).environ n := by
  rw [environ_getargs hn, environ_getargs hn]
  rcases h with ⟨a, ha, hname⟩ | h
  · obtain ⟨v, hv⟩ := exists_lastArg ha hname
    rw [hv, Option.some_or, Option.some_or]
  · rw [h]

namespace AccessIndependent

variable {args : List Arg}

/-- An independent request leaves the address as the environment has it. -/
theorem serverAddr_getargs (h : AccessIndependent w q) (hw : Resolves w) (hq : IsQuery q args)
    {environ : Bytes → Option Bytes} {s : Bytes} (hport : environ (cstr "SERVER_PORT") = some s) :
    serverAddr w (getargs w ⟨[], Function.update environ queryKey (some q)⟩ args).environ
      = serverAddr w environ := by
  obtain ⟨s', hs'⟩ : ∃ s', (getargs w ⟨[], Function.update environ queryKey (some q)⟩ args).environ
      (cstr "SERVER_PORT") = some s' := by
    rw [environ_getargs (by decide)]
    dsimp only
    rw [Function.update_of_ne (by decide), hport]
    cases lastArg (cstr "SERVER_PORT") args with
    | none => exact ⟨s, rfl⟩
    | some v => exact ⟨v, rfl⟩
  rw [← accessView_map_addr hs', h.accessView_eq hw hq, accessView_map_addr hport]

/-- Two environments that differ in what an independent request hides give the same address. -/
theorem serverAddr_eq (h : AccessIndependent w q) (hw : Resolves w) (hq : IsQuery q args)
    {environ environ' : Bytes → Option Bytes} {s s' : Bytes}
    (hport : environ (cstr "SERVER_PORT") = some s)
    (hport' : environ' (cstr "SERVER_PORT") = some s')
    (hsame : ∀ n ∈ cstr "HTTP_HOST" :: w.resolverNames,
      (∃ a ∈ args, a.1 = n) ∨ environ n = environ' n) :
    serverAddr w environ = serverAddr w environ' := by
  have hget : ∀ n ∈ cstr "HTTP_HOST" :: w.resolverNames, IsVarName n →
      (getargs w ⟨[], Function.update environ queryKey (some q)⟩ args).environ n
        = (getargs w ⟨[], Function.update environ' queryKey (some q)⟩ args).environ n :=
    fun n hn hvar ↦ environ_getargs_congr hvar ((hsame n hn).imp_right fun he ↦ by
      dsimp only
      rw [Function.update_apply, Function.update_apply, he])
  rw [← h.serverAddr_getargs hw hq hport, ← h.serverAddr_getargs hw hq hport']
  exact serverAddr_congr (hget _ List.mem_cons_self (by decide)) fun n hn ↦
    hget n (List.mem_cons_of_mem _ hn) (hw.isVarName n hn)

theorem ne_host (h : AccessIndependent w q) (hw : Resolves w)
    (hinet : ∃ a b, a ≠ b ∧ w.inetAddr a = true ∧ w.inetAddr b = true) (hq : IsQuery q args) :
    ∀ a ∈ args, a.1 ≠ cstr "HTTP_HOST" := by
  intro a ha hname
  obtain ⟨h1, h2, hne, hh1, hh2⟩ := hinet
  have hview : ∀ host, w.inetAddr host = true →
      serverAddr w (serverEnv host (cstr "880")) = some host := fun host hh ↦ by
    rw [serverAddr, serverEnv, if_pos rfl, Option.bind_some, if_pos hh]
  have heq : serverAddr w (serverEnv h1 (cstr "880"))
      = serverAddr w (serverEnv h2 (cstr "880")) := by
    refine h.serverAddr_eq hw hq rfl rfl fun n hn ↦ ?_
    rcases List.mem_cons.mp hn with rfl | hn
    · exact .inl ⟨a, ha, hname⟩
    · have hhost : n ≠ cstr "HTTP_HOST" := fun he ↦ hw.disjoint _ (by decide) (he ▸ hn)
      exact .inr (by rw [serverEnv, serverEnv, if_neg hhost, if_neg hhost])
  rw [hview h1 hh1, hview h2 hh2] at heq
  exact hne (Option.some.inj heq)

/-- A variable of the resolver makes a difference to some host. -/
theorem ne_resolver (h : AccessIndependent w q) (hw : Resolves w) (hq : IsQuery q args) :
    ∀ a ∈ args, a.1 ∉ w.resolverNames := by
  intro a ha hn
  obtain ⟨environ, o, host, hinet, hne⟩ := hw.counts _ hn
  have hvars : ∀ n ∈ w.resolverNames, n ≠ cstr "HTTP_HOST" ∧ n ≠ cstr "SERVER_PORT" :=
    fun n hn ↦ ⟨fun he ↦ hw.disjoint _ (by decide) (he ▸ hn),
      fun he ↦ hw.disjoint _ (by decide) (he ▸ hn)⟩
  -- the same server, with the variables of the resolver from one of the two environments
  have haddr : ∀ e : Bytes → Option Bytes, serverAddr w (Function.update
      (Function.update e (cstr "HTTP_HOST") (some host)) (cstr "SERVER_PORT") (some (cstr "880")))
        = w.hostAddr (w.resolverNames.map e) host := fun e ↦ by
    rw [serverAddr, Function.update_of_ne (by decide), Function.update_self, Option.bind_some,
      if_neg (by simp [hinet]), List.map_congr_left fun n hn ↦ ?_]
    rw [Function.update_of_ne (hvars n hn).2, Function.update_of_ne (hvars n hn).1]
  refine hne ?_
  rw [← haddr, ← haddr]
  refine h.serverAddr_eq hw hq (Function.update_self ..) (Function.update_self ..) fun n hn' ↦ ?_
  by_cases he : a.1 = n
  · exact .inl ⟨a, ha, he⟩
  · refine .inr ?_
    simp only [Function.update_apply, if_neg (Ne.symm he)]

theorem ne_port (h : AccessIndependent w q) (hw : Resolves w)
    (hinet : ∃ a, w.inetAddr a = true) (hq : IsQuery q args) :
    ∀ a ∈ args, a.1 ≠ cstr "SERVER_PORT" := by
  intro a ha hname
  obtain ⟨host, hh⟩ := hinet
  have hview : ∀ port, serverPort
      (getargs w ⟨[], Function.update (serverEnv host port) queryKey (some q)⟩ args).environ
        = some (((scanInt port).map Prod.fst).getD 0) := fun port ↦
    (accessView_eq_some ((h.accessView_eq hw hq _).trans (accessView_serverEnv hh))).1
  have heq := hview (cstr "880")
  rw [serverPort, environ_getargs_congr (by decide) (.inl ⟨a, ha, hname⟩), ← serverPort,
    hview (cstr "80")] at heq
  have hports : ((scanInt (cstr "80")).map Prod.fst).getD 0
      = ((scanInt (cstr "880")).map Prod.fst).getD 0 := Option.some.inj heq
  exact absurd hports (by decide)

theorem ne_limit (h : AccessIndependent w q) (hw : Resolves w)
    (hinet : ∃ a, w.inetAddr a = true) (hq : IsQuery q args) :
    ∀ a ∈ args, ¬ (a.1 = limitKey ∨ a.1 = cstr "i_openblocks_access_limit" ∨
      a.1 = cstr "j_openblocks_access_limit") := by
  intro a ha hname
  obtain ⟨host, hh⟩ := hinet
  have hview := (h.accessView_eq hw hq (serverEnv host [])).trans (accessView_serverEnv hh)
  have hlimit := (accessView_eq_some hview).2
  rw [getval_eq (by decide), Option.map_eq_none_iff] at hlimit
  exact getvalp_getargs (s := cstr "openblocks_access_limit") rfl args (fun h ↦ absurd rfl h)
    (.inr ⟨a, ha, hname⟩) hlimit

end AccessIndependent

/-- **The access check is independent of exactly the requests that use none of the five names, and
no variable of the resolver.** -/
theorem access_independent_iff (hw : Resolves w)
    (hinet : ∃ a b, a ≠ b ∧ w.inetAddr a = true ∧ w.inetAddr b = true) {args : List Arg}
    (hq : IsQuery q args) : AccessIndependent w q ↔ AccessFree w args := by
  constructor
  · intro h a ha hmem
    have hinet' : ∃ a, w.inetAddr a = true := by
      obtain ⟨b, -, -, hb, -⟩ := hinet
      exact ⟨b, hb⟩
    rcases List.mem_append.mp hmem with hname | hname
    · simp only [accessNames, List.mem_cons, List.not_mem_nil, or_false] at hname
      rcases hname with hname | hname | hname
      · exact h.ne_host hw hinet hq a ha hname
      · exact h.ne_port hw hinet' hq a ha hname
      · exact h.ne_limit hw hinet' hq a ha hname
    · exact h.ne_resolver hw hq a ha hname
  · exact fun h q' args' hq' h' environ stdin f ↦ mainView_eq_of_free hw hq hq' h h' environ stdin f

/-- What each of the variables does to the address of the host `gate`. -/
theorem resolves_box : Resolves World.box where
  isVarName := by decide
  disjoint := by decide
  counts := by
    have hnames : World.box.resolverNames
        = [cstr "LOCALDOMAIN", cstr "RES_OPTIONS", cstr "HOSTALIASES"] := rfl
    rw [hnames]
    intro n hn
    simp only [List.mem_cons, List.not_mem_nil, or_false] at hn
    rcases hn with rfl | rfl | rfl
    · exact ⟨fun _ ↦ none, some (cstr "inside.jp"), cstr "gate", by decide, by decide⟩
    · exact ⟨fun _ ↦ none, some (cstr "ndots:0"), cstr "gate", by decide, by decide⟩
    · exact ⟨fun _ ↦ none, some (cstr "/home/aliases"), cstr "gate", by decide, by decide⟩

theorem plainQuery_independent : AccessIndependent World.box plainQuery ↔
    AccessFree World.box [(cstr "op", cstr "system")] :=
  access_independent_iff resolves_box ⟨insideAddr, outsideAddr, by decide, by decide, by decide⟩
    isQuery_plainQuery

/-- A request that gives another address for itself. -/
abbrev spoofQuery : Bytes := cstr "op=system&HTTP_HOST=192.168.0.254"

/-- From the outside, naming the inside address in an argument gets past the access check. -/
theorem spoofQuery_not_denied :
    (mainView World.box (query (serverEnv outsideAddr (cstr "880")) [] plainQuery)
      boxFiles).bind (AccessView.denied World.box) = some true ∧
    (mainView World.box (query (serverEnv outsideAddr (cstr "880")) [] spoofQuery)
      boxFiles).bind (AccessView.denied World.box) = some false ∧
    mainView World.box (query (serverEnv outsideAddr (cstr "880")) [] plainQuery) boxFiles ≠
      mainView World.box (query (serverEnv outsideAddr (cstr "880")) [] spoofQuery)
        boxFiles := by
  decide +kernel

end Setup
