import SsdLinux.Sysinst.Ip
import SsdLinux.Sysinst.Menu

/-!
# `sysinst`: the settings of the network

`set_network` lets the user enter the settings one by one, in any order.  After each command it
fills in those that follow from the address: the mask that goes with its class, and the broadcast.

* Only a setting that is still empty is filled in, so that what followed from the first address
  stays when another one or a mask is entered.
* The mask and the broadcast are not cleared at the beginning.  They begin with what the structure
  holds, where a NUL is taken to end it within the array.
* A text that does not fit into its array, and an end of the input before an `x`, leave the run
  without a result.

`setNetwork_eq` says that the session is the commands that are read, one after the other, and
`netAfter_eq` what some commands with well-formed answers come to.  With it, `network_iff` is the
condition for the settings to agree after each of them.
-/

set_option autoImplicit false

namespace Sysinst

open CLib

def MAXHOSTNAMELEN : ℕ := 64

/-! ## The commands -/

/-- `struct net_t`: the strings in it. -/
structure Net where
  hostname : Bytes
  domain : Bytes
  ip : Bytes
  mask : Bytes
  cast : Bytes
  route : Bytes
  dns : Bytes
deriving DecidableEq

/-- A command, and the answer to it. -/
inductive NetCmd
  | hostname (s : Bytes)
  | domain (s : Bytes)
  | ip (s : Bytes)
  | mask (s : Bytes)
  | cast (s : Bytes)
  | route (s : Bytes)
  | dns (s : Bytes)
  | illegal
deriving DecidableEq

/-- The next command, or `none` for an `x`. -/
def readNetCmd (signed : Bool) (input : Bytes) : Option (Option NetCmd × Bytes) :=
  (getanswer signed input).bind fun (i, rest) ↦
    let enter (n : ℕ) (f : Bytes → NetCmd) : Option (Option NetCmd × Bytes) :=
      (fgets n rest).map fun (buf, rest) ↦ (some (f (chop buf)), rest)
    if i = 120 then some (none, rest)
    else if i = 48 then enter (MAXHOSTNAMELEN - 1) .hostname
    else if i = 49 then enter (MAXHOSTNAMELEN - 1) .domain
    else if i = 50 then enter 8191 .ip
    else if i = 51 then enter 8191 .mask
    else if i = 52 then enter 8191 .cast
    else if i = 53 then enter 8191 .route
    else if i = 54 then enter 8191 .dns
    else some (some .illegal, rest)

/-- What the answer is copied to. -/
def NetCmd.enter (net : Net) : NetCmd → Option Net
  | hostname s => if s.length < MAXHOSTNAMELEN then some { net with hostname := s } else none
  | domain s => if s.length < MAXHOSTNAMELEN then some { net with domain := s } else none
  | ip s => if s.length < IPADDRESSLEN then some { net with ip := s } else none
  | mask s => if s.length < IPADDRESSLEN then some { net with mask := s } else none
  | cast s => if s.length < IPADDRESSLEN then some { net with cast := s } else none
  | route s => if s.length < IPADDRESSLEN then some { net with route := s } else none
  | dns s => if s.length < IPADDRESSLEN then some { net with dns := s } else none
  | illegal => some net

/-- The variable `mask`, which begins with anything. -/
def maskOf (p : BitVec 32) : Option (BitVec 32) :=
  let q := (p >>> 30) &&& 0x3#32
  let mask := if (q >>> 1) &&& 0x1#32 = 0 then some 0xff000000#32 else none
  let mask := if q ^^^ 0x2#32 = 0 then some 0xffff0000#32 else mask
  if q ^^^ 0x3#32 = 0 then some 0xffffff00#32 else mask

/-- What follows from the address. -/
def Net.fill (net : Net) : Option Net :=
  if net.ip = [] then some net
  else
    (ip2int net.ip).bind fun p ↦
    (maskOf p).map fun mask ↦
      { net with
        route := if net.route = [] then net.ip else net.route
        mask := if net.mask = [] then ip2char mask else net.mask
        cast := if net.cast = [] then ip2char (p ||| ~~~mask) else net.cast }

/-- A round of the loop after the command has been read. -/
def NetCmd.run (net : Net) (cmd : NetCmd) : Option Net := (cmd.enter net).bind Net.fill

/-- The loop.  The number bounds the rounds, each of which takes something of the input. -/
def networkGo (signed : Bool) : ℕ → Net → Bytes → Option (Net × Bytes)
  | 0, _, _ => none
  | n + 1, net, input =>
    match readNetCmd signed input with
    | none => none
    | some (none, rest) => some (net, rest)
    | some (some cmd, rest) => (cmd.run net).bind fun net ↦ networkGo signed n net rest

/-- What is cleared at the beginning. -/
def Net.clear (net : Net) : Net :=
  { net with hostname := [], domain := [], ip := [], route := [], dns := [] }

/-- `set_network`, and the rest of the input. -/
def setNetwork (signed : Bool) (net : Net) (input : Bytes) : Option (Net × Bytes) :=
  networkGo signed (input.length + 1) net.clear input

/-! ## A session as its commands -/

def netCmdsGo (signed : Bool) : ℕ → Bytes → Option (List NetCmd × Bytes)
  | 0, _ => none
  | n + 1, input =>
    match readNetCmd signed input with
    | none => none
    | some (none, rest) => some ([], rest)
    | some (some cmd, rest) =>
      (netCmdsGo signed n rest).map fun (cmds, rest) ↦ (cmd :: cmds, rest)

/-- The commands up to the `x`, and the rest of the input. -/
def netCmds (signed : Bool) (input : Bytes) : Option (List NetCmd × Bytes) :=
  netCmdsGo signed (input.length + 1) input

/-- What some commands come to. -/
def runCmds (net : Net) (cmds : List NetCmd) : Option Net := cmds.foldlM NetCmd.run net

theorem networkGo_eq (signed : Bool) (n : ℕ) (net : Net) (input : Bytes) :
    networkGo signed n net input = (netCmdsGo signed n input).bind fun (cmds, rest) ↦
      (runCmds net cmds).map fun net ↦ (net, rest) := by
  induction n generalizing net input with
  | zero => rfl
  | succ n ih =>
    rw [networkGo, netCmdsGo]
    rcases readNetCmd signed input with _ | ⟨_ | cmd, rest⟩
    · rfl
    · rfl
    · dsimp only
      simp only [ih, Option.bind_map]
      rcases netCmdsGo signed n rest with _ | ⟨cmds, rest'⟩
      · simp
      · rcases hrun : cmd.run net with _ | net'
        · simp [runCmds, hrun]
        · simp [runCmds, hrun]

/-- **A session is its commands, one after the other.** -/
theorem setNetwork_eq (signed : Bool) (net : Net) (input : Bytes) :
    setNetwork signed net input = (netCmds signed input).bind fun (cmds, rest) ↦
      (runCmds net.clear cmds).map fun net ↦ (net, rest) :=
  networkGo_eq signed _ _ input

/-! ## The mask of a class -/

/-- The mask of a class A, B or C address. -/
def classMask (p : BitVec 32) : BitVec 32 :=
  if p.toNat < 2 ^ 31 then 0xff000000#32
  else if p.toNat < 3 * 2 ^ 30 then 0xffff0000#32
  else 0xffffff00#32

theorem maskOf_eq (p : BitVec 32) : maskOf p = some (classMask p) := by
  have hlt := p.isLt
  have hq : (p >>> 30) &&& 0x3#32 = BitVec.ofNat 32 (p.toNat / 2 ^ 30) := by
    refine BitVec.eq_of_toNat_eq ?_
    rw [BitVec.toNat_and, BitVec.toNat_ushiftRight, BitVec.toNat_ofNat, BitVec.toNat_ofNat,
      Nat.shiftRight_eq_div_pow]
    exact (Nat.and_two_pow_sub_one_eq_mod _ 2).trans (by omega)
  have h4 : p.toNat / 2 ^ 30 < 4 := by omega
  rw [maskOf, hq]
  rcases hk : p.toNat / 2 ^ 30 with _ | _ | _ | _ | k
  · rw [show classMask p = 0xff000000#32 from if_pos (by omega)]
    rfl
  · rw [show classMask p = 0xff000000#32 from if_pos (by omega)]
    rfl
  · rw [show classMask p = 0xffff0000#32 from (if_neg (by omega)).trans (if_pos (by omega))]
    rfl
  · rw [show classMask p = 0xffffff00#32 from (if_neg (by omega)).trans (if_neg (by omega))]
    rfl
  · omega

/-! ## Commands with well-formed answers -/

/-- A command with a well-formed answer, which does not set the broadcast. -/
inductive Answered
  | hostname (s : Bytes) (h : s.length < MAXHOSTNAMELEN)
  | domain (s : Bytes) (h : s.length < MAXHOSTNAMELEN)
  | ip (q : Quad)
  | mask (q : Quad)
  | route (q : Quad)
  | dns (q : Quad)
  | illegal

def Answered.cmd : Answered → NetCmd
  | hostname s _ => .hostname s
  | domain s _ => .domain s
  | ip q => .ip q.text
  | mask q => .mask q.text
  | route q => .route q.text
  | dns q => .dns q.text
  | illegal => .illegal

def Answered.ip? : Answered → Option Quad
  | ip q => some q
  | _ => none

def Answered.mask? : Answered → Option Quad
  | mask q => some q
  | _ => none

/-- The addresses that are entered. -/
def ips (es : List Answered) : List Quad := es.filterMap Answered.ip?

/-- The masks that are entered. -/
def masks (es : List Answered) : List Quad := es.filterMap Answered.mask?

/-- The settings after some commands. -/
def netAfter (net : Net) (es : List Answered) : Option Net :=
  runCmds net.clear (es.map Answered.cmd)

variable {net : Net} {es : List Answered} {e : Answered}

/-- **A session with well-formed answers.** -/
theorem setNetwork_answered {signed : Bool} {input rest : Bytes}
    (h : netCmds signed input = some (es.map Answered.cmd, rest)) :
    setNetwork signed net input = (netAfter net es).map fun net ↦ (net, rest) := by
  rw [setNetwork_eq, h, Option.bind_some]
  rfl

theorem netAfter_concat (net : Net) (es : List Answered) (e : Answered) :
    netAfter net (es ++ [e]) = (netAfter net es).bind fun net ↦ e.cmd.run net := by
  simp [netAfter, runCmds]

theorem length_quad_text (q : Quad) : q.text.length < IPADDRESSLEN := by
  have h0 := (q 0).length_le
  have h1 := (q 1).length_le
  have h2 := (q 2).length_le
  have h3 := (q 3).length_le
  simp only [quad_text_eq, fourDotted, List.length_append, List.length_cons, IPADDRESSLEN]
  omega

/-! ## What they come to -/

/-- What is in the mask. -/
def currentMask (net : Net) (es : List Answered) : Bytes :=
  match (masks es).getLast? with
  | some q => q.text
  | none =>
    if net.mask = [] then (ips es).head?.elim [] fun q ↦ ip2char (classMask (quadBits q))
    else net.mask

/-- What is in the broadcast. -/
def currentCast (net : Net) (es : List Answered) : Bytes :=
  if net.cast = [] then
    (ips es).head?.elim [] fun q ↦ ip2char (quadBits q ||| ~~~classMask (quadBits q))
  else net.cast

/-- The settings after some commands. -/
structure IsAfter (net : Net) (es : List Answered) (n : Net) : Prop where
  ip : n.ip = (ips es).getLast?.elim [] Quad.text
  mask : n.mask = currentMask net es
  cast : n.cast = currentCast net es

theorem currentMask_ne_nil (h : ips es ≠ []) : currentMask net es ≠ [] := by
  obtain ⟨q, hq⟩ := Option.ne_none_iff_exists'.1 (mt List.head?_eq_none_iff.1 h)
  rw [currentMask, hq]
  split
  · exact quad_text_ne_nil _
  · split_ifs with hm
    · exact ip2char_ne_nil _
    · exact hm

theorem currentCast_ne_nil (h : ips es ≠ []) : currentCast net es ≠ [] := by
  obtain ⟨q, hq⟩ := Option.ne_none_iff_exists'.1 (mt List.head?_eq_none_iff.1 h)
  rw [currentCast, hq]
  split_ifs with hc
  · exact ip2char_ne_nil _
  · exact hc

theorem fill_nil (h : net.ip = []) : net.fill = some net := if_pos h

theorem fill_quad {q : Quad} (h : net.ip = q.text) :
    net.fill = some { net with
      route := if net.route = [] then net.ip else net.route
      mask := if net.mask = [] then ip2char (classMask (quadBits q)) else net.mask
      cast := if net.cast = [] then ip2char (quadBits q ||| ~~~classMask (quadBits q))
        else net.cast } := by
  rw [Net.fill, if_neg (h ▸ quad_text_ne_nil q), h, ip2int_quad, Option.bind_some, maskOf_eq,
    Option.map_some]

/-- Where the settings have been filled in, they stay. -/
theorem IsAfter.fill {n : Net} (h : IsAfter net es n) :
    ∃ n', n.fill = some n' ∧ IsAfter net es n' := by
  rcases hlast : (ips es).getLast? with _ | q
  · exact ⟨n, fill_nil (by rw [h.ip, hlast, Option.elim_none]), h⟩
  · have hne : ips es ≠ [] := by
      rintro heq
      rw [heq] at hlast
      cases hlast
    refine ⟨_, fill_quad (q := q) (by rw [h.ip, hlast, Option.elim_some]), h.ip, ?_, ?_⟩
    · exact (if_neg (h.mask ▸ currentMask_ne_nil hne)).trans h.mask
    · exact (if_neg (h.cast ▸ currentCast_ne_nil hne)).trans h.cast

theorem currentMask_ip (net : Net) (es : List Answered) (q : Quad) :
    currentMask net (es ++ [.ip q]) =
      if currentMask net es = [] then ip2char (classMask (quadBits q)) else currentMask net es := by
  have hmasks : masks (es ++ [.ip q]) = masks es := by simp [masks, Answered.mask?]
  have hips : ips (es ++ [.ip q]) = ips es ++ [q] := by simp [ips, Answered.ip?]
  rw [currentMask, currentMask, hmasks, hips]
  rcases (masks es).getLast? with _ | q'
  · by_cases hm : net.mask = []
    · rcases hfirst : ips es with _ | ⟨a, as⟩
      · simp [hm]
      · simp [hm, ip2char_ne_nil]
    · simp [hm]
  · exact (if_neg (quad_text_ne_nil q')).symm

theorem currentCast_ip (net : Net) (es : List Answered) (q : Quad) :
    currentCast net (es ++ [.ip q]) =
      if currentCast net es = [] then ip2char (quadBits q ||| ~~~classMask (quadBits q))
      else currentCast net es := by
  have hips : ips (es ++ [.ip q]) = ips es ++ [q] := by simp [ips, Answered.ip?]
  rw [currentCast, currentCast, hips]
  by_cases hc : net.cast = []
  · rcases hfirst : ips es with _ | ⟨a, as⟩
    · simp [hc]
    · simp [hc, ip2char_ne_nil]
  · simp [hc]

/-- A command that enters neither an address nor a mask. -/
theorem isAfter_run_other {n n₁ : Net} (h : IsAfter net es n) (hi : e.ip? = none)
    (hm : e.mask? = none) (henter : e.cmd.enter n = some n₁) (hip : n₁.ip = n.ip)
    (hmask : n₁.mask = n.mask) (hcast : n₁.cast = n.cast) :
    ∃ n', e.cmd.run n = some n' ∧ IsAfter net (es ++ [e]) n' := by
  have hips : ips (es ++ [e]) = ips es := by simp [ips, hi]
  have hmasks : masks (es ++ [e]) = masks es := by simp [masks, hm]
  have h₁ : IsAfter net (es ++ [e]) n₁ := by
    refine ⟨?_, ?_, ?_⟩
    · rw [hip, hips, h.ip]
    · rw [hmask, currentMask, hips, hmasks, h.mask, currentMask]
    · rw [hcast, currentCast, hips, h.cast, currentCast]
  rw [NetCmd.run, henter, Option.bind_some]
  exact h₁.fill

theorem isAfter_run_ip {n : Net} (h : IsAfter net es n) (q : Quad) :
    ∃ n', (NetCmd.ip q.text).run n = some n' ∧ IsAfter net (es ++ [.ip q]) n' := by
  have hips : ips (es ++ [.ip q]) = ips es ++ [q] := by simp [ips, Answered.ip?]
  have henter : (NetCmd.ip q.text).enter n = some { n with ip := q.text } :=
    if_pos (length_quad_text q)
  rw [NetCmd.run, henter, Option.bind_some]
  refine ⟨_, fill_quad rfl, ?_, ?_, ?_⟩
  · rw [hips, List.getLast?_concat, Option.elim_some]
  · rw [currentMask_ip, ← h.mask]
  · rw [currentCast_ip, ← h.cast]

theorem isAfter_run_mask {n : Net} (h : IsAfter net es n) (q : Quad) :
    ∃ n', (NetCmd.mask q.text).run n = some n' ∧ IsAfter net (es ++ [.mask q]) n' := by
  have hips : ips (es ++ [.mask q]) = ips es := by simp [ips, Answered.ip?]
  have hmasks : masks (es ++ [.mask q]) = masks es ++ [q] := by simp [masks, Answered.mask?]
  have henter : (NetCmd.mask q.text).enter n = some { n with mask := q.text } :=
    if_pos (length_quad_text q)
  have h₁ : IsAfter net (es ++ [.mask q]) { n with mask := q.text } := by
    refine ⟨?_, ?_, ?_⟩
    · rw [hips, h.ip]
    · rw [currentMask, hmasks, List.getLast?_concat]
    · rw [currentCast, hips, h.cast, currentCast]
  rw [NetCmd.run, henter, Option.bind_some]
  exact h₁.fill

/-- **One command.** -/
theorem isAfter_run {n : Net} (h : IsAfter net es n) (e : Answered) :
    ∃ n', e.cmd.run n = some n' ∧ IsAfter net (es ++ [e]) n' := by
  cases e with
  | hostname s hs => exact isAfter_run_other h rfl rfl (if_pos hs) rfl rfl rfl
  | domain s hs => exact isAfter_run_other h rfl rfl (if_pos hs) rfl rfl rfl
  | ip q => exact isAfter_run_ip h q
  | mask q => exact isAfter_run_mask h q
  | route q => exact isAfter_run_other h rfl rfl (if_pos (length_quad_text q)) rfl rfl rfl
  | dns q => exact isAfter_run_other h rfl rfl (if_pos (length_quad_text q)) rfl rfl rfl
  | illegal => exact isAfter_run_other h rfl rfl rfl rfl rfl rfl

/-- **The settings after some commands.** -/
theorem netAfter_eq (net : Net) (es : List Answered) :
    ∃ n, netAfter net es = some n ∧ IsAfter net es n := by
  induction es using List.reverseRecOn with
  | nil =>
    refine ⟨net.clear, rfl, rfl, ?_, ?_⟩
    · exact (ite_eq_right_iff.2 fun h ↦ h.symm).symm
    · exact (ite_eq_right_iff.2 fun h ↦ h.symm).symm
  | append_singleton es e ih =>
    obtain ⟨n, hn, hafter⟩ := ih
    rw [netAfter_concat, hn, Option.bind_some]
    exact isAfter_run hafter e

/-! ## When the settings agree -/

/-- The broadcast is what it should be for the address and the mask. -/
def BroadcastRight (n : Net) : Prop :=
  ∃ a m, ip2int n.ip = some a ∧ ip2int n.mask = some m ∧ ip2int n.cast = some (a ||| ~~~m)

/-- The mask is the one that goes with the address. -/
def MaskRight (n : Net) : Prop :=
  ∃ a, ip2int n.ip = some a ∧ ip2int n.mask = some (classMask a)

/-- The settings after some commands are what they should be. -/
def Consistent (net : Net) (es : List Answered) : Prop :=
  ∃ n, netAfter net es = some n ∧ BroadcastRight n ∧ (masks es = [] → MaskRight n)

/-- The mask that counts: the last one that was entered, or else the one from the beginning, or else
the one that goes with the first address. -/
def maskBits (net : Net) (es : List Answered) : Option (BitVec 32) :=
  match (masks es).getLast? with
  | some q => some (quadBits q)
  | none =>
    if net.mask = [] then (ips es).head?.map fun q ↦ classMask (quadBits q) else ip2int net.mask

/-- The broadcast that counts: the one from the beginning, or else the one that goes with the first
address. -/
def castBits (net : Net) (es : List Answered) : Option (BitVec 32) :=
  if net.cast = [] then
    (ips es).head?.map fun q ↦ quadBits q ||| ~~~classMask (quadBits q)
  else ip2int net.cast

/-- They go with the last address. -/
def Agree (net : Net) (es : List Answered) : Prop :=
  ∃ q ∈ (ips es).getLast?, ∃ m ∈ maskBits net es,
    castBits net es = some (quadBits q ||| ~~~m) ∧ (masks es = [] → m = classMask (quadBits q))

instance decidableAgree (net : Net) (es : List Answered) : Decidable (Agree net es) :=
  haveI (q : Quad) : Decidable (∃ m ∈ maskBits net es,
      castBits net es = some (quadBits q ||| ~~~m) ∧
        (masks es = [] → m = classMask (quadBits q))) :=
    Option.decidableExistsMem (maskBits net es)
  Option.decidableExistsMem (ips es).getLast?

theorem ip2int_nil : ip2int [] = none := by decide

theorem ip2int_currentMask (net : Net) (es : List Answered) :
    ip2int (currentMask net es) = maskBits net es := by
  rw [currentMask, maskBits]
  rcases (masks es).getLast? with _ | q
  · by_cases hm : net.mask = []
    · rcases (ips es).head? with _ | a
      · simp [hm, ip2int_nil]
      · simp [hm, ip2int_ip2char]
    · simp [hm]
  · exact ip2int_quad q

theorem ip2int_currentCast (net : Net) (es : List Answered) :
    ip2int (currentCast net es) = castBits net es := by
  rw [currentCast, castBits]
  by_cases hc : net.cast = []
  · rcases (ips es).head? with _ | a
    · simp [hc, ip2int_nil]
    · simp [hc, ip2int_ip2char]
  · simp [hc]

theorem IsAfter.ip2int_ip {n : Net} (h : IsAfter net es n) :
    ip2int n.ip = (ips es).getLast?.map quadBits := by
  rw [h.ip]
  rcases (ips es).getLast? with _ | q
  · exact ip2int_nil
  · exact ip2int_quad q

/-- **After some commands**, the settings agree if the address, the mask and the broadcast that
count go together. -/
theorem consistent_iff (net : Net) (es : List Answered) : Consistent net es ↔ Agree net es := by
  obtain ⟨n, hn, hafter⟩ := netAfter_eq net es
  have hip := hafter.ip2int_ip
  have hmask : ip2int n.mask = maskBits net es := hafter.mask ▸ ip2int_currentMask net es
  have hcast : ip2int n.cast = castBits net es := hafter.cast ▸ ip2int_currentCast net es
  constructor
  · rintro ⟨n', hn', ⟨a, m, ha, hm, hc⟩, hright⟩
    cases hn.symm.trans hn'
    obtain ⟨q, hq, rfl⟩ := Option.map_eq_some_iff.1 (hip.symm.trans ha)
    refine ⟨q, hq, m, hmask.symm.trans hm, hcast.symm.trans hc, fun hnone ↦ ?_⟩
    obtain ⟨a, ha', hm'⟩ := hright hnone
    rw [ha] at ha'
    cases ha'
    exact Option.some.inj (hm.symm.trans hm')
  · rintro ⟨q, hq, m, hm, hc, hright⟩
    have ha : ip2int n.ip = some (quadBits q) := by rw [hip, Option.mem_def.1 hq, Option.map_some]
    refine ⟨n, hn, ⟨_, m, ha, hmask.trans hm, hcast.trans hc⟩, fun hnone ↦ ⟨_, ha, ?_⟩⟩
    rw [← hright hnone]
    exact hmask.trans hm

/-- **In a session** the settings agree after each command from the first address on if and only if
what counts goes together each time. -/
theorem network_iff (net : Net) (es : List Answered) :
    (∀ p, p <+: es → ips p ≠ [] → Consistent net p) ↔ ∀ p, p <+: es → ips p ≠ [] → Agree net p := by
  constructor
  · intro h p hp hne
    exact (consistent_iff net p).1 (h p hp hne)
  · intro h p hp hne
    exact (consistent_iff net p).2 (h p hp hne)

/-- An address, and then another one. -/
def twoAddresses : List Answered :=
  [.ip ![.ofByte 10, .ofByte 0, .ofByte 0, .ofByte 1],
    .ip ![.ofByte 192, .ofByte 168, .ofByte 1, .ofByte 1]]

def emptyNet : Net := ⟨[], [], [], [], [], [], []⟩

/-- The mask and the broadcast are the ones of the first address. -/
theorem first_address_stays :
    netCmds true (cstr "2\n10.0.0.1\n2\n192.168.1.1\nx\n") =
        some (twoAddresses.map Answered.cmd, []) ∧
      setNetwork true emptyNet (cstr "2\n10.0.0.1\n2\n192.168.1.1\nx\n") =
        some (⟨[], [], cstr "192.168.1.1", cstr "255.0.0.0", cstr "10.255.255.255",
          cstr "10.0.0.1", []⟩, []) ∧
      ¬Consistent emptyNet twoAddresses := by
  refine ⟨?_, ?_, ?_⟩
  · decide +kernel
  · decide +kernel
  · rw [consistent_iff]
    decide +kernel

end Sysinst
