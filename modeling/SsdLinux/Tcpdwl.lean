import SsdLinux.CLib.Bytes

/-!
# `tcpdwl`: sending a firmware image

`tcpdwl` hands an image over to the loader of a server.  The client sends a command, the server
answers with a message of eight bytes, and `Dl_tcp` goes by the message and by `State`.  `dlTcp` is
one round of its loop: it reads a message (`Event`), and what passes over the line is written down
in `Client.log`.

* The progress of a download is kept twice: in the offset of the descriptor, which begins anew with
  each `open`, and in `position`, a static variable of `DownLoad` that nothing ever resets.
* `unsigned long` and `off_t` have 32 bits, so `stat` fails for a file that is too long for that,
  and the client gives up before it connects (`chooseDLFile`).
* Reads of the image are full reads, and writes succeed.  What else can go wrong, a `socket`, a
  `connect` or an `open`, is part of the event.

What comes before is not here: the conversion of a `.mot` file is in a module of its own, and the
patch of an ELF image is left out, as is the progress that is shown to the user.
-/

set_option autoImplicit false

namespace Tcpdwl

open CLib

/-! ## The messages -/

/-- The number that a message or a command begins with. -/
def code : Bytes → ℕ
  | a :: b :: _ => a.toNat * 256 + b.toNat
  | _ => 0

/-- An acknowledge of the server. -/
def IsAck (msg : Bytes) : Prop := msg.length = 8 ∧ code msg = 0x5203

/-- `TestMode`. -/
def testMode : Bytes := [0x51, 0x21, 0, 0, 0, 0, 0, 0]

/-- `SwitchMode`. -/
def switchMode : Bytes := 0x51 :: 0x20 :: cstr "SWITCH"

/-- The command of `StartDownLoad`. -/
def startDown (fileSize : BitVec 32) : Bytes :=
  [0x51, 0x22, UInt8.ofNat ((fileSize &&& 0xFF000000#32) >>> 24).toNat,
    UInt8.ofNat ((fileSize &&& 0x00FF0000#32) >>> 16).toNat,
    UInt8.ofNat ((fileSize &&& 0x0000FF00#32) >>> 8).toNat,
    UInt8.ofNat (fileSize &&& 0x000000FF#32).toNat, 0, 0]

/-- `RInq1` and `RInq2`: the server runs normally. -/
def normalModes : List Bytes := [[0x52, 0x05, 1, 0, 0, 0, 0, 0], [0x52, 0x05, 0, 1, 0, 0, 0, 0]]

/-- `RInq3`, `RInq4` and `RInq5`: the server waits for an image. -/
def downloadModes : List Bytes :=
  [[0x52, 0x05, 2, 0, 0, 0, 0, 0], [0x52, 0x05, 0, 2, 0, 0, 0, 0], [0x52, 0x05, 3, 0, 0, 0, 0, 0]]

/-- The errors of a server, in the order in which their bits are looked at. -/
def serverErrors : List (ℕ × Bytes) :=
  [(0x8000, cstr "Error in command state"), (0x0020, cstr "Error in download bytes"),
    (0x0010, cstr "Dial-in dial-out error"), (0x0008, cstr "Telnet error"),
    (0x0004, cstr "Flash ROM erase error"), (0x0002, cstr "Download in progress"),
    (0x0001, cstr "Flash ROM write error")]

/-- What is said about an error of the server. -/
def errorText (errTst : ℕ) : Bytes :=
  ((serverErrors.find? fun e ↦ errTst &&& e.1 != 0).map Prod.snd).getD (cstr "Other errors")

/-! ## The client -/

/-- `State`.  The program has no use for `specify` and `finished`. -/
inductive DlState
  | idle | switch | specify | startdown | download | finished
  deriving DecidableEq, Repr

/-- What passes over the line. -/
inductive Wire
  | recv (msg : Bytes)
  | send (cmd : Bytes)
  | payload (block : Bytes)
  | reconnect
  deriving DecidableEq, Repr

/-- Whether the loop goes on.  `complete` is its end with the last acknowledge, `failed` every other
end, with what is printed. -/
inductive Status
  | running
  | complete
  | failed (text : Bytes)
  deriving DecidableEq, Repr

/-- The variables of the client. -/
structure Client where
  state : DlState
  sentFlag : Bool
  fileSize : BitVec 32
  /-- The offset of `fd_dl`. -/
  offset : ℕ
  position : BitVec 32
  /-- What has passed over the line, the last at the end. -/
  log : List Wire
  status : Status
  deriving DecidableEq, Repr

/-- What a round of the loop meets: the bytes that are read, and whether `socket`, `connect` and
`open` succeed if they are called. -/
structure Event where
  msg : Bytes
  socket : Bool
  connect : Bool
  opens : Bool

def Client.logged (c : Client) (items : List Wire) : Client := { c with log := c.log ++ items }

def Client.fail (c : Client) (text : Bytes) : Client := { c with status := .failed text }

/-- `StartDownLoad`. -/
def startDownLoad (c : Client) : Client :=
  { c with state := .startdown, sentFlag := false, log := c.log ++ [.send (startDown c.fileSize)] }

/-- The next part of the image is read and sent. -/
def sendBlock (file : Bytes) (c : Client) : Client :=
  let block := (file.drop c.offset).take 1024
  { c with
    offset := c.offset + block.length
    position := c.position + BitVec.ofNat 32 block.length
    log := c.log ++ [.payload block] }

/-- The loop of `DownLoad`, with that many rounds to go. -/
def sendBlocks (file : Bytes) : ℕ → Client → Client
  | 0, c => c
  | n + 1, c =>
    let c := sendBlock file c
    if c.fileSize ≤ c.position then { c with sentFlag := true } else sendBlocks file n c

/-- `DownLoad`. -/
def downLoad (file : Bytes) (c : Client) : Client := sendBlocks file 64 c

/-- The answer to an acknowledge. -/
def acknowledge (file : Bytes) (e : Event) (c : Client) : Client :=
  match c.state with
  | .switch =>
    if !e.socket then c.fail (cstr "Error Opening socket")
    else if !e.connect then c.fail (cstr "Cannot connect with server in switch mode")
    else c.logged [.reconnect, .send testMode]
  | .startdown =>
    if e.opens then downLoad file { c with state := .download, offset := 0 }
    else { c with state := .download }.fail (cstr "Can't open file")
  | .download =>
    if c.sentFlag then { c with status := .complete } else downLoad file c
  | _ => c.fail (cstr "Error state")

/-- The answer to a report of the mode. -/
def report (msg : Bytes) (c : Client) : Client :=
  if msg ∈ normalModes then { c with state := .switch }.logged [.send switchMode]
  else if msg ∈ downloadModes then startDownLoad c
  else c.fail (cstr "Error state")

/-- A round of the loop of `Dl_tcp`. -/
def dlTcp (file : Bytes) (c : Client) (e : Event) : Client :=
  if c.status ≠ .running then c
  else
    let c := c.logged [.recv e.msg]
    if e.msg.length ≠ 8 then c.fail (cstr "Error record from server")
    else if code e.msg = 0x5203 then acknowledge file e c
    else if code e.msg = 0x5206 then c.fail (errorText (code (e.msg.drop 2)))
    else if code e.msg = 0x5205 then report e.msg c
    else c.fail (cstr "Error state")

/-- The size of the image, if `stat` can tell it. -/
def chooseDLFile (file : Bytes) : Option (BitVec 32) :=
  if file.length < 2 ^ 31 then some (BitVec.ofNat 32 file.length) else none

/-- The client before its first round. -/
def start (fileSize : BitVec 32) : Client :=
  ⟨.idle, false, fileSize, 0, 0, [.send testMode], .running⟩

/-- The states that rounds of the loop lead to, where `ok` says what is asked of a round. -/
inductive Reaches (file : Bytes) (ok : Client → Event → Prop) : Client → Prop
  | start {fileSize : BitVec 32} (h : chooseDLFile file = some fileSize) :
    Reaches file ok (start fileSize)
  | step {c : Client} {e : Event} (h : Reaches file ok c) (he : ok c e) :
    Reaches file ok (dlTcp file c e)

/-! ## The effects of a round -/

variable {file : Bytes} {c : Client} {e : Event}

/-- The effects that a round can have. -/
inductive Moves (file : Bytes) (c : Client) (e : Event) : Client → Prop
  | stopped (h : c.status ≠ .running) : Moves file c e c
  | failed (h : c.status = .running) (state : DlState) (text : Bytes) :
    Moves file c e ({ c with state := state }.logged [.recv e.msg] |>.fail text)
  | reconnected (h : c.status = .running) (hs : c.state = .switch) :
    Moves file c e (c.logged [.recv e.msg, .reconnect, .send testMode])
  | switched (h : c.status = .running) :
    Moves file c e ({ c with state := .switch }.logged [.recv e.msg, .send switchMode])
  | started (h : c.status = .running) (hmsg : e.msg ∈ downloadModes) :
    Moves file c e (startDownLoad (c.logged [.recv e.msg]))
  | opened (h : c.status = .running) (hs : c.state = .startdown) (hmsg : IsAck e.msg) :
    Moves file c e
      (downLoad file { c.logged [.recv e.msg] with state := .download, offset := 0 })
  | went (h : c.status = .running) (hs : c.state = .download) (hflag : c.sentFlag = false)
    (hmsg : IsAck e.msg) : Moves file c e (downLoad file (c.logged [.recv e.msg]))
  | finished (h : c.status = .running) (hs : c.state = .download) (hflag : c.sentFlag = true) :
    Moves file c e { c.logged [.recv e.msg] with status := .complete }

theorem moves_acknowledge (h : c.status = .running) (hmsg : IsAck e.msg) :
    Moves file c e (acknowledge file e (c.logged [.recv e.msg])) := by
  have hother (text : Bytes) : Moves file c e ((c.logged [.recv e.msg]).fail text) :=
    .failed h c.state text
  have hstate : (c.logged [.recv e.msg]).state = c.state := rfl
  rw [acknowledge, hstate]
  split
  · rename_i hs
    split
    · exact hother _
    · split
      · exact hother _
      · have hlog : (c.logged [.recv e.msg]).logged [.reconnect, .send testMode]
            = c.logged [.recv e.msg, .reconnect, .send testMode] := by
          simp [Client.logged]
        rw [hlog]
        exact .reconnected h hs
  · rename_i hs
    split
    · exact .opened h hs hmsg
    · exact .failed h .download _
  · rename_i hs
    split
    · rename_i hflag
      exact .finished h hs hflag
    · rename_i hflag
      exact .went h hs (eq_false_of_ne_true hflag) hmsg
  · exact hother _

theorem moves_report (h : c.status = .running) :
    Moves file c e (report e.msg (c.logged [.recv e.msg])) := by
  rw [report]
  split
  · have hlog : ({ c.logged [.recv e.msg] with state := .switch } : Client).logged
        [.send switchMode]
          = ({ c with state := .switch } : Client).logged [.recv e.msg, .send switchMode] := by
      simp [Client.logged]
    rw [hlog]
    exact .switched h
  · split
    · rename_i hmsg
      exact .started h hmsg
    · exact .failed h c.state _

/-- **A round has one of these effects.** -/
theorem moves_dlTcp : Moves file c e (dlTcp file c e) := by
  rw [dlTcp]
  split
  · rename_i h
    exact .stopped h
  · rename_i h
    rw [not_not] at h
    dsimp only
    split
    · exact .failed h c.state _
    · rename_i hlen
      split
      · rename_i hmsg
        exact moves_acknowledge h ⟨not_not.mp hlen, hmsg⟩
      · split
        · exact .failed h c.state _
        · split
          · exact moves_report h
          · exact .failed h c.state _

/-! ## What `DownLoad` sends -/

theorem offset_sendBlock (file : Bytes) (c : Client) :
    (sendBlock file c).offset = c.offset + min 1024 (file.length - c.offset) := by
  rw [sendBlock, List.length_take, List.length_drop]

/-- `DownLoad` changes nothing but the progress, and it writes as many blocks of 1 KB at most as it
goes round. -/
theorem sendBlocks_frame (file : Bytes) (c : Client) (n : ℕ) :
    (sendBlocks file n c).fileSize = c.fileSize ∧ (sendBlocks file n c).state = c.state ∧
    (sendBlocks file n c).status = c.status ∧
    ∃ blocks : List Bytes, (sendBlocks file n c).log = c.log ++ blocks.map Wire.payload ∧
      blocks.length ≤ n ∧ ∀ block ∈ blocks, block.length ≤ 1024 := by
  induction n generalizing c with
  | zero => exact ⟨rfl, rfl, rfl, [], by simp [sendBlocks], le_rfl, by simp⟩
  | succ n ih =>
    have hblock : ((file.drop c.offset).take 1024).length ≤ 1024 := List.length_take_le _ _
    rw [sendBlocks]
    split
    · exact ⟨rfl, rfl, rfl, [(file.drop c.offset).take 1024], rfl, by simp,
        List.forall_mem_singleton.mpr hblock⟩
    · obtain ⟨hsize, hstate, hstatus, blocks, hlog, hlen, hall⟩ := ih (sendBlock file c)
      refine ⟨hsize, hstate, hstatus, (file.drop c.offset).take 1024 :: blocks, ?_, ?_, ?_⟩
      · rw [hlog]
        simp [sendBlock]
      · rw [List.length_cons]
        omega
      · exact List.forall_mem_cons.mpr ⟨hblock, hall⟩

/-- The payload among the items of a log. -/
def payloads (log : List Wire) : Bytes :=
  log.flatMap fun x ↦ match x with
    | .payload block => block
    | _ => []

theorem length_payloads_le {blocks : List Bytes} (h : ∀ block ∈ blocks, block.length ≤ 1024) :
    (payloads (blocks.map Wire.payload)).length ≤ 1024 * blocks.length := by
  induction blocks with
  | nil => exact le_rfl
  | cons block blocks ih =>
    obtain ⟨hblock, hblocks⟩ := List.forall_mem_cons.mp h
    have hrest := ih hblocks
    rw [List.map_cons, payloads, List.flatMap_cons, List.length_append, List.length_cons]
    rw [payloads] at hrest
    dsimp only
    omega

/-- **A round writes 64 KB of payload at most, and none at all without an acknowledge.** -/
theorem Moves.log {c' : Client} (h : Moves file c e c') : ∃ new, c'.log = c.log ++ new ∧
    (payloads new).length ≤ 0x10000 ∧
    ∀ block, .payload block ∈ new → IsAck e.msg := by
  have hdown {d : Client} (hd : d.log = c.log ++ [.recv e.msg]) (hmsg : IsAck e.msg) :
      ∃ new, (downLoad file d).log = c.log ++ new ∧ (payloads new).length ≤ 0x10000 ∧
        ∀ block, .payload block ∈ new → IsAck e.msg := by
    obtain ⟨-, -, -, blocks, hlog, hlen, hall⟩ := sendBlocks_frame file d 64
    refine ⟨.recv e.msg :: blocks.map Wire.payload, by rw [downLoad, hlog, hd]; simp, ?_,
      fun _ _ ↦ hmsg⟩
    have hle : (payloads (.recv e.msg :: blocks.map Wire.payload)).length
        ≤ 1024 * blocks.length := length_payloads_le hall
    omega
  have hplain {new : List Wire} (hnew : ∀ block, .payload block ∉ new) :
      ∃ new', c.log ++ new = c.log ++ new' ∧ (payloads new').length ≤ 0x10000 ∧
        ∀ block, .payload block ∈ new' → IsAck e.msg := by
    have hnil : payloads new = [] := by
      refine List.flatMap_eq_nil_iff.mpr fun x hx ↦ ?_
      cases x with
      | payload block => exact absurd hx (hnew block)
      | _ => rfl
    exact ⟨new, rfl, by simp [hnil], fun block hb ↦ absurd hb (hnew block)⟩
  cases h with
  | stopped h => exact ⟨[], by simp, Nat.zero_le _, by simp⟩
  | failed h state text => exact hplain (by simp)
  | reconnected h hs => exact hplain (by simp)
  | switched h => exact hplain (by simp)
  | started h hmsg =>
    have hlog : (startDownLoad (c.logged [.recv e.msg])).log
        = c.log ++ [.recv e.msg, .send (startDown c.fileSize)] := by
      simp [startDownLoad, Client.logged]
    rw [hlog]
    exact hplain (by simp)
  | opened h hs hmsg => exact hdown rfl hmsg
  | went h hs hflag hmsg => exact hdown rfl hmsg
  | finished h hs hflag => exact hplain (by simp)

/-! ## The last start-download command -/

/-- The size in a start-download command. -/
def announced : Bytes → ℕ
  | _ :: _ :: a :: b :: c :: d :: _ =>
    ((a.toNat * 256 + b.toNat) * 256 + c.toNat) * 256 + d.toNat
  | _ => 0

theorem announced_startDown (fileSize : BitVec 32) :
    announced (startDown fileSize) = fileSize.toNat := by
  have hbyte (k mask : ℕ) (hmask : mask < 2 ^ 32) (hk : mask >>> k = 2 ^ 8 - 1) :
      (UInt8.ofNat ((fileSize &&& BitVec.ofNat 32 mask) >>> k).toNat).toNat
        = fileSize.toNat / 2 ^ k % 2 ^ 8 := by
    rw [BitVec.toNat_ushiftRight, BitVec.toNat_and, BitVec.toNat_ofNat, Nat.mod_eq_of_lt hmask,
      Nat.shiftRight_and_distrib, hk, Nat.and_two_pow_sub_one_eq_mod, Nat.shiftRight_eq_div_pow,
      UInt8.toNat_ofNat', Nat.mod_mod]
  have h24 := hbyte 24 0xFF000000 (by decide) (by decide)
  have h16 := hbyte 16 0x00FF0000 (by decide) (by decide)
  have h8 := hbyte 8 0x0000FF00 (by decide) (by decide)
  have h0 := hbyte 0 0x000000FF (by decide) (by decide)
  rw [BitVec.ushiftRight_zero] at h0
  have hlt := fileSize.isLt
  rw [startDown, announced, h24, h16, h8, h0]
  omega

/-- The payload that was written after the last start-download command. -/
def sinceStart (log : List Wire) : Bytes :=
  log.foldl (fun sent x ↦ match x with
    | .send cmd => if code cmd = 0x5122 then [] else sent
    | .payload block => sent ++ block
    | _ => sent) []

/-- The last start-download command of the log announces `n` bytes, and `since` is what has come
after it. -/
def Announced (n : ℕ) (log since : List Wire) : Prop :=
  ∃ before cmd, log = before ++ .send cmd :: since ∧ code cmd = 0x5122 ∧ announced cmd = n ∧
    ∀ cmd', .send cmd' ∈ since → code cmd' ≠ 0x5122

/-- The last start-download command of the log announces `n` bytes, and it has been
acknowledged. -/
def Acked (n : ℕ) (log : List Wire) : Prop :=
  ∃ since, Announced n log since ∧ ∃ msg, .recv msg ∈ since ∧ IsAck msg

/-- No payload is written before a start-download command has been acknowledged. -/
def PayloadsAcked (n : ℕ) (log : List Wire) : Prop :=
  ∀ before block after, log = before ++ .payload block :: after → Acked n before

variable {n : ℕ} {log new since : List Wire}

theorem Announced.append (h : Announced n log since)
    (hnew : ∀ cmd, .send cmd ∈ new → code cmd ≠ 0x5122) :
    Announced n (log ++ new) (since ++ new) := by
  obtain ⟨before, cmd, rfl, hcode, hn, hsince⟩ := h
  refine ⟨before, cmd, by simp, hcode, hn, fun cmd' hcmd' ↦ ?_⟩
  exact (List.mem_append.mp hcmd').elim (hsince cmd') (hnew cmd')

theorem Acked.append (h : Acked n log) (hnew : ∀ cmd, .send cmd ∈ new → code cmd ≠ 0x5122) :
    Acked n (log ++ new) := by
  obtain ⟨since, hs, msg, hmem, hack⟩ := h
  exact ⟨since ++ new, hs.append hnew, msg, List.mem_append_left new hmem, hack⟩

theorem PayloadsAcked.append (h : PayloadsAcked n log)
    (hnew : ∀ before block after, new = before ++ .payload block :: after →
      Acked n (log ++ before)) : PayloadsAcked n (log ++ new) := by
  intro before block after heq
  rcases List.append_eq_append_iff.mp heq with ⟨mid, rfl, hmid⟩ | ⟨mid, rfl, hmid⟩
  · exact hnew mid block after hmid
  · cases mid with
    | nil =>
      have hlast := hnew [] block after hmid.symm
      rwa [List.append_nil, List.append_nil] at hlast
    | cons x mid =>
      obtain ⟨rfl, -⟩ := List.cons.inj hmid
      exact h before block mid rfl

theorem PayloadsAcked.append_plain (h : PayloadsAcked n log)
    (hnew : ∀ block, .payload block ∉ new) : PayloadsAcked n (log ++ new) :=
  h.append fun before block _ heq ↦
    absurd (heq ▸ List.mem_append_right before List.mem_cons_self) (hnew block)

theorem PayloadsAcked.append_blocks (h : PayloadsAcked n log) (hlog : Acked n log)
    (blocks : List Bytes) : PayloadsAcked n (log ++ blocks.map Wire.payload) := by
  refine h.append fun before block after heq ↦ hlog.append fun cmd hcmd ↦ ?_
  have hmem : Wire.send cmd ∈ blocks.map Wire.payload := heq ▸ List.mem_append_left _ hcmd
  simp at hmem

/-! ## In every run -/

/-- What holds in every run. -/
structure Inv (file : Bytes) (c : Client) : Prop where
  size : c.fileSize.toNat = file.length
  acked : PayloadsAcked file.length c.log
  startdown : c.status = .running → c.state = .startdown →
    c.sentFlag = false ∧ sinceStart c.log = [] ∧ ∃ since, Announced file.length c.log since
  download : c.status = .running → c.state = .download → Acked file.length c.log

theorem sinceStart_append (log new : List Wire) : sinceStart (log ++ new)
    = new.foldl (fun sent x ↦ match x with
      | .send cmd => if code cmd = 0x5122 then [] else sent
      | .payload block => sent ++ block
      | _ => sent) (sinceStart log) := by
  rw [sinceStart, List.foldl_append, sinceStart]

theorem sinceStart_start {cmd : Bytes} (h : code cmd = 0x5122) :
    sinceStart (log ++ [.send cmd]) = [] := by
  rw [sinceStart_append]
  exact if_pos h

theorem Inv.downLoad {d : Client} (hsize : d.fileSize.toNat = file.length)
    (hd : PayloadsAcked file.length d.log) (hstate : d.state = .download)
    (hacked : Acked file.length d.log) : Inv file (downLoad file d) := by
  obtain ⟨hsize', hstate', -, blocks, hlog, -, -⟩ := sendBlocks_frame file d 64
  refine ⟨(congrArg BitVec.toNat hsize').trans hsize, ?_, ?_, ?_⟩
  · rw [Tcpdwl.downLoad, hlog]
    exact hd.append_blocks hacked blocks
  · intro _ hs
    rw [Tcpdwl.downLoad, hstate', hstate] at hs
    cases hs
  · intro _ _
    rw [Tcpdwl.downLoad, hlog]
    exact hacked.append (by simp)

theorem Inv.moves {c' : Client} (hc : Inv file c) (h : Moves file c e c') : Inv file c' := by
  cases h with
  | stopped h => exact hc
  | failed h state text => exact ⟨hc.size, hc.acked.append_plain (by simp), nofun, nofun⟩
  | reconnected h hs =>
    refine ⟨hc.size, hc.acked.append_plain (by simp), fun _ hs' ↦ ?_, fun _ hs' ↦ ?_⟩ <;>
      exact absurd (hs.symm.trans hs') (by decide)
  | switched h => exact ⟨hc.size, hc.acked.append_plain (by simp), nofun, nofun⟩
  | started h hmsg =>
    have hcmd : code (startDown c.fileSize) = 0x5122 := rfl
    refine ⟨hc.size, ?_, fun _ _ ↦ ⟨rfl, ?_, [], c.log ++ [.recv e.msg], startDown c.fileSize,
      rfl, hcmd, (announced_startDown _).trans hc.size, by simp⟩, nofun⟩
    · have hrecv : PayloadsAcked file.length (c.log ++ [.recv e.msg]) :=
        hc.acked.append_plain (by simp)
      exact hrecv.append_plain (by simp)
    · exact sinceStart_start hcmd
  | opened h hs hmsg =>
    obtain ⟨-, -, since, hsince⟩ := hc.startdown h hs
    have hacked : Acked file.length (c.log ++ [.recv e.msg]) :=
      ⟨since ++ [.recv e.msg], hsince.append (by simp), e.msg, by simp, hmsg⟩
    exact .downLoad hc.size (hc.acked.append_plain (by simp)) rfl hacked
  | went h hs hflag hmsg =>
    exact .downLoad hc.size (hc.acked.append_plain (by simp)) hs
      ((hc.download h hs).append (by simp))
  | finished h hs hflag => exact ⟨hc.size, hc.acked.append_plain (by simp), nofun, nofun⟩

theorem Reaches.inv {ok : Client → Event → Prop} (h : Reaches file ok c) : Inv file c := by
  induction h with
  | start h =>
    rw [chooseDLFile] at h
    split at h
    · rename_i hlt
      obtain rfl := Option.some.inj h
      have hnone : PayloadsAcked file.length [] :=
        fun before block after heq ↦ absurd heq (by simp)
      refine ⟨?_, hnone.append_plain (by simp), nofun, nofun⟩
      exact (BitVec.toNat_ofNat _ _).trans (Nat.mod_eq_of_lt (by omega))
    · cases h
  | step h he ih => exact ih.moves moves_dlTcp

/-! ## In a run without an early end -/

/-- From the position `q`, no proper part of the image of whole blocks brings `position` up to the
size of the image. -/
def SafeStart (file : Bytes) (q : BitVec 32) : Prop :=
  ∀ k, 0 < k → 1024 * k < file.length → (q.toNat + 1024 * k) % 2 ^ 32 < file.length

/-- A download is not begun from a position that would end it too early. -/
def InTime (file : Bytes) (c : Client) (e : Event) : Prop :=
  c.status = .running → e.msg ∈ downloadModes → SafeStart file c.position

/-- The image is being sent: what has been written is its part before the offset. -/
structure Sending (file : Bytes) (c : Client) : Prop where
  since : sinceStart c.log = file.take c.offset
  le : c.offset ≤ file.length
  blocks : c.offset < file.length → 1024 ∣ c.offset
  pos : ∃ q, SafeStart file q ∧ c.position = q + BitVec.ofNat 32 c.offset
  flag : c.sentFlag = true → c.offset = file.length

theorem Sending.sendBlock (h : Sending file c) : Sending file (sendBlock file c) := by
  have hle := h.le
  have hoff := offset_sendBlock file c
  refine ⟨?_, by omega, fun hlt ↦ ?_, ?_, fun hflag ↦ ?_⟩
  · calc sinceStart (c.log ++ [.payload ((file.drop c.offset).take 1024)])
      _ = sinceStart c.log ++ (file.drop c.offset).take 1024 := sinceStart_append _ _
      _ = file.take (c.offset + 1024) := by rw [h.since, ← List.take_add]
      _ = file.take (Tcpdwl.sendBlock file c).offset := by
        rw [hoff, List.take_eq_take_iff]
        omega
  · have hdvd := h.blocks (by omega)
    omega
  · obtain ⟨q, hq, hpos⟩ := h.pos
    refine ⟨q, hq, ?_⟩
    rw [Tcpdwl.sendBlock, hpos, BitVec.add_assoc, ← BitVec.ofNat_add]
  · have hend := h.flag hflag
    omega

/-- **When `position` says that the image is through, it is.** -/
theorem Sending.end_of_position (h : Sending file c) (hsize : c.fileSize.toNat = file.length)
    (hoff : 0 < c.offset) (hpos : c.fileSize ≤ c.position) : c.offset = file.length := by
  by_contra hne
  have hlt : c.offset < file.length := lt_of_le_of_ne h.le hne
  obtain ⟨k, hk⟩ := h.blocks hlt
  obtain ⟨q, hq, hq'⟩ := h.pos
  have hsafe := hq k (by omega) (by omega)
  have hval : c.position.toNat = (q.toNat + 1024 * k) % 2 ^ 32 := by
    rw [hq', hk, BitVec.toNat_add, BitVec.toNat_ofNat, Nat.add_mod_mod]
  rw [BitVec.le_def, hsize, hval] at hpos
  omega

theorem Sending.sendBlocks (h : Sending file c) (hsize : c.fileSize.toNat = file.length) (n : ℕ) :
    Sending file (sendBlocks file n c) := by
  induction n generalizing c with
  | zero => exact h
  | succ n ih =>
    have hnext := h.sendBlock
    rw [Tcpdwl.sendBlocks]
    split
    · rename_i hpos
      refine ⟨hnext.since, hnext.le, hnext.blocks, hnext.pos, fun _ ↦ ?_⟩
      rcases Nat.eq_zero_or_pos (Tcpdwl.sendBlock file c).offset with hzero | hoff
      · have hgrow := offset_sendBlock file c
        dsimp only
        omega
      · exact hnext.end_of_position hsize hoff hpos
    · exact ih hnext hsize

/-- What holds in a run without an early end. -/
structure Sound (file : Bytes) (c : Client) : Prop where
  startdown : c.status = .running → c.state = .startdown → SafeStart file c.position
  download : c.status = .running → c.state = .download → Sending file c
  complete : c.status = .complete → sinceStart c.log = file

theorem Sound.sending {d : Client} (hsize : d.fileSize.toNat = file.length)
    (hstatus : d.status = .running) (hstate : d.state = .download) (h : Sending file d) :
    Sound file (downLoad file d) := by
  obtain ⟨-, hstate', hstatus', -⟩ := sendBlocks_frame file d 64
  refine ⟨fun _ hs ↦ ?_, fun _ _ ↦ h.sendBlocks hsize 64, fun hs ↦ ?_⟩
  · rw [downLoad, hstate', hstate] at hs
    cases hs
  · rw [downLoad, hstatus', hstatus] at hs
    cases hs

theorem Sound.moves {c' : Client} (hc : Sound file c) (hinv : Inv file c) (he : InTime file c e)
    (h : Moves file c e c') : Sound file c' := by
  have hrecv : sinceStart (c.log ++ [.recv e.msg]) = sinceStart c.log := sinceStart_append _ _
  cases h with
  | stopped h => exact hc
  | failed h state text => exact ⟨nofun, nofun, nofun⟩
  | reconnected h hs =>
    refine ⟨fun _ hs' ↦ ?_, fun _ hs' ↦ ?_, fun hs' ↦ ?_⟩
    · exact absurd (hs.symm.trans hs') (by decide)
    · exact absurd (hs.symm.trans hs') (by decide)
    · exact absurd (h.symm.trans hs') (by decide)
  | switched h => exact ⟨nofun, nofun, fun hs ↦ absurd (h.symm.trans hs) (by decide)⟩
  | started h hmsg =>
    exact ⟨fun _ _ ↦ he h hmsg, nofun, fun hs ↦ absurd (h.symm.trans hs) (by decide)⟩
  | opened h hs hmsg =>
    obtain ⟨hflag, hnone, -⟩ := hinv.startdown h hs
    refine .sending hinv.size h rfl ⟨hrecv.trans hnone, Nat.zero_le _, fun _ ↦ Nat.dvd_zero _,
      ⟨c.position, hc.startdown h hs, (BitVec.add_zero _).symm⟩, fun hflag' ↦ ?_⟩
    exact absurd (hflag.symm.trans hflag') (by decide)
  | went h hs hflag hmsg =>
    obtain ⟨hsince, hle, hblocks, hpos, hend⟩ := hc.download h hs
    exact .sending hinv.size h hs ⟨hrecv.trans hsince, hle, hblocks, hpos, hend⟩
  | finished h hs hflag =>
    refine ⟨nofun, nofun, fun _ ↦ ?_⟩
    have hsending := hc.download h hs
    calc sinceStart (c.log ++ [.recv e.msg])
      _ = file.take c.offset := hrecv.trans hsending.since
      _ = file := by rw [hsending.flag hflag, List.take_length]

theorem Reaches.sound (h : Reaches file (InTime file) c) : Sound file c := by
  induction h with
  | start h => exact ⟨nofun, nofun, nofun⟩
  | step h he ih => exact ih.moves h.inv he moves_dlTcp

/-- **A download that is reported complete is the whole image**, if none was begun from a position
that ends it too early.  In any run payloads follow an acknowledge of a start, at most 64K each. -/
theorem download_complete (h : Reaches file (fun _ _ ↦ True) c) :
    PayloadsAcked file.length c.log ∧
    (∀ e, ∃ new, (dlTcp file c e).log = c.log ++ new ∧ (payloads new).length ≤ 0x10000 ∧
      ∀ block, .payload block ∈ new → IsAck e.msg) ∧
    (Reaches file (InTime file) c → c.status = .complete →
      sinceStart c.log = file ∧ c.fileSize.toNat = file.length) :=
  ⟨h.inv.acked, fun _ ↦ moves_dlTcp.log, fun ht hs ↦ ⟨ht.sound.complete hs, h.inv.size⟩⟩

/-! ## A download that is begun twice -/

/-- A round in which nothing goes wrong. -/
def Event.plain (msg : Bytes) : Event := ⟨msg, true, true, true⟩

/-- The server reports that it waits for an image. -/
def waits : Event := .plain [0x52, 0x05, 2, 0, 0, 0, 0, 0]

def ack : Event := .plain [0x52, 0x03, 0, 0, 0, 0, 0, 0]

/-- Where every round is as it should be, so is every run. -/
theorem Reaches.run {ok : Client → Event → Prop} (hok : ∀ c e, ok c e) (h : Reaches file ok c)
    (es : List Event) : Reaches file ok (es.foldl (dlTcp file) c) := by
  induction es generalizing c with
  | nil => exact h
  | cons e es ih => exact ih (h.step (hok c e))

/-- Any position is good enough for an image of one block. -/
theorem safeStart_of_short (h : file.length ≤ 1024) (q : BitVec 32) : SafeStart file q :=
  fun k hk hlt ↦ absurd hlt (by omega)

/-- An image of four bytes is sent, and sent once more. -/
theorem shortImage_complete :
    ∃ c, c = [waits, ack, waits, ack, ack].foldl (dlTcp (cstr "boot")) (start 4) ∧
      c.status = .complete ∧ sinceStart c.log = cstr "boot" := by
  refine ⟨_, rfl, by decide +kernel, ?_⟩
  have hsafe (c : Client) (e : Event) : InTime (cstr "boot") c e :=
    fun _ _ ↦ safeStart_of_short (by decide) _
  have hstart : chooseDLFile (cstr "boot") = some 4 := by decide
  have hrun := Reaches.run hsafe (.start hstart) [waits, ack, waits, ack, ack]
  have hany := Reaches.run (fun _ _ ↦ trivial) (.start hstart) [waits, ack, waits, ack, ack]
  exact ((download_complete hany).2.2 hrun (by decide +kernel)).1

/-- An image of 2 KB whose download is begun again when it is through: the second time ends with the
first block, and is reported complete. -/
theorem longImage_short :
    ∃ c, c = [waits, ack, waits, ack, ack].foldl (dlTcp (List.replicate 2048 0)) (start 2048) ∧
      Reaches (List.replicate 2048 0) (fun _ _ ↦ True) c ∧ c.status = .complete ∧
      sinceStart c.log = List.replicate 1024 0 :=
  ⟨_, rfl, Reaches.run (fun _ _ ↦ trivial) (.start (by decide +kernel)) _, by decide +kernel,
    by decide +kernel⟩

end Tcpdwl
