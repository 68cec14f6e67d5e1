import Manna.CompactSize
import Manna.Lib.Frames

/-!
The receiving half of a peer (`protocol.cpp`: `CMessageHeader`; `net.h`, `net.cpp`: `CNetMessage`,
`CNode::ReceiveMsgBytes`; `main.cpp`: `ProcessMessages`).

Bytes arrive in any pieces and fill the last message of `vRecvMsg`; complete messages are taken from its
front. The bytes of `hdrbuf` and of `vRecv` that have arrived stand for the buffers of fixed size with
their positions.

* `readMessage`: the messages of a stream, as a reader;
* `receiveLoop_spec`: a piece of the stream, however it is cut;
* `processLoop_spec`: what `ProcessMessages` hands over;
* `Inv.handed_eq`: over every run, the messages handed over are those that the bytes determine.
-/

namespace Manna.Net

open Codec

/-- The network magic, and `Hash` of the bytes of a message. -/
structure NetEnv where
  pchMessageStart : List UInt8
  hash : List UInt8 → Uint256
  length_pchMessageStart : pchMessageStart.length = 4

def COMMAND_SIZE : Nat := 12
def MESSAGE_SIZE_OFFSET : Nat := 16
def CHECKSUM_OFFSET : Nat := 20
def HEADER_SIZE : Nat := 24

/-- `CMessageHeader`. -/
structure CMessageHeader where
  pchMessageStart : List UInt8
  pchCommand : List UInt8
  nMessageSize : Nat
  nChecksum : Nat
deriving DecidableEq, Repr

namespace CMessageHeader

/-- `CMessageHeader(pszCommand, nMessageSizeIn)`; `strncpy` fills with zeros. -/
def new (env : NetEnv) (pszCommand : List UInt8) (nMessageSizeIn : Nat) : CMessageHeader where
  pchMessageStart := env.pchMessageStart
  pchCommand := pszCommand.take COMMAND_SIZE ++ List.replicate (COMMAND_SIZE - pszCommand.length) 0
  nMessageSize := nMessageSizeIn
  nChecksum := 0

def serialize (hdr : CMessageHeader) : List UInt8 :=
  hdr.pchMessageStart ++ (hdr.pchCommand ++ (littleEndian 4 hdr.nMessageSize ++ littleEndian 4 hdr.nChecksum))

def unserialize : Reader CMessageHeader := do
  let pchMessageStart ← bytes 4
  let pchCommand ← bytes COMMAND_SIZE
  let nMessageSize ← readLittleEndian 4
  let nChecksum ← readLittleEndian 4
  return { pchMessageStart, pchCommand, nMessageSize, nChecksum }

/-- `GetCommand`: up to the first zero if it ends with one. -/
def getCommand (hdr : CMessageHeader) : List UInt8 :=
  if hdr.pchCommand.getLast? = some 0 then hdr.pchCommand.takeWhile (· ≠ 0) else hdr.pchCommand

/-- The test of the command in `IsValid`: printable characters, then zeros only. -/
def validCommand : List UInt8 → Bool
  | [] => true
  | c :: pchCommand =>
    if c = 0 then pchCommand.all (· = 0)
    else if c.toNat < 0x20 ∨ c.toNat > 0x7E then false
    else validCommand pchCommand

def isValid (env : NetEnv) (hdr : CMessageHeader) : Bool :=
  decide (hdr.pchMessageStart = env.pchMessageStart) && validCommand hdr.pchCommand &&
    decide (hdr.nMessageSize ≤ MAX_SIZE)

end CMessageHeader

/-- The checksum of a payload: the first four bytes of its hash. -/
def checksum (env : NetEnv) (payload : List UInt8) : Nat := env.hash payload % 2 ^ 32

/-- `CNetMessage`; `nHdrPos` and `nDataPos` are the lengths of `hdrbuf` and `vRecv`. -/
structure CNetMessage where
  in_data : Bool
  hdrbuf : List UInt8
  hdr : CMessageHeader
  vRecv : List UInt8

namespace CNetMessage

/-- `CMessageHeader()` in a new message is overwritten before it is read. -/
def new : CNetMessage := ⟨false, [], ⟨[], [], 0, 0⟩, []⟩

def complete (msg : CNetMessage) : Bool := msg.in_data && decide (msg.hdr.nMessageSize = msg.vRecv.length)

/-- `readHeader`: how many bytes it took, `none` for -1, and the message. -/
def readHeader (pch : List UInt8) (msg : CNetMessage) : Option Nat × CNetMessage :=
  let nCopy := min (HEADER_SIZE - msg.hdrbuf.length) pch.length
  let msg := { msg with hdrbuf := msg.hdrbuf ++ pch.take nCopy }
  if msg.hdrbuf.length < HEADER_SIZE then (some nCopy, msg)
  else
    match CMessageHeader.unserialize msg.hdrbuf with
    | none => (none, msg)
    | some (hdr, _) =>
      if hdr.nMessageSize > MAX_SIZE then (none, { msg with hdr })
      else (some nCopy, { msg with hdr, in_data := true })

def readData (pch : List UInt8) (msg : CNetMessage) : Option Nat × CNetMessage :=
  let nCopy := min (msg.hdr.nMessageSize - msg.vRecv.length) pch.length
  (some nCopy, { msg with vRecv := msg.vRecv ++ pch.take nCopy })

/-- One round of `ReceiveMsgBytes` on its message. -/
def read (pch : List UInt8) (msg : CNetMessage) : Option Nat × CNetMessage :=
  if !msg.in_data then msg.readHeader pch else msg.readData pch

end CNetMessage

/-- The message that the next byte belongs to, after the others: "get current incomplete message, or
create a new one". -/
def currentMsg (vRecvMsg : List CNetMessage) : List CNetMessage × CNetMessage :=
  match vRecvMsg.getLast? with
  | none => (vRecvMsg, .new)
  | some msg => if msg.complete then (vRecvMsg, .new) else (vRecvMsg.dropLast, msg)

/-- The loop of `ReceiveMsgBytes`; `none`: it takes more rounds. -/
def receiveLoop : Nat → List UInt8 → List CNetMessage → Option (Bool × List CNetMessage)
  | _, [], vRecvMsg => some (true, vRecvMsg)
  | 0, _ :: _, _ => none
  | fuel + 1, b :: pch, vRecvMsg =>
    let (before, msg) := currentMsg vRecvMsg
    match msg.read (b :: pch) with
    | (none, msg) => some (false, before ++ [msg])
    | (some handled, msg) => receiveLoop fuel ((b :: pch).drop handled) (before ++ [msg])

def receiveMsgBytes (pch : List UInt8) (vRecvMsg : List CNetMessage) : Option (Bool × List CNetMessage) :=
  receiveLoop pch.length pch vRecvMsg

/-! ### ProcessMessages -/

/-- What `ProcessMessage` is called with: the command and the payload. -/
abbrev Handed := List UInt8 × List UInt8

/-- What a call of `ProcessMessage` does to the connection. -/
inductive Handling
  | keeps
  | disconnects
  | closes (lockRecv : Bool)

/-- What a call of `ProcessMessages` meets: requests left in `vRecvGetData`, `nSendSize >= SendBufferSize()`
at each message, and `ProcessMessage`. -/
structure ProcessCall where
  fGetData : Bool
  fFull : Nat → Bool
  processMessage : Handed → Handling

/-- The loop of `ProcessMessages` up to the call of `ProcessMessage`: `fOk`, the messages from `it` on, and
what is handed over. -/
def processLoop (env : NetEnv) (fFull : Nat → Bool) :
    Nat → List CNetMessage → Bool × List CNetMessage × Option Handed
  | _, [] => (true, [], none)
  | n, msg :: vRecvMsg =>
    if fFull n then (true, msg :: vRecvMsg, none)
    else if !msg.complete then (true, msg :: vRecvMsg, none)
    else if msg.hdr.pchMessageStart ≠ env.pchMessageStart then (false, vRecvMsg, none)
    else if !msg.hdr.isValid env then processLoop env fFull (n + 1) vRecvMsg
    else if checksum env msg.vRecv ≠ msg.hdr.nChecksum then processLoop env fFull (n + 1) vRecvMsg
    else (true, vRecvMsg, some (msg.hdr.getCommand, msg.vRecv))

/-- The receiving half of `CNode`, with the bytes that it received and what was handed to
`ProcessMessage`. -/
structure Receiver where
  vRecvMsg : List CNetMessage
  fDisconnect : Bool
  /-- `hSocket != INVALID_SOCKET`. -/
  fOpen : Bool
  received : List UInt8
  handed : List Handed

namespace Receiver

def new : Receiver := ⟨[], false, true, [], []⟩

/-- `CloseSocketDisconnect`; `lockRecv`: whether it gets the lock of `vRecvMsg`. -/
def closeSocketDisconnect (lockRecv : Bool) (r : Receiver) : Receiver :=
  { r with fDisconnect := true, fOpen := false, vRecvMsg := if lockRecv then [] else r.vRecvMsg }

def processMessages (env : NetEnv) (call : ProcessCall) (r : Receiver) : Bool × Receiver :=
  if call.fGetData then (true, r)
  else if r.fDisconnect then (true, r)
  else
    let (fOk, vRecvMsg, msg) := processLoop env call.fFull 0 r.vRecvMsg
    match msg with
    | none => (fOk, { r with vRecvMsg })
    | some msg =>
      let r := { r with handed := r.handed ++ [msg] }
      -- "In case the connection got shut down, its receive buffer was wiped"
      match call.processMessage msg with
      | .keeps => (fOk, { r with vRecvMsg })
      | .disconnects => (fOk, { r with fDisconnect := true })
      | .closes lockRecv => (fOk, r.closeSocketDisconnect lockRecv)

/-- What happens to a receiver: bytes from `recv`, a turn of `ThreadMessageHandler`, or a
disconnection. -/
inductive Call
  | receive (pch : List UInt8)
  | process (call : ProcessCall)
  | close (lockRecv : Bool)

/-- One call; `none` where `ReceiveMsgBytes` does not return. -/
def step (env : NetEnv) (r : Receiver) : Call → Option Receiver
  | .receive pch =>
    if r.fOpen then
      (receiveMsgBytes pch r.vRecvMsg).map fun (fOk, vRecvMsg) =>
        let r := { r with vRecvMsg, received := r.received ++ pch }
        if fOk then r else r.closeSocketDisconnect true
    else some r
  | .process call =>
    if r.fDisconnect then some r
    else
      let (fOk, r) := r.processMessages env call
      some (if fOk then r else r.closeSocketDisconnect true)
  | .close lockRecv => some (r.closeSocketDisconnect lockRecv)

def runAll (env : NetEnv) (r : Receiver) (calls : List Call) : Option Receiver := calls.foldlM (step env) r

end Receiver

/-- A message at the front of a stream. -/
def readMessage : Reader CNetMessage := fun s => do
  let (hdrbuf, rest) ← bytes HEADER_SIZE s
  let (hdr, _) ← CMessageHeader.unserialize hdrbuf
  if hdr.nMessageSize > MAX_SIZE then none
  else
    let (vRecv, rest) ← bytes hdr.nMessageSize rest
    some (⟨true, hdrbuf, hdr, vRecv⟩, rest)

def CNetMessage.accepted (env : NetEnv) (msg : CNetMessage) : Option Handed :=
  if msg.hdr.isValid env ∧ checksum env msg.vRecv = msg.hdr.nChecksum then some (msg.hdr.getCommand, msg.vRecv)
  else none

/-- **The messages that the bytes determine.** -/
def messagesOf (env : NetEnv) (s : List UInt8) : List Handed :=
  (values readMessage s).filterMap (CNetMessage.accepted env)

theorem takes_unserialize : Takes CMessageHeader.unserialize HEADER_SIZE :=
  (takes_bytes 4).bind fun _ => (takes_bytes COMMAND_SIZE).bind fun _ =>
    (takes_readLittleEndian 4).bind fun _ => (takes_readLittleEndian 4).bind fun _ => takes_pure _

/-! ### What a message has received -/

namespace CNetMessage

/-- The bytes of the stream that went into a message. -/
def raw (msg : CNetMessage) : List UInt8 := msg.hdrbuf ++ msg.vRecv

/-- The header of a message is there. -/
structure Headed (msg : CNetMessage) : Prop where
  in_data : msg.in_data = true
  length : msg.hdrbuf.length = HEADER_SIZE
  hdr : CMessageHeader.unserialize msg.hdrbuf = some (msg.hdr, [])
  size : msg.hdr.nMessageSize ≤ MAX_SIZE

/-- A message that is complete. -/
structure Whole (msg : CNetMessage) : Prop extends Headed msg where
  data : msg.vRecv.length = msg.hdr.nMessageSize

/-- A message that more bytes belong to. -/
inductive Unfinished (msg : CNetMessage) : Prop
  | header : msg.in_data = false → msg.hdrbuf.length < HEADER_SIZE → msg.vRecv = [] → Unfinished msg
  | data : Headed msg → msg.vRecv.length < msg.hdr.nMessageSize → Unfinished msg

variable {msg msg' : CNetMessage} {pch : List UInt8}

theorem Whole.complete (h : msg.Whole) : msg.complete = true := by
  simp [CNetMessage.complete, h.in_data, h.data]

theorem Unfinished.complete (h : msg.Unfinished) : msg.complete = false := by
  cases h with
  | header hdata _ _ => simp [CNetMessage.complete, hdata]
  | data hheaded hlt => simp [CNetMessage.complete, Nat.ne_of_gt hlt]

theorem unfinished_new : new.Unfinished := .header rfl (by decide) rfl

end CNetMessage

variable {msg : CNetMessage} {vRecvMsg : List CNetMessage}

/-- **A message at the front of a stream** is one that is complete. -/
theorem readMessage_eq_some {s rest : List UInt8} :
    readMessage s = some (msg, rest) ↔ msg.Whole ∧ s = msg.raw ++ rest := by
  constructor
  · intro h
    rw [readMessage] at h
    simp only [Option.bind_eq_bind, Option.bind_eq_some_iff, Prod.exists] at h
    obtain ⟨hdrbuf, after, hfirst, hdr, last, hhdr, h⟩ := h
    split at h
    · cases h
    · next hsize =>
      simp only [Option.bind_eq_some_iff, Prod.exists, Option.some.injEq, Prod.mk.injEq] at h
      obtain ⟨vRecv, tail, hdata, rfl, rfl⟩ := h
      obtain ⟨hlen, rfl⟩ := bytes_eq_some_iff.mp hfirst
      obtain ⟨hlen', rfl⟩ := bytes_eq_some_iff.mp hdata
      obtain ⟨hdr', hread⟩ := takes_unserialize.exists_of_length hlen
      obtain ⟨rfl, rfl⟩ := Prod.mk.inj (Option.some.inj (hhdr.symm.trans hread))
      exact ⟨⟨⟨rfl, hlen, hread, Nat.le_of_not_lt hsize⟩, hlen'⟩, (List.append_assoc _ _ _).symm⟩
  · rintro ⟨h, rfl⟩
    obtain ⟨in_data, hdrbuf, hdr, vRecv⟩ := msg
    obtain ⟨⟨rfl, hlen, hread, hsize⟩, hdata⟩ := h
    have hfirst : bytes HEADER_SIZE (hdrbuf ++ vRecv ++ rest) = some (hdrbuf, vRecv ++ rest) :=
      bytes_eq_some_iff.mpr ⟨hlen, List.append_assoc _ _ _⟩
    have hlast : bytes hdr.nMessageSize (vRecv ++ rest) = some (vRecv, rest) :=
      bytes_eq_some_iff.mpr ⟨hdata, rfl⟩
    have hnot : ¬ hdr.nMessageSize > MAX_SIZE := Nat.not_lt.mpr hsize
    dsimp only at hread
    simp only [readMessage, CNetMessage.raw, hfirst, hread, hlast, Option.bind_eq_bind, Option.bind_some,
      if_neg hnot]

theorem reads_readMessage (h : msg.Whole) : Reads readMessage msg.raw msg := fun _ =>
  readMessage_eq_some.mpr ⟨h, rfl⟩

theorem CNetMessage.Headed.le_length (h : msg.Headed) : HEADER_SIZE ≤ msg.raw.length := by
  rw [raw, List.length_append, h.length]
  exact Nat.le_add_right _ _

theorem framing_readMessage : Framing readMessage where
  shrinks h := by
    obtain ⟨hwhole, rfl⟩ := readMessage_eq_some.mp h
    have hle := hwhole.le_length
    have hpos : 0 < HEADER_SIZE := by decide
    rw [List.length_append]
    omega
  stable t h := by
    obtain ⟨hwhole, rfl⟩ := readMessage_eq_some.mp h
    exact readMessage_eq_some.mpr ⟨hwhole, List.append_assoc _ _ _⟩

theorem CNetMessage.Unfinished.readMessage_eq (h : msg.Unfinished) : readMessage msg.raw = none := by
  by_contra hsome
  obtain ⟨⟨msg', rest⟩, hread⟩ := Option.ne_none_iff_exists'.mp hsome
  obtain ⟨hwhole, heq⟩ := readMessage_eq_some.mp hread
  have hle := hwhole.le_length
  have hlength := congrArg List.length heq
  rw [List.length_append] at hlength
  cases h with
  | header _ hlt hnil =>
    rw [raw, hnil, List.append_nil] at hlength
    omega
  | data hheaded hlt =>
    rw [raw, raw, List.append_assoc] at heq
    obtain ⟨hbuf, hrest⟩ := List.append_inj heq (hheaded.length.trans hwhole.length.symm)
    have hhdr := hheaded.hdr
    rw [hbuf, hwhole.hdr] at hhdr
    obtain ⟨hhdr, -⟩ := Prod.mk.inj (Option.some.inj hhdr)
    rw [hrest, List.length_append, ← hhdr, hwhole.data] at hlt
    omega

/-! ### A piece of the stream -/

/-- A queue of messages: all complete, but the last one may be unfinished. -/
structure Fed (vRecvMsg : List CNetMessage) : Prop where
  split : ∃ full last, vRecvMsg = full ++ last ∧ (∀ msg ∈ full, msg.Whole) ∧
    (last = [] ∨ ∃ msg, last = [msg] ∧ msg.Unfinished)

theorem fed_nil : Fed [] := ⟨[], [], rfl, fun _ h => absurd h List.not_mem_nil, .inl rfl⟩

theorem fed_concat {before : List CNetMessage} (hbefore : ∀ msg ∈ before, msg.Whole)
    (h : msg.Whole ∨ msg.Unfinished) : Fed (before ++ [msg]) := by
  rcases h with hwhole | hopen
  · refine ⟨before ++ [msg], [], (List.append_nil _).symm, ?_, .inl rfl⟩
    rw [List.forall_mem_append]
    exact ⟨hbefore, fun _ hmem => List.mem_singleton.mp hmem ▸ hwhole⟩
  · exact ⟨before, [msg], rfl, hbefore, .inr ⟨msg, rfl, hopen⟩⟩

/-- **The messages of what was received** are those of the queue that are complete. -/
theorem Fed.values_raw (h : Fed vRecvMsg) :
    values readMessage (vRecvMsg.flatMap CNetMessage.raw) = vRecvMsg.filter CNetMessage.complete := by
  obtain ⟨full, last, rfl, hfull, hlast⟩ := h.split
  have hfilter : full.filter CNetMessage.complete = full :=
    List.filter_eq_self.mpr fun msg hmem => (hfull msg hmem).complete
  have hrest : values readMessage (last.flatMap CNetMessage.raw) = last.filter CNetMessage.complete := by
    rcases hlast with rfl | ⟨msg, rfl, hopen⟩
    · rfl
    · rw [List.flatMap_singleton, Framing.values_of_none hopen.readMessage_eq]
      simp [hopen.complete]
  rw [List.flatMap_append, framing_readMessage.values_flatMap fun msg hmem => reads_readMessage (hfull msg hmem),
    List.filter_append, hfilter, hrest]

theorem Fed.currentMsg (h : Fed vRecvMsg) : ∃ before msg, currentMsg vRecvMsg = (before, msg) ∧
    (∀ msg ∈ before, msg.Whole) ∧ msg.Unfinished ∧
      before.flatMap CNetMessage.raw ++ msg.raw = vRecvMsg.flatMap CNetMessage.raw := by
  obtain ⟨full, last, rfl, hfull, hlast⟩ := h.split
  rcases hlast with rfl | ⟨msg, rfl, hopen⟩
  · refine ⟨full, .new, ?_, hfull, CNetMessage.unfinished_new, by simp [CNetMessage.raw, CNetMessage.new]⟩
    rw [List.append_nil, Net.currentMsg]
    split
    · rfl
    · next msg hlast =>
      rw [if_pos (hfull msg (List.mem_of_getLast? hlast)).complete]
  · refine ⟨full, msg, ?_, hfull, hopen, by simp⟩
    simp [Net.currentMsg, hopen.complete]

/-- **One round** takes a byte at least, and adds what it takes to the message. -/
theorem CNetMessage.Unfinished.read {msg' : CNetMessage} {pch : List UInt8} {handled : Nat}
    (h : msg.Unfinished) (hne : pch ≠ []) (hread : msg.read pch = (some handled, msg')) :
    0 < handled ∧ msg'.raw = msg.raw ++ pch.take handled ∧ (msg'.Whole ∨ msg'.Unfinished) := by
  have hpos := List.length_pos_of_ne_nil hne
  cases h with
  | header hdata hlt hnil =>
    simp only [CNetMessage.read, hdata, Bool.not_false, if_true, readHeader] at hread
    generalize hcopy : min (HEADER_SIZE - msg.hdrbuf.length) pch.length = nCopy at hread
    have hlength : (msg.hdrbuf ++ pch.take nCopy).length = msg.hdrbuf.length + nCopy := by
      rw [List.length_append, List.length_take]
      omega
    split at hread
    · next hshort =>
      obtain ⟨hhandled, rfl⟩ := Prod.mk.inj hread
      obtain rfl := Option.some.inj hhandled
      refine ⟨by omega, ?_, .inr (.header rfl hshort hnil)⟩
      simp [raw, hnil]
    · next hfull =>
      have hbuf : (msg.hdrbuf ++ pch.take nCopy).length = HEADER_SIZE := by omega
      obtain ⟨hdr, hhdr⟩ := takes_unserialize.exists_of_length hbuf
      rw [hhdr] at hread
      dsimp only at hread
      split at hread
      · cases (Prod.mk.inj hread).1
      · next hsize =>
        obtain ⟨hhandled, rfl⟩ := Prod.mk.inj hread
        obtain rfl := Option.some.inj hhandled
        have hheaded : Headed
            { msg with hdrbuf := msg.hdrbuf ++ pch.take nCopy, hdr, in_data := true } :=
          ⟨rfl, hbuf, hhdr, Nat.le_of_not_lt hsize⟩
        refine ⟨by omega, by simp [raw, hnil], ?_⟩
        rcases Nat.eq_zero_or_pos hdr.nMessageSize with hzero | hsome
        · exact .inl ⟨hheaded, by simp [hnil, hzero]⟩
        · exact .inr (.data hheaded (by simpa [hnil] using hsome))
  | data hheaded hlt =>
    simp only [CNetMessage.read, hheaded.in_data, Bool.not_true, Bool.false_eq_true, if_false, readData] at hread
    generalize hcopy : min (msg.hdr.nMessageSize - msg.vRecv.length) pch.length = nCopy at hread
    obtain ⟨hhandled, rfl⟩ := Prod.mk.inj hread
    obtain rfl := Option.some.inj hhandled
    have hlength : (msg.vRecv ++ pch.take nCopy).length = msg.vRecv.length + nCopy := by
      rw [List.length_append, List.length_take]
      omega
    have hheaded' : Headed { msg with in_data := true, vRecv := msg.vRecv ++ pch.take nCopy } :=
      ⟨rfl, hheaded.length, hheaded.hdr, hheaded.size⟩
    refine ⟨by omega, by simp [raw], ?_⟩
    rcases Nat.lt_or_ge (msg.vRecv.length + nCopy) msg.hdr.nMessageSize with hless | hall
    · exact .inr (.data hheaded' (by rwa [hlength]))
    · have hle : msg.vRecv.length + nCopy ≤ msg.hdr.nMessageSize := by omega
      exact .inl ⟨hheaded', hlength.trans (Nat.le_antisymm hle hall)⟩

/-- **A piece of the stream** is added to the queue, or a header is refused. -/
theorem receiveLoop_spec {fuel : Nat} {pch : List UInt8} (h : Fed vRecvMsg)
    (hfuel : pch.length ≤ fuel) : ∃ fOk vRecvMsg', receiveLoop fuel pch vRecvMsg = some (fOk, vRecvMsg') ∧
      (fOk = true → Fed vRecvMsg' ∧
        vRecvMsg'.flatMap CNetMessage.raw = vRecvMsg.flatMap CNetMessage.raw ++ pch) := by
  induction fuel generalizing pch vRecvMsg with
  | zero =>
    obtain rfl := List.length_eq_zero_iff.mp (Nat.le_zero.mp hfuel)
    exact ⟨true, vRecvMsg, by rw [receiveLoop], fun _ => ⟨h, (List.append_nil _).symm⟩⟩
  | succ fuel ih =>
    cases pch with
    | nil => exact ⟨true, vRecvMsg, by rw [receiveLoop], fun _ => ⟨h, (List.append_nil _).symm⟩⟩
    | cons b pch =>
      obtain ⟨before, msg, hcurrent, hbefore, hopen, hraw⟩ := h.currentMsg
      rw [receiveLoop]
      simp only [hcurrent]
      cases hread : msg.read (b :: pch) with
      | mk handled msg' =>
        cases handled with
        | none => exact ⟨false, before ++ [msg'], rfl, fun hok => absurd hok Bool.false_ne_true⟩
        | some handled =>
          obtain ⟨hpos, hraw', hfed⟩ := hopen.read (List.cons_ne_nil b pch) hread
          have hless : ((b :: pch).drop handled).length ≤ fuel := by
            rw [List.length_drop]
            omega
          obtain ⟨fOk, vRecvMsg', hloop, hok⟩ := ih (fed_concat hbefore hfed) hless
          refine ⟨fOk, vRecvMsg', hloop, fun htrue => ⟨(hok htrue).1, ?_⟩⟩
          rw [(hok htrue).2, List.flatMap_append, List.flatMap_singleton, hraw', ← List.append_assoc,
            hraw, List.append_assoc, List.take_append_drop]

/-- **The messages that a call takes from the front** are complete, and what it hands over is what
there is to hand over of them. -/
theorem processLoop_spec (env : NetEnv) (fFull : Nat → Bool) (n : Nat) (vRecvMsg : List CNetMessage) :
    ∃ taken, vRecvMsg = taken ++ (processLoop env fFull n vRecvMsg).2.1 ∧
      (∀ msg ∈ taken, msg.complete = true) ∧
        taken.filterMap (CNetMessage.accepted env) = (processLoop env fFull n vRecvMsg).2.2.toList := by
  induction vRecvMsg generalizing n with
  | nil => exact ⟨[], rfl, fun _ h => absurd h List.not_mem_nil, rfl⟩
  | cons msg vRecvMsg ih =>
    have hskip : msg.complete = true → msg.accepted env = none →
        ∃ taken, msg :: vRecvMsg = taken ++ (processLoop env fFull (n + 1) vRecvMsg).2.1 ∧
          (∀ msg ∈ taken, msg.complete = true) ∧
            taken.filterMap (CNetMessage.accepted env) =
              (processLoop env fFull (n + 1) vRecvMsg).2.2.toList := by
      intro hcomplete hnone
      obtain ⟨taken, hsplit, htaken, hhanded⟩ := ih (n + 1)
      refine ⟨msg :: taken, congrArg (msg :: ·) hsplit, ?_, ?_⟩
      · rw [List.forall_mem_cons]
        exact ⟨hcomplete, htaken⟩
      · rw [List.filterMap_cons_none hnone, hhanded]
    rw [processLoop]
    split
    · exact ⟨[], rfl, fun _ h => absurd h List.not_mem_nil, rfl⟩
    split
    · exact ⟨[], rfl, fun _ h => absurd h List.not_mem_nil, rfl⟩
    next hcomplete =>
    have hcomplete : msg.complete = true := by simpa using hcomplete
    split
    · next hstart =>
      have hnone : msg.accepted env = none := by simp [CNetMessage.accepted, CMessageHeader.isValid, hstart]
      exact ⟨[msg], rfl, fun _ hmem => List.mem_singleton.mp hmem ▸ hcomplete, by simp [hnone]⟩
    split
    · next hvalid => exact hskip hcomplete (by simp_all [CNetMessage.accepted])
    split
    · next hsum => exact hskip hcomplete (by simp [CNetMessage.accepted, hsum])
    · next hvalid hsum =>
      have hsome : msg.accepted env = some (msg.hdr.getCommand, msg.vRecv) := by
        simp_all [CNetMessage.accepted]
      exact ⟨[msg], rfl, fun _ hmem => List.mem_singleton.mp hmem ▸ hcomplete, by simp [hsome]⟩

/-! ### Runs of a receiver -/

theorem messagesOf_append (env : NetEnv) (s t : List UInt8) : messagesOf env s <+: messagesOf env (s ++ t) :=
  (framing_readMessage.values_append s t).filterMap _

theorem Fed.whole (h : Fed vRecvMsg) (hmem : msg ∈ vRecvMsg) (hcomplete : msg.complete = true) : msg.Whole:= by
  obtain ⟨full, last, rfl, hfull, hlast⟩ := h.split
  rcases List.mem_append.mp hmem with hmem | hmem
  · exact hfull msg hmem
  · rcases hlast with rfl | ⟨last, rfl, hopen⟩
    · exact absurd hmem List.not_mem_nil
    · obtain rfl := List.mem_singleton.mp hmem
      exact absurd (hcomplete.symm.trans hopen.complete) Bool.false_ne_true.symm

theorem Fed.of_append {taken : List CNetMessage} (h : Fed (taken ++ vRecvMsg))
    (htaken : ∀ msg ∈ taken, msg.complete = true) : Fed vRecvMsg := by
  obtain ⟨full, last, heq, hfull, hlast⟩ := h.split
  rcases List.append_eq_append_iff.mp heq with ⟨rest, rfl, rfl⟩ | ⟨rest, rfl, rfl⟩
  · exact ⟨rest, last, rfl, fun msg hmem => hfull msg (List.mem_append_right _ hmem), hlast⟩
  · refine ⟨[], vRecvMsg, rfl, fun _ h => absurd h List.not_mem_nil, ?_⟩
    rcases hlast with hnil | ⟨msg, hone, hopen⟩
    · exact .inl (List.append_eq_nil_iff.mp hnil).2
    · rcases List.append_eq_singleton_iff.mp hone with ⟨-, rfl⟩ | ⟨rfl, rfl⟩
      · exact .inr ⟨msg, rfl, hopen⟩
      · exact .inl rfl

theorem fed_append {done : List CNetMessage} (hdone : ∀ msg ∈ done, msg.Whole) (h : Fed vRecvMsg) :
    Fed (done ++ vRecvMsg) := by
  obtain ⟨full, last, rfl, hfull, hlast⟩ := h.split
  refine ⟨done ++ full, last, (List.append_assoc _ _ _).symm, ?_, hlast⟩
  rw [List.forall_mem_append]
  exact ⟨hdone, hfull⟩

namespace Receiver

variable {env : NetEnv} {r r' : Receiver}

/-- What was taken from the queue, while the connection is up: with the queue it is what was received, and
what was handed over is what there is to hand over of it. -/
structure Taken (env : NetEnv) (r : Receiver) (done : List CNetMessage) : Prop where
  whole : ∀ msg ∈ done, msg.Whole
  received : r.received = (done ++ r.vRecvMsg).flatMap CNetMessage.raw
  handed : r.handed = done.filterMap (CNetMessage.accepted env)

/-- **The invariant of a receiver.** -/
structure Inv (env : NetEnv) (r : Receiver) : Prop where
  handed : r.handed <+: messagesOf env r.received
  fed : r.fOpen = true → Fed r.vRecvMsg
  up : r.fDisconnect = false → r.fOpen = true ∧ ∃ done, r.Taken env done

theorem Taken.messagesOf_eq {done : List CNetMessage} (h : r.Taken env done) (hfed : Fed r.vRecvMsg) :
    messagesOf env r.received =
      r.handed ++ (r.vRecvMsg.filter CNetMessage.complete).filterMap (CNetMessage.accepted env) := by
  have hfilter : done.filter CNetMessage.complete = done :=
    List.filter_eq_self.mpr fun msg hmem => (h.whole msg hmem).complete
  rw [messagesOf, h.received, (fed_append h.whole hfed).values_raw, List.filter_append, hfilter,
    List.filterMap_append, h.handed]

theorem inv_new (env : NetEnv) : Inv env new where
  handed := List.nil_prefix
  fed _ := fed_nil
  up _ := ⟨rfl, [], fun _ h => absurd h List.not_mem_nil, rfl, rfl⟩

theorem Inv.close (h : r.Inv env) (lockRecv : Bool) : (r.closeSocketDisconnect lockRecv).Inv env where
  handed := h.handed
  fed hopen := absurd hopen Bool.false_ne_true
  up hup := absurd hup Bool.false_ne_true.symm

/-- **Bytes from the network.** -/
theorem Inv.receive (h : r.Inv env) (hopen : r.fOpen = true) (pch : List UInt8) :
    ∃ fOk vRecvMsg, receiveMsgBytes pch r.vRecvMsg = some (fOk, vRecvMsg) ∧
      (let r' := { r with vRecvMsg, received := r.received ++ pch }
       if fOk then r' else r'.closeSocketDisconnect true).Inv env := by
  obtain ⟨fOk, vRecvMsg, hloop, hok⟩ := receiveLoop_spec (h.fed hopen) (Nat.le_refl pch.length)
  refine ⟨fOk, vRecvMsg, hloop, ?_⟩
  have hhanded := h.handed.trans (messagesOf_append env r.received pch)
  cases fOk with
  | false =>
    exact ⟨hhanded, fun hopen => absurd hopen Bool.false_ne_true, fun hup => absurd hup Bool.false_ne_true.symm⟩
  | true =>
    obtain ⟨hfed, hraw⟩ := hok rfl
    refine ⟨hhanded, fun _ => hfed, fun hup => ⟨hopen, ?_⟩⟩
    obtain ⟨-, done, htaken⟩ := h.up hup
    refine ⟨done, htaken.whole, ?_, htaken.handed⟩
    change r.received ++ pch = (done ++ vRecvMsg).flatMap CNetMessage.raw
    rw [htaken.received, List.flatMap_append, List.flatMap_append, hraw, List.append_assoc]

/-- **A call of `ProcessMessages`.** -/
theorem Inv.processMessages (h : r.Inv env) (call : ProcessCall) : (r.processMessages env call).2.Inv env := by
  rw [Receiver.processMessages]
  split
  · exact h
  split
  · exact h
  next hup =>
  have hup : r.fDisconnect = false := by simpa using hup
  obtain ⟨hopen, done, htaken⟩ := h.up hup
  obtain ⟨taken, hsplit, hcomplete, hhanded⟩ := processLoop_spec env call.fFull 0 r.vRecvMsg
  generalize processLoop env call.fFull 0 r.vRecvMsg = result at hsplit hhanded
  obtain ⟨fOk, vRecvMsg, msg⟩ := result
  have hfed := h.fed hopen
  have hwhole : ∀ msg ∈ done ++ taken, msg.Whole := by
    rw [List.forall_mem_append]
    exact ⟨htaken.whole, fun msg hmem => hfed.whole (hsplit ▸ List.mem_append_left _ hmem) (hcomplete msg hmem)⟩
  have hleft : Fed vRecvMsg := Fed.of_append (hsplit ▸ hfed) hcomplete
  have hreceived : r.received = (done ++ taken ++ vRecvMsg).flatMap CNetMessage.raw := by
    rw [htaken.received, hsplit, List.append_assoc]
  have hfilter : (done ++ taken).filterMap (CNetMessage.accepted env) = r.handed ++ msg.toList := by
    rw [List.filterMap_append, hhanded, htaken.handed]
  have htaken' : Taken env { r with vRecvMsg, handed := r.handed ++ msg.toList } (done ++ taken) :=
    ⟨hwhole, hreceived, hfilter.symm⟩
  have hfirst : r.handed ++ msg.toList <+: messagesOf env r.received :=
    ⟨_, (htaken'.messagesOf_eq hleft).symm⟩
  have hinv : Inv env { r with vRecvMsg, handed := r.handed ++ msg.toList } :=
    ⟨hfirst, fun _ => hleft, fun _ => ⟨hopen, _, htaken'⟩⟩
  cases msg with
  | none =>
    rw [Option.toList_none, List.append_nil] at hinv
    exact hinv
  | some msg =>
    dsimp only
    split
    · exact hinv
    · exact ⟨hfirst, fun _ => hfed, fun hup => absurd hup Bool.false_ne_true.symm⟩
    · exact ⟨hfirst, fun hopen => absurd hopen Bool.false_ne_true,
        fun hup => absurd hup Bool.false_ne_true.symm⟩

/-- **One call.** -/
theorem Inv.step (h : r.Inv env) (call : Call) : ∃ r', r.step env call = some r' ∧ r'.Inv env := by
  cases call with
  | receive pch =>
    rw [Receiver.step]
    split
    · next hopen =>
      obtain ⟨fOk, vRecvMsg, hloop, hinv⟩ := h.receive hopen pch
      rw [hloop]
      exact ⟨_, rfl, hinv⟩
    · exact ⟨r, rfl, h⟩
  | process call =>
    rw [Receiver.step]
    split
    · exact ⟨r, rfl, h⟩
    · have hinv := h.processMessages call
      generalize r.processMessages env call = result at hinv
      obtain ⟨fOk, r'⟩ := result
      refine ⟨_, rfl, ?_⟩
      cases fOk with
      | false => exact hinv.close true
      | true => exact hinv
  | close lockRecv => exact ⟨_, rfl, h.close lockRecv⟩

theorem received_receive {pch : List UInt8} (hopen : r.fOpen = true) (h : r.step env (.receive pch) = some r') :
    r'.received = r.received ++ pch := by
  rw [step, if_pos hopen, Option.map_eq_some_iff] at h
  obtain ⟨⟨fOk, vRecvMsg⟩, -, rfl⟩ := h
  cases fOk <;> rfl

theorem received_processMessages (env : NetEnv) (call : ProcessCall) (r : Receiver) :
    (r.processMessages env call).2.received = r.received := by
  rw [processMessages]
  split
  · rfl
  split
  · rfl
  dsimp only
  split
  · rfl
  · split <;> rfl

theorem received_process {call : ProcessCall} (h : r.step env (.process call) = some r') :
    r'.received = r.received := by
  have hsame := received_processMessages env call r
  rw [step] at h
  split at h
  · rw [← Option.some.inj h]
  · generalize r.processMessages env call = result at h hsame
    obtain ⟨fOk, r₁⟩ := result
    rw [← Option.some.inj h, ← hsame]
    cases fOk <;> rfl

/-- **Every run** returns and keeps the invariant. -/
theorem Inv.runAll (h : r.Inv env) (calls : List Call) : ∃ r', r.runAll env calls = some r' ∧ r'.Inv env := by
  induction calls generalizing r with
  | nil => exact ⟨r, rfl, h⟩
  | cons call calls ih =>
    obtain ⟨r₁, hstep, hinv⟩ := h.step call
    obtain ⟨r', hrun, hinv'⟩ := ih hinv
    refine ⟨r', ?_, hinv'⟩
    rw [Receiver.runAll, List.foldlM_cons, hstep]
    exact hrun

theorem Inv.handed_eq (h : r.Inv env) (hup : r.fDisconnect = false)
    (hdrained : ∀ msg ∈ r.vRecvMsg, msg.complete = false) : r.handed = messagesOf env r.received := by
  obtain ⟨hopen, done, htaken⟩ := h.up hup
  have hnone : r.vRecvMsg.filter CNetMessage.complete = [] := by
    rw [List.filter_eq_nil_iff]
    intro msg hmem
    rw [hdrained msg hmem]
    exact Bool.false_ne_true
  rw [htaken.messagesOf_eq (h.fed hopen), hnone, List.filterMap_nil, List.append_nil]

end Receiver

end Manna.Net
