import Manna.Lib.ByteFile
import Manna.NetMessage

/-!
Messages from one peer to another (`net.h`, `net.cpp`: `BeginMessage`, `EndMessage`, `SocketSendData`).

A message is written into `ssSend`, its size and checksum are put into its header, and it waits in
`vSendMsg` until the socket takes its bytes, any number at a time. Between the peers bytes keep their order.
A failed assertion is `none`; sizes do not overflow.

* `sendLoop_spec`: a call of `SocketSendData`, whatever the socket takes;
* `World.Inv.step`: what one step keeps;
* `wireFraming`: over every run, what arrives is what was queued, in order.
-/

namespace Manna.Net

open Codec ByteFile

/-! ### The sending half -/

/-- What `send` returns for so many bytes: how many it took, or an error, one that disconnects if it is
`fatal`. -/
inductive SendResult (n : Nat)
  | sent (nBytes : Fin (n + 1))
  | error (fatal : Bool)

/-- What the calls of `send` in one call of `SocketSendData` return. -/
abbrev Socket := Nat → (n : Nat) → SendResult n

/-- The sending half of `CNode`. -/
structure Sender where
  ssSend : List UInt8
  vSendMsg : List (List UInt8)
  nSendSize : Nat
  nSendOffset : Nat
  /-- `hSocket != INVALID_SOCKET`. -/
  fOpen : Bool

namespace Sender

def new : Sender := ⟨[], [], 0, 0, true⟩

/-- `send`, which fails on a socket that was closed. -/
def send (socket : Socket) (nSends n : Nat) (s : Sender) : SendResult n :=
  if s.fOpen then socket nSends n else .error true

/-- The loop of `SocketSendData` and what follows it: the node and the bytes that were sent. -/
def sendLoop (socket : Socket) : Nat → List (List UInt8) → Sender → Option (Sender × List UInt8)
  | _, [], s =>
    -- the two assertions after the loop
    if s.nSendOffset = 0 ∧ s.nSendSize = 0 then some ({ s with vSendMsg := [] }, []) else none
  | nSends, data :: vSendMsg, s =>
    if s.nSendOffset < data.length then
      match s.send socket nSends (data.length - s.nSendOffset) with
      | .sent nBytes =>
        if nBytes.val > 0 then
          let sent := (data.drop s.nSendOffset).take nBytes
          let nSendOffset := s.nSendOffset + nBytes
          if nSendOffset = data.length then
            (sendLoop socket (nSends + 1) vSendMsg
              { s with nSendOffset := 0, nSendSize := s.nSendSize - data.length }).map
                fun (s, rest) => (s, sent ++ rest)
          else some ({ s with nSendOffset, vSendMsg := data :: vSendMsg }, sent)
        else some ({ s with vSendMsg := data :: vSendMsg }, [])
      | .error fatal => some ({ s with vSendMsg := data :: vSendMsg, fOpen := s.fOpen && !fatal }, [])
    else none

def socketSendData (socket : Socket) (s : Sender) : Option (Sender × List UInt8) :=
  sendLoop socket 0 s.vSendMsg s

def beginMessage (env : NetEnv) (pszCommand : List UInt8) (s : Sender) : Option Sender :=
  if s.ssSend.length = 0 then some { s with ssSend := (CMessageHeader.new env pszCommand 0).serialize }
  else none

/-- `EndMessage`, without `-dropmessagestest`. -/
def endMessage (env : NetEnv) (socket : Socket) (s : Sender) : Option (Sender × List UInt8) :=
  if s.ssSend.length = 0 then some (s, [])
  else
    let nSize := s.ssSend.length - HEADER_SIZE
    let ssSend := write MESSAGE_SIZE_OFFSET (littleEndian 4 nSize) s.ssSend
    let nChecksum := checksum env (ssSend.drop HEADER_SIZE)
    if ssSend.length ≥ CHECKSUM_OFFSET + 4 then
      let data := write CHECKSUM_OFFSET (littleEndian 4 nChecksum) ssSend
      let queued := { s with
        ssSend := [], vSendMsg := s.vSendMsg ++ [data], nSendSize := s.nSendSize + data.length }
      -- "If write queue empty, attempt "optimistic write""
      if s.vSendMsg = [] then queued.socketSendData socket else some (queued, [])
    else none

/-- `PushMessage`: what is serialized goes between `BeginMessage` and `EndMessage`. -/
def pushMessage (env : NetEnv) (socket : Socket) (pszCommand payload : List UInt8) (s : Sender) :
    Option (Sender × List UInt8) := do
  let s ← s.beginMessage env pszCommand
  endMessage env socket { s with ssSend := s.ssSend ++ payload }

end Sender

/-! ### Two peers -/

/-- A sender and a receiver with the bytes between them, and what was queued. -/
structure World where
  sender : Sender
  wire : List UInt8
  receiver : Receiver
  queued : List Handed

/-- What happens: a message is pushed, `SocketSendData` is called, bytes arrive, messages are processed, or
one of the two disconnects. -/
inductive Event
  | push (pszCommand payload : List UInt8) (socket : Socket)
  | send (socket : Socket)
  | deliver (nBytes : Nat)
  | process (call : ProcessCall)
  | closeSender
  | closeReceiver (lockRecv : Bool)

namespace World

def new : World := ⟨.new, [], .new, []⟩

/-- One step; `none` where an assertion fails. -/
def step (env : NetEnv) (w : World) : Event → Option World
  | .push pszCommand payload socket =>
    (w.sender.pushMessage env socket pszCommand payload).map fun (sender, sent) =>
      { w with sender, wire := w.wire ++ sent, queued := w.queued ++ [(pszCommand, payload)] }
  | .send socket =>
    (w.sender.socketSendData socket).map fun (sender, sent) => { w with sender, wire := w.wire ++ sent }
  | .deliver nBytes =>
    if w.receiver.fOpen then
      (w.receiver.step env (.receive (w.wire.take nBytes))).map fun receiver =>
        { w with receiver, wire := w.wire.drop nBytes }
    else some w
  | .process call => (w.receiver.step env (.process call)).map fun receiver => { w with receiver }
  | .closeSender => some { w with sender := { w.sender with fOpen := false } }
  | .closeReceiver lockRecv => some { w with receiver := w.receiver.closeSocketDisconnect lockRecv }

def runAll (env : NetEnv) (w : World) (events : List Event) : Option World := events.foldlM (step env) w

/-- Nothing waits anywhere, and the connection is up. -/
structure Drained (w : World) : Prop where
  vSendMsg : w.sender.vSendMsg = []
  wire : w.wire = []
  vRecvMsg : w.receiver.vRecvMsg = []
  up : w.receiver.fDisconnect = false

end World

/-- A printable command of at most 12 characters. -/
def Printable (pszCommand : List UInt8) : Prop :=
  pszCommand.length ≤ COMMAND_SIZE ∧ ∀ c ∈ pszCommand, 0x20 ≤ c.toNat ∧ c.toNat ≤ 0x7E

def Event.Allowed : Event → Prop
  | .push pszCommand payload _ => Printable pszCommand ∧ payload.length ≤ MAX_SIZE
  | _ => True

/-- **What is asked of the framing**: between two peers what is handed over is what was queued, in order;
and of any stream, however it is cut, the messages that its bytes determine. -/
structure WireFraming (env : NetEnv) : Prop where
  endToEnd : ∀ events : List Event, (∀ event ∈ events, event.Allowed) →
    ∃ w, World.new.runAll env events = some w ∧
      w.sender.nSendSize = (w.sender.vSendMsg.map List.length).sum ∧
      w.receiver.handed <+: w.queued ∧ (w.Drained → w.receiver.handed = w.queued)
  determined : ∀ calls : List Receiver.Call, ∃ r, Receiver.new.runAll env calls = some r ∧
    (∀ stream, r.received <+: stream → r.handed <+: messagesOf env stream) ∧
    (r.fDisconnect = false → (∀ msg ∈ r.vRecvMsg, msg.complete = false) →
      r.handed = messagesOf env r.received)

/-! ### The bytes of a message -/

namespace CMessageHeader

/-- The fields of a header fit in their bytes. -/
structure Fits (hdr : CMessageHeader) : Prop where
  start : hdr.pchMessageStart.length = 4
  command : hdr.pchCommand.length = COMMAND_SIZE
  size : hdr.nMessageSize < 256 ^ 4
  checksum : hdr.nChecksum < 256 ^ 4

variable {hdr : CMessageHeader}

theorem Fits.reads (h : hdr.Fits) : Reads unserialize hdr.serialize hdr := by
  have hstart := reads_bytes hdr.pchMessageStart
  have hcommand := reads_bytes hdr.pchCommand
  rw [h.start] at hstart
  rw [h.command] at hcommand
  exact hstart.bind (hcommand.bind ((reads_littleEndian h.size).bind (reads_littleEndian h.checksum).map))

theorem Fits.length_serialize (h : hdr.Fits) : hdr.serialize.length = HEADER_SIZE := by
  simp only [serialize, List.length_append, length_littleEndian, h.start, h.command, COMMAND_SIZE, HEADER_SIZE]

theorem length_pchCommand (env : NetEnv) (pszCommand : List UInt8) (n : Nat) :
    (new env pszCommand n).pchCommand.length = COMMAND_SIZE := by
  simp only [new, List.length_append, List.length_take, List.length_replicate]
  omega

end CMessageHeader

/-- The header of a message as it is sent. -/
def finalHeader (env : NetEnv) (message : Handed) : CMessageHeader :=
  { CMessageHeader.new env message.1 0 with
    nMessageSize := message.2.length, nChecksum := checksum env message.2 }

def framed (env : NetEnv) (message : Handed) : CNetMessage :=
  ⟨true, (finalHeader env message).serialize, finalHeader env message, message.2⟩

section Message

variable (env : NetEnv) {message : Handed}

theorem fits_finalHeader (hsize : message.2.length ≤ MAX_SIZE) : (finalHeader env message).Fits where
  start := env.length_pchMessageStart
  command := CMessageHeader.length_pchCommand env message.1 0
  size := Nat.lt_of_le_of_lt hsize (by decide)
  checksum := Nat.mod_lt _ (by decide)

theorem framed_whole (hsize : message.2.length ≤ MAX_SIZE) : (framed env message).Whole := by
  have hfits := fits_finalHeader env hsize
  have hhdr := hfits.reads []
  rw [List.append_nil] at hhdr
  exact ⟨⟨rfl, hfits.length_serialize, hhdr, hsize⟩, rfl⟩

theorem validCommand_append {pszCommand : List UInt8} (h : ∀ c ∈ pszCommand, 0x20 ≤ c.toNat ∧ c.toNat ≤ 0x7E)
    (n : Nat) : CMessageHeader.validCommand (pszCommand ++ List.replicate n 0) = true := by
  induction pszCommand with
  | nil => cases n <;> simp [CMessageHeader.validCommand, List.replicate_succ]
  | cons c pszCommand ih =>
    rw [List.forall_mem_cons] at h
    have hne : c ≠ 0 := by
      rintro rfl
      exact absurd h.1.1 (by decide)
    have hrange : ¬ (c.toNat < 0x20 ∨ c.toNat > 0x7E) := by omega
    rw [List.cons_append, CMessageHeader.validCommand, if_neg hne, if_neg hrange]
    exact ih h.2

/-- **The command comes back.** -/
theorem getCommand_new {pszCommand : List UInt8} (h : Printable pszCommand) (n : Nat) :
    (CMessageHeader.new env pszCommand n).getCommand = pszCommand := by
  have hne : ∀ c ∈ pszCommand, c ≠ 0 := by
    rintro c hmem rfl
    exact absurd (h.2 0 hmem).1 (by decide)
  have htake : pszCommand.take COMMAND_SIZE = pszCommand := List.take_of_length_le h.1
  simp only [CMessageHeader.getCommand, CMessageHeader.new, htake]
  rcases Nat.eq_zero_or_pos (COMMAND_SIZE - pszCommand.length) with hzero | hpos
  · rw [hzero, List.replicate_zero, List.append_nil, if_neg]
    exact fun hlast => hne 0 (List.mem_of_getLast? hlast) rfl
  · obtain ⟨k, hk⟩ := Nat.exists_eq_succ_of_ne_zero (Nat.ne_of_gt hpos)
    have hall : ∀ c ∈ pszCommand, decide (c ≠ 0) = true := fun c hmem => decide_eq_true (hne c hmem)
    rw [hk, if_pos (by simp [List.replicate_succ']), List.takeWhile_append_of_pos hall]
    simp [List.replicate_succ]

theorem framed_accepted (h : Printable message.1) (hsize : message.2.length ≤ MAX_SIZE) :
    (framed env message).accepted env = some message := by
  have hvalid : (finalHeader env message).isValid env = true := by
    have hcommand : CMessageHeader.validCommand (finalHeader env message).pchCommand = true := by
      simp only [finalHeader, CMessageHeader.new, List.take_of_length_le h.1]
      exact validCommand_append h.2 _
    simp only [finalHeader, CMessageHeader.new] at hcommand
    simp [CMessageHeader.isValid, hcommand, finalHeader, CMessageHeader.new, hsize]
  have hget : (finalHeader env message).getCommand = message.1 := getCommand_new env h 0
  rw [CNetMessage.accepted, if_pos ⟨hvalid, rfl⟩]
  exact congrArg (fun command => some (command, message.2)) hget

/-- **The messages of what was queued.** -/
theorem messagesOf_framed {queued : List Handed}
    (h : ∀ message ∈ queued, Printable message.1 ∧ message.2.length ≤ MAX_SIZE) :
    messagesOf env (queued.flatMap fun message => (framed env message).raw) = queued := by
  have hraw : queued.flatMap (fun message => (framed env message).raw) =
      (queued.map (framed env)).flatMap CNetMessage.raw ++ [] := by
    rw [List.append_nil, List.flatMap_map]
  have hreads : ∀ msg ∈ queued.map (framed env), Reads readMessage msg.raw msg := by
    rw [List.forall_mem_map]
    exact fun message hmem => reads_readMessage (framed_whole env (h message hmem).2)
  have hnone : values readMessage [] = [] := Framing.values_of_none rfl
  rw [messagesOf, hraw, framing_readMessage.values_flatMap hreads, hnone, List.append_nil, List.filterMap_map]
  have hall : ∀ message ∈ queued, (CNetMessage.accepted env ∘ framed env) message = some message :=
    fun message hmem => framed_accepted env (h message hmem).1 (h message hmem).2
  rw [List.filterMap_congr hall, List.filterMap_some]

end Message

/-! ### The send queue -/

namespace Sender

variable {env : NetEnv} {socket : Socket} {s s' : Sender} {sent : List UInt8}

/-- What waits in the queue to be sent. -/
def pending (s : Sender) : List UInt8 := s.vSendMsg.flatten.drop s.nSendOffset

/-- **The invariant of the queue**: no message is begun, `nSendSize` is the size of the queue, and of its
first message some bytes are left. -/
structure Inv (s : Sender) : Prop where
  ssSend : s.ssSend = []
  nSendSize : s.nSendSize = (s.vSendMsg.map List.length).sum
  nonempty : ∀ data ∈ s.vSendMsg, data ≠ []
  nSendOffset : s.nSendOffset < (s.vSendMsg.headD [0]).length

theorem inv_new : new.Inv := ⟨rfl, rfl, fun _ h => absurd h List.not_mem_nil, by decide⟩

theorem Inv.tail {data : List UInt8} {vSendMsg : List (List UInt8)}
    (h : { s with vSendMsg := data :: vSendMsg }.Inv) :
    { s with vSendMsg, nSendOffset := 0, nSendSize := s.nSendSize - data.length }.Inv := by
  have hsize : s.nSendSize = data.length + (vSendMsg.map List.length).sum := h.nSendSize
  have hnonempty := List.forall_mem_cons.mp h.nonempty
  refine ⟨h.ssSend, by simp only; omega, hnonempty.2, ?_⟩
  cases vSendMsg with
  | nil => exact Nat.zero_lt_one
  | cons next vSendMsg => exact List.length_pos_of_ne_nil (List.forall_mem_cons.mp hnonempty.2).1

/-- **A call of `SocketSendData`**: no assertion fails, and what is sent is the first of what waits. -/
theorem sendLoop_spec (socket : Socket) {vSendMsg : List (List UInt8)} (h : { s with vSendMsg }.Inv)
    (nSends : Nat) : ∃ s' sent, sendLoop socket nSends vSendMsg s = some (s', sent) ∧ s'.Inv ∧
      sent ++ s'.pending = { s with vSendMsg }.pending := by
  induction vSendMsg generalizing s nSends with
  | nil =>
    have hoffset : s.nSendOffset = 0 := Nat.lt_one_iff.mp h.nSendOffset
    have hsize : s.nSendSize = 0 := h.nSendSize
    exact ⟨{ s with vSendMsg := [] }, [], by rw [sendLoop, if_pos ⟨hoffset, hsize⟩], h, rfl⟩
  | cons data vSendMsg ih =>
    have hoffset : s.nSendOffset < data.length := h.nSendOffset
    have hpending : ∀ n ≤ data.length,
        (data :: vSendMsg).flatten.drop n = data.drop n ++ vSendMsg.flatten := fun n hn => by
      rw [List.flatten_cons, List.drop_append_of_le_length hn]
    rw [sendLoop, if_pos hoffset]
    split
    · next nBytes _ =>
      have hlt := nBytes.isLt
      split
      · next hpos =>
        dsimp only
        split
        · next hall =>
          obtain ⟨s', sent, hloop, hinv, hsent⟩ :=
            @ih { s with nSendOffset := 0, nSendSize := s.nSendSize - data.length } h.tail (nSends + 1)
          have htake : (data.drop s.nSendOffset).take nBytes = data.drop s.nSendOffset :=
            List.take_of_length_le (by rw [List.length_drop]; omega)
          have hrest : sent ++ s'.pending = vSendMsg.flatten := hsent
          refine ⟨s', data.drop s.nSendOffset ++ sent, ?_, hinv, ?_⟩
          · rw [hloop, Option.map_some, htake]
          · rw [List.append_assoc, hrest]
            exact (hpending s.nSendOffset (Nat.le_of_lt hoffset)).symm
        · next hpart =>
          refine ⟨_, _, rfl, ⟨h.ssSend, h.nSendSize, h.nonempty, ?_⟩, ?_⟩
          · change s.nSendOffset + nBytes < data.length
            omega
          · change (data.drop s.nSendOffset).take nBytes ++
              (data :: vSendMsg).flatten.drop (s.nSendOffset + nBytes) =
                (data :: vSendMsg).flatten.drop s.nSendOffset
            rw [hpending _ (by omega), hpending _ (Nat.le_of_lt hoffset), ← List.append_assoc, ← List.drop_drop,
              List.take_append_drop]
      · exact ⟨_, [], rfl, ⟨h.ssSend, h.nSendSize, h.nonempty, hoffset⟩, rfl⟩
    · exact ⟨_, [], rfl, ⟨h.ssSend, h.nSendSize, h.nonempty, hoffset⟩, rfl⟩

theorem Inv.socketSendData (h : s.Inv) (socket : Socket) :
    ∃ s' sent, s.socketSendData socket = some (s', sent) ∧ s'.Inv ∧ sent ++ s'.pending = s.pending :=
  sendLoop_spec socket h 0

theorem endMessage_eq (env : NetEnv) (socket : Socket) (message : Handed) (s : Sender) :
    endMessage env socket { s with ssSend := (CMessageHeader.new env message.1 0).serialize ++ message.2 } =
      let queued := { s with
        ssSend := []
        vSendMsg := s.vSendMsg ++ [(framed env message).raw]
        nSendSize := s.nSendSize + (framed env message).raw.length }
      if s.vSendMsg = [] then queued.socketSendData socket else some (queued, []) := by
  set hdr := CMessageHeader.new env message.1 0
  have hcommand : hdr.pchCommand.length = COMMAND_SIZE := CMessageHeader.length_pchCommand env message.1 0
  have hzero : (0 : Nat) < 256 ^ 4 := by decide
  have hheader := CMessageHeader.Fits.length_serialize ⟨env.length_pchMessageStart, hcommand, hzero, hzero⟩
  have hstart : (hdr.pchMessageStart ++ hdr.pchCommand).length = MESSAGE_SIZE_OFFSET := by
    rw [List.length_append, hcommand]
    exact congrArg (· + COMMAND_SIZE) env.length_pchMessageStart
  have hlength : (hdr.serialize ++ message.2).length = HEADER_SIZE + message.2.length := by
    rw [List.length_append, hheader]
  -- the size goes over its four bytes
  have hsize : write MESSAGE_SIZE_OFFSET (littleEndian 4 message.2.length) (hdr.serialize ++ message.2) =
      (hdr.pchMessageStart ++ hdr.pchCommand) ++
        (littleEndian 4 message.2.length ++ (littleEndian 4 hdr.nChecksum ++ message.2)) := by
    rw [← write_append hstart ((length_littleEndian 4 hdr.nMessageSize).trans (length_littleEndian 4 _).symm)]
    simp only [CMessageHeader.serialize, List.append_assoc]
  set sized := write MESSAGE_SIZE_OFFSET (littleEndian 4 message.2.length) (hdr.serialize ++ message.2)
  have hpayload : sized.drop HEADER_SIZE = message.2 := by
    rw [hsize, ← List.append_assoc, ← List.append_assoc]
    refine List.drop_left' ?_
    rw [List.length_append, List.length_append, hstart, length_littleEndian, length_littleEndian]
    rfl
  have hlong : sized.length ≥ CHECKSUM_OFFSET + 4 := by
    rw [hsize, ← List.append_assoc, ← List.append_assoc, List.length_append, List.length_append,
      List.length_append, hstart, length_littleEndian, length_littleEndian]
    exact Nat.le_add_right _ _
  -- and so does the checksum
  have hsum : write CHECKSUM_OFFSET (littleEndian 4 (checksum env message.2)) sized = (framed env message).raw := by
    rw [hsize, ← List.append_assoc, write_append]
    · simp only [CNetMessage.raw, framed, finalHeader, CMessageHeader.serialize, List.append_assoc]
      rfl
    · rw [List.length_append, hstart, length_littleEndian]
      rfl
    · rw [length_littleEndian, length_littleEndian]
  have hnot : ¬ (hdr.serialize ++ message.2).length = 0 := by
    rw [hlength]
    exact Nat.ne_of_gt (Nat.add_pos_left (by decide) _)
  have hn : (hdr.serialize ++ message.2).length - HEADER_SIZE = message.2.length := by
    rw [hlength, Nat.add_sub_cancel_left]
  rw [endMessage, if_neg hnot]
  dsimp only
  rw [hn, if_pos hlong, hpayload, hsum]

/-- **The bytes of a message** are queued. -/
theorem pushMessage_eq (env : NetEnv) (socket : Socket) (h : s.ssSend = []) (message : Handed) :
    s.pushMessage env socket message.1 message.2 =
      let queued := { s with
        vSendMsg := s.vSendMsg ++ [(framed env message).raw]
        nSendSize := s.nSendSize + (framed env message).raw.length }
      if s.vSendMsg = [] then queued.socketSendData socket else some (queued, []) := by
  have hbegin : s.beginMessage env message.1 =
      some { s with ssSend := (CMessageHeader.new env message.1 0).serialize } := by
    rw [beginMessage, if_pos (List.length_eq_zero_iff.mpr h)]
  rw [pushMessage, hbegin]
  refine (endMessage_eq env socket message s).trans ?_
  rw [h]

theorem Inv.offset_le (h : s.Inv) : s.nSendOffset ≤ s.vSendMsg.flatten.length := by
  have hoffset := h.nSendOffset
  cases hqueue : s.vSendMsg with
  | nil =>
    rw [hqueue] at hoffset
    exact Nat.le_of_lt_succ hoffset
  | cons data vSendMsg =>
    rw [hqueue, List.headD_cons] at hoffset
    rw [List.flatten_cons, List.length_append]
    omega

/-- **A message is pushed**: it is sent after what waits. -/
theorem Inv.pushMessage (h : s.Inv) (env : NetEnv) (socket : Socket) (message : Handed)
    (hsize : message.2.length ≤ MAX_SIZE) :
    ∃ s' sent, s.pushMessage env socket message.1 message.2 = some (s', sent) ∧ s'.Inv ∧
      sent ++ s'.pending = s.pending ++ (framed env message).raw := by
  have hpos : 0 < (framed env message).raw.length :=
    Nat.lt_of_lt_of_le (by decide) (framed_whole env hsize).le_length
  rw [pushMessage_eq env socket h.ssSend message]
  dsimp only
  set queued : Sender := { s with
    vSendMsg := s.vSendMsg ++ [(framed env message).raw]
    nSendSize := s.nSendSize + (framed env message).raw.length }
  have hqueued : queued.Inv := by
    refine ⟨h.ssSend, ?_, ?_, ?_⟩
    · simp only [queued, h.nSendSize, List.map_append, List.map_cons, List.map_nil, List.sum_append, List.sum_cons,
        List.sum_nil, Nat.add_zero]
    · rw [List.forall_mem_append, List.forall_mem_singleton]
      exact ⟨h.nonempty, List.ne_nil_of_length_pos hpos⟩
    · have hoffset := h.nSendOffset
      change s.nSendOffset < ((s.vSendMsg ++ [(framed env message).raw]).headD [0]).length
      cases hempty : s.vSendMsg with
      | nil =>
        rw [hempty] at hoffset
        exact Nat.lt_of_lt_of_le hoffset hpos
      | cons data vSendMsg =>
        rw [hempty] at hoffset
        exact hoffset
  have hpending : queued.pending = s.pending ++ (framed env message).raw := by
    change (s.vSendMsg ++ [(framed env message).raw]).flatten.drop s.nSendOffset = _
    rw [List.flatten_append, List.flatten_singleton, List.drop_append_of_le_length h.offset_le]
    rfl
  split
  · rw [← hpending]
    exact hqueued.socketSendData socket
  · exact ⟨queued, [], rfl, hqueued, hpending⟩

end Sender

/-! ### Runs of two peers -/

namespace World

variable {env : NetEnv} {w w' : World}

/-- **The invariant of two peers**: what was received, is on its way and waits is what was queued. -/
structure Inv (env : NetEnv) (w : World) : Prop where
  sender : w.sender.Inv
  receiver : w.receiver.Inv env
  queued : ∀ message ∈ w.queued, Printable message.1 ∧ message.2.length ≤ MAX_SIZE
  bytes : w.receiver.received ++ (w.wire ++ w.sender.pending) =
    w.queued.flatMap fun message => (framed env message).raw

theorem inv_new (env : NetEnv) : Inv env new :=
  ⟨Sender.inv_new, Receiver.inv_new env, fun _ h => absurd h List.not_mem_nil, rfl⟩

/-- **One step** passes every assertion and keeps the invariant. -/
theorem Inv.step (h : w.Inv env) {event : Event} (hallowed : event.Allowed) :
    ∃ w', w.step env event = some w' ∧ w'.Inv env := by
  cases event with
  | push pszCommand payload socket =>
    obtain ⟨sender, sent, hpush, hinv, hsent⟩ :=
      h.sender.pushMessage env socket (pszCommand, payload) hallowed.2
    rw [World.step, hpush, Option.map_some]
    refine ⟨_, rfl, hinv, h.receiver, ?_, ?_⟩
    · rw [List.forall_mem_append, List.forall_mem_singleton]
      exact ⟨h.queued, hallowed⟩
    · rw [List.flatMap_append, List.flatMap_singleton, ← h.bytes, List.append_assoc w.wire, hsent]
      simp only [List.append_assoc]
  | send socket =>
    obtain ⟨sender, sent, hsend, hinv, hsent⟩ := h.sender.socketSendData socket
    rw [World.step, hsend, Option.map_some]
    refine ⟨_, rfl, hinv, h.receiver, h.queued, ?_⟩
    rw [← h.bytes, List.append_assoc w.wire, hsent]
  | deliver nBytes =>
    rw [World.step]
    split
    · next hopen =>
      obtain ⟨receiver, hstep, hinv⟩ := h.receiver.step (.receive (w.wire.take nBytes))
      rw [hstep, Option.map_some]
      refine ⟨_, rfl, h.sender, hinv, h.queued, ?_⟩
      rw [Receiver.received_receive hopen hstep, ← h.bytes, List.append_assoc, ← List.append_assoc (w.wire.take nBytes),
        List.take_append_drop]
    · exact ⟨w, rfl, h⟩
  | process call =>
    obtain ⟨receiver, hstep, hinv⟩ := h.receiver.step (.process call)
    rw [World.step, hstep, Option.map_some]
    refine ⟨_, rfl, h.sender, hinv, h.queued, ?_⟩
    rw [Receiver.received_process hstep, h.bytes]
  | closeSender => exact ⟨_, rfl, ⟨h.sender.1, h.sender.2, h.sender.3, h.sender.4⟩, h.receiver, h.queued, h.bytes⟩
  | closeReceiver lockRecv => exact ⟨_, rfl, h.sender, h.receiver.close lockRecv, h.queued, h.bytes⟩

/-- **Every run.** -/
theorem Inv.runAll (h : w.Inv env) {events : List Event} (hallowed : ∀ event ∈ events, event.Allowed) :
    ∃ w', w.runAll env events = some w' ∧ w'.Inv env := by
  induction events generalizing w with
  | nil => exact ⟨w, rfl, h⟩
  | cons event events ih =>
    rw [List.forall_mem_cons] at hallowed
    obtain ⟨w₁, hstep, hinv⟩ := h.step hallowed.1
    obtain ⟨w', hrun, hinv'⟩ := ih hinv hallowed.2
    refine ⟨w', ?_, hinv'⟩
    rw [World.runAll, List.foldlM_cons, hstep]
    exact hrun

theorem Inv.handed (h : w.Inv env) : w.receiver.handed <+: w.queued := by
  have hfirst := h.receiver.handed.trans (messagesOf_append env w.receiver.received (w.wire ++ w.sender.pending))
  rwa [h.bytes, messagesOf_framed env h.queued] at hfirst

theorem Inv.handed_eq (h : w.Inv env) (hdrained : w.Drained) : w.receiver.handed = w.queued := by
  have hnone : ∀ msg ∈ w.receiver.vRecvMsg, msg.complete = false := by
    rw [hdrained.vRecvMsg]
    exact fun _ h => absurd h List.not_mem_nil
  have hbytes := h.bytes
  rw [Sender.pending, hdrained.vSendMsg, hdrained.wire, List.flatten_nil, List.drop_nil, List.append_nil,
    List.append_nil] at hbytes
  rw [h.receiver.handed_eq hdrained.up hnone, hbytes, messagesOf_framed env h.queued]

end World

/-- **Wire framing, end to end.** -/
theorem wireFraming (env : NetEnv) : WireFraming env where
  endToEnd events hallowed := by
    obtain ⟨w, hrun, hinv⟩ := (World.inv_new env).runAll hallowed
    exact ⟨w, hrun, hinv.sender.nSendSize, hinv.handed, hinv.handed_eq⟩
  determined calls := by
    obtain ⟨r, hrun, hinv⟩ := (Receiver.inv_new env).runAll calls
    refine ⟨r, hrun, ?_, hinv.handed_eq⟩
    rintro stream ⟨rest, rfl⟩
    exact hinv.handed.trans (messagesOf_append env r.received rest)

/-- Two messages, of which the socket takes twenty bytes at a time, arrive in four pieces. -/
theorem wireFraming_sample : ∃ env events w, World.new.runAll env events = some w ∧ w.Drained ∧
    w.receiver.handed = [([112, 105, 110, 103], [1, 2, 3]), ([118], [])] := by
  let env : NetEnv := ⟨[9, 8, 7, 6], fun payload => payload.length, rfl⟩
  let socket : Socket := fun nSends n => if nSends = 0 then .sent ⟨min 20 n, by omega⟩ else .error false
  let process : ProcessCall := ⟨false, fun _ => false, fun _ => .keeps⟩
  let events : List Event := [.push [112, 105, 110, 103] [1, 2, 3] socket, .push [118] [] socket, .deliver 7,
    .send socket, .deliver 21, .send socket, .process process, .deliver 30, .process process, .send socket,
    .deliver 30, .process process]
  have hallowed : ∀ event ∈ events, event.Allowed := by
    simp [events, Event.Allowed, Printable, COMMAND_SIZE, MAX_SIZE]
  obtain ⟨w, hrun, -, -, hall⟩ := (wireFraming env).endToEnd events hallowed
  have hends : (World.new.runAll env events).map (fun w => (w.sender.vSendMsg, w.wire,
      w.receiver.vRecvMsg.length, w.receiver.fDisconnect)) = some ([], [], 0, false) := by decide +kernel
  have hqueued : (World.new.runAll env events).map World.queued =
      some [([112, 105, 110, 103], [1, 2, 3]), ([118], [])] := by decide +kernel
  rw [hrun, Option.map_some, Option.some.injEq] at hends hqueued
  simp only [Prod.mk.injEq, List.length_eq_zero_iff] at hends
  have hdrained : w.Drained := ⟨hends.1, hends.2.1, hends.2.2.1, hends.2.2.2⟩
  exact ⟨env, events, w, hrun, hdrained, (hall hdrained).trans hqueued⟩

end Manna.Net
