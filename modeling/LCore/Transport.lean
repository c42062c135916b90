import LCore.Encryption
import LCore.Routing

/-!
# The Transport Layer

`loraTransport.h`. A node has two tasks: the application calls `send_with_ack`, which
transmits a frame and polls `response_queue` until an answer decides the call or the time is
up, and `_listen` takes packets from the radio, answers them, and fills the two queues.

The model cuts both tasks where they meet the world outside the task, and nowhere else.

* `transmit` is `_send` up to the transmission. `handleResponse` is one round of its wait loop
  that found a frame in the queue; `Reply.resend` is the recursive call, another `transmit`
  whose own wait does not allow a third one.
* `listen` is an iteration of `_listen` up to the point where its result leaves the task:
  nothing more to do, a packet transmitted, or an entry handed to `xQueueSend`. What is sent
  after `xQueueSend` on the queue of new messages depends on whether there was room, and is
  `answers`.
-/

open Memory

namespace LCore

/-- `QUEUE_LEN`, the length of both queues. -/
def queueLen : ℕ := 4

/-- The `NULL` a caller passes with size zero; nothing is read through it. -/
def null : Mem UInt8 := fun _ => 0

/-- `struct NewMsg`. -/
structure NewMsg where
  address : UInt8
  msg : Mem UInt8
  msgSize : UInt8

/-- `xQueueSend` with the queue's contents before and after: refused when the queue stays
full. -/
def xQueueSend {α : Type*} (queue : List α) (item : α) : Bool × List α :=
  if queue.length < queueLen then (true, queue ++ [item]) else (false, queue)

section XQueueSend

variable {α : Type*} {queue : List α} (item : α)

/-- The result of `xQueueSend` says whether there was room. -/
theorem xQueueSend_fst : (xQueueSend queue item).1 = decide (queue.length < queueLen) := by
  rw [xQueueSend]
  split
  · exact (decide_eq_true ‹_›).symm
  · exact (decide_eq_false ‹_›).symm

/-- What is in the queue afterwards was there before, or is what was sent. -/
theorem mem_xQueueSend {x : α} (h : x ∈ (xQueueSend queue item).2) : x ∈ queue ∨ x = item := by
  rw [xQueueSend] at h
  split at h
  · exact (List.mem_append.mp h).imp_right List.mem_singleton.mp
  · exact .inl h

/-- A queue never grows beyond its length. -/
theorem length_xQueueSend (h : queue.length ≤ queueLen) :
    (xQueueSend queue item).2.length ≤ queueLen := by
  rw [xQueueSend]
  split
  · rw [List.length_append, List.length_singleton]
    omega
  · exact h

end XQueueSend

/-! ### Sending -/

/-- The frame `_send` builds, up to its checksum. -/
def buildFrame (dev : Device) (msg : Mem UInt8) (msgSize : UInt8) (flags : UInt8) : LoraFrame :=
  let buf : Mem UInt8 := LoraFrame.init.buf
  let buf := if msgSize > 0 then copy buf framePosMsg msg msgSize.toNat else buf
  let size : UInt8 := UInt8.ofInt (framePosMsg + msgSize.toNat)
  let buf := write buf framePosTtl initTtl
  let frameType : UInt8 := 0
  let frameType := frameType ||| (frameVersion <<< (8 - versionSizeBits))
  let frameType := frameType ||| flags
  let buf := write buf framePosType frameType
  let buf := write buf framePosDestAddr 0
  let buf := write buf framePosNextAddr 0
  let buf := write buf framePosSendAddr 0
  let buf := write buf framePosCrc 0
  let buf := write buf framePosCrc (dev.crc (cells buf size.toNat))
  ⟨buf, size⟩

/-- The packet `_send` transmits. -/
def transmit (dev : Device) (address : UInt8) (msg : Mem UInt8) (msgSize : UInt8)
    (flags : UInt8) : List UInt8 :=
  let frame := buildFrame dev msg msgSize flags
  (Routing.send dev address frame.buf frame.size).2

/-- The variables of a call of `_send` that waits: its arguments. -/
structure Waiting where
  address : UInt8
  msg : Mem UInt8
  msgSize : UInt8
  flags : UInt8
  allowResend : Bool

/-- How a round of the wait loop ends: the call returns, the loop goes on, or `_send` calls
itself. -/
inductive Reply
  | returned (result : Bool)
  | wait
  | resend
  deriving DecidableEq

/-- One round of the wait loop of `_send` with a frame from `response_queue`. -/
def handleResponse (aes : Aes) (g : Encryption.Globals) (w : Waiting) (frame : LoraFrame) :
    Encryption.Globals × Waiting × Reply :=
  if frame.buf framePosSendAddr = w.address then
    if frame.buf framePosType &&& typeMaskAck ≠ 0 then
      (g, w, .returned true)
    else if frame.buf framePosType &&& typeMaskError ≠ 0 then
      (g, w, .returned false)
    else
      let s := if frame.buf framePosType &&& typeMaskSync ≠ 0 then
          Encryption.swapToken aes g w.msg w.msgSize w.address (shift frame.buf framePosMsg)
        else (g, w.msg)
      if frame.buf framePosType &&& typeMaskResend ≠ 0 ∧ w.allowResend = true then
        (s.1, { w with msg := s.2 }, .resend)
      else
        (s.1, { w with msg := s.2 }, .wait)
  else
    (g, w, .wait)

/-- `send_with_ack` up to the wait: the globals, the packet transmitted, and what the call
waits with. `encrypted` is its uninitialised buffer. -/
def sendWithAck (dev : Device) (g : Encryption.Globals) (address : UInt8) (msg : Mem UInt8)
    (msgSize : UInt8) (encrypted : Mem UInt8) : Encryption.Globals × List UInt8 × Waiting :=
  let e := Encryption.encrypt dev.aes g msg msgSize encrypted address
  (e.1, transmit dev address e.2.1 e.2.2 typeMaskNeedAck,
    ⟨address, e.2.1, e.2.2, typeMaskNeedAck, true⟩)

/-! ### Listening -/

/-- `_get_msg_from_frame`: the value returned, the globals, and the message. -/
def getMsgFromFrame (aes : Aes) (g : Encryption.Globals) (frame : LoraFrame)
    (message : NewMsg) : Bool × Encryption.Globals × NewMsg :=
  let encryptedSize : UInt8 := UInt8.ofInt (frame.size.toNat - framePosMsg)
  let encrypted := copy LoraFrame.init.buf 0 (shift frame.buf framePosMsg) encryptedSize.toNat
  let address := frame.buf framePosSendAddr
  let d := Encryption.decrypt aes g encrypted encryptedSize message.msg message.msgSize address
  if !d.1 then
    (false, d.2.1, ⟨address, d.2.2.1, 0⟩)
  else
    (true, d.2.1, ⟨address, d.2.2.1, d.2.2.2⟩)

/-- What an iteration of `_listen` comes to. -/
inductive Heard
  /-- nothing for this node, or nothing that can be forwarded -/
  | nothing
  /-- a frame of others, transmitted again -/
  | forwarded (packet : List UInt8)
  /-- the checksum is wrong: a `RESEND` is transmitted -/
  | badCrc (packet : List UInt8)
  /-- an answer to an earlier message, for `response_queue` -/
  | response (frame : LoraFrame)
  /-- the token is wrong: a `SYNC|RESEND` is transmitted -/
  | rejected (packet : List UInt8)
  /-- a new message with the type byte of its frame, for `new_frame_queue` -/
  | message (message : NewMsg) (type : UInt8)

/-- The bytes the receiver sums: the address bytes and the checksum are zero again and the hop
counter is what it was when the frame was sent. -/
def crcFrame (frame : LoraFrame) : LoraFrame :=
  let buf := write frame.buf framePosSendAddr 0
  let buf := write buf framePosNextAddr 0
  let buf := write buf framePosDestAddr 0
  let buf := write buf framePosCrc 0
  let buf := write buf framePosTtl initTtl
  ⟨buf, frame.size⟩

/-- The checksum test of `_listen`. -/
def crcOk (dev : Device) (frame : LoraFrame) : Bool :=
  dev.crc (cells (crcFrame frame).buf frame.size.toNat) = frame.buf framePosCrc

/-- Whether `_listen` takes the frame for an answer. -/
def isResponse (frame : LoraFrame) : Bool :=
  frame.buf framePosType &&&
    (typeMaskAck ||| typeMaskError ||| typeMaskResend ||| typeMaskSync) ≠ 0

/-- The state `_listen` keeps between iterations: its frame and the globals it uses. -/
structure Listener where
  frame : LoraFrame
  globals : Encryption.Globals

/-- The part of an iteration that looks at a frame this node received. `message` and `token` are
uninitialised. -/
def dispatch (dev : Device) (g : Encryption.Globals) (frame : LoraFrame) (message : NewMsg)
    (token : Mem UInt8) : Encryption.Globals × Heard :=
  if crcOk dev frame = false then
    (g, .badCrc (transmit dev (frame.buf framePosSendAddr) null 0 typeMaskResend))
  else if isResponse frame = true then
    (g, .response frame)
  else
    let r := getMsgFromFrame dev.aes g frame message
    if !r.1 then
      let token := Encryption.getNextRecvToken r.2.1 token r.2.2.address
      (r.2.1, .rejected
        (transmit dev r.2.2.address token tokenSize (typeMaskSync ||| typeMaskResend)))
    else
      (r.2.1, .message r.2.2 (frame.buf framePosType))

/-- An iteration of `_listen` with a packet on the radio, up to `xQueueSend`. -/
def listen (dev : Device) (l : Listener) (message : NewMsg) (token : Mem UInt8)
    (packet : List UInt8) : Listener × Heard :=
  let r := Routing.tryReceive dev l.frame.buf packet
  if r.1 = .received then
    let d := dispatch dev l.globals r.2.1 message token
    (⟨r.2.1, d.1⟩, d.2)
  else
    match r.2.2 with
    | some p => (⟨r.2.1, l.globals⟩, .forwarded p)
    | none => (⟨r.2.1, l.globals⟩, .nothing)

/-- The packets an iteration transmits after `xQueueSend` on `new_frame_queue` returned `put`. -/
def answers (dev : Device) (put : Bool) (message : NewMsg) (type : UInt8) : List (List UInt8) :=
  (if put then [] else [transmit dev message.address null 0 typeMaskError]) ++
    (if type &&& typeMaskNeedAck ≠ 0 then
      [transmit dev message.address null 0 typeMaskAck] else [])

end LCore
