import LCore.Frame
import LCore.Lib.Simulation
import LCore.Node
import LCore.Protocol

/-!
# What Corresponds to What

A packet on the air is the frame of what it says, an entry of a queue is what came out of such a
frame, and a call that waits holds the payload of its message under its current token. The nodes
of the code and of the protocol correspond when all that they hold does.

## Main results

* `NodeRel`: the nodes that correspond.
* `packetRel_transmit_null`, `packetRel_transmit_sealed`: what is transmitted corresponds.
-/

open Memory BigEndian

namespace LCore

namespace Refinement

open Protocol (Body)
open Encryption (counter sealed sealedSize)

/-! ### The correspondence -/

/-- The payload of a frame. -/
def payload (aes : Aes) : Body → List UInt8
  | .data token m => sealed aes token m
  | .sync token => toBytes tokenSize.toNat token
  | _ => []

/-- Tokens are below `TOKEN_MAX`, and messages fit a frame. -/
def Fits : Body → Prop
  | .data token m => token < tokenMax.toNat ∧ m.length ≤ 77
  | .sync token => token < tokenMax.toNat
  | _ => True

variable (cfg : Config)

/-- The routes of a configuration. -/
def routes : Protocol.Routes := ⟨cfg.netSize, cfg.tables⟩

/-- A packet is the frame of what it says. -/
structure PacketRel (p : Packet) (q : Protocol.Packet) : Prop where
  bytes : p.bytes =
    frameBytes cfg.crc q.next q.dest q.send q.body.flags q.ttl (payload cfg.aes q.body)
  origin : p.origin = q.origin
  tag : p.tag = q.tag
  fits : Fits q.body

/-- A frame in `response_queue` gives the answer's sender, its type, and the token of a
`SYNC`. -/
structure ResponseRel (frame : LoraFrame) (send : UInt8) (body : Body) : Prop where
  send : frame.buf framePosSendAddr = send
  type : frame.buf framePosType = body.flags
  token : ∀ t, body = .sync t →
    cells (shift frame.buf framePosMsg) tokenSize.toNat = toBytes tokenSize.toNat t
  fits : Fits body
  answer : ∀ t m, body ≠ .data t m

/-- An entry of `new_frame_queue` has the sender's address and the bytes of the message. -/
structure MessageRel (entry : NewMsg) (send : UInt8) (m : List UInt8) : Prop where
  send : entry.address = send
  content : cells entry.msg entry.msgSize.toNat = m

/-- What the listener hands to a queue. -/
inductive EntryRel : Entry → Protocol.Entry → Prop
  | response {frame : LoraFrame} {send : UInt8} {body : Body} :
      ResponseRel frame send body → EntryRel (.response frame) (.response send body)
  | message {entry : NewMsg} {send : UInt8} {m : List UInt8} :
      MessageRel entry send m → EntryRel (.message entry typeMaskNeedAck) (.message send m)

/-- Where the listener stands. -/
inductive TaskRel : Task → Protocol.Task → Prop
  | polling : TaskRel .polling .polling
  | queueing {entry : Entry} {entry' : Protocol.Entry} {tag : Tag} :
      EntryRel entry entry' → TaskRel (.queueing entry tag) (.queueing entry' tag)
  | sending {packets : List Packet} {packets' : List Protocol.Packet} :
      List.Forall₂ (PacketRel cfg) packets packets' →
      TaskRel (.sending packets) (.sending packets')

/-- A call holds the payload of its message under its token. -/
structure CallRel (c : Call) (c' : Protocol.Call) : Prop where
  dest : c.waiting.address = c'.dest
  msg : cells c.waiting.msg (sealedSize c'.m.length) = sealed cfg.aes c'.token c'.m
  size : c.waiting.msgSize = UInt8.ofNat (sealedSize c'.m.length)
  flags : c.waiting.flags = typeMaskNeedAck
  allowResend : c.waiting.allowResend = c'.allowResend
  tag : c.tag = c'.tag
  fits : c'.token < tokenMax.toNat ∧ c'.m.length ≤ 77

/-- A node of the code and a node of the protocol. -/
structure NodeRel (n : Node) (n' : Protocol.Node) : Prop where
  sendToken : ∀ a, counter (n.listener.globals.sendTokens a) = n'.sendToken a
  sendBound : ∀ a, n'.sendToken a < tokenMax.toNat
  recvToken : ∀ a, counter (n.listener.globals.recvTokens a) = n'.recvToken a
  recvBound : ∀ a, n'.recvToken a < tokenMax.toNat
  newFrameQueue : List.Forall₂ (fun e e' => MessageRel e.1 e'.1 e'.2.1 ∧ e.2 = e'.2.2)
    n.newFrameQueue n'.newFrameQueue
  responseQueue : List.Forall₂ (fun e e' => ResponseRel e.1 e'.1 e'.2.1 ∧ e.2 = e'.2.2)
    n.responseQueue n'.responseQueue
  task : TaskRel cfg n.task n'.task
  app : Option.Rel (CallRel cfg) n.app n'.app
  calls : n.calls = n'.calls

/-! ### Packets -/

variable {cfg}

/-- A payload has at most five blocks. -/
theorem length_payload_le {aes : Aes} {body : Body} (h : Fits body) :
    (payload aes body).length ≤ 80 := by
  cases body with
  | data token m =>
      have hm : m.length ≤ 77 := h.2
      show (sealed aes token m).length ≤ 80
      rw [Encryption.length_sealed, Encryption.sealedSize_eq]
      omega
  | sync token =>
      show (toBytes tokenSize.toNat token).length ≤ 80
      rw [length_toBytes]
      decide
  | ack => exact Nat.zero_le _
  | error => exact Nat.zero_le _
  | resend => exact Nat.zero_le _

/-- The destination is in the frame. -/
theorem PacketRel.dest {p : Packet} {q : Protocol.Packet} (h : PacketRel cfg p q) :
    p.dest = q.dest := by
  rw [Packet.dest, h.bytes]
  rfl

/-- So is the sender. -/
theorem PacketRel.send {p : Packet} {q : Protocol.Packet} (h : PacketRel cfg p q) :
    p.send = q.send := by
  rw [Packet.send, h.bytes]
  rfl

/-- So are the flags. -/
theorem PacketRel.type {p : Packet} {q : Protocol.Packet} (h : PacketRel cfg p q) :
    p.type = q.body.flags := by
  rw [Packet.type, h.bytes]
  rfl

/-- Related packets leave the same event. -/
theorem PacketRel.event {p : Packet} {q : Protocol.Packet} (h : PacketRel cfg p q) :
    p.event = q.event := by
  rw [Packet.event, Protocol.Packet.event, h.type, h.origin, h.tag]

/-- The payload of a data frame has the token of what it says. -/
theorem PacketRel.payloadToken {p : Packet} {q : Protocol.Packet} (h : PacketRel cfg p q)
    {token : ℕ} {m : List UInt8} (hbody : q.body = .data token m) :
    Encryption.payloadToken cfg.aes (p.bytes.drop 7) = token := by
  have hfits := h.fits
  have hmax : tokenMax.toNat = 65535 := Encryption.tokenMax_toNat
  rw [hbody] at hfits
  obtain ⟨htoken, hm⟩ := hfits
  rw [h.bytes, hbody]
  exact Encryption.payloadToken_sealed cfg.aes (by omega) (by omega)

/-- A frame that is no answer carries a message. -/
theorem exists_data {body : Body} (h : body.flags &&& responseMask = 0) :
    ∃ t m, body = .data t m := by
  cases body with
  | data t m => exact ⟨t, m, rfl⟩
  | ack => exact absurd h (by decide)
  | error => exact absurd h (by decide)
  | resend => exact absurd h (by decide)
  | sync t =>
      exact absurd h (show ¬ (typeMaskSync ||| typeMaskResend) &&& responseMask = 0 by decide)

/-- A message is live under a token ahead of the counter. -/
theorem isLive_iff {net : LoraNet} {net' : Protocol.Net}
    (hrel : Network.Related (fun _ => NodeRel cfg) (PacketRel cfg) net net') {p : Packet}
    {q : Protocol.Packet} (h : PacketRel cfg p q) :
    IsLive cfg net p ↔
      ∃ token m, q.body = .data token m ∧ (net'.nodes q.dest).recvToken q.send < token := by
  rw [IsLive, h.type, h.dest, h.send, (hrel.nodes q.dest).recvToken]
  constructor
  · rintro ⟨hdata, hlive⟩
    obtain ⟨t, m, hbody⟩ := exists_data hdata
    rw [h.payloadToken hbody] at hlive
    exact ⟨t, m, hbody, hlive⟩
  · rintro ⟨token, m, hbody, hlive⟩
    rw [h.payloadToken hbody, hbody]
    exact ⟨needAck_and_responseMask, hlive⟩

/-- The payload a call waits with has the token of the call. -/
theorem CallRel.payloadToken {c : Call} {c' : Protocol.Call} (h : CallRel cfg c c') :
    Encryption.payloadToken cfg.aes (cells c.waiting.msg c.waiting.msgSize.toNat) = c'.token := by
  have hmax : tokenMax.toNat = 65535 := Encryption.tokenMax_toNat
  obtain ⟨htoken, hm⟩ := h.fits
  have hsize : c.waiting.msgSize.toNat = sealedSize c'.m.length := by
    rw [h.size, UInt8.toNat_ofNat', Encryption.sealedSize_eq]
    omega
  rw [hsize, h.msg]
  exact Encryption.payloadToken_sealed cfg.aes (by omega) (by omega)

/-- What the listener is about to put into `response_queue`. -/
theorem TaskRel.response {task : Task} {task' : Protocol.Task} (h : TaskRel cfg task task')
    {send : UInt8} {body : Body} {tag : Tag} (htask : task' = .queueing (.response send body) tag) :
    ∃ frame, task = .queueing (.response frame) tag ∧ ResponseRel frame send body := by
  cases h with
  | polling => exact nomatch htask
  | sending hpackets => exact nomatch htask
  | queueing hentry =>
      obtain ⟨rfl, rfl⟩ := Protocol.Task.queueing.inj htask
      cases hentry with
      | response hframe => exact ⟨_, rfl, hframe⟩

/-- The same from the code. -/
theorem TaskRel.exists_response {task : Task} {task' : Protocol.Task}
    (h : TaskRel cfg task task') {frame : LoraFrame} {tag : Tag}
    (htask : task = .queueing (.response frame) tag) :
    ∃ send body, task' = .queueing (.response send body) tag ∧ ResponseRel frame send body := by
  cases h with
  | polling => exact nomatch htask
  | sending hpackets => exact nomatch htask
  | queueing hentry =>
      obtain ⟨rfl, rfl⟩ := Task.queueing.inj htask
      cases hentry with
      | response hframe => exact ⟨_, _, rfl, hframe⟩

/-- The token `swap_token` reads in a `SYNC`. -/
theorem ResponseRel.mergeFromBytes_sync {frame : LoraFrame} {send : UInt8} {token : ℕ}
    (h : ResponseRel frame send (.sync token)) :
    (Encryption.mergeFromBytes (shift frame.buf framePosMsg) tokenSize).toNat = token := by
  have hmax : tokenMax.toNat = 65535 := Encryption.tokenMax_toNat
  have hfits : token < tokenMax.toNat := h.fits
  rw [Encryption.mergeFromBytes_token (by omega) (h.token token rfl), UInt32.toNat_ofNat']
  omega

/-- What the listener is about to put into `new_frame_queue`. -/
theorem TaskRel.message {task : Task} {task' : Protocol.Task} (h : TaskRel cfg task task')
    {send : UInt8} {m : List UInt8} {tag : Tag}
    (htask : task' = .queueing (.message send m) tag) :
    ∃ entry, task = .queueing (.message entry typeMaskNeedAck) tag ∧ MessageRel entry send m := by
  cases h with
  | polling => exact nomatch htask
  | sending hpackets => exact nomatch htask
  | queueing hentry =>
      obtain ⟨rfl, rfl⟩ := Protocol.Task.queueing.inj htask
      cases hentry with
      | message hmessage => exact ⟨_, rfl, hmessage⟩

/-- The same from the code. -/
theorem TaskRel.exists_message {task : Task} {task' : Protocol.Task} (h : TaskRel cfg task task')
    {entry : NewMsg} {type : UInt8} {tag : Tag}
    (htask : task = .queueing (.message entry type) tag) :
    ∃ send m, task' = .queueing (.message send m) tag ∧ MessageRel entry send m := by
  cases h with
  | polling => exact nomatch htask
  | sending hpackets => exact nomatch htask
  | queueing hentry =>
      obtain ⟨rfl, rfl⟩ := Task.queueing.inj htask
      cases hentry with
      | message hmessage => exact ⟨_, _, rfl, hmessage⟩

/-! #### What a node of the one says about the node of the other -/

section Node

variable {n : Node} {n' : Protocol.Node} (hn : NodeRel cfg n n')

include hn

/-- The listeners poll at the same time. -/
theorem NodeRel.polling_iff : n.task = .polling ↔ n'.task = .polling := by
  have h := hn.task
  generalize n.task = task at h
  generalize n'.task = task' at h
  cases h with
  | polling => exact iff_of_true rfl rfl
  | _ => exact iff_of_false nofun nofun

/-- The applications wait at the same time. -/
theorem NodeRel.app_eq_none_iff : n.app = none ↔ n'.app = none := by
  have h := hn.app
  generalize n.app = app at h
  generalize n'.app = app' at h
  cases h with
  | none => exact iff_of_true rfl rfl
  | some => exact iff_of_false nofun nofun

/-- The call under way, from the protocol. -/
theorem NodeRel.exists_call {c' : Protocol.Call} (happ : n'.app = some c') :
    ∃ c, n.app = some c ∧ CallRel cfg c c' := by
  have h := hn.app
  rw [happ] at h
  exact Lts.exists_of_rel_some h

/-- The same from the code. -/
theorem NodeRel.exists_protocol_call {c : Call} (happ : n.app = some c) :
    ∃ c', n'.app = some c' ∧ CallRel cfg c c' := by
  have h := hn.app
  rw [happ] at h
  exact Lts.exists_of_some_rel h

/-- The answer at the front of the queue, from the protocol. -/
theorem NodeRel.exists_response {send : UInt8} {body : Body} {tag : Tag}
    {rest' : List (UInt8 × Body × Tag)} (hqueue : n'.responseQueue = (send, body, tag) :: rest') :
    ∃ frame tag rest, n.responseQueue = (frame, tag) :: rest ∧ ResponseRel frame send body := by
  have h := hn.responseQueue
  rw [hqueue] at h
  obtain ⟨⟨frame, tag⟩, rest, ⟨hframe, -⟩, -, heq⟩ := List.forall₂_cons_right_iff.mp h
  exact ⟨frame, tag, rest, heq, hframe⟩

/-- The same from the code. -/
theorem NodeRel.exists_protocol_response {frame : LoraFrame} {tag : Tag}
    {rest : List (LoraFrame × Tag)} (hqueue : n.responseQueue = (frame, tag) :: rest) :
    ∃ send body rest', n'.responseQueue = (send, body, tag) :: rest' ∧
      ResponseRel frame send body := by
  have h := hn.responseQueue
  rw [hqueue] at h
  obtain ⟨⟨send, body, tag'⟩, rest', ⟨hframe, rfl⟩, -, heq⟩ := List.forall₂_cons_left_iff.mp h
  exact ⟨send, body, rest', heq, hframe⟩

end Node

/-- What is still to be sent corresponds when its packets do. -/
theorem TaskRel.owing {packets : List Packet} {packets' : List Protocol.Packet}
    (h : List.Forall₂ (PacketRel cfg) packets packets') :
    TaskRel cfg (Task.owing packets) (Protocol.Task.owing packets') := by
  cases h with
  | nil => exact .polling
  | cons hab htail => exact .sending (.cons hab htail)

/-- A frame without a payload is a new packet of the protocol. -/
theorem packetRel_transmit_null (cfg : Config) (v dest : UInt8) (tag : Tag) (body : Body)
    (hbody : payload cfg.aes body = []) (hfits : Fits body) :
    PacketRel cfg ⟨transmit (cfg.device v) dest null 0 body.flags, v, tag⟩
      (Protocol.newPacket (routes cfg) v dest body tag) := by
  refine ⟨?_, rfl, rfl, hfits⟩
  show transmit (cfg.device v) dest null 0 body.flags = frameBytes cfg.crc _ dest v body.flags
    initTtl (payload cfg.aes body)
  rw [transmit_null, hbody]
  rfl

/-- The payload of a message, transmitted, is a new packet of the protocol. -/
theorem packetRel_transmit_sealed (cfg : Config) (v dest : UInt8) (tag : Tag) {msg : Mem UInt8}
    {token : ℕ} {m : List UInt8} (hmsg : cells msg (sealedSize m.length) = sealed cfg.aes token m)
    (hfits : token < tokenMax.toNat ∧ m.length ≤ 77) :
    PacketRel cfg ⟨transmit (cfg.device v) dest msg (UInt8.ofNat (sealedSize m.length))
        typeMaskNeedAck, v, tag⟩
      (Protocol.newPacket (routes cfg) v dest (.data token m) tag) := by
  have hlen : (sealed cfg.aes token m).length ≤ 93 := by
    rw [Encryption.length_sealed, Encryption.sealedSize_eq]
    omega
  rw [← Encryption.length_sealed cfg.aes token m] at hmsg ⊢
  refine ⟨?_, rfl, rfl, hfits⟩
  show transmit (cfg.device v) dest msg _ typeMaskNeedAck = _
  rw [transmit_eq (cfg.device v) dest typeMaskNeedAck hlen hmsg]
  rfl

/-! ### Counters -/

/-- Setting a counter in the code sets it in the protocol. -/
theorem counter_update {f : UInt8 → Int32} {g : UInt8 → ℕ} (h : ∀ a, counter (f a) = g a)
    (b : UInt8) {x : Int32} {t : ℕ} (hx : counter x = t) (a : UInt8) :
    counter (Function.update f b x a) = Function.update g b t a := by
  rw [Function.update_apply, Function.update_apply]
  split
  · exact hx
  · exact h a

/-- Setting a counter keeps all of them below the bound. -/
theorem update_lt {g : UInt8 → ℕ} {k : ℕ} (h : ∀ a, g a < k) (b : UInt8) {t : ℕ} (ht : t < k)
    (a : UInt8) : Function.update g b t a < k := by
  rw [Function.update_apply]
  split
  · exact ht
  · exact h a

end Refinement

end LCore
