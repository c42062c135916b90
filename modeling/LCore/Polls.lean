import LCore.Actions
import LCore.Refinement

/-!
# What a Polling Call Obeys

A call of `send_with_ack` takes every frame from `response_queue` and looks at its sender and its
flags. It does not look at which of its messages the frame answers. These are the single actions
of the two nodes of an exchange: what hearing, putting, transmitting, calling and polling does.

## Main results

* `call_eq`: a call transmits its message under the next token and waits.
* `poll_ack`, `poll_of_not_disturbs`, `poll_of_disturbs`: a frame from `response_queue` ends the
  call, is dropped, or disturbs it.
-/

open Memory

namespace LCore

namespace Leftover

/-! ### Answers -/

/-- A frame in `response_queue` that a call to `d` obeys, whichever call it answers. -/
def Disturbs (d : UInt8) (frame : LoraFrame) : Prop :=
  frame.buf framePosSendAddr = d ∧
    (frame.buf framePosType &&& typeMaskAck ≠ 0 ∨ frame.buf framePosType &&& typeMaskError ≠ 0 ∨
      frame.buf framePosType &&& typeMaskResend ≠ 0)

instance (d : UInt8) (frame : LoraFrame) : Decidable (Disturbs d frame) :=
  inferInstanceAs (Decidable (_ ∧ _))

/-! ### What the nodes do -/

section Node

variable {cfg : Config} {v : UInt8} {n : Node}

/-- A listener that polls hears a packet. -/
theorem hear_eq {p : Packet} {locals : Node.Locals} {listener : Listener} {heard : Heard}
    (htask : n.task = .polling)
    (hlisten : listen (cfg.device v) n.listener locals.message locals.token p.bytes =
      (listener, heard)) :
    Node.hear (cfg.device v) n p locals =
      some ({ n with listener := listener, task := Node.next v p.tag heard }, []) := by
  rw [Node.hear, htask]
  dsimp only
  rw [hlisten]
  rfl

/-- A data frame under a token in the window. -/
theorem hear_data {p : Packet} {send : UInt8} {t : ℕ} {m : List UInt8} (locals : Node.Locals)
    (htask : n.task = .polling)
    (hbytes : p.bytes = frameBytes cfg.crc v v send typeMaskNeedAck initTtl
      (Encryption.sealed cfg.aes t m)) (hm : m.length ≤ 77) (ht : t < tokenMax.toNat)
    (hwindow : Encryption.InWindow (Encryption.counter (n.listener.globals.recvTokens send)) t) :
    ∃ listener entry, entry.address = send ∧ Node.hear (cfg.device v) n p locals =
      some ({ n with
        listener := listener, task := .queueing (.message entry typeMaskNeedAck) p.tag }, []) := by
  have hmax : tokenMax.toNat = 65535 := Encryption.tokenMax_toNat
  have hlow := hwindow.1
  have htoken : t < 2 ^ 16 := by omega
  obtain ⟨frame, encBuf, out, -, hlisten⟩ := listen_frameBytes_data (cfg.device v) n.listener
    locals.message locals.token send typeMaskNeedAck initTtl hm htoken needAck_and_responseMask
    (by omega)
  rw [if_pos hwindow] at hlisten
  have hlisten' : listen (cfg.device v) n.listener locals.message locals.token p.bytes = _ :=
    (congrArg _ hbytes).trans hlisten
  exact ⟨_, ⟨send, out, UInt8.ofNat m.length⟩, rfl, hear_eq htask hlisten'⟩

/-- An `ACK`. -/
theorem hear_ack {p : Packet} {send : UInt8} (locals : Node.Locals) (htask : n.task = .polling)
    (hbytes : p.bytes = frameBytes cfg.crc v v send typeMaskAck initTtl []) :
    ∃ listener frame, frame.buf framePosSendAddr = send ∧
      frame.buf framePosType = typeMaskAck ∧ Node.hear (cfg.device v) n p locals =
        some ({ n with listener := listener, task := .queueing (.response frame) p.tag }, []) := by
  have hempty : ([] : List UInt8).length ≤ 96 := Nat.zero_le 96
  obtain ⟨frame, hholds, hlisten⟩ := listen_frameBytes_response (cfg.device v) n.listener
    locals.message locals.token send typeMaskAck initTtl hempty (by decide)
  have hlisten' : listen (cfg.device v) n.listener locals.message locals.token p.bytes = _ :=
    (congrArg _ hbytes).trans hlisten
  exact ⟨_, frame, hholds.get (i := 2) (by simp), hholds.get (i := 3) (by simp),
    hear_eq htask hlisten'⟩

/-- The `ACK` of `v` for a message of `send`. -/
def ackPacket (cfg : Config) (v send : UInt8) (tag : Tag) : Packet :=
  ⟨frameBytes cfg.crc (UInt8.ofInt (cfg.tables v send)) send v typeMaskAck initTtl [], v, tag⟩

/-- A message is put into the queue, and an `ACK` is due. -/
theorem put_message {entry : NewMsg} {tag : Tag}
    (htask : n.task = .queueing (.message entry typeMaskNeedAck) tag) (hroom : n.hasRoom = true) :
    Node.put (cfg.device v) n = some ({ n with
      newFrameQueue := n.newFrameQueue ++ [(entry, tag)]
      task := .sending [ackPacket cfg v entry.address tag] }, [],
      [.put v entry.address (cells entry.msg entry.msgSize.toNat) tag]) := by
  have hlen : n.newFrameQueue.length < queueLen := by
    simpa [Node.hasRoom, htask] using hroom
  simp only [Node.put, htask, xQueueSend, if_pos hlen, answers, transmit_null]
  rfl

/-- An answer is put into the queue, or is lost because the queue is full. -/
theorem put_response {frame : LoraFrame} {tag : Tag}
    (htask : n.task = .queueing (.response frame) tag) :
    Node.put (cfg.device v) n = some ({ n with
      responseQueue := n.responseQueue ++
        if n.responseQueue.length < queueLen then [(frame, tag)] else []
      task := .polling }, [], []) := by
  by_cases hlen : n.responseQueue.length < queueLen
  · simp only [Node.put, htask, xQueueSend, if_pos hlen]
  · simp only [Node.put, htask, xQueueSend, if_neg hlen, List.append_nil]

/-- The last packet a listener owes. -/
theorem transmit_single {p : Packet} (htask : n.task = .sending [p]) :
    Node.transmit n = some ({ n with task := .polling }, [p], [p.event]) := by
  simp only [Node.transmit, htask]
  rfl

/-! #### A call that polls -/

/-- Nobody polls without a call. -/
theorem poll_eq_none {dev : Device} (happ : n.app = none) : Node.poll dev n = none := by
  simp only [Node.poll, happ]

/-- The call under way: it waits for `d`, with its message in a frame's payload, and may send it
once more. -/
structure Waits (d : UInt8) (tag : Tag) (c : Call) : Prop where
  address : c.waiting.address = d
  flags : c.waiting.flags = typeMaskNeedAck
  size : c.waiting.msgSize.toNat ≤ 93
  allowResend : c.waiting.allowResend = true
  tag : c.tag = tag

/-- A call transmits its message under the next token and waits. -/
theorem call_eq {d : UInt8} (happ : n.app = none) (hd : d.toNat < cfg.netSize)
    (hroute : UInt8.ofInt (cfg.tables v d) = d) {m : List UInt8} (hm : m.length ≤ 77)
    (encrypted : Mem UInt8)
    (hnext : Encryption.counter (n.listener.globals.sendTokens d) + 1 < tokenMax.toNat) :
    ∃ globals c p, Node.call (cfg.device v) n d m encrypted = some ({ n with
        listener := { n.listener with globals := globals }
        app := some c
        calls := n.calls + 1 }, [p], [p.event, .called (v, n.calls) d m]) ∧
      Waits d (v, n.calls) c ∧ p.origin = v ∧ p.tag = (v, n.calls) ∧
      p.bytes = frameBytes cfg.crc d d v typeMaskNeedAck initTtl (Encryption.sealed cfg.aes
        (Encryption.counter (n.listener.globals.sendTokens d) + 1) m) := by
  have hshort : m.length < 110 := by omega
  obtain ⟨encBuf, msg, henc, hmsg⟩ := Encryption.encrypt_spec cfg.aes n.listener.globals
    encrypted d hshort (cells_load m null)
  have hcounter : Encryption.counter (Encryption.nextSendToken tokenSize
      (n.listener.globals.sendTokens d)) =
      Encryption.counter (n.listener.globals.sendTokens d) + 1 :=
    (Encryption.counter_nextSendToken_eq (Nat.lt_of_succ_lt hnext)).trans
      (Nat.mod_eq_of_lt hnext)
  rw [hcounter] at hmsg
  have hbytes := (Refinement.packetRel_transmit_sealed cfg v d (v, n.calls) hmsg ⟨hnext, hm⟩).bytes
  have henc' : Encryption.encrypt (cfg.device v).aes n.listener.globals (load m null)
      (UInt8.ofNat m.length) encrypted d = _ := henc
  have hok : d.toNat < (cfg.device v).netSize ∧ m.length < 256 := ⟨hd, by omega⟩
  have hsize : (UInt8.ofNat (Encryption.sealedSize m.length)).toNat ≤ 93 := by
    rw [Encryption.sealedSize_eq, UInt8.toNat_ofNat']
    omega
  have hnewPacket : (Protocol.newPacket (Refinement.routes cfg) v d (.data
      (Encryption.counter (n.listener.globals.sendTokens d) + 1) m) (v, n.calls)).next = d := hroute
  rw [hnewPacket] at hbytes
  refine ⟨⟨Function.update n.listener.globals.sendTokens d (Encryption.nextSendToken tokenSize
    (n.listener.globals.sendTokens d)), n.listener.globals.recvTokens, encBuf⟩,
    ⟨⟨d, msg, UInt8.ofNat (Encryption.sealedSize m.length), typeMaskNeedAck, true⟩,
      (v, n.calls)⟩, _, ?_, ⟨rfl, rfl, hsize, rfl, rfl⟩, rfl, rfl, hbytes⟩
  simp only [Node.call, happ, if_pos hok, sendWithAck, henc']
  rfl

variable {c : Call} {frame : LoraFrame} {cause : Tag} {rest : List (LoraFrame × Tag)}
  {d : UInt8} {tag : Tag} (hwaits : Waits d tag c) (happ : n.app = some c)
  (hqueue : n.responseQueue = (frame, cause) :: rest)

include hwaits happ hqueue

/-- A frame that does not disturb the call is dropped. -/
theorem poll_of_not_disturbs (h : ¬ Disturbs d frame) :
    ∃ listener c', Waits d tag c' ∧ Node.poll (cfg.device v) n =
      some ({ n with listener := listener, responseQueue := rest, app := some c' }, [], []) := by
  obtain ⟨g, msg, hreply⟩ : ∃ g msg, handleResponse (cfg.device v).aes n.listener.globals
      c.waiting frame = (g, { c.waiting with msg := msg }, .wait) := by
    unfold handleResponse
    by_cases hsend : frame.buf framePosSendAddr = c.waiting.address
    · have hbits := not_or.mp fun hbits => h ⟨hsend.trans hwaits.address, hbits⟩
      obtain ⟨herror, hresend⟩ := not_or.mp hbits.2
      rw [if_pos hsend, if_neg hbits.1, if_neg herror]
      dsimp only
      rw [if_neg fun hboth => hresend hboth.1]
      exact ⟨_, _, rfl⟩
    · rw [if_neg hsend]
      exact ⟨_, _, rfl⟩
  have hpoll : Node.poll (cfg.device v) n = some ({ n with
      listener := { n.listener with globals := g }, responseQueue := rest,
      app := some ⟨{ c.waiting with msg := msg }, c.tag⟩ }, [], []) := by
    simp only [Node.poll, happ, hqueue, hreply]
  exact ⟨{ n.listener with globals := g }, ⟨{ c.waiting with msg := msg }, c.tag⟩,
    ⟨hwaits.address, hwaits.flags, hwaits.size, hwaits.allowResend, hwaits.tag⟩, hpoll⟩

/-- An `ACK` ends the call. -/
theorem poll_ack (hsend : frame.buf framePosSendAddr = d)
    (hack : frame.buf framePosType &&& typeMaskAck ≠ 0) :
    Node.poll (cfg.device v) n = some ({ n with responseQueue := rest, app := none }, [],
      [.returned tag true (some cause)]) := by
  have hreply : handleResponse (cfg.device v).aes n.listener.globals c.waiting frame =
      (n.listener.globals, c.waiting, .returned true) := by
    rw [handleResponse, if_pos (hsend.trans hwaits.address.symm), if_pos hack]
  simp only [Node.poll, happ, hqueue, hreply, hwaits.tag]

/-- A frame that disturbs the call ends it, or makes it send its message again. -/
theorem poll_of_disturbs (h : Disturbs d frame) {r : Node.Result}
    (hr : Node.poll (cfg.device v) n = some r) :
    r = ({ n with responseQueue := rest, app := none }, [],
        [.returned tag true (some cause)]) ∨
      .returned tag false (some cause) ∈ r.2.2 ∨
      .transmitted v tag typeMaskNeedAck ∈ r.2.2 := by
  obtain ⟨hsend, hbits⟩ := h
  have hsend' := hsend.trans hwaits.address.symm
  by_cases hack : frame.buf framePosType &&& typeMaskAck ≠ 0
  · rw [poll_ack hwaits happ hqueue hsend hack] at hr
    exact .inl (Option.some.inj hr).symm
  · by_cases herror : frame.buf framePosType &&& typeMaskError ≠ 0
    · have hreply : handleResponse (cfg.device v).aes n.listener.globals c.waiting frame =
          (n.listener.globals, c.waiting, .returned false) := by
        rw [handleResponse, if_pos hsend', if_neg hack, if_pos herror]
      simp only [Node.poll, happ, hqueue, hreply, hwaits.tag] at hr
      obtain rfl := Option.some.inj hr
      exact .inr (.inl List.mem_cons_self)
    · have hresend := (hbits.resolve_left hack).resolve_left herror
      obtain ⟨g, msg, hreply⟩ : ∃ g msg, handleResponse (cfg.device v).aes n.listener.globals
          c.waiting frame = (g, { c.waiting with msg := msg }, .resend) := by
        rw [handleResponse, if_pos hsend', if_neg hack, if_neg herror]
        dsimp only
        rw [if_pos ⟨hresend, hwaits.allowResend⟩]
        exact ⟨_, _, rfl⟩
      simp only [Node.poll, happ, hqueue, hreply, hwaits.tag] at hr
      obtain rfl := Option.some.inj hr
      have htype := type_transmit (cfg.device v) c.waiting.address msg c.waiting.flags hwaits.size
      rw [hwaits.flags] at htype
      refine .inr (.inr (List.mem_singleton.mpr ?_))
      rw [Packet.event, Packet.type]
      rw [hwaits.flags, htype]
      rfl

end Node

end Leftover

end LCore
