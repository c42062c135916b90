import LCore.Frame
import LCore.Lib.Network

/-!
# The Nodes of a Network

A node runs the listener task and one application task. `Node` is what the two share and where
each of them stands; an `Action` takes one of them to the next point where the other task, the
radio or the application can be noticed:

* the application starts a call of `send_with_ack`, takes one frame out of `response_queue`
  while the call waits, runs into the time limit, or takes a message with `try_receive`;
* the listener hears a packet, hands what it made of it to `xQueueSend`, or transmits the next
  of the packets the iteration owes.

A call of an `Encryption` function, a checksum, building and transmitting a frame, and an
operation on a queue are each within one action. For the calls and the checksums this is an
assumption: the listener runs on core 0 and the application on core 1, and they share `enc_buf`
and `_crc` without a lock. A checksum that the other task disturbs amounts to an altered frame.
The time limit may pass at any time.

Every call has a tag, the node and the number of the call there. Packets and entries of queues
carry the tag of the call that caused them, for the log only: no action depends on a tag.
-/

open Memory

namespace LCore

/-- A call of `send_with_ack`: the calling node and how many it had made before. -/
abbrev Tag := UInt8 × ℕ

/-- A packet on the air, with the node that transmitted it. -/
structure Packet where
  bytes : List UInt8
  origin : UInt8
  tag : Tag

/-- What the log of a network records. -/
inductive Event
  /-- `send_with_ack(dest, m)` was called. -/
  | called (tag : Tag) (dest : UInt8) (m : List UInt8)
  /-- `node` transmitted a packet with the type byte `type`. -/
  | transmitted (node : UInt8) (tag : Tag) (type : UInt8)
  /-- `node` put a message from `address` into `new_frame_queue`. -/
  | put (node address : UInt8) (m : List UInt8) (tag : Tag)
  /-- The `new_frame_queue` of `node` refused a message. -/
  | refused (node address : UInt8) (m : List UInt8) (tag : Tag)
  /-- A call returned, for an answer to the call `cause` or because the time was up. -/
  | returned (tag : Tag) (result : Bool) (cause : Option Tag)
  /-- The application of `node` took a message with `try_receive`. -/
  | taken (node address : UInt8) (m : List UInt8)
  deriving DecidableEq

/-- The node a packet is for. -/
def Packet.dest (p : Packet) : UInt8 := p.bytes.getD 1 0

/-- The node whose frame it is. -/
def Packet.send (p : Packet) : UInt8 := p.bytes.getD 2 0

/-- The type byte. -/
def Packet.type (p : Packet) : UInt8 := p.bytes.getD 3 0

/-- The event of transmitting a packet. -/
def Packet.event (p : Packet) : Event := .transmitted p.origin p.tag p.type

/-- What the listener hands to `xQueueSend`. -/
inductive Entry
  | response (frame : LoraFrame)
  | message (m : NewMsg) (type : UInt8)

/-- Where the listener stands. -/
inductive Task
  | polling
  | queueing (entry : Entry) (tag : Tag)
  | sending (packets : List Packet)

/-- The listener has these packets to transmit. -/
def Task.owing : List Packet → Task
  | [] => .polling
  | packets => .sending packets

/-- The packets a listener has to transmit. -/
def Task.packets : Task → List Packet
  | .sending packets => packets
  | _ => []

/-- A call of `send_with_ack` that waits. -/
structure Call where
  waiting : Waiting
  tag : Tag

/-- A node. -/
structure Node where
  listener : Listener
  newFrameQueue : List (NewMsg × Tag)
  responseQueue : List (LoraFrame × Tag)
  task : Task
  app : Option Call
  /-- How many calls the application has made. -/
  calls : ℕ

/-- What a node does on its own. -/
inductive Action
  | call (dest : UInt8) (m : List UInt8) (encrypted : Mem UInt8)
  | poll
  | timeout
  | take
  | put
  | transmit

namespace Node

/-- The result of an action: the node, the packets transmitted, the events. -/
abbrev Result := Node × List Packet × List Event

/-- The application calls `send_with_ack`. -/
def call (dev : Device) (n : Node) (dest : UInt8) (m : List UInt8) (encrypted : Mem UInt8) :
    Option Result :=
  match n.app with
  | some _ => none
  | none =>
      if dest.toNat < dev.netSize ∧ m.length < 256 then
        let r := sendWithAck dev n.listener.globals dest (load m null) (UInt8.ofNat m.length)
          encrypted
        let tag : Tag := (dev.address, n.calls)
        let p : Packet := ⟨r.2.1, dev.address, tag⟩
        some ({ n with
          listener := { n.listener with globals := r.1 }
          app := some ⟨r.2.2, tag⟩
          calls := n.calls + 1 }, [p], [p.event, .called tag dest m])
      else none

/-- The call that waits takes a frame out of `response_queue`. -/
def poll (dev : Device) (n : Node) : Option Result :=
  match n.app, n.responseQueue with
  | some c, (frame, tag) :: rest =>
      let r := handleResponse dev.aes n.listener.globals c.waiting frame
      let n := { n with listener := { n.listener with globals := r.1 }, responseQueue := rest }
      let w := r.2.1
      match r.2.2 with
      | .returned result =>
          some ({ n with app := none }, [], [.returned c.tag result (some tag)])
      | .wait => some ({ n with app := some ⟨w, c.tag⟩ }, [], [])
      | .resend =>
          let p : Packet :=
            ⟨LCore.transmit dev w.address w.msg w.msgSize w.flags, dev.address, c.tag⟩
          some ({ n with app := some ⟨{ w with allowResend := false }, c.tag⟩ }, [p],
            [p.event])
  | _, _ => none

/-- The time of the call that waits is up. -/
def timeout (n : Node) : Option Result :=
  match n.app with
  | some c => some ({ n with app := none }, [], [.returned c.tag false none])
  | none => none

/-- The application calls `try_receive` and there is a message. -/
def take (dev : Device) (n : Node) : Option Result :=
  match n.newFrameQueue with
  | (m, _) :: rest => some ({ n with newFrameQueue := rest }, [],
      [.taken dev.address m.address (cells m.msg m.msgSize.toNat)])
  | [] => none

/-- The listener calls `xQueueSend`; for a new message the answers are due next. -/
def put (dev : Device) (n : Node) : Option Result :=
  match n.task with
  | .queueing (.response frame) tag =>
      let q := xQueueSend n.responseQueue (frame, tag)
      some ({ n with responseQueue := q.2, task := .polling }, [], [])
  | .queueing (.message m type) tag =>
      let q := xQueueSend n.newFrameQueue (m, tag)
      let packets := (answers dev q.1 m type).map fun bytes => ⟨bytes, dev.address, tag⟩
      let content := cells m.msg m.msgSize.toNat
      some ({ n with newFrameQueue := q.2, task := Task.owing packets }, [],
        [if q.1 then .put dev.address m.address content tag
          else .refused dev.address m.address content tag])
  | _ => none

/-- The listener transmits. -/
def transmit (n : Node) : Option Result :=
  match n.task with
  | .sending (p :: rest) =>
      some ({ n with task := Task.owing rest }, [p], [p.event])
  | _ => none

/-- An action of a node. -/
def act (dev : Device) (n : Node) : Action → Option Result
  | .call dest m encrypted => call dev n dest m encrypted
  | .poll => poll dev n
  | .timeout => timeout n
  | .take => take dev n
  | .put => put dev n
  | .transmit => transmit n

/-- The listener's uninitialised locals, `message` and `token`. -/
structure Locals where
  message : NewMsg
  token : Mem UInt8

/-- Locals that happen to be zero. -/
def Locals.zero : Locals := ⟨⟨0, null, 0⟩, null⟩

/-- What the listener of node `address` does next with what it heard. -/
def next (address : UInt8) (tag : Tag) : Heard → Task
  | .nothing => .polling
  | .forwarded bytes | .badCrc bytes | .rejected bytes => .sending [⟨bytes, address, tag⟩]
  | .response frame => .queueing (.response frame) tag
  | .message m type => .queueing (.message m type) tag

/-- The listener takes a packet from the radio. -/
def hear (dev : Device) (n : Node) (p : Packet) (locals : Locals) :
    Option (Node × List Event) :=
  match n.task with
  | .polling =>
      let r := listen dev n.listener locals.message locals.token p.bytes
      some ({ n with listener := r.1, task := next dev.address p.tag r.2 }, [])
  | _ => none

/-- There is room for what the listener hands to `xQueueSend`. -/
def hasRoom (n : Node) : Bool :=
  match n.task with
  | .queueing (.response _) _ => n.responseQueue.length < queueLen
  | .queueing (.message _ _) _ => n.newFrameQueue.length < queueLen
  | _ => true

/-- A node after `init`, with `rnd i` the `i`-th value of `random(0, TOKEN_MAX)`. -/
def boot (rnd : UInt8 → Fin tokenMax.toNat) (encBuf : Mem UInt8) : Node where
  listener := ⟨LoraFrame.init, Encryption.init rnd encBuf⟩
  newFrameQueue := []
  responseQueue := []
  task := .polling
  app := none
  calls := 0

end Node

/-- The program of the nodes of a network. A packet is heard by nodes other than the one that
transmitted it, and is gone once the node it names has heard it. The medium may set a byte of a
packet. -/
def machine (cfg : Config) :
    Network.Machine UInt8 Node Packet Action Node.Locals (ℕ × UInt8) Event where
  act v n i := if v.toNat < cfg.netSize then Node.act (cfg.device v) n i else none
  hear v n p locals := Node.hear (cfg.device v) n p locals
  audible v p := decide (v.toNat < cfg.netSize) && v != p.origin
  consumes v p := p.bytes.head? == some v
  alter c p := if c.1 < p.bytes.length then some { p with bytes := p.bytes.set c.1 c.2 } else none

section Machine

variable {cfg : Config} {v : UInt8}

/-- The nodes of the network act. -/
theorem machine_act {n : Node} {i : Action} {r : Node.Result} :
    (machine cfg).act v n i = some r ↔
      v.toNat < cfg.netSize ∧ Node.act (cfg.device v) n i = some r :=
  Option.ite_none_right_eq_some

/-- The nodes of the network hear what others transmit. -/
theorem machine_audible {p : Packet} :
    (machine cfg).audible v p = true ↔ v.toNat < cfg.netSize ∧ v ≠ p.origin := by
  simp [machine]

end Machine

/-- A network of nodes running the code. -/
abbrev LoraNet := Network.Net UInt8 Node Packet Event

/-- A step of a network of nodes running the code. -/
abbrev Step := Network.Label UInt8 Action Node.Locals (ℕ × UInt8)

/-- A network that has just been switched on: each node with its own random numbers and
whatever its scratch buffer holds. -/
def booted (rnd : UInt8 → UInt8 → Fin tokenMax.toNat) (encBuf : UInt8 → Mem UInt8) : LoraNet :=
  ⟨fun v => Node.boot (rnd v) (encBuf v), [], []⟩

/-- A packet is under way: on the air, or still with the listener that is to transmit it. -/
def InFlight (net : LoraNet) (p : Packet) : Prop :=
  p ∈ net.air ∨ ∃ v, p ∈ (net.nodes v).task.packets

/-- A packet with a message under a token that is ahead of the counter at the node it is for. -/
def IsLive (cfg : Config) (net : LoraNet) (p : Packet) : Prop :=
  p.type &&& responseMask = 0 ∧
    Encryption.counter ((net.nodes p.dest).listener.globals.recvTokens p.send) <
      Encryption.payloadToken cfg.aes (p.bytes.drop 7)

/-- Every `xQueueSend` of the step succeeds. -/
def hasRoom (net : LoraNet) : Step → Bool
  | .act v .put => (net.nodes v).hasRoom
  | _ => true

/-- The message `send_with_ack` is called with fits a frame. -/
def Action.Fits : Action → Prop
  | .call _ m _ => m.length ≤ 77
  | _ => True

/-- Every message fits a frame, and the medium alters nothing. -/
def Step.Clean (l : Step) : Prop := l.Admits Action.Fits

end LCore
