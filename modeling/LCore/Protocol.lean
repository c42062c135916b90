import LCore.Encryption
import LCore.Node

/-!
# The Protocol

What the frames of a network say, without the bytes that say it. A frame carries a message
under a token, or is one of the answers; a node counts tokens, keeps its queues, and follows
the rules of `send_with_ack` and `_listen`. The network is the same as that of the nodes running
the code: the same labels, the same log, the same medium.

## Main definitions

* `Node.act`, `Node.hear`: the rules.
* `machine`, `booted`: the network of nodes that follow them.
-/

namespace LCore

namespace Protocol

/-- What a frame says. -/
inductive Body
  /-- a message under a token -/
  | data (token : ℕ) (m : List UInt8)
  | ack
  | error
  | resend
  /-- a demand to send again under a token -/
  | sync (token : ℕ)
  deriving DecidableEq

/-- The type byte. -/
def Body.flags : Body → UInt8
  | .data _ _ => typeMaskNeedAck
  | .ack => typeMaskAck
  | .error => typeMaskError
  | .resend => typeMaskResend
  | .sync _ => typeMaskSync ||| typeMaskResend

/-- A frame on the air, with the node that transmitted it and the call that caused it. -/
structure Packet where
  next : UInt8
  dest : UInt8
  send : UInt8
  ttl : UInt8
  body : Body
  origin : UInt8
  tag : Tag
  deriving DecidableEq

/-- The event of transmitting a packet. -/
def Packet.event (p : Packet) : Event := .transmitted p.origin p.tag p.body.flags

/-- What the listener hands to a queue: an answer or a message, and from whom. -/
inductive Entry
  | response (send : UInt8) (body : Body)
  | message (send : UInt8) (m : List UInt8)
  deriving DecidableEq

/-- Where the listener stands. -/
inductive Task
  | polling
  | queueing (entry : Entry) (tag : Tag)
  | sending (packets : List Packet)
  deriving DecidableEq

/-- The packets a listener has to transmit. -/
def Task.packets : Task → List Packet
  | .sending packets => packets
  | _ => []

/-- The listener has these packets to transmit. -/
def Task.owing : List Packet → Task
  | [] => .polling
  | packets => .sending packets

/-- A call of `send_with_ack` that waits: the message and the token it is sent under. -/
structure Call where
  dest : UInt8
  token : ℕ
  m : List UInt8
  allowResend : Bool
  tag : Tag
  deriving DecidableEq

/-- A node. -/
structure Node where
  sendToken : UInt8 → ℕ
  recvToken : UInt8 → ℕ
  newFrameQueue : List (UInt8 × List UInt8 × Tag)
  responseQueue : List (UInt8 × Body × Tag)
  task : Task
  app : Option Call
  calls : ℕ

/-- The routes of a network. -/
structure Routes where
  netSize : ℕ
  tables : UInt8 → UInt8 → ℤ

section Rules

variable (routes : Routes) (v : UInt8)

/-- A new packet of node `v`. -/
def newPacket (dest : UInt8) (body : Body) (tag : Tag) : Packet :=
  ⟨UInt8.ofInt (routes.tables v dest), dest, v, initTtl, body, v, tag⟩

/-- A packet as node `v` relays it. -/
def relayed (p : Packet) : Packet :=
  { p with next := UInt8.ofInt (routes.tables v p.dest), ttl := p.ttl - 1, origin := v }

namespace Node

/-- The result of an action: the node, the packets transmitted, the events. -/
abbrev Result := Node × List Packet × List Event

/-- A call takes the next token. -/
def call (n : Node) (dest : UInt8) (m : List UInt8) : Option Result :=
  match n.app with
  | some _ => none
  | none =>
      if dest.toNat < routes.netSize ∧ m.length < 256 then
        let token := (n.sendToken dest + 1) % tokenMax.toNat
        let p := newPacket routes v dest (.data token m) (v, n.calls)
        some ({ n with
          sendToken := Function.update n.sendToken dest token
          app := some ⟨dest, token, m, true, (v, n.calls)⟩
          calls := n.calls + 1 }, [p], [p.event, .called (v, n.calls) dest m])
      else none

/-- The call sends its message again, for the last time. -/
def resend (n : Node) (c : Call) : Result :=
  let p := newPacket routes v c.dest (.data c.token c.m) c.tag
  ({ n with app := some { c with allowResend := false } }, [p], [p.event])

/-- The call takes an answer: an `ACK` or an `ERROR` of its peer decides it, a `SYNC` sets the
token, and the first `RESEND` is followed. -/
def poll (n : Node) : Option Result :=
  match n.app, n.responseQueue with
  | some c, (send, body, tag) :: rest =>
      let n := { n with responseQueue := rest }
      if send = c.dest then
        match body with
        | .ack => some ({ n with app := none }, [], [.returned c.tag true (some tag)])
        | .error => some ({ n with app := none }, [], [.returned c.tag false (some tag)])
        | .sync token =>
            let c := { c with token := token }
            let n := { n with sendToken := Function.update n.sendToken c.dest token }
            some (if c.allowResend then resend routes v n c else
              ({ n with app := some c }, [], []))
        | .resend => some (if c.allowResend then resend routes v n c else (n, [], []))
        | .data _ _ => some (n, [], [])
      else some (n, [], [])
  | _, _ => none

/-- The time is up. -/
def timeout (n : Node) : Option Result :=
  match n.app with
  | some c => some ({ n with app := none }, [], [.returned c.tag false none])
  | none => none

/-- The application takes a message. -/
def take (n : Node) : Option Result :=
  match n.newFrameQueue with
  | (send, m, _) :: rest => some ({ n with newFrameQueue := rest }, [], [.taken v send m])
  | [] => none

/-- The listener fills a queue; a message is answered, and one that was refused twice. -/
def put (n : Node) : Option Result :=
  match n.task with
  | .queueing (.response send body) tag =>
      some ({ n with responseQueue := (xQueueSend n.responseQueue (send, body, tag)).2,
                     task := .polling }, [], [])
  | .queueing (.message send m) tag =>
      let q := xQueueSend n.newFrameQueue (send, m, tag)
      let ack := newPacket routes v send .ack tag
      let error := newPacket routes v send .error tag
      some ({ n with newFrameQueue := q.2,
                     task := .sending (if q.1 then [ack] else [error, ack]) }, [],
        [if q.1 then .put v send m tag else .refused v send m tag])
  | _ => none

/-- The listener transmits. -/
def transmit (n : Node) : Option Result :=
  match n.task with
  | .sending (p :: rest) => some ({ n with task := Task.owing rest }, [p], [p.event])
  | _ => none

/-- An action of a node. -/
def act (n : Node) : Action → Option Result
  | .call dest m _ => call routes v n dest m
  | .poll => poll routes v n
  | .timeout => timeout n
  | .take => take v n
  | .put => put routes v n
  | .transmit => transmit n

/-- What the listener makes of a packet: the receive counters and what is to be done. -/
def listen (n : Node) (p : Packet) : (UInt8 → ℕ) × Task :=
  if p.next = v then
    if p.dest = v then
      match p.body with
      | .data token m =>
          if Encryption.InWindow (n.recvToken p.send) token then
            (Function.update n.recvToken p.send token, .queueing (.message p.send m) p.tag)
          else
            (n.recvToken, .sending [newPacket routes v p.send
              (.sync ((n.recvToken p.send + 1) % tokenMax.toNat)) p.tag])
      | body => (n.recvToken, .queueing (.response p.send body) p.tag)
    else if p.dest.toNat < routes.netSize ∧ p.ttl ≠ 0 then
      (n.recvToken, .sending [relayed routes v p])
    else (n.recvToken, .polling)
  else (n.recvToken, .polling)

/-- The listener hears a packet. -/
def hear (n : Node) (p : Packet) : Option (Node × List Event) :=
  match n.task with
  | .polling =>
      let r := listen routes v n p
      some ({ n with recvToken := r.1, task := r.2 }, [])
  | _ => none

/-- There is room for what the listener hands to a queue. -/
def hasRoom (n : Node) : Bool :=
  match n.task with
  | .queueing (.response _ _) _ => n.responseQueue.length < queueLen
  | .queueing (.message _ _) _ => n.newFrameQueue.length < queueLen
  | _ => true

/-- A node that has just been switched on. -/
def boot (recvToken : UInt8 → ℕ) : Node where
  sendToken := fun _ => 0
  recvToken := recvToken
  newFrameQueue := []
  responseQueue := []
  task := .polling
  app := none
  calls := 0

end Node

end Rules

/-- The program of the nodes. -/
def machine (routes : Routes) :
    Network.Machine UInt8 Node Packet Action LCore.Node.Locals (ℕ × UInt8) Event where
  act v n i := if v.toNat < routes.netSize then Node.act routes v n i else none
  hear v n p _ := Node.hear routes v n p
  audible v p := decide (v.toNat < routes.netSize) && v != p.origin
  consumes v p := p.next == v
  alter _ _ := none

section Machine

variable {routes : Routes} {v : UInt8}

/-- An action of a device of the network. -/
theorem machine_act {n : Node} {i : Action} {r : Node.Result} :
    (machine routes).act v n i = some r ↔
      v.toNat < routes.netSize ∧ Node.act routes v n i = some r :=
  Option.ite_none_right_eq_some

/-- A packet is heard by the devices of the network, save the one that transmitted it. -/
theorem machine_audible {p : Packet} :
    (machine routes).audible v p = true ↔ v.toNat < routes.netSize ∧ v ≠ p.origin := by
  simp [machine]

end Machine

/-- A network of nodes. -/
abbrev Net := Network.Net UInt8 Node Packet Event

/-- A packet is under way: on the air, or still with the listener that is to transmit it. -/
def InFlight (net : Net) (p : Packet) : Prop :=
  p ∈ net.air ∨ ∃ v, p ∈ (net.nodes v).task.packets

/-- Whatever the step puts into a queue has room there. -/
def hasRoom (net : Net) : Step → Bool
  | .act v .put => (net.nodes v).hasRoom
  | _ => true

/-- A network that has just been switched on. -/
def booted (recvToken : UInt8 → UInt8 → ℕ) : Net := ⟨fun v => Node.boot (recvToken v), [], []⟩

end Protocol

end LCore
