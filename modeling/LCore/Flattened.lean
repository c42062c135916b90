import LCore.Lib.Budget
import LCore.Provenance
import Mathlib.Data.FinEnum

/-!
# What a Relayed Packet Is

In a network of the same size in which everyone reaches everyone directly, a packet is on the air
from its first transmission to its last. What a node does with its own packets it does in both
networks alike; what it relays it does not have there.

## Main results

* `Rel`: the networks that correspond.
* `act_own`: an action of a node with a packet of its own.
-/


namespace LCore

namespace Relays

open Protocol (Body newPacket)

/-- The network of the same size in which everyone reaches everyone directly. -/
def direct (routes : Protocol.Routes) : Protocol.Routes :=
  ⟨routes.netSize, fun _ dest => dest.toNat⟩

/-- A packet as its sender transmits it in the direct network. -/
def flat (p : Protocol.Packet) : Protocol.Packet :=
  { p with next := p.dest, ttl := initTtl, origin := p.send }

/-- What is on the air, as it is in the direct network. -/
def aired (air : List Protocol.Packet) : Multiset Protocol.Packet := (air.map flat : List _)

/-- What a listener in the direct network has to do. -/
def flatTask : Protocol.Task → Protocol.Task
  | .sending packets => .sending (packets.map flat)
  | task => task

/-- An event other than a transmission. -/
def notTransmitted : Event → Bool
  | .transmitted _ _ _ => false
  | _ => true

/-- Two of the nodes in `P`. -/
def Between (P : Set UInt8) (s d : UInt8) : Prop := s ∈ P ∧ d ∈ P ∧ s ≠ d

/-- It is the same the other way round. -/
theorem Between.symm {P : Set UInt8} {s d : UInt8} (h : Between P s d) : Between P d s :=
  ⟨h.2.1, h.1, h.2.2.symm⟩

/-- Only nodes in `P` call, and only other ones. -/
def Among (P : Set UInt8) : Step → Prop
  | .act v (.call dest _ _) => Between P v dest
  | _ => True

/-! ### The correspondence -/

/-- The listener does the same in both networks, or relays a packet that in the direct network is
still on the air. -/
inductive TaskRel : Protocol.Task → Protocol.Task → Multiset Protocol.Packet → Prop
  | own {task : Protocol.Task} (hown : ∀ p ∈ task.packets, p.origin = p.send) :
      TaskRel task (flatTask task) 0
  | relaying (p : Protocol.Packet) : TaskRel (.sending [p]) .polling {flat p}

/-- Two listeners that poll. -/
theorem taskRel_polling : TaskRel .polling .polling 0 := .own (nofun : ∀ p ∈ [], _)

/-- The listener has something of its own to do, or a packet to relay. -/
theorem TaskRel.cases {task task' : Protocol.Task} {x : Multiset Protocol.Packet}
    (h : TaskRel task task' x) :
    ((∀ p ∈ task.packets, p.origin = p.send) ∧ task' = flatTask task ∧ x = 0) ∨
      ∃ p, task = .sending [p] ∧ task' = .polling ∧ x = {flat p} := by
  cases h with
  | own hown => exact .inl ⟨hown, rfl, rfl⟩
  | relaying p => exact .inr ⟨p, rfl, rfl, rfl⟩

/-- A listener that polls does so in both networks. -/
theorem TaskRel.of_polling {task task' : Protocol.Task} {x : Multiset Protocol.Packet}
    (h : TaskRel task task' x) (htask : task = .polling) : task' = .polling ∧ x = 0 := by
  subst htask
  cases h with
  | own => exact ⟨rfl, rfl⟩

/-- The nodes are the same but for their listeners. -/
structure NodeRel (n n' : Protocol.Node) (held : Multiset Protocol.Packet) : Prop where
  node : n' = { n with task := n'.task }
  task : TaskRel n.task n'.task held

/-- A node has to do with packets between nodes in `P` only. -/
structure Talks (P : Set UInt8) (v : UInt8) (n : Protocol.Node) : Prop where
  packets : ∀ p ∈ n.task.packets, Between P p.send p.dest
  message : ∀ send m tag, n.task = .queueing (.message send m) tag → Between P send v
  app : ∀ c, n.app = some c → Between P c.dest v

/-- The networks correspond: in the direct one the packets that are with relays are on the air, and
the relays' transmissions are not in the log. -/
structure Rel (P : Set UInt8) (held : UInt8 → Multiset Protocol.Packet)
    (net net' : Protocol.Net) : Prop where
  nodes : ∀ v, NodeRel (net.nodes v) (net'.nodes v) (held v)
  air : (net'.air : Multiset Protocol.Packet) = aired net.air + ∑ v, held v
  talks : ∀ v, Talks P v (net.nodes v)
  between : ∀ p ∈ net.air, Between P p.send p.dest
  sublist : net'.log.Sublist net.log
  log : net'.log.filter notTransmitted = net.log.filter notTransmitted

section Packets

variable (routes : Protocol.Routes) (v : UInt8)

/-- A new packet, flattened, is a new packet of the direct network. -/
theorem flat_newPacket (dest : UInt8) (body : Body) (tag : Tag) :
    flat (newPacket routes v dest body tag) = newPacket (direct routes) v dest body tag := by
  simp [flat, newPacket, direct]

/-- What is added to the air is added to what is aired. -/
theorem aired_append (air new : List Protocol.Packet) :
    aired (air ++ new) = aired air + aired new := by
  rw [aired, List.map_append, ← Multiset.coe_add]
  rfl

/-- What is transmitted in both networks keeps the balance. -/
theorem balance_append (air air' packets : List Protocol.Packet) (x : Multiset Protocol.Packet) :
    (air' ++ packets.map flat : List _) + x + aired air =
      aired (air ++ packets) + x + (air' : Multiset Protocol.Packet) := by
  have hpackets : ((packets.map flat : List _) : Multiset Protocol.Packet) = aired packets := rfl
  rw [aired_append, ← Multiset.coe_add, hpackets]
  ac_rfl

/-- A packet on the air is one of those aired. -/
theorem aired_eq_cons {air : List Protocol.Packet} {k : ℕ} {p : Protocol.Packet}
    (hp : air[k]? = some p) : aired air = flat p ::ₘ aired (air.eraseIdx k) := by
  rw [aired, aired, ← Multiset.map_coe, Network.coe_eraseIdx hp, Multiset.map_cons,
    Multiset.map_coe]

/-- A packet is gone from the air, and from that of the direct network. -/
theorem aired_eraseIdx {air air' : List Protocol.Packet} {k k' : ℕ} {p : Protocol.Packet}
    (hp : air[k]? = some p) (hp' : air'[k']? = some (flat p)) :
    air'.eraseIdx k' + aired air = aired (air.eraseIdx k) + (air' : Multiset Protocol.Packet) := by
  rw [aired_eq_cons hp, Network.coe_eraseIdx hp', Multiset.add_cons, Multiset.add_cons, add_comm]

/-- What is owed is flattened packet by packet. -/
theorem flatTask_owing (packets : List Protocol.Packet) :
    flatTask (Protocol.Task.owing packets) = Protocol.Task.owing (packets.map flat) := by
  cases packets with
  | nil => rfl
  | cons p packets => rfl

end Packets

/-! ### What the nodes do -/

section Node

variable {routes : Protocol.Routes} {P : Set UInt8} {v : UInt8} {n : Protocol.Node}

/-- The result of an action in the direct network, where the listener has another task. -/
def flatResult (task : Protocol.Task) (r : Protocol.Node.Result) : Protocol.Node.Result :=
  ({ r.1 with task := task }, r.2.1.map flat, r.2.2)

/-- The direct network calls alike, whatever its listener does. -/
theorem call_flat (task : Protocol.Task) (dest : UInt8) (m : List UInt8) :
    Protocol.Node.call (direct routes) v { n with task := task } dest m =
      (Protocol.Node.call routes v n dest m).map (flatResult task) := by
  unfold Protocol.Node.call
  cases n.app with
  | some c => rfl
  | none =>
      by_cases hok : dest.toNat < routes.netSize ∧ m.length < 256
      · have hok' : dest.toNat < (direct routes).netSize ∧ m.length < 256 := hok
        simp only [if_pos hok, if_pos hok', Option.map_some, flatResult, List.map_cons,
          List.map_nil, flat_newPacket]
        rfl
      · have hok' : ¬ (dest.toNat < (direct routes).netSize ∧ m.length < 256) := hok
        simp only [if_neg hok, if_neg hok', Option.map_none]

/-- It sends a message again alike. -/
theorem resend_flat (task : Protocol.Task) (c : Protocol.Call) :
    Protocol.Node.resend (direct routes) v { n with task := task } c =
      flatResult task (Protocol.Node.resend routes v n c) := by
  simp only [Protocol.Node.resend, flatResult, List.map_cons, List.map_nil, flat_newPacket]
  rfl

/-- It polls alike. -/
theorem poll_flat (task : Protocol.Task) :
    Protocol.Node.poll (direct routes) v { n with task := task } =
      (Protocol.Node.poll routes v n).map (flatResult task) := by
  obtain ⟨sendToken, recvToken, newFrameQueue, responseQueue, task', app, calls⟩ := n
  unfold Protocol.Node.poll
  cases app with
  | none => rfl
  | some c =>
      cases responseQueue with
      | nil => rfl
      | cons entry rest =>
          obtain ⟨send, body, tag⟩ := entry
          dsimp only
          split
          · cases body with
            | ack => rfl
            | error => rfl
            | data t m => rfl
            | sync t =>
                dsimp only
                split
                · exact congrArg some (resend_flat (n := ⟨Function.update sendToken c.dest t,
                    recvToken, newFrameQueue, rest, task', some c, calls⟩) task _)
                · rfl
            | resend =>
                dsimp only
                split
                · exact congrArg some (resend_flat (n := ⟨sendToken, recvToken, newFrameQueue, rest,
                    task', some c, calls⟩) task c)
                · rfl
          · rfl

/-- It runs out of time alike. -/
theorem timeout_flat (task : Protocol.Task) :
    Protocol.Node.timeout { n with task := task } =
      (Protocol.Node.timeout n).map (flatResult task) := by
  unfold Protocol.Node.timeout
  cases n.app with
  | _ => rfl

/-- It takes messages alike. -/
theorem take_flat (task : Protocol.Task) :
    Protocol.Node.take v { n with task := task } =
      (Protocol.Node.take v n).map (flatResult task) := by
  unfold Protocol.Node.take
  cases n.newFrameQueue with
  | _ => rfl

/-- An action of the application: it does not look at the listener. -/
def ofApp : Action → Bool
  | .put | .transmit => false
  | _ => true

/-- The applications do the same in both networks. -/
theorem act_flat (routes : Protocol.Routes) (v : UInt8) {i : Action} (hi : ofApp i = true)
    (task : Protocol.Task) :
    Protocol.Node.act (direct routes) v { n with task := task } i =
      (Protocol.Node.act routes v n i).map (flatResult task) := by
  cases i with
  | call dest m encrypted => exact call_flat task dest m
  | poll => exact poll_flat task
  | timeout => exact timeout_flat task
  | take => exact take_flat task
  | put => cases hi
  | transmit => cases hi

/-- The application leaves the listener where it is. -/
theorem task_of_app {i : Action} (hi : ofApp i = true) {r : Protocol.Node.Result}
    (hacts : Protocol.Node.Acts routes v n i r) : r.1.task = n.task := by
  cases hacts with
  | queued => cases hi
  | put => cases hi
  | refused => cases hi
  | transmitted => cases hi
  | _ => rfl

/-- A put of the direct network. -/
theorem put_flat : Protocol.Node.put (direct routes) v { n with task := flatTask n.task } =
    (Protocol.Node.put routes v n).map fun r => flatResult (flatTask r.1.task) r := by
  obtain ⟨sendToken, recvToken, newFrameQueue, responseQueue, task, app, calls⟩ := n
  unfold Protocol.Node.put
  cases task with
  | polling => rfl
  | sending packets => rfl
  | queueing entry tag =>
      cases entry with
      | response send body => rfl
      | message send m =>
          simp only [Option.map_some, flatResult, flatTask, List.map_nil]
          split
          · simp only [List.map_cons, List.map_nil, flat_newPacket]
          · simp only [List.map_cons, List.map_nil, flat_newPacket]

/-- A transmission of the direct network, of a packet that is the node's own. -/
theorem transmit_flat (hown : ∀ p ∈ n.task.packets, p.origin = p.send) :
    Protocol.Node.transmit { n with task := flatTask n.task } =
      (Protocol.Node.transmit n).map fun r => flatResult (flatTask r.1.task) r := by
  obtain ⟨sendToken, recvToken, newFrameQueue, responseQueue, task, app, calls⟩ := n
  cases task with
  | polling => rfl
  | queueing entry tag => rfl
  | sending packets =>
      cases packets with
      | nil => rfl
      | cons p rest =>
          have hevent : (flat p).event = p.event := by
            rw [Protocol.Packet.event, Protocol.Packet.event, hown p List.mem_cons_self]
            rfl
          simp only [Protocol.Node.transmit, flatTask, List.map_cons, List.map_nil, Option.map_some,
            flatResult, hevent, ← flatTask_owing]

/-- A node that relays nothing does the same in both networks. -/
theorem act_own (routes : Protocol.Routes) (v : UInt8)
    (hown : ∀ p ∈ n.task.packets, p.origin = p.send) (i : Action) :
    Protocol.Node.act (direct routes) v { n with task := flatTask n.task } i =
      (Protocol.Node.act routes v n i).map fun r => flatResult (flatTask r.1.task) r := by
  have happ : ofApp i = true → Protocol.Node.act (direct routes) v
      { n with task := flatTask n.task } i =
        (Protocol.Node.act routes v n i).map fun r => flatResult (flatTask r.1.task) r := by
    intro hi
    rw [act_flat routes v hi]
    refine Option.map_congr fun r hr => ?_
    rw [task_of_app hi (Protocol.Node.act_cases hr)]
  cases i with
  | put => exact put_flat
  | transmit => exact transmit_flat hown
  | _ => exact happ rfl

/-- What a node does keeps it among the nodes in `P`. -/
theorem Talks.act (h : Talks P v n) {i : Action} {r : Protocol.Node.Result}
    (hamong : Among P (.act v i)) (hacts : Protocol.Node.Acts routes v n i r) :
    Talks P v r.1 ∧ ∀ p ∈ r.2.1, Between P p.send p.dest := by
  cases hacts with
  | called happ htoken =>
      have hbetween : Between P v _ := hamong
      refine ⟨⟨h.packets, h.message, fun c hc => ?_⟩, fun p hp => ?_⟩
      · obtain rfl := Option.some.inj hc
        exact hbetween.symm
      · obtain rfl := List.mem_singleton.mp hp
        exact hbetween
  | returned => exact ⟨⟨h.packets, h.message, nofun⟩, nofun⟩
  | timedOut => exact ⟨⟨h.packets, h.message, nofun⟩, nofun⟩
  | ignored => exact ⟨⟨h.packets, h.message, h.app⟩, nofun⟩
  | taken => exact ⟨⟨h.packets, h.message, h.app⟩, nofun⟩
  | @synced c token tag rest happ =>
      refine ⟨⟨h.packets, h.message, fun c' hc => ?_⟩, nofun⟩
      obtain rfl := Option.some.inj hc
      exact h.app c happ
  | @resent c body token tag rest sendToken happ =>
      refine ⟨⟨h.packets, h.message, fun c' hc => ?_⟩, fun p hp => ?_⟩
      · obtain rfl := Option.some.inj hc
        exact h.app c happ
      · obtain rfl := List.mem_singleton.mp hp
        exact (h.app c happ).symm
  | queued => exact ⟨⟨nofun, nofun, h.app⟩, nofun⟩
  | @put send m tag htask =>
      refine ⟨⟨fun p hp => ?_, nofun, h.app⟩, nofun⟩
      obtain rfl := List.mem_singleton.mp hp
      exact (h.message send m tag htask).symm
  | @refused send m tag htask =>
      refine ⟨⟨fun p hp => ?_, nofun, h.app⟩, nofun⟩
      rcases List.mem_cons.mp hp with rfl | hp
      · exact (h.message send m tag htask).symm
      · obtain rfl := List.mem_singleton.mp hp
        exact (h.message send m tag htask).symm
  | @transmitted p rest htask =>
      have hpackets := h.packets
      rw [htask] at hpackets
      refine ⟨⟨fun q hq => ?_, fun send m tag heq => ?_, h.app⟩, fun q hq => ?_⟩
      · rw [Protocol.Task.packets_owing] at hq
        exact hpackets q (List.mem_cons_of_mem p hq)
      · exact absurd heq (Protocol.Task.owing_ne_queueing _ _ _)
      · obtain rfl := List.mem_singleton.mp hq
        exact hpackets q List.mem_cons_self

/-- Hearing a packet, a node goes on talking to the nodes of `P` only. -/
theorem Talks.hears (h : Talks P v n) {p : Protocol.Packet} {n' : Protocol.Node}
    (hp : Between P p.send p.dest) (hhears : Protocol.Node.Hears routes v n p n') :
    Talks P v n' := by
  cases hhears with
  | ignored => exact h
  | relayed hdest =>
      refine ⟨fun q hq => ?_, nofun, h.app⟩
      obtain rfl := List.mem_singleton.mp hq
      exact hp
  | answer hdest hbody => exact ⟨nofun, nofun, h.app⟩
  | accepted hdest hbody hwindow =>
      refine ⟨nofun, fun send m tag heq => ?_, h.app⟩
      obtain ⟨hentry, -⟩ := Protocol.Task.queueing.inj heq
      obtain ⟨rfl, -⟩ := Protocol.Entry.message.inj hentry
      exact hdest ▸ hp
  | rejected hdest hbody hwindow =>
      refine ⟨fun q hq => ?_, nofun, h.app⟩
      obtain rfl := List.mem_singleton.mp hq
      exact (hdest ▸ hp).symm

/-- What a listener owes stays its own. -/
theorem own_of_act (hown : ∀ p ∈ n.task.packets, p.origin = p.send) {i : Action}
    {r : Protocol.Node.Result} (hacts : Protocol.Node.Acts routes v n i r) :
    ∀ p ∈ r.1.task.packets, p.origin = p.send := by
  cases hacts with
  | queued => exact nofun
  | put =>
      intro p hp
      obtain rfl := List.mem_singleton.mp hp
      rfl
  | refused =>
      intro p hp
      rcases List.mem_cons.mp hp with rfl | hp
      · rfl
      · obtain rfl := List.mem_singleton.mp hp
        rfl
  | @transmitted p rest htask =>
      rw [htask] at hown
      intro q hq
      rw [Protocol.Task.packets_owing] at hq
      exact hown q (List.mem_cons_of_mem p hq)
  | _ => exact hown

/-- What a listener owes after hearing a packet for this node is its own. -/
theorem own_of_hears {p : Protocol.Packet} {n' : Protocol.Node} (hpolling : n.task = .polling)
    (hdest : p.dest = v) (hhears : Protocol.Node.Hears routes v n p n') :
    ∀ q ∈ n'.task.packets, q.origin = q.send := by
  cases hhears with
  | ignored =>
      rw [hpolling]
      exact nofun
  | relayed hne => exact absurd hdest hne
  | answer => exact nofun
  | accepted => exact nofun
  | rejected =>
      intro q hq
      obtain rfl := List.mem_singleton.mp hq
      rfl

/-- A packet for this node is heard alike, over a relay or directly. -/
theorem hear_flat (routes : Protocol.Routes) {p : Protocol.Packet} (hnext : p.next = v)
    (hdest : p.dest = v) :
    Protocol.Node.hear (direct routes) v n (flat p) =
      (Protocol.Node.hear routes v n p).map fun r =>
        ({ r.1 with task := flatTask r.1.task }, r.2) := by
  unfold Protocol.Node.hear
  cases n.task with
  | queueing entry tag => rfl
  | sending packets => rfl
  | polling =>
      have hflat : (flat p).next = v := hdest
      have hflat' : (flat p).dest = v := hdest
      simp only [Protocol.Node.listen, if_pos hnext, if_pos hdest, if_pos hflat, if_pos hflat',
        Option.map_some]
      have hbody : (flat p).body = p.body := rfl
      rw [hbody]
      cases p.body with
      | data token m =>
          dsimp only
          split
          · rename_i hwindow
            have hwindow' : Encryption.InWindow (n.recvToken p.send) token := hwindow
            rw [if_pos hwindow']
            rfl
          · rename_i hwindow
            have hwindow' : ¬ Encryption.InWindow (n.recvToken p.send) token := hwindow
            rw [if_neg hwindow']
            simp only [flatTask, List.map_cons, List.map_nil, flat_newPacket]
            rfl
      | _ => rfl

end Node

end Relays

end LCore
