import LCore.Provenance
import LCore.Refinement

/-!
# A Good Link

Two nodes of a network use a link that loses and alters nothing and answers before the time is up.
Here are its steps, what a log says of it, and what its ends can do at any time.

## Main results

* `onLink_rel`: the link is the same in the code and in the protocol.
* `hear_answer`, `hear_data`: what hearing a packet comes to.
* `poll_ne_none`, `put_ne_none`, `transmit_ne_none`, `hear_ne_none`: what a node can do.
-/

open Memory

namespace LCore

namespace Link

open Protocol (Body newPacket)
open Encryption (InWindow)

/-! ### What a log says -/

/-- What the application of `v` has taken, the newest first. -/
def takes (v : UInt8) (log : List Event) : List (UInt8 × List UInt8) :=
  log.filterMap fun e => match e with
    | .taken d send m => if d = v then some (send, m) else none
    | _ => none

/-- What the listener of `v` has put into its queue, the newest first. -/
def puts (v : UInt8) (log : List Event) : List (UInt8 × List UInt8) :=
  log.filterMap fun e => match e with
    | .put d send m _ => if v = d then some (send, m) else none
    | _ => none

/-- How often `s` has transmitted the frame of a call. -/
def transmissions (s : UInt8) (tag : Tag) (log : List Event) : ℕ :=
  log.count (.transmitted s tag typeMaskNeedAck)

/-- An event other than one of taking a message. -/
def notTaken : Event → Bool
  | .taken _ _ _ => false
  | .called _ _ _ | .transmitted _ _ _ | .put _ _ _ _ | .refused _ _ _ _ | .returned _ _ _ => true

/-- What was taken in two logs is what was taken in one after the other. -/
theorem takes_append (v : UInt8) (new log : List Event) :
    takes v (new ++ log) = takes v new ++ takes v log := List.filterMap_append

/-- What was put in two logs is what was put in one after the other. -/
theorem puts_append (v : UInt8) (new log : List Event) :
    puts v (new ++ log) = puts v new ++ puts v log := List.filterMap_append

/-- Taking a message is not putting one. -/
theorem puts_filter (v : UInt8) (log : List Event) : puts v (log.filter notTaken) = puts v log := by
  rw [puts, puts, List.filterMap_filter]
  congr 1
  funext e
  cases e with
  | _ => rfl

/-! ### The link -/

/-- The steps of the link: `s` sends the messages `ms` to `d` one after another, no call runs
out of time, nothing is lost, duplicated or altered, and there is room for whatever is put into
a queue. `calls` is how many calls `s` has made, and `room` says which nodes have room. -/
def OnLink (s d : UInt8) (ms : List (List UInt8)) (calls : ℕ) (room : UInt8 → Bool) : Step → Prop
  | .act v (.call dest m _) => v = s ∧ dest = d ∧ ms[calls]? = some m
  | .act _ .timeout => False
  | .act v .put => (v = s ∨ v = d) ∧ room v = true
  | .act v _ => v = s ∨ v = d
  | .hear v _ _ => v = s ∨ v = d
  | _ => False

instance (s d : UInt8) (ms : List (List UInt8)) (calls : ℕ) (room : UInt8 → Bool) :
    ∀ l, Decidable (OnLink s d ms calls room l)
  | .act v (.call dest m _) => inferInstanceAs (Decidable (v = s ∧ dest = d ∧ ms[calls]? = some m))
  | .act _ .timeout => inferInstanceAs (Decidable False)
  | .act v .put => inferInstanceAs (Decidable ((v = s ∨ v = d) ∧ room v = true))
  | .act v .poll | .act v .take | .act v .transmit => inferInstanceAs (Decidable (v = s ∨ v = d))
  | .hear v _ _ => inferInstanceAs (Decidable (v = s ∨ v = d))
  | .lose _ | .duplicate _ | .alter _ _ => inferInstanceAs (Decidable False)

/-- The steps of the link in the protocol. -/
abbrev OnLinkP (s d : UInt8) (ms : List (List UInt8)) (net : Protocol.Net) (l : Step) : Prop :=
  OnLink s d ms (net.nodes s).calls (fun v => (net.nodes v).hasRoom) l

/-- Only the two ends of the link act. -/
theorem OnLink.node {s d : UInt8} {ms : List (List UInt8)} {calls : ℕ} {room : UInt8 → Bool}
    {v : UInt8} {i : Action} (hlink : OnLink s d ms calls room (.act v i)) : v = s ∨ v = d := by
  cases i with
  | call dest m encrypted => exact .inl hlink.1
  | timeout => exact hlink.elim
  | put => exact hlink.1
  | _ => exact hlink

/-- The messages of the link fit a frame. -/
theorem OnLink.clean {s d : UInt8} {ms : List (List UInt8)} (hms : ∀ m ∈ ms, m.length ≤ 77)
    {calls : ℕ} {room : UInt8 → Bool} {l : Step} (hlink : OnLink s d ms calls room l) :
    l.Clean := by
  cases l with
  | act v i =>
      cases i with
      | call dest m encrypted => exact hms m (List.mem_of_getElem? hlink.2.2)
      | _ => trivial
  | alter k c => exact hlink.elim
  | _ => trivial

/-- The link is the same in the code and in the protocol. -/
theorem onLink_rel {cfg : Config} {net : LoraNet} {net' : Protocol.Net}
    (hrel : Refinement.NetRel cfg net net') (s d : UInt8) (ms : List (List UInt8)) (l : Step) :
    OnLink s d ms (net.nodes s).calls (fun v => (net.nodes v).hasRoom) l ↔
      OnLinkP s d ms net' l := by
  have hroom : (fun v => (net.nodes v).hasRoom) = fun v => (net'.nodes v).hasRoom :=
    funext fun v => Refinement.hasRoom_rel hrel (.act v .put)
  rw [hroom, (hrel.nodes s).calls]

/-! ### What a node can do -/

/-- The network after an action of a node. -/
abbrev acted (net : Protocol.Net) (v : UInt8) (r : Protocol.Node.Result) : Protocol.Net :=
  ⟨Function.update net.nodes v r.1, net.air ++ r.2.1, r.2.2 ++ net.log⟩

/-- The network after a node has heard a packet. -/
abbrev heard (net : Protocol.Net) (v : UInt8) (air : List Protocol.Packet)
    (r : Protocol.Node × List Event) : Protocol.Net :=
  ⟨Function.update net.nodes v r.1, air, r.2 ++ net.log⟩

section Node

variable {routes : Protocol.Routes} {net : Protocol.Net} {v : UInt8} {n : Protocol.Node}
  {p : Protocol.Packet}

/-- A node hears an answer for it. -/
theorem hear_answer (routes : Protocol.Routes) (htask : n.task = .polling) (hnext : p.next = v)
    (hdest : p.dest = v) (hbody : ∀ token m, p.body ≠ .data token m) :
    Protocol.Node.hear routes v n p =
      some ({ n with task := .queueing (.response p.send p.body) p.tag }, []) := by
  rw [Protocol.Node.hear, htask]
  dsimp only
  rw [Protocol.Node.listen, if_pos hnext, if_pos hdest]
  revert hbody
  cases p.body with
  | data token m => exact fun hbody => absurd rfl (hbody token m)
  | _ => exact fun _ => rfl

/-- A node hears a data frame for it. -/
theorem hear_data (routes : Protocol.Routes) {token : ℕ} {m : List UInt8}
    (htask : n.task = .polling) (hnext : p.next = v) (hdest : p.dest = v)
    (hbody : p.body = .data token m) :
    Protocol.Node.hear routes v n p = some
      (if InWindow (n.recvToken p.send) token then
        { n with
          recvToken := Function.update n.recvToken p.send token
          task := .queueing (.message p.send m) p.tag }
      else
        { n with task := .sending [newPacket routes v p.send
          (.sync ((n.recvToken p.send + 1) % tokenMax.toNat)) p.tag] }, []) := by
  rw [Protocol.Node.hear, htask]
  dsimp only
  rw [Protocol.Node.listen, if_pos hnext, if_pos hdest, hbody]
  dsimp only
  split
  · rfl
  · rfl

/-- What a node can do, the network can do. -/
theorem step_act_ne_none {i : Action} (hv : v.toNat < routes.netSize)
    (hact : Protocol.Node.act routes v (net.nodes v) i ≠ none) :
    Network.step (Protocol.machine routes) net (.act v i) ≠ none := by
  obtain ⟨r, hr⟩ := Option.ne_none_iff_exists'.mp hact
  exact Network.step_act_ne_none (by simp [Protocol.machine_act.mpr ⟨hv, hr⟩])

/-- What a node can hear, the network can let it hear. -/
theorem step_hear_ne_none (hv : v.toNat < routes.netSize) (hair : net.air = [p])
    (hother : v ≠ p.origin) (hhear : Protocol.Node.hear routes v (net.nodes v) p ≠ none) :
    Network.step (Protocol.machine routes) net (.hear v 0 .zero) ≠ none := by
  have hp : net.air[0]? = some p := by
    rw [hair]
    rfl
  exact Network.step_hear_ne_none hp (Protocol.machine_audible.mpr ⟨hv, hother⟩) hhear

/-- A node that does not wait can call. -/
theorem call_ne_none {d : UInt8} {m : List UInt8} (hd : d.toNat < routes.netSize)
    (hm : m.length ≤ 77) (happ : n.app = none) (encrypted : Mem UInt8) :
    Protocol.Node.act routes v n (.call d m encrypted) ≠ none := by
  have hlength : m.length < 256 := by omega
  simp [Protocol.Node.act, Protocol.Node.call, happ, hd, hlength]

/-- A call that waits takes whatever answer is in the queue. -/
theorem poll_ne_none {c : Protocol.Call} {entry : UInt8 × Body × Tag}
    {rest : List (UInt8 × Body × Tag)} (happ : n.app = some c)
    (hqueue : n.responseQueue = entry :: rest) :
    Protocol.Node.act routes v n .poll ≠ none := by
  obtain ⟨send, body, tag⟩ := entry
  simp only [Protocol.Node.act, Protocol.Node.poll, happ, hqueue]
  split
  · cases body with
    | _ => exact Option.some_ne_none _
  · exact Option.some_ne_none _

/-- An application takes a message that waits. -/
theorem take_ne_none (hqueue : n.newFrameQueue ≠ []) :
    Protocol.Node.act routes v n .take ≠ none := by
  obtain ⟨entry, rest, hqueue⟩ := List.exists_cons_of_ne_nil hqueue
  simp [Protocol.Node.act, Protocol.Node.take, hqueue]

/-- A listener that is about to put something into a queue can do so. -/
theorem put_ne_none {entry : Protocol.Entry} {tag : Tag} (htask : n.task = .queueing entry tag) :
    Protocol.Node.act routes v n .put ≠ none := by
  cases entry with
  | _ => simp [Protocol.Node.act, Protocol.Node.put, htask]

/-- A listener that has something to transmit can do so. -/
theorem transmit_ne_none {rest : List Protocol.Packet} (htask : n.task = .sending (p :: rest)) :
    Protocol.Node.act routes v n .transmit ≠ none := by
  simp [Protocol.Node.act, Protocol.Node.transmit, htask]

/-- A listener that polls can hear a packet. -/
theorem hear_ne_none (htask : n.task = .polling) : Protocol.Node.hear routes v n p ≠ none := by
  simp [Protocol.Node.hear, htask]

/-- There is room for an answer in an empty queue. -/
theorem hasRoom_of_answers {send : UInt8} {body : Body} {tag : Tag}
    (htask : n.task = .queueing (.response send body) tag) (hqueue : n.responseQueue = []) :
    n.hasRoom = true := by
  simp [Protocol.Node.hasRoom, htask, hqueue, queueLen]

/-- There is room for a message in an empty queue. -/
theorem hasRoom_of_messages {send : UInt8} {m : List UInt8} {tag : Tag}
    (htask : n.task = .queueing (.message send m) tag) (hqueue : n.newFrameQueue = []) :
    n.hasRoom = true := by
  simp [Protocol.Node.hasRoom, htask, hqueue, queueLen]

end Node

end Link

end LCore
