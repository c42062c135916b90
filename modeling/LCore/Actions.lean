import LCore.Node

/-!
# What an Action Comes To

An action of a node is one of a few cases: a poll ends the call, goes on waiting or sends the
message again, and a put finds room or does not.

## Main results

* `Node.act_cases`: every action that a node can take is one of them.
-/

open Memory

namespace LCore

namespace Node

section Cases

variable (dev : Device) (n : Node)

/-- What an action comes to, and when. -/
inductive Acts : Action → Result → Prop
  | called {dest : UInt8} {m : List UInt8} {encrypted : Mem UInt8} {g : Encryption.Globals}
      {bytes : List UInt8} {w : Waiting} (happ : n.app = none)
      (hok : dest.toNat < dev.netSize ∧ m.length < 256)
      (hsend : sendWithAck dev n.listener.globals dest (load m null) (UInt8.ofNat m.length)
        encrypted = (g, bytes, w)) :
      Acts (.call dest m encrypted) ({ n with
          listener := { n.listener with globals := g }
          app := some ⟨w, (dev.address, n.calls)⟩
          calls := n.calls + 1 },
        [⟨bytes, dev.address, (dev.address, n.calls)⟩],
        [Packet.event ⟨bytes, dev.address, (dev.address, n.calls)⟩,
          .called (dev.address, n.calls) dest m])
  | returned {c : Call} {frame : LoraFrame} {tag : Tag} {rest : List (LoraFrame × Tag)}
      {g : Encryption.Globals} {w : Waiting} {result : Bool} (happ : n.app = some c)
      (hqueue : n.responseQueue = (frame, tag) :: rest)
      (hreply : handleResponse dev.aes n.listener.globals c.waiting frame =
        (g, w, .returned result)) :
      Acts .poll ({ n with
          listener := { n.listener with globals := g }
          responseQueue := rest
          app := none },
        [], [.returned c.tag result (some tag)])
  | waits {c : Call} {frame : LoraFrame} {tag : Tag} {rest : List (LoraFrame × Tag)}
      {g : Encryption.Globals} {w : Waiting} (happ : n.app = some c)
      (hqueue : n.responseQueue = (frame, tag) :: rest)
      (hreply : handleResponse dev.aes n.listener.globals c.waiting frame = (g, w, .wait)) :
      Acts .poll ({ n with
          listener := { n.listener with globals := g }
          responseQueue := rest
          app := some ⟨w, c.tag⟩ },
        [], [])
  | resent {c : Call} {frame : LoraFrame} {tag : Tag} {rest : List (LoraFrame × Tag)}
      {g : Encryption.Globals} {w : Waiting} {p : Packet} (happ : n.app = some c)
      (hqueue : n.responseQueue = (frame, tag) :: rest)
      (hreply : handleResponse dev.aes n.listener.globals c.waiting frame = (g, w, .resend))
      (hp : p = ⟨LCore.transmit dev w.address w.msg w.msgSize w.flags, dev.address, c.tag⟩) :
      Acts .poll ({ n with
          listener := { n.listener with globals := g }
          responseQueue := rest
          app := some ⟨{ w with allowResend := false }, c.tag⟩ },
        [p], [p.event])
  | timedOut {c : Call} (happ : n.app = some c) :
      Acts .timeout ({ n with app := none }, [], [.returned c.tag false none])
  | taken {m : NewMsg} {tag : Tag} {rest : List (NewMsg × Tag)}
      (hqueue : n.newFrameQueue = (m, tag) :: rest) :
      Acts .take ({ n with newFrameQueue := rest }, [],
        [.taken dev.address m.address (cells m.msg m.msgSize.toNat)])
  | queued {frame : LoraFrame} {tag : Tag} (htask : n.task = .queueing (.response frame) tag) :
      Acts .put ({ n with
          responseQueue := (xQueueSend n.responseQueue (frame, tag)).2
          task := .polling },
        [], [])
  | put {m : NewMsg} {type : UInt8} {tag : Tag} (htask : n.task = .queueing (.message m type) tag)
      (hroom : n.newFrameQueue.length < queueLen) :
      Acts .put ({ n with
          newFrameQueue := n.newFrameQueue ++ [(m, tag)]
          task := Task.owing ((answers dev true m type).map fun bytes =>
            ⟨bytes, dev.address, tag⟩) },
        [], [.put dev.address m.address (cells m.msg m.msgSize.toNat) tag])
  | refused {m : NewMsg} {type : UInt8} {tag : Tag}
      (htask : n.task = .queueing (.message m type) tag)
      (hfull : ¬ n.newFrameQueue.length < queueLen) :
      Acts .put ({ n with
          task := Task.owing ((answers dev false m type).map fun bytes =>
            ⟨bytes, dev.address, tag⟩) },
        [], [.refused dev.address m.address (cells m.msg m.msgSize.toNat) tag])
  | transmitted {p : Packet} {rest : List Packet} (htask : n.task = .sending (p :: rest)) :
      Acts .transmit ({ n with task := Task.owing rest }, [p], [p.event])

end Cases

section Cases

variable {dev : Device} {n : Node}

/-- A poll, case by case. -/
theorem poll_cases {r : Result} (h : poll dev n = some r) : Acts dev n .poll r := by
  cases happ : n.app with
  | none => simp [poll, happ] at h
  | some c =>
      cases hqueue : n.responseQueue with
      | nil => simp [poll, happ, hqueue] at h
      | cons entry rest =>
          obtain ⟨frame, tag⟩ := entry
          rcases hreply : handleResponse dev.aes n.listener.globals c.waiting frame with
            ⟨g, w, reply⟩
          simp only [poll, happ, hqueue, hreply] at h
          cases reply with
          | returned result =>
              obtain rfl := Option.some.inj h
              exact .returned happ hqueue hreply
          | wait =>
              obtain rfl := Option.some.inj h
              exact .waits happ hqueue hreply
          | resend =>
              obtain rfl := Option.some.inj h
              exact .resent happ hqueue hreply rfl

/-- A put, case by case. -/
theorem put_cases {r : Result} (h : put dev n = some r) : Acts dev n .put r := by
  cases htask : n.task with
  | polling => simp [put, htask] at h
  | sending packets => simp [put, htask] at h
  | queueing entry tag =>
      cases entry with
      | response frame =>
          simp only [put, htask] at h
          obtain rfl := Option.some.inj h
          exact .queued htask
      | message m type =>
          simp only [put, htask, xQueueSend] at h
          obtain rfl := Option.some.inj h
          by_cases hroom : n.newFrameQueue.length < queueLen
          · simp only [if_pos hroom, if_true]
            exact .put htask hroom
          · simp only [if_neg hroom]
            exact .refused htask hroom

/-- **What an action of a node can do.** -/
theorem act_cases {i : Action} {r : Result} (h : act dev n i = some r) : Acts dev n i r := by
  cases i with
  | call dest m encrypted =>
      simp only [act, call] at h
      cases happ : n.app with
      | some c => simp [happ] at h
      | none =>
          simp only [happ, Option.ite_none_right_eq_some, Option.some.injEq] at h
          obtain ⟨hok, rfl⟩ := h
          exact .called happ hok rfl
  | poll => exact poll_cases h
  | timeout =>
      cases happ : n.app with
      | none => simp [act, timeout, happ] at h
      | some c =>
          simp only [act, timeout, happ] at h
          obtain rfl := Option.some.inj h
          exact .timedOut happ
  | take =>
      cases hqueue : n.newFrameQueue with
      | nil => simp [act, take, hqueue] at h
      | cons entry rest =>
          simp only [act, take, hqueue] at h
          obtain rfl := Option.some.inj h
          exact .taken hqueue
  | put => exact put_cases h
  | transmit =>
      cases htask : n.task with
      | polling => simp [act, transmit, htask] at h
      | queueing entry tag => simp [act, transmit, htask] at h
      | sending packets =>
          cases packets with
          | nil => simp [act, transmit, htask] at h
          | cons p rest =>
              simp only [act, transmit, htask] at h
              obtain rfl := Option.some.inj h
              exact .transmitted htask

end Cases

end Node

end LCore
