import LCore.Lib.Crc8
import LCore.Provenance
import LCore.Refinement

/-!
# No Invented or Altered Messages

What a node finds in `new_frame_queue` under an address was passed to `send_with_ack` by the
node with that address. The medium may lose, delay, reorder and duplicate packets; frames may
be relayed by any tables, sent again, and carry a message under another token after a `SYNC`
that is out of date.

The invariant is about everything under way and everything in a queue: a data frame carries
what its call was made with, and an `ACK` is for a message its sender had in hand. It is an
invariant of the protocol, whose runs have the same logs as those of the code.

## Main results

* `grounded_run`: the invariant, in every run.
* `genuine`: every message put into a queue was sent.
-/

open Memory

namespace LCore

namespace Integrity

open Protocol (Body)

/-- A message that `d` puts into its queue as coming from `s` is one that `s` passed to
`send_with_ack` for `d` before: the same bytes, and as many. -/
def Genuine : Event → List Event → Prop
  | .put d s m tag, before => .called tag d m ∈ before ∧ tag.1 = s
  | _, _ => True

/-! ### The invariant -/

/-- What the log says about a frame from `send` to `dest`. -/
def Grounded (log : List Event) (send dest : UInt8) (body : Body) (tag : Tag) : Prop :=
  match body with
  | .data _ m => .called tag dest m ∈ log ∧ tag.1 = send
  | .ack => ∃ m, .put send dest m tag ∈ log ∨ .refused send dest m tag ∈ log
  | _ => True

/-- What the log says about what a node holds. -/
structure NodeGrounded (log : List Event) (v : UInt8) (n : Protocol.Node) : Prop where
  packets : ∀ p ∈ n.task.packets, Grounded log p.send p.dest p.body p.tag
  response : ∀ send body tag, n.task = .queueing (.response send body) tag →
    Grounded log send v body tag
  message : ∀ send m tag, n.task = .queueing (.message send m) tag →
    .called tag v m ∈ log ∧ tag.1 = send
  queue : ∀ send body tag, (send, body, tag) ∈ n.responseQueue → Grounded log send v body tag
  app : ∀ c, n.app = some c → .called c.tag c.dest c.m ∈ log ∧ c.tag.1 = v

/-- Everything in a network is grounded in its log. -/
abbrev NetGrounded : Protocol.Net → Prop :=
  Network.LocalInv (fun log (p : Protocol.Packet) => Grounded log p.send p.dest p.body p.tag)
    NodeGrounded (Network.Justified Genuine)

/-- What is grounded in a log is grounded in a longer one. -/
theorem Grounded.mono {log new : List Event} {send dest : UInt8} {body : Body} {tag : Tag}
    (h : Grounded log send dest body tag) : Grounded (new ++ log) send dest body tag := by
  cases body with
  | data t m => exact ⟨List.mem_append_right _ h.1, h.2⟩
  | ack =>
      obtain ⟨m, hm⟩ := h
      exact ⟨m, hm.imp (List.mem_append_right _) (List.mem_append_right _)⟩
  | _ => trivial

/-- So is a node. -/
theorem NodeGrounded.mono {log new : List Event} {v : UInt8} {n : Protocol.Node}
    (h : NodeGrounded log v n) : NodeGrounded (new ++ log) v n where
  packets p hp := (h.packets p hp).mono
  response send body tag ht := (h.response send body tag ht).mono
  message send m tag ht := (h.message send m tag ht).imp_left (List.mem_append_right _)
  queue send body tag hmem := (h.queue send body tag hmem).mono
  app c hc := (h.app c hc).imp_left (List.mem_append_right _)

/-- What remains of a queue is grounded. -/
theorem NodeGrounded.rest {log : List Event} {v : UInt8} {n : Protocol.Node}
    {entry : UInt8 × Body × Tag} {rest : List (UInt8 × Body × Tag)} (h : NodeGrounded log v n)
    (hqueue : n.responseQueue = entry :: rest) (send : UInt8) (body : Body) (tag : Tag)
    (hmem : (send, body, tag) ∈ rest) : Grounded log send v body tag :=
  h.queue send body tag (hqueue ▸ List.mem_cons_of_mem _ hmem)

/-- A new data frame of a call carries what the call was made with. -/
theorem grounded_newPacket {log : List Event} {routes : Protocol.Routes} {v : UInt8}
    {c : Protocol.Call} (h : .called c.tag c.dest c.m ∈ log ∧ c.tag.1 = v) :
    ∀ p ∈ [Protocol.newPacket routes v c.dest (.data c.token c.m) c.tag],
      Grounded log p.send p.dest p.body p.tag := by
  intro p hp
  obtain rfl := List.mem_singleton.mp hp
  exact h

/-- An action keeps the invariant. -/
theorem nodeGrounded_act {routes : Protocol.Routes} {v : UInt8} {n : Protocol.Node}
    {log : List Event} {i : Action} {r : Protocol.Node.Result} (h : NodeGrounded log v n)
    (hlog : Network.Justified Genuine log) (hacts : Protocol.Node.Acts routes v n i r) :
    NodeGrounded (r.2.2 ++ log) v r.1 ∧
      (∀ p ∈ r.2.1, Grounded (r.2.2 ++ log) p.send p.dest p.body p.tag) ∧
      Network.Justified Genuine (r.2.2 ++ log) := by
  have hmono : ∀ new, NodeGrounded (new ++ log) v n := fun _ => h.mono
  cases hacts with
  | @called dest m encrypted token happ htoken =>
      have hcalled : .called (v, n.calls) dest m ∈
          [(Protocol.newPacket routes v dest (.data token m) (v, n.calls)).event,
            .called (v, n.calls) dest m] ++ log := by simp
      refine ⟨{ hmono _ with app := fun c hc => ?_ }, ?_,
        Network.justified_cons.mpr ⟨trivial, Network.justified_cons.mpr ⟨trivial, hlog⟩⟩⟩
      · obtain rfl := Option.some.inj hc
        exact ⟨hcalled, rfl⟩
      · exact grounded_newPacket (c := ⟨dest, token, m, true, (v, n.calls)⟩) ⟨hcalled, rfl⟩
  | returned result happ hqueue =>
      exact ⟨{ hmono _ with queue := (hmono _).rest hqueue, app := nofun }, nofun,
        Network.justified_cons.mpr ⟨trivial, hlog⟩⟩
  | ignored happ hqueue hentry =>
      exact ⟨{ h with queue := h.rest hqueue }, nofun, hlog⟩
  | @synced c token tag rest happ hallow hqueue =>
      refine ⟨{ h with queue := h.rest hqueue, app := fun c hc => ?_ }, nofun, hlog⟩
      obtain rfl := Option.some.inj hc
      exact h.app c happ
  | @resent c body token tag rest sendToken happ hallow hqueue htoken hcounter =>
      refine ⟨{ hmono _ with queue := (hmono _).rest hqueue, app := fun c hc => ?_ }, ?_,
        Network.justified_cons.mpr ⟨trivial, hlog⟩⟩
      · obtain rfl := Option.some.inj hc
        exact (hmono _).app c happ
      · intro p hp
        obtain rfl := List.mem_singleton.mp hp
        exact (hmono _).app c happ
  | timedOut happ =>
      exact ⟨{ hmono _ with app := nofun }, nofun, Network.justified_cons.mpr ⟨trivial, hlog⟩⟩
  | taken hqueue =>
      exact ⟨{ hmono _ with }, nofun, Network.justified_cons.mpr ⟨trivial, hlog⟩⟩
  | @queued send body tag htask =>
      refine ⟨{ h with
        packets := nofun
        response := nofun
        message := nofun
        queue := fun send' body' tag' hmem => ?_ }, nofun, hlog⟩
      rcases mem_xQueueSend _ hmem with hmem | hmem
      · exact h.queue send' body' tag' hmem
      · obtain ⟨rfl, rfl, rfl⟩ := hmem
        exact h.response _ _ _ htask
  | @put send m tag htask hroom =>
      refine ⟨{ hmono _ with
        packets := fun p hp => ?_
        response := nofun
        message := nofun }, nofun, ?_⟩
      · obtain rfl := List.mem_singleton.mp hp
        exact ⟨m, .inl List.mem_cons_self⟩
      · exact Network.justified_cons.mpr ⟨h.message send m tag htask, hlog⟩
  | @refused send m tag htask hfull =>
      refine ⟨{ hmono _ with
        packets := fun p hp => ?_
        response := nofun
        message := nofun }, nofun, ?_⟩
      · rcases List.mem_cons.mp hp with rfl | hp
        · trivial
        · obtain rfl := List.mem_singleton.mp hp
          exact ⟨m, .inr List.mem_cons_self⟩
      · exact Network.justified_cons.mpr ⟨trivial, hlog⟩
  | @transmitted p rest htask =>
      have hpackets := h.packets
      rw [htask] at hpackets
      refine ⟨{ hmono _ with
        packets := fun q hq => ?_
        response := fun _ _ _ ht => absurd ht (Protocol.Task.owing_ne_queueing _ _ _)
        message := fun _ _ _ ht => absurd ht (Protocol.Task.owing_ne_queueing _ _ _) },
        fun q hq => ?_, Network.justified_cons.mpr ⟨trivial, hlog⟩⟩
      · rw [Protocol.Task.packets_owing] at hq
        exact (hpackets q (List.mem_cons_of_mem _ hq)).mono
      · obtain rfl := List.mem_singleton.mp hq
        exact (hpackets _ List.mem_cons_self).mono

/-- Hearing a packet keeps the invariant. -/
theorem nodeGrounded_hears {routes : Protocol.Routes} {v : UInt8} {n n' : Protocol.Node}
    {log : List Event} {p : Protocol.Packet} (h : NodeGrounded log v n)
    (hp : Grounded log p.send p.dest p.body p.tag) (hhears : Protocol.Node.Hears routes v n p n') :
    NodeGrounded log v n' := by
  cases hhears with
  | ignored => exact h
  | relayed hdest =>
      refine { h with packets := fun q hq => ?_, response := nofun, message := nofun }
      obtain rfl := List.mem_singleton.mp hq
      exact hp
  | answer hdest hbody =>
      subst hdest
      refine { h with
        packets := nofun, response := fun send body tag ht => ?_, message := nofun }
      obtain ⟨hentry, rfl⟩ := Protocol.Task.queueing.inj ht
      obtain ⟨rfl, rfl⟩ := Protocol.Entry.response.inj hentry
      exact hp
  | accepted hdest hbody hwindow =>
      subst hdest
      rw [hbody] at hp
      refine { h with
        packets := nofun, response := nofun, message := fun send m tag ht => ?_ }
      obtain ⟨hentry, rfl⟩ := Protocol.Task.queueing.inj ht
      obtain ⟨rfl, rfl⟩ := Protocol.Entry.message.inj hentry
      exact hp
  | rejected hdest hbody hwindow =>
      refine { h with packets := fun q hq => ?_, response := nofun, message := nofun }
      obtain rfl := List.mem_singleton.mp hq
      trivial

/-- Every step keeps a network grounded. -/
theorem grounded_step {routes : Protocol.Routes} (net : Protocol.Net) (l : Step)
    (net' : Protocol.Net) (h : NetGrounded net) (hl : l.Faithful)
    (hstep : Network.step (Protocol.machine routes) net l = some net') : NetGrounded net' := by
  refine h.step (fun _ _ _ => Grounded.mono) (fun _ _ _ _ => NodeGrounded.mono) ?_ ?_ hl hstep
  · intro log v n i r hn hlog hr
    exact nodeGrounded_act hn hlog (Protocol.Node.act_cases (Protocol.machine_act.mp hr).2)
  · intro log v n p g r hn hp hlog _ hr
    obtain ⟨-, hev, hhears⟩ := Protocol.Node.hear_cases hr
    rw [hev]
    exact ⟨nodeGrounded_hears hn hp hhears, hlog⟩

/-- A network that has booted is grounded. -/
theorem grounded_booted (recvToken : UInt8 → UInt8 → ℕ) :
    NetGrounded (Protocol.booted recvToken) where
  air := nofun
  nodes _ := ⟨nofun, nofun, nofun, nofun, nofun⟩
  log := Network.justified_nil

/-- The invariant holds in every run. -/
theorem grounded_run {routes : Protocol.Routes} {recvToken : UInt8 → UInt8 → ℕ}
    {ls : List Step} {net : Protocol.Net} (hfaithful : ∀ l ∈ ls, l.Faithful)
    (hrun : Lts.run (Network.step (Protocol.machine routes)) (Protocol.booted recvToken) ls =
      some net) : NetGrounded net :=
  Lts.run_inv grounded_step (grounded_booted recvToken) (Lts.along_of_forall_mem hfaithful) hrun

/-! ### Numbers of calls -/

/-- The log knows a call by its tag. -/
structure Numbered (net : Protocol.Net) : Prop where
  counted : ∀ v k d m, .called (v, k) d m ∈ net.log → k < (net.nodes v).calls
  unique : ∀ tag d m d' m', .called tag d m ∈ net.log → .called tag d' m' ∈ net.log →
    d = d' ∧ m = m'

/-- Every step keeps the calls numbered. -/
theorem numbered_step {routes : Protocol.Routes} {net net' : Protocol.Net} {l : Step}
    (h : Numbered net) (hl : l.Faithful)
    (hstep : Network.step (Protocol.machine routes) net l = some net') : Numbered net' where
  counted v k d m hmem := by
    rcases Protocol.called_step hl hstep hmem with hold | ⟨w, htag, hcalls, -⟩
    · exact lt_of_lt_of_le (h.counted v k d m hold) (Protocol.calls_step hl hstep v)
    · obtain ⟨rfl, rfl⟩ := Prod.mk.inj htag
      omega
  unique tag d m d' m' hmem hmem' := by
    rcases Protocol.called_step hl hstep hmem with hold | ⟨v, htag, -, encrypted, hcall⟩
    · rcases Protocol.called_step hl hstep hmem' with hold' | ⟨v, rfl, -⟩
      · exact h.unique tag d m d' m' hold hold'
      · exact absurd (h.counted _ _ _ _ hold) (lt_irrefl _)
    · rcases Protocol.called_step hl hstep hmem' with hold' | ⟨v', htag', -, encrypted', hcall'⟩
      · subst htag
        exact absurd (h.counted _ _ _ _ hold') (lt_irrefl _)
      · rw [hcall] at hcall'
        obtain ⟨rfl, hi⟩ := Network.Label.act.inj hcall'
        obtain ⟨rfl, rfl, -⟩ := Action.call.inj hi
        exact ⟨rfl, rfl⟩

/-- They are when the network has booted. -/
theorem numbered_booted (recvToken : UInt8 → UInt8 → ℕ) : Numbered (Protocol.booted recvToken) :=
  ⟨nofun, nofun⟩

/-! ### The code -/

/-- **No invented or altered messages.** In every run of nodes running the code in which the
medium alters nothing, every message put into a `new_frame_queue` was passed to
`send_with_ack` before, by the node whose address it has and for the node where it is put. -/
theorem genuine (cfg : Config) {rnd : UInt8 → UInt8 → Fin tokenMax.toNat}
    {encBuf : UInt8 → Mem UInt8} {ls : List Step} (hclean : ∀ l ∈ ls, l.Clean) {net : LoraNet}
    (hrun : Lts.run (Network.step (machine cfg)) (booted rnd encBuf) ls = some net) :
    Network.Justified Genuine net.log := by
  obtain ⟨net', hrun', hrel⟩ := Refinement.exists_protocol_run cfg hclean hrun
  rw [hrel.log]
  exact (grounded_run (fun l hl => (hclean l hl).faithful) hrun').log

/-- A byte from node `0` that node `1` takes. -/
def firstByte : List Step :=
  [.act 0 (.call 1 [7] null), .hear 1 0 .zero, .act 1 .put]

/-- A run in which a message is put into a queue. -/
theorem genuine_firstByte :
    ∃ net, Lts.run (Network.step (machine (Config.direct 2 (Equiv.refl Block) Crc8.crc8)))
        (booted (fun _ _ => ⟨0, by decide⟩) fun _ => null) firstByte = some net ∧
      .put 1 0 [7] (0, 0) ∈ net.log ∧ Network.Justified Genuine net.log := by
  have hclean : ∀ l ∈ firstByte, l.Clean := by
    simp [firstByte, Step.Clean, Network.Label.Admits, Action.Fits]
  obtain ⟨net, hrun, hlog⟩ := Refinement.exists_code_run
    (Config.direct 2 (Equiv.refl Block) Crc8.crc8) (fun _ _ => ⟨0, by decide⟩) (fun _ => null)
    [.put 1 0 [7] (0, 0), .transmitted 0 (0, 0) typeMaskNeedAck, .called (0, 0) 1 [7]] hclean
    (by decide)
  exact ⟨net, hrun, by rw [hlog]; decide, genuine _ hclean hrun⟩

end Integrity

end LCore
