import LCore.Polls

/-!
# Where the Message of an Exchange Is

A message goes from the air into the queue of its receiver, and the `ACK` for it from there into
the queue of its sender. There is one place at a time where the message, or the `ACK`, is, and a
step of the exchange takes it from one to the next.

## Main results

* `passes_of_step`: a step other than a poll takes the message on, and what is left becomes less.
* `moves_of_step`: what a step of an exchange can do.
-/

namespace LCore

namespace Leftover

/-! ### The exchange -/

/-- The steps of an exchange between `s` and `d`: no other call is made, the call does not run
out of time, nothing is lost, duplicated or altered, and there is room for the message in the
queue of `d`. -/
def OnExchange (s d : UInt8) (net : LoraNet) : Step → Prop
  | .act _ (.call _ _ _) => False
  | .act _ .timeout => False
  | .act v .put => v = s ∨ v = d ∧ (net.nodes d).hasRoom = true
  | .act v _ => v = s ∨ v = d
  | .hear v _ _ => v = s ∨ v = d
  | _ => False

/-! ### Where the message is -/

/-- Where the message of a call, or the `ACK` for it, is. -/
inductive Stage
  | sent (p : Packet)
  | held (entry : NewMsg) (tag : Tag)
  | ackDue (tag : Tag)
  | ackAir (tag : Tag)
  | ackHeld (frame : LoraFrame) (tag : Tag)
  | ackQueued (frame : LoraFrame) (tag : Tag)
  | lost

namespace Stage

/-- How many stages are still to come. -/
def left : Stage → ℕ
  | .sent _ => 5
  | .held _ _ => 4
  | .ackDue _ => 3
  | .ackAir _ => 2
  | .ackHeld _ _ => 1
  | .ackQueued _ _ | .lost => 0

/-- The packets on the air. -/
def air (cfg : Config) (s d : UInt8) : Stage → List Packet
  | .sent p => [p]
  | .ackAir tag => [ackPacket cfg d s tag]
  | .held _ _ | .ackDue _ | .ackHeld _ _ | .ackQueued _ _ | .lost => []

/-- Where the listener of `s` stands. -/
def sender : Stage → Task
  | .ackHeld frame tag => .queueing (.response frame) tag
  | .sent _ | .held _ _ | .ackDue _ | .ackAir _ | .ackQueued _ _ | .lost => .polling

/-- Where the listener of `d` stands. -/
def receiver (cfg : Config) (s d : UInt8) : Stage → Task
  | .held entry tag => .queueing (.message entry typeMaskNeedAck) tag
  | .ackDue tag => .sending [ackPacket cfg d s tag]
  | .sent _ | .ackAir _ | .ackHeld _ _ | .ackQueued _ _ | .lost => .polling

/-- What the exchange has put into the `response_queue` of `s`. -/
def answers : Stage → List (LoraFrame × Tag)
  | .ackQueued frame tag => [(frame, tag)]
  | .sent _ | .held _ _ | .ackDue _ | .ackAir _ | .ackHeld _ _ | .lost => []

/-- It is a message of `s` that `d`, with this counter, takes, or an `ACK` of `d`. -/
def Fits (cfg : Config) (s d : UInt8) (recvToken : ℕ) : Stage → Prop
  | .sent p => p.origin = s ∧ ∃ t m, p.bytes = frameBytes cfg.crc d d s typeMaskNeedAck initTtl
      (Encryption.sealed cfg.aes t m) ∧ m.length ≤ 77 ∧ t < tokenMax.toNat ∧
        Encryption.InWindow recvToken t
  | .held entry _ => entry.address = s
  | .ackHeld frame _ | .ackQueued frame _ => frame.buf framePosSendAddr = d ∧
      frame.buf framePosType &&& typeMaskAck ≠ 0
  | .ackDue _ | .ackAir _ | .lost => True

/-- Whatever the exchange has put into the queue is an `ACK` of `d`. -/
theorem answers_of_fits {cfg : Config} {s d : UInt8} {recvToken : ℕ} {stage : Stage}
    (h : stage.Fits cfg s d recvToken) {e : LoraFrame × Tag} (he : e ∈ stage.answers) :
    stage.answers = [e] ∧ e.1.buf framePosSendAddr = d ∧
      e.1.buf framePosType &&& typeMaskAck ≠ 0 := by
  cases stage with
  | ackQueued frame tag =>
      obtain rfl := List.mem_singleton.mp he
      exact ⟨rfl, h⟩
  | _ => cases he

/-- When nothing is left to come, the `ACK` is in the queue or was lost. -/
theorem answers_ne_nil_iff {stage : Stage} :
    stage.answers ≠ [] ↔ stage.left = 0 ∧ stage ≠ .lost := by
  cases stage with
  | _ => simp [answers, left]

end Stage

/-- The message is at a stage, and nothing else is in flight. -/
structure Mail (cfg : Config) (s d : UInt8) (net : LoraNet) (stage : Stage) : Prop where
  air : net.air = stage.air cfg s d
  sender : (net.nodes s).task = stage.sender
  receiver : (net.nodes d).task = stage.receiver cfg s d
  fits : stage.Fits cfg s d (Encryption.counter ((net.nodes d).listener.globals.recvTokens s))

/-- An event of `s` transmitting, or of a call returning. -/
def Notable (s : UInt8) : Event → Prop
  | .transmitted v _ _ => v = s
  | .returned _ _ _ => True
  | .called _ _ _ | .put _ _ _ _ | .refused _ _ _ _ | .taken _ _ _ => False

/-- What the nodes still have to do with what is in their queues. -/
def load (net : LoraNet) (s d : UInt8) : ℕ :=
  (net.nodes s).responseQueue.length + (net.nodes s).newFrameQueue.length +
    (net.nodes d).newFrameQueue.length

/-- A bound on how many steps are left. -/
def weight (net : LoraNet) (s d : UInt8) (stage : Stage) : ℕ := 3 * stage.left + load net s d

/-- A step other than one of the call takes the message to a stage. -/
structure Passes (cfg : Config) (s d : UInt8) (net : LoraNet) (stage : Stage) (net' : LoraNet)
    (stage' : Stage) : Prop where
  mail : Mail cfg s d net' stage'
  log : ∃ new, net'.log = new ++ net.log ∧ ∀ e ∈ new, ¬ Notable s e
  senderApp : (net'.nodes s).app = (net.nodes s).app
  receiverApp : (net'.nodes d).app = (net.nodes d).app
  queue : ∃ more, (net'.nodes s).responseQueue = (net.nodes s).responseQueue ++ more ∧
    stage'.answers = stage.answers ++ more ∧
      (more ≠ [] → (net.nodes s).responseQueue.length < queueLen)
  /-- An answer is lost only when the queue is full. -/
  full : stage' = .lost → stage = .lost ∨ queueLen ≤ (net.nodes s).responseQueue.length
  stays : stage = .lost → stage' = .lost
  less : weight net' s d stage' < weight net s d stage

section Passes

variable {cfg : Config} {s d : UInt8} {net : LoraNet} {stage stage' : Stage} (hne : s ≠ d)
  (h : Mail cfg s d net stage)

include hne h

/-- A step of `s`. -/
theorem passes_of_sender {n : Node} {air : List Packet} {new : List Event}
    (hair : air = stage'.air cfg s d) (htask : n.task = stage'.sender)
    (hreceiver : stage.receiver cfg s d = stage'.receiver cfg s d)
    (hfits : stage'.Fits cfg s d
      (Encryption.counter ((net.nodes d).listener.globals.recvTokens s)))
    (hnew : ∀ e ∈ new, ¬ Notable s e) (happ : n.app = (net.nodes s).app)
    (hqueue : ∃ more, n.responseQueue = (net.nodes s).responseQueue ++ more ∧
      stage'.answers = stage.answers ++ more ∧
        (more ≠ [] → (net.nodes s).responseQueue.length < queueLen))
    (hfull : stage' = .lost → stage = .lost ∨ queueLen ≤ (net.nodes s).responseQueue.length)
    (hstays : stage = .lost → stage' = .lost)
    (hless : 3 * stage'.left + n.responseQueue.length + n.newFrameQueue.length <
      3 * stage.left + (net.nodes s).responseQueue.length +
        (net.nodes s).newFrameQueue.length) :
    Passes cfg s d net stage ⟨Function.update net.nodes s n, air, new ++ net.log⟩ stage' := by
  have hs : Function.update net.nodes s n s = n := Function.update_self ..
  have hd : Function.update net.nodes s n d = net.nodes d := Function.update_of_ne hne.symm ..
  constructor
  · refine ⟨hair, ?_, ?_, ?_⟩
    · simp only [hs, htask]
    · simp only [hd, h.receiver, hreceiver]
    · simpa only [hd] using hfits
  · exact ⟨new, rfl, hnew⟩
  · simp only [hs, happ]
  · simp only [hd]
  · simpa only [hs] using hqueue
  · exact hfull
  · exact hstays
  · simp only [weight, load, hs, hd]
    omega

/-- A step of `d`. -/
theorem passes_of_receiver {n : Node} {air : List Packet} {new : List Event}
    (hair : air = stage'.air cfg s d) (hsender : stage.sender = stage'.sender)
    (htask : n.task = stage'.receiver cfg s d)
    (hfits : stage'.Fits cfg s d (Encryption.counter (n.listener.globals.recvTokens s)))
    (hnew : ∀ e ∈ new, ¬ Notable s e) (happ : n.app = (net.nodes d).app)
    (hanswers : stage'.answers = stage.answers) (hlost : stage' = .lost ↔ stage = .lost)
    (hless : 3 * stage'.left + n.newFrameQueue.length <
      3 * stage.left + (net.nodes d).newFrameQueue.length) :
    Passes cfg s d net stage ⟨Function.update net.nodes d n, air, new ++ net.log⟩ stage' := by
  have hs : Function.update net.nodes d n s = net.nodes s := Function.update_of_ne hne ..
  have hd : Function.update net.nodes d n d = n := Function.update_self ..
  constructor
  · refine ⟨hair, ?_, ?_, ?_⟩
    · simp only [hs, h.sender, hsender]
    · simp only [hd, htask]
    · simpa only [hd] using hfits
  · exact ⟨new, rfl, hnew⟩
  · simp only [hs]
  · simp only [hd, happ]
  · exact ⟨[], by simp [hs, hanswers]⟩
  · exact fun hlost' => .inl (hlost.mp hlost')
  · exact hlost.mpr
  · simp only [weight, load, hs, hd]
    omega

end Passes

/-! ### The steps of an exchange -/

section Moves

variable {cfg : Config} {s d : UInt8} {net : LoraNet} {stage : Stage} (hne : s ≠ d)
  (h : Mail cfg s d net stage)

include hne h

/-- The application takes a message from its queue, and the exchange stays where it is. -/
theorem passes_take {v : UInt8} {r : Node.Result} (hv : v = s ∨ v = d)
    (hr : Node.take (cfg.device v) (net.nodes v) = some r) :
    Passes cfg s d net stage
      ⟨Function.update net.nodes v r.1, net.air ++ r.2.1, r.2.2 ++ net.log⟩ stage := by
  have hacts : Node.Acts (cfg.device v) (net.nodes v) .take r := Node.act_cases hr
  cases hacts with
  | taken hqueue =>
      have hlength := congrArg List.length hqueue
      rw [List.length_cons] at hlength
      have hair := (List.append_nil _).trans h.air
      rcases hv with rfl | rfl
      · refine passes_of_sender hne h hair h.sender rfl h.fits ?_ rfl ⟨[], by simp⟩ .inl id ?_
        · simp [Notable]
        · dsimp only
          omega
      · refine passes_of_receiver hne h hair rfl h.receiver h.fits ?_ rfl rfl Iff.rfl ?_
        · simp [Notable]
        · dsimp only
          omega

/-- The listener of `d` hands the message over, or that of `s` the `ACK`. -/
theorem passes_put {v : UInt8} {r : Node.Result} (hv : v = s ∨ v = d)
    (hroom : v = d → (net.nodes d).hasRoom = true)
    (hr : Node.put (cfg.device v) (net.nodes v) = some r) :
    ∃ stage', Passes cfg s d net stage
      ⟨Function.update net.nodes v r.1, net.air ++ r.2.1, r.2.2 ++ net.log⟩ stage' := by
  have hpolling : (net.nodes v).task ≠ .polling := by
    intro htask
    rw [Node.put, htask] at hr
    cases hr
  have hair := h.air
  have hsender := h.sender
  have hreceiver := h.receiver
  have hfits := h.fits
  rcases hv with rfl | rfl
  · cases stage with
    | ackHeld frame tag =>
        rw [put_response hsender] at hr
        obtain rfl := Option.some.inj hr
        have hair' := (List.append_nil _).trans hair
        by_cases hlen : (net.nodes v).responseQueue.length < queueLen
        · refine ⟨.ackQueued frame tag, passes_of_sender hne h hair' rfl rfl hfits
            (List.forall_mem_nil _) rfl ⟨[(frame, tag)], ?_, rfl, fun _ => hlen⟩ (by simp)
            (by simp) ?_⟩
          · rw [if_pos hlen]
          · simp only [Stage.left, if_pos hlen, List.length_append, List.length_singleton]
            omega
        · refine ⟨.lost, passes_of_sender hne h hair' rfl rfl trivial (List.forall_mem_nil _) rfl
            ⟨[], ?_, rfl, (by simp)⟩ (fun _ => .inr (by omega)) (by simp) ?_⟩
          · rw [if_neg hlen]
          · simp only [Stage.left, if_neg hlen, List.append_nil]
            omega
    | _ => exact absurd hsender hpolling
  · cases stage with
    | held entry tag =>
        rw [put_message hreceiver (hroom rfl)] at hr
        obtain rfl := Option.some.inj hr
        have haddress : entry.address = s := hfits
        refine ⟨.ackDue tag, passes_of_receiver hne h ((List.append_nil _).trans hair) rfl ?_
          trivial ?_ rfl rfl (by simp) ?_⟩
        · rw [haddress]
          rfl
        · simp [Notable]
        · simp only [Stage.left, List.length_append, List.length_singleton]
          omega
    | ackDue tag =>
        rw [Node.put, hreceiver] at hr
        cases hr
    | _ => exact absurd hreceiver hpolling

/-- The listener of `d` transmits the `ACK`. -/
theorem passes_transmit {v : UInt8} {r : Node.Result} (hv : v = s ∨ v = d)
    (hr : Node.transmit (net.nodes v) = some r) :
    ∃ stage', Passes cfg s d net stage
      ⟨Function.update net.nodes v r.1, net.air ++ r.2.1, r.2.2 ++ net.log⟩ stage' := by
  have hacts : Node.Acts (cfg.device v) (net.nodes v) .transmit r := Node.act_cases hr
  cases hacts with
  | transmitted htask =>
      rcases hv with rfl | rfl
      · rw [h.sender] at htask
        cases stage with
        | _ => cases htask
      · rw [h.receiver] at htask
        cases stage with
        | ackDue tag =>
            obtain ⟨rfl, rfl⟩ := List.cons.inj (Task.sending.inj htask)
            refine ⟨.ackAir tag,
              passes_of_receiver hne h ?_ rfl rfl trivial ?_ rfl rfl (by simp) ?_⟩
            · rw [h.air]
              rfl
            · simp [Notable, Packet.event, ackPacket, hne.symm]
            · simp [Stage.left]
        | _ => cases htask

/-- `d` hears the message, or `s` the `ACK`. -/
theorem passes_hear (hds : UInt8.ofInt (cfg.tables d s) = s) {v : UInt8} {k : ℕ} {p : Packet}
    {locals : Node.Locals} {r : Node × List Event} (hv : v = s ∨ v = d)
    (hp : net.air[k]? = some p) (hother : v ≠ p.origin)
    (hr : Node.hear (cfg.device v) (net.nodes v) p locals = some r) :
    ∃ stage', Passes cfg s d net stage ⟨Function.update net.nodes v r.1,
      if (machine cfg).consumes v p = true then net.air.eraseIdx k else net.air,
      r.2 ++ net.log⟩ stage' := by
  have hair := h.air
  have hfits := h.fits
  cases stage with
  | sent q =>
      obtain ⟨rfl, hrest⟩ := Network.eq_of_getElem?_singleton hair hp
      obtain ⟨horigin, t, m, hbytes, hm, ht, hwindow⟩ := hfits
      obtain rfl : v = d := hv.resolve_left fun hvs => hother (hvs.trans horigin.symm)
      obtain ⟨listener, entry, haddress, hheard⟩ :=
        hear_data locals h.receiver hbytes hm ht hwindow
      rw [hheard] at hr
      obtain rfl := Option.some.inj hr
      have hconsumes : (machine cfg).consumes v p = true := by
        simp [machine, hbytes, frameBytes]
      rw [if_pos hconsumes, hrest]
      exact ⟨.held entry p.tag, passes_of_receiver hne h rfl rfl rfl haddress
        (List.forall_mem_nil _) rfl rfl (by simp) (by simp [Stage.left])⟩
  | ackAir tag =>
      obtain ⟨rfl, hrest⟩ := Network.eq_of_getElem?_singleton hair hp
      obtain rfl : v = s := hv.resolve_right hother
      have hbytes : (ackPacket cfg d v tag).bytes =
          frameBytes cfg.crc v v d typeMaskAck initTtl [] := by
        rw [ackPacket, hds]
      obtain ⟨listener, frame, hsend, htype, hheard⟩ := hear_ack locals h.sender hbytes
      rw [hheard] at hr
      obtain rfl := Option.some.inj hr
      have hconsumes : (machine cfg).consumes v (ackPacket cfg d v tag) = true := by
        simp [machine, hbytes, frameBytes]
      rw [if_pos hconsumes, hrest]
      exact ⟨.ackHeld frame tag, passes_of_sender hne h rfl rfl rfl
        ⟨hsend, by rw [htype]; decide⟩ (List.forall_mem_nil _) rfl
        ⟨[], by simp [Stage.answers]⟩ (by simp) (by simp) (by simp [Stage.left])⟩
  | _ =>
      rw [hair] at hp
      exact absurd hp (by simp [Stage.air])

/-- A step other than a poll of the call takes the message on, or takes a message from a
queue. -/
theorem passes_of_step (hds : UInt8.ofInt (cfg.tables d s) = s) (happ : (net.nodes d).app = none)
    {l : Step} (hex : OnExchange s d net l) (hpoll : l ≠ .act s .poll) {net' : LoraNet}
    (hstep : Network.step (machine cfg) net l = some net') :
    ∃ stage', Passes cfg s d net stage net' stage' := by
  cases l with
  | act v i =>
      obtain ⟨r, hr, rfl⟩ := Network.step_act.mp hstep
      have hacts := (machine_act.mp hr).2
      cases i with
      | call dest m encrypted => exact hex.elim
      | timeout => exact hex.elim
      | poll =>
          rcases hex with rfl | rfl
          · exact absurd rfl hpoll
          · rw [Node.act, poll_eq_none happ] at hacts
            cases hacts
      | take => exact ⟨stage, passes_take hne h hex hacts⟩
      | put =>
          rcases hex with rfl | ⟨rfl, hroom⟩
          · exact passes_put hne h (.inl rfl) (fun heq => absurd heq hne) hacts
          · exact passes_put hne h (.inr rfl) (fun _ => hroom) hacts
      | transmit => exact passes_transmit hne h hex hacts
  | hear v k locals =>
      obtain ⟨p, r, hp, haud, hr, rfl⟩ := Network.step_hear.mp hstep
      exact passes_hear hne h hds hex hp (machine_audible.mp haud).2 hr
  | lose k => exact hex.elim
  | duplicate k => exact hex.elim
  | alter k c => exact hex.elim

omit hne h in
/-- A poll is an action of the caller alone. -/
theorem poll_of_step {net' : LoraNet}
    (hstep : Network.step (machine cfg) net (.act s .poll) = some net') :
    ∃ r, Node.poll (cfg.device s) (net.nodes s) = some r ∧
      net' = ⟨Function.update net.nodes s r.1, net.air ++ r.2.1, r.2.2 ++ net.log⟩ := by
  obtain ⟨r, hr, rfl⟩ := Network.step_act.mp hstep
  exact ⟨r, (machine_act.mp hr).2, rfl⟩

/-- **The steps of an exchange.** -/
theorem moves_of_step (hds : UInt8.ofInt (cfg.tables d s) = s) (happ : (net.nodes d).app = none)
    {l : Step} (hex : OnExchange s d net l) {net' : LoraNet}
    (hstep : Network.step (machine cfg) net l = some net') :
    (∃ r, Node.poll (cfg.device s) (net.nodes s) = some r ∧
      net' = ⟨Function.update net.nodes s r.1, net.air ++ r.2.1, r.2.2 ++ net.log⟩) ∨
      ∃ stage', Passes cfg s d net stage net' stage' := by
  by_cases hpoll : l = .act s .poll
  · subst hpoll
    exact .inl (poll_of_step hstep)
  · exact .inr (passes_of_step hne h hds happ hex hpoll hstep)

end Moves

end Leftover

end LCore
