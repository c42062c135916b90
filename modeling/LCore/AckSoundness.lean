import LCore.Integrity

/-!
# What an Acknowledgement Says

A call of `send_with_ack` that returns `true` has taken an `ACK` of its peer out of
`response_queue`. The wait looks at the sender and the type of a frame and at nothing else, and
nothing empties the queue before a wait, so an `ACK` that is late for one call decides the next
one.

A call is acknowledged for its own message when it is started with nothing left over: no `ACK`
for the caller is under way or in its queue, the peer's listener is not about to queue a message
of the caller, and no frame with such a message is under way that the peer could still take.
What the caller's own calls add to that afterwards belongs to the call in progress.

## Main results

* `tagged_step`: where the messages and the `ACK`s between two nodes come from.
* `sound_of_quiet`: in a run whose calls are all started in that way, every call that returns
  `true` has had its message put into the queue of its peer, between its start and its end.
* `not_sound_lateAck`: a run of two nodes in which a call is acknowledged whose message is
  still on the air.
-/

open Memory

namespace LCore

namespace AckSoundness

open Protocol (Body)

/-- A call that returns `true` has been acknowledged for its own message, and that message was
put into the queue of its peer after the call was made. -/
def Sound : Event → List Event → Prop
  | .returned tag true cause, before => cause = some tag ∧ ∃ d m newer mid older,
      before = newer ++ .put d tag.1 m tag :: (mid ++ .called tag d m :: older)
  | _, _ => True

/-! ### The condition -/

/-- Nothing is left over between `s` and `d` that could acknowledge a message of `s`. -/
structure Quiet (cfg : Config) (net : LoraNet) (s d : UInt8) : Prop where
  ack : ∀ p, InFlight net p → p.send = d → p.dest = s → p.type &&& typeMaskAck = 0
  live : ∀ p, InFlight net p → p.send = s → p.dest = d → ¬ IsLive cfg net p
  answer : ∀ frame tag, (frame, tag) ∈ (net.nodes s).responseQueue ∨
    (net.nodes s).task = .queueing (.response frame) tag →
    frame.buf framePosSendAddr = d → frame.buf framePosType &&& typeMaskAck = 0
  message : ∀ m type tag, (net.nodes d).task = .queueing (.message m type) tag → m.address ≠ s

/-- A call is started when all is quiet between the caller and its peer. -/
def CallsQuietly (cfg : Config) (net : LoraNet) (l : Step) : Prop :=
  ∀ s d m encrypted, l = .act s (.call d m encrypted) → Quiet cfg net s d

/-! ### The protocol -/

/-- The tags of all that can acknowledge a message of `s` to `d`: the `ACK`s for `s`, and what
`d` would acknowledge. -/
structure Tagged (net : Protocol.Net) (s d : UInt8) (P : Tag → Prop) : Prop where
  ack : ∀ q, Protocol.InFlight net q → q.send = d → q.dest = s → q.body = .ack → P q.tag
  live : ∀ q token m, Protocol.InFlight net q → q.send = s → q.dest = d →
    q.body = .data token m → (net.nodes d).recvToken s < token → P q.tag
  queued : ∀ tag, (d, .ack, tag) ∈ (net.nodes s).responseQueue → P tag
  queueing : ∀ tag, (net.nodes s).task = .queueing (.response d .ack) tag → P tag
  message : ∀ m tag, (net.nodes d).task = .queueing (.message s m) tag → P tag

/-- Tags of a kind are tags of a wider one. -/
theorem Tagged.imp {net : Protocol.Net} {s d : UInt8} {P Q : Tag → Prop}
    (h : Tagged net s d P) (hPQ : ∀ tag, P tag → Q tag) : Tagged net s d Q where
  ack q hq hsend hdest hbody := hPQ _ (h.ack q hq hsend hdest hbody)
  live q token m hq hsend hdest hbody ht := hPQ _ (h.live q token m hq hsend hdest hbody ht)
  queued tag htag := hPQ _ (h.queued tag htag)
  queueing tag htag := hPQ _ (h.queueing tag htag)
  message m tag htag := hPQ _ (h.message m tag htag)

/-- Only the call that waits after the step may add its tag. -/
theorem tagged_step {routes : Protocol.Routes} {net net' : Protocol.Net} {l : Step}
    {s d : UInt8} {P : Tag → Prop} (h : Tagged net s d P) (hl : l.Faithful)
    (hstep : Network.step (Protocol.machine routes) net l = some net')
    (hsent : ∀ c, (net'.nodes s).app = some c → c.dest = d → P c.tag) : Tagged net' s d P where
  ack q hq hsend hdest hbody := by
    cases Protocol.inFlight_step hl hstep hq with
    | old hp hsend' hdest' hbody' htag =>
        rw [htag]
        exact h.ack _ hp (hsend' ▸ hsend) (hdest' ▸ hdest) (hbody' ▸ hbody)
    | sent hsends happ heq =>
        subst heq
        exact nomatch hbody
    | answered htask hanswer heq =>
        subst heq hsend hdest
        exact h.message _ _ htask
    | rejected hp hdest' hbody' hwindow heq =>
        subst heq
        exact nomatch hbody
  live q token m hq hsend hdest hbody ht := by
    cases Protocol.inFlight_step hl hstep hq with
    | old hp hsend' hdest' hbody' htag =>
        rw [htag]
        exact h.live _ token m hp (hsend' ▸ hsend) (hdest' ▸ hdest) (hbody' ▸ hbody)
          (lt_of_le_of_lt (Protocol.recvToken_step hl hstep d s) ht)
    | sent hsends happ heq =>
        subst heq hsend
        exact hsent _ happ hdest
    | answered htask hanswer heq =>
        subst heq
        rcases hanswer with rfl | rfl
        · exact nomatch hbody
        · exact nomatch hbody
    | rejected hp hdest' hbody' hwindow heq =>
        subst heq
        exact nomatch hbody
  queued tag htag := by
    rcases Protocol.responseQueue_step hl hstep htag with hold | htask
    · exact h.queued tag hold
    · exact h.queueing tag htask
  queueing tag htask' := by
    rcases Protocol.queueing_step hl hstep htask' with
        htask | ⟨p, hp, hdest, rfl, ⟨hentry, -⟩ | ⟨token, m, -, hentry, -⟩⟩
    · exact h.queueing tag htask
    · obtain ⟨hsend, hbody⟩ := Protocol.Entry.response.inj hentry
      exact h.ack p (.inl hp) hsend.symm hdest hbody.symm
    · exact nomatch hentry
  message m tag htask' := by
    rcases Protocol.queueing_step hl hstep htask' with
        htask | ⟨p, hp, hdest, rfl, ⟨hentry, -⟩ | ⟨token, m', hbody, hentry, hlt, -⟩⟩
    · exact h.message m tag htask
    · exact nomatch hentry
    · obtain ⟨hsend, -⟩ := Protocol.Entry.message.inj hentry
      subst hsend
      exact h.live p token m' (.inl hp) rfl hdest hbody hlt

/-- The same condition on the protocol. -/
def CallsQuietlyP (net : Protocol.Net) (l : Step) : Prop :=
  ∀ s d m encrypted, l = .act s (.call d m encrypted) → Tagged net s d fun _ => False

/-- The state between two steps. -/
structure Inv (net : Protocol.Net) : Prop where
  grounded : Integrity.NetGrounded net
  accepted : ∀ d s m tag, .refused d s m tag ∉ net.log
  own : ∀ s c, (net.nodes s).app = some c → Tagged net s c.dest (· = c.tag)
  sound : Network.Justified Sound net.log

/-- What the steps of a run are assumed to satisfy. -/
structure Careful (net : Protocol.Net) (l : Step) : Prop where
  faithful : l.Faithful
  room : Protocol.hasRoom net l = true
  quiet : CallsQuietlyP net l

section Step

variable {routes : Protocol.Routes} {net net' : Protocol.Net} {l : Step} (h : Inv net)
  (hl : Careful net l) (hstep : Network.step (Protocol.machine routes) net l = some net')

include h hl hstep

/-- Nothing is refused. -/
theorem accepted_step (d s : UInt8) (m : List UInt8) (tag : Tag) :
    .refused d s m tag ∉ net'.log := by
  intro hmem
  rcases Protocol.log_step hl.faithful hstep with ⟨hlog, -⟩ | ⟨v, i, r, rfl, hacts, -, hlog, -⟩
  · rw [hlog] at hmem
    exact h.accepted d s m tag hmem
  · rw [hlog] at hmem
    rcases List.mem_append.mp hmem with hnew | hold
    · cases hacts with
      | refused htask hfull =>
          have hroom := hl.room
          simp only [Protocol.hasRoom, Protocol.Node.hasRoom, htask, decide_eq_true_eq] at hroom
          exact hfull hroom
      | _ => simp [Protocol.Packet.event, Protocol.Node.resend] at hnew
    · exact h.accepted d s m tag hold

/-- While a call waits, all that can acknowledge it is its own. -/
theorem own_step (s : UInt8) (c : Protocol.Call) (happ' : (net'.nodes s).app = some c) :
    Tagged net' s c.dest (· = c.tag) := by
  have hbefore : Tagged net s c.dest (· = c.tag) := by
    cases Protocol.app_step hl.faithful hstep happ' with
    | same happ => exact h.own s c happ
    | @synced c₀ token happ hallow hc =>
        rw [hc]
        exact h.own s c₀ happ
    | sends hsends =>
        cases hsends with
        | called hcall happ htoken hc =>
            rw [hc]
            exact (hl.quiet _ _ _ _ hcall).imp fun _ => False.elim
        | @resent c₀ body token tag rest hpoll happ hallow hqueue htoken hc =>
            rw [hc]
            exact h.own s c₀ happ
  -- what `s` sends in this step belongs to the call that waits after it
  refine tagged_step hbefore hl.faithful hstep fun c' happ₁ _ => ?_
  rw [Option.some.inj (happ₁.symm.trans happ')]

/-- Whoever returns `true` has been acknowledged for its own message. -/
theorem sound_step : Network.Justified Sound net'.log := by
  rcases Protocol.log_step hl.faithful hstep with ⟨hlog, -⟩ | ⟨v, i, r, rfl, hacts, -, hlog, -⟩
  · rw [hlog]
    exact h.sound
  · rw [hlog]
    cases hacts with
    | @returned c tag rest result happ hqueue =>
        refine Network.justified_cons.mpr ⟨?_, h.sound⟩
        cases result with
        | false => trivial
        | true =>
            have hmem : (c.dest, Body.ack, tag) ∈ (net.nodes v).responseQueue := by
              rw [hqueue]
              exact List.mem_cons_self
            obtain rfl : tag = c.tag := (h.own v c happ).queued tag hmem
            obtain ⟨m, hput⟩ := (h.grounded.nodes v).queue _ _ _ hmem
            have hv : c.tag.1 = v := ((h.grounded.nodes v).app c happ).2
            have hput' := hput.resolve_right (h.accepted _ _ _ _)
            obtain ⟨newer, older, hbefore⟩ := List.mem_iff_append.mp hput'
            obtain ⟨hcalled, -⟩ := h.grounded.log _ _ ⟨newer, hbefore.symm⟩
            obtain ⟨mid, oldest, rfl⟩ := List.mem_iff_append.mp hcalled
            refine ⟨rfl, c.dest, m, newer, mid, oldest, ?_⟩
            rw [hv]
            exact hbefore
    | called happ htoken =>
        exact Network.justified_cons.mpr ⟨trivial, Network.justified_cons.mpr ⟨trivial, h.sound⟩⟩
    | ignored => exact h.sound
    | synced => exact h.sound
    | queued => exact h.sound
    | _ => exact Network.justified_cons.mpr ⟨trivial, h.sound⟩

/-- Every step keeps the invariant. -/
theorem inv_step : Inv net' where
  grounded := Integrity.grounded_step net l net' h.grounded hl.faithful hstep
  accepted := accepted_step h hl hstep
  own := own_step h hl hstep
  sound := sound_step h hl hstep

end Step

/-- It holds of the network when it has booted. -/
theorem inv_booted (recvToken : UInt8 → UInt8 → ℕ) : Inv (Protocol.booted recvToken) where
  grounded := Integrity.grounded_booted recvToken
  accepted _ _ _ _ := List.not_mem_nil
  own := nofun
  sound := Network.justified_nil

/-! ### The code -/

/-- Only an `ACK` has the bit of one. -/
theorem flags_and_ack {body : Body} (h : body ≠ .ack) : body.flags &&& typeMaskAck = 0 := by
  cases body with
  | ack => exact absurd rfl h
  | data t m => exact show typeMaskNeedAck &&& typeMaskAck = 0 by decide
  | error => exact show typeMaskError &&& typeMaskAck = 0 by decide
  | resend => exact show typeMaskResend &&& typeMaskAck = 0 by decide
  | sync t => exact show (typeMaskSync ||| typeMaskResend) &&& typeMaskAck = 0 by decide

/-- What is quiet in the code is quiet in the protocol. -/
theorem tagged_of_quiet {cfg : Config} {net : LoraNet} {net' : Protocol.Net}
    (hrel : Refinement.NetRel cfg net net') {s d : UInt8} (h : Quiet cfg net s d) :
    Tagged net' s d fun _ => False where
  ack q hq hsend hdest hbody := by
    obtain ⟨p, hp, hpq⟩ := Refinement.inFlight_rel hrel hq
    have hnone := h.ack p hp (hpq.send.trans hsend) (hpq.dest.trans hdest)
    rw [hpq.type, hbody] at hnone
    exact absurd hnone (by decide)
  live q token m hq hsend hdest hbody ht := by
    obtain ⟨p, hp, hpq⟩ := Refinement.inFlight_rel hrel hq
    refine h.live p hp (hpq.send.trans hsend) (hpq.dest.trans hdest)
      ((Refinement.isLive_iff hrel hpq).mpr ⟨token, m, hbody, ?_⟩)
    rw [hsend, hdest]
    exact ht
  queued tag htag := by
    obtain ⟨⟨frame, tag'⟩, hmem, hentry, rfl⟩ :=
      Network.exists_of_forall₂ (hrel.nodes s).responseQueue htag
    have hframe : Refinement.ResponseRel frame d .ack := hentry
    have hnone := h.answer frame tag' (.inl hmem) hframe.send
    rw [hframe.type] at hnone
    exact absurd hnone (by decide)
  queueing tag htask' := by
    obtain ⟨frame, htask, hframe⟩ := (hrel.nodes s).task.response htask'
    have hnone := h.answer frame tag (.inr htask) hframe.send
    rw [hframe.type] at hnone
    exact absurd hnone (by decide)
  message m tag htask' := by
    obtain ⟨entry, htask, hmessage⟩ := (hrel.nodes d).task.message htask'
    exact h.message entry _ tag htask hmessage.send

/-- What is quiet in the protocol is quiet in the code. -/
theorem quiet_of_tagged {cfg : Config} {net : LoraNet} {net' : Protocol.Net}
    (hrel : Refinement.NetRel cfg net net') {s d : UInt8}
    (h : Tagged net' s d fun _ => False) : Quiet cfg net s d where
  ack p hp hsend hdest := by
    obtain ⟨q, hq, hpq⟩ := Refinement.exists_protocol_inFlight hrel hp
    have hbody : q.body ≠ .ack := fun hbody =>
      h.ack q hq (hpq.send.symm.trans hsend) (hpq.dest.symm.trans hdest) hbody
    rw [hpq.type]
    exact flags_and_ack hbody
  live p hp hsend hdest hlive := by
    obtain ⟨q, hq, hpq⟩ := Refinement.exists_protocol_inFlight hrel hp
    obtain ⟨token, m, hbody, hahead⟩ := (Refinement.isLive_iff hrel hpq).mp hlive
    have hs : q.send = s := hpq.send.symm.trans hsend
    have hd : q.dest = d := hpq.dest.symm.trans hdest
    rw [hs, hd] at hahead
    exact h.live q token m hq hs hd hbody hahead
  answer frame tag hentry hsend := by
    have hbody : ∃ send body, (send = d → body ≠ Body.ack) ∧
        Refinement.ResponseRel frame send body := by
      rcases hentry with hmem | htask
      · obtain ⟨⟨send, body, tag'⟩, hmem', hframe, -⟩ :=
          Network.exists_of_forall₂ (List.Forall₂.flip (hrel.nodes s).responseQueue) hmem
        refine ⟨send, body, ?_, hframe⟩
        rintro rfl rfl
        exact h.queued tag' hmem'
      · obtain ⟨send, body, htask', hframe⟩ := (hrel.nodes s).task.exists_response htask
        refine ⟨send, body, ?_, hframe⟩
        rintro rfl rfl
        exact h.queueing tag htask'
    obtain ⟨send, body, hne, hframe⟩ := hbody
    rw [hframe.type]
    exact flags_and_ack (hne (hframe.send.symm.trans hsend))
  message m type tag htask hsend := by
    obtain ⟨send, m', htask', hmessage⟩ := (hrel.nodes d).task.exists_message htask
    obtain rfl : send = s := hmessage.send.symm.trans hsend
    exact h.message m' tag htask'

/-- **Acknowledgement soundness.** In a run in which no queue is ever full and every call is
started when all is quiet between the caller and its peer, a call that returns `true` has been
acknowledged for its own message, and its peer put that message into its queue between the
start and the end of the call. -/
theorem sound_of_quiet (cfg : Config) (rnd : UInt8 → UInt8 → Fin tokenMax.toNat)
    (encBuf : UInt8 → Mem UInt8) (ls : List Step) (hclean : ∀ l ∈ ls, l.Clean)
    (hroom : Lts.Along (Network.step (machine cfg)) (fun net l => hasRoom net l = true)
      (booted rnd encBuf) ls)
    (hquiet : Lts.Along (Network.step (machine cfg)) (CallsQuietly cfg) (booted rnd encBuf) ls)
    (net : LoraNet)
    (hrun : Lts.run (Network.step (machine cfg)) (booted rnd encBuf) ls = some net) :
    Network.Justified Sound net.log := by
  obtain ⟨net', hrun', hrel⟩ := Refinement.exists_protocol_run cfg hclean hrun
  have hbooted := Refinement.booted_rel cfg rnd encBuf
  have hcareful : Lts.Along (Network.step (Protocol.machine (Refinement.routes cfg))) Careful
      (Protocol.booted fun v a => rnd v a) ls := by
    refine Lts.along_sim (Refinement.step_refines cfg) ?_ hbooted hclean
      (Lts.along_and.mpr ⟨hroom, hquiet⟩)
    rintro net net' l hrel hl ⟨hroom, hquiet⟩
    refine ⟨hl.faithful, (Refinement.hasRoom_rel hrel l).symm.trans hroom, ?_⟩
    intro s d m encrypted hcall
    exact tagged_of_quiet hrel (hquiet s d m encrypted hcall)
  rw [hrel.log]
  exact (Lts.run_inv (fun _ _ _ hinv hl hstep => inv_step hinv hl hstep) (inv_booted _) hcareful
    hrun').sound

/-! ### Two runs -/

/-- A byte goes to node `1` and is acknowledged. Its frame has come twice, and the copy stays on
the air. -/
def firstByte : List Step :=
  [.act 0 (.call 1 [7] null), .duplicate 0, .hear 1 0 .zero, .act 1 .put, .act 1 .transmit,
    .hear 0 1 .zero, .act 0 .put, .act 0 .poll]

/-- The next byte goes the same way. -/
def secondByte : List Step :=
  [.act 0 (.call 1 [8] null), .hear 1 1 .zero, .act 1 .put, .act 1 .transmit, .hear 0 1 .zero,
    .act 0 .put, .act 0 .poll]

/-- No packet of the two calls is altered, and their messages fit. -/
theorem inTurn_clean : ∀ l ∈ firstByte ++ secondByte, l.Clean := by
  simp [firstByte, secondByte, Step.Clean, Network.Label.Admits, Action.Fits]

/-- Steps that are no calls. -/
theorem callsQuietlyP_of_no_call {routes : Protocol.Routes} {ls : List Step}
    (hls : ∀ l ∈ ls, ∀ s d m encrypted, l ≠ .act s (.call d m encrypted)) (net : Protocol.Net) :
    Lts.Along (Network.step (Protocol.machine routes)) CallsQuietlyP net ls :=
  Lts.along_mono (fun _ _ h s d m encrypted hl => absurd hl (h s d m encrypted))
    (Lts.along_of_forall_mem hls)

/-- Nothing is under way in a network that has just been switched on. -/
theorem tagged_booted (recvToken : UInt8 → UInt8 → ℕ) (s d : UInt8) :
    Tagged (Protocol.booted recvToken) s d fun _ => False := by
  have hempty : ∀ q, ¬ Protocol.InFlight (Protocol.booted recvToken) q := by
    rintro q (hq | ⟨v, hq⟩)
    · exact nomatch hq
    · exact nomatch hq
  exact ⟨fun q hq => absurd hq (hempty q), fun q _ _ hq => absurd hq (hempty q), nofun, nofun,
    nofun⟩

/-- When nothing is under way but messages behind the counter of node `1`, and nothing is in the
nodes, nothing can acknowledge a message of node `0`. -/
theorem tagged_of_behind {net : Protocol.Net}
    (hflight : ∀ q, Protocol.InFlight net q →
      ∃ t m, q.body = .data t m ∧ t ≤ (net.nodes 1).recvToken 0)
    (hqueue : (net.nodes 0).responseQueue = []) (htask : (net.nodes 0).task = .polling)
    (htask' : (net.nodes 1).task = .polling) : Tagged net 0 1 fun _ => False where
  ack q hq _ _ hack := by
    obtain ⟨t, m, hbody, -⟩ := hflight q hq
    exact nomatch hbody.symm.trans hack
  live q t' m' hq _ _ hdata hahead := by
    obtain ⟨t, m, hbody, hbehind⟩ := hflight q hq
    obtain ⟨rfl, -⟩ := Body.data.inj (hbody.symm.trans hdata)
    omega
  queued tag htag := by
    rw [hqueue] at htag
    exact nomatch htag
  queueing tag htag := by
    rw [htask] at htag
    exact nomatch htag
  message m tag htag := by
    rw [htask'] at htag
    exact nomatch htag

/-- Both calls are started when all is quiet: the first when there is nothing in the network, the
second when the copy of the first frame is on the air, which node `1` would reject. -/
theorem callsQuietly_inTurn (aes : Aes) (crc : List UInt8 → UInt8) :
    Lts.Along (Network.step (machine (Config.direct 2 aes crc)))
      (CallsQuietly (Config.direct 2 aes crc)) (booted (fun _ _ => ⟨0, by decide⟩) fun _ => null)
      (firstByte ++ secondByte) := by
  refine Lts.along_sim_symm (Refinement.step_refines _)
    (fun net net' l hrel _ (h : CallsQuietlyP net' l) s d m encrypted hl =>
      quiet_of_tagged hrel (h s d m encrypted hl))
    (Refinement.booted_rel _ _ _) inTurn_clean ?_
  -- the state in which the second call is started
  have hend : (Lts.run (Network.step (Protocol.machine ⟨2, fun _ dest => dest.toNat⟩))
      (Protocol.booted fun _ _ => 0) firstByte).any (fun net =>
        net.air = [⟨1, 1, 0, initTtl, .data 1 [7], 0, (0, 0)⟩] ∧
        ((net.nodes 0).task = .polling ∧ (net.nodes 1).task = .polling) ∧
        (net.nodes 0).responseQueue = [] ∧ (net.nodes 1).recvToken 0 = 1) = true := by decide
  obtain ⟨net₁, hrun₁, hend⟩ := (Option.any_eq_true _ _).mp hend
  obtain ⟨hair, ⟨htask, htask'⟩, hqueue, hrecv⟩ := of_decide_eq_true hend
  have hamong : ∀ l ∈ firstByte, ∀ v ∈ l.actor, v ∈ [0, 1] := by
    simp [firstByte, Network.Label.actor]
  have hpolling := Refinement.polling_of_run hamong hrun₁ (by simp [htask, htask'])
  refine Lts.along_append ⟨fun s d m encrypted _ => tagged_booted _ s d, fun net _ =>
    callsQuietlyP_of_no_call (by simp) net⟩ hrun₁ ⟨?_, fun net _ =>
    callsQuietlyP_of_no_call (by simp) net⟩
  intro s d m encrypted hl
  obtain ⟨rfl, rfl, -⟩ : 0 = s ∧ 1 = d ∧ _ := by simpa using hl
  refine tagged_of_behind (fun q hq => ?_) hqueue htask htask'
  have hmem := Refinement.mem_air_of_polling hpolling hq
  rw [hair] at hmem
  obtain rfl := List.mem_singleton.mp hmem
  exact ⟨1, [7], rfl, hrecv.ge⟩

/-- Both calls are acknowledged for their own messages. -/
theorem sound_inTurn :
    ∃ net, Lts.run (Network.step (machine (Config.direct 2 (Equiv.refl Block) Crc8.crc8)))
        (booted (fun _ _ => ⟨0, by decide⟩) fun _ => null) (firstByte ++ secondByte) = some net ∧
      .returned (0, 0) true (some (0, 0)) ∈ net.log ∧
      .returned (0, 1) true (some (0, 1)) ∈ net.log ∧ Network.Justified Sound net.log := by
  obtain ⟨hroom, net, hrun, hlog⟩ := Refinement.exists_direct_run (Equiv.refl Block) Crc8.crc8
    (fun _ _ => ⟨0, by decide⟩)
    [.returned (0, 1) true (some (0, 1)), .transmitted 1 (0, 1) typeMaskAck,
      .put 1 0 [8] (0, 1), .transmitted 0 (0, 1) typeMaskNeedAck, .called (0, 1) 1 [8],
      .returned (0, 0) true (some (0, 0)), .transmitted 1 (0, 0) typeMaskAck,
      .put 1 0 [7] (0, 0), .transmitted 0 (0, 0) typeMaskNeedAck, .called (0, 0) 1 [7]]
    inTurn_clean (by decide) (by decide)
  exact ⟨net, hrun, by rw [hlog]; decide, by rw [hlog]; decide,
    sound_of_quiet _ _ _ _ inTurn_clean hroom (callsQuietly_inTurn _ _) net hrun⟩

/-- The time of a call is up before its `ACK` arrives. -/
def lateAck : List Step :=
  [.act 0 (.call 1 [7] null), .hear 1 0 .zero, .act 1 .put, .act 0 .timeout, .act 1 .transmit,
    .hear 0 0 .zero, .act 0 .put]

/-- The `ACK` is taken for the next call, whose message has not been heard by anyone. -/
def mistaken : List Step := lateAck ++ [.act 0 (.call 1 [8] null), .act 0 .poll]

/-- The second call is acknowledged, under every AES key and checksum, though no queue is full
and no packet is lost, duplicated or altered. -/
theorem not_sound_lateAck :
    (∀ l ∈ mistaken, l.Clean) ∧ ¬ ∃ aes crc,
      Lts.Along (Network.step (machine (Config.direct 2 aes crc)))
          (fun net l => hasRoom net l = true)
          (booted (fun _ _ => ⟨0, by decide⟩) fun _ => null) mistaken →
        ∀ net, Lts.run (Network.step (machine (Config.direct 2 aes crc)))
          (booted (fun _ _ => ⟨0, by decide⟩) fun _ => null) mistaken = some net →
        Network.Justified Sound net.log := by
  have hclean : ∀ l ∈ mistaken, l.Clean := by
    simp [mistaken, lateAck, Step.Clean, Network.Label.Admits, Action.Fits]
  refine ⟨hclean, ?_⟩
  rintro ⟨aes, crc, hsound⟩
  obtain ⟨hroom, net, hrun, hlog⟩ := Refinement.exists_direct_run aes crc
    (fun _ _ => ⟨0, by decide⟩)
    [.returned (0, 1) true (some (0, 0)), .transmitted 0 (0, 1) typeMaskNeedAck,
      .called (0, 1) 1 [8], .transmitted 1 (0, 0) typeMaskAck, .returned (0, 0) false none,
      .put 1 0 [7] (0, 0), .transmitted 0 (0, 0) typeMaskNeedAck, .called (0, 0) 1 [7]]
    hclean (by decide) (by decide)
  have hjust := hsound hroom net hrun
  rw [hlog] at hjust
  obtain ⟨⟨-, d, m, newer, mid, older, hbefore⟩, -⟩ := Network.justified_cons.mp hjust
  -- the message of the second call was never put into a queue
  have hput : Event.put d 0 m (0, 1) ∈ newer ++ .put d 0 m (0, 1) ::
      (mid ++ .called (0, 1) d m :: older) := List.mem_append_right _ List.mem_cons_self
  rw [← hbefore] at hput
  simp at hput

end AckSoundness

end LCore
