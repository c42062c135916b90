import LCore.AtMostOnce

/-!
# Delivery in Order

The messages of a sender come out of the queue of a receiver in the order of the calls as long
as later calls use higher tokens: a message that is taken puts the counter of the receiver
above everything older. The counter of a sender is not only counted up. A `SYNC` sets it, also
one that answers an earlier call and was under way for long, and then the frames sent since
that earlier call are ahead of those sent next. Such a frame may be late, and its message is
taken after that of a later call.

Messages stay in order if nothing is sent under a token below that of a frame of an earlier call
that is still under way.

## Main results

* `inv_step`: the invariant, the tokens under way ascend with the calls.
* `ordered_of_ascending`: in a run in which nothing is sent below a frame of an earlier call,
  every receiver queues the messages of a sender in the order of the calls.
* `not_ordered_overtaken`: a late frame whose message is queued after that of the next call.
-/

open Memory

namespace LCore

namespace InOrder

open Protocol (Body)
open AtMostOnce (FrameCarries TakenFrom frame_step takenFrom_step called_of_carries
  called_of_takenFrom)

/-- When `d` puts a message of `s` into its queue, it has put there none of a later call. -/
def Ordered : Event → List Event → Prop
  | .put d s _ tag, before => ∀ m' tag', .put d s m' tag' ∈ before → tag'.2 ≤ tag.2
  | _, _ => True

/-! ### The condition -/

/-- With the step, `s` sends the message of a call to `d` under a token: a new call, or one that
follows an answer of its peer, of which a `SYNC` tells the token. -/
inductive SendsUnder (cfg : Config) (net : LoraNet) (s d : UInt8) (token : ℕ) (tag : Tag) :
    Step → Prop
  | called {m : List UInt8} {encrypted : Mem UInt8} (happ : (net.nodes s).app = none)
      (htoken : token = Encryption.counter (Encryption.nextSendToken tokenSize
        ((net.nodes s).listener.globals.sendTokens d)))
      (htag : tag = (s, (net.nodes s).calls)) :
      SendsUnder cfg net s d token tag (.act s (.call d m encrypted))
  | again {c : Call} {frame : LoraFrame} {cause : Tag} {rest : List (LoraFrame × Tag)}
      (happ : (net.nodes s).app = some c) (hallow : c.waiting.allowResend = true)
      (hqueue : (net.nodes s).responseQueue = (frame, cause) :: rest)
      (hsend : frame.buf framePosSendAddr = c.waiting.address)
      (hopen : frame.buf framePosType &&& (typeMaskAck ||| typeMaskError) = 0)
      (hresend : frame.buf framePosType &&& typeMaskResend ≠ 0)
      (htoken : token = if frame.buf framePosType &&& typeMaskSync ≠ 0 then
          (Encryption.mergeFromBytes (shift frame.buf framePosMsg) tokenSize).toNat
        else Encryption.payloadToken cfg.aes (cells c.waiting.msg c.waiting.msgSize.toNat))
      (hdest : d = c.waiting.address) (htag : tag = c.tag) :
      SendsUnder cfg net s d token tag (.act s .poll)

/-- When a message is sent under a token ahead of the counter of the receiver, no frame of an
earlier call is under way with a higher token. -/
def Ascending (cfg : Config) (net : LoraNet) (l : Step) : Prop :=
  ∀ s d token tag, SendsUnder cfg net s d token tag l →
    Encryption.counter ((net.nodes d).listener.globals.recvTokens s) < token →
    ∀ p, InFlight net p → p.send = s → p.dest = d → p.tag.2 < tag.2 →
      p.type &&& responseMask = 0 → Encryption.payloadToken cfg.aes (p.bytes.drop 7) ≤ token

/-! ### The protocol -/

/-- The same condition on the protocol. -/
def AscendingP (net : Protocol.Net) (l : Step) : Prop :=
  ∀ s c, Protocol.Sends net l s c → (net.nodes c.dest).recvToken s < c.token →
    ∀ tag t, FrameCarries net s c.dest tag t → tag.2 < c.tag.2 → t ≤ c.token

/-- The state between two steps: among the frames that may still be taken, those of later calls
have higher tokens, and none is of a call before one whose message is taken. -/
structure Inv (net : Protocol.Net) : Prop where
  grounded : Integrity.NetGrounded net
  numbered : Integrity.Numbered net
  latest : ∀ s c, (net.nodes s).app = some c → c.tag.2 + 1 = (net.nodes s).calls
  ascending : ∀ s d tag tag' t t', FrameCarries net s d tag t → FrameCarries net s d tag' t' →
    tag.2 < tag'.2 → (net.nodes d).recvToken s < t' → t ≤ t'
  closed : ∀ s d tag tag' t, FrameCarries net s d tag t → TakenFrom net s d tag' →
    tag.2 < tag'.2 → t ≤ (net.nodes d).recvToken s
  pending : ∀ s d m tag, (net.nodes d).task = .queueing (.message s m) tag →
    ∀ m' tag', .put d s m' tag' ∈ net.log → tag'.2 ≤ tag.2
  ordered : Network.Justified Ordered net.log

/-- A message that is sent is that of the latest call. -/
theorem le_of_sends {net : Protocol.Net} (h : Inv net) {l : Step} {s d : UInt8} {c : Protocol.Call}
    (hsends : Protocol.Sends net l s c) {tag : Tag} {m : List UInt8}
    (hcalled : .called tag d m ∈ net.log) (htag : tag.1 = s) : tag.2 ≤ c.tag.2 := by
  obtain ⟨v, k⟩ := tag
  obtain rfl : v = s := htag
  have hlt : k < (net.nodes v).calls := h.numbered.counted v k d m hcalled
  cases hsends with
  | called hcall happ htoken hc =>
      rw [hc]
      exact hlt.le
  | resent hpoll happ hallow hqueue htoken hc =>
      have hlatest := h.latest _ _ happ
      rw [hc]
      dsimp only
      omega

section Step

variable {routes : Protocol.Routes} {net net' : Protocol.Net} {l : Step} (h : Inv net)
  (hl : l.Faithful) (hascending : AscendingP net l)
  (hstep : Network.step (Protocol.machine routes) net l = some net')

include h hl hstep

/-- The message of a call is the last one its node has made. -/
theorem latest_step (s : UInt8) (c : Protocol.Call) (happ' : (net'.nodes s).app = some c) :
    c.tag.2 + 1 = (net'.nodes s).calls := by
  rcases Protocol.node_step hl hstep s with heq | ⟨i, r, rfl, hacts, hr⟩ | ⟨p, -, hhears⟩
  · rw [heq] at happ' ⊢
    exact h.latest s c happ'
  · rw [hr] at happ' ⊢
    cases hacts with
    | called happ htoken =>
        obtain rfl := Option.some.inj happ'
        rfl
    | synced happ hallow hqueue =>
        obtain rfl := Option.some.inj happ'
        have hlatest := h.latest s _ happ
        exact hlatest
    | resent happ hallow hqueue htoken hcounter =>
        obtain rfl := Option.some.inj happ'
        have hlatest := h.latest s _ happ
        exact hlatest
    | returned => exact nomatch happ'
    | timedOut => exact nomatch happ'
    | _ => exact h.latest s c happ'
  · generalize net'.nodes s = n' at hhears happ' ⊢
    cases hhears with
    | _ => exact h.latest s c happ'

/-- A message that waits to be put is not older than one that was put. -/
theorem pending_step (s d : UInt8) (m : List UInt8) (tag : Tag)
    (htask' : (net'.nodes d).task = .queueing (.message s m) tag) (m' : List UInt8) (tag' : Tag)
    (hput' : .put d s m' tag' ∈ net'.log) : tag'.2 ≤ tag.2 := by
  rcases Protocol.put_step hl hstep hput' with hput | ⟨-, hpackets⟩
  · rcases Protocol.queueing_step hl hstep htask' with
        htask | ⟨p, hp, hdest, htag, ⟨hentry, -⟩ | ⟨t, m₀, hbody, hentry, hlt, -⟩⟩
    · exact h.pending s d m tag htask m' tag' hput
    · exact nomatch hentry
    · -- a frame that is taken is of no earlier call than what was taken before
      obtain ⟨rfl, rfl⟩ := Protocol.Entry.message.inj hentry
      by_contra hearlier
      have hle := h.closed p.send d tag tag' t ⟨p, m, .inl hp, rfl, hdest, htag, hbody⟩
        (.inl ⟨m', hput⟩) (not_le.mp hearlier)
      omega
  · rw [htask'] at hpackets
    exact absurd rfl hpackets

/-- What is put in the step is put in order. -/
theorem ordered_step : Network.Justified Ordered net'.log := by
  rcases Protocol.log_step hl hstep with ⟨hlog, -⟩ | ⟨v, i, r, rfl, hacts, -, hlog, -⟩
  · rw [hlog]
    exact h.ordered
  · rw [hlog]
    cases hacts with
    | put htask hroom => exact Network.justified_cons.mpr ⟨h.pending _ v _ _ htask, h.ordered⟩
    | called =>
        exact Network.justified_cons.mpr
          ⟨trivial, Network.justified_cons.mpr ⟨trivial, h.ordered⟩⟩
    | ignored => exact h.ordered
    | synced => exact h.ordered
    | queued => exact h.ordered
    | _ => exact Network.justified_cons.mpr ⟨trivial, h.ordered⟩

/-- A frame older than a message that was taken is behind the window. -/
theorem closed_step (s d : UInt8) (tag tag' : Tag) (t : ℕ) (hframe : FrameCarries net' s d tag t)
    (htaken : TakenFrom net' s d tag') (hearlier : tag.2 < tag'.2) :
    t ≤ (net'.nodes d).recvToken s := by
  have hle := Protocol.recvToken_step hl hstep d s
  -- whatever is taken was called before the step
  have hcalled : (∃ m, .called tag' d m ∈ net.log) ∧ tag'.1 = s := by
    rcases takenFrom_step hl hstep htaken with hold | ⟨t₀, hcarried, -⟩
    · exact called_of_takenFrom h.grounded hold
    · exact called_of_carries h.grounded (.inl hcarried)
  rcases frame_step hl hstep hframe with hold | ⟨c, hsends, -, -, rfl, -⟩
  · rcases takenFrom_step hl hstep htaken with holdTaken | ⟨t₀, hcarried, hlt, heq⟩
    · exact (h.closed s d tag tag' t hold holdTaken hearlier).trans hle
    · rw [heq]
      exact h.ascending s d tag tag' t t₀ hold hcarried hearlier hlt
  · obtain ⟨⟨m, hmem⟩, htag⟩ := hcalled
    have hlatest := le_of_sends h hsends hmem htag
    omega

include hascending

/-- Of the frames in the window, the older have the lower tokens. -/
theorem ascending_step (s d : UInt8) (tag tag' : Tag) (t t' : ℕ)
    (hframe : FrameCarries net' s d tag t) (hframe' : FrameCarries net' s d tag' t')
    (hearlier : tag.2 < tag'.2) (hahead : (net'.nodes d).recvToken s < t') : t ≤ t' := by
  have hle := Protocol.recvToken_step hl hstep d s
  rcases frame_step hl hstep hframe with hold | ⟨c, hsends, happ, rfl, rfl, rfl⟩
  · rcases frame_step hl hstep hframe' with hold' | ⟨c, hsends, -, rfl, rfl, rfl⟩
    · exact h.ascending s d tag tag' t t' hold hold' hearlier (by omega)
    · exact hascending s c hsends (by omega) tag t hold hearlier
  · rcases frame_step hl hstep hframe' with hold' | ⟨c', -, happ', -, rfl, -⟩
    · obtain ⟨⟨m, hcalled⟩, htag⟩ := called_of_carries h.grounded (.inl hold')
      have hlatest := le_of_sends h hsends hcalled htag
      omega
    · obtain rfl := Option.some.inj (happ.symm.trans happ')
      omega

/-- Every step keeps the invariant. -/
theorem inv_step : Inv net' where
  grounded := Integrity.grounded_step net l net' h.grounded hl hstep
  numbered := Integrity.numbered_step h.numbered hl hstep
  latest := latest_step h hl hstep
  ascending := ascending_step h hl hascending hstep
  closed := closed_step h hl hstep
  pending := pending_step h hl hstep
  ordered := ordered_step h hl hstep

end Step

/-- Nothing is under way in a network that has just been switched on. -/
theorem not_frameCarries_booted (recvToken : UInt8 → UInt8 → ℕ) (s d : UInt8) (tag : Tag)
    (t : ℕ) : ¬ FrameCarries (Protocol.booted recvToken) s d tag t := by
  rintro ⟨q, m, hq | ⟨v, hq⟩, -⟩
  · exact nomatch hq
  · exact nomatch hq

/-- It holds of the network when it has booted. -/
theorem inv_booted (recvToken : UInt8 → UInt8 → ℕ) : Inv (Protocol.booted recvToken) where
  grounded := Integrity.grounded_booted recvToken
  numbered := Integrity.numbered_booted recvToken
  latest := nofun
  ascending s d tag _ t _ h := absurd h (not_frameCarries_booted recvToken s d tag t)
  closed s d tag _ t h := absurd h (not_frameCarries_booted recvToken s d tag t)
  pending := nofun
  ordered := Network.justified_nil

/-! ### The code -/

/-- What the code sends under which token is what the protocol sends. -/
theorem sendsUnder_of_sends {cfg : Config} {net : LoraNet} {net' : Protocol.Net}
    (hrel : Refinement.NetRel cfg net net') {l : Step} {s : UInt8} {c : Protocol.Call}
    (h : Protocol.Sends net' l s c) : SendsUnder cfg net s c.dest c.token c.tag l := by
  have hnode := hrel.nodes s
  cases h with
  | @called dest m encrypted token hcall happ' htoken hc =>
      subst hcall hc
      have hlt : Encryption.counter ((net.nodes s).listener.globals.sendTokens dest) <
          tokenMax.toNat := by
        rw [hnode.sendToken]
        exact hnode.sendBound dest
      refine .called (hnode.app_eq_none_iff.mpr happ') ?_ (by rw [hnode.calls])
      rw [Encryption.counter_nextSendToken_eq hlt, hnode.sendToken]
      exact htoken
  | @resent c₀ body token cause rest' hpoll happ' hallow hqueue' htoken hc =>
      subst hpoll hc
      obtain ⟨w, happ, hcall⟩ := hnode.exists_call happ'
      obtain ⟨frame, tag₀, rest, hqueue, hframe⟩ := hnode.exists_response hqueue'
      refine .again happ (hcall.allowResend.trans hallow) hqueue
        (hframe.send.trans hcall.dest.symm) ?_ ?_ ?_ hcall.dest.symm hcall.tag.symm
      · rw [hframe.type]
        rcases htoken with ⟨rfl, -⟩ | rfl
        · exact resend_and_final
        · exact syncResend_and_final
      · rw [hframe.type]
        rcases htoken with ⟨rfl, -⟩ | rfl
        · exact resend_and_resend
        · exact syncResend_and_resend
      · rw [hframe.type]
        rcases htoken with ⟨rfl, rfl⟩ | rfl
        · exact hcall.payloadToken.symm
        · have hsync : (Body.sync token).flags &&& typeMaskSync ≠ 0 := syncResend_and_sync
          rw [if_pos hsync, hframe.mergeFromBytes_sync]

/-- The condition on the code is the one on the protocol. -/
theorem ascendingP_of_ascending {cfg : Config} {net : LoraNet} {net' : Protocol.Net}
    (hrel : Refinement.NetRel cfg net net') {l : Step} (h : Ascending cfg net l) :
    AscendingP net' l := by
  intro s c hsends hahead tag t hframe hearlier
  obtain ⟨q, m, hq, rfl, hdest, rfl, hbody⟩ := hframe
  obtain ⟨p, hp, hpq⟩ := Refinement.inFlight_rel hrel hq
  have hdata : p.type &&& responseMask = 0 := by
    rw [hpq.type, hbody]
    exact needAck_and_responseMask
  have hle := h q.send c.dest c.token c.tag (sendsUnder_of_sends hrel hsends)
    (by rw [(hrel.nodes c.dest).recvToken]; exact hahead) p hp hpq.send (hpq.dest.trans hdest)
    (by rw [hpq.tag]; exact hearlier) hdata
  rwa [hpq.payloadToken hbody] at hle

/-- An answer that has a message sent again is a `RESEND` or a `SYNC`. -/
theorem resend_or_sync {body : Body} (h : ∀ t m, body ≠ .data t m)
    (hopen : body.flags &&& (typeMaskAck ||| typeMaskError) = 0) :
    body = .resend ∨ ∃ t, body = .sync t := by
  cases body with
  | data t m => exact absurd rfl (h t m)
  | ack => exact absurd hopen (by decide)
  | error => exact absurd hopen (by decide)
  | resend => exact .inl rfl
  | sync t => exact .inr ⟨t, rfl⟩

/-- What the protocol sends under which token is what the code sends. -/
theorem sends_of_sendsUnder {cfg : Config} {net : LoraNet} {net' : Protocol.Net}
    (hrel : Refinement.NetRel cfg net net') {l : Step} {s d : UInt8} {token : ℕ} {tag : Tag}
    (h : SendsUnder cfg net s d token tag l) :
    ∃ c, Protocol.Sends net' l s c ∧ c.dest = d ∧ c.token = token ∧ c.tag = tag := by
  have hnode := hrel.nodes s
  cases h with
  | called happ htoken htag =>
      have hlt : Encryption.counter ((net.nodes s).listener.globals.sendTokens d) <
          tokenMax.toNat := by
        rw [hnode.sendToken]
        exact hnode.sendBound d
      rw [Encryption.counter_nextSendToken_eq hlt, hnode.sendToken] at htoken
      rw [hnode.calls] at htag
      exact ⟨_, .called rfl (hnode.app_eq_none_iff.mp happ) rfl rfl, rfl, htoken.symm,
        htag.symm⟩
  | @again c frame cause rest happ hallow hqueue hsend hopen hresend htoken hdest htag =>
      obtain ⟨c', happ', hcall⟩ := hnode.exists_protocol_call happ
      obtain ⟨send, body, rest', hqueue', hframe⟩ := hnode.exists_protocol_response hqueue
      obtain rfl : send = c'.dest := hframe.send.symm.trans (hsend.trans hcall.dest)
      have hallow' := hcall.allowResend.symm.trans hallow
      rw [hframe.type] at hopen htoken
      rcases resend_or_sync hframe.answer hopen with rfl | ⟨t, rfl⟩
      · have hnone : Body.resend.flags &&& typeMaskSync = 0 := by decide
        rw [if_neg (not_not.mpr hnone), hcall.payloadToken] at htoken
        exact ⟨_, .resent rfl happ' hallow' hqueue' (.inl ⟨rfl, rfl⟩) rfl,
          hcall.dest.symm.trans hdest.symm, htoken.symm, hcall.tag.symm.trans htag.symm⟩
      · have hsync : (Body.sync t).flags &&& typeMaskSync ≠ 0 := syncResend_and_sync
        rw [if_pos hsync, hframe.mergeFromBytes_sync] at htoken
        exact ⟨_, .resent rfl happ' hallow' hqueue' (.inr rfl) rfl,
          hcall.dest.symm.trans hdest.symm, htoken.symm, hcall.tag.symm.trans htag.symm⟩

/-- The condition on the protocol is the one on the code. -/
theorem ascending_of_ascendingP {cfg : Config} {net : LoraNet} {net' : Protocol.Net}
    (hrel : Refinement.NetRel cfg net net') {l : Step} (h : AscendingP net' l) :
    Ascending cfg net l := by
  intro s d token tag hsends hahead p hp hsend hdest hearlier hdata
  obtain ⟨c, hsends', rfl, rfl, rfl⟩ := sends_of_sendsUnder hrel hsends
  obtain ⟨q, hq, hpq⟩ := Refinement.exists_protocol_inFlight hrel hp
  rw [hpq.type] at hdata
  obtain ⟨t, m, hbody⟩ := Refinement.exists_data hdata
  rw [hpq.payloadToken hbody]
  rw [(hrel.nodes c.dest).recvToken] at hahead
  rw [hpq.tag] at hearlier
  exact h s c hsends' hahead q.tag t
    ⟨q, m, hq, hpq.send.symm.trans hsend, hpq.dest.symm.trans hdest, rfl, hbody⟩ hearlier

/-- **Delivery in order.** In a run in which no message is sent under a token below that of a
frame of an earlier call that may still be taken, every receiver queues the messages of a sender
in the order of the calls. -/
theorem ordered_of_ascending (cfg : Config) (rnd : UInt8 → UInt8 → Fin tokenMax.toNat)
    (encBuf : UInt8 → Mem UInt8) (ls : List Step) (hclean : ∀ l ∈ ls, l.Clean)
    (hascending : Lts.Along (Network.step (machine cfg)) (Ascending cfg) (booted rnd encBuf) ls)
    (net : LoraNet)
    (hrun : Lts.run (Network.step (machine cfg)) (booted rnd encBuf) ls = some net) :
    Network.Justified Ordered net.log := by
  obtain ⟨net', hrun', hrel⟩ := Refinement.exists_protocol_run cfg hclean hrun
  have hascending' : Lts.Along (Network.step (Protocol.machine (Refinement.routes cfg)))
      (fun net l => l.Faithful ∧ AscendingP net l) (Protocol.booted fun v a => rnd v a) ls :=
    Lts.along_sim (Refinement.step_refines cfg)
      (fun net net' l hrel hl h => ⟨hl.faithful, ascendingP_of_ascending hrel h⟩)
      (Refinement.booted_rel cfg rnd encBuf) hclean hascending
  rw [hrel.log]
  exact (Lts.run_inv (fun _ _ _ hinv hl hstep => inv_step hinv hl.1 hl.2 hstep) (inv_booted _)
    hascending' hrun').ordered

/-! ### Two runs -/

/-- The frame of a message is slow, and comes twice; the time of its call is up. -/
def slow : List Step := [.act 0 (.call 1 [7] null), .duplicate 0, .act 0 .timeout]

/-- The next message is sent while it is still on the air. The late frame arrives first, then that
of the second message, and then the copy. -/
def late : List Step :=
  [.act 0 (.call 1 [8] null), .hear 1 0 .zero, .act 1 .put, .act 1 .transmit, .hear 1 1 .zero,
    .act 1 .put, .act 1 .transmit, .hear 1 0 .zero, .act 1 .transmit]

/-- No packet of the run is altered, and its messages fit. -/
theorem late_clean : ∀ l ∈ slow ++ late, l.Clean := by
  simp [slow, late, Step.Clean, Network.Label.Admits, Action.Fits]

/-- Steps that send no message of a call. -/
theorem ascendingP_of_not_sends {routes : Protocol.Routes} {ls : List Step}
    (hls : ∀ l ∈ ls, ∀ v i, l = .act v i → i = .put ∨ i = .transmit ∨ i = .timeout)
    (net : Protocol.Net) :
    Lts.Along (Network.step (Protocol.machine routes)) AscendingP net ls := by
  refine Lts.along_mono (fun net l h s c hsends => ?_) (Lts.along_of_forall_mem hls)
  cases hsends with
  | called hl => exact absurd (h _ _ hl) (by simp)
  | resent hl => exact absurd (h _ _ hl) (by simp)

/-- The second message is sent under a higher token than that of the late frame. -/
theorem ascending_late (aes : Aes) (crc : List UInt8 → UInt8) :
    Lts.Along (Network.step (machine (Config.direct 2 aes crc)))
      (Ascending (Config.direct 2 aes crc)) (booted (fun _ _ => ⟨0, by decide⟩) fun _ => null)
      (slow ++ late) := by
  refine Lts.along_sim_symm (P := Ascending _) (Q := AscendingP) (Refinement.step_refines _)
    (fun net net' l hrel _ h => ascending_of_ascendingP hrel h)
    (Refinement.booted_rel _ _ _) late_clean ?_
  -- the state in which the second message is sent
  have hend : (Lts.run (Network.step (Protocol.machine ⟨2, fun _ dest => dest.toNat⟩))
      (Protocol.booted fun _ _ => 0) slow).any (fun net =>
        net.air = List.replicate 2 ⟨1, 1, 0, initTtl, .data 1 [7], 0, (0, 0)⟩ ∧
        ((net.nodes 0).task = .polling ∧ (net.nodes 1).task = .polling) ∧
        (net.nodes 0).sendToken 1 = 1) = true := by decide
  obtain ⟨net₁, hrun₁, hend⟩ := (Option.any_eq_true _ _).mp hend
  obtain ⟨hair, ⟨htask, htask'⟩, hsend⟩ := of_decide_eq_true hend
  have hamong : ∀ l ∈ slow, ∀ v ∈ l.actor, v ∈ [0, 1] := by
    simp [slow, Network.Label.actor]
  have hpolling := Refinement.polling_of_run hamong hrun₁ (by simp [htask, htask'])
  refine Lts.along_append ⟨?_, fun net _ => ascendingP_of_not_sends (by simp) net⟩ hrun₁
    ⟨?_, fun net _ => ascendingP_of_not_sends (by simp) net⟩
  · intro s c _ _ tag t hframe
    exact absurd hframe (not_frameCarries_booted _ s c.dest tag t)
  · rintro s c hsends - tag t ⟨q, m, hq, -, -, -, hbody⟩ -
    have hmem := Refinement.mem_air_of_polling hpolling hq
    rw [hair] at hmem
    obtain rfl := List.eq_of_mem_replicate hmem
    obtain ⟨rfl, -⟩ := Body.data.inj hbody
    cases hsends with
    | @called dest m encrypted token hl happ htoken hc =>
        obtain ⟨rfl, rfl, -⟩ : 0 = s ∧ 1 = dest ∧ _ := by simpa using hl
        rw [hc, htoken, hsend]
        exact show 1 ≤ (1 + 1) % tokenMax.toNat by decide
    | resent hl => exact absurd hl (by simp)

/-- Both messages are put into the queue, the late one first. -/
theorem ordered_late :
    ∃ net, Lts.run (Network.step (machine (Config.direct 2 (Equiv.refl Block) Crc8.crc8)))
        (booted (fun _ _ => ⟨0, by decide⟩) fun _ => null) (slow ++ late) = some net ∧
      net.log.filter (fun e => e matches .put ..) = [.put 1 0 [8] (0, 1), .put 1 0 [7] (0, 0)] ∧
      Network.Justified Ordered net.log := by
  obtain ⟨-, net, hrun, hlog⟩ := Refinement.exists_direct_run (Equiv.refl Block) Crc8.crc8
    (fun _ _ => ⟨0, by decide⟩)
    [.transmitted 1 (0, 0) (typeMaskSync ||| typeMaskResend), .transmitted 1 (0, 1) typeMaskAck,
      .put 1 0 [8] (0, 1), .transmitted 1 (0, 0) typeMaskAck, .put 1 0 [7] (0, 0),
      .transmitted 0 (0, 1) typeMaskNeedAck, .called (0, 1) 1 [8], .returned (0, 0) false none,
      .transmitted 0 (0, 0) typeMaskNeedAck, .called (0, 0) 1 [7]]
    late_clean (by decide) (by decide)
  exact ⟨net, hrun, by rw [hlog]; decide,
    ordered_of_ascending _ _ _ _ late_clean (ascending_late _ _) net hrun⟩

/-- The first message is rejected, and the `SYNC` that asks for token 2 is slow. Two messages
are lost. The fourth, under token 4, is slow too; while its call waits the `SYNC` arrives, and
the message is sent again under token 2 and lost. So the fifth message has token 3, and is
queued before the slow frame of the fourth arrives. -/
def overtaken : List Step :=
  [.act 0 (.call 1 [1] null), .hear 1 0 .zero, .act 1 .transmit, .act 0 .timeout,
    .act 0 (.call 1 [2] null), .lose 1, .act 0 .timeout,
    .act 0 (.call 1 [3] null), .lose 1, .act 0 .timeout,
    .act 0 (.call 1 [4] null), .hear 0 0 .zero, .act 0 .put, .act 0 .poll, .lose 1,
    .act 0 .timeout,
    .act 0 (.call 1 [5] null), .hear 1 1 .zero, .act 1 .put, .act 1 .transmit,
    .hear 1 0 .zero, .act 1 .put]

/-- The fourth message is queued after the fifth, under every AES key and checksum, though no
packet is duplicated or altered. -/
theorem not_ordered_overtaken :
    (∀ l ∈ overtaken, l.Clean ∧ l.Single) ∧ ¬ ∃ aes crc, ∀ net,
      Lts.run (Network.step (machine (Config.direct 2 aes crc)))
        (booted (fun _ _ => ⟨1, by decide⟩) fun _ => null) overtaken = some net →
      Network.Justified Ordered net.log := by
  have hclean : ∀ l ∈ overtaken, l.Clean ∧ l.Single := by
    simp [overtaken, Step.Clean, Network.Label.Admits, Network.Label.Single, Action.Fits]
  refine ⟨hclean, ?_⟩
  rintro ⟨aes, crc, hordered⟩
  obtain ⟨-, net, hrun, hlog⟩ := Refinement.exists_direct_run aes crc (fun _ _ => ⟨1, by decide⟩)
    [.put 1 0 [4] (0, 3), .transmitted 1 (0, 4) typeMaskAck, .put 1 0 [5] (0, 4),
      .transmitted 0 (0, 4) typeMaskNeedAck, .called (0, 4) 1 [5], .returned (0, 3) false none,
      .transmitted 0 (0, 3) typeMaskNeedAck, .transmitted 0 (0, 3) typeMaskNeedAck,
      .called (0, 3) 1 [4], .returned (0, 2) false none, .transmitted 0 (0, 2) typeMaskNeedAck,
      .called (0, 2) 1 [3], .returned (0, 1) false none, .transmitted 0 (0, 1) typeMaskNeedAck,
      .called (0, 1) 1 [2], .returned (0, 0) false none,
      .transmitted 1 (0, 0) (typeMaskSync ||| typeMaskResend),
      .transmitted 0 (0, 0) typeMaskNeedAck, .called (0, 0) 1 [1]]
    (fun l hl => (hclean l hl).1) (by decide) (by decide)
  have hjustified := hordered net hrun
  rw [hlog] at hjustified
  have hbefore := (Network.justified_cons.mp hjustified).1 [5] (0, 4) (by decide)
  exact absurd hbefore (by decide)

end InOrder

end LCore
