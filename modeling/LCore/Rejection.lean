import LCore.TokenCheck

/-!
# Rejected Frames

`_listen` does partial work on a frame before it knows whether it will take it: the frame is
changed for the next node on its way, the checksum is taken over a copy, the payload is
decrypted into the scratch buffer that all calls share, and the answer goes out through the same
`_send` that waits for an answer of its own when the application calls it. `iterate` is the
iteration of `Responses` with both queues, and with the waits that `_send` would enter.

A `Verdict` says why a frame is not taken, by its bytes and the token counters. For each of them
`noTrace` says what is left of the frame: no token, no entry of a queue, one known packet or none,
and no wait.

## Main results

* `not_waits`: no iteration waits.
* `exists_verdict`: a frame is rejected, or it is an answer, or a message whose token was
  accepted or that was read as empty.
* `noTrace`: what a rejected frame leaves.
-/

open Memory BigEndian

namespace LCore

namespace Rejection

open Encryption TokenCheck

/-- What `_listen` works on. -/
structure Station extends Responses.Station where
  responseQueue : List LoraFrame

/-- A transmission, and whether the function that makes it then waits for an answer. -/
structure Transmission where
  packet : List UInt8
  waits : Bool

/-- How a packet is transmitted. A frame of others goes out through `Radio::send_bytes` alone,
everything else through `_send`, which enters its wait with `NEED_ACK` among the flags that it has
written into the type byte, and not without. -/
def transmission (heard : Heard) (packet : List UInt8) : Transmission :=
  match heard with
  | .forwarded _ => ⟨packet, false⟩
  | _ => ⟨packet, packet.getD 3 0 &&& typeMaskNeedAck ≠ 0⟩

/-- The `response_queue` after an iteration; an answer that it refuses is dropped. -/
def responses (queue : List LoraFrame) : Heard → List LoraFrame
  | .response frame => (xQueueSend queue frame).2
  | _ => queue

/-- An iteration of `_listen` to its end, with a packet on the radio: what it leaves, and what
it transmits. -/
def iterate (dev : Device) (st : Station) (message : NewMsg) (token : Mem UInt8)
    (packet : List UInt8) : Station × List Transmission :=
  let heard := (listen dev st.listener message token packet).2
  let r := Responses.iterate dev st.toStation message token packet
  (⟨r.1, responses st.responseQueue heard⟩, r.2.2.map (transmission heard))

/-- Why a frame is not taken. -/
inductive Verdict
  /-- `NEXT` names another node -/
  | notNamed
  /-- to be passed on -/
  | relayed
  /-- to be passed on, but its hops are used up or its destination does not exist -/
  | dropped
  /-- the checksum is wrong -/
  | badCrc
  /-- the token of a data frame is not one of the next -/
  | badToken

/-- A packet meets a verdict, by its bytes and the state of the globals. -/
def Rejects (dev : Device) (g : Globals) (p : List UInt8) : Verdict → Prop
  | .notNamed => p.getD 0 0 ≠ dev.address
  | .relayed => p.getD 0 0 = dev.address ∧ p.getD 1 0 ≠ dev.address ∧
      (p.getD 1 0).toNat < dev.netSize ∧ p.getD 5 0 ≠ 0
  | .dropped => p.getD 0 0 = dev.address ∧ p.getD 1 0 ≠ dev.address ∧
      (dev.netSize ≤ (p.getD 1 0).toNat ∨ p.getD 5 0 = 0)
  | .badCrc => p.getD 0 0 = dev.address ∧ p.getD 1 0 = dev.address ∧
      dev.crc (maskBytes p) ≠ p.getD 6 0
  | .badToken => p.getD 0 0 = dev.address ∧ p.getD 1 0 = dev.address ∧
      dev.crc (maskBytes p) = p.getD 6 0 ∧ p.getD 3 0 &&& responseMask = 0 ∧
      (opened dev.aes g (p.drop 7)).2 ≠ 0 ∧
      ¬ Newer g.recvTokens (tokenOf dev.aes g (p.drop 7)) (p.getD 2 0)

/-- The packet that is passed on: one hop less, and the next node on the way. -/
def forwarded (dev : Device) (p : List UInt8) : List UInt8 :=
  (p.set 5 (p.getD 5 0 - 1)).set 0 (UInt8.ofInt (dev.routingTable (p.getD 1 0)))

/-- An answer to the sender of a packet. -/
def answer (dev : Device) (p : List UInt8) (type : UInt8) (payload : List UInt8) : List UInt8 :=
  frameBytes dev.crc (UInt8.ofInt (dev.routingTable (p.getD 2 0))) (p.getD 2 0) dev.address type
    initTtl payload

/-- What is transmitted on a verdict. -/
def reply (dev : Device) (g : Globals) (p : List UInt8) : Verdict → List (List UInt8)
  | .notNamed | .dropped => []
  | .relayed => [forwarded dev p]
  | .badCrc => [answer dev p typeMaskResend []]
  | .badToken => [answer dev p (typeMaskSync ||| typeMaskResend)
      (toBytes tokenSize.toNat (counter (g.recvTokens (p.getD 2 0) + 1) % tokenMax.toNat))]

/-- The iteration leaves tokens and queues as they were. -/
structure Untouched (st st' : Station) : Prop where
  recvTokens : st'.listener.globals.recvTokens = st.listener.globals.recvTokens
  sendTokens : st'.listener.globals.sendTokens = st.listener.globals.sendTokens
  newFrameQueue : st'.newFrameQueue = st.newFrameQueue
  responseQueue : st'.responseQueue = st.responseQueue

/-! ### The iteration -/

section Iterate

variable (dev : Device) (st : Station) (message : NewMsg) (token : Mem UInt8) (packet : List UInt8)

/-- The packet of a `RESEND` is what `_send` transmits. -/
theorem listen_badCrc {p : List UInt8}
    (h : (listen dev st.listener message token packet).2 = .badCrc p) :
    p = transmit dev ((listen dev st.listener message token packet).1.frame.buf framePosSendAddr)
      null 0 typeMaskResend := by
  simp only [listen] at h ⊢
  split at h
  · rename_i hrecv
    rw [if_pos hrecv]
    simp only [dispatch] at h
    split at h
    · exact (Heard.badCrc.inj h).symm
    · split at h
      · exact absurd h (by simp)
      · split at h <;> exact absurd h (by simp)
  · split at h <;> exact absurd h (by simp)

/-- The packet of a `SYNC|RESEND` is what `_send` transmits. -/
theorem listen_rejected {p : List UInt8}
    (h : (listen dev st.listener message token packet).2 = .rejected p) :
    let r := listen dev st.listener message token packet
    p = transmit dev (r.1.frame.buf framePosSendAddr)
      (getNextRecvToken r.1.globals token (r.1.frame.buf framePosSendAddr)) tokenSize
      (typeMaskSync ||| typeMaskResend) := by
  intro r
  have haddress : ∀ (g : Globals) (frame : LoraFrame),
      (getMsgFromFrame dev.aes g frame message).2.2.address = frame.buf framePosSendAddr := by
    intro g frame
    simp only [getMsgFromFrame]
    split <;> rfl
  simp only [r, listen] at h ⊢
  split at h
  · rename_i hrecv
    rw [if_pos hrecv]
    simp only [dispatch] at h ⊢
    split at h
    · exact absurd h (by simp)
    · rename_i hcrc
      split at h
      · exact absurd h (by simp)
      · rename_i hresponse
        simp only [if_neg hcrc, if_neg hresponse]
        split at h
        · rename_i hreject
          rw [if_pos hreject]
          rw [← Heard.rejected.inj h, haddress]
        · exact absurd h (by simp)
  · split at h <;> exact absurd h (by simp)

/-- The packets are those of the iteration of `Responses`. -/
theorem packets_iterate :
    (iterate dev st message token packet).2.map Transmission.packet =
      (Responses.iterate dev st.toStation message token packet).2.2 := by
  have hpacket : ∀ heard, Transmission.packet ∘ transmission heard = id := by
    intro heard
    funext p
    cases heard <;> rfl
  rw [iterate, List.map_map, hpacket, List.map_id]

/-- `_send` without `NEED_ACK` does not wait. -/
theorem transmission_waits (heard : Heard) (address : UInt8) (msg : Mem UInt8) {size : UInt8}
    {flags : UInt8} (hsize : size.toNat ≤ 93) (hflags : flags &&& typeMaskNeedAck = 0) :
    (transmission heard (transmit dev address msg size flags)).waits = false := by
  have htype : (transmit dev address msg size flags).getD 3 0 = flags :=
    type_transmit dev address msg flags hsize
  unfold transmission
  split
  · rfl
  · rw [htype, hflags]
    rfl

/-- None of the answers of a listener asks for an answer. -/
theorem not_waits : ∀ t ∈ (iterate dev st message token packet).2, t.waits = false := by
  intro t ht
  obtain ⟨p, hp, rfl⟩ := List.mem_map.mp ht
  simp only [Responses.iterate] at hp
  cases hheard : (listen dev st.listener message token packet).2 with
  | nothing => simp [hheard] at hp
  | forwarded q => rfl
  | response frame => simp [hheard] at hp
  | badCrc q =>
      obtain rfl : p = q := by simpa [hheard] using hp
      rw [listen_badCrc dev st message token packet hheard]
      exact transmission_waits dev _ _ _ (by decide) (by decide)
  | rejected q =>
      obtain rfl : p = q := by simpa [hheard] using hp
      rw [listen_rejected dev st message token packet hheard]
      exact transmission_waits dev _ _ _ (by decide) (by decide)
  | message m type =>
      simp only [hheard] at hp
      rcases List.mem_append.mp hp with hp | hp
      · split at hp
        · exact absurd hp List.not_mem_nil
        · rw [List.mem_singleton.mp hp]
          exact transmission_waits dev _ _ _ (by decide) (by decide)
      · split at hp
        · rw [List.mem_singleton.mp hp]
          exact transmission_waits dev _ _ _ (by decide) (by decide)
        · exact absurd hp List.not_mem_nil

end Iterate

/-! ### Verdicts -/

section Verdict

variable (dev : Device) (st : Station) (message : NewMsg) (token : Mem UInt8) {packet : List UInt8}
  (h₇ : 7 ≤ packet.length) (h₁₀₀ : packet.length ≤ maxFrameSize)

/-- A frame that meets no verdict ends here, with a correct checksum, and is an answer, or a
message that was read as empty or whose token is accepted. -/
theorem exists_verdict (g : Globals) :
    (∃ v, Rejects dev g packet v) ∨
      packet.getD 0 0 = dev.address ∧ packet.getD 1 0 = dev.address ∧
        dev.crc (maskBytes packet) = packet.getD 6 0 ∧
        (packet.getD 3 0 &&& responseMask ≠ 0 ∨
          (opened dev.aes g (packet.drop 7)).2 = 0 ∨
          Newer g.recvTokens (tokenOf dev.aes g (packet.drop 7)) (packet.getD 2 0)) := by
  by_cases hnext : packet.getD 0 0 = dev.address
  · by_cases hdest : packet.getD 1 0 = dev.address
    · by_cases hcrc : dev.crc (maskBytes packet) = packet.getD 6 0
      · by_cases htoken : packet.getD 3 0 &&& responseMask = 0 ∧
            (opened dev.aes g (packet.drop 7)).2 ≠ 0 ∧
            ¬ Newer g.recvTokens (tokenOf dev.aes g (packet.drop 7)) (packet.getD 2 0)
        · exact .inl ⟨.badToken, hnext, hdest, hcrc, htoken⟩
        · refine .inr ⟨hnext, hdest, hcrc, ?_⟩
          by_contra hnot
          simp only [not_or, not_not] at hnot
          exact htoken hnot
      · exact .inl ⟨.badCrc, hnext, hdest, hcrc⟩
    · by_cases hgo : (packet.getD 1 0).toNat < dev.netSize ∧ packet.getD 5 0 ≠ 0
      · exact .inl ⟨.relayed, hnext, hdest, hgo⟩
      · refine .inl ⟨.dropped, hnext, hdest, ?_⟩
        rwa [not_and_or, Nat.not_lt, not_not] at hgo
  · exact .inl ⟨.notNamed, hnext⟩

include h₇ h₁₀₀

/-- What an iteration comes to on each verdict: nothing but the frame buffer and the scratch
buffer has changed. -/
theorem iterate_of_rejects {v : Verdict} (hv : Rejects dev st.listener.globals packet v) :
    Untouched st (iterate dev st message token packet).1 ∧
      (iterate dev st message token packet).2.map Transmission.packet =
        reply dev st.listener.globals packet v := by
  have hmax : packet.length ≤ 100 := h₁₀₀
  have hget : ∀ i (hi : i < packet.length), packet.getD i 0 = packet[i] :=
    fun i hi => List.getD_eq_getElem packet 0 hi
  have h0 := hget 0 (by omega)
  have h1 := hget 1 (by omega)
  have h2 := hget 2 (by omega)
  have h3 := hget 3 (by omega)
  have h5 := hget 5 (by omega)
  have h6 := hget 6 (by omega)
  rw [packets_iterate]
  cases v with
  | notNamed =>
      obtain ⟨frame, hlisten⟩ := listen_of_next_ne dev st.listener message token h₇ (by omega)
        (by rw [← h0]; exact hv)
      simp only [iterate, Responses.iterate, hlisten]
      exact ⟨⟨rfl, rfl, rfl, rfl⟩, rfl⟩
  | relayed =>
      obtain ⟨hnext, hdest, hgo⟩ := hv
      obtain ⟨frame, hlisten⟩ := listen_relay dev st.listener message token h₇ (by omega)
        (h0.symm.trans hnext) (by rw [← h1]; exact hdest)
      rw [← h1, ← h5, if_pos hgo] at hlisten
      simp only [iterate, Responses.iterate, hlisten]
      refine ⟨⟨rfl, rfl, rfl, rfl⟩, ?_⟩
      simp only [reply, forwarded, forwardBytes, h1, h5]
  | dropped =>
      obtain ⟨hnext, hdest, hbad⟩ := hv
      obtain ⟨frame, hlisten⟩ := listen_relay dev st.listener message token h₇ (by omega)
        (h0.symm.trans hnext) (by rw [← h1]; exact hdest)
      have hnot : ¬ ((packet.getD 1 0).toNat < dev.netSize ∧ packet.getD 5 0 ≠ 0) := by
        rintro ⟨hlt, hhops⟩
        exact hbad.elim (fun hle => absurd hlt (Nat.not_lt.mpr hle)) fun hzero => hhops hzero
      rw [← h1, ← h5, if_neg hnot] at hlisten
      simp only [iterate, Responses.iterate, hlisten]
      exact ⟨⟨rfl, rfl, rfl, rfl⟩, rfl⟩
  | badCrc =>
      obtain ⟨hnext, hdest, hcrc⟩ := hv
      obtain ⟨frame, hholds, hlisten⟩ := listen_received dev st.listener message token h₇
        (by omega) (h0.symm.trans hnext) (h1.symm.trans hdest)
      rw [dispatch_badCrc dev _ message token hholds h₇ (by omega) (by rw [← h6]; exact hcrc)]
        at hlisten
      simp only [iterate, Responses.iterate, hlisten]
      refine ⟨⟨rfl, rfl, rfl, rfl⟩, ?_⟩
      simp only [reply, answer, h2]
  | badToken =>
      obtain ⟨hnext, hdest, hcrc, htype, hnonempty, hold⟩ := hv
      obtain ⟨frame, hholds, hlisten⟩ := listen_received dev st.listener message token h₇
        (by omega) (h0.symm.trans hnext) (h1.symm.trans hdest)
      have hdrop : (packet.drop 7).length = packet.length - 7 := List.length_drop
      have hdisp := dispatch_opened dev st.listener.globals message token hholds h₇ (by omega)
        (by rw [hcrc, h6]) (by rw [← h3]; exact htype)
      rw [h2] at hold
      simp only [if_neg hnonempty, if_neg hold, toNat_nextRecvToken_eq] at hdisp
      rw [hdisp] at hlisten
      simp only [iterate, Responses.iterate, hlisten]
      refine ⟨⟨rfl, rfl, rfl, rfl⟩, ?_⟩
      simp only [reply, answer, h2]

end Verdict

/-- **Rejected frames leave no trace.** For every listener and every packet of 8 to 100 bytes: if
it is not for this node, or to be passed on, or its hops are used up or its destination does not
exist, or its checksum is wrong, or it is a data frame whose token is not one of the next, then
the iteration leaves both token tables and both queues as they were, transmits what belongs to
the verdict and nothing else, and does not wait. -/
theorem noTrace (dev : Device) (st : Station) (message : NewMsg) (token : Mem UInt8)
    {packet : List UInt8} (h₈ : 8 ≤ packet.length) (h₁₀₀ : packet.length ≤ maxFrameSize)
    {v : Verdict} (hv : Rejects dev st.listener.globals packet v) :
    Untouched st (iterate dev st message token packet).1 ∧
      (iterate dev st message token packet).2.map Transmission.packet =
        reply dev st.listener.globals packet v ∧
      ∀ t ∈ (iterate dev st message token packet).2, t.waits = false := by
  obtain ⟨huntouched, hreply⟩ := iterate_of_rejects dev st message token (by omega) h₁₀₀ hv
  exact ⟨huntouched, hreply, not_waits dev st message token packet⟩

/-- Node `0` of two. -/
def node : Device := (Config.direct 2 (Equiv.refl Block) Crc8.crc8).device 0

/-- A node that has just started. -/
def fresh : Station := ⟨⟨⟨LoraFrame.init, ⟨fun _ => 0, fun _ => 0, null⟩⟩, []⟩, []⟩

/-- The frame of an empty message from node `1` under the token `0`. -/
def stale : List UInt8 :=
  frameBytes Crc8.crc8 0 0 1 typeMaskNeedAck initTtl ([0, 0] ++ List.replicate 13 0 ++ [13])

/-- Its token is not one of the next. -/
theorem noTrace_stale :
    Untouched fresh (iterate node fresh ⟨0, null, 0⟩ null stale).1 ∧
      (iterate node fresh ⟨0, null, 0⟩ null stale).2.map Transmission.packet =
        reply node fresh.listener.globals stale .badToken ∧
      ∀ t ∈ (iterate node fresh ⟨0, null, 0⟩ null stale).2, t.waits = false := by
  have hrejects : Rejects node fresh.listener.globals stale .badToken := by
    refine ⟨rfl, rfl, ?_, by decide, ?_, ?_⟩
    · decide +kernel
    · decide +kernel
    · decide +kernel
  exact noTrace node fresh ⟨0, null, 0⟩ null (by decide) (by decide) hrejects

end Rejection

end LCore
