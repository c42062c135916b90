import LCore.Lib.Crc8
import LCore.Node

/-!
# One Call, Two Copies

A whole call of `send_with_ack`: `send` is `_send` with its wait, over the frames it finds in
`response_queue` one after the other until an answer decides the call or the list, and with it
the time, runs out. The frames are arbitrary: any sender, any type byte, any content.

An answer of the peer with `ACK` or `ERROR` decides the call. One without either may carry a
token (`SYNC`), which replaces the one in the message, and may ask for the message again
(`RESEND`), which is granted once. The call shares one cipher text buffer between its two
transmissions, and `swap_token` patches it in place; `Carries` is the invariant of that buffer.

## Main results

* `handleResponse_of_decision`, `handleResponse_of_not_decision`: one round of the wait.
* `send_spec`: the wait as a whole, with or without a transmission left.
* `sendWithAck_copies`: what a call transmits and what it leaves in the send counters.
* `poll_eq_send`: a round of `send` is what a node does when it polls.
-/

open Memory BigEndian

namespace LCore

namespace Copies

open Encryption

/-- `_send` from its wait on: the globals, the packets transmitted, and the value returned. -/
def send (dev : Device) : Globals → Waiting → List LoraFrame → Globals × List (List UInt8) × Bool
  | g, _, [] => (g, [], false)
  | g, w, frame :: frames =>
      let r := handleResponse dev.aes g w frame
      match r.2.2 with
      | .returned result => (r.1, [], result)
      | .wait => send dev r.1 r.2.1 frames
      | .resend =>
          let s := send dev r.1 { r.2.1 with allowResend := false } frames
          (s.1, transmit dev r.2.1.address r.2.1.msg r.2.1.msgSize r.2.1.flags :: s.2.1, s.2.2)

/-- `send_with_ack` over the frames its wait finds. -/
def sendWithAckOver (dev : Device) (g : Globals) (address : UInt8) (msg : Mem UInt8)
    (msgSize : UInt8) (encrypted : Mem UInt8) (frames : List LoraFrame) :
    Globals × List (List UInt8) × Bool :=
  let c := sendWithAck dev g address msg msgSize encrypted
  let s := send dev c.1 c.2.2 frames
  (s.1, c.2.1 :: s.2.1, s.2.2)

/-! ### What the frames say -/

/-- The value that a frame makes a call to `d` return, if it decides it. -/
def decision (d : UInt8) (frame : LoraFrame) : Option Bool :=
  if frame.buf framePosSendAddr = d then
    if frame.buf framePosType &&& typeMaskAck ≠ 0 then some true
    else if frame.buf framePosType &&& typeMaskError ≠ 0 then some false
    else none
  else none

/-- A frame from `d` that does not decide the call and has the bit `mask`. -/
def Asks (d mask : UInt8) (frame : LoraFrame) : Prop :=
  frame.buf framePosSendAddr = d ∧ decision d frame = none ∧
    frame.buf framePosType &&& mask ≠ 0

instance (d mask : UInt8) (frame : LoraFrame) : Decidable (Asks d mask frame) :=
  inferInstanceAs (Decidable (_ ∧ _))

/-- The token at `FRAME_POS_MSG`. -/
def frameToken (frame : LoraFrame) : ℕ :=
  ofBytes (cells (shift frame.buf framePosMsg) tokenSize.toNat)

/-- The token after a frame: an effective `SYNC` replaces it. -/
def syncToken (d : UInt8) (t : ℕ) (frame : LoraFrame) : ℕ :=
  if Asks d typeMaskSync frame then frameToken frame else t

/-- The token of the last effective `SYNC` among the frames, or `t` when there is none. -/
def lastToken (d : UInt8) (frames : List LoraFrame) (t : ℕ) : ℕ :=
  frames.foldl (syncToken d) t

/-- The frames a call consumes: up to the one that decides it. -/
def consumed (d : UInt8) : List LoraFrame → List LoraFrame
  | [] => []
  | frame :: frames =>
      if (decision d frame).isSome then [frame] else frame :: consumed d frames

/-- The frames a call consumes before it sends its message again: up to the first effective
`RESEND`, if there is one. -/
def beforeResend (d : UInt8) : List LoraFrame → Option (List LoraFrame)
  | [] => none
  | frame :: frames =>
      if (decision d frame).isSome then none
      else if Asks d typeMaskResend frame then some [frame]
      else (beforeResend d frames).map (frame :: ·)

/-- The value a call returns: what the frame that decides it says. -/
def result (d : UInt8) (frames : List LoraFrame) : Bool :=
  (frames.findSome? (decision d)).getD false

section Cons

variable {d : UInt8} {frame : LoraFrame} (frames : List LoraFrame)

/-- The token after the first frame goes into the rest. -/
theorem lastToken_cons (t : ℕ) :
    lastToken d (frame :: frames) t = lastToken d frames (syncToken d t frame) := rfl

/-! #### A frame that decides the call -/

/-- A frame that decides is not looked at for a token. -/
theorem syncToken_of_decision {b : Bool} (t : ℕ) (h : decision d frame = some b) :
    syncToken d t frame = t := by
  have hnot : ¬ Asks d typeMaskSync frame := fun ha => Option.some_ne_none b (h.symm.trans ha.2.1)
  rw [syncToken, if_neg hnot]

/-- Nothing is taken after a frame that decides. -/
theorem consumed_of_decision {b : Bool} (h : decision d frame = some b) :
    consumed d (frame :: frames) = [frame] := by
  rw [consumed, h, Option.isSome_some, if_pos rfl]

/-- A frame that decides asks for nothing again. -/
theorem beforeResend_of_decision {b : Bool} (h : decision d frame = some b) :
    beforeResend d (frame :: frames) = none := by
  rw [beforeResend, h, Option.isSome_some, if_pos rfl]

/-- It decides the result. -/
theorem result_of_decision {b : Bool} (h : decision d frame = some b) :
    result d (frame :: frames) = b := by
  rw [result, List.findSome?_cons, h]
  rfl

/-! #### A frame that does not -/

variable (h : decision d frame = none)

include h

/-- A frame that does not decide is taken, and so is what follows. -/
theorem consumed_of_not_decision : consumed d (frame :: frames) = frame :: consumed d frames := by
  rw [consumed, h, Option.isSome_none, if_neg Bool.false_ne_true]

/-- The result is that of the rest. -/
theorem result_of_not_decision : result d (frame :: frames) = result d frames := by
  rw [result, List.findSome?_cons, h]
  rfl

/-- A frame that asks for the message again ends the first part. -/
theorem beforeResend_of_asks (ha : Asks d typeMaskResend frame) :
    beforeResend d (frame :: frames) = some [frame] := by
  rw [beforeResend, h, Option.isSome_none, if_neg Bool.false_ne_true, if_pos ha]

/-- Otherwise the first part goes on. -/
theorem beforeResend_of_not_asks (ha : ¬ Asks d typeMaskResend frame) :
    beforeResend d (frame :: frames) = (beforeResend d frames).map (frame :: ·) := by
  rw [beforeResend, h, Option.isSome_none, if_neg Bool.false_ne_true, if_neg ha]

end Cons

/-! ### One round -/

/-- The buffer of a call holds the message `m` for `d` under the token `t`, which is also the
send counter of `d`. -/
structure Carries (dev : Device) (g : Globals) (w : Waiting) (d : UInt8) (t : ℕ)
    (m : List UInt8) : Prop where
  address : w.address = d
  size : w.msgSize = UInt8.ofNat (sealedSize m.length)
  flags : w.flags = typeMaskNeedAck
  payload : cells w.msg (sealedSize m.length) = sealed dev.aes t m
  counter : g.sendTokens d = (UInt32.ofNat t).toInt32
  token : t < 2 ^ 16

/-- The token of a frame has two bytes. -/
theorem frameToken_lt (frame : LoraFrame) : frameToken frame < 2 ^ 16 := by
  have hlt := ofBytes_lt (cells (shift frame.buf framePosMsg) tokenSize.toNat)
  rw [length_cells] at hlt
  exact hlt

/-- The bytes at `FRAME_POS_MSG` are the big-endian form of the token. -/
theorem cells_frameToken (frame : LoraFrame) :
    cells (shift frame.buf framePosMsg) tokenSize.toNat =
      toBytes tokenSize.toNat (frameToken frame) := by
  have h := toBytes_ofBytes (cells (shift frame.buf framePosMsg) tokenSize.toNat)
  rw [length_cells] at h
  exact h.symm

section Round

variable {dev : Device} {g : Globals} {w : Waiting} {d : UInt8} {t : ℕ} {m : List UInt8}
  (hm : m.length ≤ 77) (hw : Carries dev g w d t m) (frame : LoraFrame)

include hw

/-- A frame that decides the call ends it and changes nothing. -/
theorem handleResponse_of_decision {b : Bool} (h : decision d frame = some b) :
    handleResponse dev.aes g w frame = (g, w, .returned b) := by
  rw [decision, ← hw.address] at h
  by_cases hsend : frame.buf framePosSendAddr = w.address
  · rw [if_pos hsend] at h
    rw [handleResponse, if_pos hsend]
    by_cases hack : frame.buf framePosType &&& typeMaskAck ≠ 0
    · rw [if_pos hack] at h ⊢
      rw [Option.some.inj h]
    · rw [if_neg hack] at h ⊢
      by_cases herror : frame.buf framePosType &&& typeMaskError ≠ 0
      · rw [if_pos herror] at h ⊢
        rw [Option.some.inj h]
      · rw [if_neg herror] at h
        exact absurd h (by simp)
  · rw [if_neg hsend] at h
    exact absurd h (by simp)

include hm

/-- Any other frame replaces the token if it is an effective `SYNC`, and makes the call send
its message again if it asks for that and the call still may. -/
theorem handleResponse_of_not_decision (h : decision d frame = none) :
    ∃ g' w', handleResponse dev.aes g w frame =
        (g', w', if Asks d typeMaskResend frame ∧ w.allowResend = true then .resend else .wait) ∧
      Carries dev g' w' d (syncToken d t frame) m ∧ w'.allowResend = w.allowResend ∧
      g'.sendTokens = Function.update g.sendTokens d
        (UInt32.ofNat (syncToken d t frame)).toInt32 ∧
      g'.recvTokens = g.recvTokens := by
  obtain rfl : w.address = d := hw.address
  have hsame : g.sendTokens = Function.update g.sendTokens w.address
      (UInt32.ofNat t).toInt32 := by
    rw [← hw.counter, Function.update_eq_self]
  by_cases hsend : frame.buf framePosSendAddr = w.address
  · have hack : ¬ (frame.buf framePosType &&& typeMaskAck ≠ 0) := by
      intro hack
      rw [decision, if_pos hsend, if_pos hack] at h
      exact absurd h (by simp)
    have herror : ¬ (frame.buf framePosType &&& typeMaskError ≠ 0) := by
      intro herror
      rw [decision, if_pos hsend, if_neg hack, if_pos herror] at h
      exact absurd h (by simp)
    have hasks : ∀ mask, Asks w.address mask frame ↔
        frame.buf framePosType &&& mask ≠ 0 :=
      fun mask => ⟨fun ha => ha.2.2, fun ha => ⟨hsend, h, ha⟩⟩
    rw [handleResponse, if_pos hsend, if_neg hack, if_neg herror]
    by_cases hsync : frame.buf framePosType &&& typeMaskSync ≠ 0
    · have hshort : m.length < 110 := by omega
      obtain ⟨encBuf, msg', hswap, hmsg⟩ := swapToken_sealed dev.aes g w.address hshort
        (frameToken_lt frame) hw.payload (cells_frameToken frame)
      rw [← hw.size] at hswap
      have htoken : syncToken w.address t frame = frameToken frame := by
        rw [syncToken, if_pos ((hasks _).mpr hsync)]
      simp only [if_pos hsync, hswap, hasks, htoken]
      refine ⟨⟨Function.update g.sendTokens w.address (UInt32.ofNat (frameToken frame)).toInt32,
        g.recvTokens, encBuf⟩, { w with msg := msg' }, ?_, ⟨rfl, hw.size, hw.flags, hmsg, ?_,
        frameToken_lt frame⟩, rfl, rfl, rfl⟩
      · split <;> rfl
      · exact Function.update_self _ _ _
    · have htoken : syncToken w.address t frame = t := by
        rw [syncToken, if_neg fun ha => hsync ((hasks _).mp ha)]
      simp only [if_neg hsync, hasks, htoken]
      refine ⟨g, w, ?_, hw, rfl, hsame, rfl⟩
      split <;> rfl
  · have hasks : ∀ mask, ¬ Asks w.address mask frame := fun mask ha => hsend ha.1
    have htoken : syncToken w.address t frame = t := by rw [syncToken, if_neg (hasks _)]
    rw [handleResponse, if_neg hsend, htoken]
    refine ⟨g, w, ?_, hw, rfl, hsame, rfl⟩
    rw [if_neg fun ha => hasks _ ha.1]

end Round

/-! ### The whole wait -/

/-- A transmission of the call to `d` with the message `m` under the token `t`. -/
def copyOf (dev : Device) (d : UInt8) (m : List UInt8) (t : ℕ) : List UInt8 :=
  frameBytes dev.crc (UInt8.ofInt (dev.routingTable d)) d dev.address typeMaskNeedAck initTtl
    (sealed dev.aes t m)

/-- What a call whose buffer carries `m` under `t` transmits is a copy of `m` under `t`. -/
theorem Carries.transmit_eq {dev : Device} {g : Globals} {w : Waiting} {d : UInt8} {t : ℕ}
    {m : List UInt8} (hm : m.length ≤ 77) (hw : Carries dev g w d t m) :
    transmit dev w.address w.msg w.msgSize w.flags = copyOf dev d m t := by
  have hlen : (sealed dev.aes t m).length = sealedSize m.length := length_sealed _ _ _
  have hsealed := sealedSize_eq m.length
  have hshort : (sealed dev.aes t m).length ≤ 93 := by omega
  have heq := LCore.transmit_eq dev d typeMaskNeedAck hshort (by rw [hlen]; exact hw.payload)
  rw [hlen] at heq
  rw [hw.address, hw.size, hw.flags, heq, copyOf]

/-- What a wait leaves behind and what it transmits, for every sequence of frames. -/
theorem send_spec {dev : Device} {d : UInt8} {m : List UInt8} (hm : m.length ≤ 77)
    (frames : List LoraFrame) {g : Globals} {w : Waiting} {t : ℕ}
    (hw : Carries dev g w d t m) :
    let s := send dev g w frames
    s.1.sendTokens = Function.update g.sendTokens d
        (UInt32.ofNat (lastToken d (consumed d frames) t)).toInt32 ∧
      s.1.recvTokens = g.recvTokens ∧
      s.2.1 = (if w.allowResend = true then (beforeResend d frames).toList.map
        fun before => copyOf dev d m (lastToken d before t) else []) ∧
      s.2.2 = result d frames := by
  induction frames generalizing g w t with
  | nil =>
      refine ⟨?_, rfl, ?_, rfl⟩
      · rw [consumed, lastToken, List.foldl_nil, ← hw.counter, Function.update_eq_self]
        rfl
      · split <;> rfl
  | cons frame frames ih =>
      cases hdec : decision d frame with
      | some b =>
          -- the call ends here
          have hround := handleResponse_of_decision hw frame hdec
          have hlast : lastToken d [frame] t = t := syncToken_of_decision t hdec
          rw [consumed_of_decision frames hdec, beforeResend_of_decision frames hdec,
            result_of_decision frames hdec, hlast, ← hw.counter, Function.update_eq_self]
          simp only [send, hround, Option.toList_none, List.map_nil, ite_self, and_self]
      | none =>
          obtain ⟨g', w', hround, hcarries, hallow, hsend, hrecv⟩ :=
            handleResponse_of_not_decision hm hw frame hdec
          have hupdate : ∀ x, Function.update g'.sendTokens d x =
              Function.update g.sendTokens d x := by
            intro x
            rw [hsend, Function.update_idem]
          rw [consumed_of_not_decision frames hdec, lastToken_cons,
            result_of_not_decision frames hdec]
          by_cases hresend : Asks d typeMaskResend frame
          · have hbefore := beforeResend_of_asks frames hdec hresend
            by_cases hallowed : w.allowResend = true
            · -- the message goes out again, and no third time
              obtain ⟨h₁, h₂, h₃, h₄⟩ := ih (w := { w' with allowResend := false })
                ⟨hcarries.address, hcarries.size, hcarries.flags, hcarries.payload,
                  hcarries.counter, hcarries.token⟩
              rw [if_pos ⟨hresend, hallowed⟩] at hround
              have hpacket := hcarries.transmit_eq hm
              simp only [send, hround, hbefore, if_pos hallowed]
              refine ⟨h₁.trans (hupdate _), h₂.trans hrecv, ?_, h₄⟩
              rw [h₃, hpacket, if_neg (by simp), Option.toList_some, List.map_singleton]
              rfl
            · obtain ⟨h₁, h₂, h₃, h₄⟩ := ih hcarries
              rw [if_neg fun h => hallowed h.2] at hround
              rw [hallow, if_neg hallowed] at h₃
              simp only [send, hround, if_neg hallowed]
              exact ⟨h₁.trans (hupdate _), h₂.trans hrecv, h₃, h₄⟩
          · have hbefore := beforeResend_of_not_asks frames hdec hresend
            obtain ⟨h₁, h₂, h₃, h₄⟩ := ih hcarries
            rw [if_neg fun h => hresend h.1] at hround
            rw [hallow] at h₃
            simp only [send, hround, hbefore]
            refine ⟨h₁.trans (hupdate _), h₂.trans hrecv, h₃.trans ?_, h₄⟩
            cases beforeResend d frames with
            | none => simp only [Option.map_none, Option.toList_none, List.map_nil]
            | some before =>
                simp only [Option.map_some, Option.toList_some, List.map_cons, List.map_nil,
                  lastToken_cons]

/-- What a call waits with after its first transmission. -/
theorem sendWithAck_carries (dev : Device) (g : Globals) (d : UInt8) {msg : Mem UInt8}
    (encrypted : Mem UInt8) {m : List UInt8} (hm : m.length ≤ 77)
    (hmsg : cells msg m.length = m) :
    let c := sendWithAck dev g d msg (UInt8.ofNat m.length) encrypted
    let t := counter (nextSendToken tokenSize (g.sendTokens d))
    Carries dev c.1 c.2.2 d t m ∧ c.2.2.allowResend = true ∧
      c.2.1 = transmit dev c.2.2.address c.2.2.msg c.2.2.msgSize c.2.2.flags ∧
      c.1.sendTokens = Function.update g.sendTokens d (nextSendToken tokenSize (g.sendTokens d)) ∧
      c.1.recvTokens = g.recvTokens := by
  have hlt := counter_nextSendToken_lt (g.sendTokens d)
  have hmax := tokenMax_toNat
  obtain ⟨encBuf, out, henc, hout⟩ := encrypt_spec dev.aes g encrypted d (m := m) (by omega) hmsg
  simp only [sendWithAck, henc]
  refine ⟨⟨rfl, rfl, rfl, hout, ?_, by omega⟩, trivial, trivial, trivial, trivial⟩
  rw [toInt32_ofNat_counter]
  exact Function.update_self _ _ _

/-- **One call, at most two copies.** For every message that fits a frame, every destination,
every token state and every sequence of frames in `response_queue`: the call transmits the
message under the incremented send counter, and a second time only if it is asked to before an
answer decides it, under the token of the last effective `SYNC` until then; the send counter of
the destination ends as the token of the last effective `SYNC` the call consumed, and no other
counter changes. -/
theorem sendWithAck_copies (dev : Device) (g : Globals) (d : UInt8) {msg : Mem UInt8}
    (encrypted : Mem UInt8) {m : List UInt8} (hm : m.length ≤ 77)
    (hmsg : cells msg m.length = m) (frames : List LoraFrame) :
    let c := sendWithAckOver dev g d msg (UInt8.ofNat m.length) encrypted frames
    let t := counter (nextSendToken tokenSize (g.sendTokens d))
    c.2.1.length ≤ 2 ∧
      c.2.1 = copyOf dev d m t :: (beforeResend d frames).toList.map
        (fun before => copyOf dev d m (lastToken d before t)) ∧
      c.1.sendTokens = Function.update g.sendTokens d
        (UInt32.ofNat (lastToken d (consumed d frames) t)).toInt32 ∧
      c.1.recvTokens = g.recvTokens ∧ c.2.2 = result d frames := by
  intro c t
  obtain ⟨hcarries, hallow, hfirst, hsend, hrecv⟩ :=
    sendWithAck_carries dev g d encrypted hm hmsg
  obtain ⟨h₁, h₂, h₃, h₄⟩ := send_spec hm frames hcarries
  rw [if_pos hallow] at h₃
  have hpackets : c.2.1 = copyOf dev d m t :: (beforeResend d frames).toList.map
      (fun before => copyOf dev d m (lastToken d before t)) :=
    congrArg₂ List.cons (hfirst.trans (hcarries.transmit_eq hm)) h₃
  refine ⟨?_, hpackets, ?_, h₂.trans hrecv, h₄⟩
  · rw [hpackets]
    cases beforeResend d frames with
    | none => exact Nat.le_succ 1
    | some before => exact le_refl 2
  · rw [hsend, Function.update_idem] at h₁
    exact h₁

/-- A poll of a node is one round of `send`: what the call does from there on is what `send`
does with the frame in front. -/
theorem poll_eq_send {dev : Device} {n n' : Node} {c : Call} {frame : LoraFrame} {tag : Tag}
    {rest : List (LoraFrame × Tag)} {packets : List Packet} {events : List Event}
    (happ : n.app = some c) (hqueue : n.responseQueue = (frame, tag) :: rest)
    (hpoll : Node.poll dev n = some (n', packets, events)) (frames : List LoraFrame) :
    (∃ c', n'.app = some c' ∧ n'.responseQueue = rest ∧
      send dev n.listener.globals c.waiting (frame :: frames) =
        let s := send dev n'.listener.globals c'.waiting frames
        (s.1, packets.map Packet.bytes ++ s.2.1, s.2.2)) ∨
    (n'.app = none ∧ n'.responseQueue = rest ∧
      ∃ result, events = [.returned c.tag result (some tag)] ∧
        send dev n.listener.globals c.waiting (frame :: frames) =
          (n'.listener.globals, packets.map Packet.bytes, result)) := by
  simp only [Node.poll, happ, hqueue] at hpoll
  cases hreply : (handleResponse dev.aes n.listener.globals c.waiting frame).2.2 with
  | returned result =>
      right
      simp only [hreply, Option.some.injEq, Prod.mk.injEq] at hpoll
      obtain ⟨rfl, rfl, rfl⟩ := hpoll
      refine ⟨rfl, rfl, result, rfl, ?_⟩
      simp only [send, hreply, List.map_nil]
  | wait =>
      left
      simp only [hreply, Option.some.injEq, Prod.mk.injEq] at hpoll
      obtain ⟨rfl, rfl, rfl⟩ := hpoll
      refine ⟨_, rfl, rfl, ?_⟩
      simp only [send, hreply, List.map_nil, List.nil_append]
  | resend =>
      left
      simp only [hreply, Option.some.injEq, Prod.mk.injEq] at hpoll
      obtain ⟨rfl, rfl, rfl⟩ := hpoll
      refine ⟨_, rfl, rfl, ?_⟩
      simp only [send, hreply, List.map_cons, List.map_nil, List.cons_append, List.nil_append]

/-- A frame from node `1` with a type byte and a token. -/
def answer (type : UInt8) (token : ℕ) : LoraFrame :=
  ⟨load ([0, 0, 1, type, 0, 4, 0] ++ toBytes 2 token) null, 9⟩

/-- Node `0` of two. -/
def zero : Device := (Config.direct 2 (Equiv.refl Block) Crc8.crc8).device 0

/-- A call at node `0` that finds a frame of a stranger, a `SYNC`, a `SYNC|RESEND`, another
`SYNC` and an `ACK`. -/
theorem sendWithAck_copies_resent :
    let g : Globals := ⟨fun _ => 0, fun _ => 0, null⟩
    let frames := [⟨load [0, 0, 3, typeMaskAck] null, 7⟩, answer typeMaskSync 9,
      answer (typeMaskSync ||| typeMaskResend) 5, answer typeMaskSync 6, answer typeMaskAck 0]
    let c := sendWithAckOver zero g 1 (load [7] null) 1 null frames
    c.2.1 = [copyOf zero 1 [7] 1, copyOf zero 1 [7] 5] ∧
      c.1.sendTokens 1 = 6 ∧ c.2.2 = true := by
  intro g frames c
  obtain ⟨-, hpackets, hsend, -, hresult⟩ := sendWithAck_copies zero g 1 null (m := [7])
    (by decide) (cells_load [7] null) frames
  exact ⟨hpackets, congrFun hsend 1, hresult⟩

end Copies

end LCore
