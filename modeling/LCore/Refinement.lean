import LCore.Correspondence

/-!
# The Code Follows the Protocol

Nodes that run the code and nodes that follow the protocol take the same steps.

The correspondence is exact: a label is enabled in the one network when it is enabled in the
other, and the logs are the same. So what is proved of the runs of the protocol holds of the
runs of the code, and a run of the protocol that breaks a property is a run of the code that
breaks it, whatever AES key and checksum are in use.

## Main results

* `simulates`: the two programs correspond.
* `run_refines`: so do whole runs.
-/

open Memory BigEndian

namespace LCore

namespace Refinement

open Protocol (Body)
open Encryption (counter sealed sealedSize)

variable {cfg : Config}

/-! ### The application -/

variable (cfg) in
/-- The results of corresponding actions. -/
def ResultRel (r : Node.Result) (r' : Protocol.Node.Result) : Prop :=
  NodeRel cfg r.1 r'.1 ∧ List.Forall₂ (PacketRel cfg) r.2.1 r'.2.1 ∧ r.2.2 = r'.2.2

variable {n : Node} {n' : Protocol.Node} {v : UInt8}

/-- A call does the same in the code and in the protocol. -/
theorem call_rel (hn : NodeRel cfg n n') (dest : UInt8) {m : List UInt8} (hm : m.length ≤ 77)
    (encrypted : Mem UInt8) :
    Option.Rel (ResultRel cfg) (Node.call (cfg.device v) n dest m encrypted)
      (Protocol.Node.call (routes cfg) v n' dest m) := by
  have hmax : tokenMax.toNat = 65535 := Encryption.tokenMax_toNat
  have happ := hn.app
  rw [Node.call, Protocol.Node.call]
  revert happ
  generalize n.app = app
  generalize n'.app = app'
  rintro (hcall | _)
  · exact .none
  · by_cases hok : dest.toNat < cfg.netSize ∧ m.length < 256
    · have hs : counter (n.listener.globals.sendTokens dest) < tokenMax.toNat := by
        rw [hn.sendToken]
        exact hn.sendBound dest
      have hshort : m.length < 110 := by omega
      obtain ⟨encBuf, msg, henc, hmsg⟩ := Encryption.encrypt_spec cfg.aes n.listener.globals
        encrypted dest hshort (cells_load m null)
      set token := (n'.sendToken dest + 1) % tokenMax.toNat with htoken
      have hcounter : counter (Encryption.nextSendToken tokenSize
          (n.listener.globals.sendTokens dest)) = token := by
        rw [Encryption.counter_nextSendToken_eq hs, hn.sendToken]
      have hlt : token < tokenMax.toNat := Nat.mod_lt _ (by omega)
      rw [hcounter] at hmsg
      have hpacket := packetRel_transmit_sealed cfg v dest (v, n'.calls) hmsg ⟨hlt, hm⟩
      have henc' : Encryption.encrypt (cfg.device v).aes n.listener.globals (load m null)
          (UInt8.ofNat m.length) encrypted dest = _ := henc
      have hok' : dest.toNat < (routes cfg).netSize ∧ m.length < 256 := hok
      dsimp only
      rw [if_pos hok', if_pos (by exact hok)]
      simp only [sendWithAck, henc', hn.calls]
      refine .some ⟨⟨fun a => ?_, fun a => ?_, hn.recvToken, hn.recvBound, hn.newFrameQueue,
        hn.responseQueue, hn.task, .some ?_, rfl⟩, .cons hpacket .nil, ?_⟩
      · exact counter_update hn.sendToken dest hcounter a
      · exact update_lt hn.sendBound dest hlt a
      · exact ⟨rfl, hmsg, rfl, rfl, rfl, rfl, hlt, hm⟩
      · exact congrArg (fun e => [e, _]) hpacket.event
    · have hok' : ¬ (dest.toNat < (routes cfg).netSize ∧ m.length < 256) := hok
      dsimp only
      rw [if_neg hok', if_neg (by exact hok)]
      exact .none

/-! #### Answers -/

section Answer

variable (aes : Aes) (g : Encryption.Globals) (w : Waiting) {frame : LoraFrame} {send : UInt8}
  {body : Body}

/-- An answer from another node is ignored. -/
theorem handleResponse_of_ne (hframe : ResponseRel frame send body) (h : send ≠ w.address) :
    handleResponse aes g w frame = (g, w, .wait) := by
  rw [handleResponse, hframe.send, if_neg h]

/-- An `ACK` ends the call. -/
theorem handleResponse_ack (hframe : ResponseRel frame w.address .ack) :
    handleResponse aes g w frame = (g, w, .returned true) := by
  rw [handleResponse, if_pos hframe.send, hframe.type, if_pos (by decide)]

/-- An `ERROR` ends it too. -/
theorem handleResponse_error (hframe : ResponseRel frame w.address .error) :
    handleResponse aes g w frame = (g, w, .returned false) := by
  rw [handleResponse, if_pos hframe.send, hframe.type, if_neg (by decide), if_pos (by decide)]

/-- A `RESEND` is followed once. -/
theorem handleResponse_resend (hframe : ResponseRel frame w.address .resend) :
    handleResponse aes g w frame = (g, w, if w.allowResend then .resend else .wait) := by
  have hsync : ¬ Body.resend.flags &&& typeMaskSync ≠ 0 := by decide
  have hresend : Body.resend.flags &&& typeMaskResend ≠ 0 := by decide
  rw [handleResponse, if_pos hframe.send, hframe.type, if_neg (by decide), if_neg (by decide),
    if_neg hsync]
  by_cases h : w.allowResend = true
  · rw [if_pos ⟨hresend, h⟩, if_pos h]
  · rw [if_neg (fun hand => h hand.2), if_neg h]

/-- A `SYNC` puts its token under the message, and is followed once. -/
theorem handleResponse_sync {u t : ℕ} {m : List UInt8}
    (hframe : ResponseRel frame w.address (.sync u))
    (hmsg : cells w.msg (sealedSize m.length) = sealed aes t m)
    (hsize : w.msgSize = UInt8.ofNat (sealedSize m.length)) (hm : m.length ≤ 77) :
    ∃ encBuf msg, cells msg (sealedSize m.length) = sealed aes u m ∧
      handleResponse aes g w frame =
        (⟨Function.update g.sendTokens w.address (UInt32.ofNat u).toInt32, g.recvTokens, encBuf⟩,
          { w with msg := msg }, if w.allowResend then .resend else .wait) := by
  have hu : u < tokenMax.toNat := hframe.fits
  have hmax : tokenMax.toNat = 65535 := Encryption.tokenMax_toNat
  have hshort : m.length < 110 := by omega
  have htoken : u < 2 ^ 16 := by omega
  obtain ⟨encBuf, msg, hswap, hsealed⟩ := Encryption.swapToken_sealed aes g w.address hshort
    htoken hmsg (hframe.token u rfl)
  refine ⟨encBuf, msg, hsealed, ?_⟩
  have htype : frame.buf framePosType = typeMaskSync ||| typeMaskResend := hframe.type
  rw [← hsize] at hswap
  rw [handleResponse, if_pos hframe.send, htype, if_neg (by decide), if_neg (by decide),
    if_pos syncResend_and_sync, hswap]
  by_cases h : w.allowResend = true
  · rw [if_pos ⟨syncResend_and_resend, h⟩, if_pos h]
  · rw [if_neg (fun hand => h hand.2), if_neg h]

end Answer

/-- The call's last transmission. -/
theorem resend_rel (hn : NodeRel cfg n n') {w : Waiting} {tag : Tag} {c' : Protocol.Call}
    (hcall : CallRel cfg ⟨w, tag⟩ c') :
    ResultRel cfg
      ({ n with app := some ⟨{ w with allowResend := false }, tag⟩ },
        [⟨transmit (cfg.device v) w.address w.msg w.msgSize w.flags, v, tag⟩],
        [Packet.event ⟨transmit (cfg.device v) w.address w.msg w.msgSize w.flags, v, tag⟩])
      (Protocol.Node.resend (routes cfg) v n' c') := by
  have htag : tag = c'.tag := hcall.tag
  have hpacket : PacketRel cfg ⟨transmit (cfg.device v) w.address w.msg w.msgSize w.flags, v, tag⟩
      (Protocol.newPacket (routes cfg) v c'.dest (.data c'.token c'.m) c'.tag) := by
    have := packetRel_transmit_sealed cfg v c'.dest c'.tag hcall.msg hcall.fits
    rw [← hcall.size, ← hcall.dest, ← hcall.flags] at this
    rw [htag, ← hcall.dest]
    exact this
  refine ⟨{ hn with app := .some { hcall with allowResend := rfl } }, .cons hpacket .nil, ?_⟩
  rw [hpacket.event]
  rfl

/-- A `SYNC` sets the token of the call in progress on both sides. -/
theorem swapped_rel (hn : NodeRel cfg n n') {w : Waiting} {tag : Tag} {c' : Protocol.Call}
    (hcall : CallRel cfg ⟨w, tag⟩ c') {u : ℕ} (hu : u < tokenMax.toNat) (encBuf : Mem UInt8)
    {msg : Mem UInt8}
    (hmsg : cells msg (sealedSize c'.m.length) = sealed cfg.aes u c'.m) :
    CallRel cfg ⟨{ w with msg := msg }, tag⟩ { c' with token := u } ∧
      NodeRel cfg
        { n with
          listener := ⟨n.listener.frame,
            ⟨Function.update n.listener.globals.sendTokens w.address (UInt32.ofNat u).toInt32,
              n.listener.globals.recvTokens, encBuf⟩⟩
          app := some ⟨{ w with msg := msg }, tag⟩ }
        { n' with
          sendToken := Function.update n'.sendToken c'.dest u
          app := some { c' with token := u } } := by
  have hdest : w.address = c'.dest := hcall.dest
  have hmax : tokenMax.toNat = 65535 := Encryption.tokenMax_toNat
  have hcounter : counter (UInt32.ofNat u).toInt32 = u := by
    rw [Encryption.counter_toInt32, UInt32.toNat_ofNat']
    omega
  have hcall' : CallRel cfg ⟨{ w with msg := msg }, tag⟩ { c' with token := u } :=
    { hcall with msg := hmsg, fits := ⟨hu, hcall.fits.2⟩ }
  exact ⟨hcall', { hn with
    sendToken := by rw [hdest]; exact counter_update hn.sendToken _ hcounter
    sendBound := update_lt hn.sendBound _ hu
    app := .some hcall' }⟩

/-- So does a poll, whatever is in the queue. -/
theorem poll_rel (hn : NodeRel cfg n n') :
    Option.Rel (ResultRel cfg) (Node.poll (cfg.device v) n)
      (Protocol.Node.poll (routes cfg) v n') := by
  have happ := hn.app
  have hqueue := hn.responseQueue
  rw [Node.poll, Protocol.Node.poll]
  revert happ hqueue
  generalize n.app = app
  generalize n'.app = app'
  generalize n.responseQueue = queue
  generalize n'.responseQueue = queue'
  rintro (hcall | _) hqueue
  · cases hqueue with
    | nil => exact .none
    | cons hhead hrest =>
        rename_i c c' head head' rest rest'
        obtain ⟨w, callTag⟩ := c
        obtain ⟨frame, tag⟩ := head
        obtain ⟨send, body, tag'⟩ := head'
        obtain ⟨hframe, htag⟩ := hhead
        dsimp only at hframe htag ⊢
        subst htag
        have hdest : w.address = c'.dest := hcall.dest
        have hcallTag : callTag = c'.tag := hcall.tag
        -- the node with the entry gone, and the call still waiting
        have hrest : NodeRel cfg { n with app := some ⟨w, callTag⟩, responseQueue := rest }
            { n' with app := some c', responseQueue := rest' } :=
          { hn with responseQueue := hrest, app := .some hcall }
        by_cases hsend : send = c'.dest
        · rw [if_pos hsend]
          rw [hsend, ← hdest] at hframe
          cases body with
          | ack =>
              rw [handleResponse_ack _ _ _ hframe]
              exact .some ⟨{ hrest with app := .none }, .nil, by rw [hcallTag]⟩
          | error =>
              rw [handleResponse_error _ _ _ hframe]
              exact .some ⟨{ hrest with app := .none }, .nil, by rw [hcallTag]⟩
          | data t m => exact absurd rfl (hframe.answer t m)
          | resend =>
              rw [handleResponse_resend _ _ _ hframe]
              have hallow : w.allowResend = c'.allowResend := hcall.allowResend
              by_cases h : w.allowResend = true
              · rw [if_pos h, if_pos (hallow ▸ h)]
                exact .some (resend_rel hrest hcall)
              · rw [if_neg h, if_neg (hallow ▸ h)]
                exact .some ⟨hrest, .nil, rfl⟩
          | sync u =>
              obtain ⟨encBuf, msg, hmsg, heq⟩ := handleResponse_sync cfg.aes n.listener.globals w
                hframe hcall.msg hcall.size hcall.fits.2
              obtain ⟨hcall', hswapped⟩ := swapped_rel hrest hcall hframe.fits encBuf hmsg
              have hallow : w.allowResend = c'.allowResend := hcall.allowResend
              have heq' : handleResponse (cfg.device v).aes n.listener.globals w frame = _ := heq
              rw [heq']
              dsimp only
              by_cases h : w.allowResend = true
              · rw [if_pos h, if_pos (hallow ▸ h)]
                exact .some (resend_rel hswapped hcall')
              · rw [if_neg h, if_neg (hallow ▸ h)]
                exact .some ⟨hswapped, .nil, rfl⟩
        · rw [if_neg hsend, handleResponse_of_ne _ _ _ hframe (by rw [hdest]; exact hsend)]
          exact .some ⟨hrest, .nil, rfl⟩
  · cases hqueue with
    | nil => exact .none
    | cons hhead hrest => exact .none

/-- So does running out of time. -/
theorem timeout_rel (hn : NodeRel cfg n n') :
    Option.Rel (ResultRel cfg) (Node.timeout n) (Protocol.Node.timeout n') := by
  have happ := hn.app
  rw [Node.timeout, Protocol.Node.timeout]
  revert happ
  generalize n.app = app
  generalize n'.app = app'
  rintro (hcall | _)
  · exact .some ⟨{ hn with app := .none }, .nil, by rw [hcall.tag]⟩
  · exact .none

/-- So does taking a message. -/
theorem take_rel (hn : NodeRel cfg n n') :
    Option.Rel (ResultRel cfg) (Node.take (cfg.device v) n) (Protocol.Node.take v n') := by
  have hqueue := hn.newFrameQueue
  rw [Node.take, Protocol.Node.take]
  revert hqueue
  generalize n.newFrameQueue = queue
  generalize n'.newFrameQueue = queue'
  rintro (_ | ⟨⟨hentry, -⟩, hrest⟩)
  · exact .none
  · refine .some ⟨{ hn with newFrameQueue := hrest }, .nil, ?_⟩
    rw [hentry.send, hentry.content]
    rfl

/-! ### The listener -/

/-- So does `xQueueSend`. -/
theorem xQueueSend_rel {α β : Type*} {R : α → β → Prop} {queue : List α} {queue' : List β}
    (hqueue : List.Forall₂ R queue queue') (item : α) (item' : β) (hitem : R item item') :
    (xQueueSend queue item).1 = (xQueueSend queue' item').1 ∧
      List.Forall₂ R (xQueueSend queue item).2 (xQueueSend queue' item').2 := by
  rw [xQueueSend, xQueueSend, hqueue.length_eq]
  split
  · exact ⟨rfl, List.rel_append hqueue (.cons hitem .nil)⟩
  · exact ⟨rfl, hqueue⟩

/-- The answers to a message are new packets of the protocol. -/
theorem answers_rel (cfg : Config) (v : UInt8) {entry : NewMsg} {send : UInt8}
    (hsend : entry.address = send) (put : Bool) (tag : Tag) :
    List.Forall₂ (PacketRel cfg)
      ((answers (cfg.device v) put entry typeMaskNeedAck).map fun bytes => ⟨bytes, v, tag⟩)
      (if put then [Protocol.newPacket (routes cfg) v send .ack tag]
        else [Protocol.newPacket (routes cfg) v send .error tag,
          Protocol.newPacket (routes cfg) v send .ack tag]) := by
  subst hsend
  have hack := packetRel_transmit_null cfg v entry.address tag .ack rfl trivial
  have herror := packetRel_transmit_null cfg v entry.address tag .error rfl trivial
  cases put with
  | false => exact .cons herror (.cons hack .nil)
  | true => exact .cons hack .nil

/-- So does putting an entry into a queue. -/
theorem put_rel (hn : NodeRel cfg n n') :
    Option.Rel (ResultRel cfg) (Node.put (cfg.device v) n)
      (Protocol.Node.put (routes cfg) v n') := by
  have htask := hn.task
  rw [Node.put, Protocol.Node.put]
  revert htask
  generalize n.task = task
  generalize n'.task = task'
  rintro (_ | @⟨_, _, tag, hentry⟩ | _)
  · exact .none
  · cases hentry with
    | response hframe =>
        have hsent := xQueueSend_rel hn.responseQueue (_, tag) (_, _, tag) ⟨hframe, rfl⟩
        exact .some ⟨{ hn with responseQueue := hsent.2, task := .polling }, .nil, rfl⟩
    | message hmessage =>
        have hsent := xQueueSend_rel hn.newFrameQueue (_, tag) (_, _, tag) ⟨hmessage, rfl⟩
        dsimp only
        revert hsent
        generalize xQueueSend n.newFrameQueue (_, tag) = q
        generalize xQueueSend n'.newFrameQueue (_, _, tag) = q'
        rintro ⟨hput, hqueue⟩
        rw [← hput, hmessage.content, hmessage.send]
        have hanswers := answers_rel cfg v hmessage.send q.1 tag
        refine .some ⟨{ hn with newFrameQueue := hqueue, task := ?_ }, .nil, rfl⟩
        revert hanswers
        cases q.1 with
        | false => exact TaskRel.owing
        | true => exact TaskRel.owing
  · exact .none

/-- So does transmitting a packet. -/
theorem transmit_rel (hn : NodeRel cfg n n') :
    Option.Rel (ResultRel cfg) (Node.transmit n) (Protocol.Node.transmit n') := by
  have htask := hn.task
  rw [Node.transmit, Protocol.Node.transmit]
  revert htask
  generalize n.task = task
  generalize n'.task = task'
  rintro (_ | _ | hpackets)
  · exact .none
  · exact .none
  · cases hpackets with
    | nil => exact .none
    | cons hpacket hrest =>
        exact .some ⟨{ hn with task := TaskRel.owing hrest }, .cons hpacket .nil,
          by rw [hpacket.event]⟩

variable (cfg) in
/-- The listener's state and what it does next. -/
structure ListenRel (l : Listener) (r : Listener × Task) (r' : (UInt8 → ℕ) × Protocol.Task) :
    Prop where
  sendTokens : r.1.globals.sendTokens = l.globals.sendTokens
  recvToken : ∀ a, counter (r.1.globals.recvTokens a) = r'.1 a
  recvBound : ∀ a, r'.1 a < tokenMax.toNat
  task : TaskRel cfg r.2 r'.2

/-- An answer has a flag of a response. -/
theorem flags_and_responseMask {body : Body} (h : ∀ t m, body ≠ .data t m) :
    body.flags &&& responseMask ≠ 0 := by
  cases body with
  | data t m => exact absurd rfl (h t m)
  | ack => decide
  | error => decide
  | resend => decide
  | sync u => exact show (typeMaskSync ||| typeMaskResend) &&& responseMask ≠ 0 by decide

/-- A frame relayed by the code is a packet relayed by the protocol. -/
theorem packetRel_relayed {p : Packet} {q : Protocol.Packet} (hp : PacketRel cfg p q) :
    PacketRel cfg ⟨frameBytes cfg.crc (UInt8.ofInt (cfg.tables v q.dest)) q.dest q.send
        q.body.flags (q.ttl - 1) (payload cfg.aes q.body), v, p.tag⟩
      (Protocol.relayed (routes cfg) v q) :=
  ⟨rfl, rfl, hp.tag, hp.fits⟩

/-- A data frame for this node. -/
theorem listen_data_rel (hn : NodeRel cfg n n') (send ttl : UInt8) (tag : Tag) {t : ℕ}
    {m : List UInt8} (hfits : t < tokenMax.toNat ∧ m.length ≤ 77) (locals : Node.Locals) :
    let r := listen (cfg.device v) n.listener locals.message locals.token
      (frameBytes cfg.crc v v send typeMaskNeedAck ttl (sealed cfg.aes t m))
    ListenRel cfg n.listener (r.1, Node.next v tag r.2)
      (if Encryption.InWindow (n'.recvToken send) t then
        (Function.update n'.recvToken send t, .queueing (.message send m) tag)
      else (n'.recvToken, .sending [Protocol.newPacket (routes cfg) v send
        (.sync ((n'.recvToken send + 1) % tokenMax.toNat)) tag])) := by
  have hmax : tokenMax.toNat = 65535 := Encryption.tokenMax_toNat
  have hrecv := hn.recvBound send
  rw [← hn.recvToken] at hrecv
  obtain ⟨frame, encBuf, out, hout, heq⟩ := listen_frameBytes_data (cfg.device v) n.listener
    locals.message locals.token send typeMaskNeedAck ttl hfits.2 (show t < 2 ^ 16 by omega)
    (by decide) hrecv
  have hcounter : counter (UInt32.ofNat t).toInt32 = t := by
    rw [Encryption.counter_toInt32, UInt32.toNat_ofNat']
    omega
  intro r
  have hr : r = _ := heq
  rw [hn.recvToken] at hr
  rw [hr]
  by_cases hw : Encryption.InWindow (n'.recvToken send) t
  · rw [if_pos hw, if_pos hw]
    have hsize : (UInt8.ofNat m.length).toNat = m.length := by
      rw [UInt8.toNat_ofNat']
      omega
    refine ⟨rfl, counter_update hn.recvToken send hcounter, update_lt hn.recvBound send hfits.1,
      .queueing (.message ⟨rfl, ?_⟩)⟩
    dsimp only
    rw [hsize, hout]
  · rw [if_neg hw, if_neg hw]
    have hlt : (n'.recvToken send + 1) % tokenMax.toNat < tokenMax.toNat :=
      Nat.mod_lt _ (by omega)
    exact ⟨rfl, hn.recvToken, hn.recvBound, .sending (.cons ⟨rfl, rfl, rfl, hlt⟩ .nil)⟩

/-- What comes out of a received answer. -/
theorem responseRel_of_holds {frame : LoraFrame} {next dest send ttl : UInt8} {body : Body}
    (hfits : Fits body) (hanswer : ∀ t m, body ≠ .data t m)
    (hf : Holds frame
      (frameBytes cfg.crc next dest send body.flags ttl (payload cfg.aes body))) :
    ResponseRel frame send body := by
  have hlen : (payload cfg.aes body).length ≤ 80 := length_payload_le hfits
  refine ⟨hf.get (i := 2) (by simp; omega), hf.get (i := 3) (by simp; omega), ?_, hfits, hanswer⟩
  rintro t rfl
  have hcells := hf.cells_payload (by simp)
  have hdrop : (frameBytes cfg.crc next dest send (Body.sync t).flags ttl
      (payload cfg.aes (.sync t))).drop 7 = toBytes tokenSize.toNat t := rfl
  rwa [hdrop, length_toBytes] at hcells

/-- The listener makes the same of a packet in the code and in the protocol. -/
theorem listen_rel (hn : NodeRel cfg n n') {p : Packet} {q : Protocol.Packet}
    (hp : PacketRel cfg p q) (locals : Node.Locals) :
    ListenRel cfg n.listener
      ((listen (cfg.device v) n.listener locals.message locals.token p.bytes).1,
        Node.next v p.tag
          (listen (cfg.device v) n.listener locals.message locals.token p.bytes).2)
      (Protocol.Node.listen (routes cfg) v n' q) := by
  have hlen : (payload cfg.aes q.body).length ≤ 80 := length_payload_le hp.fits
  rw [hp.bytes, hp.tag, Protocol.Node.listen]
  by_cases hnext : q.next = v
  · rw [if_pos hnext]
    by_cases hdest : q.dest = v
    · rw [if_pos hdest, hnext, hdest]
      by_cases hdata : ∃ t m, q.body = .data t m
      · obtain ⟨t, m, hbody⟩ := hdata
        have hfits := hp.fits
        rw [hbody] at hfits ⊢
        exact listen_data_rel hn q.send q.ttl q.tag hfits locals
      · have hanswer : ∀ t m, q.body ≠ .data t m := fun t m h => hdata ⟨t, m, h⟩
        obtain ⟨frame, hholds, heq⟩ := listen_frameBytes_response (cfg.device v) n.listener
          locals.message locals.token q.send q.body.flags q.ttl
          (show (payload cfg.aes q.body).length ≤ 96 by omega) (flags_and_responseMask hanswer)
        have heq' : listen (cfg.device v) n.listener locals.message locals.token
          (frameBytes cfg.crc v v q.send q.body.flags q.ttl (payload cfg.aes q.body)) =
            (⟨frame, n.listener.globals⟩, .response frame) := heq
        have hframe : ResponseRel frame q.send q.body :=
          responseRel_of_holds hp.fits hanswer hholds
        rw [heq']
        revert hframe hanswer
        cases q.body with
        | data t m => exact fun hanswer _ => absurd rfl (hanswer t m)
        | _ =>
            exact fun _ hframe =>
              ⟨rfl, hn.recvToken, hn.recvBound, .queueing (.response hframe)⟩
    · obtain ⟨frame, heq⟩ := listen_frameBytes_relay (cfg.device v) n.listener locals.message
        locals.token q.dest q.send q.body.flags q.ttl
        (show (payload cfg.aes q.body).length ≤ 96 by omega) hdest
      have heq' : listen (cfg.device v) n.listener locals.message locals.token
          (frameBytes cfg.crc v q.dest q.send q.body.flags q.ttl (payload cfg.aes q.body)) =
        (⟨frame, n.listener.globals⟩, if q.dest.toNat < (routes cfg).netSize ∧ q.ttl ≠ 0 then
          .forwarded (frameBytes cfg.crc (UInt8.ofInt (cfg.tables v q.dest)) q.dest q.send
            q.body.flags (q.ttl - 1) (payload cfg.aes q.body))
          else .nothing) := heq
      rw [if_neg hdest, hnext, heq']
      by_cases hok : q.dest.toNat < (routes cfg).netSize ∧ q.ttl ≠ 0
      · rw [if_pos hok, if_pos hok]
        have hrelayed := packetRel_relayed (v := v) hp
        rw [hp.tag] at hrelayed
        exact ⟨rfl, hn.recvToken, hn.recvBound, .sending (.cons hrelayed .nil)⟩
      · rw [if_neg hok, if_neg hok]
        exact ⟨rfl, hn.recvToken, hn.recvBound, .polling⟩
  · rw [if_neg hnext]
    obtain ⟨frame, heq⟩ := listen_of_next_ne (cfg.device v) n.listener locals.message
      locals.token (p := frameBytes cfg.crc q.next q.dest q.send q.body.flags q.ttl
        (payload cfg.aes q.body)) (by simp) (by rw [length_frameBytes]; omega) hnext
    rw [heq]
    exact ⟨rfl, hn.recvToken, hn.recvBound, .polling⟩

/-- So it hears the same. -/
theorem hear_rel (hn : NodeRel cfg n n') {p : Packet} {q : Protocol.Packet}
    (hp : PacketRel cfg p q) (locals : Node.Locals) :
    Option.Rel (fun r r' => NodeRel cfg r.1 r'.1 ∧ r.2 = r'.2)
      (Node.hear (cfg.device v) n p locals) (Protocol.Node.hear (routes cfg) v n' q) := by
  have htask := hn.task
  have hlisten := listen_rel (v := v) hn hp locals
  rw [Node.hear, Protocol.Node.hear]
  revert htask
  generalize n.task = task
  generalize n'.task = task'
  rintro (_ | _ | _)
  · refine .some ⟨{ hn with
      sendToken := fun a => ?_
      recvToken := hlisten.recvToken
      recvBound := hlisten.recvBound
      task := hlisten.task }, rfl⟩
    rw [← hn.sendToken a]
    exact congrArg (fun f => counter (f a)) hlisten.sendTokens
  · exact .none
  · exact .none

/-! ### Networks -/

/-- **The code follows the protocol.** -/
theorem simulates (cfg : Config) :
    Network.Simulates (machine cfg) (Protocol.machine (routes cfg))
      (fun _ => NodeRel cfg) (PacketRel cfg) Action.Fits where
  act v n n' i hn hi := by
    have hrel : Option.Rel (ResultRel cfg) (Node.act (cfg.device v) n i)
        (Protocol.Node.act (routes cfg) v n' i) := by
      cases i with
      | call dest m encrypted => exact call_rel hn dest hi encrypted
      | poll => exact poll_rel hn
      | timeout => exact timeout_rel hn
      | take => exact take_rel hn
      | put => exact put_rel hn
      | transmit => exact transmit_rel hn
    show Option.Rel _ (if v.toNat < cfg.netSize then _ else none)
      (if v.toNat < cfg.netSize then _ else none)
    split
    · exact hrel
    · exact .none
  hear v n n' p q locals hn hp := hear_rel hn hp locals
  audible v p q hp := by
    rw [Bool.eq_iff_iff, machine_audible, Protocol.machine_audible, hp.origin]
    rfl
  consumes v p q hp := by
    simp only [machine, Protocol.machine, hp.bytes]
    rfl

/-- Networks that correspond. -/
abbrev NetRel (cfg : Config) : LoraNet → Protocol.Net → Prop :=
  Network.Related (fun _ => NodeRel cfg) (PacketRel cfg)

/-- What the listeners have to transmit corresponds. -/
theorem TaskRel.packets {task : Task} {task' : Protocol.Task} (h : TaskRel cfg task task') :
    List.Forall₂ (PacketRel cfg) task.packets task'.packets := by
  cases h with
  | polling => exact .nil
  | queueing hentry => exact .nil
  | sending hpackets => exact hpackets

/-- For a packet under way in the protocol there is one in the code. -/
theorem inFlight_rel {net : LoraNet} {net' : Protocol.Net} (h : NetRel cfg net net')
    {q : Protocol.Packet} (hq : Protocol.InFlight net' q) :
    ∃ p, InFlight net p ∧ PacketRel cfg p q := by
  rcases hq with hair | ⟨v, hv⟩
  · obtain ⟨p, hp, hrel⟩ := Network.exists_of_forall₂ h.air hair
    exact ⟨p, .inl hp, hrel⟩
  · obtain ⟨p, hp, hrel⟩ := Network.exists_of_forall₂ (h.nodes v).task.packets hv
    exact ⟨p, .inr ⟨v, hp⟩, hrel⟩

/-- The same from the code. -/
theorem exists_protocol_inFlight {net : LoraNet} {net' : Protocol.Net} (h : NetRel cfg net net')
    {p : Packet} (hp : InFlight net p) :
    ∃ q, Protocol.InFlight net' q ∧ PacketRel cfg p q := by
  rcases hp with hair | ⟨v, hv⟩
  · obtain ⟨q, hq, hrel⟩ := Network.exists_of_forall₂ (List.Forall₂.flip h.air) hair
    exact ⟨q, .inl hq, hrel⟩
  · obtain ⟨q, hq, hrel⟩ :=
      Network.exists_of_forall₂ (List.Forall₂.flip (h.nodes v).task.packets) hv
    exact ⟨q, .inr ⟨v, hq⟩, hrel⟩

/-- There is room in the queue of the code when there is in that of the protocol. -/
theorem hasRoom_rel {net : LoraNet} {net' : Protocol.Net} (h : NetRel cfg net net') (l : Step) :
    hasRoom net l = Protocol.hasRoom net' l := by
  have hnode : ∀ v, (net.nodes v).hasRoom = (net'.nodes v).hasRoom := by
    intro v
    have htask := (h.nodes v).task
    have hnew := (h.nodes v).newFrameQueue.length_eq
    have hresponse := (h.nodes v).responseQueue.length_eq
    rw [Node.hasRoom, Protocol.Node.hasRoom, hnew, hresponse]
    revert htask
    generalize (net.nodes v).task = task
    generalize (net'.nodes v).task = task'
    rintro (_ | hentry | _)
    · rfl
    · cases hentry with
      | response => rfl
      | message => rfl
    · rfl
  cases l with
  | act v i =>
      cases i with
      | put => exact hnode v
      | _ => rfl
  | _ => rfl

/-- The two networks correspond when they have booted. -/
theorem booted_rel (cfg : Config) (rnd : UInt8 → UInt8 → Fin tokenMax.toNat)
    (encBuf : UInt8 → Mem UInt8) :
    NetRel cfg (booted rnd encBuf) (Protocol.booted fun v a => rnd v a) := by
  have hmax : tokenMax.toNat = 65535 := Encryption.tokenMax_toNat
  refine ⟨fun v => ⟨fun a => rfl, fun a => ?_, fun a => ?_, fun a => (rnd v a).isLt, .nil, .nil,
    .polling, .none, rfl⟩, .nil, rfl⟩
  · exact show 0 < tokenMax.toNat by omega
  · have hlt := (rnd v a).isLt
    show (UInt32.ofNat (rnd v a)).toNat = rnd v a
    rw [UInt32.toNat_ofNat']
    omega

/-- Corresponding networks take corresponding steps. -/
theorem step_refines (cfg : Config) (net : LoraNet) (net' : Protocol.Net) (l : Step)
    (hrel : NetRel cfg net net') (hl : l.Clean) :
    Option.Rel (NetRel cfg) (Network.step (machine cfg) net l)
      (Network.step (Protocol.machine (routes cfg)) net' l) :=
  Network.step_sim (simulates cfg) hrel hl

/-- A step that is possible in the protocol is possible for the code. -/
theorem step_ne_none {cfg : Config} {net : LoraNet} {net' : Protocol.Net} (h : NetRel cfg net net')
    {l : Step} (hl : l.Clean)
    (hstep : Network.step (Protocol.machine (routes cfg)) net' l ≠ none) :
    Network.step (machine cfg) net l ≠ none := by
  obtain ⟨next', hnext'⟩ := Option.ne_none_iff_exists'.mp hstep
  have hsim := step_refines cfg net net' l h hl
  rw [hnext'] at hsim
  obtain ⟨next, hnext, -⟩ := Lts.exists_of_rel_some hsim
  rw [hnext]
  exact Option.some_ne_none next

/-- **Refinement.** Runs of the code and runs of the protocol correspond. -/
theorem run_refines (cfg : Config) (rnd : UInt8 → UInt8 → Fin tokenMax.toNat)
    (encBuf : UInt8 → Mem UInt8) {ls : List Step} (hclean : ∀ l ∈ ls, l.Clean) :
    Option.Rel (NetRel cfg)
      (Lts.run (Network.step (machine cfg)) (booted rnd encBuf) ls)
      (Lts.run (Network.step (Protocol.machine (routes cfg)))
        (Protocol.booted fun v a => rnd v a) ls) :=
  Lts.run_sim (step_refines cfg) (booted_rel cfg rnd encBuf) hclean

/-- Every run of the code is a run of the protocol. -/
theorem exists_protocol_run (cfg : Config) {rnd : UInt8 → UInt8 → Fin tokenMax.toNat}
    {encBuf : UInt8 → Mem UInt8} {ls : List Step} (hclean : ∀ l ∈ ls, l.Clean) {net : LoraNet}
    (hrun : Lts.run (Network.step (machine cfg)) (booted rnd encBuf) ls = some net) :
    ∃ net', Lts.run (Network.step (Protocol.machine (routes cfg)))
      (Protocol.booted fun v a => rnd v a) ls = some net' ∧ NetRel cfg net net' := by
  have hrel := run_refines cfg rnd encBuf hclean
  rw [hrun] at hrel
  exact Lts.exists_of_some_rel hrel

/-- Every run of the protocol is a run of the code, with the same log. -/
theorem exists_code_run (cfg : Config) (rnd : UInt8 → UInt8 → Fin tokenMax.toNat)
    (encBuf : UInt8 → Mem UInt8) (log : List Event) {ls : List Step}
    (hclean : ∀ l ∈ ls, l.Clean)
    (hlog : (Lts.run (Network.step (Protocol.machine (routes cfg)))
      (Protocol.booted fun v a => rnd v a) ls).map (·.log) = some log) :
    ∃ net, Lts.run (Network.step (machine cfg)) (booted rnd encBuf) ls = some net ∧
      net.log = log := by
  obtain ⟨net', hrun', rfl⟩ := Option.map_eq_some_iff.mp hlog
  have hrel := run_refines cfg rnd encBuf hclean
  rw [hrun'] at hrel
  obtain ⟨net, hrun, hnet⟩ := Lts.exists_of_rel_some hrel
  exact ⟨net, hrun, hnet.log⟩

/-- Nodes that reach each other directly, whatever the AES key and the checksum: a run of the
protocol that ends in a state with some property, and the run of the code that corresponds. -/
theorem exists_direct_state (k : ℕ) (aes : Aes) (crc : List UInt8 → UInt8)
    (rnd : UInt8 → UInt8 → Fin tokenMax.toNat) (ls : List Step) (hclean : ∀ l ∈ ls, l.Clean)
    (P : Protocol.Net → Prop) [DecidablePred P]
    (hend : (Lts.run (Network.step (Protocol.machine ⟨k, fun _ dest => dest.toNat⟩))
      (Protocol.booted fun v a => rnd v a) ls).any (fun net => decide (P net)) = true) :
    ∃ net net', Lts.run (Network.step (machine (Config.direct k aes crc)))
        (booted rnd fun _ => null) ls = some net ∧
      Lts.run (Network.step (Protocol.machine ⟨k, fun _ dest => dest.toNat⟩))
        (Protocol.booted fun v a => rnd v a) ls = some net' ∧
      NetRel (Config.direct k aes crc) net net' ∧ P net' := by
  obtain ⟨net', hrun', hP⟩ := (Option.any_eq_true _ _).mp hend
  have hrel := run_refines (Config.direct k aes crc) rnd (fun _ => null) hclean
  have hrun : Lts.run (Network.step (Protocol.machine (routes (Config.direct k aes crc))))
      (Protocol.booted fun v a => rnd v a) ls = some net' := hrun'
  rw [hrun] at hrel
  obtain ⟨net, hnet, hrel⟩ := Lts.exists_of_rel_some hrel
  exact ⟨net, net', hnet, hrun', hrel, of_decide_eq_true hP⟩

/-- After a run of the protocol in which only nodes among `vs` take part, every listener polls if
those do. -/
theorem polling_of_run {routes : Protocol.Routes} {recvToken : UInt8 → UInt8 → ℕ} {ls : List Step}
    {vs : List UInt8} (hamong : ∀ l ∈ ls, ∀ v ∈ l.actor, v ∈ vs) {net : Protocol.Net}
    (hrun : Lts.run (Network.step (Protocol.machine routes)) (Protocol.booted recvToken) ls =
      some net) (hvs : ∀ v ∈ vs, (net.nodes v).task = .polling) (v : UInt8) :
    (net.nodes v).task = .polling := by
  by_cases hv : v ∈ vs
  · exact hvs v hv
  · rw [Network.nodes_of_run (fun l hl hactor => hv (hamong l hl v hactor)) hrun]
    rfl

/-- When every listener polls, what is under way is on the air. -/
theorem mem_air_of_polling {net : Protocol.Net} (hpolling : ∀ v, (net.nodes v).task = .polling)
    {q : Protocol.Packet} (hq : Protocol.InFlight net q) : q ∈ net.air := by
  refine hq.resolve_right ?_
  rintro ⟨v, hv⟩
  rw [hpolling v] at hv
  exact List.not_mem_nil hv

/-! ### Two nodes -/

/-- Two nodes that reach each other directly, whatever the AES key and the checksum: a run of
the protocol in which nothing is refused is one of the code. -/
theorem exists_direct_run (aes : Aes) (crc : List UInt8 → UInt8)
    (rnd : UInt8 → UInt8 → Fin tokenMax.toNat) (log : List Event) {ls : List Step}
    (hclean : ∀ l ∈ ls, l.Clean)
    (hroom : Lts.Along (Network.step (Protocol.machine ⟨2, fun _ dest => dest.toNat⟩))
      (fun net l => Protocol.hasRoom net l = true) (Protocol.booted fun v a => rnd v a) ls)
    (hlog : (Lts.run (Network.step (Protocol.machine ⟨2, fun _ dest => dest.toNat⟩))
      (Protocol.booted fun v a => rnd v a) ls).map (·.log) = some log) :
    Lts.Along (Network.step (machine (Config.direct 2 aes crc)))
        (fun net l => hasRoom net l = true) (booted rnd fun _ => null) ls ∧
      ∃ net, Lts.run (Network.step (machine (Config.direct 2 aes crc)))
        (booted rnd fun _ => null) ls = some net ∧ net.log = log := by
  have hbooted := booted_rel (Config.direct 2 aes crc) rnd fun _ => null
  exact ⟨Lts.along_sim_symm (step_refines _)
    (fun net net' l hrel _ h => (hasRoom_rel hrel l).trans h) hbooted hclean hroom,
    exists_code_run _ rnd _ log hclean hlog⟩

end Refinement

end LCore
