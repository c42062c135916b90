import LCore.Frame
import LCore.Lib.Crc8
import Mathlib.Data.List.GetD

/-!
# One Byte Changed in Flight

A frame travels from node to node and one of its bytes is changed on one of its hops. Relays
pass a frame on without looking at its checksum; the listener where it ends does. The checksum
is taken with the three address bytes, the hop counter and itself set to fixed values, so a
change of the type, the id, the checksum or the payload is caught, and a change of `NEXT` or of
the hop counter leads the frame astray but alters nothing a listener reads. `DEST` and `SEND`
are not protected: a frame with another destination is taken there, and a frame with another
sender is taken as coming from it.

## Main results

* `onAir_shape`: what can be on the air.
* `entry_of_crcOk`: a packet that passes the checksum test is as sent but for its address bytes
  and the hop counter.
* `corruption_caught`: the entries of both queues.
-/

open Memory

namespace LCore

namespace Corruption

/-- The only assumption on the checksum: it tells strings of one length apart that differ in
one byte. -/
def TellsBytesApart (crc : List UInt8 → UInt8) : Prop :=
  ∀ (l : List UInt8) (i : ℕ) (b : UInt8) (hi : i < l.length), b ≠ l[i] → crc (l.set i b) ≠ crc l

/-- The packet `p` is on the air, transmitted by node `u`, after the packet `p₀` of node `s`
was, and `c` is the position of the byte that was changed, if one was. Any node in range hears
a packet. -/
inductive OnAir (cfg : Config) (s : UInt8) (p₀ : List UInt8) :
    Option ℕ → UInt8 → List UInt8 → Prop
  | sent : OnAir cfg s p₀ none s p₀
  | changed {u : UInt8} {p : List UInt8} {i : ℕ} {b : UInt8} :
      OnAir cfg s p₀ none u p → (h : i < p.length) → b ≠ p[i] →
      OnAir cfg s p₀ (some i) u (p.set i b)
  | forwarded {c : Option ℕ} {u x : UInt8} {p q : List UInt8} {buf : Mem UInt8}
      {frame : LoraFrame} :
      OnAir cfg s p₀ c u p → x.toNat < cfg.netSize → x ≠ u →
      Routing.tryReceive (cfg.device x) buf p = (.forwarded, frame, some q) →
      OnAir cfg s p₀ c x q

/-- What an entry at node `x` with sender `send` and type `type` may say of a frame with type
`flags` that `s` sent to `d`, after the byte at position `c` was changed: nothing but the
sender and the node may differ, each only if its own byte was changed. -/
structure AsSent (s d flags : UInt8) (c : Option ℕ) (x send type : UInt8) : Prop where
  type : type = flags
  sender : c ≠ some 2 → send = s
  node : c ≠ some 1 → x = d

/-- The message `m` is what `decrypt` accepted of the bytes `payload` from the address
`m.address`, with the token state and the uninitialised locals of some listener. -/
def Decrypted (aes : Aes) (g : Encryption.Globals) (message : NewMsg) (payload : List UInt8)
    (m : NewMsg) : Prop :=
  ∃ encrypted, cells encrypted payload.length = payload ∧
    let r := Encryption.decrypt aes g encrypted (UInt8.ofNat payload.length) message.msg
      message.msgSize m.address
    r.1 = true ∧ m.msg = r.2.2.1 ∧ m.msgSize = r.2.2.2

/-- The frame that `s` sends to `d`, on its way. -/
def framed (cfg : Config) (s d flags : UInt8) (payload : List UInt8) (next ttl : UInt8) :
    List UInt8 :=
  frameBytes cfg.crc next d s flags ttl payload

section Journey

variable {cfg : Config} {s d flags : UInt8} {p₀ payload : List UInt8}

@[simp] theorem length_framed (next ttl : UInt8) :
    (framed cfg s d flags payload next ttl).length = 7 + payload.length :=
  length_frameBytes _ _ _ _ _ _ _

/-- What can be on the air: the frame on its way, with the byte at position `c` changed. The
`NEXT` byte is written anew by every relay, so it may have any value in any case. -/
def Shape (cfg : Config) (s d flags : UInt8) (payload : List UInt8) (c : Option ℕ)
    (p : List UInt8) : Prop :=
  ∃ next ttl i b, (c = some i ∨ i = 0) ∧ p = (framed cfg s d flags payload next ttl).set i b

/-- A relay leaves a changed byte as it is, unless it writes that byte itself. -/
theorem Shape.forwardBytes {c : Option ℕ} {p : List UInt8} (dev : Device)
    (hp : Shape cfg s d flags payload c p) (h : 7 ≤ p.length) :
    Shape cfg s d flags payload c (forwardBytes dev p h) := by
  obtain ⟨next, ttl, i, b, hi, rfl⟩ := hp
  by_cases h0 : i = 0
  · subst h0
    exact ⟨UInt8.ofInt (dev.routingTable d), ttl - 1, 0, UInt8.ofInt (dev.routingTable d),
      .inr rfl, rfl⟩
  · have hc : c = some i := hi.resolve_right h0
    by_cases h5 : i = 5
    · subst h5
      exact ⟨UInt8.ofInt (dev.routingTable d), b - 1, 5, b - 1, .inl hc, rfl⟩
    · have hfive : ((framed cfg s d flags payload next ttl).set i b)[5] = ttl :=
        List.getElem_set_ne h5 _
      refine ⟨UInt8.ofInt (dev.routingTable
        ((framed cfg s d flags payload next ttl).set i b)[1]), ttl - 1, i, b, .inl hc, ?_⟩
      rw [LCore.forwardBytes, hfive, List.set_comm _ _ h5, List.set_comm _ _ h0]
      rfl

/-- A packet of the shape has a header in front of its payload. -/
theorem Shape.length {c : Option ℕ} {p : List UInt8} (hp : Shape cfg s d flags payload c p) :
    p.length = 7 + payload.length := by
  obtain ⟨next, ttl, i, b, -, rfl⟩ := hp
  rw [List.length_set, length_framed]

/-- Every packet on the way has the shape. -/
theorem onAir_shape (hlen : payload.length ≤ 93)
    (hp₀ : ∃ next ttl, p₀ = framed cfg s d flags payload next ttl) {c : Option ℕ} {u : UInt8}
    {p : List UInt8} (h : OnAir cfg s p₀ c u p) : Shape cfg s d flags payload c p := by
  induction h with
  | sent =>
      obtain ⟨next, ttl, rfl⟩ := hp₀
      exact ⟨next, ttl, 0, next, .inr rfl, rfl⟩
  | @changed u p i b _ hi hb ih =>
      obtain ⟨next, ttl, i', b', hc, rfl⟩ := ih
      obtain rfl : i' = 0 := hc.resolve_left (by simp)
      exact ⟨b', ttl, i, b, .inl rfl, rfl⟩
  | @forwarded c u x p q buf frame _ hx hne hforward ih =>
      have hplen := ih.length
      obtain ⟨frame', hrecv, -⟩ :=
        tryReceive_whole (cfg.device x) buf (p := p) (by omega) (by omega)
      have hq : q = forwardBytes (cfg.device x) p (by omega) := by
        rw [hforward] at hrecv
        split at hrecv
        · split at hrecv
          · exact absurd (congrArg Prod.fst hrecv) (by simp)
          · split at hrecv
            · split at hrecv
              · exact absurd (congrArg Prod.fst hrecv) (by simp)
              · exact Option.some.inj (congrArg (fun r => r.2.2) hrecv)
            · exact absurd (congrArg Prod.fst hrecv) (by simp)
        · exact absurd (congrArg Prod.fst hrecv) (by simp)
      rw [hq]
      exact ih.forwardBytes (cfg.device x) _

/-! ### The checksum -/

/-- The masked bytes of a frame one covered byte of which was changed. -/
theorem maskBytes_set {p : List UInt8} {i : ℕ} {b : UInt8}
    (h0 : i ≠ 0) (h1 : i ≠ 1) (h2 : i ≠ 2) (h5 : i ≠ 5) (h6 : i ≠ 6) :
    maskBytes (p.set i b) = (maskBytes p).set i b := by
  rw [maskBytes, List.set_comm _ _ h2, List.set_comm _ _ h0, List.set_comm _ _ h1,
    List.set_comm _ _ h6, List.set_comm _ _ h5]
  rfl

/-- A byte that counts is not masked. -/
theorem getElem_maskBytes {p : List UInt8} {i : ℕ} (hi : i < p.length)
    (h0 : i ≠ 0) (h1 : i ≠ 1) (h2 : i ≠ 2) (h5 : i ≠ 5) (h6 : i ≠ 6) :
    (maskBytes p)[i]? = some p[i] := by
  simp only [maskBytes]
  rw [List.getElem?_set_ne h5.symm, List.getElem?_set_ne h6.symm, List.getElem?_set_ne h1.symm,
    List.getElem?_set_ne h0.symm, List.getElem?_set_ne h2.symm, List.getElem?_eq_getElem hi]

/-- If the checksum of a frame is right after the type, the id, the checksum or a byte of the
payload was set, the byte was there before. -/
theorem set_eq_of_crcOk (hcrc : TellsBytesApart cfg.crc) {next ttl b : UInt8} {i : ℕ}
    (h0 : i ≠ 0) (h1 : i ≠ 1) (h2 : i ≠ 2) (h5 : i ≠ 5)
    {h₇ : 6 < ((framed cfg s d flags payload next ttl).set i b).length}
    (hok : cfg.crc (maskBytes ((framed cfg s d flags payload next ttl).set i b)) =
      ((framed cfg s d flags payload next ttl).set i b)[6]) :
    (framed cfg s d flags payload next ttl).set i b =
      framed cfg s d flags payload next ttl := by
  by_cases hi : i < (framed cfg s d flags payload next ttl).length
  · suffices hb : b = (framed cfg s d flags payload next ttl)[i] by
      rw [hb, List.set_getElem_self]
    by_cases h6 : i = 6
    · subst h6
      exact hok.symm
    · have hsix : ((framed cfg s d flags payload next ttl).set i b)[6] =
          cfg.crc (maskBytes (framed cfg s d flags payload next ttl)) :=
        List.getElem_set_ne h6 _
      have hmask := getElem_maskBytes hi h0 h1 h2 h5 h6
      obtain ⟨hilt, hget⟩ := List.getElem?_eq_some_iff.mp hmask
      by_contra hne
      rw [maskBytes_set h0 h1 h2 h5 h6, hsix] at hok
      exact hcrc _ i b hilt (by rwa [hget]) hok
  · exact List.set_eq_of_length_le (by omega)

/-- A packet on the air that passes the checksum test is as sent, but for the hop counter,
`NEXT`, and `DEST` or `SEND` if that is the byte that was changed. -/
theorem entry_of_crcOk (hcrc : TellsBytesApart cfg.crc) {c : Option ℕ} {p : List UInt8}
    (hp : Shape cfg s d flags payload c p) (h₇ : 7 ≤ p.length)
    (hok : cfg.crc (maskBytes p) = p[6]) :
    AsSent s d flags c (p.getD 1 0) (p.getD 2 0) (p.getD 3 0) ∧ p.drop 7 = payload := by
  obtain ⟨next, ttl, i, b, hc, rfl⟩ := hp
  have hsome : ∀ k, k ≠ 0 → i = k → c = some k := fun k hk hik =>
    hik ▸ hc.resolve_right (hik ▸ hk)
  by_cases h0 : i = 0
  · subst h0
    exact ⟨⟨rfl, fun _ => rfl, fun _ => rfl⟩, rfl⟩
  · by_cases h1 : i = 1
    · subst h1
      exact ⟨⟨rfl, fun _ => rfl, fun hne => absurd (hsome 1 (by decide) rfl) hne⟩, rfl⟩
    · by_cases h2 : i = 2
      · subst h2
        exact ⟨⟨rfl, fun hne => absurd (hsome 2 (by decide) rfl) hne, fun _ => rfl⟩, rfl⟩
      · by_cases h5 : i = 5
        · subst h5
          exact ⟨⟨rfl, fun _ => rfl, fun _ => rfl⟩, rfl⟩
        · -- every other byte is covered, or is the checksum itself: the change changed nothing
          have hsame := set_eq_of_crcOk hcrc h0 h1 h2 h5 hok
          simp only [hsame]
          exact ⟨⟨rfl, fun _ => rfl, fun _ => rfl⟩, rfl⟩

/-! ### The entries -/

/-- A packet that leads to an entry names this node as its destination, and is taken apart by
`dispatch`. -/
theorem dispatch_of_entry {dev : Device} {l : Listener} {message : NewMsg} {token : Mem UInt8}
    {p : List UInt8} (h₇ : 7 ≤ p.length) (h₂₅₅ : p.length ≤ 255)
    (hentry : (∃ frame, (listen dev l message token p).2 = .response frame) ∨
      ∃ m type, (listen dev l message token p).2 = .message m type) :
    p.getD 1 0 = dev.address ∧ ∃ frame, Holds frame p ∧
      (listen dev l message token p).2 = (dispatch dev l.globals frame message token).2 := by
  rcases listen_cases dev l message token h₇ h₂₅₅ with
      ⟨frame, hlisten⟩ | ⟨frame, -, -, -, hlisten⟩ | ⟨frame, -, hdest, hholds, hlisten⟩
  · rw [hlisten] at hentry
    rcases hentry with ⟨frame', h⟩ | ⟨m, type, h⟩ <;> exact absurd h (by simp)
  · rw [hlisten] at hentry
    rcases hentry with ⟨frame', h⟩ | ⟨m, type, h⟩ <;> exact absurd h (by simp)
  · exact ⟨(List.getD_eq_getElem p 0 (by omega)).trans hdest, frame, hholds,
      congrArg Prod.snd hlisten⟩

end Journey

/-- **Corruption is caught, but for the address bytes.** Of a frame built by `_send`, one byte
of which is changed on its way, every entry of a `response_queue` has the type, the size and
the payload sent, and every entry of a `new_frame_queue` has the type sent and is what
`decrypt` accepted of the payload sent, so that the payload of a message yields that message.
The sender is the one sent unless the changed byte is `SEND`, and the node is the one addressed
unless it is `DEST`. -/
theorem corruption_caught (cfg : Config) (s d flags : UInt8) {msg : Mem UInt8}
    {payload : List UInt8} (hcrc : TellsBytesApart cfg.crc) (hlen : payload.length ≤ 93)
    (hmsg : cells msg payload.length = payload) {c : Option ℕ} {u x : UInt8} {p : List UInt8}
    (hair : OnAir cfg s (transmit (cfg.device s) d msg (UInt8.ofNat payload.length) flags) c u p)
    (l : Listener) (message : NewMsg) (token : Mem UInt8) :
    (∀ frame, (listen (cfg.device x) l message token p).2 = .response frame →
      AsSent s d flags c x (frame.buf framePosSendAddr) (frame.buf framePosType) ∧
      frame.size = UInt8.ofNat (7 + payload.length) ∧
      cells (shift frame.buf framePosMsg) payload.length = payload) ∧
    (∀ m type, (listen (cfg.device x) l message token p).2 = .message m type →
      AsSent s d flags c x m.address type ∧
      Decrypted cfg.aes l.globals message payload m ∧
      ∀ t m₀, m₀.length ≤ 77 → payload = Encryption.sealed cfg.aes t m₀ →
        m.msgSize.toNat = m₀.length ∧ cells m.msg m₀.length = m₀) := by
  have hshape : Shape cfg s d flags payload c p := by
    refine onAir_shape hlen ⟨UInt8.ofInt (cfg.tables s d), initTtl, ?_⟩ hair
    exact transmit_eq (cfg.device s) d flags hlen hmsg
  have hplen := hshape.length
  have h₇ : 7 ≤ p.length := by omega
  refine ⟨fun frame hresp => ?_, fun m type hmessage => ?_⟩
  · obtain ⟨hdest, frame', hholds, hlisten⟩ := dispatch_of_entry h₇ (by omega) (.inl ⟨frame, hresp⟩)
    obtain ⟨rfl, hok⟩ := dispatch_eq_response (cfg.device x) l.globals message token hholds h₇
      (by omega) (hlisten.symm.trans hresp)
    obtain ⟨hsent, hpay⟩ := entry_of_crcOk hcrc hshape h₇ hok
    have h2 : frame.buf framePosSendAddr = p[2] := hholds.get (i := 2) (by omega)
    have h3 : frame.buf framePosType = p[3] := hholds.get (i := 3) (by omega)
    have hx : p.getD 1 0 = x := hdest
    rw [hx, List.getD_eq_getElem p 0 (by omega), List.getD_eq_getElem p 0 (by omega)] at hsent
    have hcells := hholds.cells_payload h₇
    rw [hpay] at hcells
    rw [h2, h3, hholds.size]
    exact ⟨hsent, congrArg UInt8.ofNat hplen, hcells⟩
  · obtain ⟨hdest, frame', hholds, hlisten⟩ :=
      dispatch_of_entry h₇ (by omega) (.inr ⟨m, type, hmessage⟩)
    obtain ⟨htype, haddr, hok, encrypted, henc, htrue, hm, hsize⟩ :=
      dispatch_eq_message (cfg.device x) l.globals message token hholds h₇ (by omega)
        (hlisten.symm.trans hmessage)
    obtain ⟨hsent, hpay⟩ := entry_of_crcOk hcrc hshape h₇ hok
    have hx : p.getD 1 0 = x := hdest
    rw [hx, List.getD_eq_getElem p 0 (by omega), List.getD_eq_getElem p 0 (by omega), ← haddr,
      ← htype] at hsent
    rw [hpay] at henc htrue hm hsize
    rw [← haddr] at htrue hm hsize
    refine ⟨hsent, ⟨encrypted, henc, htrue, hm, hsize⟩, fun t m₀ hm₀ hsealed => ?_⟩
    rw [hsealed, Encryption.length_sealed] at henc htrue hm hsize
    have hshort : m₀.length < 110 := by omega
    obtain ⟨hout, hcells⟩ := Encryption.decrypt_sealed_of_accepted cfg.aes l.globals message.msg
      message.msgSize m.address hshort henc htrue
    refine ⟨?_, hm ▸ hcells⟩
    have hn := hsize.trans hout
    rw [hn, UInt8.toNat_ofNat']
    omega

/-! ### The address bytes -/

/-- Three nodes in range of each other. -/
def three (aes : Aes) : Config := Config.direct 3 aes Crc8.crc8

/-- The `ACK` of node `0` to node `1`. -/
def ack (aes : Aes) : List UInt8 := transmit ((three aes).device 0) 1 null 0 typeMaskAck

/-- The `ACK` as a frame. -/
theorem ack_eq (aes : Aes) : ack aes = frameBytes Crc8.crc8 1 1 0 typeMaskAck initTtl [] := by
  have hnext : UInt8.ofInt (((three aes).device 0).routingTable 1) = 1 := rfl
  rw [ack, transmit_null, hnext]
  rfl

/-- The checksum of the code tells single bytes apart. -/
theorem crc8_tellsBytesApart : TellsBytesApart Crc8.crc8 :=
  fun _ _ _ hi hb => Crc8.crc8_set_ne hi hb

@[simp] theorem length_ack (aes : Aes) : (ack aes).length = 7 := by
  rw [ack_eq, length_frameBytes]
  rfl

/-- The `ACK` on the air after its `DEST` byte was changed: node `1` relays it to node `2`. -/
theorem onAir_dest (aes : Aes) :
    OnAir (three aes) 0 (ack aes) (some 1) 1
      (frameBytes Crc8.crc8 2 2 0 typeMaskAck (initTtl - 1) []) := by
  have hchanged : OnAir (three aes) 0 (ack aes) (some 1) 0
      (frameBytes Crc8.crc8 1 2 0 typeMaskAck initTtl []) := by
    have hset : frameBytes Crc8.crc8 1 2 0 typeMaskAck initTtl [] = (ack aes).set 1 2 := by
      rw [ack_eq]
      rfl
    rw [hset]
    have hlen : 1 < (ack aes).length := by simp
    have hone : (ack aes)[1] = 1 := by simp [ack_eq, frameBytes]
    refine .changed .sent hlen ?_
    rw [hone]
    decide
  obtain ⟨frame, hrecv, -⟩ := tryReceive_whole ((three aes).device 1) null
    (p := frameBytes Crc8.crc8 1 2 0 typeMaskAck initTtl []) (by simp) (by simp)
  exact .forwarded hchanged (show 1 < 3 by decide) (by decide) hrecv

/-- The `ACK` on the air after its `SEND` byte was changed. -/
theorem onAir_send (aes : Aes) :
    OnAir (three aes) 0 (ack aes) (some 2) 0
      (frameBytes Crc8.crc8 1 1 2 typeMaskAck initTtl []) := by
  have hset : frameBytes Crc8.crc8 1 1 2 typeMaskAck initTtl [] = (ack aes).set 2 2 := by
    rw [ack_eq]
    rfl
  rw [hset]
  have hlen : 2 < (ack aes).length := by simp
  have hzero : (ack aes)[2] = 0 := by simp [ack_eq, frameBytes]
  refine .changed .sent hlen ?_
  rw [hzero]
  decide

/-- The address bytes are not covered: under every AES key, with one byte of the `ACK` of node
`0` to node `1` changed, node `2` takes it as an answer, or node `1` takes it as an answer of
node `2`. -/
theorem addresses_not_caught :
    TellsBytesApart Crc8.crc8 ∧
    (¬ ∃ aes, ∀ c u p x l message token frame, OnAir (three aes) 0 (ack aes) c u p →
      (listen ((three aes).device x) l message token p).2 = .response frame → x = 1) ∧
    ¬ ∃ aes, ∀ c u p x l message token frame, OnAir (three aes) 0 (ack aes) c u p →
      (listen ((three aes).device x) l message token p).2 = .response frame →
      frame.buf framePosSendAddr = 0 := by
  refine ⟨crc8_tellsBytesApart, ?_, ?_⟩
  · rintro ⟨aes, h⟩
    obtain ⟨frame, -, hlisten⟩ := listen_frameBytes_response ((three aes).device 2)
      ⟨LoraFrame.init, ⟨fun _ => 0, fun _ => 0, null⟩⟩ ⟨0, null, 0⟩ null 0 typeMaskAck (initTtl - 1)
      (show ([] : List UInt8).length ≤ 96 by simp) (by decide)
    exact absurd (h _ _ _ 2 _ _ _ frame (onAir_dest aes) (congrArg Prod.snd hlisten)) (by decide)
  · rintro ⟨aes, h⟩
    obtain ⟨frame, hholds, hlisten⟩ := listen_frameBytes_response ((three aes).device 1)
      ⟨LoraFrame.init, ⟨fun _ => 0, fun _ => 0, null⟩⟩ ⟨0, null, 0⟩ null 2 typeMaskAck initTtl
      (show ([] : List UInt8).length ≤ 96 by simp) (by decide)
    have hsend := h _ _ _ 1 _ _ _ frame (onAir_send aes) (congrArg Prod.snd hlisten)
    have h2 : frame.buf framePosSendAddr = 2 := hholds.get (i := 2) (by simp)
    exact absurd (h2.symm.trans hsend) (by decide)

/-- The frame whose `DEST` byte was changed still says what node `0` sent. -/
theorem corruption_caught_dest :
    TellsBytesApart Crc8.crc8 ∧ ∀ l message token frame,
      (listen ((three (Equiv.refl Block)).device 2) l message token
        (frameBytes Crc8.crc8 2 2 0 typeMaskAck (initTtl - 1) [])).2 = .response frame →
      frame.buf framePosSendAddr = 0 ∧ frame.buf framePosType = typeMaskAck := by
  refine ⟨crc8_tellsBytesApart, fun l message token frame hresp => ?_⟩
  have hnil : cells null ([] : List UInt8).length = [] := rfl
  have hsent := ((corruption_caught (three (Equiv.refl Block)) 0 1 typeMaskAck
    crc8_tellsBytesApart (by simp) hnil (onAir_dest (Equiv.refl Block)) l message token).1
    frame hresp).1
  exact ⟨hsent.sender (by simp), hsent.type⟩

end Corruption

end LCore
