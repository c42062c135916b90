import LCore.Bounds
import LCore.Padding
import LCore.TokenCheck

/-!
# What a Packet Alone Decides

Two listeners that differ only in what earlier packets have left in the frame buffer and in the
scratch buffer, and in what lies behind their arrays of tokens, treat a clean packet alike: it has
a whole header or is decided by the bytes it has, and its payload, if it is decrypted, covers
what is read of the scratch buffer.

## Main results

* `outcome_badCrc`, `outcome_response`, `outcome_data`: what an iteration makes of a whole frame.
* `outcome_agree`: the outcome of a clean packet.
-/

open Memory BigEndian

namespace LCore

namespace Residue

open Encryption Responses TokenCheck

/-- The `NET_SIZE` entries of an array of tokens. -/
def entries (netSize : ℕ) (tokens : UInt8 → Int32) (a : UInt8) : Option Int32 :=
  if a.toNat < netSize then some (tokens a) else none

/-- Two stations that differ at most in the bytes of the frame buffer and of the scratch
buffer, and in what lies behind the two arrays of tokens. -/
structure Agree (dev : Device) (st st' : Station) : Prop where
  sendTokens : entries dev.netSize st'.listener.globals.sendTokens =
    entries dev.netSize st.listener.globals.sendTokens
  recvTokens : entries dev.netSize st'.listener.globals.recvTokens =
    entries dev.netSize st.listener.globals.recvTokens
  queue : st'.newFrameQueue = st.newFrameQueue
  frame : ∀ i : ℤ, i < 0 ∨ maxFrameSize ≤ i →
    st'.listener.frame.buf i = st.listener.frame.buf i
  encBuf : ∀ i : ℤ, i < 0 ∨ maxFrameSize ≤ i →
    st'.listener.globals.encBuf i = st.listener.globals.encBuf i

/-- How a packet is classified, with the address, the size and the first bytes of the entry it
leads to. -/
inductive View
  | nothing
  | forwarded
  | badCrc
  | rejected
  | response (address size : UInt8) (bytes : List UInt8)
  | message (address size : UInt8) (bytes : List UInt8)
  deriving DecidableEq

/-- The classification of what an iteration heard. -/
def View.of : Heard → View
  | .nothing => .nothing
  | .forwarded _ => .forwarded
  | .badCrc _ => .badCrc
  | .rejected _ => .rejected
  | .response frame =>
      .response (frame.buf framePosSendAddr) frame.size (cells frame.buf frame.size.toNat)
  | .message m _ => .message m.address m.msgSize (cells m.msg m.msgSize.toNat)

/-- Everything an iteration shows: the result of `try_receive`, the classification, the packets
transmitted, and the tokens. -/
@[ext] structure Outcome where
  result : Routing.ReceiveResult
  view : View
  packets : List (List UInt8)
  sendTokens : UInt8 → Option Int32
  recvTokens : UInt8 → Option Int32

/-- The outcome of an iteration with a packet on the radio. -/
def outcome (dev : Device) (st : Station) (message : NewMsg) (token : Mem UInt8)
    (packet : List UInt8) : Outcome :=
  let r := listen dev st.listener message token packet
  ⟨(Routing.tryReceive dev st.listener.frame.buf packet).1, View.of r.2,
    (iterate dev st message token packet).2.2, entries dev.netSize r.1.globals.sendTokens,
    entries dev.netSize r.1.globals.recvTokens⟩

/-- The outcome does not depend on what the two buffers hold. -/
def Independent (dev : Device) (st : Station) (packet : List UInt8) : Prop :=
  ∀ st', Agree dev st st' → ∀ message token,
    outcome dev st' message token packet = outcome dev st message token packet

/-- Nor on what the uninitialised locals of the iteration hold. -/
def IndependentOfLocals (dev : Device) (st : Station) (packet : List UInt8) : Prop :=
  ∀ st', Agree dev st st' → ∀ message token message' token',
    outcome dev st' message' token' packet = outcome dev st message token packet

/-! ### The condition -/

/-- The payload of a data frame is treated alike whatever the scratch buffer holds. It is read as
empty, or its sender has a counter, at which no token is accepted if there are no bytes at all,
and at which whole blocks are rejected unless their count byte leaves two bytes or more, and no
more than there are. -/
def PayloadClean (dev : Device) (g : Globals) (payload : List UInt8) (sender : UInt8) : Prop :=
  ReadsEmpty dev.aes g payload ∨
    sender.toNat < dev.netSize ∧
      if payload.length = 0 then
        ∀ t : ℕ, t < 2 ^ 16 → ¬ Newer g.recvTokens (UInt32.ofNat t) sender
      else
        Newer g.recvTokens (carried dev.aes payload) sender →
          padding dev.aes payload ≠ payload.length - 2 ∧
            (padding dev.aes payload < payload.length ∨ padding dev.aes payload = 255)

/-- A packet for this node that has no whole header is passed on or dropped by the bytes it
has, and a payload that is decrypted is clean. -/
def Clean (dev : Device) (st : Station) (packet : List UInt8) : Prop :=
  (packet.getD 0 0 = dev.address → packet.length < framePosMsg →
    2 ≤ packet.length ∧ packet.getD 1 0 ≠ dev.address ∧
      (packet.length = 6 ∨ dev.netSize ≤ (packet.getD 1 0).toNat)) ∧
  (IsData dev packet →
    PayloadClean dev st.listener.globals (packet.drop 7) (packet.getD 2 0))

/-! ### Packets that are not taken apart -/

section Station

variable (dev : Device) (st : Station) (message : NewMsg) (token : Mem UInt8)
  {packet : List UInt8}

/-- The outcome for a packet that does not end here is what `try_receive` did with it. -/
theorem outcome_of_not_received
    (hne : (Routing.tryReceive dev st.listener.frame.buf packet).1 ≠ .received) :
    outcome dev st message token packet =
      ⟨(Routing.tryReceive dev st.listener.frame.buf packet).1,
        if (Routing.tryReceive dev st.listener.frame.buf packet).2.2.isSome then .forwarded
        else .nothing,
        (Routing.tryReceive dev st.listener.frame.buf packet).2.2.toList,
        entries dev.netSize st.listener.globals.sendTokens,
        entries dev.netSize st.listener.globals.recvTokens⟩ := by
  simp only [outcome, iterate, listen, if_neg hne]
  cases (Routing.tryReceive dev st.listener.frame.buf packet).2.2 with
  | none => rfl
  | some p => rfl

/-- The bytes of the packet are in the buffer, whatever was there before. -/
theorem load_eq_getD {i : ℕ} (hi : i < packet.length) (buf : Mem UInt8) :
    load packet buf i = packet.getD i 0 := by
  rw [load_of_lt hi, List.getD_eq_getElem packet 0 hi]

/-- With the bytes up to the hop counter in the packet, `try_receive` does what they say. -/
theorem tryReceive_agree (buf buf' : Mem UInt8) (h₆ : 6 ≤ packet.length)
    (h₁₀₀ : packet.length ≤ 100) :
    (Routing.tryReceive dev buf packet).1 = (Routing.tryReceive dev buf' packet).1 ∧
      (Routing.tryReceive dev buf packet).2.2 = (Routing.tryReceive dev buf' packet).2.2 := by
  have hne : packet ≠ [] := List.ne_nil_of_length_pos (by omega)
  have hload : ∀ i : ℕ, i < packet.length → load packet buf i = load packet buf' i :=
    fun i hi => (load_eq_getD hi buf).trans (load_eq_getD hi buf').symm
  have h0 : load packet buf 0 = load packet buf' 0 := hload 0 (by omega)
  have h1 : load packet buf 1 = load packet buf' 1 := hload 1 (by omega)
  have h5 : load packet buf framePosTtl = load packet buf' framePosTtl := hload 5 (by omega)
  have hsize : (UInt8.ofNat packet.length).toNat = packet.length := by
    rw [UInt8.toNat_ofNat']
    omega
  have hcells : ∀ v w, cells (write (write (load packet buf) framePosTtl v) framePosNextAddr w)
        packet.length =
      cells (write (write (load packet buf') framePosTtl v) framePosNextAddr w)
        packet.length := by
    intro v w
    rw [cells_eq_iff]
    intro i hi
    simp only [write, hload i hi]
  have hdest : ∀ b v, write (load packet b) framePosTtl v framePosDestAddr = load packet b 1 :=
    fun b v => write_of_ne (show framePosDestAddr ≠ framePosTtl by decide)
  rw [tryReceive_eq dev buf hne (by omega), tryReceive_eq dev buf' hne (by omega), h0, h1]
  split
  · split
    · exact ⟨rfl, rfl⟩
    · split
      · simp only [Routing.forward, h5, Radio.sendBytes, hsize, hdest, h1]
        split
        · exact ⟨rfl, rfl⟩
        · exact ⟨rfl, congrArg some (hcells _ _)⟩
      · exact ⟨rfl, rfl⟩
  · exact ⟨rfl, rfl⟩

/-! ### Whole frames for this node -/

/-- What is sent after `xQueueSend`, for a message from `address`. -/
def answersTo (dev : Device) (st : Station) (address type : UInt8) : List (List UInt8) :=
  answers dev (st.newFrameQueue.length < queueLen) ⟨address, null, 0⟩ type

/-- The answers to a message depend on its sender and type, and on whether there is room. -/
theorem answers_eq_answersTo (m : NewMsg) (type : UInt8) :
    answers dev (st.newFrameQueue.length < queueLen) m type = answersTo dev st m.address type :=
  rfl

/-- The `SYNC|RESEND` that answers a rejected token of `address`. -/
def syncTo (dev : Device) (g : Globals) (address : UInt8) : List UInt8 :=
  frameBytes dev.crc (UInt8.ofInt (dev.routingTable address)) address dev.address
    (typeMaskSync ||| typeMaskResend) initTtl
    (toBytes tokenSize.toNat (nextRecvToken g address).toNat)

variable (h₇ : 6 < packet.length) (h₁₀₀ : packet.length ≤ 100)

include h₇ h₁₀₀

/-- Such a frame is received, and the buffer holds it. -/
theorem received_whole (h0 : packet[0] = dev.address) (h1 : packet[1] = dev.address) :
    (Routing.tryReceive dev st.listener.frame.buf packet).1 = .received ∧
      ∃ frame, Holds frame packet ∧ listen dev st.listener message token packet =
        (⟨frame, (dispatch dev st.listener.globals frame message token).1⟩,
          (dispatch dev st.listener.globals frame message token).2) := by
  obtain ⟨frame, hrecv, -⟩ := tryReceive_whole dev st.listener.frame.buf h₇ (by omega)
  rw [if_pos h0, if_pos h1] at hrecv
  exact ⟨congrArg Prod.fst hrecv,
    listen_received dev st.listener message token h₇ (by omega) h0 h1⟩

/-- The outcome for a frame whose checksum is wrong. -/
theorem outcome_badCrc (h0 : packet[0] = dev.address) (h1 : packet[1] = dev.address)
    (hcrc : dev.crc (maskBytes packet) ≠ packet[6]) :
    outcome dev st message token packet =
      ⟨.received, .badCrc, [frameBytes dev.crc (UInt8.ofInt (dev.routingTable packet[2]))
          packet[2] dev.address typeMaskResend initTtl []],
        entries dev.netSize st.listener.globals.sendTokens,
        entries dev.netSize st.listener.globals.recvTokens⟩ := by
  obtain ⟨hrecv, frame, hholds, hlisten⟩ :=
    received_whole dev st message token h₇ h₁₀₀ h0 h1
  rw [dispatch_badCrc dev _ message token hholds h₇ (by omega) hcrc] at hlisten
  simp only [outcome, iterate, hrecv, hlisten, View.of]

/-- The outcome for an answer. -/
theorem outcome_response (h0 : packet[0] = dev.address) (h1 : packet[1] = dev.address)
    (hcrc : dev.crc (maskBytes packet) = packet[6])
    (htype : packet[3] &&& responseMask ≠ 0) :
    outcome dev st message token packet =
      ⟨.received, .response packet[2] (UInt8.ofNat packet.length) packet, [],
        entries dev.netSize st.listener.globals.sendTokens,
        entries dev.netSize st.listener.globals.recvTokens⟩ := by
  obtain ⟨hrecv, frame, hholds, hlisten⟩ :=
    received_whole dev st message token h₇ h₁₀₀ h0 h1
  have h2 : frame.buf framePosSendAddr = packet[2] := hholds.get (i := 2) (by omega)
  have hsize : (UInt8.ofNat packet.length).toNat = packet.length := by
    rw [UInt8.toNat_ofNat']
    omega
  rw [dispatch_response dev _ message token hholds h₇ (by omega) hcrc htype] at hlisten
  simp only [outcome, iterate, hrecv, hlisten, View.of, h2, hholds.size, hsize, hholds.cells]

/-- The outcome for a data frame, by what the cipher makes of its payload. -/
theorem outcome_data (h0 : packet[0] = dev.address) (h1 : packet[1] = dev.address)
    (hcrc : dev.crc (maskBytes packet) = packet[6])
    (htype : packet[3] &&& responseMask = 0) :
    outcome dev st message token packet =
      let g := st.listener.globals
      let c := opened dev.aes g (packet.drop 7)
      let t := tokenOf dev.aes g (packet.drop 7)
      if c.2 = 0 then
        ⟨.received, .message packet[2] message.msgSize (cells message.msg message.msgSize.toNat),
          answersTo dev st packet[2] packet[3], entries dev.netSize g.sendTokens,
          entries dev.netSize g.recvTokens⟩
      else if Newer g.recvTokens t packet[2] then
        ⟨.received, .message packet[2] (c.2 - tokenSize)
            (cells (shift c.1 tokenSize.toNat) (c.2 - tokenSize).toNat),
          answersTo dev st packet[2] packet[3], entries dev.netSize g.sendTokens,
          entries dev.netSize (Function.update g.recvTokens packet[2] t.toInt32)⟩
      else
        ⟨.received, .rejected, [syncTo dev g packet[2]], entries dev.netSize g.sendTokens,
          entries dev.netSize g.recvTokens⟩ := by
  obtain ⟨hrecv, frame, hholds, hlisten⟩ :=
    received_whole dev st message token h₇ h₁₀₀ h0 h1
  have hdrop : (packet.drop 7).length = packet.length - 7 := List.length_drop
  have hdisp := dispatch_opened dev st.listener.globals message token hholds h₇ (by omega) hcrc
    htype
  simp only [outcome, iterate, hrecv, hlisten]
  by_cases hzero : (opened dev.aes st.listener.globals (packet.drop 7)).2 = 0
  · simp only [if_pos hzero] at hdisp ⊢
    simp only [hdisp, View.of, xQueueSend_fst, answers_eq_answersTo]
  · simp only [if_neg hzero] at hdisp ⊢
    by_cases hnewer : Newer st.listener.globals.recvTokens
        (tokenOf dev.aes st.listener.globals (packet.drop 7)) packet[2]
    · simp only [if_pos hnewer] at hdisp ⊢
      simp only [hdisp, View.of, xQueueSend_fst, cells_copy_zero, answers_eq_answersTo]
    · simp only [if_neg hnewer] at hdisp ⊢
      simp only [hdisp, View.of, syncTo]

end Station

/-! ### Clean packets -/

section Clean

variable {dev : Device} {st st' : Station} {packet : List UInt8}

/-- The size the cipher reports does not depend on what the scratch buffer holds. -/
theorem opened_size_agree {aes : Aes} {g g' : Globals} {payload : List UInt8}
    (hlen : payload.length ≤ 93) (henc : g'.encBuf (-1) = g.encBuf (-1)) :
    (opened aes g' payload).2 = (opened aes g payload).2 := by
  by_cases hnil : payload.length = 0
  · apply UInt8.toNat_inj.mp
    rw [toNat_opened_of_nil aes g' hnil, toNat_opened_of_nil aes g hnil, henc]
  · by_cases hdvd : 16 ∣ payload.length
    · have h := toNat_opened aes g hdvd (by omega) hlen
      have h' := toNat_opened aes g' hdvd (by omega) hlen
      apply UInt8.toNat_inj.mp
      omega
    · rw [opened_of_not_dvd aes g' hlen hdvd, opened_of_not_dvd aes g hlen hdvd]

/-- Nor does a message of whole blocks that lies inside the payload. -/
theorem cells_opened {aes : Aes} {g : Globals} {payload : List UInt8}
    (hlen : payload.length ≤ 93) (hdvd : 16 ∣ payload.length) (hpos : 0 < payload.length)
    {k : ℕ} (hk : tokenSize.toNat + k ≤ payload.length) :
    cells (shift (opened aes g payload).1 tokenSize.toNat) k =
      cells (shift (Cipher.plainText aes (load payload null)) tokenSize.toNat) k := by
  obtain ⟨hin, -, -⟩ := deciphered_blocks aes g (load payload null) hdvd (by omega) (by omega)
  rw [cells_eq_iff]
  intro i hi
  have hcell := hin (i + tokenSize.toNat) (by omega)
  rw [Nat.cast_add] at hcell
  exact hcell

/-- A token has two bytes. -/
theorem tokenOf_lt (aes : Aes) (g : Globals) (payload : List UInt8) :
    (tokenOf aes g payload).toNat < 2 ^ 16 := by
  have hlt := ofBytes_lt (cells (opened aes g payload).1 tokenSize.toNat)
  rw [length_cells] at hlt
  rw [tokenOf, toNat_mergeFromBytes]
  exact Nat.lt_of_le_of_lt (Nat.mod_le _ _) hlt

/-- The window test looks at one counter. -/
theorem newer_congr {recvTokens recvTokens' : UInt8 → Int32} {a : UInt8}
    (h : recvTokens' a = recvTokens a) (t : UInt32) :
    Newer recvTokens' t a ↔ Newer recvTokens t a := by
  rw [Newer, Newer, h]

/-- Stations that agree have the same tokens for every address of the network. -/
theorem entries_eq_iff {netSize : ℕ} {tokens tokens' : UInt8 → Int32} :
    entries netSize tokens' = entries netSize tokens ↔
      ∀ a : UInt8, a.toNat < netSize → tokens' a = tokens a := by
  constructor
  · intro h a ha
    have hsame := congrFun h a
    rw [entries, entries, if_pos ha, if_pos ha] at hsame
    exact Option.some.inj hsame
  · intro h
    funext a
    rw [entries, entries]
    split
    · rename_i ha
      rw [h a ha]
    · rfl

/-- An accepted token is the same entry in both. -/
theorem entries_update {netSize : ℕ} {tokens tokens' : UInt8 → Int32}
    (h : entries netSize tokens' = entries netSize tokens) (a : UInt8) (t : Int32) :
    entries netSize (Function.update tokens' a t) =
      entries netSize (Function.update tokens a t) := by
  rw [entries_eq_iff] at h ⊢
  intro b hb
  by_cases hba : b = a
  · rw [hba, Function.update_self, Function.update_self]
  · rw [Function.update_of_ne hba, Function.update_of_ne hba, h b hb]

section Payload

variable {g : Globals} {payload : List UInt8} {sender : UInt8}
  (hlen : payload.length ≤ 93) (hclean : PayloadClean dev g payload sender)
  (hzero : (opened dev.aes g payload).2 ≠ 0)

include hlen hclean hzero

/-- A clean payload that is not read as empty comes from an address of the network. -/
theorem sender_lt_of_clean : sender.toNat < dev.netSize :=
  (hclean.resolve_left fun h => hzero ((opened_eq_zero_iff dev.aes g hlen).mpr h)).1

/-- With no bytes at all, a token that is left over is rejected, whatever it is. -/
theorem not_newer_of_nil (hnil : payload.length = 0) (g' : Globals) :
    ¬ Newer g.recvTokens (tokenOf dev.aes g' payload) sender := by
  have hrest :=
    (hclean.resolve_left fun h => hzero ((opened_eq_zero_iff dev.aes g hlen).mpr h)).2
  rw [if_pos hnil] at hrest
  intro hnewer
  refine hrest (tokenOf dev.aes g' payload).toNat (tokenOf_lt dev.aes g' payload) ?_
  rw [UInt32.ofNat_toNat]
  exact hnewer

/-- With whole blocks, the message lies inside the payload when its token is accepted. -/
theorem inside_of_newer (hdvd : 16 ∣ payload.length) (hpos : 0 < payload.length)
    (hnewer : Newer g.recvTokens (carried dev.aes payload) sender) :
    tokenSize.toNat + ((opened dev.aes g payload).2 - tokenSize).toNat ≤ payload.length := by
  have hrest :=
    (hclean.resolve_left fun h => hzero ((opened_eq_zero_iff dev.aes g hlen).mpr h)).2
  rw [if_neg (Nat.ne_of_gt hpos)] at hrest
  obtain ⟨hone, hover⟩ := hrest hnewer
  obtain ⟨hne, hsub, hsize⟩ := toNat_opened_sub dev.aes g hlen hpos hdvd hzero
  have htwo : tokenSize.toNat = 2 := rfl
  omega

end Payload

/-- A clean payload has the same outcome with every scratch buffer. -/
theorem outcome_data_agree (hagree : Agree dev st st') {message message' : NewMsg}
    {token token' : Mem UInt8} (h₇ : 6 < packet.length) (h₁₀₀ : packet.length ≤ 100)
    (h0 : packet[0] = dev.address) (h1 : packet[1] = dev.address)
    (hcrc : dev.crc (maskBytes packet) = packet[6]) (htype : packet[3] &&& responseMask = 0)
    (hclean : PayloadClean dev st.listener.globals (packet.drop 7) packet[2])
    (hlocals : message' = message ∨
      ¬ ReadsEmpty dev.aes st.listener.globals (packet.drop 7)) :
    outcome dev st' message' token' packet = outcome dev st message token packet := by
  have hdrop : (packet.drop 7).length = packet.length - 7 := List.length_drop
  have hlen : (packet.drop 7).length ≤ 93 := by omega
  have henc : st'.listener.globals.encBuf (-1) = st.listener.globals.encBuf (-1) :=
    hagree.encBuf (-1) (.inl (by omega))
  have hsize : (opened dev.aes st'.listener.globals (packet.drop 7)).2 =
      (opened dev.aes st.listener.globals (packet.drop 7)).2 := opened_size_agree hlen henc
  have hanswers : answersTo dev st' packet[2] packet[3] =
      answersTo dev st packet[2] packet[3] := by
    rw [answersTo, answersTo, hagree.queue]
  rw [outcome_data dev st message token h₇ h₁₀₀ h0 h1 hcrc htype,
    outcome_data dev st' message' token' h₇ h₁₀₀ h0 h1 hcrc htype]
  simp only [hsize, hanswers, hagree.sendTokens, hagree.recvTokens]
  by_cases hzero : (opened dev.aes st.listener.globals (packet.drop 7)).2 = 0
  · rw [if_pos hzero, if_pos hzero,
      hlocals.resolve_right (not_not.mpr ((opened_eq_zero_iff dev.aes _ hlen).mp hzero))]
  · rw [if_neg hzero, if_neg hzero]
    -- the token is tested against a counter on which the two agree
    have hcounter := entries_eq_iff.mp hagree.recvTokens packet[2]
      (sender_lt_of_clean hlen hclean hzero)
    have hsync : syncTo dev st'.listener.globals packet[2] =
        syncTo dev st.listener.globals packet[2] := by
      simp only [syncTo, nextRecvToken, hcounter]
    have hdvd : 16 ∣ (packet.drop 7).length :=
      not_not.mp fun hdvd => hzero (opened_of_not_dvd dev.aes _ hlen hdvd)
    simp only [newer_congr hcounter, hsync]
    by_cases hnil : (packet.drop 7).length = 0
    · have hnot := not_newer_of_nil hlen hclean hzero hnil
      rw [if_neg (hnot _), if_neg (hnot _)]
    · rw [tokenOf_eq_carried dev.aes st.listener.globals hlen hdvd (by omega),
        tokenOf_eq_carried dev.aes st'.listener.globals hlen hdvd (by omega)]
      by_cases hnewer : Newer st.listener.globals.recvTokens
          (carried dev.aes (packet.drop 7)) packet[2]
      · have hinside := inside_of_newer hlen hclean hzero hdvd (by omega) hnewer
        rw [if_pos hnewer, if_pos hnewer, cells_opened hlen hdvd (by omega) hinside,
          cells_opened hlen hdvd (by omega) hinside, entries_update hagree.recvTokens]
      · rw [if_neg hnewer, if_neg hnewer]

/-- Packets that do not end here have the same outcome when `try_receive` does the same. -/
theorem outcome_agree_of_tryReceive (hagree : Agree dev st st') {message message' : NewMsg}
    {token token' : Mem UInt8}
    (hne : (Routing.tryReceive dev st.listener.frame.buf packet).1 ≠ .received)
    (hfst : (Routing.tryReceive dev st'.listener.frame.buf packet).1 =
      (Routing.tryReceive dev st.listener.frame.buf packet).1)
    (hsnd : (Routing.tryReceive dev st'.listener.frame.buf packet).2.2 =
      (Routing.tryReceive dev st.listener.frame.buf packet).2.2) :
    outcome dev st' message' token' packet = outcome dev st message token packet := by
  rw [outcome_of_not_received dev st message token hne,
    outcome_of_not_received dev st' message' token' (by rw [hfst]; exact hne), hfst, hsnd,
    hagree.sendTokens, hagree.recvTokens]

/-- The outcome for a clean packet, whatever the buffers hold, and whatever the locals hold
unless the packet is read as empty. -/
theorem outcome_agree (hagree : Agree dev st st') {message message' : NewMsg}
    {token token' : Mem UInt8} (h₁ : 1 ≤ packet.length) (h₁₀₀ : packet.length ≤ 100)
    (hclean : Clean dev st packet)
    (hlocals : message' = message ∨ ¬ (IsData dev packet ∧
      ReadsEmpty dev.aes st.listener.globals (packet.drop 7))) :
    outcome dev st' message' token' packet = outcome dev st message token packet := by
  have hne : packet ≠ [] := List.ne_nil_of_length_pos h₁
  have hload : ∀ (i : ℕ), i < packet.length → ∀ buf, load packet buf i = packet.getD i 0 :=
    fun i hi buf => load_eq_getD hi buf
  have h0 : ∀ buf, load packet buf 0 = packet.getD 0 0 := hload 0 (by omega)
  by_cases hnext : packet.getD 0 0 = dev.address
  · by_cases hshort : packet.length < framePosMsg
    · have hseven : framePosMsg = 7 := rfl
      obtain ⟨h₂, hdest, hrest⟩ := hclean.1 hnext hshort
      have h1 : ∀ buf, load packet buf 1 = packet.getD 1 0 := hload 1 (by omega)
      have hnot : (Routing.tryReceive dev st.listener.frame.buf packet).1 ≠ .received := by
        intro hrecv
        have hboth := (Bounds.received_iff dev st.listener h₁ (by omega)).mp hrecv
        exact hdest ((h1 _).symm.trans hboth.2)
      rcases hrest with hsix | hbad
      · have h₆ : 6 ≤ packet.length := by omega
        obtain ⟨hfst, hsnd⟩ := tryReceive_agree dev st'.listener.frame.buf
          st.listener.frame.buf h₆ h₁₀₀
        exact outcome_agree_of_tryReceive hagree hnot hfst hsnd
      · refine outcome_agree_of_tryReceive hagree hnot ?_ ?_ <;>
          simp only [tryReceive_eq dev _ hne (show packet.length ≤ 255 by omega), h0, h1,
            if_pos hnext, if_neg hdest, if_neg (not_lt.mpr hbad)]
    · have h₇ : 7 ≤ packet.length := by
        have hseven : framePosMsg = 7 := rfl
        omega
      have hget : ∀ i (hi : i < 7), packet.getD i 0 = packet[i] :=
        fun i hi => List.getD_eq_getElem packet 0 (by omega)
      by_cases hdest : packet.getD 1 0 = dev.address
      · have hp0 : packet[0] = dev.address := (hget 0 (by omega)).symm.trans hnext
        have hp1 : packet[1] = dev.address := (hget 1 (by omega)).symm.trans hdest
        by_cases hcrc : dev.crc (maskBytes packet) = packet[6]
        · by_cases htype : packet[3] &&& responseMask = 0
          · have hdata : IsData dev packet := by
              refine ⟨not_lt.mp hshort, hnext, hdest, ?_, ?_⟩
              · rw [hget 6 (by omega)]
                exact hcrc
              · rw [hget 3 (by omega)]
                exact htype
            have hpayload := hclean.2 hdata
            rw [hget 2 (by omega)] at hpayload
            exact outcome_data_agree hagree h₇ h₁₀₀ hp0 hp1 hcrc htype hpayload
              (hlocals.imp_right fun h hempty => h ⟨hdata, hempty⟩)
          · rw [outcome_response dev st message token h₇ h₁₀₀ hp0 hp1 hcrc htype,
              outcome_response dev st' message' token' h₇ h₁₀₀ hp0 hp1 hcrc htype,
              hagree.sendTokens, hagree.recvTokens]
        · rw [outcome_badCrc dev st message token h₇ h₁₀₀ hp0 hp1 hcrc,
            outcome_badCrc dev st' message' token' h₇ h₁₀₀ hp0 hp1 hcrc,
            hagree.sendTokens, hagree.recvTokens]
      · have hnot : (Routing.tryReceive dev st.listener.frame.buf packet).1 ≠ .received := by
          intro hrecv
          have hboth := (Bounds.received_iff dev st.listener h₁ (by omega)).mp hrecv
          exact hdest ((hload 1 (by omega) _).symm.trans hboth.2)
        have h₆ : 6 ≤ packet.length := by omega
        obtain ⟨hfst, hsnd⟩ := tryReceive_agree dev st'.listener.frame.buf
          st.listener.frame.buf h₆ h₁₀₀
        exact outcome_agree_of_tryReceive hagree hnot hfst hsnd
  · have hgot : ∀ buf, Routing.tryReceive dev buf packet =
        (.gotNothing, ⟨load packet buf, UInt8.ofNat packet.length⟩, none) := by
      intro buf
      rw [tryReceive_eq dev buf hne (by omega), h0, if_neg hnext]
    exact outcome_agree_of_tryReceive hagree (by rw [hgot]; simp) (by rw [hgot, hgot])
      (by rw [hgot, hgot])

end Clean

end Residue

end LCore
