import LCore.ReplayWindow
import LCore.TokenCheck

/-!
# Table Indices From the Air

The address bytes of a frame are indices. Its destination selects the route when the frame is
forwarded, and `try_receive` compares it with `NET_SIZE` first. Its sender selects the receive
counter of the token test and the route of every answer, and nothing compares it with anything.

So an iteration uses an index out of range when a frame for this node names a sender that does
not exist, unless it is an answer with a correct checksum, or a data frame with a correct
checksum that is read as empty, asks for no `ACK`, and finds room in the queue:
`inRange_iff`, and over whole runs `along_inRange_iff`.
-/

open Memory Machine

namespace LCore

namespace Indices

open Encryption Responses TokenCheck ReplayWindow

/-- The indices an iteration uses on `routing_table` and `recv_tokens`: the sender in
`_validate_token`, and then the destination in `_forward`, or the sender in the routes of the
answers and in `get_next_recv_token`. `_listen` uses none on `send_tokens`. -/
def indices (dev : Device) (st : Station) : Input → List UInt8
  | .hear message token packet =>
      let r := listen dev st.listener message token packet
      let frame := r.1.frame
      ((listenTest dev st.listener packet).toList.map fun test => test.1) ++
        match r.2 with
        | .nothing | .response _ => []
        | .forwarded _ => [frame.buf framePosDestAddr]
        | .badCrc _ => [frame.buf framePosSendAddr]
        | .rejected _ => [frame.buf framePosSendAddr, frame.buf framePosSendAddr]
        | .message m type =>
            (if (xQueueSend st.newFrameQueue m).1 then [] else [m.address]) ++
              (if type &&& typeMaskNeedAck ≠ 0 then [m.address] else [])
  | .take => []

/-- The sender a packet names. -/
def senderOf : Input → Option UInt8
  | .hear _ _ packet => some (packet.getD 2 0)
  | .take => none

/-- All indices are in range, and a packet whose sender does not exist moves no counter. -/
def InRange (dev : Device) (st : Station) (input : Input) : Prop :=
  (∀ i ∈ indices dev st input, i.toNat < dev.netSize) ∧
    ∀ a ∈ senderOf input, dev.netSize ≤ a.toNat → ∀ st', Responses.step dev st input = some st' →
      st'.listener.globals.recvTokens = st.listener.globals.recvTokens ∧
        st'.listener.globals.sendTokens = st.listener.globals.sendTokens

/-- The packet names an existing sender, or is not for this node, or is an answer with a
correct checksum, or a data frame with a correct checksum that is read as empty, asks for no
`ACK`, and finds room in the queue. -/
def Harmless (dev : Device) (st : Station) : Input → Prop
  | .hear _ _ packet =>
      packet.getD 0 0 = dev.address → packet.getD 1 0 = dev.address →
      dev.netSize ≤ (packet.getD 2 0).toNat →
      dev.crc (maskBytes packet) = packet.getD 6 0 ∧
        (packet.getD 3 0 &&& responseMask ≠ 0 ∨
          ReadsEmpty dev.aes st.listener.globals (packet.drop 7) ∧
            packet.getD 3 0 &&& typeMaskNeedAck = 0 ∧ st.newFrameQueue.length < queueLen)
  | .take => True

/-! ### The counters -/

/-- A listener never touches a send counter. -/
theorem listen_sendTokens (dev : Device) (l : Listener) (message : NewMsg) (token : Mem UInt8)
    (packet : List UInt8) :
    (listen dev l message token packet).1.globals.sendTokens = l.globals.sendTokens := by
  have hget : ∀ (g : Globals) (frame : LoraFrame),
      (getMsgFromFrame dev.aes g frame message).2.1.sendTokens = g.sendTokens := by
    intro g frame
    simp only [getMsgFromFrame]
    split <;> exact decrypt_sendTokens _ _ _ _ _ _ _
  have hdisp : ∀ (g : Globals) (frame : LoraFrame),
      (dispatch dev g frame message token).1.sendTokens = g.sendTokens := by
    intro g frame
    simp only [dispatch]
    split
    · rfl
    · split
      · rfl
      · split <;> exact hget _ _
  simp only [listen]
  split
  · exact hdisp _ _
  · split <;> rfl

/-- A packet that is not taken apart here leads to no token test. -/
theorem listenTest_of_not_received (dev : Device) (l : Listener) {packet : List UInt8}
    (h₇ : 7 ≤ packet.length) (h₁₀₀ : packet.length ≤ 100)
    (hnot : ¬ (packet[0] = dev.address ∧ packet[1] = dev.address)) :
    listenTest dev l packet = none := by
  obtain ⟨frame, hrecv, -⟩ := tryReceive_whole dev l.frame.buf h₇ (by omega)
  have hne : (Routing.tryReceive dev l.frame.buf packet).1 ≠ .received := by
    rw [hrecv]
    by_cases hnext : packet[0] = dev.address
    · rw [if_pos hnext, if_neg fun hdest => hnot ⟨hnext, hdest⟩]
      split
      · split <;> simp
      · simp
    · rw [if_neg hnext]
      simp
  simp only [listenTest, if_neg hne]

/-- The indices of a packet that is not taken apart here. -/
theorem indices_of_not_received (dev : Device) (st : Station) (message : NewMsg)
    (token : Mem UInt8) {packet : List UInt8} (h₇ : 7 ≤ packet.length)
    (h₁₀₀ : packet.length ≤ 100)
    (hnot : ¬ (packet[0] = dev.address ∧ packet[1] = dev.address)) :
    ∀ i ∈ indices dev st (.hear message token packet), i.toNat < dev.netSize := by
  have htest := listenTest_of_not_received dev st.listener h₇ h₁₀₀ hnot
  have hdest := dest_tryReceive dev st.listener.frame.buf h₇ (by omega)
  rw [← listen_frame dev st.listener message token] at hdest
  rcases listen_cases dev st.listener message token h₇ (by omega) with
      ⟨frame, hlisten⟩ | ⟨frame, -, -, hlt, hlisten⟩ | ⟨frame, h0, h1, -, -⟩
  · simp [indices, htest, hlisten]
  · rw [hlisten] at hdest
    intro i hi
    simp only [indices, htest, hlisten, Option.toList_none, List.map_nil, List.nil_append,
      List.mem_singleton] at hi
    rw [hi, hdest]
    exact hlt
  · exact absurd ⟨h0, h1⟩ hnot

/-- The token test a whole packet leads to, if it leads to one, is for its sender. -/
theorem listenTest_address (dev : Device) (l : Listener) {packet : List UInt8}
    (h₇ : 7 ≤ packet.length) (h₁₀₀ : packet.length ≤ 100)
    (h0 : packet[0] = dev.address) (h1 : packet[1] = dev.address) :
    (listenTest dev l packet).toList.map (fun test => test.1) =
      if dev.crc (maskBytes packet) = packet[6] ∧ packet[3] &&& responseMask = 0 ∧
        (opened dev.aes l.globals (packet.drop 7)).2 ≠ 0 then [packet[2]] else [] := by
  have hdrop : (packet.drop 7).length = packet.length - 7 := List.length_drop
  obtain ⟨frame, hrecv, hholds⟩ := tryReceive_whole dev l.frame.buf h₇ (by omega)
  rw [if_pos h0, if_pos h1] at hrecv
  have hf := hholds h0 h1
  have hok := hf.crcOk_iff dev h₇ (by omega)
  have hresp := hf.isResponse_iff h₇
  have h2 : frame.buf framePosSendAddr = packet[2] := hf.get (i := 2) (by omega)
  obtain ⟨hsize, hcells⟩ := hf.encrypted_eq h₇ (by omega)
  have hopened := congrArg Prod.snd (deciphered_eq_opened dev.aes l.globals (by omega) hcells)
  simp only [deciphered] at hopened
  simp only [listenTest, hrecv, if_true, dispatchTest]
  by_cases hcrc : dev.crc (maskBytes packet) = packet[6]
  · by_cases htype : packet[3] &&& responseMask = 0
    · have hnot : isResponse frame = false := by
        rw [← Bool.not_eq_true, hresp]
        exact not_not.mpr htype
      rw [if_pos ⟨hok.mpr hcrc, hnot⟩]
      simp only [hsize, h2, decryptTest, hopened, hcrc, htype, true_and, ne_eq]
      by_cases hzero : (opened dev.aes l.globals (packet.drop 7)).2 = 0
      · simp [hzero]
      · simp [hzero]
    · have hyes : isResponse frame = true := hresp.mpr htype
      rw [if_neg (by rw [hyes]; simp), if_neg fun h => htype h.2.1]
      rfl
  · rw [if_neg fun h => hcrc (hok.mp h.1), if_neg fun h => hcrc h.1]
    rfl

/-- The indices of a frame for this node: the sender, over and over, or nothing at all. -/
theorem indices_of_received (dev : Device) (st : Station) (message : NewMsg)
    (token : Mem UInt8) {packet : List UInt8} (h₇ : 7 ≤ packet.length)
    (h₁₀₀ : packet.length ≤ 100) (h0 : packet[0] = dev.address) (h1 : packet[1] = dev.address) :
    (∀ i ∈ indices dev st (.hear message token packet), i = packet[2]) ∧
    (indices dev st (.hear message token packet) = [] ↔
      dev.crc (maskBytes packet) = packet[6] ∧ (packet[3] &&& responseMask ≠ 0 ∨
        (opened dev.aes st.listener.globals (packet.drop 7)).2 = 0 ∧
          packet[3] &&& typeMaskNeedAck = 0 ∧ st.newFrameQueue.length < queueLen)) := by
  have hdrop : (packet.drop 7).length = packet.length - 7 := List.length_drop
  have htest := listenTest_address dev st.listener h₇ h₁₀₀ h0 h1
  obtain ⟨frame, hholds, hlisten⟩ := listen_received dev st.listener message token h₇
    (by omega) h0 h1
  have h2 : frame.buf framePosSendAddr = packet[2] := hholds.get (i := 2) (by omega)
  simp only [indices, htest, hlisten]
  by_cases hcrc : dev.crc (maskBytes packet) = packet[6]
  · by_cases htype : packet[3] &&& responseMask = 0
    · rw [dispatch_opened dev _ message token hholds h₇ (by omega) hcrc htype]
      by_cases hzero : (opened dev.aes st.listener.globals (packet.drop 7)).2 = 0
      · -- an empty message looks no token up; what is left is the answers
        simp only [hzero, if_true, xQueueSend_fst, decide_eq_true_iff]
        by_cases hneed : packet[3] &&& typeMaskNeedAck = 0
        · by_cases hput : st.newFrameQueue.length < queueLen <;>
            simp [hneed, hput, hcrc, htype]
        · by_cases hput : st.newFrameQueue.length < queueLen <;>
            simp [hneed, hput, hcrc, htype]
      · by_cases hnewer : Newer st.listener.globals.recvTokens
            (tokenOf dev.aes st.listener.globals (packet.drop 7)) packet[2]
        · simp only [if_neg hzero, if_pos hnewer, xQueueSend_fst, decide_eq_true_iff]
          by_cases hneed : packet[3] &&& typeMaskNeedAck = 0 <;>
            by_cases hput : st.newFrameQueue.length < queueLen <;>
            simp [hzero, hneed, hput, hcrc, htype]
        · simp [hzero, hnewer, h2, hcrc, htype]
    · rw [dispatch_response dev _ message token hholds h₇ (by omega) hcrc htype]
      simp [hcrc, htype]
  · rw [dispatch_badCrc dev _ message token hholds h₇ (by omega) hcrc]
    simp [h2, hcrc]

/-- An iteration over a whole packet keeps its indices in range exactly when the packet is
harmless. -/
theorem indices_lt_iff (dev : Device) (st : Station) {input : Input} (hin : InScope input) :
    (∀ i ∈ indices dev st input, i.toNat < dev.netSize) ↔ Harmless dev st input := by
  cases input with
  | take => exact iff_of_true (by simp [indices]) trivial
  | hear message token packet =>
      obtain ⟨h₇, hmax⟩ := hin
      have h₁₀₀ : packet.length ≤ 100 := hmax
      have hdrop : (packet.drop 7).length = packet.length - 7 := List.length_drop
      have hget : ∀ i (hi : i < 7), packet.getD i 0 = packet[i] :=
        fun i hi => List.getD_eq_getElem packet 0 (by omega)
      simp only [Harmless, hget 0 (by omega), hget 1 (by omega), hget 2 (by omega),
        hget 3 (by omega), hget 6 (by omega)]
      by_cases hrecv : packet[0] = dev.address ∧ packet[1] = dev.address
      · obtain ⟨h0, h1⟩ := hrecv
        obtain ⟨hsame, hnil⟩ := indices_of_received dev st message token h₇ h₁₀₀ h0 h1
        rw [opened_eq_zero_iff dev.aes _ (by omega)] at hnil
        rw [← hnil]
        constructor
        · intro hlt _ _ hbad
          rw [List.eq_nil_iff_forall_not_mem]
          intro i hi
          have := hlt i hi
          rw [hsame i hi] at this
          omega
        · intro h i hi
          by_contra hbad
          rw [hsame i hi] at hbad
          rw [h h0 h1 (by omega)] at hi
          exact absurd hi List.not_mem_nil
      · exact iff_of_true (indices_of_not_received dev st message token h₇ h₁₀₀ hrecv)
          fun h0 h1 => absurd ⟨h0, h1⟩ hrecv

/-- When all indices are in range, a packet whose sender does not exist moves no counter. -/
theorem counters_of_indices_lt (dev : Device) (st : Station) (message : NewMsg)
    (token : Mem UInt8) {packet : List UInt8} (h₇ : 7 ≤ packet.length)
    (h₁₀₀ : packet.length ≤ 100)
    (hlt : ∀ i ∈ indices dev st (.hear message token packet), i.toNat < dev.netSize)
    (hbad : dev.netSize ≤ packet[2].toNat) :
    (listen dev st.listener message token packet).1.globals.recvTokens =
      st.listener.globals.recvTokens := by
  rw [listen_recvTokens]
  cases htest : listenTest dev st.listener packet with
  | none => rfl
  | some test =>
      have hmem : test.1 ∈ indices dev st (.hear message token packet) := by
        simp [indices, htest]
      have hrecv : packet[0] = dev.address ∧ packet[1] = dev.address := by
        by_contra hnot
        rw [listenTest_of_not_received dev st.listener h₇ h₁₀₀ hnot] at htest
        exact absurd htest (by simp)
      obtain ⟨hsame, -⟩ := indices_of_received dev st message token h₇ h₁₀₀ hrecv.1 hrecv.2
      have hin := hlt _ hmem
      rw [hsame _ hmem] at hin
      omega

/-- One iteration is in range exactly when its packet is harmless. -/
theorem inRange_iff (dev : Device) (st : Station) {input : Input} (hin : InScope input) :
    InRange dev st input ↔ Harmless dev st input := by
  rw [← indices_lt_iff dev st hin]
  constructor
  · intro h
    exact h.1
  · intro hlt
    refine ⟨hlt, ?_⟩
    intro a ha hbad st' hstep
    cases input with
    | take => exact absurd ha (by simp [senderOf])
    | hear message token packet =>
        obtain ⟨h₇, h₁₀₀⟩ := hin
        have h2 : packet.getD 2 0 = packet[2] := List.getD_eq_getElem packet 0 (by omega)
        have ha : packet[2] = a := h2.symm.trans (Option.some.inj ha)
        rw [← ha] at hbad
        have hst : st'.listener = (listen dev st.listener message token packet).1 := by
          rw [← Option.some.inj hstep, iterate]
          dsimp only
          split <;> rfl
        rw [hst]
        exact ⟨counters_of_indices_lt dev st message token h₇ h₁₀₀ hlt hbad,
          listen_sendTokens dev st.listener message token packet⟩

/-- **Table indices.** Over every sequence of whole packets that fit the buffer, from every
state of a listener and its queue: every index is below `NET_SIZE`, and no frame with a bad
sender moves a counter, if and only if every packet is harmless when it arrives. -/
theorem along_inRange_iff (dev : Device) (st : Station) (inputs : List Input)
    (hscope : ∀ i ∈ inputs, InScope i) :
    Lts.Along (Responses.step dev) (InRange dev) st inputs ↔
      Lts.Along (Responses.step dev) (Harmless dev) st inputs :=
  Lts.along_congr fun st input hmem => inRange_iff dev st (hscope input hmem)

/-- A data frame from `send` that asks for an `ACK`, with an empty message under token `1`. -/
def dataFrom (aes : Aes) (crc : List UInt8 → UInt8) (send : UInt8) : Input :=
  .hear ⟨0, null, 0⟩ null
    (frameBytes crc 0 0 send typeMaskNeedAck initTtl (sealed aes 1 []))

/-- A data frame from `send` that asks for nothing, with a single byte for a payload. -/
def byteFrom (crc : List UInt8 → UInt8) (send : UInt8) : Input :=
  .hear ⟨0, null, 0⟩ null (frameBytes crc 0 0 send 0 initTtl [1])

/-- A data frame is in scope, whoever sends it. -/
theorem inScope_dataFrom (aes : Aes) (crc : List UInt8 → UInt8) (send : UInt8) :
    InScope (dataFrom aes crc send) := by
  constructor <;> rw [length_frameBytes, length_sealed] <;> decide

/-- A single byte is dropped, whoever sends it. -/
theorem harmless_byteFrom (aes : Aes) (crc : List UInt8 → UInt8) (send : UInt8) :
    Harmless ((Config.direct 2 aes crc).device 0) started (byteFrom crc send) := by
  intro _ _ _
  refine ⟨rfl, .inr ⟨?_, show (0 : UInt8) &&& typeMaskNeedAck = 0 by decide, by decide⟩⟩
  intro hdvd
  exact absurd hdvd (show ¬ 16 ∣ 1 by decide)

/-- In a network of two, a frame of node `9` that is read as empty, and a message of node `1`. -/
theorem along_inRange_two :
    (∀ i ∈ [byteFrom Crc8.crc8 9, dataFrom (Equiv.refl Block) Crc8.crc8 1], InScope i) ∧
    Lts.Along (Responses.step ((Config.direct 2 (Equiv.refl Block) Crc8.crc8).device 0))
      (InRange ((Config.direct 2 (Equiv.refl Block) Crc8.crc8).device 0)) started
      [byteFrom Crc8.crc8 9, dataFrom (Equiv.refl Block) Crc8.crc8 1] := by
  have hscope : ∀ i ∈ [byteFrom Crc8.crc8 9, dataFrom (Equiv.refl Block) Crc8.crc8 1],
      InScope i := by
    intro i hi
    rw [List.mem_cons, List.mem_singleton] at hi
    rcases hi with rfl | rfl
    · constructor <;> rw [length_frameBytes] <;> decide
    · exact inScope_dataFrom _ _ _
  refine ⟨hscope, (along_inRange_iff _ started _ hscope).mpr
    ⟨harmless_byteFrom _ _ 9, fun st _ => ⟨?_, fun _ _ => trivial⟩⟩⟩
  intro _ _ hbad
  exact absurd hbad (show ¬ 2 ≤ 1 by omega)

/-- Node `9` of a network of two: its message is tested with the receive counter `9`, and
answered along the route to node `9`, under every key and checksum. -/
theorem not_inRange_forged :
    ¬ ∃ aes crc, Lts.Along (Responses.step ((Config.direct 2 aes crc).device 0))
      (InRange ((Config.direct 2 aes crc).device 0)) started [dataFrom aes crc 9] := by
  rintro ⟨aes, crc, h, -⟩
  have hharmless := (inRange_iff _ started (inScope_dataFrom aes crc 9)).mp h
  obtain ⟨-, hresp | ⟨-, hneed, -⟩⟩ := hharmless rfl rfl (show 2 ≤ 9 by omega)
  · exact hresp needAck_and_responseMask
  · exact absurd (show typeMaskNeedAck &&& typeMaskNeedAck = 0 from hneed) (by decide)

end Indices

end LCore
