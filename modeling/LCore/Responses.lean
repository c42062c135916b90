import LCore.Frame
import LCore.Lib.Crc8
import LCore.Lib.Lts

/-!
# What a Listener Answers

A listener that takes a new message hands it to `new_frame_queue` and answers its sender. When
the queue refuses the message an `ERROR` goes out, and then, because the branch goes on, an
`ACK` as well: `answers_refused`. So the answers tell the truth about the queue exactly at the
steps at which the queue has room: `tellsTruth_iff`, and over whole runs `along_tellsTruth_iff`.
-/

open Memory

namespace LCore

namespace Responses

/-- A listener with the queue it fills. -/
structure Station where
  listener : Listener
  newFrameQueue : List NewMsg

/-- What happens at a station: a packet is on the radio, with the uninitialised locals of the
iteration that takes it, or the application takes a message out of the queue. -/
inductive Input
  | hear (message : NewMsg) (token : Mem UInt8) (packet : List UInt8)
  | take

/-- An iteration of `_listen` to its end: the station, whether a message was handed to
`new_frame_queue` and put there, and the packets transmitted. -/
def iterate (dev : Device) (st : Station) (message : NewMsg) (token : Mem UInt8)
    (packet : List UInt8) : Station × Option Bool × List (List UInt8) :=
  let r := listen dev st.listener message token packet
  match r.2 with
  | .message m type =>
      let q := xQueueSend st.newFrameQueue m
      (⟨r.1, q.2⟩, some q.1, answers dev q.1 m type)
  | .forwarded p | .badCrc p | .rejected p => (⟨r.1, st.newFrameQueue⟩, none, [p])
  | .nothing | .response _ => (⟨r.1, st.newFrameQueue⟩, none, [])

/-- The station after an input. -/
def step (dev : Device) (st : Station) : Input → Option Station
  | .hear message token packet => some (iterate dev st message token packet).1
  | .take => some { st with newFrameQueue := st.newFrameQueue.tail }

/-- An `ACK` to `address`, as `_send` transmits it. -/
def ackTo (dev : Device) (address : UInt8) : List UInt8 :=
  transmit dev address null 0 typeMaskAck

/-- An `ERROR` to `address`. -/
def errorTo (dev : Device) (address : UInt8) : List UInt8 :=
  transmit dev address null 0 typeMaskError

/-- A new message whose sender asks for an answer: the frame has a correct checksum, is no
answer itself, and its payload decrypts. -/
def Asks (dev : Device) (st : Station) (input : Input) (m : NewMsg) : Prop :=
  match input with
  | .hear message token packet => ∃ type, type &&& typeMaskNeedAck ≠ 0 ∧
      (listen dev st.listener message token packet).2 = .message m type
  | .take => False

/-- The answer to a new message is a single one to its sender, `ACK` exactly when the message
was put into the queue and `ERROR` exactly when it was refused. -/
def TellsTruth (dev : Device) (st : Station) (input : Input) : Prop :=
  match input with
  | .hear message token packet => ∀ m, Asks dev st input m →
      let r := iterate dev st message token packet
      r.2.2.length = 1 ∧ (r.2.2 = [ackTo dev m.address] ↔ r.2.1 = some true) ∧
        (r.2.2 = [errorTo dev m.address] ↔ r.2.1 = some false)
  | .take => True

/-- The queue has room for the message of this input. -/
def HasRoom (dev : Device) (st : Station) (input : Input) : Prop :=
  ∀ m, Asks dev st input m → st.newFrameQueue.length < queueLen

/-! ### One iteration -/

/-- The two answers are different packets: their type bytes differ. -/
theorem ackTo_ne_errorTo (dev : Device) (address : UInt8) :
    ackTo dev address ≠ errorTo dev address := by
  intro h
  rw [ackTo, errorTo, transmit_null, transmit_null] at h
  simp [frameBytes, typeMaskAck, typeMaskError] at h

/-- With room in the queue the message is put there and acknowledged. -/
theorem answers_put {dev : Device} {m : NewMsg} {type : UInt8}
    (htype : type &&& typeMaskNeedAck ≠ 0) :
    answers dev true m type = [ackTo dev m.address] := by
  rw [answers, if_pos rfl, if_pos htype]
  rfl

/-- A refused message is answered twice, with an `ERROR` and with an `ACK`. -/
theorem answers_refused {dev : Device} {m : NewMsg} {type : UInt8}
    (htype : type &&& typeMaskNeedAck ≠ 0) :
    answers dev false m type = [errorTo dev m.address, ackTo dev m.address] := by
  rw [answers, if_neg (by decide), if_pos htype]
  rfl

/-- The answers to one packet tell the truth exactly when the queue has room. -/
theorem tellsTruth_iff (dev : Device) (st : Station) (input : Input) :
    TellsTruth dev st input ↔ HasRoom dev st input := by
  cases input with
  | take => exact iff_of_true trivial fun m h => h.elim
  | hear message token packet =>
      refine forall_congr' fun m => imp_congr_right fun hasks => ?_
      obtain ⟨type, htype, hheard⟩ := hasks
      simp only [iterate, hheard]
      by_cases hroom : st.newFrameQueue.length < queueLen
      · have hput : (xQueueSend st.newFrameQueue m).1 = true := by
          rw [xQueueSend_fst, decide_eq_true hroom]
        simp [hput, answers_put htype, hroom, ackTo_ne_errorTo dev m.address]
      · have hput : (xQueueSend st.newFrameQueue m).1 = false := by
          rw [xQueueSend_fst, decide_eq_false hroom]
        simp [hput, answers_refused htype, hroom]

/-- **Answers and the queue.** From every state of a listener and over every run, the answers
tell the truth at every step if and only if the queue has room whenever a new message asks for
an answer. -/
theorem along_tellsTruth_iff (dev : Device) (st : Station) (inputs : List Input) :
    Lts.Along (step dev) (TellsTruth dev) st inputs ↔
      Lts.Along (step dev) (HasRoom dev) st inputs :=
  Lts.along_congr fun st input _ => tellsTruth_iff dev st input

/-- A listener of node `0` whose application has left `QUEUE_LEN` messages in the queue. -/
def busy : Station :=
  ⟨⟨LoraFrame.init, ⟨fun _ => 0, fun _ => 0, null⟩⟩, List.replicate queueLen ⟨1, null, 0⟩⟩

/-- The frame of an empty message from node `1` with token `1`. -/
def fifth (aes : Aes) (crc : List UInt8 → UInt8) : Input :=
  .hear ⟨0, null, 0⟩ null
    (frameBytes crc 0 0 1 typeMaskNeedAck initTtl (Encryption.sealed aes 1 []))

/-- The fifth message is refused and acknowledged, under every AES key and checksum. -/
theorem not_tellsTruth_fifth :
    ¬ ∃ aes crc, Lts.Along (step ((Config.direct 2 aes crc).device 0))
      (TellsTruth ((Config.direct 2 aes crc).device 0)) busy [fifth aes crc] := by
  rintro ⟨aes, crc, htruth, -⟩
  obtain ⟨frame, encBuf, out, -, hlisten⟩ := listen_frameBytes_data
    ((Config.direct 2 aes crc).device 0) busy.listener ⟨0, null, 0⟩ null 1 typeMaskNeedAck
    initTtl (t := 1) (m := []) (by decide) (by decide) (by decide) (by decide)
  have hasks : Asks ((Config.direct 2 aes crc).device 0) busy (fifth aes crc)
      ⟨1, out, UInt8.ofNat 0⟩ :=
    ⟨typeMaskNeedAck, by decide, congrArg Prod.snd hlisten⟩
  have hroom := (tellsTruth_iff _ _ _).mp htruth ⟨1, out, UInt8.ofNat 0⟩ hasks
  exact absurd hroom (by decide)

end Responses

end LCore
