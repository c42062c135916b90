import LCore.Frame
import LCore.Lib.Crc8
import LCore.Lib.Lts

/-!
# The Receive Buffers

`try_receive_bytes` stores a packet of any length in a buffer of `MAX_FRAME_SIZE` bytes, and
`_listen` reads the header of a packet that may be shorter than one, so what stands there may be
left over from earlier packets. `accesses` lists what an iteration writes, sums and copies.

An iteration keeps to its buffers exactly when the packet fits and is not a short one that the
left-over bytes complete to a data frame for this node with a correct checksum:
`safe_iff`, and over whole runs `along_safe_iff`.
-/

open Memory Machine

namespace LCore

namespace Bounds

/-- An access to a buffer of `MAX_FRAME_SIZE` bytes: a byte stored at an index, a length given
to the checksum, a length given to `memcpy`. -/
inductive Access
  | write (index : ℕ)
  | sum (length : ℕ)
  | copy (length : ℕ)
  deriving DecidableEq

/-- The access stays inside the buffer. -/
def Access.InBounds : Access → Prop
  | .write index => index < maxFrameSize
  | .sum length => length ≤ maxFrameSize
  | .copy length => length ≤ maxFrameSize

/-- The stores of the loop of `try_receive_bytes`. -/
def receiveWrites : List UInt8 → ℕ → List Access
  | [], _ => []
  | _ :: rest, pos => .write pos :: receiveWrites rest (pos + 1)

/-- What `_send` sums: the frame it transmits. -/
def sendSums (packets : List (List UInt8)) : List Access :=
  packets.map fun p => .sum p.length

/-- Whether a frame gets past the checksum test into `_get_msg_from_frame`. -/
def getsPast (dev : Device) (frame : LoraFrame) : Bool :=
  crcOk dev frame && !isResponse frame

/-- The accesses of an iteration of `_listen`: storing the packet, and for a frame this node
received the checksum, the copy in `_get_msg_from_frame`, and the answers, whether or not the
queue has room. -/
def accesses (dev : Device) (l : Listener) (message : NewMsg) (token : Mem UInt8)
    (packet : List UInt8) : List Access :=
  let r := Routing.tryReceive dev l.frame.buf packet
  let frame := r.2.1
  receiveWrites packet 0 ++
    (if r.1 = .received then
      .sum frame.size.toNat ::
        ((if getsPast dev frame = true then
          [.copy (UInt8.ofInt (frame.size.toNat - framePosMsg)).toNat] else []) ++
        match (listen dev l message token packet).2 with
        | .badCrc p | .rejected p => sendSums [p]
        | .message m type => sendSums (answers dev true m type ++ answers dev false m type)
        | _ => [])
    else [])

/-- An iteration keeps to its buffers, and no frame shorter than the header gets past the
checksum test into `_get_msg_from_frame`. -/
def Safe (dev : Device) (l : Listener) (message : NewMsg) (token : Mem UInt8)
    (packet : List UInt8) : Prop :=
  (∀ a ∈ accesses dev l message token packet, a.InBounds) ∧
    let r := Routing.tryReceive dev l.frame.buf packet
    (r.1 = .received → getsPast dev r.2.1 = true → framePosMsg ≤ packet.length)

/-- The packet fits into the buffer, and if it is shorter than the header then the bytes left
in the buffer do not complete it to a data frame for this node that passes the checksum
test. -/
def Fits (dev : Device) (l : Listener) (packet : List UInt8) : Prop :=
  let frame : LoraFrame := ⟨load packet l.frame.buf, UInt8.ofNat packet.length⟩
  packet.length ≤ maxFrameSize ∧
    (packet.length < framePosMsg → ¬ (frame.buf framePosNextAddr = dev.address ∧
      frame.buf framePosDestAddr = dev.address ∧ crcOk dev frame = true ∧
      isResponse frame = false))

/-- A packet on the radio, with the uninitialised locals of the iteration that takes it. -/
structure Input where
  message : NewMsg
  token : Mem UInt8
  packet : List UInt8

/-- The listener after a packet. -/
def step (dev : Device) (l : Listener) (i : Input) : Option Listener :=
  some (listen dev l i.message i.token i.packet).1

/-! ### One iteration -/

/-- The loop stores the packet from `pos` on, byte by byte. -/
theorem mem_receiveWrites {packet : List UInt8} {pos : ℕ} {a : Access} :
    a ∈ receiveWrites packet pos ↔ ∃ i, i < packet.length ∧ a = .write (pos + i) := by
  induction packet generalizing pos with
  | nil => simp [receiveWrites]
  | cons b rest ih =>
      rw [receiveWrites, List.mem_cons, ih]
      constructor
      · rintro (rfl | ⟨i, hi, rfl⟩)
        · exact ⟨0, by simp, rfl⟩
        · exact ⟨i + 1, by simpa using hi, by congr 1; omega⟩
      · rintro ⟨i, hi, rfl⟩
        cases i with
        | zero => exact .inl rfl
        | succ i => exact .inr ⟨i, by simpa using hi, by congr 1; omega⟩

/-- The length of a packet of `transmit` is computed in a byte. -/
theorem length_transmit (dev : Device) (address : UInt8) (msg : Mem UInt8)
    (msgSize flags : UInt8) :
    (transmit dev address msg msgSize flags).length =
      (UInt8.ofInt (framePosMsg + msgSize.toNat)).toNat :=
  length_cells _ _

/-- Every answer is short. -/
theorem length_answers {dev : Device} {put : Bool} {m : NewMsg} {type : UInt8} {p : List UInt8}
    (hp : p ∈ answers dev put m type) : p.length = 7 := by
  rw [answers, List.mem_append] at hp
  rcases hp with hp | hp
  · split at hp
    · exact absurd hp List.not_mem_nil
    · rw [List.mem_singleton.mp hp, length_transmit]
      rfl
  · split at hp
    · rw [List.mem_singleton.mp hp, length_transmit]
      rfl
    · exact absurd hp List.not_mem_nil

/-- What an iteration answers at once is no longer than a header and a token. -/
theorem length_dispatch_answer {dev : Device} {g : Encryption.Globals} {frame : LoraFrame}
    {message : NewMsg} {token : Mem UInt8} {p : List UInt8}
    (h : (dispatch dev g frame message token).2 = .badCrc p ∨
      (dispatch dev g frame message token).2 = .rejected p) : p.length ≤ 9 := by
  unfold dispatch at h
  split at h
  · rcases h with h | h
    · rw [← Heard.badCrc.inj h, length_transmit]
      decide
    · exact absurd h (by simp)
  · split at h
    · exact absurd h (by simp)
    · dsimp only at h
      split at h
      · rcases h with h | h
        · exact absurd h (by simp)
        · rw [← Heard.rejected.inj h, length_transmit]
          decide
      · exact absurd h (by simp)

/-- An answer of the listener has at most two bytes behind its header. -/
theorem length_listen_answer {dev : Device} {l : Listener} {message : NewMsg}
    {token : Mem UInt8} {packet p : List UInt8}
    (h : (listen dev l message token packet).2 = .badCrc p ∨
      (listen dev l message token packet).2 = .rejected p) : p.length ≤ 9 := by
  by_cases hrecv : (Routing.tryReceive dev l.frame.buf packet).1 = .received
  · simp only [listen, if_pos hrecv] at h
    exact length_dispatch_answer h
  · simp only [listen, if_neg hrecv] at h
    split at h <;> obtain h | h := h <;> exact absurd h (by simp)

/-- Sending short packets leaves no array. -/
theorem sendSums_inBounds {packets : List (List UInt8)} (h : ∀ p ∈ packets, p.length ≤ 9) :
    ∀ a ∈ sendSums packets, a.InBounds := by
  intro a ha
  obtain ⟨p, hp, rfl⟩ := List.mem_map.mp ha
  exact Nat.le_trans (h p hp) (by decide)

section Iteration

variable (dev : Device) (l : Listener) (message : NewMsg) (token : Mem UInt8)
  {packet : List UInt8} (h₁ : 1 ≤ packet.length) (h₂₅₅ : packet.length ≤ 255)

include h₁ h₂₅₅

/-- A frame is received when the two bytes in the buffer name this node. -/
theorem received_iff :
    (Routing.tryReceive dev l.frame.buf packet).1 = .received ↔
      load packet l.frame.buf framePosNextAddr = dev.address ∧
        load packet l.frame.buf framePosDestAddr = dev.address := by
  rw [tryReceive_eq dev l.frame.buf (List.ne_nil_of_length_pos h₁) h₂₅₅, framePosNextAddr,
    framePosDestAddr]
  by_cases hnext : load packet l.frame.buf 0 = dev.address
  · by_cases hdest : load packet l.frame.buf 1 = dev.address
    · rw [if_pos hnext, if_pos hdest]
      exact iff_of_true rfl ⟨hnext, hdest⟩
    · rw [if_pos hnext, if_neg hdest]
      refine iff_of_false ?_ fun h => hdest h.2
      split
      · rw [Routing.forward]
        split <;> simp
      · simp
  · rw [if_neg hnext]
    exact iff_of_false (by simp) fun h => hnext h.1

/-- It is then the packet in front of what the buffer held before. -/
theorem frame_of_received
    (hrecv : (Routing.tryReceive dev l.frame.buf packet).1 = .received) :
    (Routing.tryReceive dev l.frame.buf packet).2.1 =
      ⟨load packet l.frame.buf, UInt8.ofNat packet.length⟩ := by
  obtain ⟨hnext, hdest⟩ := (received_iff dev l h₁ h₂₅₅).mp hrecv
  rw [framePosNextAddr] at hnext
  rw [framePosDestAddr] at hdest
  rw [tryReceive_eq dev l.frame.buf (List.ne_nil_of_length_pos h₁) h₂₅₅, if_pos hnext,
    if_pos hdest]

/-- A short packet does not get into `_get_msg_from_frame` when the packet fits. -/
theorem le_of_getsPast (hfits : Fits dev l packet)
    (hrecv : (Routing.tryReceive dev l.frame.buf packet).1 = .received)
    (hpast : getsPast dev (Routing.tryReceive dev l.frame.buf packet).2.1 = true) :
    framePosMsg ≤ packet.length := by
  have hhead : framePosMsg = 7 := rfl
  by_contra hlt
  rw [frame_of_received dev l h₁ h₂₅₅ hrecv, getsPast, Bool.and_eq_true,
    Bool.not_eq_true'] at hpast
  obtain ⟨hnext, hdest⟩ := (received_iff dev l h₁ h₂₅₅).mp hrecv
  exact hfits.2 (by omega) ⟨hnext, hdest, hpast.1, hpast.2⟩

/-- What an iteration touches when the packet fits. -/
theorem accesses_inBounds (hfits : Fits dev l packet) :
    ∀ a ∈ accesses dev l message token packet, a.InBounds := by
  have hmax : maxFrameSize = 100 := rfl
  have hhead : framePosMsg = 7 := rfl
  have hle : packet.length ≤ 100 := hfits.1
  intro a ha
  rw [accesses, List.mem_append] at ha
  rcases ha with ha | ha
  · obtain ⟨i, hi, rfl⟩ := mem_receiveWrites.mp ha
    show 0 + i < maxFrameSize
    omega
  · split at ha
    · rename_i hrecv
      have hsize : (Routing.tryReceive dev l.frame.buf packet).2.1.size.toNat =
          packet.length := by
        rw [frame_of_received dev l h₁ h₂₅₅ hrecv, UInt8.toNat_ofNat']
        omega
      rw [hsize, List.mem_cons, List.mem_append] at ha
      rcases ha with rfl | ha | ha
      · exact hle
      · split at ha
        · rw [List.mem_singleton.mp ha]
          show (UInt8.ofInt (packet.length - framePosMsg)).toNat ≤ maxFrameSize
          have hge := le_of_getsPast dev l h₁ h₂₅₅ hfits hrecv ‹_›
          rw [toNat_ofInt]
          omega
        · exact absurd ha List.not_mem_nil
      · split at ha
        · rename_i p heq
          exact sendSums_inBounds (fun q hq => by
            rw [List.mem_singleton.mp hq]
            exact length_listen_answer (.inl heq)) a ha
        · rename_i p heq
          exact sendSums_inBounds (fun q hq => by
            rw [List.mem_singleton.mp hq]
            exact length_listen_answer (.inr heq)) a ha
        · refine sendSums_inBounds (fun q hq => ?_) a ha
          rw [List.mem_append] at hq
          have hseven : q.length = 7 := hq.elim length_answers length_answers
          omega
        · exact absurd ha List.not_mem_nil
    · exact absurd ha List.not_mem_nil

/-- An iteration keeps to its buffers exactly when the packet fits. -/
theorem safe_iff : Safe dev l message token packet ↔ Fits dev l packet := by
  have hmax : maxFrameSize = 100 := rfl
  have hhead : framePosMsg = 7 := rfl
  constructor
  · rintro ⟨hbounds, hpast⟩
    refine ⟨?_, fun hshort hdata => ?_⟩
    · by_contra hlong
      have hmem : Access.write (0 + 100) ∈ accesses dev l message token packet :=
        List.mem_append_left _ (mem_receiveWrites.mpr ⟨100, by omega, rfl⟩)
      have hlt : 0 + 100 < maxFrameSize := hbounds _ hmem
      omega
    · obtain ⟨hnext, hdest, hcrc, hresp⟩ := hdata
      have hrecv := (received_iff dev l h₁ h₂₅₅).mpr ⟨hnext, hdest⟩
      have hge := hpast hrecv
      rw [frame_of_received dev l h₁ h₂₅₅ hrecv, getsPast, hcrc, hresp] at hge
      exact absurd (hge rfl) (by omega)
  · intro hfits
    exact ⟨accesses_inBounds dev l message token h₁ h₂₅₅ hfits,
      le_of_getsPast dev l h₁ h₂₅₅ hfits⟩

end Iteration

/-- **The receive buffers.** Over every sequence of packets of 1 to 255 bytes, from every state
of the listener, all accesses stay inside the buffers, and no frame shorter than the header
gets into `_get_msg_from_frame`, if and only if every packet fits. -/
theorem along_safe_iff (dev : Device) (l : Listener) (inputs : List Input)
    (hlen : ∀ i ∈ inputs, 1 ≤ i.packet.length ∧ i.packet.length ≤ 255) :
    Lts.Along (step dev) (fun l i => Safe dev l i.message i.token i.packet) l inputs ↔
      Lts.Along (step dev) (fun l i => Fits dev l i.packet) l inputs :=
  Lts.along_congr fun l i hi =>
    safe_iff dev l i.message i.token (hlen i hi).1 (hlen i hi).2

/-- The listener as `_listen` starts. -/
def fresh : Listener := ⟨LoraFrame.init, ⟨fun _ => 0, fun _ => 0, null⟩⟩

/-- A packet on the radio, with uninitialised locals that happen to be zero. -/
def packetOf (bytes : List UInt8) : Input := ⟨⟨0, null, 0⟩, null, bytes⟩

/-- Node `0` of two. -/
def zero : Device := (Config.direct 2 (Equiv.refl Block) Crc8.crc8).device 0

/-- Two packets that fit: a short one that is not for this node, and a whole frame. -/
theorem along_safe_two :
    (∀ i ∈ [packetOf [1], packetOf [0, 0, 1, 16, 0, 4, 0]],
      1 ≤ i.packet.length ∧ i.packet.length ≤ 255) ∧
    Lts.Along (step zero) (fun l i => Safe zero l i.message i.token i.packet) fresh
      [packetOf [1], packetOf [0, 0, 1, 16, 0, 4, 0]] := by
  have hlen : ∀ i ∈ [packetOf [1], packetOf [0, 0, 1, 16, 0, 4, 0]],
      1 ≤ i.packet.length ∧ i.packet.length ≤ 255 := by
    intro i hi
    rw [List.mem_cons, List.mem_singleton] at hi
    rcases hi with rfl | rfl <;> decide
  refine ⟨hlen, (along_safe_iff zero fresh _ hlen).mpr
    ⟨⟨by decide, ?_⟩, fun l _ => ⟨⟨by decide, ?_⟩, fun _ _ => trivial⟩⟩⟩
  · rintro - ⟨hnext, -⟩
    exact absurd hnext (by decide)
  · intro hshort
    exact absurd hshort (by decide)

/-- Neither long nor short packets are kept out: a packet of 101 bytes is stored past the end
of the buffer, under every configuration, and the first packet a node `0` hears may be the
single byte `0`, which gets into `_get_msg_from_frame` and has 250 bytes copied. -/
theorem not_safe :
    (¬ ∃ dev, Lts.Along (step dev) (fun l i => Safe dev l i.message i.token i.packet) fresh
      [packetOf (List.replicate 101 0)]) ∧
    ¬ Lts.Along (step zero) (fun l i => Safe zero l i.message i.token i.packet) fresh
      [packetOf [0]] := by
  constructor
  · rintro ⟨dev, hsafe, -⟩
    have hfits := (safe_iff dev fresh _ _ (by decide) (by decide)).mp hsafe
    exact absurd hfits.1 (by decide)
  · rintro ⟨hsafe, -⟩
    have hfits := (safe_iff zero fresh _ _ (by decide) (by decide)).mp hsafe
    exact hfits.2 (by decide) ⟨by decide, by decide, by decide, by decide⟩

end Bounds

end LCore
