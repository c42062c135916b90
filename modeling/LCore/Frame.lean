import LCore.Transport

/-!
# Frames on the Air

What the functions of the transport and routing layers do to whole frames, stated on the
lists of bytes that are on the air. `frameBytes` is the form of every frame a node builds, and
`maskBytes` is the string of bytes both ends put into the checksum.

## Main results

* `transmit_eq`: the frame `_send` puts on the air.
* `tryReceive_eq`, `tryReceive_whole`: routing, by the address bytes and the hop counter.
* `Holds.crcOk_iff`: the checksum test on a packet.
* `listen_of_next_ne`, `listen_relay`, `listen_received`: what an iteration of the listener
  comes to.
* `dispatch_badCrc`, `dispatch_response`, `dispatch_data`: what it makes of a frame that ends
  here.
* `listen_frameBytes_relay`, `listen_frameBytes_response`, `listen_frameBytes_data`: the same
  for the frames nodes build.
-/

open Memory Machine BigEndian

namespace LCore

/-- A frame: the three addresses, the type, the unused id, the hop counter, the checksum and
the payload. The checksum is over the same bytes with the addresses and itself zero and the hop
counter at its first value. -/
def frameBytes (crc : List UInt8 → UInt8) (next dest send type ttl : UInt8)
    (payload : List UInt8) : List UInt8 :=
  [next, dest, send, type, 0, ttl, crc ([0, 0, 0, type, 0, initTtl, 0] ++ payload)] ++ payload

@[simp] theorem length_frameBytes (crc : List UInt8 → UInt8) (next dest send type ttl : UInt8)
    (payload : List UInt8) :
    (frameBytes crc next dest send type ttl payload).length = 7 + payload.length := by
  simp [frameBytes]
  omega

/-! ### Transmitting -/

/-- The seven bytes of a header. -/
theorem cells_seven (m : Mem UInt8) : cells m 7 = [m 0, m 1, m 2, m 3, m 4, m 5, m 6] := rfl

section Transmit

variable (dev : Device) (address flags : UInt8) {msg : Mem UInt8} {payload : List UInt8}
  (hlen : payload.length ≤ 93) (hmsg : cells msg payload.length = payload)

include hlen hmsg

/-- The buffer of a new frame once the payload is copied in: seven zero bytes and the
payload. -/
theorem cells_newFrame :
    let buf := if UInt8.ofNat payload.length > 0 then
        copy LoraFrame.init.buf framePosMsg msg (UInt8.ofNat payload.length).toNat
      else LoraFrame.init.buf
    cells (shift buf 7) payload.length = payload ∧ ∀ i : ℤ, i < 7 → buf i = 0 := by
  have hsize : (UInt8.ofNat payload.length).toNat = payload.length := by
    rw [UInt8.toNat_ofNat']
    omega
  intro buf
  by_cases hpos : UInt8.ofNat payload.length > 0
  · have hbuf : buf = copy LoraFrame.init.buf framePosMsg msg payload.length := by
      simp only [buf, if_pos hpos, hsize]
    rw [hbuf]
    refine ⟨(cells_shift_copy _ _ _ _).trans hmsg, fun i hi => ?_⟩
    rw [copy_of_lt (show i < framePosMsg from hi)]
    rfl
  · have hnil : payload.length = 0 := by
      rw [gt_iff_lt, UInt8.lt_iff_toNat_lt, hsize] at hpos
      have : (0 : UInt8).toNat = 0 := rfl
      omega
    refine ⟨?_, fun i _ => ?_⟩
    · rw [hnil, List.length_eq_zero_iff.mp hnil]
      rfl
    · simp only [buf, if_neg hpos]
      rfl

/-- The frame `_send` puts on the air. -/
theorem transmit_eq :
    transmit dev address msg (UInt8.ofNat payload.length) flags =
      frameBytes dev.crc (UInt8.ofInt (dev.routingTable address)) address dev.address flags
        initTtl payload := by
  obtain ⟨hpay, hzero⟩ := cells_newFrame hlen hmsg
  have hsize : (UInt8.ofInt (framePosMsg + (UInt8.ofNat payload.length).toNat)).toNat =
      7 + payload.length := by
    rw [toNat_ofInt, UInt8.toNat_ofNat', framePosMsg]
    omega
  have htype : (0 : UInt8) ||| frameVersion <<< (8 - versionSizeBits) ||| flags = flags := by
    simp [frameVersion]
  simp only [transmit, buildFrame, Routing.send, Radio.sendBytes, hsize, htype]
  generalize (if UInt8.ofNat payload.length > 0 then
    copy LoraFrame.init.buf framePosMsg msg (UInt8.ofNat payload.length).toNat
    else LoraFrame.init.buf) = base at hpay hzero ⊢
  rw [cells_add, cells_add]
  simp only [cells_seven, Nat.cast_ofNat, framePosTtl, framePosType, framePosDestAddr,
    framePosNextAddr, framePosSendAddr, framePosCrc]
  have hshift : ∀ (m : Mem UInt8) (k : ℤ) (v : UInt8), k < 7 →
      cells (shift (write m k v) 7) payload.length = cells (shift m 7) payload.length :=
    fun m k v hk => cells_shift_write_of_lt hk _
  simp only [hshift _ 0 _ (by omega), hshift _ 1 _ (by omega), hshift _ 2 _ (by omega),
    hshift _ 3 _ (by omega), hshift _ 5 _ (by omega), hshift _ 6 _ (by omega)]
  rw [hpay]
  simp [write, frameBytes, hzero 4 (by omega)]

end Transmit

/-- The type byte of what `_send` transmits. -/
theorem type_transmit (dev : Device) (address : UInt8) (msg : Mem UInt8) {size : UInt8}
    (flags : UInt8) (hsize : size.toNat ≤ 93) :
    (transmit dev address msg size flags).getD 3 0 = flags := by
  have hlen : (cells msg size.toNat).length = size.toNat := length_cells msg size.toNat
  have hle : (cells msg size.toNat).length ≤ 93 := hlen.trans_le hsize
  have heq := transmit_eq dev address flags hle (congrArg (cells msg) hlen)
  rw [hlen, UInt8.ofNat_toNat] at heq
  rw [heq]
  rfl

/-- A frame without a payload. -/
theorem transmit_null (dev : Device) (address flags : UInt8) :
    transmit dev address null 0 flags =
      frameBytes dev.crc (UInt8.ofInt (dev.routingTable address)) address dev.address flags
        initTtl [] := by
  have hnil : cells null ([] : List UInt8).length = [] := rfl
  have heq := transmit_eq dev address flags (by simp) hnil
  rw [← heq]
  rfl

/-- A frame with the token that is asked for, whatever the array for it held before. -/
theorem transmit_token (dev : Device) (g : Encryption.Globals) (token : Mem UInt8)
    (address flags : UInt8) :
    transmit dev address (Encryption.getNextRecvToken g token address) tokenSize flags =
      frameBytes dev.crc (UInt8.ofInt (dev.routingTable address)) address dev.address flags
        initTtl (toBytes tokenSize.toNat (Encryption.nextRecvToken g address).toNat) := by
  have hcells : cells (Encryption.getNextRecvToken g token address) tokenSize.toNat =
      toBytes tokenSize.toNat (Encryption.nextRecvToken g address).toNat :=
    Encryption.cells_splitToBytes _ _ _
  have hlen : (toBytes tokenSize.toNat (Encryption.nextRecvToken g address).toNat).length =
      tokenSize.toNat := length_toBytes _ _
  have hshort : (toBytes tokenSize.toNat
      (Encryption.nextRecvToken g address).toNat).length ≤ 93 := by
    rw [hlen]
    decide
  have heq := transmit_eq dev address flags hshort (by rw [hlen]; exact hcells)
  rw [hlen, UInt8.ofNat_toNat] at heq
  exact heq

/-! ### Receiving -/

/-- The receiving loop appends the packet at `pos`. -/
theorem receiveLoop_eq (p : List UInt8) (pos : ℕ) (buf : Mem UInt8) :
    Radio.receiveLoop p pos buf = (fun i => load p (shift buf pos) (i - pos), pos + p.length) := by
  induction p generalizing pos buf with
  | nil =>
      refine Prod.ext ?_ rfl
      funext i
      simp [Radio.receiveLoop, load]
  | cons b rest ih =>
      rw [Radio.receiveLoop, ih]
      refine Prod.ext ?_ ?_
      · funext i
        simp only [load, shift_apply, sub_add_cancel]
        by_cases hlt : i < pos
        · rw [if_pos (by omega), if_pos (by omega), write_of_ne (by omega)]
        · by_cases heq : i = pos
          · subst heq
            simp
          · obtain ⟨k, hk⟩ : ∃ k : ℕ, i = pos + (k + 1) := ⟨(i - pos - 1).toNat, by omega⟩
            have h1 : (i - (pos + 1 : ℕ)).toNat = k := by omega
            have h2 : (i - pos).toNat = k + 1 := by omega
            rw [if_neg (by omega), if_neg (by omega), h1, h2, write_of_ne (by omega),
              List.getD_cons_succ]
      · simp only [List.length_cons]
        omega

/-- A packet the radio can hold ends up at the front of the buffer. -/
theorem tryReceiveBytes_eq {p : List UInt8} (buf : Mem UInt8) (hne : p ≠ [])
    (hlen : p.length ≤ 255) :
    Radio.tryReceiveBytes buf p = (load p buf, UInt16.ofNat p.length) := by
  have hpos := List.length_pos_iff.mpr hne
  have hnz : ¬ UInt16.ofNat p.length = 0 := by
    rw [← UInt16.toNat_inj, UInt16.toNat_ofNat']
    have : (0 : UInt16).toNat = 0 := rfl
    omega
  rw [Radio.tryReceiveBytes, if_neg hnz, receiveLoop_eq]
  simp

/-- Routing of a packet, by the bytes the buffer holds once it is stored. -/
theorem tryReceive_eq {p : List UInt8} (dev : Device) (buf : Mem UInt8) (hne : p ≠ [])
    (hlen : p.length ≤ 255) :
    Routing.tryReceive dev buf p =
      if load p buf 0 = dev.address then
        if load p buf 1 = dev.address then
          (.received, ⟨load p buf, UInt8.ofNat p.length⟩, none)
        else if (load p buf 1).toNat < dev.netSize then
          ((Routing.forward dev (load p buf) (UInt8.ofNat p.length)).1,
            ⟨(Routing.forward dev (load p buf) (UInt8.ofNat p.length)).2.1,
              UInt8.ofNat p.length⟩,
            (Routing.forward dev (load p buf) (UInt8.ofNat p.length)).2.2)
        else (.gotBadAddress, ⟨load p buf, UInt8.ofNat p.length⟩, none)
      else (.gotNothing, ⟨load p buf, UInt8.ofNat p.length⟩, none) := by
  have hpos := List.length_pos_iff.mpr hne
  have hsize : (UInt16.ofNat p.length).toUInt8 = UInt8.ofNat p.length := by
    apply UInt8.toNat_inj.mp
    rw [UInt16.toNat_toUInt8, UInt16.toNat_ofNat', UInt8.toNat_ofNat']
    omega
  have hgt : UInt8.ofNat p.length > 0 := by
    rw [gt_iff_lt, UInt8.lt_iff_toNat_lt, UInt8.toNat_ofNat']
    have : (0 : UInt8).toNat = 0 := rfl
    omega
  simp only [Routing.tryReceive, tryReceiveBytes_eq buf hne hlen, hsize, hgt, true_and]
  rfl

/-- A frame buffer that holds the packet `p`. -/
structure Holds (frame : LoraFrame) (p : List UInt8) : Prop where
  cells : cells frame.buf p.length = p
  size : frame.size = UInt8.ofNat p.length

/-- A packet that was read into the buffer is there. -/
theorem holds_load (p : List UInt8) (buf : Mem UInt8) :
    Holds ⟨load p buf, UInt8.ofNat p.length⟩ p :=
  ⟨cells_load p buf, rfl⟩

/-- The bytes of the packet are the bytes of the frame. -/
theorem Holds.get {frame : LoraFrame} {p : List UInt8} (h : Holds frame p) {i : ℕ}
    (hi : i < p.length) : frame.buf i = p[i] := by
  have hget := getElem_cells frame.buf p.length i (by simpa using hi)
  simp only [h.cells] at hget
  exact hget.symm

/-! ### Relaying -/

/-- The packet a relay makes of the packet `p`. -/
def forwardBytes (dev : Device) (p : List UInt8) (h : 7 ≤ p.length) : List UInt8 :=
  (p.set 5 (p[5] - 1)).set 0 (UInt8.ofInt (dev.routingTable p[1]))

/-- `_forward` drops a frame whose hop counter is used up and passes on every other. -/
theorem Holds.forward_eq {frame : LoraFrame} {p : List UInt8} (hf : Holds frame p)
    (dev : Device) (h : 7 ≤ p.length) (h₂₅₅ : p.length ≤ 255) :
    ∃ buf, Routing.forward dev frame.buf frame.size =
      if p[5] = 0 then (.ttlExpired, buf, none)
      else (.forwarded, buf, some (forwardBytes dev p h)) := by
  have hsize : frame.size.toNat = p.length := by
    rw [hf.size, UInt8.toNat_ofNat']
    omega
  have h5 : frame.buf framePosTtl = p[5] := hf.get (i := 5) (by omega)
  have h1 : frame.buf framePosDestAddr = p[1] := hf.get (i := 1) (by omega)
  have hle : (frame.buf framePosTtl ≤ 0) ↔ p[5] = 0 := by
    rw [h5]
    exact UInt8.le_zero_iff
  by_cases hz : p[5] = 0
  · simp only [if_pos hz, Routing.forward, if_pos (hle.mpr hz)]
    exact ⟨_, rfl⟩
  · simp only [if_neg hz, Routing.forward, if_neg fun hn => hz (hle.mp hn)]
    have hdest : ∀ v, write frame.buf framePosTtl v framePosDestAddr = p[1] := fun v =>
      (write_of_ne (by decide)).trans h1
    refine ⟨_, Prod.ext rfl (Prod.ext rfl ?_)⟩
    simp only [Radio.sendBytes, hsize, hdest, h5, forwardBytes]
    congr 1
    rw [show framePosNextAddr = ((0 : ℕ) : ℤ) from rfl, show framePosTtl = ((5 : ℕ) : ℤ) from rfl,
      cells_write, cells_write, hf.cells]

/-- What a node makes of a whole frame: whether it is named, whether the frame ends here, and
whether it can be passed on. -/
theorem tryReceive_whole {p : List UInt8} (dev : Device) (buf : Mem UInt8) (h : 7 ≤ p.length)
    (h₂₅₅ : p.length ≤ 255) :
    ∃ frame, Routing.tryReceive dev buf p =
        (if p[0] = dev.address then
          if p[1] = dev.address then (.received, frame, none)
          else if p[1].toNat < dev.netSize then
            if p[5] = 0 then (.ttlExpired, frame, none)
            else (.forwarded, frame, some (forwardBytes dev p h))
          else (.gotBadAddress, frame, none)
        else (.gotNothing, frame, none)) ∧
      (p[0] = dev.address → p[1] = dev.address → Holds frame p) := by
  have hne : p ≠ [] := List.ne_nil_of_length_pos (by omega)
  have h0 : load p buf 0 = p[0] := load_of_lt (i := 0) (by omega)
  have h1 : load p buf 1 = p[1] := load_of_lt (i := 1) (by omega)
  obtain ⟨buf', hforward⟩ := (holds_load p buf).forward_eq dev h h₂₅₅
  rw [tryReceive_eq dev buf hne h₂₅₅, h0, h1]
  by_cases hnext : p[0] = dev.address
  · by_cases hdest : p[1] = dev.address
    · refine ⟨⟨load p buf, UInt8.ofNat p.length⟩, ?_, fun _ _ => holds_load p buf⟩
      simp only [if_pos hnext, if_pos hdest]
    · refine ⟨if p[1].toNat < dev.netSize then ⟨buf', UInt8.ofNat p.length⟩
        else ⟨load p buf, UInt8.ofNat p.length⟩, ?_, fun _ hd => absurd hd hdest⟩
      by_cases hbad : p[1].toNat < dev.netSize
      · simp only [if_pos hnext, if_neg hdest, if_pos hbad, hforward]
        by_cases httl : p[5] = 0
        · simp only [if_pos httl]
        · simp only [if_neg httl]
      · simp only [if_pos hnext, if_neg hdest, if_neg hbad]
  · refine ⟨⟨load p buf, UInt8.ofNat p.length⟩, ?_, fun hn _ => absurd hn hnext⟩
    simp only [if_neg hnext]

/-! ### The checksum -/

/-- The listener keeps the frame as `try_receive` leaves it. -/
theorem listen_frame (dev : Device) (l : Listener) (message : NewMsg) (token : Mem UInt8)
    (p : List UInt8) :
    (listen dev l message token p).1.frame = (Routing.tryReceive dev l.frame.buf p).2.1 := by
  simp only [listen]
  split
  · rfl
  · split <;> rfl

/-- Passing a frame on does not change its destination. -/
theorem dest_tryReceive {p : List UInt8} (dev : Device) (buf : Mem UInt8) (h : 7 ≤ p.length)
    (h₂₅₅ : p.length ≤ 255) :
    (Routing.tryReceive dev buf p).2.1.buf framePosDestAddr = p[1] := by
  have h1 : load p buf framePosDestAddr = p[1] := load_of_lt (i := 1) (by omega)
  have hforward : ∀ size, (Routing.forward dev (load p buf) size).2.1 framePosDestAddr =
      load p buf framePosDestAddr := by
    intro size
    simp only [Routing.forward]
    split
    · rfl
    · dsimp only
      rw [write_of_ne (show framePosDestAddr ≠ framePosNextAddr by decide),
        write_of_ne (show framePosDestAddr ≠ framePosTtl by decide)]
  rw [tryReceive_eq dev buf (List.ne_nil_of_length_pos (by omega)) h₂₅₅]
  split
  · split
    · exact h1
    · split
      · exact (hforward _).trans h1
      · exact h1
  · exact h1

/-- The bytes of a received frame that go into the checksum. -/
def maskBytes (p : List UInt8) : List UInt8 :=
  ((((p.set 2 0).set 0 0).set 1 0).set 6 0).set 5 initTtl

/-- The frame whose checksum is formed is the packet, masked. -/
theorem Holds.cells_crcFrame {frame : LoraFrame} {p : List UInt8} (h : Holds frame p) :
    Memory.cells (crcFrame frame).buf p.length = maskBytes p := by
  have hw : ∀ (m : Mem UInt8) (k : ℕ) (v : UInt8), Memory.cells (write m (k : ℤ) v) p.length =
      (Memory.cells m p.length).set k v := fun m k v => cells_write m k _ v
  have h0 := hw frame.buf 2 0
  simp only [crcFrame, maskBytes, framePosSendAddr, framePosNextAddr, framePosDestAddr,
    framePosCrc, framePosTtl]
  rw [show (5 : ℤ) = ((5 : ℕ) : ℤ) from rfl, show (6 : ℤ) = ((6 : ℕ) : ℤ) from rfl,
    show (1 : ℤ) = ((1 : ℕ) : ℤ) from rfl, show (0 : ℤ) = ((0 : ℕ) : ℤ) from rfl,
    show (2 : ℤ) = ((2 : ℕ) : ℤ) from rfl, hw, hw, hw, hw, hw, h.cells]

/-- The checksum test compares the checksum of the masked bytes with the checksum byte. -/
theorem Holds.crcOk_iff {frame : LoraFrame} {p : List UInt8} (h : Holds frame p)
    (dev : Device) (h₇ : 7 ≤ p.length) (h₂₅₅ : p.length ≤ 255) :
    crcOk dev frame = true ↔ dev.crc (maskBytes p) = p[6] := by
  have hsize : frame.size.toNat = p.length := by
    rw [h.size, UInt8.toNat_ofNat']
    omega
  have h6 : frame.buf framePosCrc = p[6] := h.get (i := 6) (by omega)
  rw [crcOk, hsize, h.cells_crcFrame, h6]
  simp

/-- What stands behind the header. -/
theorem Holds.cells_payload {frame : LoraFrame} {p : List UInt8} (hf : Holds frame p)
    (h : 7 ≤ p.length) :
    Memory.cells (shift frame.buf framePosMsg) (p.drop 7).length = p.drop 7 := by
  have hdrop : (p.drop 7).length = p.length - 7 := List.length_drop
  have hsplit := cells_add frame.buf 7 (p.drop 7).length
  rw [show 7 + (p.drop 7).length = p.length by omega, hf.cells] at hsplit
  calc Memory.cells (shift frame.buf framePosMsg) (p.drop 7).length
      = (Memory.cells frame.buf 7 ++ Memory.cells (shift frame.buf framePosMsg)
          (p.drop 7).length).drop 7 := by rw [List.drop_left' (length_cells _ _)]
    _ = p.drop 7 := congrArg (List.drop 7) hsplit.symm

/-- The size and the bytes that `_get_msg_from_frame` takes out of a frame to decrypt. -/
theorem Holds.encrypted_eq {frame : LoraFrame} {p : List UInt8} (hf : Holds frame p)
    (h : 7 ≤ p.length) (h₂₅₅ : p.length ≤ 255) :
    UInt8.ofInt (frame.size.toNat - framePosMsg) = UInt8.ofNat (p.drop 7).length ∧
      Memory.cells (copy LoraFrame.init.buf 0 (shift frame.buf framePosMsg)
        (UInt8.ofNat (p.drop 7).length).toNat) (p.drop 7).length = p.drop 7 := by
  have hsize : frame.size.toNat = p.length := by
    rw [hf.size, UInt8.toNat_ofNat']
    omega
  have hdrop : (p.drop 7).length = p.length - 7 := List.length_drop
  have hn : (UInt8.ofNat (p.drop 7).length).toNat = p.length - 7 := by
    rw [UInt8.toNat_ofNat', hdrop]
    omega
  refine ⟨?_, ?_⟩
  · apply UInt8.toNat_inj.mp
    rw [toNat_ofInt, hn, hsize, framePosMsg]
    omega
  · rw [hn, ← hdrop, cells_copy_zero]
    exact hf.cells_payload h

/-- `_get_msg_from_frame` decrypts what stands behind the header, as coming from the address in
the frame. -/
theorem Holds.getMsgFromFrame_eq {frame : LoraFrame} {p : List UInt8} (hf : Holds frame p)
    (aes : Aes) (g : Encryption.Globals) (message : NewMsg) (h : 7 ≤ p.length)
    (h₂₅₅ : p.length ≤ 255) :
    ∃ encrypted, Memory.cells encrypted (p.drop 7).length = p.drop 7 ∧
      getMsgFromFrame aes g frame message =
        let d := Encryption.decrypt aes g encrypted (UInt8.ofNat (p.drop 7).length) message.msg
          message.msgSize p[2]
        if d.1 = true then (true, d.2.1, ⟨p[2], d.2.2.1, d.2.2.2⟩)
        else (false, d.2.1, ⟨p[2], d.2.2.1, 0⟩) := by
  obtain ⟨hsize, hcells⟩ := hf.encrypted_eq h h₂₅₅
  have h2 : frame.buf framePosSendAddr = p[2] := hf.get (i := 2) (by omega)
  refine ⟨_, hcells, ?_⟩
  simp only [getMsgFromFrame, hsize, h2]
  cases (Encryption.decrypt aes g (copy LoraFrame.init.buf 0 (shift frame.buf framePosMsg)
    (UInt8.ofNat (p.drop 7).length).toNat) (UInt8.ofNat (p.drop 7).length) message.msg
    message.msgSize p[2]).1 with
  | false => rfl
  | true => rfl

/-! ### Listening -/

/-- The bits of the type byte that mark an answer. -/
abbrev responseMask : UInt8 := typeMaskAck ||| typeMaskError ||| typeMaskResend ||| typeMaskSync

/-- A message that asks for an `ACK` is no answer. -/
theorem needAck_and_responseMask : typeMaskNeedAck &&& responseMask = 0 := by decide

/-- A response is known by its type byte. -/
theorem Holds.isResponse_iff {frame : LoraFrame} {p : List UInt8} (hf : Holds frame p)
    (h : 7 ≤ p.length) : isResponse frame = true ↔ p[3] &&& responseMask ≠ 0 := by
  have h3 : frame.buf framePosType = p[3] := hf.get (i := 3) (by omega)
  simp only [isResponse, h3, decide_eq_true_eq]

section Listen

variable (dev : Device) (l : Listener) (message : NewMsg) (token : Mem UInt8)

/-- A frame for another node does nothing but fill the buffer. -/
theorem listen_of_next_ne {p : List UInt8} (h : 7 ≤ p.length) (h₂₅₅ : p.length ≤ 255)
    (hnext : p[0] ≠ dev.address) :
    ∃ frame, listen dev l message token p = (⟨frame, l.globals⟩, .nothing) := by
  obtain ⟨frame, hrecv, -⟩ := tryReceive_whole dev l.frame.buf h h₂₅₅
  rw [if_neg hnext] at hrecv
  refine ⟨frame, ?_⟩
  simp [listen, hrecv]

/-- A frame this node is to relay. -/
theorem listen_relay {p : List UInt8} (h : 7 ≤ p.length) (h₂₅₅ : p.length ≤ 255)
    (hnext : p[0] = dev.address) (hdest : p[1] ≠ dev.address) :
    ∃ frame, listen dev l message token p = (⟨frame, l.globals⟩,
      if p[1].toNat < dev.netSize ∧ p[5] ≠ 0 then .forwarded (forwardBytes dev p h)
      else .nothing) := by
  obtain ⟨frame, hrecv, -⟩ := tryReceive_whole dev l.frame.buf h h₂₅₅
  rw [if_pos hnext, if_neg hdest] at hrecv
  refine ⟨frame, ?_⟩
  by_cases hbad : p[1].toNat < dev.netSize
  · by_cases httl : p[5] = 0
    · simp [listen, hrecv, hbad, httl]
    · simp [listen, hrecv, hbad, httl]
  · simp [listen, hrecv, hbad]

/-- A frame that ends here is taken apart by `dispatch`. -/
theorem listen_received {p : List UInt8} (h : 7 ≤ p.length) (h₂₅₅ : p.length ≤ 255)
    (hnext : p[0] = dev.address) (hdest : p[1] = dev.address) :
    ∃ frame, Holds frame p ∧ listen dev l message token p =
      (⟨frame, (dispatch dev l.globals frame message token).1⟩,
        (dispatch dev l.globals frame message token).2) := by
  obtain ⟨frame, hrecv, hholds⟩ := tryReceive_whole dev l.frame.buf h h₂₅₅
  rw [if_pos hnext, if_pos hdest] at hrecv
  refine ⟨frame, hholds hnext hdest, ?_⟩
  simp [listen, hrecv]

/-- What an iteration can do with a packet: nothing, pass it on, or take it apart. -/
theorem listen_cases {p : List UInt8} (h : 7 ≤ p.length) (h₂₅₅ : p.length ≤ 255) :
    (∃ frame, listen dev l message token p = (⟨frame, l.globals⟩, .nothing)) ∨
    (∃ frame, p[0] = dev.address ∧ p[1] ≠ dev.address ∧ p[1].toNat < dev.netSize ∧
      listen dev l message token p = (⟨frame, l.globals⟩, .forwarded (forwardBytes dev p h))) ∨
    ∃ frame, p[0] = dev.address ∧ p[1] = dev.address ∧ Holds frame p ∧
      listen dev l message token p =
        (⟨frame, (dispatch dev l.globals frame message token).1⟩,
          (dispatch dev l.globals frame message token).2) := by
  by_cases hnext : p[0] = dev.address
  · by_cases hdest : p[1] = dev.address
    · obtain ⟨frame, hholds, hlisten⟩ := listen_received dev l message token h h₂₅₅ hnext hdest
      exact .inr (.inr ⟨frame, hnext, hdest, hholds, hlisten⟩)
    · obtain ⟨frame, hlisten⟩ := listen_relay dev l message token h h₂₅₅ hnext hdest
      by_cases hgo : p[1].toNat < dev.netSize ∧ p[5] ≠ 0
      · rw [if_pos hgo] at hlisten
        exact .inr (.inl ⟨frame, hnext, hdest, hgo.1, hlisten⟩)
      · rw [if_neg hgo] at hlisten
        exact .inl ⟨frame, hlisten⟩
  · obtain ⟨frame, hlisten⟩ := listen_of_next_ne dev l message token h h₂₅₅ hnext
    exact .inl ⟨frame, hlisten⟩

end Listen

section Dispatch

variable (dev : Device) (g : Encryption.Globals) (message : NewMsg) (token : Mem UInt8)
  {frame : LoraFrame} {p : List UInt8} (hf : Holds frame p) (h : 7 ≤ p.length)
  (h₂₅₅ : p.length ≤ 255)

include hf h h₂₅₅

/-- A wrong checksum is answered with a `RESEND`. -/
theorem dispatch_badCrc (hcrc : dev.crc (maskBytes p) ≠ p[6]) :
    dispatch dev g frame message token =
      (g, .badCrc (frameBytes dev.crc (UInt8.ofInt (dev.routingTable p[2])) p[2] dev.address
        typeMaskResend initTtl [])) := by
  have hbad : crcOk dev frame = false := by
    rw [← Bool.not_eq_true, hf.crcOk_iff dev h h₂₅₅]
    exact hcrc
  have h2 : frame.buf framePosSendAddr = p[2] := hf.get (i := 2) (by omega)
  rw [dispatch, if_pos hbad, h2, transmit_null]

/-- An answer goes to `response_queue` as it is. -/
theorem dispatch_response (hcrc : dev.crc (maskBytes p) = p[6])
    (htype : p[3] &&& responseMask ≠ 0) :
    dispatch dev g frame message token = (g, .response frame) := by
  have hok : crcOk dev frame = true := (hf.crcOk_iff dev h h₂₅₅).mpr hcrc
  rw [dispatch, if_neg (by rw [hok]; decide), if_pos ((hf.isResponse_iff h).mpr htype)]

/-- An answer that goes to `response_queue` is the frame received, with a correct checksum. -/
theorem dispatch_eq_response {answer : LoraFrame}
    (heq : (dispatch dev g frame message token).2 = .response answer) :
    answer = frame ∧ dev.crc (maskBytes p) = p[6] := by
  by_cases hcrc : dev.crc (maskBytes p) = p[6]
  · by_cases htype : p[3] &&& responseMask = 0
    · have hok : crcOk dev frame = true := (hf.crcOk_iff dev h h₂₅₅).mpr hcrc
      have hnot : ¬ isResponse frame = true := fun hr => (hf.isResponse_iff h).mp hr htype
      rw [dispatch, if_neg (by rw [hok]; decide), if_neg hnot] at heq
      dsimp only at heq
      split at heq <;> exact absurd heq (by simp)
    · rw [dispatch_response dev g message token hf h h₂₅₅ hcrc htype] at heq
      exact ⟨(Heard.response.inj heq).symm, hcrc⟩
  · rw [dispatch_badCrc dev g message token hf h h₂₅₅ hcrc] at heq
    exact absurd heq (by simp)

/-- A data frame is decrypted, as coming from the address in the frame. -/
theorem dispatch_payload (hcrc : dev.crc (maskBytes p) = p[6])
    (htype : p[3] &&& responseMask = 0) :
    ∃ encrypted, Memory.cells encrypted (p.drop 7).length = p.drop 7 ∧
      dispatch dev g frame message token =
        let d := Encryption.decrypt dev.aes g encrypted (UInt8.ofNat (p.drop 7).length)
          message.msg message.msgSize p[2]
        if d.1 = true then (d.2.1, .message ⟨p[2], d.2.2.1, d.2.2.2⟩ p[3])
        else (d.2.1, .rejected (transmit dev p[2]
          (Encryption.getNextRecvToken d.2.1 token p[2]) tokenSize
          (typeMaskSync ||| typeMaskResend))) := by
  have hok : crcOk dev frame = true := (hf.crcOk_iff dev h h₂₅₅).mpr hcrc
  have hnot : ¬ isResponse frame = true := fun hr => (hf.isResponse_iff h).mp hr htype
  have h3 : frame.buf framePosType = p[3] := hf.get (i := 3) (by omega)
  obtain ⟨encrypted, henc, hget⟩ := hf.getMsgFromFrame_eq dev.aes g message h h₂₅₅
  refine ⟨encrypted, henc, ?_⟩
  rw [dispatch, if_neg (by rw [hok]; decide), if_neg hnot]
  simp only [hget, h3]
  cases (Encryption.decrypt dev.aes g encrypted (UInt8.ofNat (p.drop 7).length) message.msg
    message.msgSize p[2]).1 with
  | false => rfl
  | true => rfl

/-- A message that goes to `new_frame_queue` is what `decrypt` made of the bytes behind the
header, as coming from the address in the frame, and the checksum is correct. -/
theorem dispatch_eq_message {m : NewMsg} {type : UInt8}
    (heq : (dispatch dev g frame message token).2 = .message m type) :
    type = p[3] ∧ m.address = p[2] ∧ dev.crc (maskBytes p) = p[6] ∧
      ∃ encrypted, Memory.cells encrypted (p.drop 7).length = p.drop 7 ∧
        (Encryption.decrypt dev.aes g encrypted (UInt8.ofNat (p.drop 7).length) message.msg
          message.msgSize p[2]).1 = true ∧
        m.msg = (Encryption.decrypt dev.aes g encrypted (UInt8.ofNat (p.drop 7).length)
          message.msg message.msgSize p[2]).2.2.1 ∧
        m.msgSize = (Encryption.decrypt dev.aes g encrypted (UInt8.ofNat (p.drop 7).length)
          message.msg message.msgSize p[2]).2.2.2 := by
  by_cases hcrc : dev.crc (maskBytes p) = p[6]
  · by_cases htype : p[3] &&& responseMask = 0
    · obtain ⟨encrypted, henc, hdisp⟩ :=
        dispatch_payload dev g message token hf h h₂₅₅ hcrc htype
      rw [hdisp] at heq
      cases hdec : (Encryption.decrypt dev.aes g encrypted (UInt8.ofNat (p.drop 7).length)
          message.msg message.msgSize p[2]).1 with
      | false =>
          simp only [hdec] at heq
          exact absurd heq (by simp)
      | true =>
          simp only [hdec] at heq
          obtain ⟨rfl, rfl⟩ := Heard.message.inj heq
          exact ⟨rfl, rfl, hcrc, encrypted, henc, hdec, rfl, rfl⟩
    · rw [dispatch_response dev g message token hf h h₂₅₅ hcrc htype] at heq
      exact absurd heq (by simp)
  · rw [dispatch_badCrc dev g message token hf h h₂₅₅ hcrc] at heq
    exact absurd heq (by simp)

/-- A data frame with the payload of a message: the message goes on to `new_frame_queue` when
its token is in the window, and is answered with the token expected when it is not. -/
theorem dispatch_data (hcrc : dev.crc (maskBytes p) = p[6])
    (htype : p[3] &&& responseMask = 0) {t : ℕ} {m : List UInt8} (hm : m.length < 110)
    (ht : t < 2 ^ 16) (hr : Encryption.counter (g.recvTokens p[2]) < tokenMax.toNat)
    (hpay : p.drop 7 = Encryption.sealed dev.aes t m) :
    ∃ encBuf out, cells out m.length = m ∧
      dispatch dev g frame message token =
        if Encryption.InWindow (Encryption.counter (g.recvTokens p[2])) t then
          (⟨g.sendTokens, Function.update g.recvTokens p[2] (UInt32.ofNat t).toInt32, encBuf⟩,
            .message ⟨p[2], out, UInt8.ofNat m.length⟩ p[3])
        else
          ({ g with encBuf := encBuf },
            .rejected (frameBytes dev.crc (UInt8.ofInt (dev.routingTable p[2])) p[2]
              dev.address (typeMaskSync ||| typeMaskResend) initTtl
              (toBytes tokenSize.toNat
                ((Encryption.counter (g.recvTokens p[2]) + 1) % tokenMax.toNat)))) := by
  have hmax : tokenMax.toNat = 65535 := Encryption.tokenMax_toNat
  obtain ⟨encrypted, henc, hdisp⟩ := dispatch_payload dev g message token hf h h₂₅₅ hcrc htype
  rw [hpay, Encryption.length_sealed] at henc hdisp
  obtain ⟨encBuf, out, hdec, hout⟩ := Encryption.decrypt_sealed dev.aes g message.msg
    message.msgSize p[2] hm ht (by omega) henc
  refine ⟨encBuf, out, hout, ?_⟩
  by_cases hw : Encryption.InWindow (Encryption.counter (g.recvTokens p[2])) t
  · simp only [hdisp, hdec, if_pos hw, if_true]
  · have hnext := Encryption.toNat_nextRecvToken (g := { g with encBuf := encBuf }) hr
    simp only [hdisp, hdec, if_neg hw, transmit_token, hnext]
    rfl

end Dispatch

/-! ### Listening to whole frames -/

section Heard

variable (dev : Device) (l : Listener) (message : NewMsg) (token : Mem UInt8)

/-- A frame to be relayed goes out again with the next node on its way and one hop less, unless
its destination does not exist or its hops are used up. -/
theorem listen_frameBytes_relay (dest send type ttl : UInt8) {payload : List UInt8}
    (hlen : payload.length ≤ 96) (hdest : dest ≠ dev.address) :
    ∃ frame, listen dev l message token
        (frameBytes dev.crc dev.address dest send type ttl payload) =
      (⟨frame, l.globals⟩, if dest.toNat < dev.netSize ∧ ttl ≠ 0 then
        .forwarded (frameBytes dev.crc (UInt8.ofInt (dev.routingTable dest)) dest send type
          (ttl - 1) payload)
        else .nothing) := by
  have h₇ : 7 ≤ (frameBytes dev.crc dev.address dest send type ttl payload).length := by
    rw [length_frameBytes]
    omega
  have h₂₅₅ : (frameBytes dev.crc dev.address dest send type ttl payload).length ≤ 255 := by
    rw [length_frameBytes]
    omega
  exact listen_relay dev l message token h₇ h₂₅₅ rfl hdest

/-- An answer for this node goes to `response_queue`. -/
theorem listen_frameBytes_response (send type ttl : UInt8) {payload : List UInt8}
    (hlen : payload.length ≤ 96) (htype : type &&& responseMask ≠ 0) :
    ∃ frame, Holds frame (frameBytes dev.crc dev.address dev.address send type ttl payload) ∧
      listen dev l message token
          (frameBytes dev.crc dev.address dev.address send type ttl payload) =
        (⟨frame, l.globals⟩, .response frame) := by
  have h₇ : 7 ≤ (frameBytes dev.crc dev.address dev.address send type ttl payload).length := by
    rw [length_frameBytes]
    omega
  have h₂₅₅ : (frameBytes dev.crc dev.address dev.address send type ttl payload).length ≤ 255 := by
    rw [length_frameBytes]
    omega
  obtain ⟨frame, hholds, hlisten⟩ := listen_received dev l message token h₇ h₂₅₅ rfl rfl
  have hdisp := dispatch_response dev l.globals message token hholds h₇ h₂₅₅ rfl htype
  rw [hdisp] at hlisten
  exact ⟨frame, hholds, hlisten⟩

/-- A data frame for this node: its message goes on to `new_frame_queue` with the sender's
address and the type byte, or is answered with the token expected. -/
theorem listen_frameBytes_data (send type ttl : UInt8) {t : ℕ} {m : List UInt8} (hm : m.length ≤ 77)
    (ht : t < 2 ^ 16) (htype : type &&& responseMask = 0)
    (hr : Encryption.counter (l.globals.recvTokens send) < tokenMax.toNat) :
    ∃ frame encBuf out, cells out m.length = m ∧
      listen dev l message token
          (frameBytes dev.crc dev.address dev.address send type ttl
            (Encryption.sealed dev.aes t m)) =
        if Encryption.InWindow (Encryption.counter (l.globals.recvTokens send)) t then
          (⟨frame, l.globals.sendTokens,
            Function.update l.globals.recvTokens send (UInt32.ofNat t).toInt32, encBuf⟩,
            .message ⟨send, out, UInt8.ofNat m.length⟩ type)
        else
          (⟨frame, { l.globals with encBuf := encBuf }⟩,
            .rejected (frameBytes dev.crc (UInt8.ofInt (dev.routingTable send)) send
              dev.address (typeMaskSync ||| typeMaskResend) initTtl
              (toBytes tokenSize.toNat
                ((Encryption.counter (l.globals.recvTokens send) + 1) % tokenMax.toNat)))) := by
  have hlen : (frameBytes dev.crc dev.address dev.address send type ttl
      (Encryption.sealed dev.aes t m)).length ≤ 103 := by
    rw [length_frameBytes, Encryption.length_sealed, Encryption.sealedSize_eq]
    omega
  have h₇ : 7 ≤ (frameBytes dev.crc dev.address dev.address send type ttl
      (Encryption.sealed dev.aes t m)).length := by
    rw [length_frameBytes]
    omega
  obtain ⟨frame, hholds, hlisten⟩ := listen_received dev l message token h₇ (by omega) rfl rfl
  obtain ⟨encBuf, out, hout, hdisp⟩ := dispatch_data dev l.globals message token hholds h₇
    (by omega) rfl htype (by omega) ht hr rfl
  refine ⟨frame, encBuf, out, hout, ?_⟩
  have h2 : (frameBytes dev.crc dev.address dev.address send type ttl
      (Encryption.sealed dev.aes t m))[2] = send := rfl
  have h3 : (frameBytes dev.crc dev.address dev.address send type ttl
      (Encryption.sealed dev.aes t m))[3] = type := rfl
  rw [h2, h3] at hdisp
  rw [hlisten, hdisp]
  by_cases hw : Encryption.InWindow (Encryption.counter (l.globals.recvTokens send)) t
  · simp only [if_pos hw]
  · simp only [if_neg hw]

end Heard

end LCore
