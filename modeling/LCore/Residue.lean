import LCore.Independence

/-!
# What Earlier Packets Leave Behind

`_listen` keeps one frame buffer and one scratch buffer for all packets. Neither is cleared, so
the question is whether the treatment of a packet depends on the bytes of earlier ones.

A packet shorter than a header is completed by what the frame buffer holds: the destination, the
hop counter, the checksum. A payload of no bytes is decrypted without touching the scratch
buffer, so that its token is what the scratch buffer holds, and a count byte that leaves more
than there is makes the message longer than the payload. The token of a sender that is no address of
the network is compared with what lies behind `recv_tokens`, where the scratch buffer is declared.
Everything else depends on the packet alone, up to the size and the content of a message that is
read as empty, which are whatever the uninitialised `NewMsg` holds.

## Main results

* `independent_iff`: the packets whose treatment depends on themselves alone.
-/

open Memory BigEndian

namespace LCore

namespace Residue

open Encryption Responses TokenCheck

/-! ### Packets that are not clean -/

/-- The station with other bytes in the frame buffer. -/
def withFrame (st : Station) (bytes : Mem UInt8) : Station :=
  { st with listener := { st.listener with frame := { st.listener.frame with
    buf := copy st.listener.frame.buf 0 bytes maxFrameSize } } }

/-- The station with other bytes in the scratch buffer. -/
def withScratch (st : Station) (bytes : Mem UInt8) : Station :=
  { st with listener := { st.listener with globals := { st.listener.globals with
    encBuf := copy st.listener.globals.encBuf 0 bytes maxFrameSize } } }

/-- A copy into the buffer changes nothing outside it. -/
theorem copy_outside (m bytes : Mem UInt8) {i : ℤ} (hi : i < 0 ∨ maxFrameSize ≤ i) :
    copy m 0 bytes maxFrameSize i = m i := by
  rcases hi with hi | hi
  · exact copy_of_lt hi
  · exact copy_of_ge (by omega)

/-- The station with another counter for `a`. -/
def withCounter (st : Station) (a : UInt8) (t : Int32) : Station :=
  { st with listener := { st.listener with globals := { st.listener.globals with
    recvTokens := Function.update st.listener.globals.recvTokens a t } } }

/-- The stations agree, whatever is in the frame buffer. -/
theorem agree_withFrame (dev : Device) (st : Station) (bytes : Mem UInt8) :
    Agree dev st (withFrame st bytes) :=
  ⟨rfl, rfl, rfl, fun _ hi => copy_outside _ _ hi, fun _ _ => rfl⟩

/-- They agree whatever is in the scratch buffer. -/
theorem agree_withScratch (dev : Device) (st : Station) (bytes : Mem UInt8) :
    Agree dev st (withScratch st bytes) :=
  ⟨rfl, rfl, rfl, fun _ _ => rfl, fun _ hi => copy_outside _ _ hi⟩

/-- A counter behind the array may differ. -/
theorem agree_withCounter {dev : Device} (st : Station) {a : UInt8} (ha : dev.netSize ≤ a.toNat)
    (t : Int32) : Agree dev st (withCounter st a t) := by
  refine ⟨rfl, entries_eq_iff.mpr fun b hb => ?_, rfl, fun _ _ => rfl, fun _ _ => rfl⟩
  have hne : b ≠ a := by
    rintro rfl
    omega
  exact Function.update_of_ne hne _ _

section NotClean

variable {dev : Device} {st : Station} {packet : List UInt8}

/-- Behind the packet the frame buffer shows what it held before. -/
theorem load_withFrame {i : ℕ} (bytes : Mem UInt8) (hi : packet.length ≤ i) (h₁₀₀ : i < 100) :
    load packet (withFrame st bytes).listener.frame.buf i = bytes i := by
  have hmax : maxFrameSize = 100 := rfl
  have hneg : ¬ ((i : ℤ) < 0) := by omega
  rw [load, if_neg hneg, Int.toNat_natCast, List.getD_eq_default _ _ hi]
  exact (copy_of_mem (by omega) (by omega)).trans (by rw [sub_zero])

/-- What two stations that agree with a third show is the same when the packet's treatment is
independent. -/
theorem Independent.eq (h : Independent dev st packet) {a b : Station} (ha : Agree dev st a)
    (hb : Agree dev st b) (message : NewMsg) (token : Mem UInt8) :
    outcome dev a message token packet = outcome dev b message token packet :=
  (h a ha message token).trans (h b hb message token).symm

/-- A single byte does not name the destination. -/
theorem two_le_length (h : Independent dev st packet) (h₁ : 1 ≤ packet.length)
    (hnext : packet.getD 0 0 = dev.address) : 2 ≤ packet.length := by
  by_contra hone
  have hrecv : ∀ bytes : Mem UInt8,
      (Routing.tryReceive dev (withFrame st bytes).listener.frame.buf packet).1 = .received ↔
        bytes 1 = dev.address := by
    intro bytes
    have h0 : load packet (withFrame st bytes).listener.frame.buf 0 = dev.address :=
      (load_eq_getD (i := 0) (by omega) _).trans hnext
    have h1 : load packet (withFrame st bytes).listener.frame.buf 1 = bytes 1 :=
      load_withFrame (i := 1) bytes (by omega) (by omega)
    rw [Bounds.received_iff dev _ h₁ (by omega), framePosNextAddr, framePosDestAddr, h0, h1]
    exact and_iff_right rfl
  have hsame := congrArg Outcome.result (h.eq (agree_withFrame dev st fun _ => dev.address)
    (agree_withFrame dev st fun _ => dev.address + 1) ⟨0, null, 0⟩ null)
  have hother : dev.address + 1 = dev.address :=
    (hrecv fun _ => dev.address + 1).mp (hsame.symm.trans ((hrecv _).mpr rfl))
  exact absurd hother (by simp)

/-- A short packet for this node does not name its checksum. -/
theorem dest_ne_of_short (h : Independent dev st packet) (h₂ : 2 ≤ packet.length)
    (hshort : packet.length < 7) (hnext : packet.getD 0 0 = dev.address) :
    packet.getD 1 0 ≠ dev.address := by
  intro hdest
  have hsize : (UInt8.ofNat packet.length).toNat = packet.length := by
    rw [UInt8.toNat_ofNat']
    omega
  have hload : ∀ (i : ℕ), i < packet.length → ∀ buf, load packet buf i = packet.getD i 0 :=
    fun i hi buf => load_eq_getD hi buf
  -- the bytes summed are bytes of the packet, the checksum compared is not
  have hsum : ∀ b b' : Mem UInt8,
      cells (crcFrame ⟨load packet b, UInt8.ofNat packet.length⟩).buf packet.length =
        cells (crcFrame ⟨load packet b', UInt8.ofNat packet.length⟩).buf packet.length := by
    intro b b'
    rw [cells_eq_iff]
    intro i hi
    simp only [crcFrame, write, hload i hi]
  have hview : ∀ bytes : Mem UInt8,
      (outcome dev (withFrame st bytes) ⟨0, null, 0⟩ null packet).view = .badCrc ↔
        dev.crc (cells (crcFrame ⟨load packet st.listener.frame.buf,
          UInt8.ofNat packet.length⟩).buf packet.length) ≠ bytes 6 := by
    intro bytes
    have hrecv := (Bounds.received_iff dev (withFrame st bytes).listener
      (show 1 ≤ packet.length by omega) (by omega)).mpr
      ⟨(hload 0 (by omega) _).trans hnext, (hload 1 (by omega) _).trans hdest⟩
    have hframe := Bounds.frame_of_received dev (withFrame st bytes).listener (by omega)
      (by omega) hrecv
    have h6 : load packet (withFrame st bytes).listener.frame.buf framePosCrc = bytes 6 :=
      load_withFrame (i := 6) bytes (by omega) (by omega)
    simp only [outcome, listen, if_pos hrecv, hframe, dispatch, crcOk, hsize, h6,
      hsum _ st.listener.frame.buf]
    by_cases hcrc : dev.crc (cells (crcFrame ⟨load packet st.listener.frame.buf,
        UInt8.ofNat packet.length⟩).buf packet.length) = bytes 6
    · simp only [hcrc, decide_true, Bool.true_eq_false, if_false, ne_eq, not_true_eq_false,
        iff_false]
      split
      · simp [View.of]
      · split <;> simp [View.of]
    · simp [hcrc, View.of]
  have hsame := congrArg Outcome.view (h.eq
    (agree_withFrame dev st fun _ => dev.crc (cells (crcFrame ⟨load packet st.listener.frame.buf,
      UInt8.ofNat packet.length⟩).buf packet.length))
    (agree_withFrame dev st fun _ => dev.crc (cells (crcFrame ⟨load packet st.listener.frame.buf,
      UInt8.ofNat packet.length⟩).buf packet.length) + 1) ⟨0, null, 0⟩ null)
  have hbad := (hview fun _ => dev.crc (cells (crcFrame ⟨load packet st.listener.frame.buf,
    UInt8.ofNat packet.length⟩).buf packet.length) + 1).mpr (by simp)
  exact (hview _).mp (hsame.trans hbad) rfl

/-- A packet shorter than six bytes that is to be passed on does not name its hop counter. -/
theorem six_or_bad (h : Independent dev st packet) (h₂ : 2 ≤ packet.length)
    (hshort : packet.length < 7) (hnext : packet.getD 0 0 = dev.address)
    (hdest : packet.getD 1 0 ≠ dev.address) :
    packet.length = 6 ∨ dev.netSize ≤ (packet.getD 1 0).toNat := by
  by_contra hnot
  rw [not_or, not_le] at hnot
  have hresult : ∀ bytes : Mem UInt8,
      (outcome dev (withFrame st bytes) ⟨0, null, 0⟩ null packet).result =
        if bytes 5 = 0 then .ttlExpired else .forwarded := by
    intro bytes
    have h0 : load packet (withFrame st bytes).listener.frame.buf 0 = dev.address :=
      (load_eq_getD (i := 0) (by omega) _).trans hnext
    have h1 : load packet (withFrame st bytes).listener.frame.buf 1 = packet.getD 1 0 :=
      load_eq_getD (i := 1) (by omega) _
    have h5 : load packet (withFrame st bytes).listener.frame.buf framePosTtl = bytes 5 :=
      load_withFrame (i := 5) bytes (by omega) (by omega)
    simp only [outcome]
    rw [tryReceive_eq dev _ (List.ne_nil_of_length_pos (by omega)) (by omega), h0, h1,
      if_pos rfl, if_neg hdest, if_pos hnot.2]
    simp only [Routing.forward, h5]
    by_cases hz : bytes 5 = 0
    · rw [if_pos hz, if_pos (UInt8.le_zero_iff.mpr hz)]
    · rw [if_neg hz, if_neg fun hle => hz (UInt8.le_zero_iff.mp hle)]
  have hsame := congrArg Outcome.result (h.eq (agree_withFrame dev st fun _ => 0)
    (agree_withFrame dev st fun _ => 1) ⟨0, null, 0⟩ null)
  rw [hresult, hresult] at hsame
  exact absurd hsame (by decide)

/-- At most nineteen tokens are accepted at any counter, so one of two distant ones is not. -/
theorem exists_not_newer (recvTokens : UInt8 → Int32) (a : UInt8) :
    ∃ t : ℕ, t < 2 ^ 16 ∧ ¬ Newer recvTokens (UInt32.ofNat t) a := by
  by_cases h0 : Newer recvTokens (UInt32.ofNat 0) a
  · refine ⟨100, by omega, ?_⟩
    intro h100
    have hthr : tokenTreshold = 20 := rfl
    have hlt := (recvTokens a).toUInt32.toNat_lt
    have hzero : (UInt32.ofNat 0).toNat = 0 := rfl
    have hhundred : (UInt32.ofNat 100).toNat = 100 := rfl
    simp only [Newer, UInt32.toNat_sub, hthr, hzero, hhundred] at h0 h100
    omega
  · exact ⟨0, by omega, h0⟩

/-- Without a byte of payload, the token read is the one in the scratch buffer. -/
theorem tokenOf_withScratch (aes : Aes) {payload : List UInt8} (hnil : payload.length = 0)
    {t : ℕ} (ht : t < 2 ^ 16) :
    tokenOf aes (withScratch st (load (toBytes tokenSize.toNat t) null)).listener.globals
      payload = UInt32.ofNat t := by
  rw [tokenOf, opened_of_nil aes _ hnil]
  refine mergeFromBytes_token ht ?_
  have hread := cells_load (toBytes tokenSize.toNat t) null
  rw [length_toBytes] at hread
  refine Eq.trans ?_ hread
  rw [cells_eq_iff]
  intro i hi
  have htwo : tokenSize.toNat = 2 := rfl
  have hmax : maxFrameSize = 100 := rfl
  exact (copy_of_mem (by omega) (by omega)).trans (by rw [sub_zero])

/-- Behind whole blocks the scratch buffer shows what it held before. -/
theorem opened_withScratch (aes : Aes) {payload : List UInt8} (bytes : Mem UInt8)
    (hlen : payload.length ≤ 93) (hdvd : 16 ∣ payload.length) (hpos : 0 < payload.length) :
    (opened aes (withScratch st bytes).listener.globals payload).1 payload.length =
      bytes payload.length := by
  have hmax : maxFrameSize = 100 := rfl
  obtain ⟨-, hout, -⟩ := deciphered_blocks aes (withScratch st bytes).listener.globals
    (load payload null) hdvd (by omega) (by omega)
  refine (hout payload.length (.inr (le_refl _))).trans ?_
  exact (copy_of_mem (by omega) (by omega)).trans (by rw [sub_zero])

/-- A data frame that is not read as empty comes from an address of the network: what is behind
the array of tokens can accept its token and can reject it. -/
theorem sender_lt (h : Independent dev st packet) (h₁₀₀ : packet.length ≤ 100)
    (hdata : IsData dev packet)
    (hempty : ¬ ReadsEmpty dev.aes st.listener.globals (packet.drop 7)) :
    (packet.getD 2 0).toNat < dev.netSize := by
  obtain ⟨h₇, h0, h1, hcrc, htype, h2⟩ := hdata.getElem
  have hdrop : (packet.drop 7).length = packet.length - 7 := List.length_drop
  rw [h2]
  by_contra hlarge
  have hagree := agree_withCounter st (not_lt.mp hlarge)
  have hzero : (opened dev.aes st.listener.globals (packet.drop 7)).2 ≠ 0 := fun hzero =>
    hempty ((opened_eq_zero_iff dev.aes _ (by omega)).mp hzero)
  set t := tokenOf dev.aes st.listener.globals (packet.drop 7) with ht
  have hyes : Newer (withCounter st packet[2] (t - 1).toInt32).listener.globals.recvTokens t
      packet[2] := by
    have hself : (withCounter st packet[2] (t - 1).toInt32).listener.globals.recvTokens packet[2] =
        (t - 1).toInt32 := Function.update_self _ _ _
    have hdiff : t - (t - 1) = 1 := by grind
    rw [Newer, hself, UInt32.toUInt32_toInt32, hdiff]
    decide
  have hno : ¬ Newer (withCounter st packet[2] t.toInt32).listener.globals.recvTokens t
      packet[2] := by
    have hself : (withCounter st packet[2] t.toInt32).listener.globals.recvTokens packet[2] =
        t.toInt32 := Function.update_self _ _ _
    rw [Newer, hself, UInt32.toUInt32_toInt32, UInt32.sub_self]
    decide
  have hopened : ∀ v, opened dev.aes (withCounter st packet[2] v).listener.globals
      (packet.drop 7) = opened dev.aes st.listener.globals (packet.drop 7) := fun _ => rfl
  have htoken : ∀ v, tokenOf dev.aes (withCounter st packet[2] v).listener.globals
      (packet.drop 7) = t := fun _ => rfl
  have hsame := congrArg Outcome.view
    (h.eq (hagree (t - 1).toInt32) (hagree t.toInt32) ⟨0, null, 0⟩ null)
  rw [outcome_data dev _ _ _ h₇ h₁₀₀ h0 h1 hcrc htype,
    outcome_data dev _ _ _ h₇ h₁₀₀ h0 h1 hcrc htype] at hsame
  simp only [hopened, htoken, if_neg hzero, if_pos hyes, if_neg hno] at hsame
  exact absurd hsame (by simp)

/-- An empty payload of a data frame does not meet a counter at which its token may be
accepted, unless it is read as empty. -/
theorem clean_of_nil (h : Independent dev st packet) (h₁₀₀ : packet.length ≤ 100)
    (hdata : IsData dev packet) (hnil : (packet.drop 7).length = 0)
    (hempty : st.listener.globals.encBuf (-1) ≠ 255) {t : ℕ} (ht : t < 2 ^ 16) :
    ¬ Newer st.listener.globals.recvTokens (UInt32.ofNat t) (packet.getD 2 0) := by
  obtain ⟨h₇, h0, h1, hcrc, htype, h2⟩ := hdata.getElem
  obtain ⟨t', ht', hnot⟩ := exists_not_newer st.listener.globals.recvTokens packet[2]
  rw [h2]
  intro hnewer
  have hne : ∀ t, (opened dev.aes (withScratch st (load (toBytes tokenSize.toNat t)
      null)).listener.globals (packet.drop 7)).2 ≠ 0 := by
    intro t hzero
    have hsize : (opened dev.aes (withScratch st (load (toBytes tokenSize.toNat t)
        null)).listener.globals (packet.drop 7)).2 =
        (opened dev.aes st.listener.globals (packet.drop 7)).2 :=
      opened_size_agree (by omega)
        ((agree_withScratch dev st (load (toBytes tokenSize.toNat t) null)).encBuf (-1)
          (.inl (by omega)))
    rw [hsize, opened_eq_zero_iff dev.aes _ (by omega), ReadsEmpty, if_pos hnil] at hzero
    exact hempty hzero
  have hsame := congrArg Outcome.view (h.eq
    (agree_withScratch dev st (load (toBytes tokenSize.toNat t) null))
    (agree_withScratch dev st (load (toBytes tokenSize.toNat t') null)) ⟨0, null, 0⟩ null)
  rw [outcome_data dev _ _ _ h₇ h₁₀₀ h0 h1 hcrc htype,
    outcome_data dev _ _ _ h₇ h₁₀₀ h0 h1 hcrc htype] at hsame
  simp only [if_neg (hne _), tokenOf_withScratch dev.aes hnil ht,
    tokenOf_withScratch dev.aes hnil ht'] at hsame
  have hyes : Newer (withScratch st (load (toBytes tokenSize.toNat t)
      null)).listener.globals.recvTokens (UInt32.ofNat t) packet[2] := hnewer
  have hno : ¬ Newer (withScratch st (load (toBytes tokenSize.toNat t')
      null)).listener.globals.recvTokens (UInt32.ofNat t') packet[2] := hnot
  rw [if_pos hyes, if_neg hno] at hsame
  exact absurd hsame (by simp)

/-- An accepted message does not reach behind its payload. -/
theorem clean_of_blocks (h : Independent dev st packet) (h₁₀₀ : packet.length ≤ 100)
    (hdata : IsData dev packet) (hdvd : 16 ∣ (packet.drop 7).length)
    (hpos : 0 < (packet.drop 7).length)
    (hnewer : Newer st.listener.globals.recvTokens (carried dev.aes (packet.drop 7))
      (packet.getD 2 0)) :
    let p := padding dev.aes (packet.drop 7)
    p ≠ (packet.drop 7).length - 2 ∧ (p < (packet.drop 7).length ∨ p = 255) := by
  obtain ⟨h₇, h0, h1, hcrc, htype, h2⟩ := hdata.getElem
  have hdrop : (packet.drop 7).length = packet.length - 7 := List.length_drop
  have hlen : (packet.drop 7).length ≤ 93 := by omega
  rw [h2] at hnewer
  intro p
  by_contra hnot
  have hp : p < 256 := UInt8.toNat_lt _
  -- the message then has a byte at the first cell behind the payload
  have hnat : ∀ g : Globals, ((opened dev.aes g (packet.drop 7)).2.toNat : ℤ) =
      (((packet.drop 7).length : ℤ) - p - 1) % 256 :=
    fun g => toNat_opened dev.aes g hdvd hpos hlen
  have hne : ∀ g : Globals, (opened dev.aes g (packet.drop 7)).2 ≠ 0 := by
    intro g hzero
    have := hnat g
    rw [hzero] at this
    have hz : (0 : UInt8).toNat = 0 := rfl
    omega
  have hlong : ∀ g : Globals, (packet.drop 7).length - 2 <
      ((opened dev.aes g (packet.drop 7)).2 - tokenSize).toNat := by
    intro g
    have hsub := UInt8.toNat_sub (opened dev.aes g (packet.drop 7)).2 tokenSize
    have htwo : tokenSize.toNat = 2 := rfl
    have := hnat g
    omega
  have hyes : ∀ bytes, Newer (withScratch st bytes).listener.globals.recvTokens
      (tokenOf dev.aes (withScratch st bytes).listener.globals (packet.drop 7)) packet[2] := by
    intro bytes
    rw [tokenOf_eq_carried dev.aes _ hlen hdvd hpos]
    exact hnewer
  have hview : ∀ bytes, (outcome dev (withScratch st bytes) ⟨0, null, 0⟩ null packet).view =
      .message packet[2] ((opened dev.aes (withScratch st bytes).listener.globals
          (packet.drop 7)).2 - tokenSize)
        (cells (shift (opened dev.aes (withScratch st bytes).listener.globals
          (packet.drop 7)).1 tokenSize.toNat) ((opened dev.aes
          (withScratch st bytes).listener.globals (packet.drop 7)).2 - tokenSize).toNat) := by
    intro bytes
    rw [outcome_data dev _ _ _ h₇ h₁₀₀ h0 h1 hcrc htype]
    simp only [if_neg (hne _), if_pos (hyes bytes)]
  have hlast : ∀ bytes : Mem UInt8, (cells (shift (opened dev.aes
      (withScratch st bytes).listener.globals (packet.drop 7)).1 tokenSize.toNat)
      ((opened dev.aes (withScratch st bytes).listener.globals
        (packet.drop 7)).2 - tokenSize).toNat)[(packet.drop 7).length - 2]? =
      some (bytes (packet.drop 7).length) := by
    intro bytes
    have htwo : tokenSize.toNat = 2 := rfl
    have hcell : (((packet.drop 7).length - 2 : ℕ) : ℤ) + (tokenSize.toNat : ℤ) =
        (packet.drop 7).length := by
      omega
    rw [List.getElem?_eq_getElem (by rw [length_cells]; exact hlong _), getElem_cells,
      shift_apply, hcell, opened_withScratch dev.aes bytes hlen hdvd hpos]
  have hsame := congrArg Outcome.view (h.eq (agree_withScratch dev st fun _ => 0)
    (agree_withScratch dev st fun _ => 1) ⟨0, null, 0⟩ null)
  rw [hview, hview] at hsame
  have hbyte := congrArg (fun l => l[(packet.drop 7).length - 2]?) (View.message.inj hsame).2.2
  rw [hlast, hlast] at hbyte
  exact absurd hbyte (by simp)

end NotClean

/-- **What earlier packets leave behind.** For every packet of 1 to 100 bytes and every state of
a listener: the iteration shows the same with every content of the frame buffer and of the
scratch buffer if and only if the packet is clean, and the same with every content of its
uninitialised locals as well if and only if the packet is clean and is not a data frame that is
read as empty. -/
theorem independent_iff (dev : Device) (st : Station) {packet : List UInt8}
    (h₁ : 1 ≤ packet.length) (h₁₀₀ : packet.length ≤ 100) :
    (Independent dev st packet ↔ Clean dev st packet) ∧
    (IndependentOfLocals dev st packet ↔ Clean dev st packet ∧
      ¬ (IsData dev packet ∧ ReadsEmpty dev.aes st.listener.globals (packet.drop 7))) := by
  have hclean : Independent dev st packet → Clean dev st packet := by
    intro h
    refine ⟨fun hnext hshort => ?_, fun hdata => ?_⟩
    · have hseven : framePosMsg = 7 := rfl
      have h₂ := two_le_length h h₁ hnext
      have hdest := dest_ne_of_short h h₂ (by omega) hnext
      exact ⟨h₂, hdest, six_or_bad h h₂ (by omega) hnext hdest⟩
    · refine or_iff_not_imp_left.mpr fun hempty => ⟨sender_lt h h₁₀₀ hdata hempty, ?_⟩
      rw [ReadsEmpty] at hempty
      by_cases hnil : (packet.drop 7).length = 0
      · rw [if_pos hnil] at hempty ⊢
        exact fun t ht => clean_of_nil h h₁₀₀ hdata hnil hempty ht
      · rw [if_neg hnil] at hempty ⊢
        have hdvd : 16 ∣ (packet.drop 7).length :=
          not_not.mp fun hdvd => hempty fun h => absurd h hdvd
        exact clean_of_blocks h h₁₀₀ hdata hdvd (by omega)
  refine ⟨⟨hclean, ?_⟩, ?_, ?_⟩
  · intro hc st' hagree message token
    exact outcome_agree hagree h₁ h₁₀₀ hc (.inl rfl)
  · intro h
    refine ⟨hclean fun st' hagree message token => h st' hagree message token message token, ?_⟩
    rintro ⟨hdata, hempty⟩
    obtain ⟨h₇, h0, h1, hcrc, htype, -⟩ := hdata.getElem
    have hdrop : (packet.drop 7).length = packet.length - 7 := List.length_drop
    have hzero := (opened_eq_zero_iff dev.aes _ (by omega)).mpr hempty
    have hsame := congrArg Outcome.view (h st ⟨rfl, rfl, rfl, fun _ _ => rfl, fun _ _ => rfl⟩
      ⟨0, null, 0⟩ null ⟨0, null, 1⟩ null)
    rw [outcome_data dev _ _ _ h₇ h₁₀₀ h0 h1 hcrc htype,
      outcome_data dev _ _ _ h₇ h₁₀₀ h0 h1 hcrc htype] at hsame
    simp only [if_pos hzero] at hsame
    exact absurd (View.message.inj hsame).2.1 (by decide)
  · rintro ⟨hc, hlocals⟩ st' hagree message token message' token'
    exact outcome_agree hagree h₁ h₁₀₀ hc (.inr hlocals)

/-! ### One block -/

/-- A data frame from `send` with one block of clear text: the token 1 in front, and the count
byte `p` at its end. -/
def blockFrom (aes : Aes) (crc : List UInt8 → UInt8) (send p : UInt8) : List UInt8 :=
  frameBytes crc 0 0 send 0 initTtl (List.ofFn (aes (Padding.blockWith p)))

section Block

variable (aes : Aes) (crc : List UInt8 → UInt8) (send p : UInt8)

/-- The frame has a payload of one block. -/
theorem length_blockFrom : (blockFrom aes crc send p).length = 23 := by
  rw [blockFrom, length_frameBytes, List.length_ofFn]

/-- Its payload is the block, encrypted. -/
theorem drop_blockFrom :
    (blockFrom aes crc send p).drop 7 = List.ofFn (aes (Padding.blockWith p)) :=
  rfl

/-- It is a data frame for node `0`. -/
theorem isData_blockFrom : IsData ((Config.direct 2 aes crc).device 0)
    (blockFrom aes crc send p) := by
  refine ⟨?_, rfl, rfl, rfl, show (0 : UInt8) &&& responseMask = 0 by decide⟩
  rw [length_blockFrom]
  decide

/-- It decrypts to the block. -/
theorem plainText_blockFrom (k : Fin 16) :
    Cipher.plainText aes (load (List.ofFn (aes (Padding.blockWith p))) null) (k : ℕ) =
      Padding.blockWith p k := by
  have hblock : block 16 (load (List.ofFn (aes (Padding.blockWith p))) null) 0 =
      aes (Padding.blockWith p) := by
    funext j
    have hj : (j : ℕ) < (List.ofFn (aes (Padding.blockWith p))).length := by simp
    have hcell : load (List.ofFn (aes (Padding.blockWith p))) null (j : ℕ) =
        aes (Padding.blockWith p) j := by
      rw [load_of_lt hj, List.getElem_ofFn]
    simpa [block] using hcell
  have hdiv : (k : ℕ) / 16 = 0 := by omega
  have hcell := cell_eq_block (b := 16)
    (Cipher.plainText aes (load (List.ofFn (aes (Padding.blockWith p))) null)) k
  rw [hdiv, Cipher.plainText, block_ofBlocks, hblock, Equiv.symm_apply_apply] at hcell
  refine hcell.trans ?_
  congr 1
  exact Fin.ext (Nat.mod_eq_of_lt k.isLt)

/-- Its token is one. -/
theorem carried_blockFrom : carried aes ((blockFrom aes crc send p).drop 7) = 1 := by
  have hcells : cells (Cipher.plainText aes (load (List.ofFn (aes (Padding.blockWith p)))
      null)) tokenSize.toNat = [0, 1] :=
    congrArg₂ (fun a b => [a, b]) (plainText_blockFrom aes p 0) (plainText_blockFrom aes p 1)
  apply UInt32.toNat_inj.mp
  rw [drop_blockFrom, carried, toNat_mergeFromBytes, hcells]
  rfl

/-- Its count byte is the one that was chosen. -/
theorem padding_blockFrom : padding aes ((blockFrom aes crc send p).drop 7) = p.toNat := by
  have hcount : Cipher.countByte aes (load (List.ofFn (aes (Padding.blockWith p))) null) 16 =
      p :=
    plainText_blockFrom aes p 15
  rw [drop_blockFrom, padding, List.length_ofFn, hcount]

/-- The block is read as empty when the count byte takes all of it. -/
theorem readsEmpty_blockFrom_iff (g : Globals) :
    ReadsEmpty aes g ((blockFrom aes crc send p).drop 7) ↔ p.toNat = 15 := by
  have hn : ((blockFrom aes crc send p).drop 7).length = 16 := by
    rw [List.length_drop, length_blockFrom]
  have hpad := padding_blockFrom aes crc send p
  rw [padding, hn] at hpad
  rw [ReadsEmpty, hn, if_neg (by decide), hpad]
  exact ⟨fun h => h ⟨1, rfl⟩, fun h _ => h⟩

end Block

/-- A message of one byte is treated alike by every node that has just started. -/
theorem independent_blockFrom :
    let dev := (Config.direct 2 (Equiv.refl Block) Crc8.crc8).device 0
    let packet := blockFrom (Equiv.refl Block) Crc8.crc8 1 12
    IsData dev packet ∧ Newer started.listener.globals.recvTokens (carried dev.aes
        (packet.drop 7)) 1 ∧
      Independent dev started packet ∧ IndependentOfLocals dev started packet := by
  intro dev packet
  have hdata : IsData dev packet := isData_blockFrom (Equiv.refl Block) Crc8.crc8 1 12
  have hlen : packet.length = 23 := length_blockFrom _ _ _ _
  have hread : ¬ ReadsEmpty dev.aes started.listener.globals (packet.drop 7) := fun h =>
    absurd ((readsEmpty_blockFrom_iff (Equiv.refl Block) Crc8.crc8 1 12 _).mp h) (by decide)
  have hcarried : carried dev.aes (packet.drop 7) = 1 := carried_blockFrom _ _ _ _
  have hpad : padding dev.aes (packet.drop 7) = 12 := padding_blockFrom _ _ _ _
  have hn : (packet.drop 7).length = 16 := by rw [List.length_drop, hlen]
  have hclean : Clean dev started packet := by
    refine ⟨fun _ hshort => ?_, fun _ => .inr ⟨by decide, ?_⟩⟩
    · rw [hlen] at hshort
      exact absurd hshort (by decide)
    · rw [hn, if_neg (by decide), hpad]
      exact fun _ => ⟨by decide, .inl (by decide)⟩
  have h₁ : 1 ≤ packet.length := by omega
  obtain ⟨hbuffers, hlocals⟩ := independent_iff dev started h₁ (by omega)
  refine ⟨hdata, ?_, hbuffers.mpr hclean, hlocals.mpr ⟨hclean, fun h => hread h.2⟩⟩
  rw [hcarried]
  decide

/-- What a packet brings depends on earlier ones, under every key and checksum: the single byte
that names this node, a data frame without a payload, one whose message reaches behind its
payload, and one from an address that has no counter. -/
theorem not_independent :
    (¬ ∃ aes crc, Independent ((Config.direct 2 aes crc).device 0) started [0]) ∧
    (¬ ∃ aes crc, Independent ((Config.direct 2 aes crc).device 0) started
      (frameBytes crc 0 0 1 0 initTtl [])) ∧
    (¬ ∃ aes crc, Independent ((Config.direct 2 aes crc).device 0) started
      (blockFrom aes crc 1 16)) ∧
    ¬ ∃ aes crc, Independent ((Config.direct 2 aes crc).device 0) started
      (blockFrom aes crc 2 12) := by
  refine ⟨?_, ?_, ?_, ?_⟩
  · rintro ⟨aes, crc, h⟩
    exact absurd (two_le_length h (by decide) rfl) (by decide)
  · rintro ⟨aes, crc, h⟩
    have hlen : (frameBytes crc 0 0 1 0 initTtl []).length = 7 :=
      length_frameBytes _ _ _ _ _ _ _
    have hdata : IsData ((Config.direct 2 aes crc).device 0)
        (frameBytes crc 0 0 1 0 initTtl []) := by
      refine ⟨?_, rfl, rfl, rfl, show (0 : UInt8) &&& responseMask = 0 by decide⟩
      rw [hlen]
      decide
    exact clean_of_nil h (by omega) hdata (by rw [List.length_drop, hlen]) (by decide)
      (show 1 < 2 ^ 16 by omega) (show Newer (fun _ => 0) (UInt32.ofNat 1) 1 by decide)
  · rintro ⟨aes, crc, h⟩
    have hlen := length_blockFrom aes crc 1 16
    have hn : ((blockFrom aes crc 1 16).drop 7).length = 16 := by
      rw [List.length_drop, hlen]
    have hnewer : Newer (fun _ => 0) (carried aes ((blockFrom aes crc 1 16).drop 7)) 1 := by
      rw [carried_blockFrom]
      decide
    have hbad := clean_of_blocks h (by omega) (isData_blockFrom aes crc 1 16) (by rw [hn])
      (by omega) hnewer
    have hpad : padding ((Config.direct 2 aes crc).device 0).aes
        ((blockFrom aes crc 1 16).drop 7) = 16 := padding_blockFrom aes crc 1 16
    rw [hn, hpad] at hbad
    exact absurd hbad (by decide)
  · rintro ⟨aes, crc, h⟩
    have hlen := length_blockFrom aes crc 2 12
    have hread : ¬ ReadsEmpty aes started.listener.globals ((blockFrom aes crc 2 12).drop 7) :=
      fun h => absurd ((readsEmpty_blockFrom_iff aes crc 2 12 _).mp h) (by decide)
    exact lt_irrefl 2 (sender_lt h (by omega) (isData_blockFrom aes crc 2 12) hread)

end Residue

end LCore
