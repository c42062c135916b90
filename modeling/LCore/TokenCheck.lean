import LCore.Responses
import Mathlib.Data.List.GetD

/-!
# Messages Without a Token

`decrypt` takes an empty clear text for a message that needs no token: it returns `true` before
`_validate_token` is called, and leaves `*out_size` as it was. Whether the clear text is empty is
read off the size that `decryptBytes` reports, and that is `0` for a length that is no multiple
of 16 as well. A reported size of `1` is too short for a token, but a token is read, and the size
of the message behind it wraps to 255. A payload of no bytes is not decrypted at all: its size
and its token are what earlier payloads left in the scratch buffer and in front of it.

So a message that gets through is vouched for by a token of its own exactly when none of this
happens, and a listener that puts it into `new_frame_queue` or acknowledges it does no better.

## Main results

* `decrypt_opened`, `dispatch_opened`: a call of `decrypt` and what becomes of a data frame, by
  what the cipher makes of the payload.
* `vouched_iff`, `vouchedWhole_iff`: when a `true` of `decrypt` stands for an accepted token.
* `tokenChecked_iff`: the same for a listener, over every run.
* `not_tokenChecked`: five bytes that are no message get through without a token.
-/

open Memory Machine BigEndian

namespace LCore

namespace TokenCheck

open Encryption Responses

/-- The scratch buffer and the size that the cipher makes of a payload. -/
def opened (aes : Aes) (g : Globals) (payload : List UInt8) : Mem UInt8 × UInt8 :=
  deciphered aes g (load payload null) payload.length

/-- The token that `decrypt` reads. -/
def tokenOf (aes : Aes) (g : Globals) (payload : List UInt8) : UInt32 :=
  mergeFromBytes (opened aes g payload).1 tokenSize

/-- The token that stands in the first bytes of a payload. -/
def carried (aes : Aes) (payload : List UInt8) : UInt32 :=
  mergeFromBytes (Cipher.plainText aes (load payload null)) tokenSize

/-- The number of padding zeros that the last byte of a payload names. -/
def padding (aes : Aes) (payload : List UInt8) : ℕ :=
  (Cipher.countByte aes (load payload null) payload.length).toNat

/-- A message `msg` of `msgSize` bytes was taken from a payload with an accepted token: the
payload decrypted to the bytes of a token at least, the counter of its sender moved to the token
that stands in it, and size and message were set to what is behind the token. -/
structure Vouched (aes : Aes) (g g' : Globals) (payload : List UInt8) (sender : UInt8)
    (msg : Mem UInt8) (msgSize : UInt8) : Prop where
  held : tokenSize.toNat ≤ payload.length
  read : tokenSize.toNat ≤ (opened aes g payload).2.toNat
  newer : Newer g.recvTokens (carried aes payload) sender
  moved : g'.recvTokens = Function.update g.recvTokens sender (carried aes payload).toInt32
  size : tokenSize.toNat + msgSize.toNat = (opened aes g payload).2.toNat
  bytes : ∀ i : ℕ, i < msgSize.toNat → msg i = g'.encBuf (tokenSize.toNat + i : ℕ)

/-- A message that was taken with an accepted token, and that is what the payload itself holds
between its token and its padding. -/
structure VouchedWhole (aes : Aes) (g g' : Globals) (payload : List UInt8) (sender : UInt8)
    (msg : Mem UInt8) (msgSize : UInt8) : Prop
    extends Vouched aes g g' payload sender msg msgSize where
  fits : tokenSize.toNat + msgSize.toNat + padding aes payload + 1 = payload.length
  own : ∀ i : ℕ, i < msgSize.toNat →
    msg i = Cipher.plainText aes (load payload null) (tokenSize.toNat + i : ℕ)

/-- A payload that gets through only with a token of its own. Without a byte, it must neither be
read as empty nor meet an accepted token in the scratch buffer; otherwise it is made of whole
blocks, is not read as empty, and has room for its token, by `Fits` of the padding and the
length, if that is accepted. -/
def Guarded (Fits : ℕ → ℕ → Prop) (aes : Aes) (g : Globals) (payload : List UInt8)
    (sender : UInt8) : Prop :=
  if payload.length = 0 then
    g.encBuf (-1) ≠ 255 ∧ ¬ Newer g.recvTokens (mergeFromBytes g.encBuf tokenSize) sender
  else
    16 ∣ payload.length ∧ padding aes payload + 1 ≠ payload.length ∧
      (Newer g.recvTokens (carried aes payload) sender →
        Fits (padding aes payload) payload.length)

instance (Fits : ℕ → ℕ → Prop) [∀ p n, Decidable (Fits p n)] (aes : Aes) (g : Globals)
    (payload : List UInt8) (sender : UInt8) : Decidable (Guarded Fits aes g payload sender) :=
  inferInstanceAs (Decidable (@ite Prop _ _ _ _))

/-- The size that is reported is not the single byte that is too short for a token. -/
abbrev NotOneByte (p n : ℕ) : Prop := p + 2 ≠ n

/-- The clear text in front of the padding is long enough for a token. -/
abbrev HoldsToken (p n : ℕ) : Prop := p + 3 ≤ n

/-- Whatever `decrypt` returns `true` for is allowed, exactly for the payloads under the
condition. -/
def ExactlyWhen (aes : Aes)
    (Allowed : Globals → Globals → List UInt8 → UInt8 → Mem UInt8 → UInt8 → Prop)
    (Cond : Globals → List UInt8 → UInt8 → Prop) : Prop :=
  ∀ (g : Globals) (input : Mem UInt8) (payload : List UInt8) (output : Mem UInt8)
    (outSize sender : UInt8), payload.length ≤ 93 → cells input payload.length = payload →
    let d := decrypt aes g input (UInt8.ofNat payload.length) output outSize sender
    (d.1 = true → Allowed g d.2.1 payload sender d.2.2.1 d.2.2.2) ↔ Cond g payload sender

/-! ### One call of `decrypt` -/

/-- `decrypt` looks at nothing but the bytes of the payload. -/
theorem deciphered_eq_opened (aes : Aes) (g : Globals) {input : Mem UInt8}
    {payload : List UInt8} (hlen : payload.length ≤ 93)
    (hin : cells input payload.length = payload) :
    deciphered aes g input payload.length = opened aes g payload := by
  have hcells : cells input payload.length = cells (load payload null) payload.length := by
    rw [hin, cells_load]
  simp only [opened, deciphered, toInt8_ofNat]
  rw [Cipher.decryptBytes_congr aes g.encBuf (by omega) hcells]

/-- What `decrypt` does, by what the cipher makes of the payload. -/
theorem decrypt_opened (aes : Aes) (g : Globals) {input : Mem UInt8} {payload : List UInt8}
    (output : Mem UInt8) (outSize sender : UInt8) (hlen : payload.length ≤ 93)
    (hin : cells input payload.length = payload) :
    decrypt aes g input (UInt8.ofNat payload.length) output outSize sender =
      let c := opened aes g payload
      let t := tokenOf aes g payload
      if c.2 = 0 then (true, { g with encBuf := c.1 }, output, outSize)
      else if Newer g.recvTokens t sender then
        (true, ⟨g.sendTokens, Function.update g.recvTokens sender t.toInt32, c.1⟩,
          copy output 0 (shift c.1 tokenSize.toNat) (c.2 - tokenSize).toNat, c.2 - tokenSize)
      else (false, { g with encBuf := c.1 }, output, outSize) := by
  rw [decrypt_eq, deciphered_eq_opened aes g hlen hin]
  rfl

/-- What becomes of a data frame with a correct checksum, by what the cipher makes of its
payload: an empty message, a message whose token is accepted, or a `SYNC|RESEND`. -/
theorem dispatch_opened (dev : Device) (g : Globals) {frame : LoraFrame} (message : NewMsg)
    (token : Mem UInt8) {p : List UInt8} (hf : Holds frame p) (h₇ : p.length ≥ 7)
    (h₉₃ : (p.drop 7).length ≤ 93) (hcrc : dev.crc (maskBytes p) = p[6])
    (htype : p[3] &&& responseMask = 0) :
    dispatch dev g frame message token =
      let c := opened dev.aes g (p.drop 7)
      let t := tokenOf dev.aes g (p.drop 7)
      if c.2 = 0 then
        ({ g with encBuf := c.1 }, .message ⟨p[2], message.msg, message.msgSize⟩ p[3])
      else if Newer g.recvTokens t p[2] then
        (⟨g.sendTokens, Function.update g.recvTokens p[2] t.toInt32, c.1⟩,
          .message ⟨p[2], copy message.msg 0 (shift c.1 tokenSize.toNat)
            (c.2 - tokenSize).toNat, c.2 - tokenSize⟩ p[3])
      else
        ({ g with encBuf := c.1 }, .rejected (frameBytes dev.crc
          (UInt8.ofInt (dev.routingTable p[2])) p[2] dev.address (typeMaskSync ||| typeMaskResend)
          initTtl (toBytes tokenSize.toNat (nextRecvToken g p[2]).toNat))) := by
  have hdrop : (p.drop 7).length = p.length - 7 := List.length_drop
  obtain ⟨encrypted, henc, hdisp⟩ := dispatch_payload dev g message token hf h₇ (by omega) hcrc
    htype
  have hdecrypt := decrypt_opened dev.aes g message.msg message.msgSize p[2] h₉₃ henc
  simp only [hdecrypt] at hdisp
  rw [hdisp]
  dsimp only
  by_cases hzero : (opened dev.aes g (p.drop 7)).2 = 0
  · simp only [if_pos hzero, if_true]
  · by_cases hnewer : Newer g.recvTokens (tokenOf dev.aes g (p.drop 7)) p[2]
    · simp only [if_neg hzero, if_pos hnewer, if_true]
    · simp only [if_neg hzero, if_neg hnewer, Bool.false_eq_true, if_false, transmit_token]
      rfl

/-- A payload that is not made of whole blocks is reported to be empty. -/
theorem opened_of_not_dvd (aes : Aes) (g : Globals) {payload : List UInt8}
    (hlen : payload.length ≤ 93) (hdvd : ¬ 16 ∣ payload.length) :
    (opened aes g payload).2 = 0 := by
  have hmod : (Int8.ofInt payload.length).toInt.tmod 16 ≠ 0 := by
    rw [toInt_ofInt8 (by omega), Int.tmod_eq_emod_of_nonneg (by omega)]
    omega
  simp only [opened, deciphered, toInt8_ofNat]
  rw [Cipher.decryptBytes_of_not_dvd aes _ _ hmod]
  rfl

/-- A payload that `decryptBytes` reports to be empty: it is not made of whole blocks, or its
count byte takes everything. The count byte of no bytes at all is the one in front of the
scratch buffer. -/
def ReadsEmpty (aes : Aes) (g : Globals) (payload : List UInt8) : Prop :=
  if payload.length = 0 then g.encBuf (-1) = 255
  else 16 ∣ payload.length →
    (Cipher.countByte aes (load payload null) payload.length).toNat = payload.length - 1

/-- Without a byte of payload the scratch buffer stays as it is. -/
theorem opened_of_nil (aes : Aes) (g : Globals) {payload : List UInt8}
    (hnil : payload.length = 0) :
    opened aes g payload =
      (g.encBuf, (Int8.ofInt (-((g.encBuf (-1)).toNat : ℤ) - 1)).toUInt8) := by
  have hdec := Cipher.decryptBytes_eq aes (load payload null) g.encBuf (show 0 < 8 by omega)
  simp only [Nat.mul_zero, Nat.cast_zero, zero_sub, convert] at hdec
  simp only [opened, deciphered, toInt8_ofNat, hnil, Nat.cast_zero, hdec]

/-- The size that is read of a payload of no bytes. -/
theorem toNat_opened_of_nil (aes : Aes) (g : Globals) {payload : List UInt8}
    (hnil : payload.length = 0) :
    (opened aes g payload).2.toNat = 255 - (g.encBuf (-1)).toNat := by
  have hbyte := (g.encBuf (-1)).toNat_lt
  simp only [opened_of_nil aes g hnil, toNat_toUInt8_ofInt]
  omega

/-- The size that is read of whole blocks. -/
theorem toNat_opened (aes : Aes) (g : Globals) {payload : List UInt8}
    (hdvd : 16 ∣ payload.length) (hpos : 0 < payload.length) (hlen : payload.length ≤ 93) :
    ((opened aes g payload).2.toNat : ℤ) = ((payload.length : ℤ) -
      (Cipher.countByte aes (load payload null) payload.length).toNat - 1) % 256 := by
  obtain ⟨-, -, hsize⟩ := deciphered_blocks aes g (load payload null) hdvd (by omega) (by omega)
  rw [opened, hsize, toNat_toUInt8_ofInt]
  omega

/-- A payload is read with size zero when it is read as empty. -/
theorem opened_eq_zero_iff (aes : Aes) (g : Globals) {payload : List UInt8}
    (hlen : payload.length ≤ 93) :
    (opened aes g payload).2 = 0 ↔ ReadsEmpty aes g payload := by
  have hzero : (opened aes g payload).2 = 0 ↔ (opened aes g payload).2.toNat = 0 :=
    UInt8.toNat_inj.symm
  rw [ReadsEmpty]
  by_cases hnil : payload.length = 0
  · have hbyte := (g.encBuf (-1)).toNat_lt
    rw [if_pos hnil, hzero, toNat_opened_of_nil aes g hnil, ← UInt8.toNat_inj]
    have : (255 : UInt8).toNat = 255 := rfl
    omega
  · rw [if_neg hnil]
    by_cases hdvd : 16 ∣ payload.length
    · have hsize := toNat_opened aes g hdvd (by omega) hlen
      have hbyte := (Cipher.countByte aes (load payload null) payload.length).toNat_lt
      rw [hzero]
      constructor
      · intro h _
        omega
      · intro h
        have := h hdvd
        omega
    · exact iff_of_true (opened_of_not_dvd aes g hlen hdvd) fun h => absurd h hdvd

/-- The token that is read is the one the payload carries. -/
theorem tokenOf_eq_carried (aes : Aes) (g : Globals) {payload : List UInt8}
    (hlen : payload.length ≤ 93) (hdvd : 16 ∣ payload.length) (hpos : 0 < payload.length) :
    tokenOf aes g payload = carried aes payload :=
  mergeFromBytes_deciphered aes g _ hdvd (by omega) (by omega)

/-- Without a byte of payload, it is the one in the scratch buffer. -/
theorem tokenOf_of_nil (aes : Aes) (g : Globals) {payload : List UInt8}
    (hnil : payload.length = 0) : tokenOf aes g payload = mergeFromBytes g.encBuf tokenSize := by
  rw [tokenOf, opened_of_nil aes g hnil]

/-- What is allowed implies an accepted token, and for whole blocks whose token is accepted
it depends on the padding alone: then the condition is exact. -/
theorem exactlyWhen_of_blocks {aes : Aes}
    {Allowed : Globals → Globals → List UInt8 → UInt8 → Mem UInt8 → UInt8 → Prop}
    {Fits : ℕ → ℕ → Prop}
    (himp : ∀ {g g' payload sender msg msgSize}, Allowed g g' payload sender msg msgSize →
      Vouched aes g g' payload sender msg msgSize)
    (hiff : ∀ {g : Globals} {payload : List UInt8} {sender : UInt8} (output : Mem UInt8),
      payload.length ≤ 93 → 0 < payload.length → 16 ∣ payload.length →
      (opened aes g payload).2 ≠ 0 → Newer g.recvTokens (carried aes payload) sender →
      (Allowed g ⟨g.sendTokens,
          Function.update g.recvTokens sender (carried aes payload).toInt32,
          (opened aes g payload).1⟩ payload sender
        (copy output 0 (shift (opened aes g payload).1 tokenSize.toNat)
          ((opened aes g payload).2 - tokenSize).toNat) ((opened aes g payload).2 - tokenSize) ↔
        Fits (padding aes payload) payload.length)) :
    ExactlyWhen aes Allowed (Guarded Fits aes) := by
  intro g input payload output outSize sender hlen hin d
  have hd : d = _ := decrypt_opened aes g output outSize sender hlen hin
  dsimp only at hd
  have hread := opened_eq_zero_iff aes g hlen
  rw [hd, Guarded]
  by_cases hzero : (opened aes g payload).2 = 0
  · -- the payload is read as empty, and no token is looked at
    rw [if_pos hzero]
    have hempty := hread.mp hzero
    have hno : ¬ Allowed g { g with encBuf := (opened aes g payload).1 } payload sender output
        outSize := by
      intro hallowed
      have hlong := (himp hallowed).read
      rw [hzero] at hlong
      exact absurd hlong (by decide)
    refine iff_of_false (fun h => hno (h rfl)) ?_
    rw [ReadsEmpty] at hempty
    by_cases hnil : payload.length = 0
    · rw [if_pos hnil] at hempty ⊢
      exact fun h => h.1 hempty
    · rw [if_neg hnil] at hempty ⊢
      rintro ⟨hdvd, hne, -⟩
      have hcount := hempty hdvd
      exact hne (by rw [padding, hcount]; omega)
  · have hnot : ¬ ReadsEmpty aes g payload := fun h => hzero (hread.mpr h)
    rw [if_neg hzero]
    rw [ReadsEmpty] at hnot
    by_cases hnil : payload.length = 0
    · -- size and token are left over from earlier payloads
      rw [if_pos hnil] at hnot ⊢
      rw [tokenOf_of_nil aes g hnil]
      by_cases hnewer : Newer g.recvTokens (mergeFromBytes g.encBuf tokenSize) sender
      · rw [if_pos hnewer]
        refine iff_of_false (fun h => ?_) fun h => h.2 hnewer
        have hheld := (himp (h rfl)).held
        rw [hnil] at hheld
        exact absurd hheld (by decide)
      · rw [if_neg hnewer]
        exact iff_of_true (fun h => absurd h Bool.false_ne_true) ⟨hnot, hnewer⟩
    · rw [if_neg hnil] at hnot ⊢
      have hdvd : 16 ∣ payload.length := not_not.mp fun hdvd => hnot fun h => absurd h hdvd
      have hne : padding aes payload + 1 ≠ payload.length := fun h =>
        hnot fun _ => by rw [padding] at h; omega
      rw [tokenOf_eq_carried aes g hlen hdvd (by omega)]
      by_cases hnewer : Newer g.recvTokens (carried aes payload) sender
      · rw [if_pos hnewer]
        have hfits := hiff output hlen (by omega) hdvd hzero hnewer
        constructor
        · intro h
          exact ⟨hdvd, hne, fun _ => hfits.mp (h rfl)⟩
        · rintro ⟨-, -, h⟩ -
          exact hfits.mpr (h hnewer)
      · rw [if_neg hnewer]
        exact iff_of_true (fun h => absurd h Bool.false_ne_true)
          ⟨hdvd, hne, fun h => absurd h hnewer⟩

/-- The size `decryptBytes` reports for whole blocks that are not read as empty. -/
theorem toNat_opened_sub (aes : Aes) (g : Globals) {payload : List UInt8}
    (hlen : payload.length ≤ 93) (hpos : 0 < payload.length) (hdvd : 16 ∣ payload.length)
    (hzero : (opened aes g payload).2 ≠ 0) :
    (opened aes g payload).2.toNat ≠ 0 ∧
      ((opened aes g payload).2 - tokenSize).toNat =
        (256 - 2 + (opened aes g payload).2.toNat) % 256 ∧
      ((opened aes g payload).2.toNat : ℤ) =
        ((payload.length : ℤ) - padding aes payload - 1) % 256 :=
  ⟨fun h => hzero (UInt8.toNat_inj.mp h), UInt8.toNat_sub _ _, toNat_opened aes g hdvd hpos hlen⟩

/-- `decrypt` returns `true` only with an accepted token of the payload, for which there was
room in the size reported, exactly for the guarded payloads. -/
theorem vouched_iff (aes : Aes) : ExactlyWhen aes (Vouched aes) (Guarded NotOneByte aes) := by
  refine exactlyWhen_of_blocks id ?_
  intro g payload sender output hlen hpos hdvd hzero hnewer
  obtain ⟨hne, hsub, hsize⟩ := toNat_opened_sub aes g hlen hpos hdvd hzero
  have htwo : tokenSize.toNat = 2 := rfl
  have hbyte : padding aes payload < 256 := UInt8.toNat_lt _
  have hlt := (opened aes g payload).2.toNat_lt
  constructor
  · intro h hone
    have := h.read
    omega
  · intro hone
    have hread : tokenSize.toNat ≤ (opened aes g payload).2.toNat := by
      by_contra hshort
      exact hone (by omega)
    refine ⟨by omega, hread, hnewer, rfl, by omega, ?_⟩
    intro i hi
    refine (copy_of_mem (by omega) (by omega)).trans ?_
    rw [shift_apply, sub_zero, add_comm, Nat.cast_add]

/-- The message is moreover what the payload itself holds exactly when the clear text in front
of the padding is long enough for the token. -/
theorem vouchedWhole_iff (aes : Aes) :
    ExactlyWhen aes (VouchedWhole aes) (Guarded HoldsToken aes) := by
  refine exactlyWhen_of_blocks VouchedWhole.toVouched ?_
  intro g payload sender output hlen hpos hdvd hzero hnewer
  obtain ⟨hne, hsub, hsize⟩ := toNat_opened_sub aes g hlen hpos hdvd hzero
  have htwo : tokenSize.toNat = 2 := rfl
  have hbyte : padding aes payload < 256 := UInt8.toNat_lt _
  constructor
  · intro h
    have := h.fits
    rw [HoldsToken]
    omega
  · intro hfits
    rw [HoldsToken] at hfits
    obtain ⟨hin, -, -⟩ := deciphered_blocks aes g (load payload null) hdvd (by omega) (by omega)
    have hcopied : ∀ i : ℕ, i < ((opened aes g payload).2 - tokenSize).toNat →
        copy output 0 (shift (opened aes g payload).1 tokenSize.toNat)
          ((opened aes g payload).2 - tokenSize).toNat i =
        (opened aes g payload).1 (tokenSize.toNat + i : ℕ) := by
      intro i hi
      refine (copy_of_mem (by omega) (by omega)).trans ?_
      rw [shift_apply, sub_zero, add_comm, Nat.cast_add]
    refine ⟨⟨by omega, by omega, hnewer, rfl, by omega, hcopied⟩, by omega, ?_⟩
    intro i hi
    exact (hcopied i hi).trans (hin _ (by omega))

/-! ### One iteration of the listener -/

/-- An iteration transmits an acknowledgement of its own. -/
def Acknowledges (dev : Device) (st : Station) (message : NewMsg) (token : Mem UInt8)
    (packet : List UInt8) : Prop :=
  ∃ p ∈ (iterate dev st message token packet).2.2, p.getD 3 0 &&& typeMaskAck ≠ 0 ∧
    (listen dev st.listener message token packet).2 ≠ .forwarded p

/-- Whatever an iteration puts into `new_frame_queue` or acknowledges is a message of the sender
in its packet for which `Allowed` holds of the globals before and after, the payload, the sender,
and the message. -/
def Checked (dev : Device)
    (Allowed : Globals → Globals → List UInt8 → UInt8 → Mem UInt8 → UInt8 → Prop)
    (st : Station) : Input → Prop
  | .hear message token packet =>
      (iterate dev st message token packet).2.1 = some true ∨
        Acknowledges dev st message token packet →
      ∃ m type, (listen dev st.listener message token packet).2 = .message m type ∧
        m.address = packet.getD 2 0 ∧
        Allowed st.listener.globals
          (iterate dev st message token packet).1.listener.globals (packet.drop 7) m.address
          m.msg m.msgSize
  | .take => True

/-- The frame ends at this node and its payload is decrypted. -/
def IsData (dev : Device) (packet : List UInt8) : Prop :=
  framePosMsg ≤ packet.length ∧ packet.getD 0 0 = dev.address ∧
    packet.getD 1 0 = dev.address ∧ dev.crc (maskBytes packet) = packet.getD 6 0 ∧
    packet.getD 3 0 &&& responseMask = 0

/-- A packet meets a condition on its payload if it is a data frame for this node that the queue
has room for or that asks for an acknowledgement. -/
def Meets (dev : Device) (Cond : Globals → List UInt8 → UInt8 → Prop) (st : Station) :
    Input → Prop
  | .hear _ _ packet => IsData dev packet →
      st.newFrameQueue.length < queueLen ∨ packet.getD 3 0 &&& typeMaskNeedAck ≠ 0 →
      Cond st.listener.globals (packet.drop 7) (packet.getD 2 0)
  | .take => True

/-- Packets with a whole header that fit the buffer. -/
def InScope : Input → Prop
  | .hear _ _ packet => 7 ≤ packet.length ∧ packet.length ≤ maxFrameSize
  | .take => True

/-- The bytes of a data frame. -/
theorem IsData.getElem {dev : Device} {packet : List UInt8} (hdata : IsData dev packet) :
    ∃ h₇ : 6 < packet.length, packet[0] = dev.address ∧ packet[1] = dev.address ∧
      dev.crc (maskBytes packet) = packet[6] ∧ packet[3] &&& responseMask = 0 ∧
      packet.getD 2 0 = packet[2] := by
  obtain ⟨hlen, h0, h1, hcrc, htype⟩ := hdata
  have h₇ : 7 ≤ packet.length := by
    have hseven : framePosMsg = 7 := rfl
    omega
  have hget : ∀ i (hi : i < 7), packet.getD i 0 = packet[i] :=
    fun i hi => List.getD_eq_getElem packet 0 (by omega)
  rw [hget 0 (by omega)] at h0
  rw [hget 1 (by omega)] at h1
  rw [hget 6 (by omega)] at hcrc
  rw [hget 3 (by omega)] at htype
  exact ⟨h₇, h0, h1, hcrc, htype, hget 2 (by omega)⟩

section Iteration

variable {dev : Device} {st : Station} {message : NewMsg} {token : Mem UInt8}
  {packet : List UInt8}

/-- A message is put into the queue or acknowledged exactly when there is room for it or an
acknowledgement is asked for. -/
theorem taken_iff_of_message {m : NewMsg} {type : UInt8}
    (hheard : (listen dev st.listener message token packet).2 = .message m type) :
    ((iterate dev st message token packet).2.1 = some true ∨
      Acknowledges dev st message token packet) ↔
    (st.newFrameQueue.length < queueLen ∨ type &&& typeMaskNeedAck ≠ 0) := by
  have hack : (transmit dev m.address null 0 typeMaskAck).getD 3 0 = typeMaskAck :=
    type_transmit dev m.address null typeMaskAck (by decide)
  have herror : (transmit dev m.address null 0 typeMaskError).getD 3 0 = typeMaskError :=
    type_transmit dev m.address null typeMaskError (by decide)
  have hnone : typeMaskError &&& typeMaskAck = 0 := by decide
  have hself : typeMaskAck ≠ 0 := by decide
  simp only [Acknowledges, iterate, hheard, xQueueSend_fst, answers]
  by_cases hroom : st.newFrameQueue.length < queueLen
  · simp [hroom]
  · by_cases hneed : type &&& typeMaskNeedAck = 0
    · simp [-List.getD_eq_getElem?_getD, hroom, hneed, herror, hnone]
    · simp [-List.getD_eq_getElem?_getD, hroom, hneed, hack, hself]

variable (h₇ : 7 ≤ packet.length) (h₁₀₀ : packet.length ≤ maxFrameSize)

include h₇ h₁₀₀

/-- What is no data frame for this node is neither put into the queue nor acknowledged. -/
theorem not_taken_of_not_isData (hdata : ¬ IsData dev packet) :
    ¬ ((iterate dev st message token packet).2.1 = some true ∨
      Acknowledges dev st message token packet) := by
  have hmax : packet.length ≤ 100 := h₁₀₀
  have hget : ∀ i (hi : i < 7), packet.getD i 0 = packet[i] :=
    fun i hi => List.getD_eq_getElem packet 0 (by omega)
  intro htaken
  simp only [Acknowledges, iterate] at htaken
  rcases listen_cases dev st.listener message token h₇ (by omega) with
      ⟨frame, hlisten⟩ | ⟨frame, -, -, -, hlisten⟩ | ⟨frame, h0, h1, hholds, hlisten⟩
  · simp [hlisten] at htaken
  · simp [hlisten] at htaken
  · by_cases hcrc : dev.crc (maskBytes packet) = packet[6]
    · have htype : packet[3] &&& responseMask ≠ 0 := by
        intro htype
        have hseven : framePosMsg = 7 := rfl
        refine hdata ⟨by omega, ?_, ?_, ?_, ?_⟩
        · rw [hget 0 (by omega), h0]
        · rw [hget 1 (by omega), h1]
        · rw [hget 6 (by omega), hcrc]
        · rw [hget 3 (by omega), htype]
      rw [dispatch_response dev _ message token hholds h₇ (by omega) hcrc htype] at hlisten
      simp [hlisten] at htaken
    · -- a wrong checksum is answered with a `RESEND`
      rw [dispatch_badCrc dev _ message token hholds h₇ (by omega) hcrc] at hlisten
      simp only [hlisten, List.mem_singleton, exists_eq_left] at htaken
      exact absurd htaken (by simp [frameBytes]; decide)

/-- What becomes of a data frame: a message, if `decrypt` returns `true`, or a `SYNC|RESEND`. -/
theorem listen_of_isData (hdata : IsData dev packet) :
    ∃ frame encrypted, cells encrypted (packet.drop 7).length = packet.drop 7 ∧
      listen dev st.listener message token packet =
        let d := decrypt dev.aes st.listener.globals encrypted
          (UInt8.ofNat (packet.drop 7).length) message.msg message.msgSize (packet.getD 2 0)
        if d.1 = true then
          (⟨frame, d.2.1⟩, .message ⟨packet.getD 2 0, d.2.2.1, d.2.2.2⟩ (packet.getD 3 0))
        else (⟨frame, d.2.1⟩, .rejected (transmit dev (packet.getD 2 0)
          (getNextRecvToken d.2.1 token (packet.getD 2 0)) tokenSize
          (typeMaskSync ||| typeMaskResend))) := by
  have hmax : packet.length ≤ 100 := h₁₀₀
  obtain ⟨h₆, h0, h1, hcrc, htype, h2⟩ := hdata.getElem
  have h3 : packet.getD 3 0 = packet[3] := List.getD_eq_getElem packet 0 (by omega)
  obtain ⟨frame, hholds, hlisten⟩ :=
    listen_received dev st.listener message token h₇ (by omega) h0 h1
  obtain ⟨encrypted, henc, hdisp⟩ := dispatch_payload dev st.listener.globals message token
    hholds h₇ (by omega) hcrc htype
  refine ⟨frame, encrypted, henc, ?_⟩
  rw [hlisten, hdisp, h2, h3]
  dsimp only
  split <;> rfl

/-- One iteration: what goes into the queue or is acknowledged is allowed exactly when the
payload meets the condition. -/
theorem checked_hear_iff
    {Allowed : Globals → Globals → List UInt8 → UInt8 → Mem UInt8 → UInt8 → Prop}
    {Cond : Globals → List UInt8 → UInt8 → Prop} (hexact : ExactlyWhen dev.aes Allowed Cond) :
    Checked dev Allowed st (.hear message token packet) ↔
      Meets dev Cond st (.hear message token packet) := by
  have hmax : packet.length ≤ 100 := h₁₀₀
  have hdrop : (packet.drop 7).length = packet.length - 7 := List.length_drop
  by_cases hdata : IsData dev packet
  · obtain ⟨frame, encrypted, henc, hlisten⟩ := @listen_of_isData dev st message token
      packet h₇ h₁₀₀ hdata
    have hdec := hexact st.listener.globals encrypted (packet.drop 7) message.msg
      message.msgSize (packet.getD 2 0) (by omega) henc
    dsimp only at hlisten hdec
    by_cases hok : (decrypt dev.aes st.listener.globals encrypted
        (UInt8.ofNat (packet.drop 7).length) message.msg message.msgSize
        (packet.getD 2 0)).1 = true
    · rw [if_pos hok] at hlisten
      have hheard := congrArg Prod.snd hlisten
      have hglobals : (iterate dev st message token packet).1.listener.globals =
          (listen dev st.listener message token packet).1.globals := by
        simp only [iterate, hheard]
      simp only [Checked, Meets, taken_iff_of_message hheard, hglobals, hlisten, ← hdec,
        hdata, true_implies, hok]
      refine imp_congr_right fun _ => ⟨?_, fun h => ⟨_, _, rfl, rfl, h⟩⟩
      rintro ⟨m, type, heq, -, h⟩
      obtain ⟨rfl, rfl⟩ := Heard.message.inj heq
      exact h
    · -- a rejected token is answered with `SYNC|RESEND`
      rw [if_neg hok] at hlisten
      refine iff_of_true (fun htaken => ?_) fun _ _ => hdec.mp fun h => absurd h hok
      have hsync := type_transmit dev (packet.getD 2 0) (getNextRecvToken (decrypt dev.aes
        st.listener.globals encrypted (UInt8.ofNat (packet.drop 7).length) message.msg
        message.msgSize (packet.getD 2 0)).2.1 token (packet.getD 2 0))
        (typeMaskSync ||| typeMaskResend) (show tokenSize.toNat ≤ 93 by decide)
      simp only [Acknowledges, iterate, hlisten, List.mem_singleton, exists_eq_left,
        hsync] at htaken
      exact absurd htaken (by simp; decide)
  · exact iff_of_true (fun htaken => absurd htaken (not_taken_of_not_isData h₇ h₁₀₀ hdata))
      fun h => absurd h hdata

end Iteration

/-- One input of a listener. -/
theorem checked_iff {dev : Device} {st : Station} {input : Input} (hin : InScope input)
    {Allowed : Globals → Globals → List UInt8 → UInt8 → Mem UInt8 → UInt8 → Prop}
    {Cond : Globals → List UInt8 → UInt8 → Prop} (hexact : ExactlyWhen dev.aes Allowed Cond) :
    Checked dev Allowed st input ↔ Meets dev Cond st input := by
  cases input with
  | take => exact Iff.rfl
  | hear message token packet => exact checked_hear_iff hin.1 hin.2 hexact

/-- A whole run of a listener. -/
theorem along_checked_iff {dev : Device} {st : Station} {inputs : List Input}
    (hscope : ∀ i ∈ inputs, InScope i)
    {Allowed : Globals → Globals → List UInt8 → UInt8 → Mem UInt8 → UInt8 → Prop}
    {Cond : Globals → List UInt8 → UInt8 → Prop} (hexact : ExactlyWhen dev.aes Allowed Cond) :
    Lts.Along (step dev) (Checked dev Allowed) st inputs ↔
      Lts.Along (step dev) (Meets dev Cond) st inputs :=
  Lts.along_congr fun _ input hinput => checked_iff (hscope input hinput) hexact

/-- **Token-checked messages.** For every key, every token state and every payload of at most 93
bytes, a `true` of `decrypt` stands for an accepted token of the payload, for which there was
room in the size reported, if and only if the payload is guarded; over every run of a listener,
whatever it puts into `new_frame_queue` or acknowledges is such a message if and only if the
payloads it takes are guarded. The same holds with the message being what the payload itself
holds behind its token, for payloads whose padding leaves room for the token. -/
theorem tokenChecked_iff (dev : Device) (st : Station) (inputs : List Input)
    (hscope : ∀ i ∈ inputs, InScope i) :
    (ExactlyWhen dev.aes (Vouched dev.aes) (Guarded NotOneByte dev.aes) ∧
      (Lts.Along (step dev) (Checked dev (Vouched dev.aes)) st inputs ↔
        Lts.Along (step dev) (Meets dev (Guarded NotOneByte dev.aes)) st inputs)) ∧
    ExactlyWhen dev.aes (VouchedWhole dev.aes) (Guarded HoldsToken dev.aes) ∧
      (Lts.Along (step dev) (Checked dev (VouchedWhole dev.aes)) st inputs ↔
        Lts.Along (step dev) (Meets dev (Guarded HoldsToken dev.aes)) st inputs) :=
  ⟨⟨vouched_iff dev.aes, along_checked_iff hscope (vouched_iff dev.aes)⟩,
    vouchedWhole_iff dev.aes, along_checked_iff hscope (vouchedWhole_iff dev.aes)⟩

/-! ### Messages without a token -/

/-- A node `0` of two that has just started. -/
def started : Station := ⟨⟨LoraFrame.init, ⟨fun _ => 0, fun _ => 0, null⟩⟩, []⟩

/-- A frame from node `1` with five bytes for a payload, which asks for an acknowledgement. -/
def fiveBytes (crc : List UInt8 → UInt8) : Input :=
  .hear ⟨0, null, 0⟩ null (frameBytes crc 0 0 1 typeMaskNeedAck initTtl [1, 2, 3, 4, 5])

/-- It is a data frame for node `0`. -/
theorem isData_fiveBytes (aes : Aes) (crc : List UInt8 → UInt8) :
    IsData ((Config.direct 2 aes crc).device 0)
      (frameBytes crc 0 0 1 typeMaskNeedAck initTtl [1, 2, 3, 4, 5]) := by
  refine ⟨?_, rfl, rfl, rfl, needAck_and_responseMask⟩
  rw [length_frameBytes]
  decide

/-- A message with its token is vouched for as a whole; the five bytes behind it are not. -/
theorem tokenChecked_fifth :
    let dev := (Config.direct 2 (Equiv.refl Block) Crc8.crc8).device 0
    let good := fifth (Equiv.refl Block) Crc8.crc8
    let bad := fiveBytes Crc8.crc8
    (∀ i ∈ [good, bad], InScope i) ∧
      Lts.Along (step dev) (Checked dev (VouchedWhole dev.aes)) started [good] ∧
      ¬ Lts.Along (step dev) (Checked dev (Vouched dev.aes)) started [good, bad] := by
  intro dev good bad
  have hscope : ∀ i ∈ [good, bad], InScope i := by
    intro i hi
    rw [List.mem_cons, List.mem_singleton] at hi
    rcases hi with rfl | rfl
    · constructor <;> rw [length_frameBytes, length_sealed] <;> decide
    · constructor <;> rw [length_frameBytes] <;> decide
  have hgood : ∀ i ∈ [good], InScope i := fun i hi =>
    hscope i (List.mem_cons.mpr (.inl (List.mem_singleton.mp hi)))
  refine ⟨hscope, ?_, ?_⟩
  · refine (tokenChecked_iff dev started [good] hgood).2.2.mpr ⟨fun _ _ => ?_, fun _ _ => trivial⟩
    decide
  · intro h
    obtain ⟨-, hrest⟩ := (tokenChecked_iff dev started [good, bad] hscope).1.2.mp h
    have hguarded := (hrest _ rfl).1 (isData_fiveBytes _ _) (.inr (by decide))
    rw [Guarded, if_neg (by decide)] at hguarded
    exact absurd hguarded.1 (by decide)

/-- A message gets through without a token, under every key and checksum: `decrypt` returns
`true` for five bytes, and for no bytes when a token is left over in the scratch buffer, and a
listener puts the five bytes into the queue. -/
theorem not_tokenChecked :
    (¬ ∃ aes : Aes, let payload : List UInt8 := [1, 2, 3, 4, 5]
      let d := decrypt aes started.listener.globals (load payload null)
        (UInt8.ofNat payload.length) null 7 1
      d.1 = true → Vouched aes started.listener.globals d.2.1 payload 1 d.2.2.1 d.2.2.2) ∧
    (¬ ∃ aes : Aes, let g : Globals := ⟨fun _ => 0, fun _ => 0, load [0, 1] null⟩
      let d := decrypt aes g null (UInt8.ofNat 0) null 7 1
      d.1 = true → Vouched aes g d.2.1 [] 1 d.2.2.1 d.2.2.2) ∧
    ¬ ∃ aes crc, Lts.Along (step ((Config.direct 2 aes crc).device 0))
      (Checked ((Config.direct 2 aes crc).device 0) (Vouched aes)) started
      [fiveBytes crc] := by
  have hfive : ¬ 16 ∣ ([1, 2, 3, 4, 5] : List UInt8).length := by decide
  refine ⟨?_, ?_, ?_⟩
  · rintro ⟨aes, h⟩
    have hguarded := (vouched_iff aes started.listener.globals _ [1, 2, 3, 4, 5] null 7 1
      (by decide) (cells_load _ null)).mp h
    rw [Guarded, if_neg (by decide)] at hguarded
    exact hfive hguarded.1
  · rintro ⟨aes, h⟩
    have hguarded := (vouched_iff aes _ null [] null 7 1 (by decide) rfl).mp h
    rw [Guarded, if_pos List.length_nil] at hguarded
    exact hguarded.2 (by decide)
  · rintro ⟨aes, crc, h, -⟩
    have hin : InScope (fiveBytes crc) := by
      constructor <;> rw [length_frameBytes] <;> decide
    have hmeets := (checked_iff hin (vouched_iff aes)).mp h
    have hguarded := hmeets (isData_fiveBytes aes crc) (.inl (by decide))
    rw [Guarded, if_neg (by rw [List.length_drop, length_frameBytes]; decide)] at hguarded
    exact hfive hguarded.1

end TokenCheck

end LCore
