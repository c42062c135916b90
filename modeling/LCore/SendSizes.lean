import LCore.Frame

/-!
# The Sizes of a Call

`send_with_ack` takes a message of any size a `uint8_t` holds. On its way to the radio the size
is an `int`, an `int8_t` for the cipher, a `size_t` in its block loop and a `uint8_t` again, and
token, cipher text and frame go through three buffers of `MAX_FRAME_SIZE` bytes. No size is
tested anywhere, so every call transmits; `accesses` lists what it does to the buffers.

The frame is the first to be too small, for messages of 78 bytes: padding makes the cipher text
jump from 80 bytes to 96.

## Main results

* `sizeSafe_of_le`: nothing goes wrong up to 77 bytes.
* `sizeSafe_iff`: and something does above.
-/

open Memory Machine

namespace LCore

namespace SendSizes

open Encryption

/-- A stretch of a buffer that is read or written. -/
structure Span where
  offset : ℤ
  length : ℕ

/-- It lies inside a buffer of `MAX_FRAME_SIZE` bytes. -/
def Span.InBounds (s : Span) : Prop :=
  0 ≤ s.offset ∧ s.offset + s.length ≤ maxFrameSize

/-- What `encryptBytes` does to its output: the copy of the clear text, the zeros, the count
byte, and the blocks of its loop. -/
def cipherSpans (inSize : Int8) : List Span :=
  let padding : UInt8 := UInt8.ofInt (15 - inSize.toInt.tmod 16)
  let outSize : Int8 := Int8.ofInt (inSize.toInt + padding.toNat + 1)
  ⟨0, sizeT inSize.toInt⟩ ::
    (List.range padding.toNat).map (fun i => ⟨inSize.toInt + i, 1⟩) ++
    ⟨outSize.toInt - 1, 1⟩ ::
    (List.range (sizeT (outSize.toInt.tdiv 16))).map fun i => ⟨16 * i, 16⟩

/-- The `int8_t` that `encrypt` hands to the cipher for a message of `msgSize` bytes. -/
def clearSize (msgSize : UInt8) : Int8 := Int8.ofInt (msgSize.toNat + tokenSize.toNat)

/-- The `int8_t` size that the cipher stores through the pointer to `encrypted_size`. -/
def cipherSize (dev : Device) (g : Globals) (address : UInt8) (msg : Mem UInt8)
    (msgSize : UInt8) (encrypted : Mem UInt8) : Int8 :=
  (sendWithAck dev g address msg msgSize encrypted).2.2.msgSize.toInt8

/-- What a call of `send_with_ack` does to its three buffers: token and message in `enc_buf`,
the cipher text in `encrypted`, and header and cipher text in the frame. -/
def accesses (dev : Device) (g : Globals) (address : UInt8) (msg : Mem UInt8) (msgSize : UInt8)
    (encrypted : Mem UInt8) : List Span :=
  let call := sendWithAck dev g address msg msgSize encrypted
  ⟨0, tokenSize.toNat⟩ :: ⟨tokenSize.toNat, msgSize.toNat⟩ :: cipherSpans (clearSize msgSize) ++
    [⟨0, framePosMsg.toNat⟩, ⟨framePosMsg, call.2.2.msgSize.toNat⟩]

/-- The sizes of a call: token and message fit `enc_buf`, the cipher text fits its buffer and
the frame's, the two `int8_t` are the numbers they stand for, the block loop runs once for
every block, and the packet is header and cipher text. -/
structure SizeSafe (dev : Device) (g : Globals) (address : UInt8) (msg : Mem UInt8)
    (msgSize : UInt8) (encrypted : Mem UInt8) : Prop where
  fits : ∀ s ∈ accesses dev g address msg msgSize encrypted, s.InBounds
  clear : (clearSize msgSize).toInt = msgSize.toNat + tokenSize.toNat
  cipher : (cipherSize dev g address msg msgSize encrypted).toInt = sealedSize msgSize.toNat
  blocks : sizeT ((cipherSize dev g address msg msgSize encrypted).toInt.tdiv 16) =
    sealedSize msgSize.toNat / 16
  packet : (sendWithAck dev g address msg msgSize encrypted).2.1.length =
    framePosMsg.toNat + sealedSize msgSize.toNat

/-! ### Messages that fit -/

section Call

variable (dev : Device) (g : Globals) (address : UInt8) (msg : Mem UInt8) (encrypted : Mem UInt8)
  {msgSize : UInt8}

/-- The size of the cipher text, for every message whose cipher text an `int8_t` can count. -/
theorem msgSize_sendWithAck (h : msgSize.toNat < 110) :
    (sendWithAck dev g address msg msgSize encrypted).2.2.msgSize =
      UInt8.ofNat (sealedSize msgSize.toNat) := by
  have hlen : (cells msg msgSize.toNat).length = msgSize.toNat := length_cells _ _
  obtain ⟨encBuf, out, henc, -⟩ := encrypt_spec dev.aes g encrypted address
    (m := cells msg msgSize.toNat) (by omega) (by rw [hlen])
  rw [hlen, UInt8.ofNat_toNat] at henc
  simp only [sendWithAck, henc]

/-- The size with the token does not wrap for short messages. -/
theorem clearSize_of_le (h : msgSize.toNat ≤ 77) :
    (clearSize msgSize).toInt = (msgSize.toNat + 2 : ℕ) :=
  toInt_ofInt8 (n := msgSize.toNat + 2) (by omega)

/-- Up to 77 bytes, the cipher stays inside its buffer. -/
theorem cipherSpans_inBounds (h : msgSize.toNat ≤ 77) :
    ∀ s ∈ cipherSpans (clearSize msgSize), s.InBounds := by
  have hmax : maxFrameSize = 100 := rfl
  have hin := clearSize_of_le h
  have hmod : ((msgSize.toNat + 2 : ℕ) : ℤ).tmod 16 = (msgSize.toNat + 2 : ℕ) % 16 :=
    Int.tmod_eq_emod_of_nonneg (by omega)
  have hpad : (UInt8.ofInt (15 - ((msgSize.toNat + 2 : ℕ) : ℤ) % 16)).toNat =
      15 - (msgSize.toNat + 2) % 16 := by
    rw [toNat_ofInt]
    omega
  have hout : (Int8.ofInt ((msgSize.toNat + 2 : ℕ) +
      (15 - (msgSize.toNat + 2) % 16 : ℕ) + 1)).toInt = sealedSize msgSize.toNat := by
    have hsize : ((msgSize.toNat + 2 : ℕ) : ℤ) + (15 - (msgSize.toNat + 2) % 16 : ℕ) + 1 =
        (sealedSize msgSize.toNat : ℕ) := by
      rw [sealedSize_eq]
      omega
    rw [hsize]
    exact toInt_ofInt8 (by rw [sealedSize_eq]; omega)
  have hblocks : ((sealedSize msgSize.toNat : ℕ) : ℤ).tdiv 16 =
      ((2 + msgSize.toNat) / 16 + 1 : ℕ) := by
    rw [Int.tdiv_eq_ediv_of_nonneg (by omega), sealedSize_eq]
    omega
  have hclear : msgSize.toNat + 2 < 2 ^ 32 := by omega
  have hcount : (2 + msgSize.toNat) / 16 + 1 < 2 ^ 32 := by omega
  intro s hs
  simp only [cipherSpans, hin, hmod, hpad, hout, hblocks, List.mem_cons, List.mem_append,
    List.mem_map, List.mem_range, sizeT_of_nonneg hclear, sizeT_of_nonneg hcount] at hs
  rw [Span.InBounds, hmax]
  rcases hs with (rfl | ⟨i, hi, rfl⟩) | rfl | ⟨i, hi, rfl⟩
  · constructor <;> dsimp only <;> omega
  · constructor <;> dsimp only <;> omega
  · rw [sealedSize_eq]
    constructor <;> dsimp only <;> omega
  · constructor <;> dsimp only <;> omega

/-- Up to 77 bytes, nothing goes wrong. -/
theorem sizeSafe_of_le (h : msgSize.toNat ≤ 77) :
    SizeSafe dev g address msg msgSize encrypted := by
  have hmax : maxFrameSize = 100 := rfl
  have htwo : tokenSize.toNat = 2 := rfl
  have hshort : msgSize.toNat < 110 := by omega
  have hsize := msgSize_sendWithAck dev g address msg encrypted hshort
  have hsealed := sealedSize_eq msgSize.toNat
  have hnat : (UInt8.ofNat (sealedSize msgSize.toNat)).toNat = sealedSize msgSize.toNat := by
    rw [UInt8.toNat_ofNat']
    omega
  have hcipher : (cipherSize dev g address msg msgSize encrypted).toInt =
      sealedSize msgSize.toNat := by
    rw [cipherSize, hsize, toInt8_ofNat]
    exact toInt_ofInt8 (by omega)
  refine ⟨?_, ?_, hcipher, ?_, ?_⟩
  · intro s hs
    simp only [accesses, hsize, hnat, List.mem_cons, List.mem_append, List.not_mem_nil,
      or_false] at hs
    rcases hs with (rfl | rfl | hs) | rfl | rfl
    · exact ⟨by decide, by decide⟩
    · constructor <;> dsimp only <;> omega
    · exact cipherSpans_inBounds h s hs
    · exact ⟨by decide, by decide⟩
    · rw [Span.InBounds, framePosMsg]
      constructor <;> dsimp only <;> omega
  · rw [clearSize_of_le h, htwo]
    rfl
  · rw [hcipher, Int.tdiv_eq_ediv_of_nonneg (by omega)]
    simp only [sizeT]
    omega
  · have hpacket : (sendWithAck dev g address msg msgSize encrypted).2.1.length =
        (UInt8.ofInt (framePosMsg + (sendWithAck dev g address msg msgSize
          encrypted).2.2.msgSize.toNat)).toNat := length_cells _ _
    rw [hpacket, hsize, hnat, toNat_ofInt, framePosMsg]
    omega

/-! ### Messages that do not fit -/

/-- The frame is too small for a message of 78 to 98 bytes, and `enc_buf` for a longer one. -/
theorem not_fits_of_lt (h : 77 < msgSize.toNat) :
    ∃ s ∈ accesses dev g address msg msgSize encrypted, ¬ s.InBounds := by
  have hmax : maxFrameSize = 100 := rfl
  have htwo : tokenSize.toNat = 2 := rfl
  by_cases hlong : 98 < msgSize.toNat
  · refine ⟨⟨tokenSize.toNat, msgSize.toNat⟩, by simp [accesses], fun hin => ?_⟩
    have hle := hin.2
    dsimp only at hle
    omega
  · have hshort : msgSize.toNat < 110 := by omega
    have hsize := msgSize_sendWithAck dev g address msg encrypted hshort
    have hsealed := sealedSize_eq msgSize.toNat
    have hnat : (UInt8.ofNat (sealedSize msgSize.toNat)).toNat = sealedSize msgSize.toNat := by
      rw [UInt8.toNat_ofNat']
      omega
    refine ⟨⟨framePosMsg, sealedSize msgSize.toNat⟩, by simp [accesses, hsize, hnat],
      fun hin => ?_⟩
    have hle := hin.2
    rw [framePosMsg] at hle
    dsimp only at hle
    omega

/-- **The sizes of a call.** For every message of every size, whatever the token state: the
call keeps to its buffers, and no size on the way is anything but the number it stands for, if
and only if the message has at most 77 bytes. There is no size for which it reports a failure
before it transmits. -/
theorem sizeSafe_iff (msgSize : UInt8) :
    SizeSafe dev g address msg msgSize encrypted ↔ msgSize.toNat ≤ 77 := by
  constructor
  · intro hsafe
    by_contra hlong
    have hlt : 77 < msgSize.toNat := by omega
    obtain ⟨s, hs, hout⟩ := not_fits_of_lt dev g address msg encrypted hlt
    exact hout (hsafe.fits s hs)
  · exact sizeSafe_of_le dev g address msg encrypted

end Call

/-- A message of 78 bytes does not fit, in any node and token state. -/
theorem not_sizeSafe :
    ¬ ∃ dev g address msg encrypted, SizeSafe dev g address msg 78 encrypted := by
  rintro ⟨dev, g, address, msg, encrypted, hsafe⟩
  obtain ⟨s, hs, hout⟩ := not_fits_of_lt dev g address msg encrypted
    (show 77 < (78 : UInt8).toNat by decide)
  exact hout (hsafe.fits s hs)

end SendSizes

end LCore
