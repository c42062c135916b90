import LCore.Lib.Memory

/-!
# The Frame Layout

The constants of `params/frame_spec.h`: the size of a frame, the offsets of its fields, the
masks of the type byte, and the token and hop limits. A frame is three address bytes, four
metadata bytes and the payload; everything but the payload sits at a fixed offset.
-/

open Memory

namespace LCore

/-- `MAX_FRAME_SIZE`. -/
def maxFrameSize : ℕ := 100

/-! ### Offsets of the fields -/

/-- `FRAME_POS_NEXT_ADDR`. -/
def framePosNextAddr : ℤ := 0
/-- `FRAME_POS_DEST_ADDR`. -/
def framePosDestAddr : ℤ := 1
/-- `FRAME_POS_SEND_ADDR`. -/
def framePosSendAddr : ℤ := 2
/-- `FRAME_POS_TYPE`. -/
def framePosType : ℤ := 3
/-- `FRAME_POS_ID`. -/
def framePosId : ℤ := 4
/-- `FRAME_POS_TTL`. -/
def framePosTtl : ℤ := 5
/-- `FRAME_POS_CRC`. -/
def framePosCrc : ℤ := 6
/-- Where the payload starts; also the size of the header. -/
def framePosMsg : ℤ := 7

/-! ### The type byte -/

/-- `FRAME_VERSION`. -/
def frameVersion : UInt8 := 0
/-- `VERSION_SIZE_BITS`. -/
def versionSizeBits : UInt8 := 3

/-- `TYPE_MASK_ACK`. -/
def typeMaskAck : UInt8 := 0b00010000
/-- `TYPE_MASK_SYNC`. -/
def typeMaskSync : UInt8 := 0b00001000
/-- `TYPE_MASK_NEED_ACK`. -/
def typeMaskNeedAck : UInt8 := 0b00000100
/-- `TYPE_MASK_RESEND`. -/
def typeMaskResend : UInt8 := 0b00000010
/-- `TYPE_MASK_ERROR`. -/
def typeMaskError : UInt8 := 0b00000001

/-- A `RESEND` does not end a call. -/
theorem resend_and_final : typeMaskResend &&& (typeMaskAck ||| typeMaskError) = 0 := by decide

/-- It asks for the message again. -/
theorem resend_and_resend : typeMaskResend &&& typeMaskResend ≠ 0 := by decide

/-- Neither does a `SYNC|RESEND` end a call. -/
theorem syncResend_and_final :
    (typeMaskSync ||| typeMaskResend) &&& (typeMaskAck ||| typeMaskError) = 0 := by decide

/-- It carries a token. -/
theorem syncResend_and_sync : (typeMaskSync ||| typeMaskResend) &&& typeMaskSync ≠ 0 := by decide

/-- It asks for the message again. -/
theorem syncResend_and_resend : (typeMaskSync ||| typeMaskResend) &&& typeMaskResend ≠ 0 := by
  decide

/-! ### Tokens and hops -/

/-- `TOKEN_SIZE`, in bytes. -/
def tokenSize : UInt8 := 2

/-- `TOKEN_TRESHOLD`. -/
def tokenTreshold : ℤ := 20

/-- `TOKEN_MAX` for tokens of `size` bytes: `(uint64_t) pow(2, 8 * TOKEN_SIZE) - 1`. -/
def tokenMaxOf (size : UInt8) : UInt64 := UInt64.ofNat (2 ^ (8 * size.toNat)) - 1

/-- `TOKEN_MAX`. -/
def tokenMax : UInt64 := tokenMaxOf tokenSize

/-- `INIT_TTL`: how often a new frame may be forwarded. -/
def initTtl : UInt8 := 4

/-- `struct LoraFrame`. -/
structure LoraFrame where
  buf : Mem UInt8
  size : UInt8

/-- A `LoraFrame` as its initialisers leave it. -/
def LoraFrame.init : LoraFrame := ⟨fun _ => 0, 0⟩

end LCore
