import LCore.Encryption

/-!
# The Padding Byte of a Payload

`decryptBytes` takes the number of padding zeros from the last decrypted byte and subtracts it
from the length, whatever the byte is; the difference is an `int`, is stored as `int8_t`, and
`decrypt` reads it as `uint8_t` and takes the size of the token off.

On a payload of `n` bytes whose last decrypted byte is `p`, the size read is `n - p - 1` when
`p < n` and wraps above `n` when not. A byte between `16` and `n - 2`, which no sender
produces, is not told from a good one. When one byte is left it is taken for a token, and the
size of the message behind it wraps to 255.

## Main results

* `toNat_reported`: the size `decrypt` reads, for every payload of whole blocks.
* `stored_iff`: when `decrypt` stores a message size, and which.
* `bounded_iff`: the padding bytes for which the sizes are bounded.
-/

open Memory Machine

namespace LCore

namespace Padding

open Encryption

/-- The size `decryptBytes` reports, read as `uint8_t`. -/
def reported (aes : Aes) (g : Globals) (input : Mem UInt8) (n : ℕ) : UInt8 :=
  (deciphered aes g input n).2

/-- The byte `decryptBytes` takes for the number of padding zeros. -/
def paddingByte (aes : Aes) (g : Globals) (input : Mem UInt8) (n : ℕ) : UInt8 :=
  (deciphered aes g input n).1 ((n : ℤ) - 1)

/-- Whatever the two results held before, `decrypt` accepts the payload and stores the message
size `s`. -/
def Stored (aes : Aes) (g : Globals) (input : Mem UInt8) (n : ℕ) (sender s : UInt8) : Prop :=
  ∀ output outSize, let d := decrypt aes g input (UInt8.ofNat n) output outSize sender
    d.1 = true ∧ d.2.2.2 = s

/-- The sizes that come out of a payload of `n` bytes are bounded by it, and none of the
subtractions wraps. -/
structure Bounded (aes : Aes) (g : Globals) (input : Mem UInt8) (n : ℕ) (sender : UInt8) :
    Prop where
  size : (reported aes g input n).toNat ≤ n - 1
  bad : 15 < (paddingByte aes g input n).toNat → reported aes g input n = 0
  stored : ∀ s, Stored aes g input n sender s → s.toNat ≤ n - 1 - tokenSize.toNat
  size_exact : ((reported aes g input n).toNat : ℤ) =
    n - (paddingByte aes g input n).toNat - 1
  stored_exact : ∀ s, Stored aes g input n sender s →
    (s.toNat : ℤ) = (reported aes g input n).toNat - tokenSize.toNat

/-- The token at the front of the clear text is one `_validate_token` accepts. -/
def TokenAccepted (aes : Aes) (g : Globals) (input : Mem UInt8) (sender : UInt8) : Prop :=
  Newer g.recvTokens (mergeFromBytes (Cipher.plainText aes input) tokenSize) sender

/-! ### The size read -/

section Payload

variable (aes : Aes) (g : Globals) (input : Mem UInt8) {n : ℕ} (hdvd : 16 ∣ n) (hpos : 16 ≤ n)
  (hle : n ≤ 112)

include hdvd hpos hle

/-- The byte read is the last byte of the clear text. -/
theorem paddingByte_eq : paddingByte aes g input n = Cipher.countByte aes input n := by
  obtain ⟨hin, -, -⟩ := deciphered_blocks aes g input hdvd hpos hle
  have hlast := hin (n - 1) (by omega)
  rw [Nat.cast_sub (by omega), Nat.cast_one] at hlast
  rw [paddingByte, hlast, Cipher.countByte, Nat.cast_sub (by omega), Nat.cast_one]

/-- The size read: the difference, modulo `2 ^ 8`. -/
theorem toNat_reported :
    ((reported aes g input n).toNat : ℤ) =
      ((n : ℤ) - (Cipher.countByte aes input n).toNat - 1) % 256 := by
  obtain ⟨-, -, hsize⟩ := deciphered_blocks aes g input hdvd hpos hle
  rw [reported, hsize, toNat_toUInt8_ofInt]
  omega

/-- A message size is stored when something is left after the padding and the token in front
is accepted, and then it is what is left without the token. -/
theorem stored_iff {sender s : UInt8} :
    Stored aes g input n sender s ↔
      reported aes g input n ≠ 0 ∧ TokenAccepted aes g input sender ∧
        s = reported aes g input n - tokenSize := by
  unfold Stored TokenAccepted
  simp only [decrypt_eq, mergeFromBytes_deciphered aes g input hdvd hpos hle, reported]
  constructor
  · intro h
    by_cases hzero : (deciphered aes g input n).2 = 0
    · -- nothing is stored: the size is what it was before the call
      simp only [hzero, if_true] at h
      have h01 := (h (fun _ => 0) 0).2.trans (h (fun _ => 0) 1).2.symm
      exact absurd h01 (by decide)
    · simp only [if_neg hzero] at h
      obtain ⟨hok, hs⟩ := h (fun _ => 0) 0
      by_cases hv : Newer g.recvTokens
          (mergeFromBytes (Cipher.plainText aes input) tokenSize) sender
      · simp only [if_pos hv] at hs
        exact ⟨hzero, hv, hs.symm⟩
      · simp only [if_neg hv] at hok
        exact absurd hok (by simp)
  · rintro ⟨hne, hv, rfl⟩ output outSize
    simp only [if_neg hne, if_pos hv, and_self]

/-! ### When the sizes are bounded -/

/-- The size read stays below the length exactly when the padding does. -/
theorem reported_lt_iff :
    (reported aes g input n).toNat ≤ n - 1 ↔ (Cipher.countByte aes input n).toNat < n := by
  have hsize := toNat_reported aes g input hdvd hpos hle
  have hbyte := (Cipher.countByte aes input n).toNat_lt
  omega

/-- A padding that a sender makes, or a whole payload of it, keeps the sizes bounded. -/
theorem bounded_of_good {sender : UInt8}
    (hgood : (Cipher.countByte aes input n).toNat ≤ 15 ∨
      (Cipher.countByte aes input n).toNat = n - 1)
    (hone : ¬ ((Cipher.countByte aes input n).toNat = n - 2 ∧
      TokenAccepted aes g input sender)) : Bounded aes g input n sender := by
  have hsize := toNat_reported aes g input hdvd hpos hle
  have hpad := paddingByte_eq aes g input hdvd hpos hle
  have htwo : tokenSize.toNat = 2 := rfl
  -- with a padding byte that leaves one byte, the token is refused and nothing is stored
  have hstored : ∀ s, Stored aes g input n sender s →
      (s.toNat : ℤ) = (reported aes g input n).toNat - tokenSize.toNat := by
    intro s hs
    obtain ⟨hne, htoken, rfl⟩ := (stored_iff aes g input hdvd hpos hle).mp hs
    have hne' : (reported aes g input n).toNat ≠ 0 := fun h => hne (UInt8.toNat_inj.mp h)
    have hnotone : (Cipher.countByte aes input n).toNat ≠ n - 2 := fun h => hone ⟨h, htoken⟩
    rw [UInt8.toNat_sub]
    omega
  refine ⟨by omega, ?_, ?_, by rw [hpad]; omega, hstored⟩
  · intro hbad
    rw [hpad] at hbad
    apply UInt8.toNat_inj.mp
    show (reported aes g input n).toNat = 0
    omega
  · intro s hs
    have := hstored s hs
    omega

/-- A single byte behind an accepted token makes the stored size wrap. -/
theorem Bounded.not_leaves_one {sender : UInt8} (h : Bounded aes g input n sender) :
    ¬ ((Cipher.countByte aes input n).toNat = n - 2 ∧ TokenAccepted aes g input sender) := by
  rintro ⟨hleft, htoken⟩
  have hsize := toNat_reported aes g input hdvd hpos hle
  have htwo : tokenSize.toNat = 2 := rfl
  have hone : (reported aes g input n).toNat = 1 := by omega
  have hne : reported aes g input n ≠ 0 := by
    intro hzero
    rw [hzero] at hone
    exact absurd hone (by decide)
  have hwrap := h.stored_exact _
    ((stored_iff aes g input hdvd hpos hle).mpr ⟨hne, htoken, rfl⟩)
  omega

/-- **The padding byte.** For every payload of whole blocks, every key and every token state:
the size read stays below the length exactly when the padding byte does; and the sizes are
bounded, with size zero for a padding no sender writes and no subtraction that wraps, exactly
when the byte is at most 15 or takes everything, and does not leave a single byte behind an
accepted token. -/
theorem bounded_iff (sender : UInt8) :
    ((reported aes g input n).toNat ≤ n - 1 ↔ (Cipher.countByte aes input n).toNat < n) ∧
    (Bounded aes g input n sender ↔
      ((Cipher.countByte aes input n).toNat ≤ 15 ∨
        (Cipher.countByte aes input n).toNat = n - 1) ∧
      ¬ ((Cipher.countByte aes input n).toNat = n - 2 ∧
        TokenAccepted aes g input sender)) := by
  refine ⟨reported_lt_iff aes g input hdvd hpos hle, ?_⟩
  have hsize := toNat_reported aes g input hdvd hpos hle
  constructor
  · intro h
    constructor
    · by_contra hbad
      have hzero := h.bad (by rw [paddingByte_eq aes g input hdvd hpos hle]; omega)
      have hlt := (reported_lt_iff aes g input hdvd hpos hle).mp h.size
      have : (reported aes g input n).toNat = 0 := by
        rw [hzero]
        rfl
      omega
    · exact Bounded.not_leaves_one aes g input hdvd hpos hle h
  · rintro ⟨hgood, hone⟩
    exact bounded_of_good aes g input hdvd hpos hle hgood hone

end Payload

/-- Tokens as they are before any message: the first one expected is 1. -/
def untouched : Globals := ⟨fun _ => 0, fun _ => 0, fun _ => 0⟩

/-- One block with count byte `p`, the token 1 in front. -/
def blockWith (p : UInt8) : Block :=
  fun j => if j.val = 1 then 1 else if j.val = 15 then p else 0

/-- The payload whose one block decrypts to `blockWith p`. -/
def payloadWith (aes : Aes) (p : UInt8) : Mem UInt8 :=
  Cipher.encipher aes fun _ => blockWith p

/-- The payload decrypts to the block it was made from. -/
theorem plainText_payloadWith (aes : Aes) (p : UInt8) :
    Cipher.plainText aes (payloadWith aes p) = ofBlocks fun _ => blockWith p :=
  Cipher.plainText_encipher aes _

/-- Its count byte is the one that was chosen. -/
theorem countByte_payloadWith (aes : Aes) (p : UInt8) :
    Cipher.countByte aes (payloadWith aes p) 16 = p := by
  rw [Cipher.countByte, plainText_payloadWith]
  rfl

/-- Its token is accepted. -/
theorem tokenAccepted_payloadWith (aes : Aes) (p : UInt8) :
    TokenAccepted aes untouched (payloadWith aes p) 0 := by
  have hcells : cells (ofBlocks fun _ => blockWith p) tokenSize.toNat = [0, 1] := rfl
  have htoken : mergeFromBytes (ofBlocks fun _ => blockWith p) tokenSize = 1 := by
    apply UInt32.toNat_inj.mp
    rw [toNat_mergeFromBytes, hcells]
    rfl
  rw [TokenAccepted, plainText_payloadWith, htoken]
  decide

/-- A padding of thirteen bytes leaves the token and no message. -/
theorem bounded_iff_thirteen :
    (reported (Equiv.refl Block) untouched (payloadWith (Equiv.refl Block) 13) 16).toNat ≤ 15 ∧
      Bounded (Equiv.refl Block) untouched (payloadWith (Equiv.refl Block) 13) 16 0 := by
  obtain ⟨hlt, hbounded⟩ := bounded_iff (Equiv.refl Block) untouched
    (payloadWith (Equiv.refl Block) 13) (n := 16) (by decide) (by decide) (by decide) 0
  rw [countByte_payloadWith] at hlt hbounded
  exact ⟨hlt.mpr (by decide), hbounded.mpr ⟨by decide, fun h => absurd h.1 (by decide)⟩⟩

/-- Malformed padding does enlarge a message, under every key: one block whose last byte
decrypts to 255 is reported as 16 bytes, and one whose last byte decrypts to 14 and whose token
is accepted is stored as a message of 255 bytes. -/
theorem not_bounded :
    (¬ ∃ aes, (reported aes untouched (payloadWith aes 255) 16).toNat ≤ 15) ∧
      (¬ ∃ aes, Bounded aes untouched (payloadWith aes 255) 16 0) ∧
      ¬ ∃ aes, Bounded aes untouched (payloadWith aes 14) 16 0 := by
  have hlong : ¬ ∃ aes, (reported aes untouched (payloadWith aes 255) 16).toNat ≤ 15 := by
    rintro ⟨aes, h⟩
    have hlt := (reported_lt_iff aes untouched (payloadWith aes 255) (n := 16)
      (by decide) (by decide) (by decide)).mp h
    rw [countByte_payloadWith] at hlt
    exact absurd hlt (by decide)
  refine ⟨hlong, ?_, ?_⟩
  · rintro ⟨aes, h⟩
    exact hlong ⟨aes, h.size⟩
  · rintro ⟨aes, h⟩
    refine Bounded.not_leaves_one aes untouched (payloadWith aes 14) (by decide) (by decide)
      (by decide) h ⟨?_, tokenAccepted_payloadWith aes 14⟩
    rw [countByte_payloadWith]
    rfl

end Padding

end LCore
