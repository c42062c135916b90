import LCore.Cipher
import LCore.FrameSpec
import LCore.Lib.BigEndian
import Mathlib.Logic.Function.Basic

/-!
# Tokens and Encryption

The functions of `loraEncryption.h`. Every payload starts with a token: the sender counts
its messages to each address in `sendTokens`, and the receiver remembers in `recvTokens` the
last token it took from each address and accepts only the next few.

The counters are `int32_t` and are kept as `Int32`; `counter` reads the bit pattern of one
as a number, which is how every comparison and every byte on the air sees it. The arrays are
indexed with address bytes and are total here; whether an index stays below `NET_SIZE` is a
statement about the index. A `memcpy` past the end of a buffer is undefined in the source; in
this model it extends the buffer and touches nothing else.

## Main results

* `counter_nextSendToken`: the sender's counter runs modulo `TOKEN_MAX`, for every token size
  the header allows.
* `validateToken_eq`: the mixed signed and unsigned window test is `r < t < r + TOKEN_TRESHOLD`.
* `encrypt_spec`, `decrypt_sealed`, `swapToken_sealed`: what the three functions do to the
  payload of a message.
-/

open Memory Machine BigEndian

namespace LCore

namespace Encryption

/-- The globals of `Lora::Encryption`. -/
structure Globals where
  sendTokens : UInt8 → Int32
  recvTokens : UInt8 → Int32
  encBuf : Mem UInt8

/-- The token a counter stands for. -/
def counter (x : Int32) : ℕ := x.toUInt32.toNat

/-- `init`, with `rnd i` the `i`-th value of `random(0, TOKEN_MAX)`. -/
def init (rnd : UInt8 → Fin tokenMax.toNat) (encBuf : Mem UInt8) : Globals where
  sendTokens := fun _ => 0
  recvTokens := fun i => (UInt32.ofNat (rnd i)).toInt32
  encBuf := encBuf

/-! ### The token header -/

/-- The loop of `_split_to_bytes`, from index `i - 1` down to `0`. -/
def splitLoop : ℕ → Mem UInt8 → UInt32 → Mem UInt8
  | 0, array, _ => array
  | i + 1, array, number => splitLoop i (write array i (number &&& 0xFF).toUInt8) (number >>> 8)

/-- `_split_to_bytes`. -/
def splitToBytes (array : Mem UInt8) (number : UInt32) (numBytes : UInt8) : Mem UInt8 :=
  splitLoop numBytes.toNat array number

/-- The loop of `_merge_from_bytes`, with `k` iterations left. -/
def mergeLoop (array : Mem UInt8) : ℕ → ℕ → UInt32 → UInt32
  | 0, _, number => number
  | k + 1, i, number => mergeLoop array k (i + 1) ((number <<< 8) ||| (array i).toUInt32)

/-- `_merge_from_bytes`. -/
def mergeFromBytes (array : Mem UInt8) (numBytes : UInt8) : UInt32 :=
  mergeLoop array numBytes.toNat 0 0

/-! ### Sending -/

/-- `(send_tokens[dest_address]+1) % TOKEN_MAX`, stored back as `int32_t`. -/
def nextSendToken (size : UInt8) (t : Int32) : Int32 :=
  ((t + 1).toInt64.toUInt64 % tokenMaxOf size).toUInt32.toInt32

/-- `encrypt` for tokens of `size` bytes: the globals, the contents of `output` and
`*out_size`. -/
def encryptOf (size : UInt8) (aes : Aes) (g : Globals) (input : Mem UInt8) (inSize : UInt8)
    (output : Mem UInt8) (destAddress : UInt8) : Globals × Mem UInt8 × UInt8 :=
  let next := nextSendToken size (g.sendTokens destAddress)
  let token : UInt32 := next.toUInt32
  let encBuf := splitToBytes g.encBuf token size
  let encBuf := copy encBuf size.toNat input inSize.toNat
  let r := Cipher.encryptBytes aes encBuf (Int8.ofInt (inSize.toNat + size.toNat)) output
  (⟨Function.update g.sendTokens destAddress next, g.recvTokens, encBuf⟩, r.1, r.2.toUInt8)

/-- `encrypt`. -/
def encrypt (aes : Aes) (g : Globals) (input : Mem UInt8) (inSize : UInt8)
    (output : Mem UInt8) (destAddress : UInt8) : Globals × Mem UInt8 × UInt8 :=
  encryptOf tokenSize aes g input inSize output destAddress

/-! ### Receiving -/

/-- `_validate_token`. The difference is taken in `uint32_t` and widened to `int64_t`, which
holds every value of it. -/
def validateToken (g : Globals) (token : UInt32) (address : UInt8) : Bool × Globals :=
  let diff : ℤ := ((token - (g.recvTokens address).toUInt32).toNat : ℤ)
  if diff < tokenTreshold ∧ diff > 0 then
    (true, { g with recvTokens := Function.update g.recvTokens address token.toInt32 })
  else
    (false, g)

/-- `decrypt`: the value returned, the globals, the contents of `output` and `*out_size`.
An empty clear text is accepted without a token, and leaves the two results as they were. -/
def decrypt (aes : Aes) (g : Globals) (input : Mem UInt8) (inSize : UInt8)
    (output : Mem UInt8) (outSize : UInt8) (senderAddress : UInt8) :
    Bool × Globals × Mem UInt8 × UInt8 :=
  let r := Cipher.decryptBytes aes input inSize.toInt8 g.encBuf
  let ebSize : UInt8 := r.2.toUInt8
  let g := { g with encBuf := r.1 }
  if ebSize = 0 then
    (true, g, output, outSize)
  else
    let v := validateToken g (mergeFromBytes g.encBuf tokenSize) senderAddress
    if !v.1 then
      (false, v.2, output, outSize)
    else
      let outSize := ebSize - tokenSize
      (true, v.2, copy output 0 (shift v.2.encBuf tokenSize.toNat) outSize.toNat, outSize)

/-- The value `get_next_recv_token` sends: `(recv_tokens[address]+1) % TOKEN_MAX`. -/
def nextRecvToken (g : Globals) (address : UInt8) : UInt32 :=
  ((g.recvTokens address + 1).toInt64.toUInt64 % tokenMax).toUInt32

/-- `get_next_recv_token`. -/
def getNextRecvToken (g : Globals) (tokenAsArr : Mem UInt8) (address : UInt8) : Mem UInt8 :=
  splitToBytes tokenAsArr (nextRecvToken g address) tokenSize

/-- `swap_token`: the globals and the contents of `msg`. -/
def swapToken (aes : Aes) (g : Globals) (msg : Mem UInt8) (msgSize : UInt8) (address : UInt8)
    (newTokenAsArr : Mem UInt8) : Globals × Mem UInt8 :=
  let r := Cipher.decryptBytes aes msg msgSize.toInt8 g.encBuf
  let ebSize : UInt8 := r.2.toUInt8
  let encBuf := copy r.1 0 newTokenAsArr tokenSize.toNat
  let token : Int32 := (mergeFromBytes newTokenAsArr tokenSize).toInt32
  let e := Cipher.encryptBytes aes encBuf ebSize.toInt8 msg
  (⟨Function.update g.sendTokens address token, g.recvTokens, encBuf⟩, e.1)

/-! ### The codec loops -/

/-- `_split_to_bytes` writes the first `n` cells and no other. -/
theorem splitLoop_of_ge (n : ℕ) (array : Mem UInt8) (number : UInt32) {k : ℤ}
    (h : (n : ℤ) ≤ k ∨ k < 0) : splitLoop n array number k = array k := by
  induction n generalizing array number with
  | zero => rfl
  | succ n ih => rw [splitLoop, ih _ _ (by omega), write_of_ne (by omega)]

/-- The loop of `_split_to_bytes` writes the bytes of the number. -/
theorem cells_splitLoop (n : ℕ) (array : Mem UInt8) (number : UInt32) :
    cells (splitLoop n array number) n = toBytes n number.toNat := by
  induction n generalizing array number with
  | zero => rfl
  | succ n ih =>
      have hshift : (number >>> 8).toNat = number.toNat / 256 := by
        rw [UInt32.toNat_shiftRight, Nat.shiftRight_eq_div_pow]
        rfl
      have hbyte : (number &&& 0xFF).toUInt8 = UInt8.ofNat number.toNat := by
        apply UInt8.toNat_inj.mp
        rw [UInt32.toNat_toUInt8, UInt32.toNat_and, UInt8.toNat_ofNat']
        have : (0xFF : UInt32).toNat = 2 ^ 8 - 1 := rfl
        rw [this, Nat.and_two_pow_sub_one_eq_mod, Nat.mod_mod]
      rw [cells_add, toBytes, splitLoop, ih, hshift]
      congr 1
      rw [cells_one, shift_apply, zero_add, splitLoop_of_ge n _ _ (by omega), write_same, hbyte]

/-- `_split_to_bytes` writes the big-endian form of the number. -/
theorem cells_splitToBytes (array : Mem UInt8) (number : UInt32) (n : UInt8) :
    cells (splitToBytes array number n) n.toNat = toBytes n.toNat number.toNat :=
  cells_splitLoop _ _ _

/-- The loop of `_merge_from_bytes` puts the bytes it reads behind the number it has. -/
theorem toNat_mergeLoop (array : Mem UInt8) (k i : ℕ) (number : UInt32) :
    (mergeLoop array k i number).toNat =
      (number.toNat * 256 ^ k + ofBytes (cells (shift array i) k)) % 2 ^ 32 := by
  induction k generalizing i number with
  | zero =>
      have := number.toNat_lt
      simp [mergeLoop, ofBytes]
  | succ k ih =>
      have hstep : ((number <<< 8) ||| (array i).toUInt32).toNat =
          (number.toNat * 256 + (array i).toNat) % 2 ^ 32 := by
        have hb := (array i).toNat_lt
        have hor := Nat.shiftLeft_add_eq_or_of_lt (i := 8) hb (number.toNat % 2 ^ 24)
        rw [UInt32.toNat_or, UInt32.toNat_shiftLeft, UInt8.toNat_toUInt32]
        have h8 : (8 : UInt32).toNat % 32 = 8 := rfl
        have hmod : number.toNat <<< 8 % 2 ^ 32 = (number.toNat % 2 ^ 24) <<< 8 := by
          simp only [Nat.shiftLeft_eq]
          omega
        rw [h8, hmod, ← hor, Nat.shiftLeft_eq]
        omega
      have hcells : cells (shift array i) (k + 1) =
          array i :: cells (shift array (i + 1 : ℕ)) k := by
        rw [Nat.add_comm k 1, cells_add, cells_one, shift_shift, shift_apply, zero_add]
        rfl
      rw [mergeLoop, ih, hstep, hcells, ofBytes_cons, length_cells, Nat.pow_succ,
        Nat.add_mod, Nat.mod_mul_mod, ← Nat.add_mod]
      congr 1
      ring

/-- `_merge_from_bytes` reads a big-endian number modulo `2 ^ 32`. -/
theorem toNat_mergeFromBytes (array : Mem UInt8) (n : UInt8) :
    (mergeFromBytes array n).toNat = ofBytes (cells array n.toNat) % 2 ^ 32 := by
  rw [mergeFromBytes, toNat_mergeLoop]
  simp

/-! ### Counters -/

@[simp] theorem counter_toInt32 (x : UInt32) : counter x.toInt32 = x.toNat := rfl

/-- The counter wraps at `2 ^ 32`. -/
theorem counter_add_one (t : Int32) : counter (t + 1) = (counter t + 1) % 2 ^ 32 :=
  UInt32.toNat_add t.toUInt32 1

/-- `TOKEN_MAX` of a token of 1 to 4 bytes. -/
theorem toNat_tokenMaxOf {size : UInt8} (h₁ : 1 ≤ size.toNat) (h₄ : size.toNat ≤ 4) :
    (tokenMaxOf size).toNat = 256 ^ size.toNat - 1 := by
  obtain h | h | h | h : size = 1 ∨ size = 2 ∨ size = 3 ∨ size = 4 := by
    simp only [← UInt8.toNat_inj]
    have h1 : (1 : UInt8).toNat = 1 := rfl
    have h2 : (2 : UInt8).toNat = 2 := rfl
    have h3 : (3 : UInt8).toNat = 3 := rfl
    have h4 : (4 : UInt8).toNat = 4 := rfl
    omega
  all_goals subst h; rfl

/-- Adding one in `int32_t` and reducing in `uint64_t` counts modulo `TOKEN_MAX`. Above
`2 ^ 31` the counter is negative and its conversion to `uint64_t` adds `2 ^ 64 - 2 ^ 32`; only
4-byte tokens get there, and their `TOKEN_MAX` divides that. -/
theorem toNat_succ_mod_tokenMaxOf {size : UInt8} (h₁ : 1 ≤ size.toNat) (h₄ : size.toNat ≤ 4)
    {t : Int32} (ht : counter t < (tokenMaxOf size).toNat) :
    ((t + 1).toInt64.toUInt64 % tokenMaxOf size).toNat =
      (counter t + 1) % (tokenMaxOf size).toNat := by
  have hadd := counter_add_one t
  have hext := toNat_toUInt64_toInt64 (t + 1)
  rw [← counter] at hext
  rw [UInt64.toNat_mod, hext]
  rw [toNat_tokenMaxOf h₁ h₄] at ht ⊢
  obtain h | h | h | h : size.toNat = 1 ∨ size.toNat = 2 ∨ size.toNat = 3 ∨ size.toNat = 4 := by
    omega
  all_goals
    rw [h] at ht ⊢
    norm_num at ht hadd ⊢
    split <;> omega

/-- `TOKEN_MAX` of the code. -/
theorem tokenMax_toNat : tokenMax.toNat = 65535 := rfl

/-- The sender's counter runs modulo `TOKEN_MAX`. -/
theorem counter_nextSendToken {size : UInt8} (h₁ : 1 ≤ size.toNat) (h₄ : size.toNat ≤ 4)
    {t : Int32} (ht : counter t < (tokenMaxOf size).toNat) :
    counter (nextSendToken size t) = (counter t + 1) % (tokenMaxOf size).toNat := by
  have hmod := toNat_succ_mod_tokenMaxOf h₁ h₄ ht
  have hmax := toNat_tokenMaxOf h₁ h₄
  have hpos : 0 < (tokenMaxOf size).toNat := by omega
  have hlt : (tokenMaxOf size).toNat < 2 ^ 32 := by
    have := Nat.pow_le_pow_right (show 0 < 256 by omega) h₄
    omega
  rw [nextSendToken, counter_toInt32, UInt64.toNat_toUInt32, hmod]
  have := Nat.mod_lt (counter t + 1) hpos
  exact Nat.mod_eq_of_lt (by omega)

/-- The same for the tokens of this program. -/
theorem counter_nextSendToken_eq {t : Int32} (ht : counter t < tokenMax.toNat) :
    counter (nextSendToken tokenSize t) = (counter t + 1) % tokenMax.toNat :=
  counter_nextSendToken (by decide) (by decide) ht

/-- The next token fits the token field, whatever the counter held. -/
theorem counter_nextSendToken_lt (t : Int32) :
    counter (nextSendToken tokenSize t) < tokenMax.toNat := by
  have hmax := tokenMax_toNat
  have hlt : ((t + 1).toInt64.toUInt64 % tokenMax).toNat < tokenMax.toNat := by
    rw [UInt64.toNat_mod]
    exact Nat.mod_lt _ (by omega)
  rw [tokenMax] at hlt hmax
  rw [nextSendToken, counter_toInt32, UInt64.toNat_toUInt32, tokenMax, Nat.mod_eq_of_lt (by omega)]
  exact hlt

/-- A counter is the bit pattern of the token it stands for. -/
theorem toInt32_ofNat_counter (t : Int32) : (UInt32.ofNat (counter t)).toInt32 = t := by
  rw [counter, UInt32.ofNat_toNat, Int32.toInt32_toUInt32]

/-! ### The window test -/

/-- Whether a receiver whose last token is `r` takes a token `t` next. -/
abbrev InWindow (r t : ℕ) : Prop := r < t ∧ t < r + 20

/-- For counters of token size the window test of `_validate_token` is the plain comparison:
a token that is not newer leaves a difference of more than `2 ^ 31`. -/
theorem validateToken_eq {g : Globals} {token : UInt32} {a : UInt8}
    (hr : counter (g.recvTokens a) < 2 ^ 16) (ht : token.toNat < 2 ^ 16) :
    validateToken g token a =
      if InWindow (counter (g.recvTokens a)) token.toNat then
        (true, { g with recvTokens := Function.update g.recvTokens a token.toInt32 })
      else (false, g) := by
  have hdiff : (token - (g.recvTokens a).toUInt32).toNat =
      (2 ^ 32 - counter (g.recvTokens a) + token.toNat) % 2 ^ 32 := UInt32.toNat_sub _ _
  rw [validateToken, hdiff]
  apply if_congr _ rfl rfl
  simp only [tokenTreshold, InWindow]
  omega

/-- The token asked for, whatever the counter holds: the sum in 32 bits, modulo `TOKEN_MAX`. The
sign extension of a negative sum adds a multiple of `TOKEN_MAX`. -/
theorem toNat_nextRecvToken_eq (g : Globals) (a : UInt8) :
    (nextRecvToken g a).toNat = counter (g.recvTokens a + 1) % tokenMax.toNat := by
  have hext := toNat_toUInt64_toInt64 (g.recvTokens a + 1)
  rw [← counter] at hext
  rw [nextRecvToken, UInt64.toNat_toUInt32, UInt64.toNat_mod, hext, tokenMax_toNat]
  split <;> omega

/-- The token that a receiver asks for. -/
theorem toNat_nextRecvToken {g : Globals} {a : UInt8}
    (hr : counter (g.recvTokens a) < tokenMax.toNat) :
    (nextRecvToken g a).toNat = (counter (g.recvTokens a) + 1) % tokenMax.toNat := by
  have hmax := tokenMax_toNat
  have hlt : counter (g.recvTokens a) + 1 < 2 ^ 32 := by omega
  rw [toNat_nextRecvToken_eq, counter_add_one, Nat.mod_eq_of_lt hlt]

/-! ### Payloads -/

/-- The payload that carries the message `m` under the token `t`. -/
def sealed (aes : Aes) (t : ℕ) (m : List UInt8) : List UInt8 :=
  Cipher.cipherText aes (toBytes tokenSize.toNat t ++ m)

/-- The size of the payload of an `n`-byte message. -/
def sealedSize (n : ℕ) : ℕ := Cipher.paddedSize (tokenSize.toNat + n)

@[simp] theorem length_sealed (aes : Aes) (t : ℕ) (m : List UInt8) :
    (sealed aes t m).length = sealedSize m.length := by
  simp [sealed, sealedSize]

/-- The size of a payload, in blocks. -/
theorem sealedSize_eq (n : ℕ) : sealedSize n = 16 * ((2 + n) / 16 + 1) := rfl

theorem toInt8_ofNat (n : ℕ) : (UInt8.ofNat n).toInt8 = Int8.ofInt n := rfl

/-- A token is put in front of the message. -/
theorem length_header (t : ℕ) (m : List UInt8) :
    (toBytes tokenSize.toNat t ++ m).length = tokenSize.toNat + m.length := by
  simp

/-- What `encrypt` leaves, for every token size: the token of the counter and the message in the
scratch buffer, and their cipher text in the output. -/
theorem encryptOf_spec {size : UInt8} (aes : Aes) (g : Globals) {input : Mem UInt8}
    (output : Mem UInt8) (dest : UInt8) {m : List UInt8} (hm : size.toNat + m.length < 112)
    (hin : cells input m.length = m) :
    ∃ encBuf msg,
      encryptOf size aes g input (UInt8.ofNat m.length) output dest =
        (⟨Function.update g.sendTokens dest (nextSendToken size (g.sendTokens dest)),
          g.recvTokens, encBuf⟩, msg,
          UInt8.ofNat (Cipher.paddedSize (size.toNat + m.length))) ∧
      cells msg (Cipher.paddedSize (size.toNat + m.length)) = Cipher.cipherText aes
        (toBytes size.toNat (counter (nextSendToken size (g.sendTokens dest))) ++ m) := by
  have hlen : (UInt8.ofNat m.length).toNat = m.length := by
    rw [UInt8.toNat_ofNat']
    omega
  set token := (nextSendToken size (g.sendTokens dest)).toUInt32 with htoken
  set encBuf := copy (splitToBytes g.encBuf token size) size.toNat input m.length with hbuf
  have hcells : cells encBuf (size.toNat + m.length) = toBytes size.toNat token.toNat ++ m := by
    rw [hbuf, cells_add, cells_copy_of_le (le_refl _), cells_splitToBytes, cells_shift_copy, hin]
  have hheader : (toBytes size.toNat token.toNat ++ m).length = size.toNat + m.length := by
    rw [List.length_append, length_toBytes]
  have hsize : ((m.length : ℕ) : ℤ) + (size.toNat : ℤ) =
      ((toBytes size.toNat token.toNat ++ m).length : ℕ) := by
    rw [hheader]
    omega
  have hshort : (toBytes size.toNat token.toNat ++ m).length < 112 := by
    rw [hheader]
    exact hm
  refine ⟨encBuf, (Cipher.encryptBytes aes encBuf
    (Int8.ofInt (toBytes size.toNat token.toNat ++ m).length) output).1, ?_, ?_⟩
  · have hout : (Int8.ofInt (Cipher.paddedSize (size.toNat + m.length))).toUInt8 =
        UInt8.ofNat (Cipher.paddedSize (size.toNat + m.length)) := rfl
    simp only [encryptOf, hlen, ← htoken, ← hbuf, hsize,
      Cipher.encryptBytes_eq aes encBuf output hshort]
    rw [hheader, hout]
  · have hcipher := Cipher.cells_encryptBytes aes output hshort (by rw [hheader, hcells])
    rw [hheader] at hcipher ⊢
    exact hcipher

/-- The payload `encrypt` writes carries the message under the next token. -/
theorem encrypt_spec (aes : Aes) (g : Globals) {input : Mem UInt8} (output : Mem UInt8)
    (dest : UInt8) {m : List UInt8} (hm : m.length < 110)
    (hin : cells input m.length = m) :
    ∃ encBuf msg,
      encrypt aes g input (UInt8.ofNat m.length) output dest =
        (⟨Function.update g.sendTokens dest (nextSendToken tokenSize (g.sendTokens dest)),
          g.recvTokens, encBuf⟩, msg, UInt8.ofNat (sealedSize m.length)) ∧
      cells msg (sealedSize m.length) =
        sealed aes (counter (nextSendToken tokenSize (g.sendTokens dest))) m := by
  have hfits : tokenSize.toNat + m.length < 112 := by
    have htwo : tokenSize.toNat = 2 := rfl
    omega
  exact encryptOf_spec aes g output dest hfits hin

/-- What `decrypt` gets from the cipher for a payload of `n` bytes: the scratch buffer and the
size as it is read. -/
def deciphered (aes : Aes) (g : Globals) (input : Mem UInt8) (n : ℕ) : Mem UInt8 × UInt8 :=
  let r := Cipher.decryptBytes aes input (UInt8.ofNat n).toInt8 g.encBuf
  (r.1, r.2.toUInt8)

/-- What the cipher makes of whole blocks, as `decrypt` calls it: the clear text at the front
of the scratch buffer, the rest of it as it was, and the size that the count byte leaves. -/
theorem deciphered_blocks (aes : Aes) (g : Globals) (input : Mem UInt8) {n : ℕ} (hdvd : 16 ∣ n)
    (hpos : 16 ≤ n) (hle : n ≤ 112) :
    (∀ j : ℕ, j < n → (deciphered aes g input n).1 j = Cipher.plainText aes input j) ∧
    (∀ j : ℤ, j < 0 ∨ n ≤ j → (deciphered aes g input n).1 j = g.encBuf j) ∧
    (deciphered aes g input n).2 =
      (Int8.ofInt (n - (Cipher.countByte aes input n).toNat - 1)).toUInt8 := by
  obtain ⟨k, rfl⟩ := hdvd
  obtain ⟨hin, hout, hsize⟩ := Cipher.decryptBytes_blocks aes input g.encBuf
    (show 1 ≤ k by omega) (show k < 8 by omega)
  simp only [deciphered, toInt8_ofNat]
  exact ⟨hin, hout, congrArg Int8.toUInt8 hsize⟩

/-- The token `decrypt` looks at is the one at the front of the clear text. -/
theorem mergeFromBytes_deciphered (aes : Aes) (g : Globals) (input : Mem UInt8) {n : ℕ}
    (hdvd : 16 ∣ n) (hpos : 16 ≤ n) (hle : n ≤ 112) :
    mergeFromBytes (deciphered aes g input n).1 tokenSize =
      mergeFromBytes (Cipher.plainText aes input) tokenSize := by
  obtain ⟨hin, -, -⟩ := deciphered_blocks aes g input hdvd hpos hle
  have htwo : tokenSize.toNat = 2 := rfl
  have hcells : cells (deciphered aes g input n).1 tokenSize.toNat =
      cells (Cipher.plainText aes input) tokenSize.toNat :=
    cells_eq_iff.mpr fun i hi => hin i (by omega)
  apply UInt32.toNat_inj.mp
  rw [toNat_mergeFromBytes, toNat_mergeFromBytes, hcells]

/-- The test of `_validate_token`, on the receive counters alone. -/
def Newer (recvTokens : UInt8 → Int32) (token : UInt32) (a : UInt8) : Prop :=
  0 < (token - (recvTokens a).toUInt32).toNat ∧
    ((token - (recvTokens a).toUInt32).toNat : ℤ) < tokenTreshold

instance (recvTokens : UInt8 → Int32) (token : UInt32) (a : UInt8) :
    Decidable (Newer recvTokens token a) :=
  inferInstanceAs (Decidable (_ ∧ _))

/-- `_validate_token` accepts a token that is newer, and keeps it. -/
theorem validateToken_newer (g : Globals) (token : UInt32) (a : UInt8) :
    validateToken g token a =
      if Newer g.recvTokens token a then
        (true, { g with recvTokens := Function.update g.recvTokens a token.toInt32 })
      else (false, g) := by
  simp only [validateToken, Newer]
  exact if_congr (by omega) rfl rfl

/-- `decrypt`, by what the cipher reports and what the token test says. -/
theorem decrypt_eq (aes : Aes) (g : Globals) (input : Mem UInt8) (n : ℕ) (output : Mem UInt8)
    (outSize sender : UInt8) :
    decrypt aes g input (UInt8.ofNat n) output outSize sender =
      let c := deciphered aes g input n
      let token := mergeFromBytes c.1 tokenSize
      if c.2 = 0 then (true, { g with encBuf := c.1 }, output, outSize)
      else if Newer g.recvTokens token sender then
        (true, ⟨g.sendTokens, Function.update g.recvTokens sender token.toInt32, c.1⟩,
          copy output 0 (shift c.1 tokenSize.toNat) (c.2 - tokenSize).toNat, c.2 - tokenSize)
      else (false, { g with encBuf := c.1 }, output, outSize) := by
  simp only [decrypt, validateToken_newer]
  by_cases hzero : (deciphered aes g input n).2 = 0
  · have hzero' := hzero
    rw [deciphered] at hzero'
    rw [if_pos hzero', if_pos hzero, deciphered]
  · have hzero' := hzero
    rw [deciphered] at hzero'
    rw [if_neg hzero', if_neg hzero, deciphered]
    split <;> rfl

/-- Receiving touches no send counter. -/
theorem decrypt_sendTokens (aes : Aes) (g : Globals) (input output : Mem UInt8)
    (inSize outSize sender : UInt8) :
    (decrypt aes g input inSize output outSize sender).2.1.sendTokens = g.sendTokens := by
  simp only [decrypt, validateToken]
  split
  · rfl
  · split <;> split <;> rfl

/-- The token read back from a header. -/
theorem mergeFromBytes_token {buf : Mem UInt8} {t : ℕ} (ht : t < 2 ^ 16)
    (h : cells buf tokenSize.toNat = toBytes tokenSize.toNat t) :
    mergeFromBytes buf tokenSize = UInt32.ofNat t := by
  have hpow : t < 256 ^ tokenSize.toNat := ht
  apply UInt32.toNat_inj.mp
  rw [toNat_mergeFromBytes, h, ofBytes_toBytes_of_lt hpow, UInt32.toNat_ofNat']

/-- The first bytes of a buffer, and those behind them. -/
theorem cells_eq_take {buf : Mem UInt8} {a b : List UInt8}
    (h : cells buf (a.length + b.length) = a ++ b) :
    cells buf a.length = a ∧ cells (shift buf a.length) b.length = b := by
  rw [cells_add] at h
  exact List.append_inj h (length_cells _ _)

/-- What the cipher gives back of a payload: the size of token and message, and in the buffer
first the token and then the message. -/
theorem decryptBytes_sealed (aes : Aes) {input : Mem UInt8} (dst : Mem UInt8) {t : ℕ}
    {m : List UInt8} (hm : m.length < 110)
    (hin : cells input (sealedSize m.length) = sealed aes t m) :
    ∃ buf, Cipher.decryptBytes aes input (UInt8.ofNat (sealedSize m.length)).toInt8 dst =
        (buf, Int8.ofInt (tokenSize.toNat + m.length : ℕ)) ∧
      cells buf (tokenSize.toNat + m.length) = toBytes tokenSize.toNat t ++ m := by
  have hshort : (toBytes tokenSize.toNat t ++ m).length < 112 := by
    rw [length_header]
    show 2 + m.length < 112
    omega
  have hcipher : cells input (Cipher.paddedSize (toBytes tokenSize.toNat t ++ m).length) =
      Cipher.cipherText aes (toBytes tokenSize.toNat t ++ m) := by
    rw [length_header]
    exact hin
  obtain ⟨hsize, hcells⟩ := Cipher.decryptBytes_cipherText aes dst hshort hcipher
  rw [length_header] at hsize hcells
  exact ⟨_, Prod.ext rfl hsize, hcells⟩

/-- The token `decrypt` finds in a payload. -/
def payloadToken (aes : Aes) (payload : List UInt8) : ℕ :=
  (mergeFromBytes (Cipher.decryptBytes aes (load payload (fun _ => 0))
    (UInt8.ofNat payload.length).toInt8 (fun _ => 0)).1 tokenSize).toNat

/-- The token is read back from a sealed payload. -/
theorem payloadToken_sealed (aes : Aes) {t : ℕ} {m : List UInt8} (hm : m.length < 110)
    (ht : t < 2 ^ 16) : payloadToken aes (sealed aes t m) = t := by
  have hin : cells (load (sealed aes t m) fun _ => 0) (sealedSize m.length) = sealed aes t m := by
    rw [← length_sealed aes t m]
    exact cells_load _ _
  obtain ⟨buf, hdec, hbuf⟩ := decryptBytes_sealed aes (fun _ => 0) hm hin
  obtain ⟨htok, -⟩ := cells_eq_take (a := toBytes tokenSize.toNat t) (b := m)
    (by simpa using hbuf)
  rw [length_toBytes] at htok
  rw [payloadToken, length_sealed, hdec, mergeFromBytes_token ht htok, UInt32.toNat_ofNat']
  omega

/-- `decrypt` on the payload of a message, up to its token test. -/
theorem decrypt_sealed_eq (aes : Aes) (g : Globals) {input : Mem UInt8} (output : Mem UInt8)
    (outSize sender : UInt8) {t : ℕ} {m : List UInt8} (hm : m.length < 110)
    (hin : cells input (sealedSize m.length) = sealed aes t m) :
    ∃ buf, cells buf tokenSize.toNat = toBytes tokenSize.toNat t ∧
      cells (shift buf tokenSize.toNat) m.length = m ∧
      decrypt aes g input (UInt8.ofNat (sealedSize m.length)) output outSize sender =
        let v := validateToken { g with encBuf := buf } (mergeFromBytes buf tokenSize) sender
        if v.1 = true then
          (true, v.2, copy output 0 (shift buf tokenSize.toNat) m.length, UInt8.ofNat m.length)
        else (false, v.2, output, outSize) := by
  obtain ⟨buf, hdec, hbuf⟩ := decryptBytes_sealed aes g.encBuf hm hin
  obtain ⟨htok, hmsg⟩ := cells_eq_take (a := toBytes tokenSize.toNat t) (b := m)
    (by simpa using hbuf)
  rw [length_toBytes] at htok hmsg
  have htwo : tokenSize.toNat = 2 := rfl
  have heb : (Int8.ofInt (tokenSize.toNat + m.length : ℕ)).toUInt8 =
      UInt8.ofNat (tokenSize.toNat + m.length) := rfl
  have hne : ¬ UInt8.ofNat (tokenSize.toNat + m.length) = 0 := by
    rw [← UInt8.toNat_inj, UInt8.toNat_ofNat']
    have : (0 : UInt8).toNat = 0 := rfl
    omega
  have hsub : UInt8.ofNat (tokenSize.toNat + m.length) - tokenSize = UInt8.ofNat m.length := by
    apply UInt8.toNat_inj.mp
    rw [UInt8.toNat_sub, UInt8.toNat_ofNat', UInt8.toNat_ofNat']
    omega
  have hout : (UInt8.ofNat m.length).toNat = m.length := by
    rw [UInt8.toNat_ofNat']
    omega
  have hbuf : (validateToken { g with encBuf := buf } (mergeFromBytes buf tokenSize)
      sender).2.encBuf = buf := by
    rw [validateToken]
    split <;> rfl
  refine ⟨buf, htok, hmsg, ?_⟩
  simp only [decrypt, hdec, heb, if_neg hne, hsub, hout, hbuf]
  cases (validateToken { g with encBuf := buf } (mergeFromBytes buf tokenSize) sender).1 with
  | false => rfl
  | true => rfl

/-- Whatever the token state: when `decrypt` accepts the payload of a message, the message is
what comes out. -/
theorem decrypt_sealed_of_accepted (aes : Aes) (g : Globals) {input : Mem UInt8}
    (output : Mem UInt8) (outSize sender : UInt8) {t : ℕ} {m : List UInt8} (hm : m.length < 110)
    (hin : cells input (sealedSize m.length) = sealed aes t m)
    (hok : (decrypt aes g input (UInt8.ofNat (sealedSize m.length)) output outSize sender).1 =
      true) :
    (decrypt aes g input (UInt8.ofNat (sealedSize m.length)) output outSize sender).2.2.2 =
        UInt8.ofNat m.length ∧
      cells (decrypt aes g input (UInt8.ofNat (sealedSize m.length)) output outSize
        sender).2.2.1 m.length = m := by
  obtain ⟨buf, -, hmsg, hdec⟩ := decrypt_sealed_eq aes g output outSize sender hm hin
  rw [hdec] at hok ⊢
  cases hv : (validateToken { g with encBuf := buf } (mergeFromBytes buf tokenSize) sender).1 with
  | false =>
      simp only [hv] at hok
      exact absurd hok (by simp)
  | true =>
      simp only [hv, if_true, cells_copy_zero]
      exact ⟨trivial, hmsg⟩

/-- `decrypt` on the payload of a message: the message comes out when its token lies in the
window of the sender, and nothing but the scratch buffer changes when it does not. -/
theorem decrypt_sealed (aes : Aes) (g : Globals) {input : Mem UInt8} (output : Mem UInt8)
    (outSize sender : UInt8) {t : ℕ} {m : List UInt8} (hm : m.length < 110) (ht : t < 2 ^ 16)
    (hr : counter (g.recvTokens sender) < 2 ^ 16)
    (hin : cells input (sealedSize m.length) = sealed aes t m) :
    ∃ encBuf out,
      decrypt aes g input (UInt8.ofNat (sealedSize m.length)) output outSize sender =
        (if InWindow (counter (g.recvTokens sender)) t then
          (true, ⟨g.sendTokens,
            Function.update g.recvTokens sender (UInt32.ofNat t).toInt32, encBuf⟩,
            out, UInt8.ofNat m.length)
        else (false, { g with encBuf := encBuf }, output, outSize)) ∧
      cells out m.length = m := by
  obtain ⟨buf, htok, hmsg, hdec⟩ := decrypt_sealed_eq aes g output outSize sender hm hin
  have htNat : (UInt32.ofNat t).toNat = t := by
    rw [UInt32.toNat_ofNat']
    omega
  have ht' : (UInt32.ofNat t).toNat < 2 ^ 16 := by omega
  have hval := validateToken_eq (g := { g with encBuf := buf }) (a := sender) hr ht'
  rw [htNat] at hval
  rw [mergeFromBytes_token ht htok, hval] at hdec
  refine ⟨buf, copy output 0 (shift buf tokenSize.toNat) m.length, ?_, ?_⟩
  · rw [hdec]
    by_cases hw : InWindow (counter (g.recvTokens sender)) t
    · simp only [if_pos hw, if_true]
    · simp only [if_neg hw]
      rfl
  · rw [cells_copy_zero]
    exact hmsg

/-- `swap_token` replaces the token of a payload and keeps its message. -/
theorem swapToken_sealed (aes : Aes) (g : Globals) {msg newToken : Mem UInt8} (address : UInt8)
    {t u : ℕ} {m : List UInt8} (hm : m.length < 110) (hu : u < 2 ^ 16)
    (hin : cells msg (sealedSize m.length) = sealed aes t m)
    (hnew : cells newToken tokenSize.toNat = toBytes tokenSize.toNat u) :
    ∃ encBuf msg',
      swapToken aes g msg (UInt8.ofNat (sealedSize m.length)) address newToken =
        (⟨Function.update g.sendTokens address (UInt32.ofNat u).toInt32, g.recvTokens, encBuf⟩,
          msg') ∧
      cells msg' (sealedSize m.length) = sealed aes u m := by
  obtain ⟨buf, hdec, hbuf⟩ := decryptBytes_sealed aes g.encBuf hm hin
  obtain ⟨-, hmsg⟩ := cells_eq_take (a := toBytes tokenSize.toNat t) (b := m)
    (by simpa using hbuf)
  rw [length_toBytes] at hmsg
  have hmerge := mergeFromBytes_token hu hnew
  have hcells : cells (copy buf 0 newToken tokenSize.toNat) (tokenSize.toNat + m.length) =
      toBytes tokenSize.toNat u ++ m := by
    have hrest : cells (shift (copy buf 0 newToken tokenSize.toNat) tokenSize.toNat) m.length =
        cells (shift buf tokenSize.toNat) m.length := by
      rw [cells_eq_iff]
      intro i hi
      rw [shift_apply, copy_of_ge (by omega), shift_apply]
    rw [cells_add, cells_copy_zero, hnew, hrest, hmsg]
  have hshort : (toBytes tokenSize.toNat u ++ m).length < 112 := by
    rw [length_header]
    show 2 + m.length < 112
    omega
  refine ⟨copy buf 0 newToken tokenSize.toNat, (Cipher.encryptBytes aes
    (copy buf 0 newToken tokenSize.toNat) (Int8.ofInt (tokenSize.toNat + m.length : ℕ)) msg).1,
    ?_, ?_⟩
  · simp only [swapToken, hdec, hmerge, Int8.toInt8_toUInt8]
  · have := Cipher.cells_encryptBytes aes msg hshort (by rw [length_header, hcells])
    rw [length_header] at this
    exact this

end Encryption

end LCore
