import LCore.AesBlock
import LCore.Cipher

/-!
# The Cipher Object

The class of `lib/aes/Cipher.cpp` with its key. `setKey` takes a C string of any length and
leaves a key of 16 characters; the block functions make a context on the stack for every block,
and set its key from the string that is stored. `encryptBytes` and `decryptBytes` are here with
these block functions, where the module on the byte cipher has a bijection of blocks.

The statics of the AES library are threaded through the blocks and the calls. An object that is
used in any order of calls, from the start of the program, does what the byte cipher does with
one bijection for each key: `aes`.

## Main results

* `strlen_setKey`: the key that is stored has 16 characters, whatever is set.
* `encryptLoop_eq`, `decryptLoop_eq`: the block loops, with AES as a bijection.
* `bytes_after`: the byte functions, after any calls.
* `interoperate`: objects whose keys have the same first 16 characters understand each other.
-/

open Memory Machine
open Rijndael (State)

namespace LCore

/-- A C string: the characters before the one that ends it. -/
structure CString where
  chars : List UInt8
  ne_zero : ∀ c ∈ chars, c ≠ 0

namespace CString

/-- `strlen`. -/
def strlen (s : CString) : ℕ := s.chars.length

/-- The string in memory. -/
def mem (s : CString) : Mem UInt8 := load s.chars fun _ => 0

/-- `String(s).substring(0, n)`, as an array. -/
def take (s : CString) (n : ℕ) : CString where
  chars := s.chars.take n
  ne_zero c hc := s.ne_zero c (List.mem_of_mem_take hc)

end CString

/-- A `Cipher`. -/
structure KeyedCipher where
  privateCipherKey : CString

namespace KeyedCipher

open Mbedtls

/-- The first `n` letters. -/
def letters (n : ℕ) : List UInt8 := (List.range n).map fun i => UInt8.ofNat (0x61 + i)

/-- A key of letters has no terminator in it. -/
theorem letters_ne_zero {n : ℕ} (hn : n < 26) : ∀ c ∈ letters n, c ≠ 0 := by
  intro c hc hzero
  obtain ⟨i, hi, rfl⟩ := List.mem_map.mp hc
  have hlt := List.mem_range.mp hi
  have hnat := congrArg UInt8.toNat hzero
  rw [UInt8.toNat_ofNat', UInt8.toNat_zero] at hnat
  omega

/-- "abcdefghijklmnop" -/
def standardKey : CString := ⟨letters 16, letters_ne_zero (by omega)⟩

/-- `Cipher::setKey`, and the constructors, which call it. A key that is too long is cut, one that
is too short is replaced. -/
def setKey (key : CString) : KeyedCipher :=
  if key.strlen > 16 then ⟨key.take 16⟩
  else if key.strlen < 16 then ⟨standardKey⟩
  else ⟨key⟩

/-- `Cipher::encrypt` of a block under a key: the statics and the contents of `outputBuffer`. -/
def encrypt (stack : Mem ℕ × Mem ℕ) (s : Statics) (key : CString)
    (plainText outputBuffer : Mem UInt8) : Statics × Mem UInt8 :=
  let (_, s, aes) := aesSetkeyEnc stack s aesInit key.mem (key.strlen * 8)
  (s, aesCryptEcb s.tables aes .encrypt plainText outputBuffer)

/-- `Cipher::decrypt` of a block under a key. -/
def decrypt (stack : Mem ℕ × Mem ℕ) (s : Statics) (key : CString)
    (cipherText outputBuffer : Mem UInt8) : Statics × Mem UInt8 :=
  let (_, s, aes) := aesSetkeyDec stack s aesInit key.mem (key.strlen * 8)
  (s, aesCryptEcb s.tables aes .decrypt cipherText outputBuffer)

/-- What a call of a byte function finds on the stack: the arrays `clear` and `cyph`, and below
them the arrays of the AES library, for every block. -/
structure Stack where
  clear : Mem UInt8
  cyph : Mem UInt8
  below : ℕ → Mem ℕ × Mem ℕ

/-- The loop of `Cipher::encryptBytes`, with `n` blocks to go from block `i` on. -/
def encryptLoop (key : CString) :
    ℕ → ℕ → Stack → Statics → Mem UInt8 → Statics × Mem UInt8
  | 0, _, _, s, output => (s, output)
  | n + 1, i, stack, s, output =>
    let clear := copy stack.clear 0 (Memory.shift output (16 * i)) 16
    let (s, cyph) := encrypt (stack.below i) s key clear stack.cyph
    let output := copy output (16 * i) cyph 16
    encryptLoop key n (i + 1) { stack with clear, cyph } s output

/-- The loop of `Cipher::decryptBytes`. -/
def decryptLoop (key : CString) (input : Mem UInt8) :
    ℕ → ℕ → Stack → Statics → Mem UInt8 → Statics × Mem UInt8
  | 0, _, _, s, output => (s, output)
  | n + 1, i, stack, s, output =>
    let cyph := copy stack.cyph 0 (Memory.shift input (16 * i)) 16
    let (s, clear) := decrypt (stack.below i) s key cyph stack.clear
    let output := copy output (16 * i) clear 16
    decryptLoop key input n (i + 1) { stack with clear, cyph } s output

/-- `Cipher::encryptBytes`: the statics, the contents of `output` and the value of `*out_size`. -/
def encryptBytes (c : KeyedCipher) (stack : Stack) (s : Statics) (input : Mem UInt8) (inSize : Int8)
    (output : Mem UInt8) : Statics × Mem UInt8 × Int8 :=
  let padding : UInt8 := UInt8.ofInt (15 - inSize.toInt.tmod 16)
  let padding : UInt8 := if (padding.toNat : ℤ) = -1 then 15 else padding
  let outSize : Int8 := Int8.ofInt (inSize.toInt + padding.toNat + 1)
  let output := copy output 0 input (sizeT inSize.toInt)
  let output := copy output inSize.toInt (fun _ => 0) padding.toNat
  let output := write output (outSize.toInt - 1) padding
  let (s, output) := encryptLoop c.privateCipherKey (sizeT (outSize.toInt.tdiv 16)) 0 stack s output
  (s, output, outSize)

/-- `Cipher::decryptBytes`: the statics, the contents of `output` and the value of `*out_size`. -/
def decryptBytes (c : KeyedCipher) (stack : Stack) (s : Statics) (input : Mem UInt8) (inSize : Int8)
    (output : Mem UInt8) : Statics × Mem UInt8 × Int8 :=
  if inSize.toInt.tmod 16 ≠ 0 then
    (s, output, 0)
  else
    let (s, output) :=
      decryptLoop c.privateCipherKey input (sizeT (inSize.toInt.tdiv 16)) 0 stack s output
    let padding : UInt8 := output (inSize.toInt - 1)
    (s, output, Int8.ofInt (inSize.toInt - padding.toNat - 1))

/-! ### Keys -/

/-- A string that is cut has at most so many characters. -/
@[simp] theorem strlen_take (s : CString) (n : ℕ) : (s.take n).strlen = min n s.strlen := by
  rw [CString.strlen, CString.take, List.length_take, CString.strlen]

/-- The key has sixteen characters. -/
theorem strlen_setKey (key : CString) : (setKey key).privateCipherKey.strlen = 16 := by
  rw [setKey]
  split
  · next hlong => exact (strlen_take key 16).trans (by omega)
  · next hlong =>
    split
    · rfl
    · next hshort => exact Nat.le_antisymm (Nat.not_lt.mp hlong) (Nat.not_lt.mp hshort)

/-- The first 16 characters decide. -/
theorem setKey_congr {key key' : CString} (hlen : 16 ≤ key.strlen) (hlen' : 16 ≤ key'.strlen)
    (h : key.chars.take 16 = key'.chars.take 16) : setKey key = setKey key' := by
  have hcut : ∀ {k : CString}, 16 ≤ k.strlen → setKey k = ⟨k.take 16⟩ := by
    intro k hk
    rw [setKey]
    split
    · rfl
    · rw [if_neg (by omega)]
      have hall : k.chars.take 16 = k.chars := List.take_of_length_le (by
        have hlen : k.chars.length = k.strlen := rfl
        omega)
      simp only [CString.take, hall]
  rw [hcut hlen, hcut hlen']
  simp only [CString.take, h]

/-! ### AES as a bijection -/

/-- A byte as an element of the field. -/
def byteEquiv : UInt8 ≃ Gf256 where
  toFun b := ⟨b⟩
  invFun a := a.toByte
  left_inv _ := rfl
  right_inv _ := rfl

/-- The bytes of a block as the state of the cipher. -/
def blockEquiv : Block ≃ State :=
  ((finProdFinEquiv (m := 4) (n := 4)).symm.arrowCongr byteEquiv).trans
    (Equiv.curry (Fin 4) (Fin 4) Gf256)

/-- A byte of a block is found in its column and row. -/
theorem blockEquiv_apply (b : Block) (c r : Fin 4) :
    blockEquiv b c r = ⟨b (finProdFinEquiv (c, r))⟩ := rfl

/-- The state of a block is the block. -/
theorem blockState_eq (m : Mem UInt8) : blockState m = blockEquiv (block 16 m 0) := by
  funext c r
  have hindex : (finProdFinEquiv (c, r)).val = r + 4 * c := finProdFinEquiv_apply_val (c, r)
  rw [blockEquiv_apply, block, blockState, hindex]
  congr 2
  omega

/-- The bijection of blocks that a key stands for. -/
def aes (key : CString) : Aes :=
  (blockEquiv.trans (Rijndael.cipher 4 (keyWord key.mem))).trans blockEquiv.symm

section Blocks

variable {s : Statics} (hs : s.Ok) {key : CString} (hkey : key.strlen = 16)
include hs hkey

/-- `encrypt` encrypts one block under the key and keeps the tables correct. -/
theorem encrypt_eq (stack : Mem ℕ × Mem ℕ) (plainText outputBuffer : Mem UInt8) :
    (encrypt stack s key plainText outputBuffer).1.Ok ∧
      block 16 (encrypt stack s key plainText outputBuffer).2 0 =
        aes key (block 16 plainText 0) := by
  obtain ⟨buf, hset, -⟩ := aesSetkeyEnc_eq hs (.inl rfl) stack aesInit key.mem
  obtain ⟨hstate, -⟩ := aesCryptEcb_encrypt [] hs (.inl rfl) hset plainText outputBuffer
  have hbits : key.strlen * 8 = 32 * 4 := by omega
  rw [encrypt, hbits, hset]
  refine ⟨fun _ => initTables_correct hs stack, ?_⟩
  apply blockEquiv.injective
  rw [← blockState_eq, aes, Equiv.trans_apply, Equiv.apply_symm_apply, Equiv.trans_apply,
    ← blockState_eq]
  exact hstate

/-- `decrypt` decrypts it. -/
theorem decrypt_eq (stack : Mem ℕ × Mem ℕ) (cipherText outputBuffer : Mem UInt8) :
    (decrypt stack s key cipherText outputBuffer).1.Ok ∧
      block 16 (decrypt stack s key cipherText outputBuffer).2 0 =
        (aes key).symm (block 16 cipherText 0) := by
  obtain ⟨buf, hset, -⟩ := aesSetkeyDec_eq hs (.inl rfl) stack aesInit key.mem
  obtain ⟨hstate, -⟩ := aesCryptEcb_decrypt [] hs (.inl rfl) hset cipherText outputBuffer
  have hbits : key.strlen * 8 = 32 * 4 := by omega
  rw [decrypt, hbits, hset]
  refine ⟨fun _ => initTables_correct hs stack, ?_⟩
  apply blockEquiv.injective
  rw [← blockState_eq, aes, Equiv.symm_trans_apply, Equiv.symm_trans_apply, Equiv.symm_symm,
    Equiv.apply_symm_apply, ← blockState_eq]
  exact hstate

end Blocks

/-- A block that was copied to the front. -/
theorem block_copy_shift (m src : Mem UInt8) (i : ℕ) :
    block 16 (copy m 0 (Memory.shift src (16 * i)) 16) 0 = block 16 src i := by
  funext j
  rw [block, block, copy_of_mem (by omega) (by omega), shift_apply]
  congr 1
  omega

section Loops

variable {s : Statics} (hs : s.Ok) {key : CString} (hkey : key.strlen = 16)
include hs hkey

/-- The loop over the blocks converts them in place. -/
theorem encryptLoop_eq (n i : ℕ) (stack : Stack) (output : Mem UInt8) :
    (encryptLoop key n i stack s output).1.Ok ∧
      (encryptLoop key n i stack s output).2 = convertInPlace (aes key) n i output := by
  induction n generalizing i stack s output with
  | zero => exact ⟨hs, rfl⟩
  | succ n ih =>
      set clear := copy stack.clear 0 (Memory.shift output (16 * i)) 16 with hclear
      obtain ⟨hok, hblock⟩ := encrypt_eq hs hkey (stack.below i) clear stack.cyph
      have hput : copy output (16 * i) (encrypt (stack.below i) s key clear stack.cyph).2 16 =
          setBlock 16 output i (aes key (block 16 output i)) := by
        rw [hclear, block_copy_shift] at hblock
        rw [← hblock]
        exact copy_eq_setBlock output _ i
      rw [encryptLoop, convertInPlace, ← hput]
      exact ih hok (i + 1) _ _

/-- The loop over the blocks of the input converts each of them. -/
theorem decryptLoop_eq (input : Mem UInt8) (n i : ℕ) (stack : Stack) (output : Mem UInt8) :
    (decryptLoop key input n i stack s output).1.Ok ∧
      (decryptLoop key input n i stack s output).2 = convert (aes key).symm input n i output := by
  induction n generalizing i stack s output with
  | zero => exact ⟨hs, rfl⟩
  | succ n ih =>
      set cyph := copy stack.cyph 0 (Memory.shift input (16 * i)) 16 with hcyph
      obtain ⟨hok, hblock⟩ := decrypt_eq hs hkey (stack.below i) cyph stack.clear
      have hput : copy output (16 * i) (decrypt (stack.below i) s key cyph stack.clear).2 16 =
          setBlock 16 output i ((aes key).symm (block 16 input i)) := by
        rw [hcyph, block_copy_shift] at hblock
        rw [← hblock]
        exact copy_eq_setBlock output _ i
      rw [decryptLoop, convert, ← hput]
      exact ih hok (i + 1) _ _

/-- `encryptBytes` of the object is `encryptBytes` under its key. -/
theorem encryptBytes_eq (stack : Stack) (input : Mem UInt8) (inSize : Int8) (output : Mem UInt8) :
    (encryptBytes ⟨key⟩ stack s input inSize output).1.Ok ∧
      (encryptBytes ⟨key⟩ stack s input inSize output).2 =
        Cipher.encryptBytes (aes key) input inSize output := by
  obtain ⟨hok, hloop⟩ := encryptLoop_eq hs hkey _ 0 stack _
  exact ⟨hok, Prod.ext hloop rfl⟩

/-- `decryptBytes` of the object is `decryptBytes` under its key. -/
theorem decryptBytes_eq (stack : Stack) (input : Mem UInt8) (inSize : Int8) (output : Mem UInt8) :
    (decryptBytes ⟨key⟩ stack s input inSize output).1.Ok ∧
      (decryptBytes ⟨key⟩ stack s input inSize output).2 =
        Cipher.decryptBytes (aes key) input inSize output := by
  rw [decryptBytes, Cipher.decryptBytes]
  split
  · exact ⟨hs, rfl⟩
  · obtain ⟨hok, hloop⟩ :=
      decryptLoop_eq hs hkey input (sizeT (inSize.toInt.tdiv 16)) 0 stack output
    refine ⟨hok, ?_⟩
    rw [← hloop]

end Loops

/-! ### Over the calls -/

/-- A call on the object, with what it finds on the stack and in the buffers. -/
inductive Use
  | setKey (key : CString)
  | encryptBytes (stack : Stack) (input : Mem UInt8) (inSize : Int8) (output : Mem UInt8)
  | decryptBytes (stack : Stack) (input : Mem UInt8) (inSize : Int8) (output : Mem UInt8)

/-- An object and the statics of the AES library. -/
structure Object where
  cipher : KeyedCipher
  statics : Statics

/-- An object after a call. -/
def Object.use (w : Object) : Use → Object
  | .setKey key => { w with cipher := KeyedCipher.setKey key }
  | .encryptBytes stack input inSize output =>
    { w with statics := (w.cipher.encryptBytes stack w.statics input inSize output).1 }
  | .decryptBytes stack input inSize output =>
    { w with statics := (w.cipher.decryptBytes stack w.statics input inSize output).1 }

/-- An object after some calls. -/
def Object.after (w : Object) (uses : List Use) : Object := uses.foldl Object.use w

/-- A new object, made with a key when the program starts. -/
def Object.new (key : CString) : Object := ⟨KeyedCipher.setKey key, Statics.boot⟩

/-- What holds of an object between the calls. -/
structure Object.Ok (w : Object) : Prop where
  strlen : w.cipher.privateCipherKey.strlen = 16
  statics : w.statics.Ok

/-- A new object has no tables that could be wrong. -/
theorem Object.new_ok (key : CString) : (Object.new key).Ok :=
  ⟨strlen_setKey key, Statics.boot_ok⟩

/-- Using an object keeps its tables correct. -/
theorem Object.use_ok {w : Object} (h : w.Ok) (u : Use) : (w.use u).Ok := by
  cases u with
  | setKey key => exact ⟨strlen_setKey key, h.statics⟩
  | encryptBytes stack input inSize output =>
      exact ⟨h.strlen, (encryptBytes_eq h.statics h.strlen stack input inSize output).1⟩
  | decryptBytes stack input inSize output =>
      exact ⟨h.strlen, (decryptBytes_eq h.statics h.strlen stack input inSize output).1⟩

/-- So does any use of it. -/
theorem Object.after_ok {w : Object} (h : w.Ok) (uses : List Use) : (w.after uses).Ok := by
  induction uses generalizing w with
  | nil => exact h
  | cons u uses ih => exact ih (w.use_ok h u)

/-- After any calls, the byte functions of an object do what those of the byte cipher do with the
bijection of the key that is stored, on inputs of every size. -/
theorem bytes_after (key : CString) (uses : List Use) (stack : Stack) (input : Mem UInt8)
    (inSize : Int8) (output : Mem UInt8) :
    (((Object.new key).after uses).cipher.encryptBytes stack ((Object.new key).after uses).statics
        input inSize output).2 =
      Cipher.encryptBytes (aes ((Object.new key).after uses).cipher.privateCipherKey) input inSize
        output ∧
    (((Object.new key).after uses).cipher.decryptBytes stack ((Object.new key).after uses).statics
        input inSize output).2 =
      Cipher.decryptBytes (aes ((Object.new key).after uses).cipher.privateCipherKey) input inSize
        output := by
  have hok := Object.after_ok (Object.new_ok key) uses
  exact ⟨(encryptBytes_eq hok.statics hok.strlen stack input inSize output).2,
    (decryptBytes_eq hok.statics hok.strlen stack input inSize output).2⟩

/-- The key of an object is not touched by the byte functions. -/
theorem Object.after_cipher {w : Object} {uses : List Use} (h : ∀ key, Use.setKey key ∉ uses) :
    (w.after uses).cipher = w.cipher := by
  induction uses generalizing w with
  | nil => rfl
  | cons u uses ih =>
      have hu : (w.use u).cipher = w.cipher := by
        cases u with
        | setKey key => exact absurd List.mem_cons_self (h key)
        | encryptBytes => rfl
        | decryptBytes => rfl
      rw [← hu]
      exact ih fun key hmem => h key (List.mem_cons_of_mem u hmem)

/-- An object whose key was set after some calls and is used from then on. -/
theorem Object.after_setKey {w : Object} (h : w.Ok) (before : List Use) (key : CString)
    {uses : List Use} (huses : ∀ k, Use.setKey k ∉ uses) :
    (w.after (before ++ .setKey key :: uses)).cipher = KeyedCipher.setKey key ∧
      (w.after (before ++ .setKey key :: uses)).Ok := by
  refine ⟨?_, Object.after_ok h _⟩
  rw [after, List.foldl_append, List.foldl_cons]
  exact Object.after_cipher huses

/-- Two objects in two programs, each after any calls, a `setKey`, and any calls of the byte
functions. If the keys that were set are long enough and have the same first 16 characters, then
one decrypts what the other one encrypts. -/
theorem interoperate {key key' : CString} (hlen : 16 ≤ key.strlen) (hlen' : 16 ≤ key'.strlen)
    (hsame : key.chars.take 16 = key'.chars.take 16) (k₀ k₀' : CString) (before before' : List Use)
    {uses uses' : List Use} (huses : ∀ k, Use.setKey k ∉ uses) (huses' : ∀ k, Use.setKey k ∉ uses')
    (stack stack' : Stack) (input output output' : Mem UInt8) {n : ℕ} (hn : n < 112) :
    let w := (Object.new k₀).after (before ++ .setKey key :: uses)
    let w' := (Object.new k₀').after (before' ++ .setKey key' :: uses')
    let sent := (w.cipher.encryptBytes stack w.statics input (Int8.ofInt n) output).2
    let received := (w'.cipher.decryptBytes stack' w'.statics sent.1 sent.2 output').2
    received.2 = Int8.ofInt n ∧ cells received.1 n = cells input n := by
  intro w w'
  obtain ⟨hcipher, hok⟩ := Object.after_setKey (Object.new_ok k₀) before key huses
  obtain ⟨hcipher', hok'⟩ := Object.after_setKey (Object.new_ok k₀') before' key' huses'
  have hkey : w'.cipher.privateCipherKey = w.cipher.privateCipherKey :=
    congrArg privateCipherKey
      (hcipher'.trans ((setKey_congr hlen hlen' hsame).symm.trans hcipher.symm))
  have henc := (encryptBytes_eq hok.statics hok.strlen stack input (Int8.ofInt n) output).2
  intro sent received
  have hsent : sent = Cipher.encryptBytes (aes w.cipher.privateCipherKey) input (Int8.ofInt n)
    output := henc
  have hdec := (decryptBytes_eq hok'.statics hok'.strlen stack' sent.1 sent.2 output').2
  have hreceived : received = Cipher.decryptBytes (aes w.cipher.privateCipherKey) sent.1 sent.2
      output' := by
    rw [← hkey]
    exact hdec
  have hsize : sent.2 = Int8.ofInt (Cipher.paddedSize n) := by
    rw [hsent, Cipher.encryptBytes_eq _ _ _ hn]
  rw [hreceived, hsize, hsent]
  exact Cipher.decryptBytes_encryptBytes (aes w.cipher.privateCipherKey) input output _ output' hn
    rfl

/-- A key of 17 characters that starts like the standard one. -/
def longKey : CString := ⟨letters 17, letters_ne_zero (by omega)⟩

/-- Two objects whose keys differ behind the sixteenth character. -/
theorem interoperate_longKey :
    let zeros : Mem UInt8 := fun _ => 0
    let stack : Stack := ⟨zeros, zeros, fun _ => (fun _ => 0, fun _ => 0)⟩
    let w := (Object.new standardKey).after ([] ++ .setKey standardKey :: [])
    let w' := (Object.new longKey).after
      ([.setKey standardKey] ++ .setKey longKey :: [.encryptBytes stack zeros 3 zeros])
    let sent := (w.cipher.encryptBytes stack w.statics zeros (Int8.ofInt 5) zeros).2
    let received := (w'.cipher.decryptBytes stack w'.statics sent.1 sent.2 zeros).2
    received.2 = Int8.ofInt 5 ∧ cells received.1 5 = cells zeros 5 :=
  interoperate (by decide : 16 ≤ standardKey.strlen) (by decide : 16 ≤ longKey.strlen) (by decide)
    standardKey longKey [] [.setKey standardKey] (by simp) (by simp) _ _ _ _ _ (by decide)

end KeyedCipher

end LCore
