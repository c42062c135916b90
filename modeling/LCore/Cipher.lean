import LCore.Lib.Machine
import LCore.Lib.Memory
import Mathlib.Logic.Equiv.Defs

/-!
# The Byte Cipher

`Cipher::encryptBytes` and `Cipher::decryptBytes` of `lib/aes/Cipher.cpp`: byte strings of
any length are padded with zeros and a count byte to whole blocks of 16 bytes, and the
blocks are converted one by one with AES under the key all nodes share.

AES on one block is a parameter, a bijection `Aes` of the 16-byte blocks: encryption is the
bijection and decryption its inverse.

## Main results

* `encryptBytes_eq` and `encryptBytes_block`: the size `encryptBytes` reports and the blocks
  it writes.
* `decryptBytes_encryptBytes`: decrypting what was encrypted reports the size that went in
  and gives back its bytes, whatever the output buffers held before.
* `cells_encryptBytes` and `decryptBytes_cipherText`: the same as a codec of byte strings,
  with `cipherText` for the encoded form.
-/

open Memory Machine

namespace LCore

/-- One AES block. -/
abbrev Block := Fin 16 → UInt8

/-- AES under the key of the network: `mbedtls_aes_crypt_ecb` on one block, in the two
directions. -/
abbrev Aes := Block ≃ Block

namespace Cipher

/-- `Cipher::encryptBytes`: the contents of `output` and the value of `*out_size`. -/
def encryptBytes (aes : Aes) (input : Mem UInt8) (inSize : Int8) (output : Mem UInt8) :
    Mem UInt8 × Int8 :=
  let padding : UInt8 := UInt8.ofInt (15 - inSize.toInt.tmod 16)
  -- a `uint8_t` compared with the `int` -1: never equal
  let padding : UInt8 := if (padding.toNat : ℤ) = -1 then 15 else padding
  let outSize : Int8 := Int8.ofInt (inSize.toInt + padding.toNat + 1)
  let output := copy output 0 input (sizeT inSize.toInt)
  let output := copy output inSize.toInt (fun _ => 0) padding.toNat
  let output := write output (outSize.toInt - 1) padding
  (convertInPlace aes (sizeT (outSize.toInt.tdiv 16)) 0 output, outSize)

/-- `Cipher::decryptBytes`: the contents of `output` and the value of `*out_size`. -/
def decryptBytes (aes : Aes) (input : Mem UInt8) (inSize : Int8) (output : Mem UInt8) :
    Mem UInt8 × Int8 :=
  if inSize.toInt.tmod 16 ≠ 0 then
    (output, 0)
  else
    let output := convert aes.symm input (sizeT (inSize.toInt.tdiv 16)) 0 output
    let padding : UInt8 := output (inSize.toInt - 1)
    (output, Int8.ofInt (inSize.toInt - padding.toNat - 1))

/-! ### Encryption -/

/-- The size of `n` bytes once they are padded. -/
def paddedSize (n : ℕ) : ℕ := 16 * (n / 16 + 1)

/-- The padded clear text: `n` bytes of `input`, zeros, and the number of zeros. -/
def padded (input : Mem UInt8) (n : ℕ) : Mem UInt8 :=
  fun k => if k < n then input k
    else if k = paddedSize n - 1 then UInt8.ofNat (15 - n % 16) else 0

/-- There is always room for the count byte. -/
theorem lt_paddedSize (n : ℕ) : n < paddedSize n := by
  simp only [paddedSize]
  omega

/-- The buffer `encryptBytes` hands to its block loop. -/
def clearText (input output : Mem UInt8) (n : ℕ) : Mem UInt8 :=
  write (copy (copy output 0 input n) n (fun _ => 0) (15 - n % 16))
    (paddedSize n - 1) (UInt8.ofNat (15 - n % 16))

/-- The clear text is the input, padded. -/
theorem clearText_apply (input output : Mem UInt8) {n k : ℕ} (hk : k < paddedSize n) :
    clearText input output n k = padded input n k := by
  have hn := lt_paddedSize n
  have hsize : paddedSize n = n + (15 - n % 16) + 1 := by
    simp only [paddedSize]
    omega
  unfold clearText padded
  by_cases hlast : (k : ℤ) = paddedSize n - 1
  · have hkn : ¬ ((k : ℤ) < n) := by omega
    rw [hlast, write_same, if_neg (by omega), if_pos rfl]
  · rw [write_of_ne hlast]
    by_cases hkn : (k : ℤ) < n
    · rw [copy_of_lt hkn, copy_of_mem (by omega) (by omega), if_pos hkn, sub_zero]
    · rw [copy_of_mem (by omega) (by omega), if_neg hkn, if_neg hlast]

/-- On lengths whose padded size an `int8_t` holds, `encryptBytes` pads and converts
`n / 16 + 1` blocks in place. -/
theorem encryptBytes_eq (aes : Aes) (input output : Mem UInt8) {n : ℕ} (h : n < 112) :
    encryptBytes aes input (Int8.ofInt n) output =
      (convertInPlace aes (n / 16 + 1) 0 (clearText input output n),
        Int8.ofInt (paddedSize n)) := by
  have hin : (Int8.ofInt n).toInt = n := toInt_ofInt8 (by omega)
  have hmod : (n : ℤ).tmod 16 = n % 16 := Int.tmod_eq_emod_of_nonneg (by omega)
  have hpad : UInt8.ofInt (15 - (n : ℤ) % 16) = UInt8.ofNat (15 - n % 16) := by
    apply UInt8.toNat_inj.mp
    rw [toNat_ofInt, UInt8.toNat_ofNat']
    omega
  have hpadNat : (UInt8.ofNat (15 - n % 16)).toNat = 15 - n % 16 := by
    rw [UInt8.toNat_ofNat']
    omega
  have hout : (n : ℤ) + (15 - n % 16 : ℕ) + 1 = paddedSize n := by
    simp only [paddedSize]
    omega
  have houtInt : (Int8.ofInt (paddedSize n)).toInt = paddedSize n :=
    toInt_ofInt8 (by simp only [paddedSize]; omega)
  have hblocks : ((paddedSize n : ℕ) : ℤ).tdiv 16 = (n / 16 + 1 : ℕ) := by
    rw [Int.tdiv_eq_ediv_of_nonneg (by omega)]
    simp only [paddedSize]
    omega
  have hne : ¬ (((15 - n % 16 : ℕ) : ℤ) = -1) := by omega
  simp only [encryptBytes, hin, hmod, hpad, hpadNat, if_neg hne, hout, houtInt, hblocks,
    sizeT_of_nonneg (show n < 2 ^ 32 by omega),
    sizeT_of_nonneg (show n / 16 + 1 < 2 ^ 32 by omega), clearText]

/-- Every block that `encryptBytes` writes is the encrypted block of the padded text. -/
theorem encryptBytes_block (aes : Aes) (input output : Mem UInt8) {n i : ℕ} (h : n < 112)
    (hi : i < n / 16 + 1) :
    block 16 (encryptBytes aes input (Int8.ofInt n) output).1 i =
      aes (block 16 (padded input n) i) := by
  rw [encryptBytes_eq aes input output h]
  simp only [block_convertInPlace]
  rw [if_pos (by omega)]
  congr 1
  exact block_eq_of_cells hi fun k hk => clearText_apply input output hk

/-! ### Decryption -/

/-- On whole blocks, `decryptBytes` converts block by block and reads the count byte. -/
theorem decryptBytes_eq (aes : Aes) (input output : Mem UInt8) {k : ℕ} (hk : k < 8) :
    decryptBytes aes input (Int8.ofInt (16 * k : ℕ)) output =
      (convert aes.symm input k 0 output,
        Int8.ofInt ((16 * k : ℕ) -
          (convert aes.symm input k 0 output ((16 * k : ℕ) - 1)).toNat - 1)) := by
  have hin : (Int8.ofInt (16 * k : ℕ)).toInt = (16 * k : ℕ) := toInt_ofInt8 (by omega)
  have hmod : ((16 * k : ℕ) : ℤ).tmod 16 = 0 := by
    rw [Int.tmod_eq_emod_of_nonneg (by omega)]
    omega
  have hdiv : ((16 * k : ℕ) : ℤ).tdiv 16 = (k : ℕ) := by
    rw [Int.tdiv_eq_ediv_of_nonneg (by omega)]
    omega
  simp only [decryptBytes, hin, hmod, hdiv, sizeT_of_nonneg (show k < 2 ^ 32 by omega),
    ne_eq, not_true_eq_false, if_false]

/-- A length that is no multiple of the block size is refused: nothing is written and the
size reported is zero. -/
theorem decryptBytes_of_not_dvd (aes : Aes) (input output : Mem UInt8) {inSize : Int8}
    (h : inSize.toInt.tmod 16 ≠ 0) : decryptBytes aes input inSize output = (output, 0) := by
  rw [decryptBytes, if_pos h]

/-- The clear text of whole blocks, from the blocks alone. -/
def plainText (aes : Aes) (input : Mem UInt8) : Mem UInt8 :=
  ofBlocks fun i => aes.symm (block 16 input i)

/-- The payload whose blocks decrypt to the given ones. -/
def encipher (aes : Aes) (f : ℕ → Block) : Mem UInt8 := ofBlocks fun i => aes (f i)

/-- Deciphering undoes enciphering. -/
theorem plainText_encipher (aes : Aes) (f : ℕ → Block) :
    plainText aes (encipher aes f) = ofBlocks f := by
  simp only [plainText, encipher, block_ofBlocks, Equiv.symm_apply_apply]

/-- The loop of `decryptBytes` writes the clear text. -/
theorem convert_apply (aes : Aes) (input dst : Mem UInt8) {k j : ℕ} (hj : j < 16 * k) :
    convert aes.symm input k 0 dst j = plainText aes input j := by
  have hblocks : cells (convert aes.symm input k 0 dst) (16 * k) =
      cells (plainText aes input) (16 * k) := by
    apply cells_eq_of_block_eq
    intro i hi
    rw [block_convert, if_pos (by omega), plainText, block_ofBlocks]
  exact cells_eq_iff.mp hblocks j hj

/-- The count byte at the end of `n` bytes of whole blocks. -/
def countByte (aes : Aes) (input : Mem UInt8) (n : ℕ) : UInt8 :=
  plainText aes input (n - 1 : ℕ)

/-- What `decryptBytes` makes of at least one whole block: the clear text at the front of the
output, nothing else changed, and the size that the count byte leaves. -/
theorem decryptBytes_blocks (aes : Aes) (input dst : Mem UInt8) {k : ℕ} (h₁ : 1 ≤ k)
    (h₇ : k < 8) :
    (∀ j : ℕ, j < 16 * k →
      (decryptBytes aes input (Int8.ofInt (16 * k : ℕ)) dst).1 j = plainText aes input j) ∧
    (∀ j : ℤ, j < 0 ∨ (16 * k : ℕ) ≤ j →
      (decryptBytes aes input (Int8.ofInt (16 * k : ℕ)) dst).1 j = dst j) ∧
    (decryptBytes aes input (Int8.ofInt (16 * k : ℕ)) dst).2 =
      Int8.ofInt ((16 * k : ℕ) - (countByte aes input (16 * k)).toNat - 1) := by
  rw [decryptBytes_eq aes input dst h₇]
  refine ⟨fun j hj => convert_apply aes input dst hj, fun j hj => ?_, ?_⟩
  · exact convert_of_outside _ _ _ _ _ (hj.imp (by omega) (by omega))
  · have hlast := convert_apply aes input dst (show 16 * k - 1 < 16 * k by omega)
    rw [Nat.cast_sub (by omega), Nat.cast_one] at hlast
    simp only [hlast, countByte]
    rw [Nat.cast_sub (by omega), Nat.cast_one]

/-- `decryptBytes` reads nothing of its input but the bytes it is given. -/
theorem decryptBytes_congr (aes : Aes) {input input' : Mem UInt8} (dst : Mem UInt8) {n : ℕ}
    (h : n < 128) (hin : cells input n = cells input' n) :
    decryptBytes aes input (Int8.ofInt n) dst = decryptBytes aes input' (Int8.ofInt n) dst := by
  by_cases hdvd : 16 ∣ n
  · obtain ⟨k, rfl⟩ := hdvd
    have hblocks : ∀ i, i < 0 + k → block 16 input i = block 16 input' i := by
      intro i hi
      exact block_eq_of_cells (show i < k by omega) (cells_eq_iff.mp hin)
    rw [decryptBytes_eq aes input dst (by omega), decryptBytes_eq aes input' dst (by omega),
      convert_congr _ k 0 dst hblocks]
  · have hmod : (Int8.ofInt n).toInt.tmod 16 ≠ 0 := by
      rw [toInt_ofInt8 h, Int.tmod_eq_emod_of_nonneg (by omega)]
      omega
    rw [decryptBytes_of_not_dvd aes input dst hmod, decryptBytes_of_not_dvd aes input' dst hmod]

/-- The two directions undo each other block by block. -/
theorem cells_convert_encryptBytes (aes : Aes) (input output cipher dst : Mem UInt8) {n : ℕ}
    (h : n < 112)
    (hc : cells cipher (paddedSize n) =
      cells (encryptBytes aes input (Int8.ofInt n) output).1 (paddedSize n)) :
    cells (convert aes.symm cipher (n / 16 + 1) 0 dst) (paddedSize n) =
      cells (padded input n) (paddedSize n) := by
  apply cells_eq_of_block_eq
  intro i hi
  rw [block_convert, if_pos (by omega),
    block_eq_of_cells hi (cells_eq_iff.mp hc), encryptBytes_block aes input output h hi,
    Equiv.symm_apply_apply]

/-- **The cipher round trip.** Decrypting the bytes `encryptBytes` wrote reports the size of
the clear text and puts the clear text at the front of the output. -/
theorem decryptBytes_encryptBytes (aes : Aes) (input output cipher dst : Mem UInt8) {n : ℕ}
    (h : n < 112)
    (hc : cells cipher (paddedSize n) =
      cells (encryptBytes aes input (Int8.ofInt n) output).1 (paddedSize n)) :
    (decryptBytes aes cipher (Int8.ofInt (paddedSize n)) dst).2 = Int8.ofInt n ∧
      cells (decryptBytes aes cipher (Int8.ofInt (paddedSize n)) dst).1 n = cells input n := by
  have hn := lt_paddedSize n
  have hcells := cells_eq_iff.mp (cells_convert_encryptBytes aes input output cipher dst h hc)
  have hlast := hcells (paddedSize n - 1) (by omega)
  rw [Nat.cast_sub (by omega)] at hlast
  have hpad : padded input n (((paddedSize n : ℕ) : ℤ) - (1 : ℕ)) =
      UInt8.ofNat (15 - n % 16) := by
    rw [padded, if_neg (by simp only [paddedSize]; omega), if_pos (by omega)]
  have hpadNat : (UInt8.ofNat (15 - n % 16)).toNat = 15 - n % 16 := by
    rw [UInt8.toNat_ofNat']
    omega
  have hdec := decryptBytes_eq aes cipher dst (k := n / 16 + 1) (by omega)
  rw [← paddedSize] at hdec
  rw [hdec]
  refine ⟨?_, ?_⟩
  · simp only [Nat.cast_one] at hlast hpad
    simp only [hlast, hpad, hpadNat]
    congr 1
    simp only [paddedSize]
    omega
  · rw [cells_eq_iff]
    intro i hi
    exact (hcells i (by omega)).trans (by rw [padded, if_pos (by omega)])

/-! ### Byte strings -/

/-- The bytes `encryptBytes` writes for the clear text `l`. -/
def cipherText (aes : Aes) (l : List UInt8) : List UInt8 :=
  cells (encryptBytes aes (load l fun _ => 0) (Int8.ofInt l.length) fun _ => 0).1
    (paddedSize l.length)

@[simp] theorem length_cipherText (aes : Aes) (l : List UInt8) :
    (cipherText aes l).length = paddedSize l.length := by
  simp [cipherText]

/-- What `encryptBytes` writes depends on the clear text alone, not on what the buffers held
around it. -/
theorem cells_encryptBytes (aes : Aes) {input : Mem UInt8} (output : Mem UInt8)
    {l : List UInt8} (h : l.length < 112) (hl : cells input l.length = l) :
    cells (encryptBytes aes input (Int8.ofInt l.length) output).1 (paddedSize l.length) =
      cipherText aes l := by
  apply cells_eq_of_block_eq
  intro i hi
  rw [encryptBytes_block aes input output h hi,
    encryptBytes_block aes (load l fun _ => 0) (fun _ => 0) h hi]
  congr 1
  apply block_eq_of_cells hi
  intro k hk
  unfold padded
  by_cases hkl : (k : ℤ) < l.length
  · rw [if_pos hkl, if_pos hkl]
    have hread : cells input l.length = cells (load l fun _ => 0) l.length := by
      rw [hl, cells_load]
    exact cells_eq_iff.mp hread k (by omega)
  · rw [if_neg hkl, if_neg hkl]

/-- Decrypting the cipher text of `l`. -/
theorem decryptBytes_cipherText (aes : Aes) {cipher : Mem UInt8} (dst : Mem UInt8)
    {l : List UInt8} (h : l.length < 112)
    (hc : cells cipher (paddedSize l.length) = cipherText aes l) :
    (decryptBytes aes cipher (Int8.ofInt (paddedSize l.length)) dst).2 = Int8.ofInt l.length ∧
      cells (decryptBytes aes cipher (Int8.ofInt (paddedSize l.length)) dst).1 l.length = l := by
  obtain ⟨hsize, hread⟩ :=
    decryptBytes_encryptBytes aes (load l fun _ => 0) (fun _ => 0) cipher dst h hc
  rw [cells_load] at hread
  exact ⟨hsize, hread⟩

/-! ### What is written, and what tells cipher texts apart -/

/-- `encryptBytes` writes the padded size and nothing else. -/
theorem encryptBytes_of_outside (aes : Aes) (input output : Mem UInt8) {n : ℕ} (h : n < 112)
    {k : ℤ} (hk : k < 0 ∨ paddedSize n ≤ k) :
    (encryptBytes aes input (Int8.ofInt n) output).1 k = output k := by
  have hn : (n : ℤ) + (15 - n % 16 : ℕ) + 1 = paddedSize n := by
    simp only [paddedSize]
    omega
  have hend : ((16 : ℕ) : ℤ) * (0 + (n / 16 + 1) : ℕ) = paddedSize n := by
    simp only [paddedSize]
    omega
  simp only [encryptBytes_eq aes input output h]
  rw [convertInPlace_of_outside aes _ _ _ (hk.imp (by omega) (by omega)), clearText,
    write_of_ne (by omega)]
  rcases hk with hk | hk
  · rw [copy_of_lt (by omega), copy_of_lt hk]
  · rw [copy_of_ge (by omega), copy_of_ge (by omega)]

/-- Cipher texts of different byte strings differ: the size is in the last block, and
decryption gives back the rest. -/
theorem cipherText_injective (aes : Aes) {l l' : List UInt8} (h : l.length < 112)
    (h' : l'.length < 112) (heq : cipherText aes l = cipherText aes l') : l = l' := by
  have hsize : paddedSize l.length = paddedSize l'.length := by
    simpa using congrArg List.length heq
  have hread : cells (load (cipherText aes l) fun _ => 0) (paddedSize l.length) =
      cipherText aes l := by
    rw [← length_cipherText aes l]
    exact cells_load _ _
  obtain ⟨hout, hcells⟩ := decryptBytes_cipherText aes (fun _ => 0) h hread
  obtain ⟨hout', hcells'⟩ := decryptBytes_cipherText aes (fun _ => 0) h'
    (by rw [← hsize, hread, heq])
  rw [← hsize] at hout' hcells'
  have hlen : l.length = l'.length := by
    have hint := congrArg Int8.toInt (hout.symm.trans hout')
    rw [toInt_ofInt8 (by omega), toInt_ofInt8 (by omega)] at hint
    exact_mod_cast hint
  exact hcells.symm.trans ((congrArg (cells _) hlen).trans hcells')

/-- **The byte cipher.** On every byte string whose padded size an `int8_t` holds,
`encryptBytes` reports the padded size, writes that many bytes and no others, and none of them
depends on what the output held before; `decryptBytes` gives back size and bytes; and different
byte strings have different cipher texts. -/
theorem encryptBytes_codec (aes : Aes) {m m' : List UInt8} {input input' : Mem UInt8}
    (output output' : Mem UInt8) (hm : m.length ≤ 111) (hm' : m'.length ≤ 111)
    (hin : cells input m.length = m) (hin' : cells input' m'.length = m') :
    let e := encryptBytes aes input (Int8.ofInt m.length) output
    let e' := encryptBytes aes input' (Int8.ofInt m'.length) output'
    e.2.toInt = (16 * (m.length / 16 + 1) : ℕ) ∧
    (∀ k : ℤ, k < 0 ∨ e.2.toInt ≤ k → e.1 k = output k) ∧
    (∀ other, cells (encryptBytes aes input (Int8.ofInt m.length) other).1
        (sizeT e.2.toInt) = cells e.1 (sizeT e.2.toInt)) ∧
    (∀ cipher dst, cells cipher (sizeT e.2.toInt) = cells e.1 (sizeT e.2.toInt) →
      (decryptBytes aes cipher e.2 dst).2.toInt = m.length ∧
        cells (decryptBytes aes cipher e.2 dst).1 m.length = m) ∧
    (m ≠ m' → cells e.1 (sizeT e.2.toInt) ≠ cells e'.1 (sizeT e'.2.toInt)) := by
  intro e e'
  have h : m.length < 112 := by omega
  have h' : m'.length < 112 := by omega
  have hout : e.2 = Int8.ofInt (paddedSize m.length) :=
    congrArg Prod.snd (encryptBytes_eq aes input output h)
  have hout' : e'.2 = Int8.ofInt (paddedSize m'.length) :=
    congrArg Prod.snd (encryptBytes_eq aes input' output' h')
  have hlt : ∀ {n : ℕ}, n < 112 → paddedSize n < 128 := by
    intro n hn
    simp only [paddedSize]
    omega
  have hsize : e.2.toInt = paddedSize m.length := by
    rw [hout]
    exact toInt_ofInt8 (hlt h)
  have hsize' : e'.2.toInt = paddedSize m'.length := by
    rw [hout']
    exact toInt_ofInt8 (hlt h')
  have hcells : ∀ other, cells (encryptBytes aes input (Int8.ofInt m.length) other).1
      (paddedSize m.length) = cipherText aes m :=
    fun other => cells_encryptBytes aes other h hin
  have hcells' : cells e'.1 (paddedSize m'.length) = cipherText aes m' :=
    cells_encryptBytes aes output' h' hin'
  rw [hsize, hsize', sizeT_of_nonneg (Nat.lt_trans (hlt h) (by decide)),
    sizeT_of_nonneg (Nat.lt_trans (hlt h') (by decide)), hout]
  refine ⟨rfl, ?_, ?_, ?_, ?_⟩
  · intro k hk
    exact encryptBytes_of_outside aes input output h hk
  · intro other
    exact (hcells other).trans (hcells output).symm
  · intro cipher dst hc
    obtain ⟨hdec, hread⟩ := decryptBytes_cipherText aes dst h (hc.trans (hcells output))
    exact ⟨by rw [hdec, toInt_ofInt8 (by omega)], hread⟩
  · intro hne heq
    rw [hcells output, hcells'] at heq
    exact hne (cipherText_injective aes h h' heq)

/-- Sixteen bytes, which need a second block, and the empty byte string. -/
theorem encryptBytes_codec_sixteen :
    let m := List.replicate 16 (7 : UInt8)
    let e := encryptBytes (Equiv.refl Block) (load m fun _ => 0) (Int8.ofInt m.length)
      fun _ => 0
    let e' := encryptBytes (Equiv.refl Block) (load [] fun _ => 0)
      (Int8.ofInt ([] : List UInt8).length) fun _ => 0
    e.2.toInt = (16 * (m.length / 16 + 1) : ℕ) ∧
    (∀ k : ℤ, k < 0 ∨ e.2.toInt ≤ k → e.1 k = 0) ∧
    (∀ other, cells (encryptBytes (Equiv.refl Block) (load m fun _ => 0) (Int8.ofInt m.length)
        other).1 (sizeT e.2.toInt) = cells e.1 (sizeT e.2.toInt)) ∧
    (∀ cipher dst, cells cipher (sizeT e.2.toInt) = cells e.1 (sizeT e.2.toInt) →
      (decryptBytes (Equiv.refl Block) cipher e.2 dst).2.toInt = m.length ∧
        cells (decryptBytes (Equiv.refl Block) cipher e.2 dst).1 m.length = m) ∧
    (m ≠ [] → cells e.1 (sizeT e.2.toInt) ≠ cells e'.1 (sizeT e'.2.toInt)) :=
  encryptBytes_codec (Equiv.refl Block) _ _ (by decide) (by decide)
    (cells_load _ _) (cells_load _ _)

end Cipher

end LCore
