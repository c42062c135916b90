import LCore.Lib.Memory
import LCore.Lib.Rijndael
import LCore.Lib.Word32

/-!
# The AES Tables

The lookup tables of `lib/aes/library/aes.c`. The library is built without tables in ROM:
`aes_gen_tables` fills them at run time, from the powers and the logarithms of 3 in the field of
bytes. Its loops are recursions here, on the number of rounds that are done. The two arrays on
the stack start with any contents.

A table entry holds a column of the mix, multiplied by a substituted byte; `Tables.Correct` says
so for every byte.

## Main results

* `powLogLoop_spec`: what the first loop leaves in the two arrays, after any number of rounds.
* `sboxLoop_spec`: the substitution and its inverse, as far as they are filled.
* `aesGenTables_correct`: the tables are correct, whatever they and the stack held before.
-/

open Memory Word32
open Rijndael (Column sbox affine mixMatrix invMixMatrix)

namespace LCore.Mbedtls

/-- The static tables. -/
structure Tables where
  fsb : Mem UInt8
  ft0 : Mem UInt32
  ft1 : Mem UInt32
  ft2 : Mem UInt32
  ft3 : Mem UInt32
  rsb : Mem UInt8
  rt0 : Mem UInt32
  rt1 : Mem UInt32
  rt2 : Mem UInt32
  rt3 : Mem UInt32
  rcon : Mem UInt32

/-- `MBEDTLS_BYTE_0` of an `int`. -/
def byte0 (x : ℕ) : ℕ := x &&& 0xff

/-- `ROTL8`. -/
def rotl8 (x : UInt32) : UInt32 := ((x <<< (8 : UInt32)) &&& 0xffffffff) ||| (x >>> (24 : UInt32))

/-- `XTIME`. -/
def xtime (x : ℕ) : ℕ := (x <<< 1) ^^^ if x &&& 0x80 ≠ 0 then 0x1b else 0x00

/-- `MUL`, with the arrays it finds on the stack. -/
def mul (pow log : Mem ℕ) (x y : ℕ) : ℕ :=
  if x ≠ 0 ∧ y ≠ 0 then pow ((log x + log y) % 255 : ℕ) else 0

/-! ### aes_gen_tables -/

/-- The variables of the first loop. -/
structure PowLog where
  x : ℕ
  pow : Mem ℕ
  log : Mem ℕ

/-- "compute pow and log tables over GF(2^8)": the variables before round `i`. -/
def powLogLoop (stack : Mem ℕ × Mem ℕ) : ℕ → PowLog
  | 0 => ⟨1, stack.1, stack.2⟩
  | i + 1 =>
    let s := powLogLoop stack i
    { x := byte0 (s.x ^^^ xtime s.x)
      pow := write s.pow i s.x
      log := write s.log s.x i }

/-- "calculate the round constants" -/
def rconLoop (rcon : Mem UInt32) : ℕ → ℕ × Mem UInt32
  | 0 => (1, rcon)
  | i + 1 =>
    let (x, rcon) := rconLoop rcon i
    (byte0 (xtime x), write rcon i (UInt32.ofNat x))

/-- The bits of an S-box entry, from those of an inverse. -/
def sboxByte (x : ℕ) : ℕ :=
  let y := x
  let y := byte0 ((y <<< 1) ||| (y >>> 7))
  let x := x ^^^ y
  let y := byte0 ((y <<< 1) ||| (y >>> 7))
  let x := x ^^^ y
  let y := byte0 ((y <<< 1) ||| (y >>> 7))
  let x := x ^^^ y
  let y := byte0 ((y <<< 1) ||| (y >>> 7))
  x ^^^ (y ^^^ 0x63)

/-- "generate the forward and reverse S-boxes": the entry of 0 stands before the loop, which
starts at 1. -/
def sboxLoop (pow log : Mem ℕ) (fsb rsb : Mem UInt8) : ℕ → Mem UInt8 × Mem UInt8
  | 0 => (write fsb 0x00 0x63, write rsb 0x63 0x00)
  | k + 1 =>
    let (fsb, rsb) := sboxLoop pow log fsb rsb k
    let i := k + 1
    let x := sboxByte (pow (255 - log i))
    (write fsb i (UInt8.ofNat x), write rsb x (UInt8.ofNat i))

/-- The forward entry for the byte that `FSb` holds. -/
def forwardEntry (b : UInt8) : UInt32 :=
  let x := b.toNat
  let y := byte0 (xtime x)
  let z := byte0 (y ^^^ x)
  UInt32.ofNat y ^^^ (UInt32.ofNat x <<< 8) ^^^ (UInt32.ofNat x <<< 16) ^^^ (UInt32.ofNat z <<< 24)

/-- The reverse entry for the byte that `RSb` holds. -/
def reverseEntry (pow log : Mem ℕ) (b : UInt8) : UInt32 :=
  let x := b.toNat
  UInt32.ofNat (mul pow log 0x0e x) ^^^ (UInt32.ofNat (mul pow log 0x09 x) <<< 8) ^^^
    (UInt32.ofNat (mul pow log 0x0d x) <<< 16) ^^^ (UInt32.ofNat (mul pow log 0x0b x) <<< 24)

/-- "generate the forward and reverse tables" -/
def tablesLoop (pow log : Mem ℕ) (t : Tables) : ℕ → Tables
  | 0 => t
  | i + 1 =>
    let t := tablesLoop pow log t i
    let ft0 := forwardEntry (t.fsb i)
    let ft1 := rotl8 ft0
    let ft2 := rotl8 ft1
    let ft3 := rotl8 ft2
    let rt0 := reverseEntry pow log (t.rsb i)
    let rt1 := rotl8 rt0
    let rt2 := rotl8 rt1
    let rt3 := rotl8 rt2
    { t with
      ft0 := write t.ft0 i ft0
      ft1 := write t.ft1 i ft1
      ft2 := write t.ft2 i ft2
      ft3 := write t.ft3 i ft3
      rt0 := write t.rt0 i rt0
      rt1 := write t.rt1 i rt1
      rt2 := write t.rt2 i rt2
      rt3 := write t.rt3 i rt3 }

/-- `aes_gen_tables`; `stack` is what its arrays `pow` and `log` hold when it starts. -/
def aesGenTables (stack : Mem ℕ × Mem ℕ) (t : Tables) : Tables :=
  let s := powLogLoop stack 256
  let rcon := (rconLoop t.rcon 10).2
  let boxes := sboxLoop s.pow s.log t.fsb t.rsb 255
  tablesLoop s.pow s.log { t with rcon, fsb := boxes.1, rsb := boxes.2 } 256

/-! ### The field -/

/-- An `int` that holds a byte, as an element of the field. -/
def gf (x : ℕ) : Gf256 := ⟨UInt8.ofNat x⟩

/-- The element of a byte. -/
theorem gf_toNat (b : UInt8) : gf b.toNat = ⟨b⟩ := by rw [gf, UInt8.ofNat_toNat]

/-- A byte is found again from its element. -/
theorem gf_inj {x y : ℕ} (hx : x < 256) (hy : y < 256) (h : gf x = gf y) : x = y := by
  have hbyte := congrArg (fun a : Gf256 => a.toByte.toNat) h
  simpa only [gf, UInt8.toNat_ofNat', Nat.mod_eq_of_lt hx, Nat.mod_eq_of_lt hy] using hbyte

/-- `xtime` multiplies by two. -/
theorem gf_xtime : ∀ x < 256, byte0 (xtime x) < 256 ∧ gf (byte0 (xtime x)) = ⟨0x02⟩ * gf x := by
  have h : ∀ x < 256, byte0 (xtime x) < 256 ∧ gf (byte0 (xtime x)) = Gf256.double (gf x) := by
    decide +kernel
  intro x hx
  rw [← Gf256.double_eq]
  exact h x hx

/-- Adding the number itself multiplies by three. -/
theorem gf_three : ∀ x < 256,
    byte0 (x ^^^ xtime x) < 256 ∧ gf (byte0 (x ^^^ xtime x)) = Gf256.three * gf x := by
  have h : ∀ x < 256, byte0 (x ^^^ xtime x) < 256 ∧
      gf (byte0 (x ^^^ xtime x)) = Gf256.double (gf x) + gf x := by
    decide +kernel
  intro x hx
  rw [Gf256.three_mul]
  exact h x hx

/-- The exclusive or of two bytes is the sum of their elements. -/
theorem gf_xor {x y : ℕ} (hx : x < 256) (hy : y < 256) :
    byte0 (x ^^^ y) < 256 ∧ gf (byte0 (x ^^^ y)) = gf x + gf y := by
  have hlt : x ^^^ y < 2 ^ 8 := Nat.xor_lt_two_pow hx hy
  have hmask : 0xff = 2 ^ 8 - 1 := rfl
  have hbyte : byte0 (x ^^^ y) = x ^^^ y := by
    rw [byte0, hmask, Nat.and_two_pow_sub_one_eq_mod, Nat.mod_eq_of_lt hlt]
  rw [hbyte]
  refine ⟨hlt, Gf256.toByte_injective (UInt8.toNat_inj.mp ?_)⟩
  simp only [gf, Gf256.toByte_add, UInt8.toNat_xor, UInt8.toNat_ofNat', Nat.mod_eq_of_lt hlt,
    Nat.mod_eq_of_lt hx, Nat.mod_eq_of_lt hy]

/-- `sboxByte` is the affine map. -/
theorem gf_sboxByte : ∀ x < 256, sboxByte x < 256 ∧ gf (sboxByte x) = affine (gf x) := by
  decide +kernel

/-! ### The loops -/

/-- Before round `i` the array `pow` holds the powers that are smaller than `i`, and `log` finds
one of these exponents for each of them. -/
structure PowLog.Spec (s : PowLog) (i : ℕ) : Prop where
  x_lt : s.x < 256
  x : gf s.x = Gf256.three ^ i
  pow : ∀ j < i, s.pow j < 256 ∧ gf (s.pow j) = Gf256.three ^ j
  log : ∀ j < i, ∀ a < 256, gf a = Gf256.three ^ j → s.log a < i ∧ gf a = Gf256.three ^ s.log a

/-- The powers and logarithms after `i` turns. -/
theorem powLogLoop_spec (stack : Mem ℕ × Mem ℕ) (i : ℕ) : (powLogLoop stack i).Spec i := by
  induction i with
  | zero =>
      exact ⟨(by omega : 1 < 256), rfl, fun j hj => absurd hj (by omega),
        fun j hj => absurd hj (by omega)⟩
  | succ i ih =>
      set s := powLogLoop stack i with hs
      obtain ⟨hlt, hnext⟩ := gf_three s.x ih.x_lt
      refine ⟨hlt, ?_, fun j hj => ?_, fun j hj a ha hgf => ?_⟩
      · rw [pow_succ', ← ih.x]
        exact hnext
      · simp only [powLogLoop, ← hs]
        by_cases hji : j = i
        · rw [hji, write_same]
          exact ⟨ih.x_lt, ih.x⟩
        · rw [write_of_ne (by omega)]
          exact ih.pow j (by omega)
      · simp only [powLogLoop, ← hs]
        -- the last write decides, so an exponent may be found again
        by_cases hax : a = s.x
        · rw [hax, write_same]
          exact ⟨by omega, ih.x⟩
        · rw [write_of_ne (by omega)]
          have hji : j ≠ i := by
            rintro rfl
            exact hax (gf_inj ha ih.x_lt (hgf.trans ih.x.symm))
          obtain ⟨hlog, heq⟩ := ih.log j (by omega) a ha hgf
          exact ⟨by omega, heq⟩

/-- What the later loops read of the two arrays. -/
structure PowLog.Full (pow log : Mem ℕ) : Prop where
  pow : ∀ j < 256, pow (j : ℕ) < 256 ∧ gf (pow (j : ℕ)) = Gf256.three ^ j
  log : ∀ a < 256, a ≠ 0 → log (a : ℕ) < 256 ∧ gf a = Gf256.three ^ log (a : ℕ)

/-- After 256 turns the two tables are full. -/
theorem powLogLoop_full (stack : Mem ℕ × Mem ℕ) :
    PowLog.Full (powLogLoop stack 256).pow (powLogLoop stack 256).log := by
  have hspec := powLogLoop_spec stack 256
  refine ⟨hspec.pow, fun a ha hne => ?_⟩
  have hgf : gf a ≠ 0 := fun h => hne (gf_inj ha (by omega) h)
  obtain ⟨j, hj, hpow⟩ := Gf256.exists_three_pow hgf
  exact hspec.log j (by omega) a ha hpow.symm

/-- The round constants after `i` turns are powers of two. -/
theorem rconLoop_spec (rcon : Mem UInt32) (i : ℕ) :
    (rconLoop rcon i).1 < 256 ∧ gf (rconLoop rcon i).1 = ⟨0x02⟩ ^ i ∧
      ∀ j < i, ∃ x < 256, (rconLoop rcon i).2 (j : ℕ) = UInt32.ofNat x ∧ gf x = ⟨0x02⟩ ^ j := by
  induction i with
  | zero => exact ⟨(by omega : 1 < 256), rfl, fun j hj => absurd hj (by omega)⟩
  | succ i ih =>
      obtain ⟨hlt, hgf, hfilled⟩ := ih
      obtain ⟨hnext, hdouble⟩ := gf_xtime _ hlt
      refine ⟨hnext, ?_, fun j hj => ?_⟩
      · rw [pow_succ', ← hgf]
        exact hdouble
      · simp only [rconLoop]
        by_cases hji : j = i
        · rw [hji, write_same]
          exact ⟨_, hlt, rfl, hgf⟩
        · rw [write_of_ne (by omega)]
          exact hfilled j (by omega)

section Sbox

variable {pow log : Mem ℕ}

/-- The power of the opposite logarithm is the inverse. -/
theorem gf_pow_log (h : PowLog.Full pow log) {i : ℕ} (hi : i < 256) (hne : i ≠ 0) :
    pow (255 - log i) < 256 ∧ gf (pow (255 - log i)) = (gf i)⁻¹ := by
  obtain ⟨hlt, hlog⟩ := h.log i hi hne
  have hindex : (255 - log i : ℤ) = (255 - log i : ℕ) := by omega
  rw [hlog, Gf256.inv_three_pow (by omega), hindex]
  exact h.pow _ (by omega)

/-- After `k` rounds the entries of the bytes up to `k` are there, in both directions. -/
theorem sboxLoop_spec (h : PowLog.Full pow log) (fsb rsb : Mem UInt8) {k : ℕ} (hk : k ≤ 255) :
    ∀ i ≤ k, (⟨(sboxLoop pow log fsb rsb k).1 i⟩ : Gf256) = sbox (gf i) ∧
      (sboxLoop pow log fsb rsb k).2 (sbox (gf i)).toByte.toNat = UInt8.ofNat i := by
  induction k with
  | zero =>
      intro i hi
      obtain rfl : i = 0 := by omega
      have hzero : sbox (gf 0) = ⟨0x63⟩ := by decide +kernel
      rw [hzero]
      exact ⟨rfl, rfl⟩
  | succ k ih =>
      obtain ⟨hinv, hgf⟩ := gf_pow_log h (by omega : k + 1 < 256) (by omega)
      obtain ⟨hlt, haffine⟩ := gf_sboxByte _ hinv
      rw [hgf, ← Rijndael.sbox_apply] at haffine
      have hbyte : (sbox (gf (k + 1))).toByte.toNat =
          sboxByte (pow (255 - log (k + 1 : ℕ))) := by
        rw [← haffine, gf, UInt8.toNat_ofNat', Nat.mod_eq_of_lt hlt]
      intro i hi
      simp only [sboxLoop]
      by_cases hik : i = k + 1
      · rw [hik, write_same, hbyte, write_same]
        exact ⟨haffine, rfl⟩
      · obtain ⟨hforward, hreverse⟩ := ih (by omega) i (by omega)
        rw [write_of_ne (by omega), write_of_ne, hreverse]
        · exact ⟨hforward, rfl⟩
        · -- the substitution is injective: no entry is written twice
          intro hindex
          rw [← hbyte, Int.natCast_inj, UInt8.toNat_inj] at hindex
          have hsame := sbox.injective (Gf256.toByte_injective hindex)
          exact hik (gf_inj (by omega) (by omega) hsame)

end Sbox

/-! ### The entries -/

/-- The bytes of a word as a column. -/
def column (x : UInt32) : Column := fun r => ⟨byte r x⟩

/-- Columns are added byte by byte. -/
theorem column_xor (x y : UInt32) : column (x ^^^ y) = column x + column y := by
  funext r
  exact Gf256.toByte_injective (byte_xor r.isLt x y)

/-- A word is its column. -/
theorem column_injective : Function.Injective column := by
  intro x y h
  refine Word32.ext fun n hn => ?_
  exact congrArg Gf256.toByte (congrFun h ⟨n, hn⟩)

/-- The column of a word that was joined from bytes. -/
theorem column_join (b : Fin 4 → UInt8) :
    column (join (b 0) (b 1) (b 2) (b 3)) = fun r => ⟨b r⟩ := by
  funext r
  rw [column, byte_join]

/-- Rotating a word rotates its column. -/
theorem column_rotl8 (x : UInt32) (r : Fin 4) : column (rotl8 x) r = column x (r - 1) := by
  have hindex : (r.val + 3) % 4 = (r - 1).val := by
    revert r
    decide
  rw [column, column, rotl8, byte_rotate r.isLt, hindex]

/-- A small number is the word of its byte. -/
theorem ofNat_eq_toUInt32 {x : ℕ} (hx : x < 256) : UInt32.ofNat x = (UInt8.ofNat x).toUInt32 := by
  apply UInt32.toNat_inj.mp
  rw [UInt32.toNat_ofNat', UInt8.toNat_toUInt32, UInt8.toNat_ofNat']
  omega

/-- Four small numbers, each in its place, as a column. -/
theorem column_place {x₀ x₁ x₂ x₃ : ℕ} (h₀ : x₀ < 256) (h₁ : x₁ < 256) (h₂ : x₂ < 256)
    (h₃ : x₃ < 256) :
    column (UInt32.ofNat x₀ ^^^ (UInt32.ofNat x₁ <<< 8) ^^^ (UInt32.ofNat x₂ <<< 16) ^^^
      (UInt32.ofNat x₃ <<< 24)) = ![gf x₀, gf x₁, gf x₂, gf x₃] := by
  rw [ofNat_eq_toUInt32 h₀, ofNat_eq_toUInt32 h₁, ofNat_eq_toUInt32 h₂, ofNat_eq_toUInt32 h₃]
  refine (column_join ![UInt8.ofNat x₀, UInt8.ofNat x₁, UInt8.ofNat x₂, UInt8.ofNat x₃]).trans ?_
  funext r
  fin_cases r <;> rfl

/-- A column of the mix is the one before it, moved by a row. -/
theorem mixMatrix_succ : ∀ r k : Fin 4, mixMatrix r (k + 1) = mixMatrix (r - 1) k := by decide

/-- The rows of `invMixMatrix` are rotations of one another. -/
theorem invMixMatrix_succ : ∀ r k : Fin 4, invMixMatrix r (k + 1) = invMixMatrix (r - 1) k := by
  decide

/-- An entry of the first forward table is a multiple of the first column of `mixMatrix`. -/
theorem column_forwardEntry (b : UInt8) :
    column (forwardEntry b) = fun r => mixMatrix r 0 * ⟨b⟩ := by
  obtain ⟨hy, hdouble⟩ := gf_xtime b.toNat b.toNat_lt
  obtain ⟨hz, htriple⟩ := gf_xor hy b.toNat_lt
  rw [forwardEntry, column_place hy b.toNat_lt b.toNat_lt hz, htriple, hdouble, gf_toNat]
  funext r
  fin_cases r
  · rfl
  · exact (one_mul _).symm
  · exact (one_mul _).symm
  · exact (Gf256.three_mul ⟨b⟩).trans (by rw [Gf256.double_eq]; rfl) |>.symm

/-- `mul` is the product, by logarithms. -/
theorem gf_mul {pow log : Mem ℕ} (h : PowLog.Full pow log) {x y : ℕ} (hx : x < 256)
    (hy : y < 256) (hne : x ≠ 0) : mul pow log x y < 256 ∧ gf (mul pow log x y) = gf x * gf y := by
  obtain ⟨-, hlogx⟩ := h.log x hx hne
  by_cases hzero : y = 0
  · rw [mul, if_neg (by omega), hzero]
    exact ⟨by omega, (mul_zero _).symm⟩
  · obtain ⟨-, hlogy⟩ := h.log y hy hzero
    obtain ⟨hlt, hpow⟩ := h.pow ((log x + log y) % 255) (by omega)
    rw [mul, if_pos ⟨hne, hzero⟩]
    exact ⟨hlt, by rw [hpow, Gf256.three_pow_mod, pow_add, ← hlogx, ← hlogy]⟩

/-- An entry of the first reverse table is a multiple of the first column of `invMixMatrix`. -/
theorem column_reverseEntry {pow log : Mem ℕ} (h : PowLog.Full pow log) (b : UInt8) :
    column (reverseEntry pow log b) = fun r => invMixMatrix r 0 * ⟨b⟩ := by
  obtain ⟨he, hemul⟩ := gf_mul h (by omega : 0x0e < 256) b.toNat_lt (by omega)
  obtain ⟨h9, h9mul⟩ := gf_mul h (by omega : 0x09 < 256) b.toNat_lt (by omega)
  obtain ⟨hd, hdmul⟩ := gf_mul h (by omega : 0x0d < 256) b.toNat_lt (by omega)
  obtain ⟨hb, hbmul⟩ := gf_mul h (by omega : 0x0b < 256) b.toNat_lt (by omega)
  rw [reverseEntry, column_place he h9 hd hb, hemul, h9mul, hdmul, hbmul, gf_toNat]
  funext r
  fin_cases r <;> rfl

/-! ### The tables -/

/-- The forward tables, by the row they read. -/
def Tables.ft (t : Tables) : Fin 4 → Mem UInt32 := ![t.ft0, t.ft1, t.ft2, t.ft3]

/-- The reverse tables. -/
def Tables.rt (t : Tables) : Fin 4 → Mem UInt32 := ![t.rt0, t.rt1, t.rt2, t.rt3]

/-- The tables are those of the cipher: entry `b` of table `k` is column `k` of the mix, times
the substituted byte. -/
structure Tables.Correct (t : Tables) : Prop where
  fsb : ∀ b : UInt8, (⟨t.fsb b.toNat⟩ : Gf256) = sbox ⟨b⟩
  rsb : ∀ b : UInt8, (⟨t.rsb b.toNat⟩ : Gf256) = sbox.symm ⟨b⟩
  ft : ∀ (k : Fin 4) (b : UInt8), column (t.ft k b.toNat) = fun r => mixMatrix r k * sbox ⟨b⟩
  rt : ∀ (k : Fin 4) (b : UInt8),
    column (t.rt k b.toNat) = fun r => invMixMatrix r k * sbox.symm ⟨b⟩
  rcon : ∀ i < 10, column (t.rcon (i : ℕ)) = Rijndael.rcon (i + 1)

/-- The loop fills the entries below `n` and leaves the other arrays alone. -/
theorem tablesLoop_spec (pow log : Mem ℕ) (t : Tables) (n : ℕ) :
    (tablesLoop pow log t n).fsb = t.fsb ∧ (tablesLoop pow log t n).rsb = t.rsb ∧
      (tablesLoop pow log t n).rcon = t.rcon ∧
      ∀ i < n, ∀ k : Fin 4,
        (tablesLoop pow log t n).ft k (i : ℕ) = rotl8^[k.val] (forwardEntry (t.fsb i)) ∧
        (tablesLoop pow log t n).rt k (i : ℕ) = rotl8^[k.val] (reverseEntry pow log (t.rsb i)) := by
  induction n with
  | zero => exact ⟨rfl, rfl, rfl, fun i hi => absurd hi (by omega)⟩
  | succ n ih =>
      obtain ⟨hfsb, hrsb, hrcon, hfilled⟩ := ih
      refine ⟨hfsb, hrsb, hrcon, fun i hi k => ?_⟩
      by_cases hin : i = n
      · subst hin
        simp only [Tables.ft, Tables.rt, tablesLoop, hfsb, hrsb]
        fin_cases k <;> exact ⟨write_same .., write_same ..⟩
      · obtain ⟨hforward, hreverse⟩ := hfilled i (by omega) k
        have hne : (i : ℤ) ≠ n := by omega
        rw [← hforward, ← hreverse]
        fin_cases k <;> exact ⟨write_of_ne hne, write_of_ne hne⟩

/-- Rotating an entry takes it from the first table to the others. -/
theorem column_iterate_rotl8 {M : Matrix (Fin 4) (Fin 4) Gf256}
    (hM : ∀ r k, M r (k + 1) = M (r - 1) k) {x : UInt32} {a : Gf256}
    (hx : column x = fun r => M r 0 * a) (k : Fin 4) :
    column (rotl8^[k.val] x) = fun r => M r k * a := by
  have hstep : ∀ (y : UInt32) (k : Fin 4), (column y = fun r => M r k * a) →
      column (rotl8 y) = fun r => M r (k + 1) * a := by
    intro y k hy
    funext r
    rw [column_rotl8, hy, hM]
  fin_cases k
  · exact hx
  · exact hstep _ 0 hx
  · exact hstep _ 1 (hstep _ 0 hx)
  · exact hstep _ 2 (hstep _ 1 (hstep _ 0 hx))

/-- The word of a round constant. -/
theorem column_rcon {x i : ℕ} (hx : x < 256) (hgf : gf x = ⟨0x02⟩ ^ i) :
    column (UInt32.ofNat x) = Rijndael.rcon (i + 1) := by
  have hzero : 0 < 256 := by omega
  have hplace := column_place hx hzero hzero hzero
  have hword : UInt32.ofNat x ^^^ (UInt32.ofNat 0 <<< 8) ^^^ (UInt32.ofNat 0 <<< 16) ^^^
      (UInt32.ofNat 0 <<< 24) = UInt32.ofNat x :=
    UInt32.xor_zero.trans (UInt32.xor_zero.trans UInt32.xor_zero)
  rw [hword] at hplace
  rw [hplace, Rijndael.rcon, Nat.add_sub_cancel, ← hgf]
  funext r
  fin_cases r <;> rfl

/-- The two boxes after the loop over all bytes. -/
theorem sboxLoop_correct {pow log : Mem ℕ} (h : PowLog.Full pow log) (fsb rsb : Mem UInt8)
    {n : ℕ} (hn : n = 255) (b : UInt8) :
    (⟨(sboxLoop pow log fsb rsb n).1 b.toNat⟩ : Gf256) = sbox ⟨b⟩ ∧
      (⟨(sboxLoop pow log fsb rsb n).2 b.toNat⟩ : Gf256) = sbox.symm ⟨b⟩ := by
  have hsbox := sboxLoop_spec h fsb rsb (by omega : n ≤ 255)
  have hle : ∀ c : UInt8, c.toNat ≤ n := by
    intro c
    have := c.toNat_lt
    omega
  constructor
  · have hentry := (hsbox b.toNat (hle b)).1
    rwa [gf_toNat] at hentry
  · -- the byte is the substitution of another one
    obtain ⟨⟨a⟩, ha⟩ := sbox.surjective ⟨b⟩
    have hentry := (hsbox a.toNat (hle a)).2
    rw [gf_toNat, ha, UInt8.ofNat_toNat] at hentry
    rw [hentry, ← ha, Equiv.symm_apply_apply]

/-- The eight tables after the loop over all bytes. -/
theorem tablesLoop_correct {pow log : Mem ℕ} (h : PowLog.Full pow log) {t : Tables} {n : ℕ}
    (hn : n = 256) (hfsb : ∀ b : UInt8, (⟨t.fsb b.toNat⟩ : Gf256) = sbox ⟨b⟩)
    (hrsb : ∀ b : UInt8, (⟨t.rsb b.toNat⟩ : Gf256) = sbox.symm ⟨b⟩)
    (hrcon : ∀ i < 10, column (t.rcon (i : ℕ)) = Rijndael.rcon (i + 1)) :
    (tablesLoop pow log t n).Correct := by
  obtain ⟨hkeepf, hkeepr, hkeepc, hfilled⟩ := tablesLoop_spec pow log t n
  have hlt : ∀ b : UInt8, b.toNat < n := by
    intro b
    have := b.toNat_lt
    omega
  refine ⟨?_, ?_, fun k b => ?_, fun k b => ?_, ?_⟩
  · rwa [hkeepf]
  · rwa [hkeepr]
  · rw [(hfilled b.toNat (hlt b) k).1, ← hfsb]
    exact column_iterate_rotl8 mixMatrix_succ (column_forwardEntry _) k
  · rw [(hfilled b.toNat (hlt b) k).2, ← hrsb]
    exact column_iterate_rotl8 invMixMatrix_succ (column_reverseEntry h _) k
  · rwa [hkeepc]

/-- The tables are correct once they are generated. -/
theorem aesGenTables_correct (stack : Mem ℕ × Mem ℕ) (t : Tables) :
    (aesGenTables stack t).Correct := by
  have hfull := powLogLoop_full stack
  obtain ⟨-, -, hrcon⟩ := rconLoop_spec t.rcon 10
  rw [aesGenTables]
  refine tablesLoop_correct hfull rfl (fun b => ?_) (fun b => ?_) fun i hi => ?_
  all_goals dsimp only
  · exact (sboxLoop_correct hfull t.fsb t.rsb rfl b).1
  · exact (sboxLoop_correct hfull t.fsb t.rsb rfl b).2
  · obtain ⟨x, hx, heq, hgf⟩ := hrcon i hi
    rw [heq]
    exact column_rcon hx hgf

end LCore.Mbedtls
