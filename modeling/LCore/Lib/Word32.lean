import Mathlib.Data.Fin.VecNotation
import Mathlib.Data.Fintype.Basic
import Mathlib.Data.Nat.Bitwise
import Mathlib.Tactic.FinCases

/-!
# Words of Four Bytes

A 32-bit word and its bytes, the least significant one first: what the operations on words do to
the bytes, and words that are put together from bytes.

## Main results

* `ext`: a word is given by its bytes.
* `byte_xor`, `byte_or`, `byte_shiftLeft`, `byte_rotate`: the operations, byte by byte.
* `byte_join`: the bytes of a word that was put together from bytes.
-/

namespace Word32

/-- Byte `n` of a word. -/
def byte (n : ℕ) (x : UInt32) : UInt8 := ((x >>> UInt32.ofNat (8 * n)) &&& 0xff).toUInt8

/-- The bits of a byte are those of the word at its place. -/
theorem testBit_byte {n : ℕ} (hn : n < 4) (x : UInt32) (i : ℕ) :
    (byte n x).toNat.testBit i = (decide (i < 8) && x.toNat.testBit (8 * n + i)) := by
  have hshift : (UInt32.ofNat (8 * n)).toNat % 32 = 8 * n := by
    rw [UInt32.toNat_ofNat']
    omega
  have hmask : (0xff : UInt32).toNat = 2 ^ 8 - 1 := rfl
  rw [byte, UInt32.toNat_toUInt8, UInt32.toNat_and, UInt32.toNat_shiftRight, hshift, hmask,
    Nat.testBit_mod_two_pow, Nat.testBit_and, Nat.testBit_shiftRight, Nat.testBit_two_pow_sub_one]
  cases decide (i < 8) <;> simp

/-- The bits beyond the width of a number are zeros. -/
theorem testBit_of_width {w i x : ℕ} (hx : x < 2 ^ w) (hi : w ≤ i) : x.testBit i = false :=
  Nat.testBit_lt_two_pow (Nat.lt_of_lt_of_le hx (Nat.pow_le_pow_right (by omega) hi))

/-- Bytes with the same bits are the same. -/
theorem byte_ext {a b : UInt8} (h : ∀ i < 8, a.toNat.testBit i = b.toNat.testBit i) : a = b := by
  apply UInt8.toNat_inj.mp
  apply Nat.eq_of_testBit_eq
  intro i
  rcases Nat.lt_or_ge i 8 with hi | hi
  · exact h i hi
  · rw [testBit_of_width a.toNat_lt hi, testBit_of_width b.toNat_lt hi]

/-- A word is given by its bytes. -/
theorem ext {a b : UInt32} (h : ∀ n < 4, byte n a = byte n b) : a = b := by
  apply UInt32.toNat_inj.mp
  apply Nat.eq_of_testBit_eq
  intro i
  rcases Nat.lt_or_ge i 32 with hi | hi
  · have hbit := congrArg (fun c : UInt8 => c.toNat.testBit (i % 8)) (h (i / 8) (by omega))
    simpa only [testBit_byte (by omega : i / 8 < 4), Nat.mod_lt i (by omega : 8 > 0),
      decide_true, Bool.true_and, Nat.div_add_mod] using hbit
  · rw [testBit_of_width a.toNat_lt hi, testBit_of_width b.toNat_lt hi]

section Ops

variable {n : ℕ}

/-- The bytes of an exclusive or. -/
theorem byte_xor (hn : n < 4) (a b : UInt32) : byte n (a ^^^ b) = byte n a ^^^ byte n b := by
  refine byte_ext fun i hi => ?_
  rw [testBit_byte hn, UInt8.toNat_xor, UInt32.toNat_xor, Nat.testBit_xor, Nat.testBit_xor,
    testBit_byte hn, testBit_byte hn, decide_eq_true hi]
  simp

/-- The bytes of an or. -/
theorem byte_or (hn : n < 4) (a b : UInt32) : byte n (a ||| b) = byte n a ||| byte n b := by
  refine byte_ext fun i hi => ?_
  rw [testBit_byte hn, UInt8.toNat_or, UInt32.toNat_or, Nat.testBit_or, Nat.testBit_or,
    testBit_byte hn, testBit_byte hn, decide_eq_true hi]
  simp

/-- A byte that is moved to place `m`. -/
theorem byte_shiftLeft {m : ℕ} (hm : m < 4) (hn : n < 4) (x : UInt8) :
    byte n (x.toUInt32 <<< UInt32.ofNat (8 * m)) = if n = m then x else 0 := by
  have hshift : (UInt32.ofNat (8 * m)).toNat % 32 = 8 * m := by
    rw [UInt32.toNat_ofNat']
    omega
  refine byte_ext fun i hi => ?_
  rw [testBit_byte hn, UInt32.toNat_shiftLeft, hshift, Nat.testBit_mod_two_pow,
    Nat.testBit_shiftLeft, decide_eq_true hi, UInt8.toNat_toUInt32, Bool.true_and,
    decide_eq_true (by omega : 8 * n + i < 32), Bool.true_and]
  split
  · next h =>
    rw [h, decide_eq_true (by omega), Nat.add_sub_cancel_left, Bool.true_and]
  · next h =>
    rw [UInt8.toNat_zero, Nat.zero_testBit, Bool.and_eq_false_iff, decide_eq_false_iff_not]
    rcases Nat.lt_or_gt_of_ne h with hlt | hgt
    · exact .inl (by omega)
    · exact .inr (testBit_of_width x.toNat_lt (by omega))

/-- The bytes of a rotated word. -/
theorem byte_rotate (hn : n < 4) (x : UInt32) :
    byte n (((x <<< (8 : UInt32)) &&& 0xffffffff) ||| (x >>> (24 : UInt32))) =
      byte ((n + 3) % 4) x := by
  have hmask : (0xffffffff : UInt32).toNat = 2 ^ 32 - 1 := rfl
  have hleft : (8 : UInt32).toNat % 32 = 8 := rfl
  have hright : (24 : UInt32).toNat % 32 = 24 := rfl
  refine byte_ext fun i hi => ?_
  rw [testBit_byte hn, testBit_byte (Nat.mod_lt _ (by omega)), UInt32.toNat_or, UInt32.toNat_and,
    UInt32.toNat_shiftLeft, UInt32.toNat_shiftRight, hmask, hleft, hright, Nat.testBit_or,
    Nat.testBit_and, Nat.testBit_mod_two_pow, Nat.testBit_shiftLeft, Nat.testBit_shiftRight,
    Nat.testBit_two_pow_sub_one, decide_eq_true hi, decide_eq_true (by omega : 8 * n + i < 32),
    Bool.true_and, Bool.true_and, Bool.and_true]
  cases n with
  | zero =>
    rw [decide_eq_false (by omega : ¬ 8 * 0 + i ≥ 8), Bool.false_and, Bool.false_or]
    congr 1
    omega
  | succ n =>
    rw [decide_eq_true (by omega : 8 * (n + 1) + i ≥ 8), Bool.true_and,
      testBit_of_width (i := 24 + (8 * (n + 1) + i)) x.toNat_lt (by omega), Bool.or_false]
    congr 1
    omega

end Ops

/-! ### Words from bytes -/

/-- A byte shifted to its place is there, and the others are zero. -/
theorem byte_place {m n : ℕ} (hm : m < 4) (hn : n < 4) (x : UInt8) (s : UInt32)
    (hs : s = UInt32.ofNat (8 * m)) : byte n (x.toUInt32 <<< s) = if n = m then x else 0 := by
  rw [hs, byte_shiftLeft hm hn]

/-- A byte is the lowest of its word. -/
theorem byte_toUInt32 {n : ℕ} (hn : n < 4) (x : UInt8) :
    byte n x.toUInt32 = if n = 0 then x else 0 := by
  rw [← byte_place (m := 0) (by omega) hn x 0 rfl, UInt32.shiftLeft_zero]

/-- Four bytes, each in its place. -/
def join (b₀ b₁ b₂ b₃ : UInt8) : UInt32 :=
  b₀.toUInt32 ^^^ (b₁.toUInt32 <<< 8) ^^^ (b₂.toUInt32 <<< 16) ^^^ (b₃.toUInt32 <<< 24)

/-- The bytes of a word that was joined from bytes. -/
theorem byte_join (b : Fin 4 → UInt8) (r : Fin 4) :
    byte r (join (b 0) (b 1) (b 2) (b 3)) = b r := by
  simp only [join, byte_xor r.isLt, byte_toUInt32 r.isLt,
    byte_place (m := 1) (by omega) r.isLt _ 8 rfl, byte_place (m := 2) (by omega) r.isLt _ 16 rfl,
    byte_place (m := 3) (by omega) r.isLt _ 24 rfl]
  fin_cases r <;> simp

/-- The bytes may as well be joined by `|||`. -/
theorem join_eq_or (b₀ b₁ b₂ b₃ : UInt8) :
    join b₀ b₁ b₂ b₃ =
      b₀.toUInt32 ||| (b₁.toUInt32 <<< 8) ||| (b₂.toUInt32 <<< 16) ||| (b₃.toUInt32 <<< 24) := by
  refine ext fun n hn => ?_
  have hbyte := byte_join ![b₀, b₁, b₂, b₃] ⟨n, hn⟩
  refine hbyte.trans ?_
  simp only [byte_or hn, byte_toUInt32 hn, byte_place (m := 1) (by omega) hn _ 8 rfl,
    byte_place (m := 2) (by omega) hn _ 16 rfl, byte_place (m := 3) (by omega) hn _ 24 rfl]
  obtain rfl | rfl | rfl | rfl : n = 0 ∨ n = 1 ∨ n = 2 ∨ n = 3 := by omega
  all_goals simp

end Word32
