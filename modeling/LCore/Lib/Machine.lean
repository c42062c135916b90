import Mathlib.Algebra.Order.Ring.Int

/-!
# Conversions Between C Integer Types

Fixed-width values are Lean's own `UInt8`, `Int8`, `UInt32`, `Int32`, …; this module reads
the conversions between them as arithmetic on `ℕ` and `ℤ`, which is what `omega` works on.
A conversion to an unsigned type of width `w` is reduction modulo `2 ^ w`, one to a signed
type keeps the bit pattern.
-/

namespace Machine

/-- The conversion of a value to a 32-bit `size_t`. -/
def sizeT (z : ℤ) : ℕ := (z % 2 ^ 32).toNat

/-- A small number is the same as `size_t`. -/
theorem sizeT_of_nonneg {n : ℕ} (h : n < 2 ^ 32) : sizeT n = n := by
  simp only [sizeT]
  omega

/-- The byte of an integer is its residue. -/
theorem toNat_ofInt (z : ℤ) : (UInt8.ofInt z).toNat = (z % 256).toNat := by
  have h : UInt8.ofInt z = UInt8.ofNat (z % 2 ^ 8).toNat := rfl
  rw [h, UInt8.toNat_ofNat']
  omega

/-- A byte is read back from its number. -/
@[simp] theorem ofInt_toNat (a : UInt8) : UInt8.ofInt a.toNat = a := by
  have ha := a.toNat_lt
  apply UInt8.toNat_inj.mp
  rw [toNat_ofInt]
  omega

/-- A small number is the same as a signed byte. -/
theorem toInt_ofInt8 {n : ℕ} (h : n < 128) : (Int8.ofInt n).toInt = n :=
  Int8.toInt_ofInt_of_le (by omega) (by omega)

/-- An `int` stored as `int8_t` and read as `uint8_t`. -/
theorem toNat_toUInt8_ofInt (z : ℤ) : (Int8.ofInt z).toUInt8.toNat = (z % 256).toNat :=
  BitVec.toNat_ofInt z

/-- An `int32_t` converted to `uint64_t` is extended by its sign. -/
theorem toNat_toUInt64_toInt64 (x : Int32) :
    x.toInt64.toUInt64.toNat =
      if x.toUInt32.toNat < 2 ^ 31 then x.toUInt32.toNat
      else x.toUInt32.toNat + (2 ^ 64 - 2 ^ 32) := by
  have h : x.toInt64.toUInt64.toNat = (x.toBitVec.signExtend 64).toNat := rfl
  have hx : x.toUInt32.toNat = x.toBitVec.toNat := rfl
  have hlt := x.toBitVec.isLt
  rw [h, BitVec.toNat_signExtend, hx, BitVec.msb_eq_decide]
  simp only [BitVec.toNat_setWidth]
  by_cases hs : x.toBitVec.toNat < 2 ^ 31
  · rw [if_pos hs]
    have : decide (2 ^ (32 - 1) ≤ x.toBitVec.toNat) = false := by
      simp only [decide_eq_false_iff_not]
      omega
    rw [this]
    simp
    omega
  · rw [if_neg hs]
    have : decide (2 ^ (32 - 1) ≤ x.toBitVec.toNat) = true := by
      simp only [decide_eq_true_eq]
      omega
    rw [this]
    simp
    omega

end Machine
