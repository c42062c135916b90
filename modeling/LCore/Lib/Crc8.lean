import Mathlib.Data.List.Basic
import Mathlib.Logic.Function.Iterate

/-!
# The 8-bit CRC

The cyclic redundancy check with the polynomial `x⁸ + x² + x + 1`, bit by bit from the highest
bit, starting from zero.

Summing a byte is injective in the register as well as in the byte, so two strings of one
length that differ in a single byte have different sums: `crc8_set_ne`.
-/

namespace Crc8

/-- One bit of the division: shift the register, and subtract the polynomial when a one falls
out. -/
def shiftOut (c : UInt8) : UInt8 :=
  if c &&& 0x80 ≠ 0 then (c <<< 1) ^^^ 0x07 else c <<< 1

/-- The register before `shiftOut`: the polynomial is odd, so the lowest bit tells whether it
was subtracted. -/
def shiftBack (c : UInt8) : UInt8 :=
  if c &&& 1 ≠ 0 then ((c ^^^ 0x07) >>> 1) ||| 0x80 else c >>> 1

/-- Sum one byte. -/
def add (c b : UInt8) : UInt8 := shiftOut^[8] (c ^^^ b)

/-- The sum of a string of bytes. -/
def crc8 (l : List UInt8) : UInt8 := l.foldl add 0

/-- A bit that is shifted out can be shifted back. -/
theorem shiftBack_shiftOut (c : UInt8) : shiftBack (shiftOut c) = c := by
  have h : ∀ n < 256, shiftBack (shiftOut (UInt8.ofNat n)) = UInt8.ofNat n := by decide +kernel
  have hc := h c.toNat c.toNat_lt
  rwa [UInt8.ofNat_toNat] at hc

/-- Shifting a bit out loses nothing. -/
theorem shiftOut_injective : Function.Injective shiftOut :=
  Function.LeftInverse.injective shiftBack_shiftOut

/-- So does combining with a byte. -/
theorem xor_left_injective (b : UInt8) : Function.Injective fun c : UInt8 => c ^^^ b := by
  intro c d h
  calc c = (c ^^^ b) ^^^ b := by rw [UInt8.xor_assoc, UInt8.xor_self, UInt8.xor_zero]
    _ = (d ^^^ b) ^^^ b := congrArg (· ^^^ b) h
    _ = d := by rw [UInt8.xor_assoc, UInt8.xor_self, UInt8.xor_zero]

/-- Different registers stay different when the same byte is added. -/
theorem add_left_injective (b : UInt8) : Function.Injective fun c => add c b :=
  (shiftOut_injective.iterate 8).comp (xor_left_injective b)

/-- Different bytes give different registers. -/
theorem add_right_injective (c : UInt8) : Function.Injective (add c) := by
  intro a b h
  have hxor := (shiftOut_injective.iterate 8) h
  rw [UInt8.xor_comm c a, UInt8.xor_comm c b] at hxor
  exact xor_left_injective c hxor

/-- A difference in the register is never summed away. -/
theorem foldl_add_injective (l : List UInt8) : Function.Injective fun c => l.foldl add c := by
  induction l with
  | nil => exact fun _ _ h => h
  | cons b l ih => exact ih.comp (add_left_injective b)

/-- Changing one byte changes the sum. -/
theorem crc8_set_ne {l : List UInt8} {i : ℕ} {b : UInt8} (hi : i < l.length) (hb : b ≠ l[i]) :
    crc8 (l.set i b) ≠ crc8 l := by
  have hset : l.set i b = l.take i ++ b :: l.drop (i + 1) := List.set_eq_take_append_cons_drop ▸
    if_pos hi
  have hsplit : l = l.take i ++ l[i] :: l.drop (i + 1) := by
    rw [← List.drop_eq_getElem_cons hi, List.take_append_drop]
  intro h
  rw [hset, crc8, crc8] at h
  conv at h => rhs; rw [hsplit]
  rw [List.foldl_append, List.foldl_append, List.foldl_cons, List.foldl_cons] at h
  exact hb (add_right_injective _ (foldl_add_injective _ h))

end Crc8
