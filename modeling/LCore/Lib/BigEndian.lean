import Mathlib.Algebra.Order.Ring.Int
import Mathlib.Data.List.Induction

/-!
# Numbers as Big-Endian Byte Strings

`toBytes n x` is the `n`-byte big-endian form of `x`, the lowest `8 * n` bits; `ofBytes`
reads a byte string back. They are inverse to each other on `n` bytes and on the numbers
below `256 ^ n`.
-/

namespace BigEndian

/-- The number a byte string stands for, most significant byte first. -/
def ofBytes (l : List UInt8) : ℕ :=
  l.foldl (fun x b => x * 256 + b.toNat) 0

/-- The `n` lowest bytes of `x`, most significant first. -/
def toBytes : ℕ → ℕ → List UInt8
  | 0, _ => []
  | n + 1, x => toBytes n (x / 256) ++ [UInt8.ofNat x]

@[simp] theorem length_toBytes (n x : ℕ) : (toBytes n x).length = n := by
  induction n generalizing x with
  | zero => rfl
  | succ n ih => simp [toBytes, ih]

/-- A byte at the end is the lowest. -/
theorem ofBytes_append_singleton (l : List UInt8) (b : UInt8) :
    ofBytes (l ++ [b]) = ofBytes l * 256 + b.toNat := by
  simp [ofBytes]

/-- Reading back `n` bytes of a number gives its residue modulo `256 ^ n`. -/
theorem ofBytes_toBytes (n x : ℕ) : ofBytes (toBytes n x) = x % 256 ^ n := by
  induction n generalizing x with
  | zero => simp [toBytes, ofBytes, Nat.mod_one]
  | succ n ih =>
      rw [toBytes, ofBytes_append_singleton, ih, UInt8.toNat_ofNat']
      have hpow : 256 ^ (n + 1) = 256 * 256 ^ n := by rw [Nat.pow_succ, Nat.mul_comm]
      rw [hpow, Nat.mod_mul]
      omega

/-- A number that fits into `n` bytes is read back from them. -/
theorem ofBytes_toBytes_of_lt {n x : ℕ} (h : x < 256 ^ n) : ofBytes (toBytes n x) = x := by
  rw [ofBytes_toBytes, Nat.mod_eq_of_lt h]

/-- Bytes are read back from the number they give. -/
theorem toBytes_ofBytes (l : List UInt8) : toBytes l.length (ofBytes l) = l := by
  induction l using List.reverseRecOn with
  | nil => rfl
  | append_singleton l b ih =>
      have hb := b.toNat_lt
      have hdiv : (ofBytes l * 256 + b.toNat) / 256 = ofBytes l := by omega
      have hbyte : UInt8.ofNat (ofBytes l * 256 + b.toNat) = b := by
        apply UInt8.toNat_inj.mp
        rw [UInt8.toNat_ofNat']
        omega
      rw [List.length_append, List.length_singleton, ofBytes_append_singleton, toBytes, hdiv, ih,
        hbyte]

/-- Reading bytes one after the other from `x` puts them behind `x`. -/
theorem foldl_bytes (l : List UInt8) (x : ℕ) :
    l.foldl (fun x b => x * 256 + b.toNat) x = x * 256 ^ l.length + ofBytes l := by
  induction l generalizing x with
  | nil => simp [ofBytes]
  | cons c l ih =>
      have hc : ofBytes (c :: l) = (0 * 256 + c.toNat) * 256 ^ l.length + ofBytes l := ih _
      rw [List.foldl_cons, ih, hc, List.length_cons, Nat.pow_succ]
      simp only [Nat.zero_mul, Nat.zero_add, Nat.add_mul]
      rw [Nat.mul_assoc, Nat.mul_comm 256, Nat.add_assoc]

/-- A byte in front is the highest. -/
theorem ofBytes_cons (b : UInt8) (l : List UInt8) :
    ofBytes (b :: l) = b.toNat * 256 ^ l.length + ofBytes l := by
  have h : ofBytes (b :: l) = (0 * 256 + b.toNat) * 256 ^ l.length + ofBytes l :=
    foldl_bytes l _
  rw [h, Nat.zero_mul, Nat.zero_add]

/-- `n` bytes give a number below `256 ^ n`. -/
theorem ofBytes_lt (l : List UInt8) : ofBytes l < 256 ^ l.length := by
  induction l with
  | nil => simp [ofBytes]
  | cons b l ih =>
      rw [ofBytes_cons, List.length_cons, Nat.pow_succ]
      have hb := b.toNat_lt
      calc b.toNat * 256 ^ l.length + ofBytes l
          < b.toNat * 256 ^ l.length + 256 ^ l.length := by omega
        _ = (b.toNat + 1) * 256 ^ l.length := by rw [Nat.succ_mul]
        _ ≤ 256 * 256 ^ l.length := Nat.mul_le_mul_right _ (by omega)
        _ = 256 ^ l.length * 256 := Nat.mul_comm _ _

end BigEndian
