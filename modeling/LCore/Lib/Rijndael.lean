import LCore.Lib.Gf256
import LCore.Lib.SpNetwork
import Mathlib.Data.Matrix.Mul
import Mathlib.LinearAlgebra.Matrix.Notation

/-!
# The Advanced Encryption Standard

AES as it is specified: a substitution-permutation network on four columns of four bytes, which
are elements of the field with 256 elements. The substitution inverts a byte and applies an
affine map to its bits, row `r` moves by `r` columns, and every column is multiplied by a fixed
invertible matrix. The round keys are made of words of four bytes that are expanded from a key
of 4, 6 or 8 words, which gives 10, 12 or 14 rounds.

## Main results

* `sbox`: the substitution of a byte, as a bijection.
* `network`: the layers of a round.
* `expandedKey_of_lt`, `expandedKey_of_le`: the words of the expanded key.
* `cipher`: AES under a key, as a bijection of states.
-/

namespace Rijndael

/-- A column of the state, or a word of a key: four bytes. -/
abbrev Column := Fin 4 → Gf256

/-- Four columns. -/
abbrev State := Fin 4 → Column

/-! ### The layers -/

/-- The bits moved up by `k` places, around the end. -/
def rotate (k : UInt8) (a : Gf256) : Gf256 := ⟨(a.toByte <<< k) ||| (a.toByte >>> (8 - k))⟩

/-- Every bit is added to four others, and a constant. -/
def affine (a : Gf256) : Gf256 :=
  a + rotate 1 a + rotate 2 a + rotate 3 a + rotate 4 a + ⟨0x63⟩

/-- The inverse of the affine map. -/
def affineInv (a : Gf256) : Gf256 := rotate 1 a + rotate 3 a + rotate 6 a + ⟨0x05⟩

/-- `affineInv` undoes `affine`. -/
theorem affineInv_affine : ∀ a, affineInv (affine a) = a :=
  Gf256.forall_of_lt (by decide +kernel)

/-- `affine` undoes `affineInv`. -/
theorem affine_affineInv : ∀ a, affine (affineInv a) = a :=
  Gf256.forall_of_lt (by decide +kernel)

/-- The substitution of a byte. -/
def sbox : Equiv.Perm Gf256 where
  toFun a := affine a⁻¹
  invFun a := (affineInv a)⁻¹
  left_inv a := by simp only [affineInv_affine, inv_inv]
  right_inv a := by simp only [inv_inv, affine_affineInv]

theorem sbox_apply (a : Gf256) : sbox a = affine a⁻¹ := rfl

/-- The substitution of every byte. -/
def subBytes : Equiv.Perm State :=
  Equiv.piCongrRight fun _ => Equiv.piCongrRight fun _ => sbox

/-- Row `r` moves by `r` columns. -/
def shiftRows : State ≃+ State where
  toFun s := fun c r => s (c + r) r
  invFun s := fun c r => s (c - r) r
  left_inv s := by
    funext c r
    simp only [sub_add_cancel]
  right_inv s := by
    funext c r
    simp only [add_sub_cancel_right]
  map_add' _ _ := rfl

/-- The bytes of a matrix as elements of the field. -/
def ofBytes (rows : Fin 4 → Fin 4 → UInt8) : Matrix (Fin 4) (Fin 4) Gf256 :=
  Matrix.of fun i j => ⟨rows i j⟩

/-- The matrix a column is multiplied by. -/
def mixMatrix : Matrix (Fin 4) (Fin 4) Gf256 :=
  ofBytes ![![0x02, 0x03, 0x01, 0x01], ![0x01, 0x02, 0x03, 0x01], ![0x01, 0x01, 0x02, 0x03],
    ![0x03, 0x01, 0x01, 0x02]]

/-- Its inverse. -/
def invMixMatrix : Matrix (Fin 4) (Fin 4) Gf256 :=
  ofBytes ![![0x0e, 0x0b, 0x0d, 0x09], ![0x09, 0x0e, 0x0b, 0x0d], ![0x0d, 0x09, 0x0e, 0x0b],
    ![0x0b, 0x0d, 0x09, 0x0e]]

/-- `invMixMatrix` undoes `mixMatrix`. -/
theorem invMixMatrix_mul : invMixMatrix * mixMatrix = 1 := by decide +kernel

/-- `mixMatrix` undoes `invMixMatrix`. -/
theorem mixMatrix_mul : mixMatrix * invMixMatrix = 1 := by decide +kernel

/-- Every column is mixed. -/
def mixColumns : State ≃+ State where
  toFun s := fun c => mixMatrix.mulVec (s c)
  invFun s := fun c => invMixMatrix.mulVec (s c)
  left_inv s := by
    funext c
    simp only [Matrix.mulVec_mulVec, invMixMatrix_mul, Matrix.one_mulVec]
  right_inv s := by
    funext c
    simp only [Matrix.mulVec_mulVec, mixMatrix_mul, Matrix.one_mulVec]
  map_add' s t := by
    funext c
    exact Matrix.mulVec_add _ _ _

/-- The layers of a round. -/
def network : SpNetwork State where
  sub := subBytes
  shift := shiftRows
  mix := mixColumns
  shift_sub _ := rfl

/-! ### Keys -/

/-- The substitution of every byte of a word. -/
def subWord (w : Column) : Column := fun r => sbox (w r)

/-- The bytes of a word moved by one place. -/
def rotWord (w : Column) : Column := fun r => w (r + 1)

/-- The round constant of the `i`-th time. -/
def rcon (i : ℕ) : Column := Pi.single 0 (⟨0x02⟩ ^ (i - 1))

/-- What word `i` of the expanded key adds to the word `nk` places before it, by the word before
it. -/
def schedule (nk i : ℕ) (w : Column) : Column :=
  if i % nk = 0 then subWord (rotWord w) + rcon (i / nk)
  else if 6 < nk ∧ i % nk = 4 then subWord w
  else w

/-- The words of the expanded key. -/
def expandedKey (nk : ℕ) (key : ℕ → Column) (i : ℕ) : Column :=
  if i < nk ∨ nk = 0 then key i
  else expandedKey nk key (i - nk) + schedule nk i (expandedKey nk key (i - 1))
termination_by i

/-- The first columns are those of the key. -/
theorem expandedKey_of_lt {nk i : ℕ} (key : ℕ → Column) (h : i < nk) :
    expandedKey nk key i = key i := by
  rw [expandedKey, if_pos (.inl h)]

/-- Every other column comes from the one `nk` before and from the last. -/
theorem expandedKey_of_le {nk i : ℕ} (key : ℕ → Column) (hnk : 0 < nk) (h : nk ≤ i) :
    expandedKey nk key i =
      expandedKey nk key (i - nk) + schedule nk i (expandedKey nk key (i - 1)) := by
  rw [expandedKey, if_neg (by omega)]

/-- The key of a round: four words. -/
def roundKey (nk : ℕ) (key : ℕ → Column) (n : ℕ) : State :=
  fun c => expandedKey nk key (4 * n + c)

/-- AES under a key of `nk` words: `nk + 6` rounds. -/
def cipher (nk : ℕ) (key : ℕ → Column) : Equiv.Perm State :=
  network.equiv (roundKey nk key) (nk + 5)

end Rijndael
