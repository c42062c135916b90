import Mathlib.Algebra.BigOperators.Group.List.Basic
import Mathlib.Algebra.Field.Basic
import Mathlib.Algebra.Group.Hom.Basic
import Mathlib.Data.Fintype.Card
import Mathlib.GroupTheory.OrderOfElement
import Mathlib.Tactic.NormNum.Prime

/-!
# The Field of Bytes

A byte stands for a polynomial of degree less than 8 over the field with two elements, bit `i`
for the coefficient of `X ^ i`. Modulo `X ^ 8 + X ^ 4 + X ^ 3 + X + 1` these polynomials are a
field, the one AES computes in. Addition is the exclusive or; `double` is multiplication by `X`,
and everything about products follows from it, because products are additive in both factors
and every element is a sum of powers of `X`: `addHom_ext`.

## Main results

* `addHom_ext`: additive maps that agree on the powers of `X` are equal.
* `exists_three_pow`: every element but `0` is a power of `3`.
* the instance of `Field`, with computable operations.
-/

/-- An element of the field with 256 elements. -/
structure Gf256 where
  toByte : UInt8
  deriving DecidableEq

namespace Gf256

/-- An element is its byte. -/
theorem toByte_injective : Function.Injective toByte := by
  rintro ⟨a⟩ ⟨b⟩ h
  exact congrArg mk h

/-- What holds of the 256 bytes holds of every element. -/
theorem forall_of_lt {P : Gf256 → Prop} (h : ∀ n < 256, P ⟨UInt8.ofNat n⟩) (a : Gf256) : P a := by
  have ha := h a.toByte.toNat a.toByte.toNat_lt
  rwa [UInt8.ofNat_toNat] at ha

/-! ### Addition -/

instance : Zero Gf256 := ⟨⟨0⟩⟩

instance : One Gf256 := ⟨⟨1⟩⟩

instance : Add Gf256 := ⟨fun a b => ⟨a.toByte ^^^ b.toByte⟩⟩

instance : Neg Gf256 := ⟨id⟩

/-- Addition is the exclusive or of the bytes. -/
@[simp] theorem toByte_add (a b : Gf256) : (a + b).toByte = a.toByte ^^^ b.toByte := rfl

instance : AddCommGroup Gf256 where
  add_assoc _ _ _ := toByte_injective (UInt8.xor_assoc _ _ _)
  zero_add _ := toByte_injective UInt8.zero_xor
  add_zero _ := toByte_injective UInt8.xor_zero
  add_comm _ _ := toByte_injective (UInt8.xor_comm _ _)
  neg_add_cancel _ := toByte_injective UInt8.xor_self
  nsmul := nsmulRec
  zsmul := zsmulRec

/-- Every element is its own negative. -/
@[simp] theorem add_self (a : Gf256) : a + a = 0 := neg_add_cancel a

/-- The coefficient of `X ^ i`. -/
def coeff (a : Gf256) (i : ℕ) : Bool := a.toByte.toNat.testBit i

/-- Coefficients are added one by one. -/
theorem coeff_add (a b : Gf256) (i : ℕ) : (a + b).coeff i = (a.coeff i ^^ b.coeff i) := by
  rw [coeff, toByte_add, UInt8.toNat_xor, Nat.testBit_xor]
  rfl

/-- A choice by a coefficient is additive. -/
theorem ite_coeff_add {M : Type*} [AddCommGroup M] (htwo : ∀ x : M, x + x = 0) (a b : Gf256)
    (i : ℕ) (x : M) :
    (if (a + b).coeff i then x else 0) =
      (if a.coeff i then x else 0) + if b.coeff i then x else 0 := by
  rw [coeff_add]
  cases a.coeff i <;> cases b.coeff i <;> simp [htwo]

/-! ### Multiplication -/

/-- Multiplication by `X`. -/
def double : Gf256 →+ Gf256 where
  toFun a := ⟨(a.toByte <<< 1) ^^^ if a.coeff 7 then 0x1b else 0⟩
  map_zero' := by decide
  map_add' a b := by
    have hcarry : (if (a + b).coeff 7 then (⟨0x1b⟩ : Gf256) else 0) =
        (if a.coeff 7 then ⟨0x1b⟩ else 0) + if b.coeff 7 then ⟨0x1b⟩ else 0 :=
      ite_coeff_add add_self a b 7 ⟨0x1b⟩
    have hmk : ∀ c : Gf256, (⟨(c.toByte <<< 1) ^^^ if c.coeff 7 then 0x1b else 0⟩ : Gf256) =
        ⟨c.toByte <<< 1⟩ + if c.coeff 7 then ⟨0x1b⟩ else 0 := by
      intro c
      split <;> rfl
    have hshift : (⟨(a + b).toByte <<< 1⟩ : Gf256) = ⟨a.toByte <<< 1⟩ + ⟨b.toByte <<< 1⟩ :=
      toByte_injective UInt8.shiftLeft_xor
    rw [hmk, hmk, hmk, hcarry, hshift, add_add_add_comm]

/-- The sum of the shifts of `b` that the coefficients of `a` choose. -/
instance : Mul Gf256 :=
  ⟨fun a b => ((List.range 8).map fun i => if a.coeff i then double^[i] b else 0).sum⟩

theorem mul_def (a b : Gf256) :
    a * b = ((List.range 8).map fun i => if a.coeff i then double^[i] b else 0).sum := rfl

/-- Doubling is additive, however often it is done. -/
theorem iterate_double_add (i : ℕ) (a b : Gf256) :
    double^[i] (a + b) = double^[i] a + double^[i] b := by
  induction i with
  | zero => rfl
  | succ i ih => rw [Function.iterate_succ_apply', ih, map_add, Function.iterate_succ_apply',
      Function.iterate_succ_apply']

/-- Multiplication from the left. -/
def mulLeft (a : Gf256) : Gf256 →+ Gf256 :=
  AddMonoidHom.mk' (a * ·) fun b c => by
    rw [mul_def, mul_def, mul_def, ← List.sum_map_add]
    congr 1
    refine List.map_congr_left fun i _ => ?_
    split
    · exact iterate_double_add i b c
    · exact (add_zero 0).symm

/-- Multiplication from the right. -/
def mulRight (b : Gf256) : Gf256 →+ Gf256 :=
  AddMonoidHom.mk' (· * b) fun a a' => by
    rw [mul_def, mul_def, mul_def, ← List.sum_map_add]
    congr 1
    exact List.map_congr_left fun i _ => ite_coeff_add add_self a a' i _

@[simp] theorem mulLeft_apply (a b : Gf256) : mulLeft a b = a * b := rfl

@[simp] theorem mulRight_apply (a b : Gf256) : mulRight b a = a * b := rfl

/-- Multiplication by one, before the ring is there. -/
theorem mul_one_aux : ∀ a : Gf256, a * 1 = a := forall_of_lt (by decide +kernel)

/-- Every element is a sum of powers of `X`, so an additive map is given by its values there. -/
theorem addHom_ext {M : Type*} [AddCommMonoid M] {f g : Gf256 →+ M}
    (h : ∀ i < 8, f (double^[i] 1) = g (double^[i] 1)) : f = g := by
  ext a
  rw [← mul_one_aux a, mul_def, map_list_sum, map_list_sum, List.map_map, List.map_map]
  congr 1
  refine List.map_congr_left fun i hi => ?_
  simp only [Function.comp_apply]
  split
  · exact h i (List.mem_range.mp hi)
  · rw [map_zero, map_zero]

/-- A power of `X` shifts. -/
theorem iterate_double_one_mul {i : ℕ} (hi : i < 8) (b : Gf256) :
    (double^[i] 1 : Gf256) * b = double^[i] b := by
  have hcoeff : ∀ i < 8, ∀ j < 8, (double^[i] 1 : Gf256).coeff j = decide (j = i) := by
    decide +kernel
  have hmap : ((List.range 8).map fun j =>
      if (double^[i] 1 : Gf256).coeff j then double^[j] b else 0) =
      (List.range 8).map fun j => if j = i then double^[j] b else 0 := by
    refine List.map_congr_left fun j hj => ?_
    simp only [hcoeff i hi j (List.mem_range.mp hj), decide_eq_true_iff]
  have hcount : ∀ i < 8, (List.range 8).count i = 1 := by decide
  rw [mul_def, hmap, List.sum_map_ite_eq, hcount i hi, one_nsmul]
  simp

/-- A factor on the left can be doubled after the product. -/
theorem double_mul (a b : Gf256) : double a * b = double (a * b) := by
  have hred : ∀ b : Gf256, (⟨0x1b⟩ : Gf256) * b = double^[8] b := forall_of_lt (by decide +kernel)
  have hext : (mulRight b).comp double = double.comp (mulRight b) := by
    refine addHom_ext fun i hi => ?_
    simp only [AddMonoidHom.comp_apply, mulRight_apply, iterate_double_one_mul hi]
    rw [← Function.iterate_succ_apply' double, ← Function.iterate_succ_apply' double]
    rcases Nat.lt_or_ge (i + 1) 8 with h | h
    · exact iterate_double_one_mul h b
    · obtain rfl : i = 7 := by omega
      have htop : (double^[7 + 1] 1 : Gf256) = ⟨0x1b⟩ := by decide
      rw [htop, hred]
  exact DFunLike.congr_fun hext a

/-- So it can any number of times. -/
theorem iterate_double_mul (i : ℕ) (a b : Gf256) : double^[i] a * b = double^[i] (a * b) := by
  induction i with
  | zero => rfl
  | succ i ih => rw [Function.iterate_succ_apply', double_mul, ih, Function.iterate_succ_apply']

/-- A factor on the right can be doubled after the product. -/
theorem mul_double (a b : Gf256) : a * double b = double (a * b) := by
  rw [mul_def, mul_def, map_list_sum, List.map_map]
  congr 1
  refine List.map_congr_left fun i _ => ?_
  simp only [Function.comp_apply]
  split
  · rw [← Function.iterate_succ_apply, Function.iterate_succ_apply']
  · exact (map_zero double).symm

/-- So it can any number of times. -/
theorem mul_iterate_double (i : ℕ) (a b : Gf256) : a * double^[i] b = double^[i] (a * b) := by
  induction i with
  | zero => rfl
  | succ i ih => rw [Function.iterate_succ_apply', mul_double, ih, Function.iterate_succ_apply']

/-- Commutativity, before the ring is there. -/
theorem mul_comm_aux (a b : Gf256) : a * b = b * a := by
  have hext : mulRight b = mulLeft b := by
    refine addHom_ext fun i hi => ?_
    simp only [mulRight_apply, mulLeft_apply]
    rw [iterate_double_one_mul hi, mul_iterate_double, mul_one_aux]
  exact DFunLike.congr_fun hext a

/-- Associativity, before the ring is there. -/
theorem mul_assoc_aux (a b c : Gf256) : a * b * c = a * (b * c) := by
  have hext : (mulRight c).comp (mulRight b) = mulRight (b * c) := by
    refine addHom_ext fun i hi => ?_
    simp only [AddMonoidHom.comp_apply, mulRight_apply]
    rw [iterate_double_one_mul hi, iterate_double_one_mul hi, iterate_double_mul]
  exact DFunLike.congr_fun hext a

instance : CommRing Gf256 where
  left_distrib a b c := map_add (mulLeft a) b c
  right_distrib a b c := map_add (mulRight c) a b
  zero_mul a := map_zero (mulRight a)
  mul_zero a := map_zero (mulLeft a)
  mul_assoc := mul_assoc_aux
  one_mul a := (mul_comm_aux 1 a).trans (mul_one_aux a)
  mul_one := mul_one_aux
  mul_comm := mul_comm_aux
  neg_add_cancel := neg_add_cancel
  zsmul := zsmulRec

/-- Multiplication by `X`, as a product. -/
theorem double_eq (a : Gf256) : double a = ⟨2⟩ * a := by
  have htwo : (⟨2⟩ : Gf256) = double 1 := by decide
  rw [htwo, double_mul, one_mul]

/-! ### Powers of three -/

/-- A generator. -/
def three : Gf256 := ⟨3⟩

/-- Multiplication by three is doubling and adding. -/
theorem three_mul (a : Gf256) : three * a = double a + a := by
  have hthree : three = double 1 + 1 := by decide
  rw [hthree, add_mul, double_mul, one_mul]

/-- The powers of three, by repeated multiplication. -/
theorem three_pow (i : ℕ) : three ^ i = (fun a => double a + a)^[i] 1 := by
  induction i with
  | zero => rfl
  | succ i ih => rw [pow_succ', three_mul, ih, Function.iterate_succ_apply']

/-- Fermat's theorem for the generator. -/
theorem three_pow_255 : three ^ 255 = 1 := by
  rw [three_pow]
  decide +kernel

/-- Three generates all elements but zero. -/
theorem orderOf_three : orderOf three = 255 := by
  refine orderOf_eq_of_pow_and_pow_div_prime (by omega) three_pow_255 fun p hp hdvd => ?_
  have hfactor : p ∣ 3 * 5 * 17 := hdvd
  rw [hp.dvd_mul, hp.dvd_mul, Nat.prime_dvd_prime_iff_eq hp Nat.prime_three,
    Nat.prime_dvd_prime_iff_eq hp Nat.prime_five,
    Nat.prime_dvd_prime_iff_eq hp (by norm_num)] at hfactor
  rw [three_pow]
  rcases hfactor with (rfl | rfl) | rfl
  · decide +kernel
  · decide +kernel
  · decide +kernel

/-- The elements are the bytes. -/
def equivFin : Fin 256 ≃ Gf256 where
  toFun n := ⟨UInt8.ofNat n⟩
  invFun a := ⟨a.toByte.toNat, a.toByte.toNat_lt⟩
  left_inv n := Fin.ext (UInt8.toNat_ofNat_of_lt n.isLt)
  right_inv _ := toByte_injective UInt8.ofNat_toNat

instance : Fintype Gf256 := Fintype.ofEquiv (Fin 256) equivFin

/-- There are as many elements as bytes. -/
theorem card_eq : Fintype.card Gf256 = 256 := by
  rw [← Fintype.card_congr equivFin, Fintype.card_fin]

/-- Every element but `0` is a power of three: there are 255 powers, and none is `0`. -/
theorem exists_three_pow {a : Gf256} (ha : a ≠ 0) : ∃ i < 255, three ^ i = a := by
  have hne : ∀ i, three ^ i ≠ 0 := by
    intro i hzero
    have hpow : (three ^ i) ^ 255 = 1 := by
      rw [← pow_mul, Nat.mul_comm, pow_mul, three_pow_255, one_pow]
    rw [hzero, zero_pow (by omega)] at hpow
    exact absurd hpow (by decide)
  have hinj : Set.InjOn (three ^ ·) (Finset.range 255 : Set ℕ) := by
    rw [Finset.coe_range, ← orderOf_three]
    exact pow_injOn_Iio_orderOf
  have himage : (Finset.range 255).image (three ^ ·) = Finset.univ.erase 0 := by
    apply Finset.eq_of_subset_of_card_le
    · intro b hb
      obtain ⟨i, -, rfl⟩ := Finset.mem_image.mp hb
      exact Finset.mem_erase.mpr ⟨hne i, Finset.mem_univ _⟩
    · rw [Finset.card_image_of_injOn hinj, Finset.card_range,
        Finset.card_erase_of_mem (Finset.mem_univ _), Finset.card_univ, card_eq]
  have hmem : a ∈ (Finset.range 255).image (three ^ ·) := by
    rw [himage]
    exact Finset.mem_erase.mpr ⟨ha, Finset.mem_univ a⟩
  obtain ⟨i, hi, rfl⟩ := Finset.mem_image.mp hmem
  exact ⟨i, Finset.mem_range.mp hi, rfl⟩

/-- The powers of three repeat after 255. -/
theorem three_pow_mod (n : ℕ) : three ^ (n % 255) = three ^ n := by
  rw [← pow_eq_pow_mod n three_pow_255]

/-! ### The field -/

/-- The inverse of a power of three, and `0` for `0`. -/
instance : Inv Gf256 := ⟨fun a => a ^ 254⟩

/-- The inverse, before the field is there. -/
theorem mul_inv_cancel_aux {a : Gf256} (ha : a ≠ 0) : a * a⁻¹ = 1 := by
  obtain ⟨i, -, rfl⟩ := exists_three_pow ha
  calc three ^ i * (three ^ i) ^ 254 = (three ^ 255) ^ i := by
        rw [← pow_succ', ← pow_mul, ← pow_mul, Nat.mul_comm]
    _ = 1 := by rw [three_pow_255, one_pow]

instance : Field Gf256 where
  mul_inv_cancel _ ha := mul_inv_cancel_aux ha
  inv_zero := zero_pow (by omega)
  exists_pair_ne := ⟨0, 1, by decide⟩
  nnqsmul := _
  nnqsmul_def := fun _ _ => rfl
  qsmul := _
  qsmul_def := fun _ _ => rfl

/-- The inverse of a power of three, as another one. -/
theorem inv_three_pow {i : ℕ} (hi : i ≤ 255) : (three ^ i)⁻¹ = three ^ (255 - i) := by
  apply inv_eq_of_mul_eq_one_right
  rw [← pow_add, Nat.add_sub_cancel' hi, three_pow_255]

end Gf256
