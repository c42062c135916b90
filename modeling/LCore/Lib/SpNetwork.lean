import Mathlib.Algebra.Group.Equiv.Basic

/-!
# Substitution-Permutation Networks

A block cipher of rounds over an additive group of states: every round substitutes, moves the
parts of the state around, mixes them and adds a round key. The last round does not mix. The
keys are a function of the round, so a key schedule is anything.

Substituting and moving commute, and moving and mixing are additive. This is why decryption can
be a network of the same shape, with the inverse layers and with round keys that have been taken
through the inverse mixing: `SpNetwork.inverse`, `SpNetwork.inverseKeys`.

## Main results

* `decrypt_encrypt`: the inverse network with the inverse keys undoes the network.
* `inverse_inverseKeys`: inverting twice gives the network and its keys back.
* `equiv`: a network with its keys is a bijection of the states.
-/

/-- The layers of a round. -/
structure SpNetwork (G : Type*) [AddCommGroup G] where
  sub : Equiv.Perm G
  shift : G ≃+ G
  mix : G ≃+ G
  shift_sub : ∀ x, shift (sub x) = sub (shift x)

namespace SpNetwork

variable {G : Type*} [AddCommGroup G]

section Defs

variable (N : SpNetwork G) (key : ℕ → G)

/-- The state before the round `n + 1`: the first key is added, and `n` rounds have mixed. -/
def rounds : ℕ → G → G
  | 0, x => x + key 0
  | n + 1, x => N.mix (N.shift (N.sub (rounds n x))) + key (n + 1)

/-- A network of `n + 1` rounds; the last one does not mix. -/
def encrypt (n : ℕ) (x : G) : G := N.shift (N.sub (N.rounds key n x)) + key (n + 1)

/-- The network of the inverse layers. -/
def inverse : SpNetwork G where
  sub := N.sub.symm
  shift := N.shift.symm
  mix := N.mix.symm
  shift_sub x := by
    have h := N.shift_sub (N.sub.symm (N.shift.symm x))
    rw [Equiv.apply_symm_apply, AddEquiv.apply_symm_apply] at h
    rw [AddEquiv.symm_apply_eq, Equiv.symm_apply_eq]
    exact h

/-- The keys of `n + 1` rounds for the inverse network, the last one first. -/
def inverseKeys (n : ℕ) (i : ℕ) : G :=
  if i = 0 ∨ i = n + 1 then -key (n + 1 - i) else -N.mix.symm (key (n + 1 - i))

end Defs

variable {N : SpNetwork G} {key : ℕ → G}

/-- A round of the inverse cipher undoes `sub` and `shift`. -/
theorem inverse_shift_sub (x : G) : N.inverse.shift (N.inverse.sub (N.shift (N.sub x))) = x := by
  rw [N.inverse.shift_sub]
  simp [inverse]

/-- Every round of the inverse network takes back a round of the network. -/
theorem rounds_inverse {n j : ℕ} (hj : j ≤ n) (x : G) :
    N.inverse.rounds (N.inverseKeys key n) j (N.encrypt key n x) =
      N.shift (N.sub (N.rounds key (n - j) x)) := by
  induction j with
  | zero => simp [rounds, encrypt, inverseKeys]
  | succ j ih =>
      have hkey : N.inverseKeys key n (j + 1) = -N.mix.symm (key (n - j)) := by
        rw [inverseKeys, if_neg (by omega), Nat.add_sub_add_right]
      obtain ⟨k, hk⟩ : ∃ k, n - j = k + 1 := ⟨n - j - 1, by omega⟩
      have hpred : n - (j + 1) = k := by omega
      rw [rounds, ih (by omega), inverse_shift_sub, hkey, hk, hpred, rounds]
      simp [inverse]

/-- The inverse network undoes the network. -/
theorem decrypt_encrypt (n : ℕ) (x : G) :
    N.inverse.encrypt (N.inverseKeys key n) n (N.encrypt key n x) = x := by
  rw [encrypt, rounds_inverse (Nat.le_refl _), inverse_shift_sub, Nat.sub_self, rounds]
  simp [inverseKeys]

@[simp] theorem inverse_inverse : N.inverse.inverse = N := rfl

/-- The keys of the inverse cipher, inverted, are the keys. -/
theorem inverse_inverseKeys {n i : ℕ} (hi : i ≤ n + 1) :
    N.inverse.inverseKeys (N.inverseKeys key n) n i = key i := by
  have hback : n + 1 - (n + 1 - i) = i := by omega
  rw [inverseKeys, inverseKeys, hback]
  by_cases hend : i = 0 ∨ i = n + 1
  · rw [if_pos hend, if_pos (by omega), neg_neg]
  · rw [if_neg hend, if_neg (by omega)]
    simp [inverse]

/-- Keys beyond the last round do not matter. -/
theorem rounds_congr {key' : ℕ → G} {n : ℕ} (h : ∀ i ≤ n, key i = key' i) (x : G) :
    N.rounds key n x = N.rounds key' n x := by
  induction n with
  | zero => rw [rounds, rounds, h 0 (Nat.le_refl _)]
  | succ n ih => rw [rounds, rounds, ih fun i hi => h i (by omega), h (n + 1) (Nat.le_refl _)]

/-- The cipher uses the keys of its rounds only. -/
theorem encrypt_congr {key' : ℕ → G} {n : ℕ} (h : ∀ i ≤ n + 1, key i = key' i) (x : G) :
    N.encrypt key n x = N.encrypt key' n x := by
  rw [encrypt, encrypt, rounds_congr fun i hi => h i (by omega), h (n + 1) (Nat.le_refl _)]

/-- The network undoes the inverse network. -/
theorem encrypt_decrypt (n : ℕ) (x : G) :
    N.encrypt key n (N.inverse.encrypt (N.inverseKeys key n) n x) = x := by
  have h : N.inverse.inverse.encrypt (N.inverse.inverseKeys (N.inverseKeys key n) n) n
      (N.inverse.encrypt (N.inverseKeys key n) n x) = x := decrypt_encrypt n x
  rwa [inverse_inverse, encrypt_congr fun i hi => inverse_inverseKeys hi] at h

/-- A network with its keys is a bijection. -/
def equiv (N : SpNetwork G) (key : ℕ → G) (n : ℕ) : Equiv.Perm G where
  toFun := N.encrypt key n
  invFun := N.inverse.encrypt (N.inverseKeys key n) n
  left_inv := decrypt_encrypt n
  right_inv := encrypt_decrypt n

end SpNetwork
