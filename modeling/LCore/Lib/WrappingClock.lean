import Mathlib.Algebra.Order.Ring.Int

/-!
# Deadlines on a Clock That Wraps

A clock with `w` values shows the instant `t` as `t % w`. The time that has passed since a
reading is a difference of two readings. Taken in a counter of `v` values that is wider than
the clock, the difference of readings on two sides of a wrap is not the time that has passed,
but a number close to `v`.

`widened_lt_iff` says when such a difference is below a limit, and `widened_exact_iff` when this
is the right answer: `Faithful`.
-/

namespace WrappingClock

variable {w v limit start now : ℕ}

/-- What a clock of `w` values shows at the instant `t`. -/
def reading (w t : ℕ) : ℕ := t % w

/-- The difference of two readings in a counter of `v` values. -/
def widened (w v start now : ℕ) : ℕ := (v - reading w start + reading w now) % v

/-- Between two instants the clock does not mislead a wait of `limit`: it does not wrap while the
limit has not passed, and once it has, the clock is not again above where it started and less
than `limit` away. -/
def Faithful (w limit start now : ℕ) : Prop :=
  (now - start < limit → start / w = now / w) ∧
    (limit ≤ now - start → (now - start) % w < limit → reading w now < reading w start)

instance (w limit start now : ℕ) : Decidable (Faithful w limit start now) :=
  inferInstanceAs (Decidable (_ ∧ _))

/-- The time between two instants, as whole rounds of the clock and what the readings say. -/
theorem elapsed_eq (hle : start ≤ now) (hread : reading w start ≤ reading w now) :
    now - start = reading w now - reading w start + w * (now / w - start / w) := by
  have hstart := Nat.div_add_mod start w
  have hnow := Nat.div_add_mod now w
  have hmul := Nat.mul_sub w (now / w) (start / w)
  have hrounds := Nat.mul_le_mul_left w (Nat.div_le_div_right (c := w) hle)
  simp only [reading] at hread ⊢
  omega

/-- The difference of two readings that have grown is the time modulo the clock. -/
theorem sub_reading (hw : 0 < w) (hle : start ≤ now) (hread : reading w start ≤ reading w now) :
    reading w now - reading w start = (now - start) % w := by
  have hlt : reading w now < w := Nat.mod_lt now hw
  rw [elapsed_eq hle hread, Nat.add_mul_mod_self_left, Nat.mod_eq_of_lt (by omega)]

/-- In less than a round of the clock, its reading grows exactly when it does not wrap. -/
theorem reading_le_iff (hle : start ≤ now) (hlt : now - start < w) :
    reading w start ≤ reading w now ↔ start / w = now / w := by
  constructor
  · intro hread
    have helapsed := elapsed_eq hle hread
    have hdiv : start / w ≤ now / w := Nat.div_le_div_right hle
    by_contra hne
    have hround := Nat.mul_le_mul_left w (show 1 ≤ now / w - start / w by omega)
    omega
  · intro hsame
    have hstart := Nat.div_add_mod start w
    have hnow := Nat.div_add_mod now w
    rw [hsame] at hstart
    simp only [reading]
    omega

/-- The widened difference is below a limit exactly when the reading has grown, and by less than
the limit. -/
theorem widened_lt_iff (hw : 0 < w) (hv : limit + w ≤ v) (hle : start ≤ now) :
    widened w v start now < limit ↔
      reading w start ≤ reading w now ∧ (now - start) % w < limit := by
  have hstart : reading w start < w := Nat.mod_lt start hw
  have hnow : reading w now < w := Nat.mod_lt now hw
  by_cases hread : reading w start ≤ reading w now
  · have hwide : widened w v start now = reading w now - reading w start := by
      have hsum : v - reading w start + reading w now =
          v + (reading w now - reading w start) := by omega
      rw [widened, hsum, Nat.add_mod_left, Nat.mod_eq_of_lt (by omega)]
    rw [hwide, sub_reading hw hle hread]
    exact (and_iff_right hread).symm
  · -- the clock has wrapped in between, and the difference borrows from `v`
    have hwide : widened w v start now = v - reading w start + reading w now :=
      Nat.mod_eq_of_lt (by omega)
    exact iff_of_false (by omega) fun h => hread h.1

/-- **Deadlines.** The widened difference tells whether the limit has passed exactly when the
clock is faithful between the two instants. -/
theorem widened_exact_iff (hlimit : limit ≤ w) (hv : limit + w ≤ v) (hle : start ≤ now) :
    (widened w v start now < limit ↔ now - start < limit) ↔ Faithful w limit start now := by
  rcases Nat.eq_zero_or_pos w with rfl | hw
  · obtain rfl : limit = 0 := Nat.le_zero.mp hlimit
    simp [Faithful]
  rw [widened_lt_iff hw hv hle, Faithful]
  by_cases hearly : now - start < limit
  · have hsmall : (now - start) % w < limit := Nat.lt_of_le_of_lt (Nat.mod_le _ _) hearly
    simp only [hearly, hsmall, and_true, iff_true, true_imp_iff, Nat.not_le.mpr hearly,
      false_imp_iff]
    exact reading_le_iff hle (by omega)
  · simp only [hearly, iff_false, not_and, false_imp_iff, true_and, Nat.not_lt.mp hearly,
      true_imp_iff]
    constructor
    · intro hlate hmod
      by_contra hread
      exact hlate (Nat.not_lt.mp hread) hmod
    · intro hfar hread hmod
      exact absurd (hfar hmod) (Nat.not_lt.mpr hread)

end WrappingClock
