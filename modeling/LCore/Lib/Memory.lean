import Mathlib.Algebra.Order.Ring.Int
import Mathlib.Tactic.Ring

/-!
# Memory Seen From a Pointer

A buffer that C code reaches through a pointer is a total map from offsets to cells.
Offsets are integers, so `p[-1]` and a copy that runs past the end of an array are values
like any other; whether a program may look there is a statement about its offsets and not
about this module.

* `copy` is `memcpy`, `write` an assignment `p[i] = v`, `load` puts the cells of a list
  at the front of a region and `cells` takes them back.
* `block b m i` is the `i`-th block of `b` cells and `setBlock` overwrites it.
  `convert` and `convertInPlace` are the two loops that run a function over consecutive
  blocks, from one region to another and inside one region; `block_convert` and
  `block_convertInPlace` are their loop invariants in closed form.
-/

namespace Memory

/-- The cells that can be reached from a pointer, by offset. -/
abbrev Mem (α : Type*) := ℤ → α

variable {α : Type*}

/-- `memcpy(dst + off, src, n)`. -/
def copy (dst : Mem α) (off : ℤ) (src : Mem α) (n : ℕ) : Mem α :=
  fun i => if off ≤ i ∧ i < off + n then src (i - off) else dst i

/-- The assignment `m[i] = v`. -/
def write (m : Mem α) (i : ℤ) (v : α) : Mem α :=
  fun k => if k = i then v else m k

/-- The pointer `m + k`. -/
def shift (m : Mem α) (k : ℤ) : Mem α :=
  fun i => m (i + k)

/-- The first `n` cells, as a list. -/
def cells (m : Mem α) (n : ℕ) : List α :=
  (List.range n).map fun i : ℕ => m i

/-- The region `rest` with the cells of `l` written from offset `0` on. -/
def load (l : List α) (rest : Mem α) : Mem α :=
  fun i => if i < 0 then rest i else l.getD i.toNat (rest i)

/-! ### Copies and lists -/

/-- Inside, a copy is what was copied. -/
theorem copy_of_mem {dst src : Mem α} {off i : ℤ} {n : ℕ} (h₁ : off ≤ i)
    (h₂ : i < off + n) : copy dst off src n i = src (i - off) := by
  simp only [copy, h₁, h₂, and_self, if_true]

/-- Before, a copy changes nothing. -/
theorem copy_of_lt {dst src : Mem α} {off i : ℤ} {n : ℕ} (h : i < off) :
    copy dst off src n i = dst i := by
  rw [copy, if_neg (by omega)]

/-- Behind, a copy changes nothing. -/
theorem copy_of_ge {dst src : Mem α} {off i : ℤ} {n : ℕ} (h : off + n ≤ i) :
    copy dst off src n i = dst i := by
  rw [copy, if_neg (by omega)]

/-- What was written is there. -/
@[simp] theorem write_same (m : Mem α) (i : ℤ) (v : α) : write m i v i = v := by
  simp [write]

/-- Elsewhere a write changes nothing. -/
theorem write_of_ne {m : Mem α} {i k : ℤ} {v : α} (h : k ≠ i) : write m i v k = m k := by
  simp [write, h]

@[simp] theorem shift_apply (m : Mem α) (k i : ℤ) : shift m k i = m (i + k) := rfl

@[simp] theorem length_cells (m : Mem α) (n : ℕ) : (cells m n).length = n := by
  simp [cells]

@[simp] theorem getElem_cells (m : Mem α) (n i : ℕ) (h : i < (cells m n).length) :
    (cells m n)[i] = m (i : ℤ) := by
  simp [cells]

@[simp] theorem shift_shift (m : Mem α) (j k : ℤ) : shift (shift m j) k = shift m (j + k) := by
  funext i
  simp only [shift_apply]
  congr 1
  omega

@[simp] theorem shift_zero (m : Mem α) : shift m 0 = m := by
  funext i
  simp

@[simp] theorem cells_zero (m : Mem α) : cells m 0 = [] := rfl

@[simp] theorem cells_one (m : Mem α) : cells m 1 = [m 0] := rfl

/-- Two regions have the same first `n` cells exactly when they agree on each of them. -/
theorem cells_eq_iff {m m' : Mem α} {n : ℕ} :
    cells m n = cells m' n ↔ ∀ i : ℕ, i < n → m i = m' i := by
  constructor
  · intro h i hi
    have hget := congrArg (fun l => l[i]?) h
    simpa [cells, hi] using hget
  · intro h
    exact List.map_congr_left fun i hi => h i (List.mem_range.mp hi)

/-- The first `a + b` cells are the first `a` followed by the next `b`. -/
theorem cells_add (m : Mem α) (a b : ℕ) :
    cells m (a + b) = cells m a ++ cells (shift m a) b := by
  simp only [cells, List.range_add, List.map_append, List.map_map]
  congr 1
  apply List.map_congr_left
  intro i _
  simp only [Function.comp_apply, shift_apply, Nat.cast_add]
  congr 1
  omega

/-- What was loaded is there. -/
theorem load_of_lt {l : List α} {rest : Mem α} {i : ℕ} (h : i < l.length) :
    load l rest i = l[i] := by
  have hi : ¬ ((i : ℤ) < 0) := by omega
  rw [load, if_neg hi]
  simp [h]

/-- What was loaded is what is read. -/
@[simp] theorem cells_load (l : List α) (rest : Mem α) : cells (load l rest) l.length = l := by
  apply List.ext_getElem (by simp)
  intro i h _
  rw [getElem_cells, load_of_lt (by simpa using h)]

/-- A copy to the front of a region is read back as the first cells of its source. -/
theorem cells_copy_zero (dst src : Mem α) (n : ℕ) : cells (copy dst 0 src n) n = cells src n := by
  rw [cells_eq_iff]
  intro i hi
  rw [copy_of_mem (by omega) (by omega), sub_zero]

/-- A copy behind the cells read changes none of them. -/
theorem cells_copy_of_le {dst src : Mem α} {off : ℤ} {n k : ℕ} (h : (n : ℤ) ≤ off) :
    cells (copy dst off src k) n = cells dst n := by
  rw [cells_eq_iff]
  intro i hi
  rw [copy_of_lt (by omega)]

/-- An assignment to a cell is an assignment in the list of the cells read; one behind them
is invisible. -/
theorem cells_write (m : Mem α) (k n : ℕ) (v : α) :
    cells (write m k v) n = (cells m n).set k v := by
  apply List.ext_getElem (by simp)
  intro i h _
  rw [getElem_cells, List.getElem_set, getElem_cells]
  by_cases hik : k = i
  · rw [if_pos hik, hik, write_same]
  · rw [if_neg hik, write_of_ne (by omega)]

/-- An assignment before the cells read is invisible. -/
theorem cells_shift_write_of_lt {m : Mem α} {k off : ℤ} {v : α} (h : k < off) (n : ℕ) :
    cells (shift (write m k v) off) n = cells (shift m off) n := by
  rw [cells_eq_iff]
  intro i hi
  rw [shift_apply, shift_apply, write_of_ne (by omega)]

/-- What was copied is found where it was copied to. -/
theorem cells_shift_copy (dst src : Mem α) (off : ℤ) (n : ℕ) :
    cells (shift (copy dst off src n) off) n = cells src n := by
  rw [cells_eq_iff]
  intro i hi
  rw [shift_apply, copy_of_mem (by omega) (by omega)]
  congr 1
  omega

/-! ### Blocks -/

section Blocks

variable (b : ℕ)

/-- The `i`-th block of `b` cells. -/
def block (m : Mem α) (i : ℕ) : Fin b → α :=
  fun j => m (b * i + j)

variable {b}

/-- The position of a cell in its block. -/
theorem cell_mod (i : ℕ) (j : Fin b) : ((b : ℤ) * i + j) % b = j := by
  rw [Int.mul_add_emod_self_left, Int.emod_eq_of_lt (by omega) (by omega)]

/-- The offsets of consecutive blocks grow. -/
theorem block_offset_le {i j : ℕ} (h : i ≤ j) : (b : ℤ) * i ≤ b * j := by
  exact_mod_cast Nat.mul_le_mul_left b h

/-- Regions with the same first `b * n` cells have the same first `n` blocks. -/
theorem block_eq_of_cells {m m' : Mem α} {n i : ℕ} (hi : i < n)
    (h : ∀ k : ℕ, k < b * n → m k = m' k) : block b m i = block b m' i := by
  funext j
  have hlt : b * i + j < b * n := by
    calc b * i + j < b * i + b := by omega
      _ = b * (i + 1) := by rw [Nat.mul_succ]
      _ ≤ b * n := Nat.mul_le_mul_left _ hi
  have hcell := h (b * i + j) hlt
  simpa [block] using hcell

variable (b) [NeZero b]

/-- `memcpy(m + i * b, v, b)`: overwrite the `i`-th block. -/
def setBlock (m : Mem α) (i : ℕ) (v : Fin b → α) : Mem α :=
  fun k => if k / b = i then v (Fin.ofNat b (k % b).toNat) else m k

variable {b}

/-- The block of a cell. -/
theorem cell_div (i : ℕ) (j : Fin b) : ((b : ℤ) * i + j) / b = i := by
  have hb : (0 : ℤ) < b := by exact_mod_cast Nat.pos_of_ne_zero (NeZero.ne b)
  rw [add_comm, Int.add_mul_ediv_left _ _ hb.ne', Int.ediv_eq_zero_of_lt (by omega) (by omega)]
  omega

/-- The block that was set is there. -/
@[simp] theorem block_setBlock_same (m : Mem α) (i : ℕ) (v : Fin b → α) :
    block b (setBlock b m i v) i = v := by
  funext j
  simp only [block, setBlock, cell_div, cell_mod, if_true]
  congr 1
  exact Fin.ext (by simp)

/-- The other blocks are not changed. -/
theorem block_setBlock_of_ne {m : Mem α} {i k : ℕ} {v : Fin b → α} (h : k ≠ i) :
    block b (setBlock b m i v) k = block b m k := by
  funext j
  have hk : ¬ ((k : ℤ) = i) := by exact_mod_cast h
  simp [block, setBlock, cell_div, hk]

/-- The overwritten block is the only thing that changes. -/
theorem setBlock_of_outside {m : Mem α} {i : ℕ} {v : Fin b → α} {k : ℤ}
    (h : k < b * i ∨ b * (i + 1) ≤ k) : setBlock b m i v k = m k := by
  have hb : (0 : ℤ) < b := by exact_mod_cast Nat.pos_of_ne_zero (NeZero.ne b)
  have hne : ¬ (k / b = i) := by
    intro hk
    have hle := Int.mul_ediv_self_le (x := k) hb.ne'
    have hlt := Int.lt_mul_ediv_self_add (x := k) hb
    rw [hk] at hle hlt
    rcases h with h | h
    · exact absurd hle (not_le.mpr h)
    · rw [mul_add, mul_one] at h
      exact absurd hlt (not_lt.mpr h)
  rw [setBlock, if_neg hne]

/-- A cell at a non-negative offset, found through its block. -/
theorem cell_eq_block (m : Mem α) (k : ℕ) :
    m k = block b m (k / b) ⟨k % b, Nat.mod_lt _ (Nat.pos_of_ne_zero (NeZero.ne b))⟩ := by
  have hk : (b : ℤ) * ((k / b : ℕ) : ℤ) + ((k % b : ℕ) : ℤ) = k := by
    exact_mod_cast Nat.div_add_mod k b
  simp only [block, hk]

/-- A cell of a block that two regions share. -/
theorem cell_eq_of_block_eq {m m' : Mem α} {i k : ℕ} (hk : k / b = i)
    (h : block b m i = block b m' i) : m k = m' k := by
  rw [cell_eq_block (b := b) m k, cell_eq_block (b := b) m' k, hk, h]

/-- Regions that agree block by block agree cell by cell. -/
theorem cells_eq_of_block_eq {m m' : Mem α} {n : ℕ}
    (h : ∀ i, i < n → block b m i = block b m' i) : cells m (b * n) = cells m' (b * n) := by
  rw [cells_eq_iff]
  intro k hk
  exact cell_eq_of_block_eq rfl (h (k / b) (Nat.div_lt_of_lt_mul hk))

/-- A copy of a block is an assignment of it. -/
theorem copy_eq_setBlock (m v : Mem α) (i : ℕ) :
    copy m (b * i) v b = setBlock b m i (block b v 0) := by
  have hb : (0 : ℤ) < b := by exact_mod_cast Nat.pos_of_ne_zero (NeZero.ne b)
  funext k
  by_cases hk : k / b = i
  · have hmod : b * i + k % b = k := by rw [← hk, Int.mul_ediv_add_emod]
    have hlt := Int.emod_lt_of_pos k hb
    have hge := Int.emod_nonneg k hb.ne'
    rw [setBlock, if_pos hk, copy_of_mem (by omega) (by omega), block, Nat.cast_zero, mul_zero,
      zero_add]
    congr 1
    rw [Fin.val_ofNat, Nat.mod_eq_of_lt (by omega)]
    omega
  · rw [setBlock, if_neg hk, copy, if_neg]
    rintro ⟨hle, hlt⟩
    apply hk
    have hoff : k = (b : ℤ) * i + ((k - b * i).toNat : ℤ) := by omega
    rw [hoff, add_comm, Int.add_mul_ediv_left _ _ hb.ne',
      Int.ediv_eq_zero_of_lt (by omega) (by omega), zero_add]

/-- The region whose blocks from offset `0` on are given. -/
def ofBlocks (f : ℕ → Fin b → α) : Mem α :=
  fun k => f (k / b).toNat (Fin.ofNat b (k % b).toNat)

/-- The blocks that were laid out are there. -/
@[simp] theorem block_ofBlocks (f : ℕ → Fin b → α) (i : ℕ) : block b (ofBlocks f) i = f i := by
  funext j
  simp only [block, ofBlocks, cell_div, cell_mod, Int.toNat_natCast]
  congr 1
  exact Fin.ext (by simp)

/-- Convert the blocks `i, …, i + n - 1` of `src` with `f`, in this order, each to the same
place of `dst`. -/
def convert (f : (Fin b → α) → (Fin b → α)) (src : Mem α) : ℕ → ℕ → Mem α → Mem α
  | 0, _, dst => dst
  | n + 1, i, dst => convert f src n (i + 1) (setBlock b dst i (f (block b src i)))

/-- Convert the blocks `i, …, i + n - 1` of a region with `f`, in this order, in place. -/
def convertInPlace (f : (Fin b → α) → (Fin b → α)) : ℕ → ℕ → Mem α → Mem α
  | 0, _, m => m
  | n + 1, i, m => convertInPlace f n (i + 1) (setBlock b m i (f (block b m i)))

/-- After the loop, the blocks it passed are converted and all others are as before. -/
theorem block_convert (f : (Fin b → α) → (Fin b → α)) (src : Mem α) (n i : ℕ)
    (dst : Mem α) (k : ℕ) :
    block b (convert f src n i dst) k =
      if i ≤ k ∧ k < i + n then f (block b src k) else block b dst k := by
  induction n generalizing i dst with
  | zero => rw [convert, if_neg (by omega)]
  | succ n ih =>
      rw [convert, ih]
      by_cases hk : k = i
      · subst hk
        rw [if_neg (by omega), if_pos (by omega), block_setBlock_same]
      · rw [block_setBlock_of_ne hk]
        exact if_congr (by omega) rfl rfl

/-- The in-place loop reads every block before it overwrites it, so it does what the loop
between two regions does. -/
theorem block_convertInPlace (f : (Fin b → α) → (Fin b → α)) (n i : ℕ) (m : Mem α)
    (k : ℕ) :
    block b (convertInPlace f n i m) k =
      if i ≤ k ∧ k < i + n then f (block b m k) else block b m k := by
  induction n generalizing i m with
  | zero => rw [convertInPlace, if_neg (by omega)]
  | succ n ih =>
      rw [convertInPlace, ih]
      by_cases hk : k = i
      · subst hk
        rw [if_neg (by omega), if_pos (by omega), block_setBlock_same]
      · rw [block_setBlock_of_ne hk]
        exact if_congr (by omega) rfl rfl

/-- The two loops leave everything outside their blocks alone. -/
theorem convert_of_outside (f : (Fin b → α) → (Fin b → α)) (src : Mem α) (n i : ℕ)
    (dst : Mem α) {k : ℤ} (h : k < b * i ∨ b * (i + n : ℕ) ≤ k) :
    convert f src n i dst k = dst k := by
  induction n generalizing i dst with
  | zero => rw [convert]
  | succ n ih =>
      have hfirst : (b : ℤ) * i ≤ b * (i + 1 : ℕ) := block_offset_le (by omega)
      have hlast : (b : ℤ) * (i + 1 : ℕ) ≤ b * (i + (n + 1) : ℕ) := block_offset_le (by omega)
      have hassoc : i + 1 + n = i + (n + 1) := by omega
      rw [convert, ih _ _ (by rw [hassoc]; exact h.imp_left fun h => lt_of_lt_of_le h hfirst),
        setBlock_of_outside (h.imp_right fun h => by exact_mod_cast le_trans hlast h)]

/-- The loop reads nothing of its source but the blocks it converts. -/
theorem convert_congr (f : (Fin b → α) → (Fin b → α)) {src src' : Mem α} (n i : ℕ)
    (dst : Mem α) (h : ∀ k, k < i + n → block b src k = block b src' k) :
    convert f src n i dst = convert f src' n i dst := by
  induction n generalizing i dst with
  | zero => rfl
  | succ n ih =>
      rw [convert, convert, h i (by omega)]
      exact ih _ _ fun k hk => h k (by omega)

/-- Outside its blocks a conversion changes nothing. -/
theorem convertInPlace_of_outside (f : (Fin b → α) → (Fin b → α)) (n i : ℕ) (m : Mem α)
    {k : ℤ} (h : k < b * i ∨ b * (i + n : ℕ) ≤ k) : convertInPlace f n i m k = m k := by
  induction n generalizing i m with
  | zero => rw [convertInPlace]
  | succ n ih =>
      have hfirst : (b : ℤ) * i ≤ b * (i + 1 : ℕ) := block_offset_le (by omega)
      have hlast : (b : ℤ) * (i + 1 : ℕ) ≤ b * (i + (n + 1) : ℕ) := block_offset_le (by omega)
      have hassoc : i + 1 + n = i + (n + 1) := by omega
      rw [convertInPlace,
        ih _ _ (by rw [hassoc]; exact h.imp_left fun h => lt_of_lt_of_le h hfirst),
        setBlock_of_outside (h.imp_right fun h => by exact_mod_cast le_trans hlast h)]

end Blocks

end Memory
