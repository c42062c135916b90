import LCore.AesTables

/-!
# The AES Key Schedule

`mbedtls_aes_setkey_enc` and `mbedtls_aes_setkey_dec` of `lib/aes/library/aes.c`. Both expand a
key of 128, 192 or 256 bits into the words of a context; the second one then takes the words
round by round from the last to the first, and the inner ones through the reverse tables.

The first call that finds a valid length generates the static tables; `Statics.Ok` holds between
the calls, and whatever the length, every call keeps it.

The pointer `rk` of a context is the start of its `buf` once a key is set, because nothing on
this platform asks for an aligned buffer.

## Main results

* `aesSetkeyEnc_ok`, `aesSetkeyDec_ok`: the calls keep the statics in order.
* `aesSetkeyEnc_eq`: the words of the context are the expanded key, for the three lengths.
* `aesSetkeyDec_eq`: the words of the context are the keys of the inverse network.
-/

open Memory Word32
open Rijndael (Column State sbox mixMatrix invMixMatrix mixColumns expandedKey schedule roundKey)

namespace LCore.Mbedtls

/-- The static variables of `aes.c`. -/
structure Statics where
  aesInitDone : Bool
  tables : Tables

/-- `mbedtls_aes_context`. -/
structure AesContext where
  nr : ℕ
  buf : Mem UInt32

/-- `mbedtls_aes_init`: all zeros. -/
def aesInit : AesContext := ⟨0, fun _ => 0⟩

/-- `MBEDTLS_ERR_AES_INVALID_KEY_LENGTH`. -/
def errInvalidKeyLength : ℤ := -0x0020

/-- `MBEDTLS_GET_UINT32_LE`. -/
def getUint32Le (data : Mem UInt8) (offset : ℤ) : UInt32 :=
  (data offset).toUInt32 ||| ((data (offset + 1)).toUInt32 <<< 8) |||
    ((data (offset + 2)).toUInt32 <<< 16) ||| ((data (offset + 3)).toUInt32 <<< 24)

/-- What the first call to set a key does before it goes on; `stack` is for the tables. -/
def initTables (stack : Mem ℕ × Mem ℕ) (s : Statics) : Statics :=
  if s.aesInitDone then s else ⟨true, aesGenTables stack s.tables⟩

/-! ### mbedtls_aes_setkey_enc -/

/-- `nr` for a length in bits; there is none for the other lengths. -/
def rounds (keybits : ℕ) : Option ℕ :=
  if keybits = 128 then some 10
  else if keybits = 192 then some 12
  else if keybits = 256 then some 14
  else none

/-- The first `n` words of the key. -/
def loadKey (key : Mem UInt8) (rk : Mem UInt32) : ℕ → Mem UInt32
  | 0 => rk
  | i + 1 => write (loadKey key rk i) i (getUint32Le key (i <<< 2 : ℕ))

/-- The bytes of `x` through `FSb`, in their places. -/
def subBytesOf (t : Tables) (x : UInt32) : UInt32 :=
  (t.fsb (byte 0 x).toNat).toUInt32 ^^^ ((t.fsb (byte 1 x).toNat).toUInt32 <<< 8) ^^^
    ((t.fsb (byte 2 x).toNat).toUInt32 <<< 16) ^^^ ((t.fsb (byte 3 x).toNat).toUInt32 <<< 24)

/-- The bytes of `x` through `FSb`, every one a place lower. -/
def rotBytesOf (t : Tables) (x : UInt32) : UInt32 :=
  (t.fsb (byte 1 x).toNat).toUInt32 ^^^ ((t.fsb (byte 2 x).toNat).toUInt32 <<< 8) ^^^
    ((t.fsb (byte 3 x).toNat).toUInt32 <<< 16) ^^^ ((t.fsb (byte 0 x).toNat).toUInt32 <<< 24)

/-- Round `i` of `case 10`, with the pointer `RK` at word `p`. -/
def expand128 (t : Tables) (i p : ℕ) (rk : Mem UInt32) : Mem UInt32 :=
  let rk := write rk (p + 4 : ℕ) (rk p ^^^ t.rcon i ^^^ rotBytesOf t (rk (p + 3 : ℕ)))
  let rk := write rk (p + 5 : ℕ) (rk (p + 1 : ℕ) ^^^ rk (p + 4 : ℕ))
  let rk := write rk (p + 6 : ℕ) (rk (p + 2 : ℕ) ^^^ rk (p + 5 : ℕ))
  write rk (p + 7 : ℕ) (rk (p + 3 : ℕ) ^^^ rk (p + 6 : ℕ))

/-- Round `i` of `case 12`. -/
def expand192 (t : Tables) (i p : ℕ) (rk : Mem UInt32) : Mem UInt32 :=
  let rk := write rk (p + 6 : ℕ) (rk p ^^^ t.rcon i ^^^ rotBytesOf t (rk (p + 5 : ℕ)))
  let rk := write rk (p + 7 : ℕ) (rk (p + 1 : ℕ) ^^^ rk (p + 6 : ℕ))
  let rk := write rk (p + 8 : ℕ) (rk (p + 2 : ℕ) ^^^ rk (p + 7 : ℕ))
  let rk := write rk (p + 9 : ℕ) (rk (p + 3 : ℕ) ^^^ rk (p + 8 : ℕ))
  let rk := write rk (p + 10 : ℕ) (rk (p + 4 : ℕ) ^^^ rk (p + 9 : ℕ))
  write rk (p + 11 : ℕ) (rk (p + 5 : ℕ) ^^^ rk (p + 10 : ℕ))

/-- Round `i` of `case 14`. -/
def expand256 (t : Tables) (i p : ℕ) (rk : Mem UInt32) : Mem UInt32 :=
  let rk := write rk (p + 8 : ℕ) (rk p ^^^ t.rcon i ^^^ rotBytesOf t (rk (p + 7 : ℕ)))
  let rk := write rk (p + 9 : ℕ) (rk (p + 1 : ℕ) ^^^ rk (p + 8 : ℕ))
  let rk := write rk (p + 10 : ℕ) (rk (p + 2 : ℕ) ^^^ rk (p + 9 : ℕ))
  let rk := write rk (p + 11 : ℕ) (rk (p + 3 : ℕ) ^^^ rk (p + 10 : ℕ))
  let rk := write rk (p + 12 : ℕ) (rk (p + 4 : ℕ) ^^^ subBytesOf t (rk (p + 11 : ℕ)))
  let rk := write rk (p + 13 : ℕ) (rk (p + 5 : ℕ) ^^^ rk (p + 12 : ℕ))
  let rk := write rk (p + 14 : ℕ) (rk (p + 6 : ℕ) ^^^ rk (p + 13 : ℕ))
  write rk (p + 15 : ℕ) (rk (p + 7 : ℕ) ^^^ rk (p + 14 : ℕ))

/-- `n` rounds; every one moves `RK` by `nk` words. -/
def expandLoop (expand : ℕ → ℕ → Mem UInt32 → Mem UInt32) (nk : ℕ) (rk : Mem UInt32) :
    ℕ → Mem UInt32
  | 0 => rk
  | i + 1 => expand i (nk * i) (expandLoop expand nk rk i)

/-- `switch (ctx->nr)`. -/
def expandKey (t : Tables) (nr : ℕ) (rk : Mem UInt32) : Mem UInt32 :=
  if nr = 10 then expandLoop (expand128 t) 4 rk 10
  else if nr = 12 then expandLoop (expand192 t) 6 rk 8
  else if nr = 14 then expandLoop (expand256 t) 8 rk 7
  else rk

/-- `mbedtls_aes_setkey_enc`: the value it returns, the statics and the context. -/
def aesSetkeyEnc (stack : Mem ℕ × Mem ℕ) (s : Statics) (ctx : AesContext) (key : Mem UInt8)
    (keybits : ℕ) : ℤ × Statics × AesContext :=
  match rounds keybits with
  | none => (errInvalidKeyLength, s, ctx)
  | some nr =>
    let s := initTables stack s
    let rk := loadKey key ctx.buf (keybits >>> 5)
    (0, s, ⟨nr, expandKey s.tables nr rk⟩)

/-! ### mbedtls_aes_setkey_dec -/

/-- The buffer that is written and the pointers `RK` and `SK`. -/
structure KeyCopy where
  buf : Mem UInt32
  rk : ℕ
  sk : ℤ

/-- `*RK++ = f(*SK++)`. -/
def KeyCopy.word (f : UInt32 → UInt32) (src : Mem UInt32) (c : KeyCopy) : KeyCopy :=
  ⟨write c.buf c.rk (f (src c.sk)), c.rk + 1, c.sk + 1⟩

/-- The word of an inner round key for the inverse network. -/
def invertWord (t : Tables) (x : UInt32) : UInt32 :=
  t.rt0 (t.fsb (byte 0 x).toNat).toNat ^^^ t.rt1 (t.fsb (byte 1 x).toNat).toNat ^^^
    t.rt2 (t.fsb (byte 2 x).toNat).toNat ^^^ t.rt3 (t.fsb (byte 3 x).toNat).toNat

/-- Four words, one after the other. -/
def KeyCopy.words (f : UInt32 → UInt32) (src : Mem UInt32) (c : KeyCopy) : KeyCopy :=
  (KeyCopy.word f src)^[4] c

/-- `SK -= 8`. -/
def KeyCopy.back (c : KeyCopy) : KeyCopy := { c with sk := c.sk - 8 }

/-- The loop over the inner round keys; `i` counts down to 0. -/
def invertLoop (t : Tables) (src : Mem UInt32) : ℕ → KeyCopy → KeyCopy
  | 0, c => c
  | i + 1, c => invertLoop t src i (c.words (invertWord t) src).back

/-- The words of a context for decryption, from those of a context for encryption. -/
def invertKey (t : Tables) (nr : ℕ) (src : Mem UInt32) (buf : Mem UInt32) : Mem UInt32 :=
  let c : KeyCopy := ⟨buf, 0, nr * 4⟩
  let c := (c.words id src).back
  let c := invertLoop t src (nr - 1) c
  (c.words id src).buf

/-- `mbedtls_aes_setkey_dec`: the value it returns, the statics and the context. -/
def aesSetkeyDec (stack : Mem ℕ × Mem ℕ) (s : Statics) (ctx : AesContext) (key : Mem UInt8)
    (keybits : ℕ) : ℤ × Statics × AesContext :=
  match aesSetkeyEnc stack s aesInit key keybits with
  | (ret, s, cty) =>
    if ret ≠ 0 then (ret, s, ctx)
    else (ret, s, ⟨cty.nr, invertKey s.tables cty.nr cty.buf ctx.buf⟩)

/-! ### The tables -/

/-- What holds of the statics between the calls. -/
def Statics.Ok (s : Statics) : Prop := s.aesInitDone = true → s.tables.Correct

/-- `initTables` leaves correct tables. -/
theorem initTables_correct {s : Statics} (h : s.Ok) (stack : Mem ℕ × Mem ℕ) :
    (initTables stack s).tables.Correct := by
  rw [initTables]
  split
  · next hdone => exact h hdone
  · exact aesGenTables_correct stack s.tables

/-- `aes_setkey_enc` keeps the tables correct. -/
theorem aesSetkeyEnc_ok {s : Statics} (h : s.Ok) (stack : Mem ℕ × Mem ℕ) (ctx : AesContext)
    (key : Mem UInt8) (keybits : ℕ) : (aesSetkeyEnc stack s ctx key keybits).2.1.Ok := by
  rw [aesSetkeyEnc]
  split
  · exact h
  · exact fun _ => initTables_correct h stack

/-- `aes_setkey_dec` touches the tables only through `aes_setkey_enc`. -/
theorem aesSetkeyDec_statics (stack : Mem ℕ × Mem ℕ) (s : Statics) (ctx : AesContext)
    (key : Mem UInt8) (keybits : ℕ) :
    (aesSetkeyDec stack s ctx key keybits).2.1 =
      (aesSetkeyEnc stack s aesInit key keybits).2.1 := by
  rw [aesSetkeyDec]
  dsimp only
  split <;> rfl

/-- So it keeps them correct. -/
theorem aesSetkeyDec_ok {s : Statics} (h : s.Ok) (stack : Mem ℕ × Mem ℕ) (ctx : AesContext)
    (key : Mem UInt8) (keybits : ℕ) : (aesSetkeyDec stack s ctx key keybits).2.1.Ok := by
  rw [aesSetkeyDec_statics]
  exact aesSetkeyEnc_ok h stack aesInit key keybits

/-! ### The words of the key -/

/-- Word `i` of a key, as a column. -/
def keyWord (key : Mem UInt8) (i : ℕ) : Column := fun r => ⟨key (4 * i + r : ℕ)⟩

/-- The column of a word is the four bytes it was read from. -/
theorem column_getUint32Le (data : Mem UInt8) (offset : ℕ) :
    column (getUint32Le data offset) = fun r => ⟨data (offset + r : ℕ)⟩ := by
  have hjoin := join_eq_or (data offset) (data (offset + 1)) (data (offset + 2)) (data (offset + 3))
  refine (congrArg column hjoin.symm).trans ?_
  exact column_join fun r => data (offset + r : ℕ)

/-- The words of the key are its columns. -/
theorem column_loadKey (key : Mem UInt8) (rk : Mem UInt32) {n j : ℕ} (hj : j < n) :
    column (loadKey key rk n j) = keyWord key j := by
  induction n with
  | zero => exact absurd hj (by omega)
  | succ n ih =>
      rw [loadKey]
      by_cases hjn : j = n
      · rw [hjn, write_same, column_getUint32Le]
        funext r
        rw [keyWord, Nat.shiftLeft_eq, Nat.mul_comm]
      · rw [write_of_ne (by omega)]
        exact ih (by omega)

section Expand

variable {t : Tables} (ht : t.Correct)
include ht

/-- Every byte of a word goes through the box. -/
theorem column_subBytesOf (x : UInt32) :
    column (subBytesOf t x) = Rijndael.subWord (column x) := by
  have hjoin := column_join fun r : Fin 4 => t.fsb (byte r x).toNat
  refine hjoin.trans ?_
  funext r
  rw [ht.fsb]
  rfl

/-- The word is rotated first. -/
theorem column_rotBytesOf (x : UInt32) :
    column (rotBytesOf t x) = Rijndael.subWord (Rijndael.rotWord (column x)) := by
  have hjoin := column_join fun r : Fin 4 => t.fsb (byte (r + 1 : Fin 4) x).toNat
  refine hjoin.trans ?_
  funext r
  rw [ht.fsb]
  rfl

end Expand

/-- The words before word `m` are those of the expanded key. -/
def Expanded (nk : ℕ) (key : ℕ → Column) (rk : Mem UInt32) (m : ℕ) : Prop :=
  ∀ j < m, column (rk (j : ℕ)) = expandedKey nk key j

section Rounds

variable {nk m : ℕ} {key : ℕ → Column} {rk : Mem UInt32}

/-- One more word of the schedule is right. -/
theorem Expanded.write (h : Expanded nk key rk m) {v : UInt32}
    (hv : column v = expandedKey nk key m) : Expanded nk key (write rk m v) (m + 1) := by
  intro j hj
  by_cases hjm : j = m
  · rw [hjm, write_same, hv]
  · rw [write_of_ne (by omega)]
    exact h j (by omega)

/-- A word that is the sum of two. -/
theorem Expanded.plain (h : Expanded nk key rk m) (hnk : 0 < nk) (hm : nk ≤ m)
    (hmod : m % nk ≠ 0) (hmod' : ¬ (6 < nk ∧ m % nk = 4)) {i j : ℕ} (hi : i = m - nk)
    (hj : j = m - 1) : Expanded nk key (Memory.write rk m (rk i ^^^ rk j)) (m + 1) := by
  refine h.write ?_
  rw [column_xor, hi, hj, h _ (by omega), h _ (by omega), Rijndael.expandedKey_of_le _ hnk hm,
    schedule, if_neg hmod, if_neg hmod']

variable {t : Tables} (ht : t.Correct)
include ht

/-- A word that starts a round of the schedule. -/
theorem Expanded.first (h : Expanded nk key rk m) (hnk : 0 < nk) {i c : ℕ} (hc : c < 10)
    (hm : m = nk * c + nk) (hi : i = nk * c) {j : ℕ} (hj : j = m - 1) :
    Expanded nk key (Memory.write rk m (rk i ^^^ t.rcon c ^^^ rotBytesOf t (rk j))) (m + 1) := by
  refine h.write ?_
  have hdiv : m / nk = c + 1 := by
    rw [hm, ← Nat.mul_succ, Nat.mul_div_cancel_left _ hnk]
  have hmod : m % nk = 0 := by
    rw [hm, ← Nat.mul_succ, Nat.mul_mod_right]
  have hback : m - nk = i := by omega
  have hword := Rijndael.expandedKey_of_le key hnk (by omega : nk ≤ m)
  rw [schedule, if_pos hmod, hdiv, hback] at hword
  rw [column_xor, column_xor, column_rotBytesOf ht, ht.rcon c hc, hj, h i (by omega),
    h (m - 1) (by omega), hword, add_assoc, add_comm (Rijndael.rcon _)]

/-- The word in the middle of a round for a key of 256 bits. -/
theorem Expanded.middle (h : Expanded nk key rk m) (hnk : 6 < nk) (hm : nk ≤ m)
    (hmod : m % nk = 4) {i j : ℕ} (hi : i = m - nk) (hj : j = m - 1) :
    Expanded nk key (Memory.write rk m (rk i ^^^ subBytesOf t (rk j))) (m + 1) := by
  refine h.write ?_
  rw [column_xor, column_subBytesOf ht, hi, hj, h _ (by omega), h _ (by omega),
    Rijndael.expandedKey_of_le _ (by omega) hm, schedule, if_neg (by omega), if_pos ⟨hnk, hmod⟩]

omit ht in
/-- Rounds that expand by `nk` words each expand all. -/
theorem expandLoop_expanded {expand : ℕ → ℕ → Mem UInt32 → Mem UInt32} (limit : ℕ)
    (hexpand : ∀ i < limit, ∀ rk, Expanded nk key rk (nk * i + nk) →
      Expanded nk key (expand i (nk * i) rk) (nk * i + nk + nk))
    (h : Expanded nk key rk nk) {n : ℕ} (hn : n ≤ limit) :
    Expanded nk key (expandLoop expand nk rk n) (nk * n + nk) := by
  induction n with
  | zero => rwa [Nat.mul_zero, Nat.zero_add]
  | succ n ih => exact hexpand n (by omega) _ (ih (by omega))

/-- A turn of the loop for 128 bits adds four words. -/
theorem expand128_expanded {i : ℕ} (hi : i < 10) (h : Expanded 4 key rk (4 * i + 4)) :
    Expanded 4 key (expand128 t i (4 * i) rk) (4 * i + 4 + 4) := by
  have h₄ := h.first ht (by omega) hi rfl rfl (j := 4 * i + 3) (by omega)
  have h₅ := h₄.plain (by omega) (by omega) (by omega) (by omega) (i := 4 * i + 1)
    (j := 4 * i + 4) (by omega) (by omega)
  have h₆ := h₅.plain (by omega) (by omega) (by omega) (by omega) (i := 4 * i + 2)
    (j := 4 * i + 5) (by omega) (by omega)
  exact h₆.plain (by omega) (by omega) (by omega) (by omega) (i := 4 * i + 3)
    (j := 4 * i + 6) (by omega) (by omega)

/-- A turn of the loop for 192 bits adds six words. -/
theorem expand192_expanded {i : ℕ} (hi : i < 8) (h : Expanded 6 key rk (6 * i + 6)) :
    Expanded 6 key (expand192 t i (6 * i) rk) (6 * i + 6 + 6) := by
  have h₆ := h.first ht (by omega) (by omega) rfl rfl (j := 6 * i + 5) (by omega)
  have h₇ := h₆.plain (by omega) (by omega) (by omega) (by omega) (i := 6 * i + 1)
    (j := 6 * i + 6) (by omega) (by omega)
  have h₈ := h₇.plain (by omega) (by omega) (by omega) (by omega) (i := 6 * i + 2)
    (j := 6 * i + 7) (by omega) (by omega)
  have h₉ := h₈.plain (by omega) (by omega) (by omega) (by omega) (i := 6 * i + 3)
    (j := 6 * i + 8) (by omega) (by omega)
  have h₁₀ := h₉.plain (by omega) (by omega) (by omega) (by omega) (i := 6 * i + 4)
    (j := 6 * i + 9) (by omega) (by omega)
  exact h₁₀.plain (by omega) (by omega) (by omega) (by omega) (i := 6 * i + 5)
    (j := 6 * i + 10) (by omega) (by omega)

/-- A turn of the loop for 256 bits adds eight words. -/
theorem expand256_expanded {i : ℕ} (hi : i < 7) (h : Expanded 8 key rk (8 * i + 8)) :
    Expanded 8 key (expand256 t i (8 * i) rk) (8 * i + 8 + 8) := by
  have h₈ := h.first ht (by omega) (by omega) rfl rfl (j := 8 * i + 7) (by omega)
  have h₉ := h₈.plain (by omega) (by omega) (by omega) (by omega) (i := 8 * i + 1)
    (j := 8 * i + 8) (by omega) (by omega)
  have h₁₀ := h₉.plain (by omega) (by omega) (by omega) (by omega) (i := 8 * i + 2)
    (j := 8 * i + 9) (by omega) (by omega)
  have h₁₁ := h₁₀.plain (by omega) (by omega) (by omega) (by omega) (i := 8 * i + 3)
    (j := 8 * i + 10) (by omega) (by omega)
  have h₁₂ := h₁₁.middle ht (by omega) (by omega) (by omega) (i := 8 * i + 4)
    (j := 8 * i + 11) (by omega) (by omega)
  have h₁₃ := h₁₂.plain (by omega) (by omega) (by omega) (by omega) (i := 8 * i + 5)
    (j := 8 * i + 12) (by omega) (by omega)
  have h₁₄ := h₁₃.plain (by omega) (by omega) (by omega) (by omega) (i := 8 * i + 6)
    (j := 8 * i + 13) (by omega) (by omega)
  exact h₁₄.plain (by omega) (by omega) (by omega) (by omega) (i := 8 * i + 7)
    (j := 8 * i + 14) (by omega) (by omega)

/-- The key schedule of the three lengths. -/
theorem expandKey_expanded (hnk : nk = 4 ∨ nk = 6 ∨ nk = 8) (h : Expanded nk key rk nk) :
    Expanded nk key (expandKey t (nk + 6) rk) (4 * (nk + 7)) := by
  have hmono : ∀ {rk m m'}, m' ≤ m → Expanded nk key rk m → Expanded nk key rk m' :=
    fun hle hrk j hj => hrk j (by omega)
  rw [expandKey]
  obtain rfl | rfl | rfl := hnk
  · rw [if_pos rfl]
    exact hmono (by omega) (expandLoop_expanded 10
      (fun i hi rk hrk => expand128_expanded ht hi hrk) h (Nat.le_refl _))
  · rw [if_neg (by omega), if_pos rfl]
    exact hmono (by omega) (expandLoop_expanded 8
      (fun i hi rk hrk => expand192_expanded ht hi hrk) h (Nat.le_refl _))
  · rw [if_neg (by omega), if_neg (by omega), if_pos rfl]
    exact hmono (by omega) (expandLoop_expanded 7
      (fun i hi rk hrk => expand256_expanded ht hi hrk) h (Nat.le_refl _))

end Rounds

/-- The rounds of the three key sizes. -/
theorem rounds_eq {nk : ℕ} (hnk : nk = 4 ∨ nk = 6 ∨ nk = 8) : rounds (32 * nk) = some (nk + 6) := by
  obtain rfl | rfl | rfl := hnk <;> rfl

/-- `mbedtls_aes_setkey_enc` on a key of 4, 6 or 8 words: the call succeeds, and the first
`4 * (nr + 1)` words of the context are those of the expanded key. -/
theorem aesSetkeyEnc_eq {s : Statics} (hs : s.Ok) {nk : ℕ} (hnk : nk = 4 ∨ nk = 6 ∨ nk = 8)
    (stack : Mem ℕ × Mem ℕ) (ctx : AesContext) (key : Mem UInt8) :
    ∃ buf, aesSetkeyEnc stack s ctx key (32 * nk) = (0, initTables stack s, ⟨nk + 6, buf⟩) ∧
      Expanded nk (keyWord key) buf (4 * (nk + 7)) := by
  have hshift : (32 * nk) >>> 5 = nk := by
    rw [Nat.shiftRight_eq_div_pow]
    omega
  refine ⟨_, by rw [aesSetkeyEnc, rounds_eq hnk], ?_⟩
  rw [hshift]
  refine expandKey_expanded (initTables_correct hs stack) hnk fun j hj => ?_
  rw [column_loadKey key ctx.buf hj, Rijndael.expandedKey_of_lt _ hj]

/-! ### The keys of the inverse network -/

/-- What some words of a copy leave: the pointers have moved on, the words behind `RK` are there
and those before it as they were. -/
structure KeyCopy.Moved (f : UInt32 → UInt32) (src : Mem UInt32) (c c' : KeyCopy) (n : ℕ) :
    Prop where
  rk : c'.rk = c.rk + n
  sk : c'.sk = c.sk + n
  new : ∀ i < n, c'.buf (c.rk + i : ℕ) = f (src (c.sk + (i : ℕ)))
  old : ∀ j < c.rk, c'.buf (j : ℕ) = c.buf j

/-- Where the copy of the key stands after `n` words. -/
theorem KeyCopy.moved (f : UInt32 → UInt32) (src : Mem UInt32) (c : KeyCopy) (n : ℕ) :
    KeyCopy.Moved f src c ((KeyCopy.word f src)^[n] c) n := by
  induction n with
  | zero => exact ⟨rfl, (Int.add_zero _).symm, fun i hi => absurd hi (by omega), fun _ _ => rfl⟩
  | succ n ih =>
      rw [Function.iterate_succ_apply']
      set c' := (KeyCopy.word f src)^[n] c
      refine ⟨?_, ?_, fun i hi => ?_, fun j hj => ?_⟩
      · simp only [word, ih.rk, Nat.add_assoc]
      · simp only [word, ih.sk, Nat.cast_succ, Int.add_assoc]
      · simp only [word, ih.rk, ih.sk]
        by_cases hin : i = n
        · rw [hin, write_same]
        · rw [write_of_ne (by omega)]
          exact ih.new i (by omega)
      · simp only [word, ih.rk]
        rw [write_of_ne (by omega)]
        exact ih.old j hj

/-- What the loop over `n` inner round keys leaves: the keys are read backwards. -/
theorem invertLoop_spec (t : Tables) (src : Mem UInt32) (n : ℕ) (c : KeyCopy) :
    (invertLoop t src n c).rk = c.rk + 4 * n ∧ (invertLoop t src n c).sk = c.sk - 4 * n ∧
      (∀ m < n, ∀ r < 4, (invertLoop t src n c).buf (c.rk + (4 * m + r) : ℕ) =
        invertWord t (src (c.sk - 4 * (m : ℕ) + (r : ℕ)))) ∧
      ∀ j < c.rk, (invertLoop t src n c).buf (j : ℕ) = c.buf j := by
  induction n generalizing c with
  | zero =>
      exact ⟨rfl, (Int.sub_zero _).symm, fun m hm => absurd hm (by omega), fun _ _ => rfl⟩
  | succ n ih =>
      have hmoved := KeyCopy.moved (invertWord t) src c 4
      set c' := (c.words (invertWord t) src).back with hc'
      have hrk : c'.rk = c.rk + 4 := hmoved.rk
      have hsk : c'.sk = c.sk - 4 := by
        have hback : c'.sk = (c.words (invertWord t) src).sk - 8 := rfl
        rw [hback, KeyCopy.words, hmoved.sk]
        omega
      obtain ⟨ihrk, ihsk, ihnew, ihold⟩ := ih c'
      rw [invertLoop, ← hc']
      refine ⟨?_, ?_, fun m hm r hr => ?_, fun j hj => ?_⟩
      · rw [ihrk, hrk]
        omega
      · rw [ihsk, hsk]
        omega
      · cases m with
        | zero =>
            rw [ihold _ (by omega), Nat.mul_zero, Nat.zero_add]
            refine (hmoved.new r hr).trans ?_
            congr 2
            omega
        | succ m =>
            have hnew := ihnew m (by omega) r hr
            have hindex : c'.rk + (4 * m + r) = c.rk + (4 * (m + 1) + r) := by omega
            have hsource : c'.sk - 4 * (m : ℕ) + (r : ℕ) = c.sk - 4 * (m + 1 : ℕ) + (r : ℕ) := by
              omega
            rwa [hindex, hsource] at hnew
      · rw [ihold j (by omega)]
        exact hmoved.old j hj

/-- The words of the context for decryption: round `n` has the key of the round that is as far
from the end, and the inner ones have gone through the reverse tables. -/
theorem invertKey_apply (t : Tables) {nr : ℕ} (hnr : 0 < nr) (src buf : Mem UInt32) {n r : ℕ}
    (hn : n ≤ nr) (hr : r < 4) :
    invertKey t nr src buf (4 * n + r : ℕ) =
      (if n = 0 ∨ n = nr then id else invertWord t) (src (4 * (nr - n) + r : ℕ)) := by
  set c₀ : KeyCopy := ⟨buf, 0, nr * 4⟩ with hc₀
  have hrk₀ : c₀.rk = 0 := rfl
  have hsk₀ : c₀.sk = nr * 4 := rfl
  have hfirst := KeyCopy.moved id src c₀ 4
  set c₁ := (c₀.words id src).back with hc₁
  have hrk₁ : c₁.rk = 4 := hfirst.rk
  have hsk₁ : c₁.sk = nr * 4 - 4 := by
    have hback : c₁.sk = (c₀.words id src).sk - 8 := rfl
    rw [hback, KeyCopy.words, hfirst.sk]
    omega
  obtain ⟨hrk₂, hsk₂, hinner, hkeep⟩ := invertLoop_spec t src (nr - 1) c₁
  set c₂ := invertLoop t src (nr - 1) c₁ with hc₂
  have hlast := KeyCopy.moved id src c₂ 4
  have hkey : invertKey t nr src buf = (c₂.words id src).buf := rfl
  rw [hkey]
  obtain rfl | hpos := Nat.eq_zero_or_pos n
  · rw [if_pos (.inl rfl)]
    refine (hlast.old _ (by omega)).trans ((hkeep _ (by omega)).trans ?_)
    refine (congrArg c₁.buf ?_).trans ((hfirst.new r hr).trans ?_)
    · rw [hrk₀, Nat.mul_zero]
    · congr 2
      omega
  · obtain rfl | hlt := Nat.eq_or_lt_of_le hn
    · rw [if_pos (.inr rfl)]
      refine (congrArg _ ?_).trans ((hlast.new r hr).trans ?_)
      · omega
      · congr 2
        omega
    · rw [if_neg (by omega)]
      refine (hlast.old _ (by omega)).trans ?_
      refine (congrArg c₂.buf ?_).trans ((hinner (n - 1) (by omega) r hr).trans ?_)
      · omega
      · congr 2
        omega

section Invert

variable {t : Tables} (ht : t.Correct)
include ht

/-- The reverse tables on substituted bytes undo the mix of a column. -/
theorem column_invertWord (x : UInt32) :
    column (invertWord t x) = invMixMatrix.mulVec (column x) := by
  have hentry : ∀ k : Fin 4, column (t.rt k (t.fsb (byte k x).toNat).toNat) =
      fun r => invMixMatrix r k * column x k := by
    intro k
    rw [ht.rt, ht.fsb, Equiv.symm_apply_apply]
    rfl
  have hsum : invertWord t x = t.rt 0 (t.fsb (byte (0 : Fin 4) x).toNat).toNat ^^^
      t.rt 1 (t.fsb (byte (1 : Fin 4) x).toNat).toNat ^^^
      t.rt 2 (t.fsb (byte (2 : Fin 4) x).toNat).toNat ^^^
      t.rt 3 (t.fsb (byte (3 : Fin 4) x).toNat).toNat := rfl
  funext r
  rw [hsum, column_xor, column_xor, column_xor, hentry, hentry, hentry, hentry, Matrix.mulVec,
    dotProduct, Fin.sum_univ_four]
  rfl

end Invert

/-- The round key `n` of a context. -/
def contextKey (buf : Mem UInt32) (n : ℕ) : State := fun c => column (buf (4 * n + c : ℕ))

/-- The keys of the rounds lie in the context. -/
theorem Expanded.contextKey_eq {nk : ℕ} {key : ℕ → Column} {buf : Mem UInt32}
    (h : Expanded nk key buf (4 * (nk + 7))) {n : ℕ} (hn : n ≤ nk + 6) :
    contextKey buf n = roundKey nk key n := by
  funext c
  exact h (4 * n + c) (by omega)

/-- `mbedtls_aes_setkey_dec` on a key of 4, 6 or 8 words: the call succeeds, and the round keys
of the context are those of the inverse network. -/
theorem aesSetkeyDec_eq {s : Statics} (hs : s.Ok) {nk : ℕ} (hnk : nk = 4 ∨ nk = 6 ∨ nk = 8)
    (stack : Mem ℕ × Mem ℕ) (ctx : AesContext) (key : Mem UInt8) :
    ∃ buf, aesSetkeyDec stack s ctx key (32 * nk) = (0, initTables stack s, ⟨nk + 6, buf⟩) ∧
      ∀ n ≤ nk + 6, contextKey buf n =
        Rijndael.network.inverseKeys (roundKey nk (keyWord key)) (nk + 5) n := by
  obtain ⟨ebuf, heq, hexp⟩ := aesSetkeyEnc_eq hs hnk stack aesInit key
  have ht := initTables_correct hs stack
  refine ⟨_, by rw [aesSetkeyDec, heq]; exact if_neg (by omega), fun n hn => ?_⟩
  have hback : nk + 5 + 1 - n = nk + 6 - n := by omega
  have hkey : contextKey ebuf (nk + 6 - n) = roundKey nk (keyWord key) (nk + 6 - n) :=
    hexp.contextKey_eq (by omega)
  funext c
  rw [contextKey, invertKey_apply _ (by omega) _ _ hn c.isLt, SpNetwork.inverseKeys, hback, ← hkey]
  by_cases hend : n = 0 ∨ n = nk + 6
  · rw [if_pos hend, if_pos (by omega)]
    rfl
  · rw [if_neg hend, if_neg (by omega), column_invertWord ht]
    rfl

end LCore.Mbedtls
