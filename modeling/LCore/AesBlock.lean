import LCore.AesKey

/-!
# AES on a Block

`mbedtls_internal_aes_encrypt`, `mbedtls_internal_aes_decrypt` and `mbedtls_aes_crypt_ecb` of
`lib/aes/library/aes.c`, with the macros `AES_FROUND` and `AES_RROUND`. A block is loaded into
four words, and every round looks their bytes up in four tables; the loop makes two rounds at a
time, from one array of words to the other and back.

The words are a state of the cipher: `state`. A round on words is a round of the network on
states, so the loop of the source is the network.

## Main results

* `state_forwardRound`, `state_reverseRound`: what a round does, for any four tables.
* `cryptBlock_eq`: load, rounds, store, as a network on states.
* `internalAesEncrypt_eq`: encryption is AES, for the three key lengths.
* `internalAesDecrypt_eq`: decryption is the inverse of AES.
-/

open Memory Word32
open Rijndael (Column State sbox mixMatrix invMixMatrix subBytes shiftRows mixColumns network
  roundKey)

namespace LCore.Mbedtls

/-- `t.X` or `t.Y`: the four words of a block. -/
abbrev Words := Fin 4 → UInt32

/-! ### Rounds -/

/-- One assignment of a round: a word of the key, and for every `i` byte `i` of word `i` of the
four, looked up in table `i`. -/
def roundWord (f : Fin 4 → UInt8 → UInt32) (k : UInt32) (y : Words) : UInt32 :=
  (List.finRange 4).foldl (fun x i => x ^^^ f i (byte i (y i))) k

/-- A round of encryption, with the pointer `RK` at word `p`: the assignment of `X0` looks at `Y0`,
`Y1`, `Y2`, `Y3`, that of `X1` at `Y1`, `Y2`, `Y3`, `Y0`, and so on. -/
def forwardRound (f : Fin 4 → UInt8 → UInt32) (rk : Mem UInt32) (p : ℕ) (y : Words) : Words :=
  fun c => roundWord f (rk (p + c : ℕ)) fun i => y (c + i)

/-- A round of decryption: the assignment of `X0` looks at `Y0`, `Y3`, `Y2`, `Y1`, that of `X1` at
`Y1`, `Y0`, `Y3`, `Y2`, and so on. -/
def reverseRound (f : Fin 4 → UInt8 → UInt32) (rk : Mem UInt32) (p : ℕ) (y : Words) : Words :=
  fun c => roundWord f (rk (p + c : ℕ)) fun i => y (c - i)

/-- A byte of an S-box in place `k`, as the last rounds look it up. -/
def inPlace (box : Mem UInt8) (k : Fin 4) (b : UInt8) : UInt32 :=
  (box b.toNat).toUInt32 <<< UInt32.ofNat (8 * k)

/-- `AES_FROUND`. -/
def aesFround (t : Tables) : Mem UInt32 → ℕ → Words → Words :=
  forwardRound fun k b => t.ft k b.toNat

/-- `AES_RROUND`. -/
def aesRround (t : Tables) : Mem UInt32 → ℕ → Words → Words :=
  reverseRound fun k b => t.rt k b.toNat

/-- The last round of encryption. -/
def lastFround (t : Tables) : Mem UInt32 → ℕ → Words → Words := forwardRound (inPlace t.fsb)

/-- The last round of decryption. -/
def lastRround (t : Tables) : Mem UInt32 → ℕ → Words → Words := reverseRound (inPlace t.rsb)

/-! ### Blocks -/

/-- `MBEDTLS_PUT_UINT32_LE`. -/
def putUint32Le (n : UInt32) (data : Mem UInt8) (offset : ℕ) : Mem UInt8 :=
  let data := write data offset (byte 0 n)
  let data := write data (offset + 1 : ℕ) (byte 1 n)
  let data := write data (offset + 2 : ℕ) (byte 2 n)
  write data (offset + 3 : ℕ) (byte 3 n)

/-- The four words of a block, stored one after the other. -/
def putWords (x : Words) (output : Mem UInt8) : Mem UInt8 :=
  (List.finRange 4).foldl (fun output c => putUint32Le (x c) output (4 * c)) output

/-- The loop of two rounds at a time: the pointer `RK` and `t.X` after it. -/
def roundsLoop (round : ℕ → Words → Words) : ℕ → ℕ → Words → ℕ × Words
  | 0, p, x => (p, x)
  | i + 1, p, x =>
    let y := round p x
    let x := round (p + 4) y
    roundsLoop round i (p + 8) x

/-- A block through the rounds of a context. -/
def cryptBlock (round last : Mem UInt32 → ℕ → Words → Words) (ctx : AesContext)
    (input output : Mem UInt8) : Mem UInt8 :=
  let rk := ctx.buf
  let x := ![getUint32Le input 0 ^^^ rk 0, getUint32Le input 4 ^^^ rk 1,
    getUint32Le input 8 ^^^ rk 2, getUint32Le input 12 ^^^ rk 3]
  let s := roundsLoop (round rk) ((ctx.nr >>> 1) - 1) 4 x
  let y := round rk s.1 s.2
  let x := last rk (s.1 + 4) y
  putWords x output

/-- `mbedtls_internal_aes_encrypt`: the contents of `output`. -/
def internalAesEncrypt (t : Tables) : AesContext → Mem UInt8 → Mem UInt8 → Mem UInt8 :=
  cryptBlock (aesFround t) (lastFround t)

/-- `mbedtls_internal_aes_decrypt`: the contents of `output`. -/
def internalAesDecrypt (t : Tables) : AesContext → Mem UInt8 → Mem UInt8 → Mem UInt8 :=
  cryptBlock (aesRround t) (lastRround t)

/-- The values of `mode`. -/
inductive Mode
  | encrypt
  | decrypt
  deriving DecidableEq

/-- `mbedtls_aes_crypt_ecb`: the contents of `output`. -/
def aesCryptEcb (t : Tables) (ctx : AesContext) (mode : Mode) (input output : Mem UInt8) :
    Mem UInt8 :=
  if mode = .encrypt then internalAesEncrypt t ctx input output
  else internalAesDecrypt t ctx input output

/-! ### States -/

/-- Four words as a state of the cipher. -/
def state (x : Words) : State := fun c => column (x c)

/-- The state that a block is loaded into. -/
def blockState (m : Mem UInt8) : State := fun c r => ⟨m (4 * c + r : ℕ)⟩

/-- A column of the state after a round, from its tables. -/
theorem column_roundWord {f : Fin 4 → UInt8 → UInt32} {g : Fin 4 → Gf256 → Column}
    (hfg : ∀ k b, column (f k b) = g k ⟨b⟩) (k : UInt32) (y : Words) :
    column (roundWord f k y) = column k + ∑ i, g i (column (y i) i) := by
  have hfold : ∀ (l : List (Fin 4)) (x : UInt32),
      column (l.foldl (fun x i => x ^^^ f i (byte i (y i))) x) =
        column x + (l.map fun i => g i (column (y i) i)).sum := by
    intro l
    induction l with
    | nil => exact fun x => (add_zero _).symm
    | cons i l ih =>
        intro x
        rw [List.foldl_cons, ih, column_xor, hfg, List.map_cons, List.sum_cons, add_assoc]
        rfl
  rw [roundWord, hfold, Fin.sum_univ_def]

/-- A round of encryption on words: row `k` of the state is taken from the columns that are `k`
further on. -/
theorem state_forwardRound {f : Fin 4 → UInt8 → UInt32} {g : Fin 4 → Gf256 → Column}
    (hfg : ∀ k b, column (f k b) = g k ⟨b⟩) (rk : Mem UInt32) (n : ℕ) (y : Words) (c : Fin 4) :
    state (forwardRound f rk (4 * n) y) c =
      contextKey rk n c + ∑ k, g k (state y (c + k) k) :=
  column_roundWord hfg (rk (4 * n + c : ℕ)) fun i => y (c + i)

/-- A round of decryption takes them from the columns before. -/
theorem state_reverseRound {f : Fin 4 → UInt8 → UInt32} {g : Fin 4 → Gf256 → Column}
    (hfg : ∀ k b, column (f k b) = g k ⟨b⟩) (rk : Mem UInt32) (n : ℕ) (y : Words) (c : Fin 4) :
    state (reverseRound f rk (4 * n) y) c =
      contextKey rk n c + ∑ k, g k (state y (c - k) k) :=
  column_roundWord hfg (rk (4 * n + c : ℕ)) fun i => y (c - i)

section Tables

variable {t : Tables} (ht : t.Correct) (rk : Mem UInt32) (n : ℕ) (y : Words)
include ht

/-- A forward round is a round of the cipher. -/
theorem state_aesFround : state (aesFround t rk (4 * n) y) =
    mixColumns (shiftRows (subBytes (state y))) + contextKey rk n := by
  funext c
  rw [aesFround, state_forwardRound (g := fun k a r => mixMatrix r k * sbox a) ht.ft, add_comm]
  congr 1

/-- A reverse round is a round of the inverse cipher. -/
theorem state_aesRround : state (aesRround t rk (4 * n) y) =
    mixColumns.symm (shiftRows.symm (subBytes.symm (state y))) + contextKey rk n := by
  funext c
  rw [aesRround, state_reverseRound (g := fun k a r => invMixMatrix r k * sbox.symm a) ht.rt,
    add_comm]
  congr 1

omit ht in
/-- An entry of a box, taken in place, is one entry of a column. -/
theorem column_inPlace {box : Mem UInt8} {s : Gf256 → Gf256}
    (hbox : ∀ b : UInt8, (⟨box b.toNat⟩ : Gf256) = s ⟨b⟩) (k : Fin 4) (b : UInt8) :
    column (inPlace box k b) = Pi.single k (s ⟨b⟩) := by
  funext r
  rw [column, inPlace, byte_shiftLeft k.isLt r.isLt, ← hbox, Pi.single_apply]
  by_cases hrk : r = k
  · rw [if_pos (congrArg Fin.val hrk), if_pos hrk]
  · rw [if_neg fun h => hrk (Fin.ext h), if_neg hrk]
    rfl

/-- The last forward round mixes no columns. -/
theorem state_lastFround : state (lastFround t rk (4 * n) y) =
    shiftRows (subBytes (state y)) + contextKey rk n := by
  funext c
  rw [lastFround, state_forwardRound (g := fun k a => Pi.single k (sbox a))
    (column_inPlace ht.fsb), add_comm,
    Finset.univ_sum_single fun k => sbox (state y (c + k) k)]
  rfl

/-- Neither does the last reverse round. -/
theorem state_lastRround : state (lastRround t rk (4 * n) y) =
    shiftRows.symm (subBytes.symm (state y)) + contextKey rk n := by
  funext c
  rw [lastRround, state_reverseRound (g := fun k a => Pi.single k (sbox.symm a))
    (column_inPlace ht.rsb), add_comm,
    Finset.univ_sum_single fun k => sbox.symm (state y (c - k) k)]
  rfl

end Tables

/-! ### The rounds of a block -/

section Network

variable {N : SpNetwork State} {round last : Mem UInt32 → ℕ → Words → Words}

/-- The loop makes two rounds of the network at a time. -/
theorem roundsLoop_spec {rk : Mem UInt32} {x₀ : State}
    (hround : ∀ n y, state (round rk (4 * n) y) =
      N.mix (N.shift (N.sub (state y))) + contextKey rk n) {n : ℕ} {x : Words}
    (hx : state x = N.rounds (contextKey rk) n x₀) (i : ℕ) :
    (roundsLoop (round rk) i (4 * (n + 1)) x).1 = 4 * (n + 2 * i + 1) ∧
      state (roundsLoop (round rk) i (4 * (n + 1)) x).2 =
        N.rounds (contextKey rk) (n + 2 * i) x₀ := by
  induction i generalizing n x with
  | zero => exact ⟨rfl, hx⟩
  | succ i ih =>
      have hone : state (round rk (4 * (n + 1)) x) = N.rounds (contextKey rk) (n + 1) x₀ := by
        rw [hround, hx, SpNetwork.rounds]
      have htwo : state (round rk (4 * (n + 1 + 1)) (round rk (4 * (n + 1)) x)) =
          N.rounds (contextKey rk) (n + 2) x₀ := by
        rw [hround, hone]
        rfl
      obtain ⟨hp, hs⟩ := ih htwo
      rw [roundsLoop]
      have hcount : n + 2 * (i + 1) = n + 2 + 2 * i := by omega
      rw [hcount]
      exact ⟨hp, hs⟩

/-- The four bytes of the word are written, and no others. -/
theorem putUint32Le_apply (n : UInt32) (data : Mem UInt8) (offset : ℕ) (k : ℤ) :
    putUint32Le n data offset k =
      if offset ≤ k ∧ k < offset + 4 then byte (k - offset).toNat n else data k := by
  simp only [putUint32Le, write]
  by_cases hk : offset ≤ k ∧ k < offset + 4
  · obtain ⟨r, hr, rfl⟩ : ∃ r < 4, k = (offset + r : ℕ) := ⟨(k - offset).toNat, by omega, by omega⟩
    have hindex : ((offset + r : ℕ) - offset : ℤ).toNat = r := by omega
    rw [if_pos hk, hindex]
    obtain rfl | rfl | rfl | rfl : r = 0 ∨ r = 1 ∨ r = 2 ∨ r = 3 := by omega
    · rw [if_neg (by omega), if_neg (by omega), if_neg (by omega), if_pos (by omega)]
    · rw [if_neg (by omega), if_neg (by omega), if_pos rfl]
    · rw [if_neg (by omega), if_pos rfl]
    · rw [if_pos rfl]
  · rw [if_neg hk, if_neg (by omega), if_neg (by omega), if_neg (by omega), if_neg (by omega)]

/-- The word that was put is read back. -/
theorem getUint32Le_put_same (n : UInt32) (data : Mem UInt8) (offset : ℕ) :
    getUint32Le (putUint32Le n data offset) offset = n := by
  apply column_injective
  rw [column_getUint32Le]
  funext r
  rw [putUint32Le_apply, if_pos (by omega), column]
  congr 2
  omega

/-- A word elsewhere is not changed. -/
theorem getUint32Le_put_of_ne {n : UInt32} {data : Mem UInt8} {offset i : ℕ}
    (h : i + 4 ≤ offset ∨ offset + 4 ≤ i) :
    getUint32Le (putUint32Le n data offset) i = getUint32Le data i := by
  apply column_injective
  rw [column_getUint32Le, column_getUint32Le]
  funext r
  rw [putUint32Le_apply, if_neg (by omega)]

/-- A column of the state is the word at its place. -/
theorem blockState_apply (m : Mem UInt8) (c : Fin 4) :
    blockState m c = column (getUint32Le m (4 * c : ℕ)) := (column_getUint32Le m (4 * c)).symm

theorem putWords_eq (x : Words) (output : Mem UInt8) :
    putWords x output = putUint32Le (x 3) (putUint32Le (x 2) (putUint32Le (x 1)
      (putUint32Le (x 0) output 0) 4) 8) 12 := rfl

/-- The words that were put are the state that is read back. -/
theorem blockState_putWords (x : Words) (output : Mem UInt8) :
    blockState (putWords x output) = state x := by
  funext c
  rw [blockState_apply, putWords_eq, state]
  congr 1
  obtain rfl | rfl | rfl | rfl : c = 0 ∨ c = 1 ∨ c = 2 ∨ c = 3 := by omega
  · rw [getUint32Le_put_of_ne (by simp), getUint32Le_put_of_ne (by simp),
      getUint32Le_put_of_ne (by simp)]
    exact getUint32Le_put_same (x 0) output 0
  · rw [getUint32Le_put_of_ne (by simp), getUint32Le_put_of_ne (by simp)]
    exact getUint32Le_put_same (x 1) _ 4
  · rw [getUint32Le_put_of_ne (by simp)]
    exact getUint32Le_put_same (x 2) _ 8
  · exact getUint32Le_put_same (x 3) _ 12

/-- Outside the block nothing is written. -/
theorem putWords_of_outside (x : Words) (output : Mem UInt8) {k : ℤ} (hk : k < 0 ∨ 16 ≤ k) :
    putWords x output k = output k := by
  rw [putWords_eq, putUint32Le_apply, if_neg (by omega), putUint32Le_apply, if_neg (by omega),
    putUint32Le_apply, if_neg (by omega), putUint32Le_apply, if_neg (by omega)]

/-- A block is loaded, goes through the rounds and is stored: the network on the block. -/
theorem cryptBlock_eq (N : SpNetwork State) (round last : Mem UInt32 → ℕ → Words → Words)
    (ctx : AesContext)
    (hround : ∀ n y, state (round ctx.buf (4 * n) y) =
      N.mix (N.shift (N.sub (state y))) + contextKey ctx.buf n)
    (hlast : ∀ n y, state (last ctx.buf (4 * n) y) =
      N.shift (N.sub (state y)) + contextKey ctx.buf n) {h : ℕ} (hnr : ctx.nr = 2 * (h + 1))
    (input output : Mem UInt8) :
    blockState (cryptBlock round last ctx input output) =
        N.encrypt (contextKey ctx.buf) (ctx.nr - 1) (blockState input) ∧
      ∀ k : ℤ, k < 0 ∨ 16 ≤ k → cryptBlock round last ctx input output k = output k := by
  have hhalf : (ctx.nr >>> 1) - 1 = h := by
    rw [Nat.shiftRight_eq_div_pow]
    omega
  set x : Words := ![getUint32Le input 0 ^^^ ctx.buf 0, getUint32Le input 4 ^^^ ctx.buf 1,
    getUint32Le input 8 ^^^ ctx.buf 2, getUint32Le input 12 ^^^ ctx.buf 3] with hx
  have hload : state x = N.rounds (contextKey ctx.buf) 0 (blockState input) := by
    have hword : ∀ c : Fin 4, x c = getUint32Le input (4 * c : ℕ) ^^^ ctx.buf (4 * 0 + c : ℕ) := by
      intro c
      fin_cases c <;> rfl
    funext c
    rw [state, hword, column_xor, ← blockState_apply]
    rfl
  obtain ⟨hp, hs⟩ := roundsLoop_spec hround hload h
  rw [Nat.zero_add (2 * h)] at hp hs
  rw [cryptBlock, hhalf]
  refine ⟨?_, fun k hk => putWords_of_outside _ _ hk⟩
  have hlen : ctx.nr - 1 = 2 * h + 1 := by omega
  have hnext : 4 * (2 * h + 1) + 4 = 4 * (2 * h + 1 + 1) := by omega
  rw [blockState_putWords, hp, hnext, hlast, hround, hs, hlen]
  rfl

end Network

/-! ### Encryption and decryption -/

section Context

variable {t : Tables} (ht : t.Correct) {nk : ℕ} (hnk : nk = 4 ∨ nk = 6 ∨ nk = 8)
  {key : ℕ → Column} {buf : Mem UInt32}
include ht hnk

/-- Encryption with the words of an expanded key is AES. -/
theorem internalAesEncrypt_eq (hkey : Expanded nk key buf (4 * (nk + 7)))
    (input output : Mem UInt8) :
    blockState (internalAesEncrypt t ⟨nk + 6, buf⟩ input output) =
        Rijndael.cipher nk key (blockState input) ∧
      ∀ k : ℤ, k < 0 ∨ 16 ≤ k →
        internalAesEncrypt t ⟨nk + 6, buf⟩ input output k = output k := by
  have heven : nk + 6 = 2 * ((nk + 4) / 2 + 1) := by omega
  obtain ⟨hstate, hframe⟩ := cryptBlock_eq network (aesFround t) (lastFround t) ⟨nk + 6, buf⟩
    (state_aesFround ht buf) (state_lastFround ht buf) heven input output
  refine ⟨hstate.trans ?_, hframe⟩
  exact SpNetwork.encrypt_congr (fun i hi => hkey.contextKey_eq hi) (blockState input)

/-- Decryption with the keys of the inverse network is the inverse of AES. -/
theorem internalAesDecrypt_eq
    (hkey : ∀ n ≤ nk + 6, contextKey buf n = network.inverseKeys (roundKey nk key) (nk + 5) n)
    (input output : Mem UInt8) :
    blockState (internalAesDecrypt t ⟨nk + 6, buf⟩ input output) =
        (Rijndael.cipher nk key).symm (blockState input) ∧
      ∀ k : ℤ, k < 0 ∨ 16 ≤ k →
        internalAesDecrypt t ⟨nk + 6, buf⟩ input output k = output k := by
  have heven : nk + 6 = 2 * ((nk + 4) / 2 + 1) := by omega
  obtain ⟨hstate, hframe⟩ := cryptBlock_eq network.inverse (aesRround t) (lastRround t)
    ⟨nk + 6, buf⟩ (state_aesRround ht buf) (state_lastRround ht buf) heven input output
  refine ⟨hstate.trans ?_, hframe⟩
  exact SpNetwork.encrypt_congr hkey (blockState input)

end Context

/-! ### Over the calls -/

/-- A call that sets a key, with what it finds on the stack. -/
inductive Call
  | setkeyEnc (stack : Mem ℕ × Mem ℕ) (ctx : AesContext) (key : Mem UInt8) (keybits : ℕ)
  | setkeyDec (stack : Mem ℕ × Mem ℕ) (ctx : AesContext) (key : Mem UInt8) (keybits : ℕ)

/-- The statics after a call. -/
def Call.run (s : Statics) : Call → Statics
  | .setkeyEnc stack ctx key keybits => (aesSetkeyEnc stack s ctx key keybits).2.1
  | .setkeyDec stack ctx key keybits => (aesSetkeyDec stack s ctx key keybits).2.1

/-- The statics when the program starts: all zeros. -/
def Statics.boot : Statics where
  aesInitDone := false
  tables :=
    { fsb := fun _ => 0, ft0 := fun _ => 0, ft1 := fun _ => 0, ft2 := fun _ => 0, ft3 := fun _ => 0,
      rsb := fun _ => 0, rt0 := fun _ => 0, rt1 := fun _ => 0, rt2 := fun _ => 0, rt3 := fun _ => 0,
      rcon := fun _ => 0 }

/-- The statics after some calls. -/
def Statics.after (s : Statics) (calls : List Call) : Statics := calls.foldl Call.run s

/-- Before the first call there are no tables that could be wrong. -/
theorem Statics.boot_ok : Statics.boot.Ok := fun h => absurd h (by decide)

/-- A call keeps the tables correct. -/
theorem Call.run_ok {s : Statics} (h : s.Ok) (call : Call) : (call.run s).Ok := by
  cases call with
  | setkeyEnc stack ctx key keybits => exact aesSetkeyEnc_ok h stack ctx key keybits
  | setkeyDec stack ctx key keybits => exact aesSetkeyDec_ok h stack ctx key keybits

/-- So do any calls. -/
theorem Statics.after_ok {s : Statics} (h : s.Ok) (calls : List Call) : (s.after calls).Ok := by
  induction calls generalizing s with
  | nil => exact h
  | cons call calls ih => exact ih (call.run_ok h)

/-- The tables are generated once: the calls that come later leave the statics alone. -/
theorem aesSetkeyEnc_of_done {s : Statics} (h : s.aesInitDone = true) (stack : Mem ℕ × Mem ℕ)
    (ctx : AesContext) (key : Mem UInt8) (keybits : ℕ) :
    (aesSetkeyEnc stack s ctx key keybits).2.1 = s := by
  rw [aesSetkeyEnc]
  split
  · rfl
  · exact if_pos h

/-- Once the tables are made, nothing changes them. -/
theorem Statics.after_of_done {s : Statics} (h : s.aesInitDone = true) (calls : List Call) :
    s.after calls = s := by
  induction calls with
  | nil => rfl
  | cons call calls ih =>
      have hcall : call.run s = s := by
        cases call with
        | setkeyEnc stack ctx key keybits => exact aesSetkeyEnc_of_done h stack ctx key keybits
        | setkeyDec stack ctx key keybits =>
            exact (aesSetkeyDec_statics stack s ctx key keybits).trans
              (aesSetkeyEnc_of_done h stack aesInit key keybits)
      rw [after, List.foldl_cons, hcall]
      exact ih

/-- `initTables` leaves the tables made. -/
theorem initTables_done (stack : Mem ℕ × Mem ℕ) (s : Statics) :
    (initTables stack s).aesInitDone = true := by
  rw [initTables]
  split
  · assumption
  · rfl

/-- What a call that found a valid length leaves is what any later call finds. -/
theorem initTables_after (stack : Mem ℕ × Mem ℕ) (s : Statics) (calls : List Call) :
    (initTables stack s).after calls = initTables stack s :=
  Statics.after_of_done (initTables_done stack s) calls

/-- The calls with a length that there is a number of rounds for. -/
def Call.Valid : Call → Prop
  | .setkeyEnc _ _ _ keybits => rounds keybits ≠ none
  | .setkeyDec _ _ _ keybits => rounds keybits ≠ none

/-- So does `aes_setkey_enc`, unless it refuses the key size. -/
theorem aesSetkeyEnc_done {keybits : ℕ} (h : rounds keybits ≠ none) (stack : Mem ℕ × Mem ℕ)
    (s : Statics) (ctx : AesContext) (key : Mem UInt8) :
    (aesSetkeyEnc stack s ctx key keybits).2.1.aesInitDone = true := by
  obtain ⟨nr, hnr⟩ := Option.ne_none_iff_exists'.mp h
  rw [aesSetkeyEnc, hnr]
  exact initTables_done stack s

/-- So does a valid call. -/
theorem Call.run_done {call : Call} (h : call.Valid) (s : Statics) :
    (call.run s).aesInitDone = true := by
  cases call with
  | setkeyEnc stack ctx key keybits => exact aesSetkeyEnc_done h stack s ctx key
  | setkeyDec stack ctx key keybits =>
      rw [run, aesSetkeyDec_statics]
      exact aesSetkeyEnc_done h stack s aesInit key

/-- Calls are made one after the other. -/
theorem Statics.after_append (s : Statics) (calls calls' : List Call) :
    s.after (calls ++ calls') = (s.after calls).after calls' := List.foldl_append

/-- The tables are those of the cipher in every run of calls with a valid one among them, whatever
the stack held when they were generated. -/
theorem tables_correct_of_valid {calls : List Call} {call : Call} (hmem : call ∈ calls)
    (hvalid : call.Valid) : (Statics.boot.after calls).tables.Correct := by
  obtain ⟨before, later, rfl⟩ := List.append_of_mem hmem
  have hok := Statics.after_ok Statics.boot_ok (before ++ call :: later)
  apply hok
  have hdone := Call.run_done hvalid (Statics.boot.after before)
  rw [Statics.after_append]
  have hlater := Statics.after_of_done hdone later
  exact (congrArg Statics.aesInitDone hlater).trans hdone

/-- The tables after a first call. -/
theorem tables_correct_of_valid_first :
    (Statics.boot.after
      [.setkeyEnc (fun _ => 7, fun _ => 7) aesInit (fun _ => 1) 128]).tables.Correct :=
  tables_correct_of_valid List.mem_cons_self (by decide : rounds 128 ≠ none)

/-- A key of 128, 192 or 256 bits that is set after any calls is expanded by the key schedule of
AES, for encryption, and for decryption to the keys of the inverse network. -/
theorem setkey_after_calls (calls : List Call) (stack : Mem ℕ × Mem ℕ) (ctx : AesContext)
    (key : Mem UInt8) {nk : ℕ} (hnk : nk = 4 ∨ nk = 6 ∨ nk = 8) :
    (∃ s buf, aesSetkeyEnc stack (Statics.boot.after calls) ctx key (32 * nk) =
        (0, s, ⟨nk + 6, buf⟩) ∧
      ∀ n ≤ nk + 6, contextKey buf n = roundKey nk (keyWord key) n) ∧
    ∃ s buf, aesSetkeyDec stack (Statics.boot.after calls) ctx key (32 * nk) =
        (0, s, ⟨nk + 6, buf⟩) ∧
      ∀ n ≤ nk + 6, contextKey buf n =
        network.inverseKeys (roundKey nk (keyWord key)) (nk + 5) n := by
  have hok := Statics.after_ok Statics.boot_ok calls
  obtain ⟨buf, henc, hexp⟩ := aesSetkeyEnc_eq hok hnk stack ctx key
  obtain ⟨buf', hdec, hinv⟩ := aesSetkeyDec_eq hok hnk stack ctx key
  exact ⟨⟨_, buf, henc, fun n hn => hexp.contextKey_eq hn⟩, _, buf', hdec, hinv⟩

/-- Both schedules of a key of 256 bits, before any other call. -/
theorem setkey_after_calls_256 :
    (∃ s buf, aesSetkeyEnc (fun _ => 0, fun _ => 0) (Statics.boot.after []) aesInit (fun _ => 0)
        (32 * 8) = (0, s, ⟨8 + 6, buf⟩) ∧
      ∀ n ≤ 8 + 6, contextKey buf n = roundKey 8 (keyWord fun _ => 0) n) ∧
    ∃ s buf, aesSetkeyDec (fun _ => 0, fun _ => 0) (Statics.boot.after []) aesInit (fun _ => 0)
        (32 * 8) = (0, s, ⟨8 + 6, buf⟩) ∧
      ∀ n ≤ 8 + 6, contextKey buf n =
        network.inverseKeys (roundKey 8 (keyWord fun _ => 0)) (8 + 5) n :=
  setkey_after_calls [] (fun _ => 0, fun _ => 0) aesInit (fun _ => 0) (.inr (.inr rfl))

section Crypt

variable (calls : List Call) {stack : Mem ℕ × Mem ℕ} {ctx ctx' : AesContext} {key : Mem UInt8}
  {nk : ℕ} {s₀ s : Statics} (hok : s₀.Ok) (hnk : nk = 4 ∨ nk = 6 ∨ nk = 8)
include hok hnk

/-- Encryption with a context, after any calls that have come since its key was set. -/
theorem aesCryptEcb_encrypt
    (hset : aesSetkeyEnc stack s₀ ctx key (32 * nk) = (0, s, ctx'))
    (input output : Mem UInt8) :
    blockState (aesCryptEcb (s.after calls).tables ctx' .encrypt input output) =
        Rijndael.cipher nk (keyWord key) (blockState input) ∧
      ∀ k : ℤ, k < 0 ∨ 16 ≤ k →
        aesCryptEcb (s.after calls).tables ctx' .encrypt input output k = output k := by
  obtain ⟨buf, henc, hexp⟩ := aesSetkeyEnc_eq hok hnk stack ctx key
  rw [henc] at hset
  obtain ⟨-, rfl, rfl⟩ : (0 : ℤ) = 0 ∧ initTables stack s₀ = s ∧ ⟨nk + 6, buf⟩ = ctx' := by
    simpa only [Prod.mk.injEq] using hset
  rw [initTables_after]
  exact internalAesEncrypt_eq (initTables_correct hok stack) hnk hexp input output

/-- With a key set for decryption, a block is decrypted, and nothing else is written. -/
theorem aesCryptEcb_decrypt
    (hset : aesSetkeyDec stack s₀ ctx key (32 * nk) = (0, s, ctx'))
    (input output : Mem UInt8) :
    blockState (aesCryptEcb (s.after calls).tables ctx' .decrypt input output) =
        (Rijndael.cipher nk (keyWord key)).symm (blockState input) ∧
      ∀ k : ℤ, k < 0 ∨ 16 ≤ k →
        aesCryptEcb (s.after calls).tables ctx' .decrypt input output k = output k := by
  obtain ⟨buf, hdec, hinv⟩ := aesSetkeyDec_eq hok hnk stack ctx key
  rw [hdec] at hset
  obtain ⟨-, rfl, rfl⟩ : (0 : ℤ) = 0 ∧ initTables stack s₀ = s ∧ ⟨nk + 6, buf⟩ = ctx' := by
    simpa only [Prod.mk.injEq] using hset
  rw [initTables_after]
  exact internalAesDecrypt_eq (initTables_correct hok stack) hnk hinv input output

end Crypt

/-- The state of a block is its sixteen bytes. -/
theorem cells_eq_of_blockState {m m' : Mem UInt8} (h : blockState m = blockState m') :
    cells m 16 = cells m' 16 := by
  rw [cells_eq_iff]
  intro k hk
  have hcell := congrFun (congrFun h ⟨k / 4, by omega⟩) ⟨k % 4, by omega⟩
  simp only [blockState, Nat.div_add_mod] at hcell
  exact congrArg Gf256.toByte hcell

/-- A block is encrypted to what AES makes of it, and decrypted to what AES made it from, with a
key of 128, 192 or 256 bits and whatever other calls come before the key is set and between that
and the block. -/
theorem crypt_after_calls (calls between : List Call) (stack : Mem ℕ × Mem ℕ) (ctx : AesContext)
    (key input output : Mem UInt8) {nk : ℕ} (hnk : nk = 4 ∨ nk = 6 ∨ nk = 8) :
    (∃ s ctx', aesSetkeyEnc stack (Statics.boot.after calls) ctx key (32 * nk) = (0, s, ctx') ∧
      blockState (aesCryptEcb (s.after between).tables ctx' .encrypt input output) =
        Rijndael.cipher nk (keyWord key) (blockState input)) ∧
    ∃ s ctx', aesSetkeyDec stack (Statics.boot.after calls) ctx key (32 * nk) = (0, s, ctx') ∧
      blockState (aesCryptEcb (s.after between).tables ctx' .decrypt input output) =
        (Rijndael.cipher nk (keyWord key)).symm (blockState input) := by
  have hok := Statics.after_ok Statics.boot_ok calls
  obtain ⟨buf, henc, -⟩ := aesSetkeyEnc_eq hok hnk stack ctx key
  obtain ⟨buf', hdec, -⟩ := aesSetkeyDec_eq hok hnk stack ctx key
  exact ⟨⟨_, _, henc, (aesCryptEcb_encrypt between hok hnk henc input output).1⟩,
    _, _, hdec, (aesCryptEcb_decrypt between hok hnk hdec input output).1⟩

/-- A block under a key of 128 bits, encrypted and decrypted. -/
theorem crypt_after_calls_128 :
    (∃ s ctx', aesSetkeyEnc (fun _ => 0, fun _ => 0) (Statics.boot.after []) aesInit (fun _ => 0)
        (32 * 4) = (0, s, ctx') ∧
      blockState (aesCryptEcb (s.after []).tables ctx' .encrypt (fun _ => 1) fun _ => 0) =
        Rijndael.cipher 4 (keyWord fun _ => 0) (blockState fun _ => 1)) ∧
    ∃ s ctx', aesSetkeyDec (fun _ => 0, fun _ => 0) (Statics.boot.after []) aesInit (fun _ => 0)
        (32 * 4) = (0, s, ctx') ∧
      blockState (aesCryptEcb (s.after []).tables ctx' .decrypt (fun _ => 1) fun _ => 0) =
        (Rijndael.cipher 4 (keyWord fun _ => 0)).symm (blockState fun _ => 1) :=
  crypt_after_calls [] [] (fun _ => 0, fun _ => 0) aesInit (fun _ => 0) (fun _ => 1) (fun _ => 0)
    (.inl rfl)

/-- Two contexts with one key, for the two directions: each takes back what the other one did,
whatever other keys are set before, between and after. -/
theorem crypt_roundtrip (calls between later : List Call) (stack stack' : Mem ℕ × Mem ℕ)
    (ctx ctx' : AesContext) (key : Mem UInt8) {nk : ℕ} (hnk : nk = 4 ∨ nk = 6 ∨ nk = 8) :
    ∃ s e s' d, aesSetkeyEnc stack (Statics.boot.after calls) ctx key (32 * nk) = (0, s, e) ∧
      aesSetkeyDec stack' (s.after between) ctx' key (32 * nk) = (0, s', d) ∧
      ∀ input output output' : Mem UInt8,
        cells (aesCryptEcb (s'.after later).tables d .decrypt
          (aesCryptEcb (s'.after later).tables e .encrypt input output) output') 16 =
            cells input 16 ∧
        cells (aesCryptEcb (s'.after later).tables e .encrypt
          (aesCryptEcb (s'.after later).tables d .decrypt input output) output') 16 =
            cells input 16 := by
  have hok := Statics.after_ok Statics.boot_ok calls
  obtain ⟨buf, henc, -⟩ := aesSetkeyEnc_eq hok hnk stack ctx key
  set s := initTables stack (Statics.boot.after calls) with hs
  have hok' : (s.after between).Ok :=
    Statics.after_ok (fun _ => initTables_correct hok stack) between
  obtain ⟨buf', hdec, -⟩ := aesSetkeyDec_eq hok' hnk stack' ctx' key
  -- the second call finds the tables of the first one
  have hsame : initTables stack' (s.after between) = s := by
    rw [hs, initTables_after]
    exact if_pos (initTables_done stack _)
  rw [hsame] at hdec
  have hencrypt := aesCryptEcb_encrypt later hok hnk henc
  have hdecrypt := aesCryptEcb_decrypt later hok' hnk hdec
  refine ⟨s, _, s, _, henc, hdec, fun input output output' => ⟨?_, ?_⟩⟩
  · apply cells_eq_of_blockState
    rw [(hdecrypt _ output').1, (hencrypt input output).1, Equiv.symm_apply_apply]
  · apply cells_eq_of_blockState
    rw [(hencrypt _ output').1, (hdecrypt input output).1, Equiv.apply_symm_apply]

/-- A key of 192 bits; between the two calls a longer one is set. -/
theorem crypt_roundtrip_192 :
    let zeros : Mem UInt8 := fun _ => 0
    let stack : Mem ℕ × Mem ℕ := (fun _ => 0, fun _ => 0)
    ∃ s e s' d, aesSetkeyEnc stack (Statics.boot.after []) aesInit zeros (32 * 6) = (0, s, e) ∧
      aesSetkeyDec stack (s.after [.setkeyEnc stack aesInit zeros 256]) aesInit zeros (32 * 6) =
        (0, s', d) ∧
      ∀ input output output' : Mem UInt8,
        cells (aesCryptEcb (s'.after []).tables d .decrypt
          (aesCryptEcb (s'.after []).tables e .encrypt input output) output') 16 =
            cells input 16 ∧
        cells (aesCryptEcb (s'.after []).tables e .encrypt
          (aesCryptEcb (s'.after []).tables d .decrypt input output) output') 16 =
            cells input 16 :=
  crypt_roundtrip [] [.setkeyEnc _ aesInit _ 256] [] _ _ aesInit aesInit _ (.inr (.inl rfl))

end LCore.Mbedtls
