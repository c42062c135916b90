import LCore.Encryption
import LCore.Lib.Lts

/-!
# Token Headers

Every payload starts with a token, and so does the answer that resynchronises two nodes: a
number in `TOKEN_SIZE` big-endian bytes, written by `_split_to_bytes` and read by
`_merge_from_bytes`. The two loops run in opposite directions; `splitToBytes_codec` says that
they are inverse to each other, and what is left of a number that does not fit its bytes.

The sender counts its messages to each address modulo `TOKEN_MAX`. A series of calls of
`encrypt` is written down with whatever happens to the globals between them: the listener
decrypts, tokens to other addresses are swapped. As long as nothing but `encrypt` touches the
counter of an address, the headers of its messages count up from where it stood:
`headers_series`, for every token size that `frame_spec.h` allows.

## Main results

* `splitToBytes_codec`: the round trips of the header codec.
* `header_run`, `cells_output_run`: the header a call writes, and the cipher text behind which
  it goes out.
* `headers_series`: the headers of a series of calls, and that they do not repeat before the
  counter wraps.
-/

open Memory Machine BigEndian

namespace LCore

namespace TokenHeader

open Encryption

/-! ### The codec -/

/-- Reading back the bytes of a number gives the number modulo `256 ^ n`: the shifts of
`_merge_from_bytes` drop nothing that `_split_to_bytes` has written. -/
theorem toNat_merge_split (array : Mem UInt8) (x : UInt32) (n : UInt8) :
    (mergeFromBytes (splitToBytes array x n) n).toNat = x.toNat % 256 ^ n.toNat := by
  have hx := x.toNat_lt
  have hle := Nat.mod_le x.toNat (256 ^ n.toNat)
  rw [toNat_mergeFromBytes, cells_splitToBytes, ofBytes_toBytes]
  exact Nat.mod_eq_of_lt (by omega)

/-- Four bytes hold every number. -/
theorem merge_split_of_le (array : Mem UInt8) (x : UInt32) {n : UInt8} (h : 4 ≤ n.toNat) :
    mergeFromBytes (splitToBytes array x n) n = x := by
  have hpow : 256 ^ 4 ≤ 256 ^ n.toNat := Nat.pow_le_pow_right (by omega) h
  have hx : x.toNat < 256 ^ n.toNat := Nat.lt_of_lt_of_le x.toNat_lt hpow
  apply UInt32.toNat_inj.mp
  rw [toNat_merge_split, Nat.mod_eq_of_lt hx]

/-- The number of at most four bytes is written back as the same bytes. -/
theorem cells_split_merge (a b : Mem UInt8) {n : UInt8} (h : n.toNat ≤ 4) :
    cells (splitToBytes b (mergeFromBytes a n) n) n.toNat = cells a n.toNat := by
  have hpow : 256 ^ n.toNat ≤ 256 ^ 4 := Nat.pow_le_pow_right (by omega) h
  have hlt := ofBytes_lt (cells a n.toNat)
  rw [length_cells] at hlt
  rw [cells_splitToBytes, toNat_mergeFromBytes, Nat.mod_eq_of_lt (by omega)]
  have hback := toBytes_ofBytes (cells a n.toNat)
  rwa [length_cells] at hback

/-- The `n` bytes are all that is written. -/
theorem split_merge (a b : Mem UInt8) {n : UInt8} (h : n.toNat ≤ 4) :
    splitToBytes b (mergeFromBytes a n) n = copy b 0 a n.toNat := by
  have hcells := cells_eq_iff.mp (cells_split_merge a b h)
  funext k
  by_cases hk : 0 ≤ k ∧ k < n.toNat
  · obtain ⟨i, rfl⟩ := Int.eq_ofNat_of_zero_le hk.1
    rw [hcells i (by omega), copy_of_mem hk.1 (by omega), sub_zero]
  · rw [splitToBytes, splitLoop_of_ge _ _ _ (by omega)]
    by_cases hneg : k < 0
    · rw [copy_of_lt hneg]
    · rw [copy_of_ge (by omega)]

/-- **The header codec.** For every number of bytes and every number, `_merge_from_bytes` reads
what `_split_to_bytes` wrote as the number modulo `256 ^ n`, which from four bytes on is the
number; and up to four bytes, whatever was read is written back exactly, byte by byte and
nothing else. -/
theorem splitToBytes_codec (n : UInt8) :
    (∀ array x, (mergeFromBytes (splitToBytes array x n) n).toNat = x.toNat % 256 ^ n.toNat) ∧
    (4 ≤ n.toNat → ∀ array x, mergeFromBytes (splitToBytes array x n) n = x) ∧
    (n.toNat ≤ 4 → ∀ a b, splitToBytes b (mergeFromBytes a n) n = copy b 0 a n.toNat) :=
  ⟨fun array x => toNat_merge_split array x n, fun h array x => merge_split_of_le array x h,
    fun h a b => split_merge a b h⟩

/-- Four bytes, where both directions lose nothing. -/
theorem splitToBytes_codec_four :
    (∀ array x, mergeFromBytes (splitToBytes array x 4) 4 = x) ∧
      ∀ a b, splitToBytes b (mergeFromBytes a 4) 4 = copy b 0 a 4 := by
  obtain ⟨-, hmerge, hsplit⟩ := splitToBytes_codec 4
  exact ⟨hmerge (by decide), hsplit (by decide)⟩

/-! ### A series of calls -/

/-- The arguments of a call of `encrypt`. -/
structure Request where
  input : Mem UInt8
  inSize : UInt8
  output : Mem UInt8
  destAddress : UInt8

/-- What a call leaves: the globals, the contents of `output` and `*out_size`. -/
structure Written where
  request : Request
  globals : Globals
  output : Mem UInt8
  outSize : UInt8

/-- A call of `encrypt` for tokens of `size` bytes. -/
def Request.run (size : UInt8) (aes : Aes) (g : Globals) (c : Request) : Written :=
  let e := encryptOf size aes g c.input c.inSize c.output c.destAddress
  ⟨c, e.1, e.2.1, e.2.2⟩

/-- What happens at a node: a call of `encrypt`, or anything else, by the globals it leaves. -/
inductive Event
  | encrypt (c : Request)
  | other (g : Globals)

/-- The globals after an event. -/
def next (size : UInt8) (aes : Aes) (g : Globals) : Event → Globals
  | .encrypt c => (c.run size aes g).globals
  | .other g' => g'

/-- Events as steps of a system: each can always happen. -/
def step (size : UInt8) (aes : Aes) (g : Globals) (e : Event) : Option Globals :=
  some (next size aes g e)

/-- What the calls of `encrypt` leave, one after the other. -/
def series (size : UInt8) (aes : Aes) : Globals → List Event → List Written
  | _, [] => []
  | g, .encrypt c :: es =>
      c.run size aes g :: series size aes (next size aes g (.encrypt c)) es
  | g, .other g' :: es => series size aes (next size aes g (.other g')) es

/-- The calls to one destination. -/
def sentTo (d : UInt8) (ws : List Written) : List Written :=
  ws.filter fun w => w.request.destAddress = d

/-- A message to the same peer. -/
theorem sentTo_cons_of_eq {d : UInt8} {w : Written} {ws : List Written}
    (h : w.request.destAddress = d) : sentTo d (w :: ws) = w :: sentTo d ws :=
  List.filter_cons_of_pos (decide_eq_true h)

/-- A message to another one. -/
theorem sentTo_cons_of_ne {d : UInt8} {w : Written} {ws : List Written}
    (h : w.request.destAddress ≠ d) : sentTo d (w :: ws) = sentTo d ws :=
  List.filter_cons_of_neg (by simpa using h)

/-- The header a call has written. -/
def header (size : UInt8) (w : Written) : List UInt8 := cells w.globals.encBuf size.toNat

/-- Nothing but `encrypt` touches the send counter of `d`: its token is not swapped. -/
def KeepsToken (d : UInt8) (g : Globals) : Event → Prop
  | .encrypt _ => True
  | .other g' => g'.sendTokens d = g.sendTokens d

/-- What the listener decrypts leaves every send counter alone. -/
theorem keepsToken_decrypt (aes : Aes) (d : UInt8) (g : Globals) (input output : Mem UInt8)
    (inSize outSize sender : UInt8) :
    KeepsToken d g (.other (decrypt aes g input inSize output outSize sender).2.1) :=
  congrFun (decrypt_sendTokens aes g input output inSize outSize sender) d

/-- A token swap for one address leaves the counters of the others alone. -/
theorem keepsToken_swapToken (aes : Aes) {d address : UInt8} (h : d ≠ address) (g : Globals)
    (msg newToken : Mem UInt8) (msgSize : UInt8) :
    KeepsToken d g (.other (swapToken aes g msg msgSize address newToken).1) :=
  Function.update_of_ne h _ _

/-! ### One call -/

section Run

variable (size : UInt8) (aes : Aes) (g : Globals) (c : Request)

/-- The counter of the destination moves on by one. -/
theorem sendTokens_run :
    (c.run size aes g).globals.sendTokens =
      Function.update g.sendTokens c.destAddress
        (nextSendToken size (g.sendTokens c.destAddress)) :=
  rfl

/-- The header is the token the counter has moved to; the message is copied behind it. -/
theorem header_run :
    header size (c.run size aes g) =
      toBytes size.toNat (counter (nextSendToken size (g.sendTokens c.destAddress))) := by
  have hbuf : (c.run size aes g).globals.encBuf =
      copy (splitToBytes g.encBuf (nextSendToken size (g.sendTokens c.destAddress)).toUInt32 size)
        size.toNat c.input c.inSize.toNat := rfl
  rw [header, hbuf, cells_copy_of_le (le_refl _), cells_splitToBytes]
  rfl

variable (hfits : size.toNat + c.inSize.toNat < 112)

include hfits

/-- A call whose payload an `int8_t` can measure reports the size of its cipher text. -/
theorem outSize_run :
    (c.run size aes g).outSize.toNat = Cipher.paddedSize (size.toNat + c.inSize.toNat) := by
  have hlen : (cells c.input c.inSize.toNat).length = c.inSize.toNat := length_cells _ _
  have hm : size.toNat + (cells c.input c.inSize.toNat).length < 112 := by
    rw [hlen]
    exact hfits
  obtain ⟨encBuf, msg, hrun, -⟩ := encryptOf_spec aes g c.output c.destAddress hm
    (congrArg (cells c.input) hlen)
  rw [hlen, UInt8.ofNat_toNat] at hrun
  simp only [Request.run, hrun]
  rw [UInt8.toNat_ofNat', Cipher.paddedSize]
  omega

/-- It writes the cipher text of header and message. -/
theorem cells_output_run :
    cells (c.run size aes g).output (c.run size aes g).outSize.toNat =
      Cipher.cipherText aes
        (header size (c.run size aes g) ++ cells c.input c.inSize.toNat) := by
  have hlen : (cells c.input c.inSize.toNat).length = c.inSize.toNat := length_cells _ _
  have hm : size.toNat + (cells c.input c.inSize.toNat).length < 112 := by
    rw [hlen]
    exact hfits
  obtain ⟨encBuf, msg, hrun, hmsg⟩ := encryptOf_spec aes g c.output c.destAddress hm
    (congrArg (cells c.input) hlen)
  rw [hlen] at hrun hmsg
  rw [UInt8.ofNat_toNat] at hrun
  rw [outSize_run size aes g c hfits, header_run, ← hmsg]
  simp only [Request.run, hrun]

end Run

/-! ### All calls -/

section Series

variable {size : UInt8} (h₁ : 1 ≤ size.toNat) (h₄ : size.toNat ≤ 4) (aes : Aes) (d : UInt8)

/-- Every call of a series is a call with some globals. -/
theorem exists_run_of_mem {g : Globals} {es : List Event} {w : Written}
    (hw : w ∈ series size aes g es) : ∃ g' c, w = Request.run size aes g' c := by
  induction es generalizing g with
  | nil => exact absurd hw List.not_mem_nil
  | cons e es ih =>
      cases e with
      | encrypt c =>
          rcases List.mem_cons.mp hw with rfl | hw
          · exact ⟨g, c, rfl⟩
          · exact ih hw
      | other g' => exact ih hw

/-- A call to another destination leaves the counter of `d` alone. -/
theorem sendTokens_next_of_ne {g : Globals} {c : Request} (hd : c.destAddress ≠ d) :
    (next size aes g (.encrypt c)).sendTokens d = g.sendTokens d := by
  rw [next, sendTokens_run]
  exact Function.update_of_ne (Ne.symm hd) _ _

include h₁ h₄

/-- A call to `d` moves it on. -/
theorem counter_next {g : Globals} {c : Request} (hd : c.destAddress = d)
    (hstart : counter (g.sendTokens d) < (tokenMaxOf size).toNat) :
    counter ((next size aes g (.encrypt c)).sendTokens d) =
      (counter (g.sendTokens d) + 1) % (tokenMaxOf size).toNat := by
  rw [next, sendTokens_run, hd, Function.update_self]
  exact counter_nextSendToken h₁ h₄ hstart

/-- The headers to `d` count up from where its counter stood, modulo `TOKEN_MAX`. -/
theorem header_series {g : Globals} {es : List Event}
    (hstart : counter (g.sendTokens d) < (tokenMaxOf size).toNat)
    (hkeep : Lts.Along (step size aes) (KeepsToken d) g es) {k : ℕ} {w : Written}
    (hw : (sentTo d (series size aes g es))[k]? = some w) :
    header size w =
      toBytes size.toNat ((counter (g.sendTokens d) + (k + 1)) % (tokenMaxOf size).toNat) := by
  induction es generalizing g k with
  | nil => exact absurd hw (by simp [series, sentTo])
  | cons e es ih =>
      have hrest := hkeep.2 _ rfl
      cases e with
      | other g' =>
          have hsame : g'.sendTokens d = g.sendTokens d := hkeep.1
          rw [← hsame] at hstart ⊢
          exact ih hstart hrest hw
      | encrypt c =>
          by_cases hd : c.destAddress = d
          · have hnext := counter_next h₁ h₄ aes d hd hstart
            have hfirst : sentTo d (series size aes g (.encrypt c :: es)) = c.run size aes g ::
                sentTo d (series size aes (next size aes g (.encrypt c)) es) :=
              sentTo_cons_of_eq hd
            rw [hfirst] at hw
            cases k with
            | zero =>
                obtain rfl := Option.some.inj hw
                rw [header_run, hd, counter_nextSendToken h₁ h₄ hstart]
            | succ k =>
                have hlt := Nat.mod_lt (counter (g.sendTokens d) + 1)
                  (Nat.zero_lt_of_lt hstart)
                rw [← hnext] at hlt
                rw [ih hlt hrest hw, hnext, Nat.mod_add_mod]
                congr 2
                omega
          · have hsame : (next size aes g (.encrypt c)).sendTokens d = g.sendTokens d :=
              sendTokens_next_of_ne aes d hd
            have hfirst : sentTo d (series size aes g (.encrypt c :: es)) =
                sentTo d (series size aes (next size aes g (.encrypt c)) es) :=
              sentTo_cons_of_ne hd
            rw [hfirst] at hw
            rw [← hsame] at hstart ⊢
            exact ih hstart hrest hw

/-- Big-endian headers of tokens tell the tokens apart. -/
theorem toBytes_ne {t u : ℕ} (ht : t < (tokenMaxOf size).toNat) (hu : u < (tokenMaxOf size).toNat)
    (hne : t ≠ u) : toBytes size.toNat t ≠ toBytes size.toNat u := by
  have hmax := toNat_tokenMaxOf h₁ h₄
  intro heq
  have hread := congrArg ofBytes heq
  rw [ofBytes_toBytes_of_lt (by omega), ofBytes_toBytes_of_lt (by omega)] at hread
  exact hne hread

/-- **Headers of a series.** For every token size the frame allows, every start of the counter
and every series of events in which nothing but `encrypt` touches the counter of `d`: the `k`-th
call to `d` writes the token `start + k` modulo `TOKEN_MAX`, and puts it in front of its message
in the cipher text; so `TOKEN_MAX` consecutive calls to `d` write pairwise different headers,
whatever calls to other destinations come in between. -/
theorem headers_series {g : Globals} {es : List Event}
    (hstart : counter (g.sendTokens d) < (tokenMaxOf size).toNat)
    (hkeep : Lts.Along (step size aes) (KeepsToken d) g es) :
    (∀ k w, (sentTo d (series size aes g es))[k]? = some w →
      header size w = toBytes size.toNat
        ((counter (g.sendTokens d) + (k + 1)) % (tokenMaxOf size).toNat)) ∧
    (∀ w ∈ series size aes g es, size.toNat + w.request.inSize.toNat < 112 →
      cells w.output w.outSize.toNat = Cipher.cipherText aes
        (header size w ++ cells w.request.input w.request.inSize.toNat)) ∧
    (∀ i j w w', i < j → j < i + (tokenMaxOf size).toNat →
      (sentTo d (series size aes g es))[i]? = some w →
      (sentTo d (series size aes g es))[j]? = some w' → header size w ≠ header size w') := by
  have hpos : 0 < (tokenMaxOf size).toNat := Nat.zero_lt_of_lt hstart
  refine ⟨fun k w hw => header_series h₁ h₄ aes d hstart hkeep hw, ?_, ?_⟩
  · intro w hw hfits
    obtain ⟨g', c, rfl⟩ := exists_run_of_mem aes hw
    exact cells_output_run size aes g' c hfits
  · intro i j w w' hij hji hw hw'
    rw [header_series h₁ h₄ aes d hstart hkeep hw, header_series h₁ h₄ aes d hstart hkeep hw']
    refine toBytes_ne h₁ h₄ (Nat.mod_lt _ hpos) (Nat.mod_lt _ hpos) fun hmod => ?_
    -- two numbers less than `TOKEN_MAX` apart differ modulo `TOKEN_MAX`
    have hzero := Nat.sub_mod_eq_zero_of_mod_eq hmod.symm
    have hle := Nat.le_of_dvd (by omega) (Nat.dvd_of_mod_eq_zero hzero)
    omega

end Series

/-- A sender of 4-byte tokens whose counters are about to wrap: the bit pattern of `-2` is
`TOKEN_MAX - 1`. -/
def aboutToWrap : Globals := ⟨fun _ => -2, fun _ => 0, fun _ => 0⟩

/-- Two empty messages to node `1`, and one to node `2` in between. -/
def threeCalls : List Event :=
  [1, 2, 1].map fun d => .encrypt ⟨fun _ => 0, 0, fun _ => 0, d⟩

/-- The two headers to node `1` are the tokens `0` and `1`. -/
theorem headers_series_wrap :
    (sentTo 1 (series 4 (Equiv.refl Block) aboutToWrap threeCalls)).map (header 4) =
      [[0, 0, 0, 0], [0, 0, 0, 1]] := by
  have hkeep : Lts.Along (step 4 (Equiv.refl Block)) (KeepsToken 1) aboutToWrap threeCalls :=
    ⟨trivial, fun _ _ => ⟨trivial, fun _ _ => ⟨trivial, fun _ _ => trivial⟩⟩⟩
  obtain ⟨hheaders, -, -⟩ :=
    headers_series (by decide) (by decide) (Equiv.refl Block) 1 (by decide) hkeep
  obtain ⟨w₀, w₁, htwo⟩ : ∃ w₀ w₁,
      sentTo 1 (series 4 (Equiv.refl Block) aboutToWrap threeCalls) = [w₀, w₁] := ⟨_, _, rfl⟩
  rw [htwo] at hheaders ⊢
  rw [List.map_cons, List.map_cons, hheaders 0 w₀ rfl, hheaders 1 w₁ rfl]
  decide

end TokenHeader

end LCore
