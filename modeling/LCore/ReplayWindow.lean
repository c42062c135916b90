import LCore.Frame
import LCore.Lib.Crc8
import LCore.Lib.Lts

/-!
# The Replay Window

What a node's receive counters do over its whole uptime. A node hears packets with any bytes
in them, and between two packets its application calls `send_with_ack` or handles an answer,
which changes the send counters and the scratch buffer the listener shares with it. The
counter of an address moves only when `_validate_token` accepts a frame from that address, and
then forward, by less than `TOKEN_TRESHOLD`.

The token of a payload is a function of the payload alone (`payloadToken`), so a payload whose
token was once accepted is behind the counter ever after.

## Main results

* `next_recvTokens`: the counters after one action, from the token test made in it.
* `replayWindow`: the window invariant over every run, and no payload accepted twice.
-/

open Memory Machine BigEndian

namespace LCore

namespace ReplayWindow

open Encryption

/-- What happens at a node: its listener takes a packet, with the uninitialised locals of that
iteration, or its application starts a call or handles an answer. -/
inductive Action
  | hear (message : NewMsg) (token : Mem UInt8) (packet : List UInt8)
  | call (address : UInt8) (msg : Mem UInt8) (msgSize : UInt8) (encrypted : Mem UInt8)
  | poll (waiting : Waiting) (frame : LoraFrame)

/-- The node after an action. -/
def next (dev : Device) (l : Listener) : Action → Listener
  | .hear message token packet => (listen dev l message token packet).1
  | .call address msg msgSize encrypted =>
      { l with globals := (sendWithAck dev l.globals address msg msgSize encrypted).1 }
  | .poll waiting frame =>
      { l with globals := (handleResponse dev.aes l.globals waiting frame).1 }

/-- Actions as steps of a system: each can always be taken. -/
def step (dev : Device) (l : Listener) (a : Action) : Option Listener := some (next dev l a)

/-- The actions considered: packets of 8 to 100 bytes with a sender of the network, messages
that fit a frame, peers of the network. -/
def InScope (dev : Device) : Action → Prop
  | .hear _ _ packet =>
      8 ≤ packet.length ∧ packet.length ≤ maxFrameSize ∧ (packet.getD 2 0).toNat < dev.netSize
  | .call address _ msgSize _ => address.toNat < dev.netSize ∧ msgSize.toNat ≤ 77
  | .poll waiting _ => waiting.address.toNat < dev.netSize ∧ waiting.msgSize.toNat ≤ 80

/-- The listener after `init`. -/
def booted (rnd : UInt8 → Fin tokenMax.toNat) (encBuf : Mem UInt8) : Listener :=
  ⟨LoraFrame.init, init rnd encBuf⟩

/-! ### The token test -/

/-- The call of `_validate_token` that `decrypt` makes, if it makes one: the address, the token
and the value returned. -/
def decryptTest (aes : Aes) (g : Globals) (input : Mem UInt8) (inSize : UInt8)
    (senderAddress : UInt8) : Option (UInt8 × UInt32 × Bool) :=
  let r := Cipher.decryptBytes aes input inSize.toInt8 g.encBuf
  let token := mergeFromBytes r.1 tokenSize
  if r.2.toUInt8 = 0 then none
  else some (senderAddress, token, (validateToken { g with encBuf := r.1 } token senderAddress).1)

/-- The same for a frame this node received. -/
def dispatchTest (dev : Device) (g : Globals) (frame : LoraFrame) :
    Option (UInt8 × UInt32 × Bool) :=
  if crcOk dev frame = true ∧ isResponse frame = false then
    let encryptedSize : UInt8 := UInt8.ofInt (frame.size.toNat - framePosMsg)
    let encrypted := copy LoraFrame.init.buf 0 (shift frame.buf framePosMsg) encryptedSize.toNat
    decryptTest dev.aes g encrypted encryptedSize (frame.buf framePosSendAddr)
  else
    none

/-- The same for a packet on the radio. -/
def listenTest (dev : Device) (l : Listener) (packet : List UInt8) :
    Option (UInt8 × UInt32 × Bool) :=
  let r := Routing.tryReceive dev l.frame.buf packet
  if r.1 = .received then dispatchTest dev l.globals r.2.1 else none

/-- The token test of an action. -/
def tokenTest (dev : Device) (l : Listener) : Action → Option (UInt8 × UInt32 × Bool)
  | .hear _ _ packet => listenTest dev l packet
  | .call .. | .poll .. => none

/-- The sender and the payload of the packet whose token was accepted in an action. -/
def acceptance (dev : Device) (l : Listener) : Action → Option (UInt8 × List UInt8)
  | .hear _ _ packet =>
      match listenTest dev l packet with
      | some (address, _, true) => some (address, packet.drop 7)
      | _ => none
  | .call .. | .poll .. => none

/-- The senders and payloads accepted in a run. -/
def accepted (dev : Device) : Listener → List Action → List (UInt8 × List UInt8)
  | _, [] => []
  | l, a :: as => (acceptance dev l a).toList ++ accepted dev (next dev l a) as

/-- Neither starting a call nor handling an answer touches a receive counter. -/
theorem handleResponse_recvTokens (aes : Aes) (g : Globals) (w : Waiting) (frame : LoraFrame) :
    (handleResponse aes g w frame).1.recvTokens = g.recvTokens := by
  unfold handleResponse
  split
  · split
    · rfl
    · split
      · rfl
      · dsimp only
        split <;> split <;> rfl
  · rfl

/-- The receive counters after a token test. -/
def afterTest (recvTokens : UInt8 → Int32) : Option (UInt8 × UInt32 × Bool) → UInt8 → Int32
  | some (address, token, true) => Function.update recvTokens address token.toInt32
  | _ => recvTokens

/-- `decrypt` moves a receive counter exactly when its token test succeeds. -/
theorem decrypt_recvTokens (aes : Aes) (g : Globals) (input output : Mem UInt8)
    (inSize outSize sender : UInt8) :
    (decrypt aes g input inSize output outSize sender).2.1.recvTokens =
      afterTest g.recvTokens (decryptTest aes g input inSize sender) := by
  simp only [decrypt, decryptTest, validateToken]
  split
  · rfl
  · split <;> rfl

/-- What a frame does to the counters is what its test does. -/
theorem dispatch_recvTokens (dev : Device) (g : Globals) (frame : LoraFrame)
    (message : NewMsg) (token : Mem UInt8) :
    (dispatch dev g frame message token).1.recvTokens =
      afterTest g.recvTokens (dispatchTest dev g frame) := by
  unfold dispatch dispatchTest
  cases crcOk dev frame with
  | false => rfl
  | true =>
      cases isResponse frame with
      | true => rfl
      | false =>
          simp only [Bool.true_eq_false, Bool.false_eq_true, if_false, and_self, if_true]
          rw [← decrypt_recvTokens dev.aes g _ message.msg _ message.msgSize]
          simp only [getMsgFromFrame]
          split <;> split <;> rfl

/-- The receive counters after a packet, from the token test it leads to. -/
theorem listen_recvTokens (dev : Device) (l : Listener) (message : NewMsg) (token : Mem UInt8)
    (packet : List UInt8) :
    (listen dev l message token packet).1.globals.recvTokens =
      afterTest l.globals.recvTokens (listenTest dev l packet) := by
  by_cases hrecv : (Routing.tryReceive dev l.frame.buf packet).1 = .received
  · simp only [listen, listenTest, if_pos hrecv]
    exact dispatch_recvTokens dev l.globals _ message token
  · simp only [listen, listenTest, if_neg hrecv]
    split <;> rfl

/-- The receive counters after an action. -/
theorem next_recvTokens (dev : Device) (l : Listener) (a : Action) :
    (next dev l a).globals.recvTokens = afterTest l.globals.recvTokens (tokenTest dev l a) := by
  cases a with
  | hear message token packet => exact listen_recvTokens dev l message token packet
  | call address msg msgSize encrypted => rfl
  | poll waiting frame => exact handleResponse_recvTokens dev.aes l.globals waiting frame

/-! ### The token of a payload -/

/-- The token read out of a payload of whole blocks comes from its first block, whatever the
scratch buffer held before. -/
theorem mergeFromBytes_decryptBytes (aes : Aes) {input : Mem UInt8} (buf : Mem UInt8)
    {payload : List UInt8} {k : ℕ} (hk : payload.length = 16 * k) (h₀ : 0 < k) (h₈ : k < 8)
    (hin : cells input payload.length = payload) :
    (mergeFromBytes (Cipher.decryptBytes aes input (UInt8.ofNat payload.length).toInt8 buf).1
      tokenSize).toNat = payloadToken aes payload := by
  have hblock : block 16 input 0 = block 16 (load payload null) 0 := by
    refine block_eq_of_cells h₀ fun i hi => ?_
    rw [← hk] at hi
    exact cells_eq_iff.mp (hin.trans (cells_load payload null).symm) i hi
  have hfirst : cells (convert aes.symm input k 0 buf) (16 * 1) =
      cells (convert aes.symm (load payload null) k 0 null) (16 * 1) := by
    refine cells_eq_of_block_eq fun i hi => ?_
    obtain rfl : i = 0 := by omega
    rw [block_convert, block_convert, if_pos (by omega), if_pos (by omega), hblock]
  have htoken : cells (convert aes.symm input k 0 buf) tokenSize.toNat =
      cells (convert aes.symm (load payload null) k 0 null) tokenSize.toNat :=
    cells_eq_iff.mpr fun i hi => cells_eq_iff.mp hfirst i (Nat.lt_trans hi (by decide))
  have hnull : (fun _ => 0 : Mem UInt8) = null := rfl
  rw [payloadToken, hnull, hk, toInt8_ofNat, Cipher.decryptBytes_eq aes input buf h₈,
    Cipher.decryptBytes_eq aes _ null h₈, toNat_mergeFromBytes, toNat_mergeFromBytes, htoken]

/-- A token has two bytes. -/
theorem mergeFromBytes_lt (buf : Mem UInt8) : (mergeFromBytes buf tokenSize).toNat < 2 ^ 16 := by
  have hlt := ofBytes_lt (cells buf tokenSize.toNat)
  rw [length_cells] at hlt
  rw [toNat_mergeFromBytes]
  exact Nat.lt_of_le_of_lt (Nat.mod_le _ _) hlt

/-- A token that was tested is the token of the payload, and the payload is made of whole
blocks; the test is the window. -/
theorem decryptTest_eq_some (aes : Aes) (g : Globals) {input : Mem UInt8} {payload : List UInt8}
    {sender address : UInt8} {token : UInt32} {ok : Bool} (h₀ : 0 < payload.length)
    (h₉₃ : payload.length ≤ 93) (hin : cells input payload.length = payload)
    (hr : counter (g.recvTokens sender) < 2 ^ 16)
    (htest : decryptTest aes g input (UInt8.ofNat payload.length) sender =
      some (address, token, ok)) :
    address = sender ∧ token.toNat = payloadToken aes payload ∧ token.toNat < 2 ^ 16 ∧
      ok = decide (InWindow (counter (g.recvTokens sender)) token.toNat) := by
  have hsize : (UInt8.ofNat payload.length).toInt8.toInt = payload.length := by
    rw [toInt8_ofNat]
    exact toInt_ofInt8 (by omega)
  rw [decryptTest] at htest
  by_cases hdvd : payload.length % 16 = 0
  · obtain ⟨k, hk⟩ : ∃ k, payload.length = 16 * k := ⟨payload.length / 16, by omega⟩
    split at htest
    · exact absurd htest (by simp)
    · simp only [Option.some.injEq, Prod.mk.injEq] at htest
      obtain ⟨rfl, rfl, rfl⟩ := htest
      have hlt := mergeFromBytes_lt
        (Cipher.decryptBytes aes input (UInt8.ofNat payload.length).toInt8 g.encBuf).1
      refine ⟨rfl, mergeFromBytes_decryptBytes aes g.encBuf hk (by omega) (by omega) hin, hlt, ?_⟩
      have hval := validateToken_eq (a := sender) (g := { g with
        encBuf := (Cipher.decryptBytes aes input (UInt8.ofNat payload.length).toInt8 g.encBuf).1 })
        hr hlt
      rw [hval]
      split
      · rw [decide_eq_true ‹_›]
      · rw [decide_eq_false ‹_›]
  · have hmod : (UInt8.ofNat payload.length).toInt8.toInt.tmod 16 ≠ 0 := by
      rw [hsize, Int.tmod_eq_emod_of_nonneg (by omega)]
      omega
    have hzero : (0 : Int8).toUInt8 = 0 := rfl
    simp only [Cipher.decryptBytes_of_not_dvd aes input g.encBuf hmod, hzero, if_true] at htest
    exact absurd htest (by simp)

/-- The token test a packet leads to: for its sender byte, with the token of its payload, and
decided by the window. -/
theorem listenTest_eq_some (dev : Device) (l : Listener) {packet : List UInt8}
    {address : UInt8} {token : UInt32} {ok : Bool} (h₈ : 8 ≤ packet.length)
    (h₁₀₀ : packet.length ≤ maxFrameSize)
    (hr : ∀ a, counter (l.globals.recvTokens a) < 2 ^ 16)
    (htest : listenTest dev l packet = some (address, token, ok)) :
    address = packet[2] ∧ token.toNat = payloadToken dev.aes (packet.drop 7) ∧
      token.toNat < 2 ^ 16 ∧
      ok = decide (InWindow (counter (l.globals.recvTokens address)) token.toNat) := by
  have hmax : packet.length ≤ 100 := h₁₀₀
  have hdrop : (packet.drop 7).length = packet.length - 7 := List.length_drop
  obtain ⟨frame, hrecv, hholds⟩ :=
    tryReceive_whole dev l.frame.buf (p := packet) (by omega) (by omega)
  rw [listenTest, hrecv] at htest
  by_cases hnext : packet[0] = dev.address
  · by_cases hdest : packet[1] = dev.address
    · simp only [if_pos hnext, if_pos hdest, if_true] at htest
      have hf := hholds hnext hdest
      obtain ⟨hsize, hcells⟩ := hf.encrypted_eq (by omega) (by omega)
      have h2 : frame.buf framePosSendAddr = packet[2] := hf.get (i := 2) (by omega)
      rw [dispatchTest] at htest
      split at htest
      · simp only [hsize, h2] at htest
        obtain ⟨rfl, htok, hlt, hok⟩ := decryptTest_eq_some dev.aes l.globals (by omega)
          (by omega) hcells (hr _) htest
        exact ⟨rfl, htok, hlt, hok⟩
      · exact absurd htest (by simp)
    · rw [if_pos hnext, if_neg hdest] at htest
      split at htest
      · split at htest <;> exact absurd htest (by simp)
      · exact absurd htest (by simp)
  · simp only [if_neg hnext] at htest
    exact absurd htest (by simp)

/-! ### The window invariant -/

/-- Every receive counter is a token. -/
def Bounded (l : Listener) : Prop := ∀ a, counter (l.globals.recvTokens a) < 2 ^ 16

/-- The counters are bounded when a listener has booted. -/
theorem bounded_booted (rnd : UInt8 → Fin tokenMax.toNat) (encBuf : Mem UInt8) :
    Bounded (booted rnd encBuf) := by
  intro a
  have hmax : tokenMax.toNat = 65535 := tokenMax_toNat
  have hrnd := (rnd a).isLt
  show counter (UInt32.ofNat (rnd a)).toInt32 < 2 ^ 16
  rw [counter_toInt32, UInt32.toNat_ofNat']
  omega

/-- An action leads to a successful token test for a token in the window, or leaves the receive
counters alone. -/
theorem next_cases {dev : Device} {l : Listener} {a : Action} (hscope : InScope dev a)
    (hl : Bounded l) :
    ((next dev l a).globals.recvTokens = l.globals.recvTokens ∧ acceptance dev l a = none) ∨
    ∃ address token payload, tokenTest dev l a = some (address, token, true) ∧
      acceptance dev l a = some (address, payload) ∧
      token.toNat = payloadToken dev.aes payload ∧
      InWindow (counter (l.globals.recvTokens address)) token.toNat ∧ token.toNat < 2 ^ 16 ∧
      (next dev l a).globals.recvTokens =
        Function.update l.globals.recvTokens address token.toInt32 := by
  rw [next_recvTokens]
  cases a with
  | hear message tok packet =>
      obtain ⟨h₈, h₁₀₀, -⟩ := hscope
      simp only [tokenTest, acceptance]
      cases htest : listenTest dev l packet with
      | none => exact .inl ⟨rfl, rfl⟩
      | some test =>
          obtain ⟨address, token, ok⟩ := test
          obtain ⟨-, htok, hlt, hok⟩ := listenTest_eq_some dev l h₈ h₁₀₀ hl htest
          cases ok with
          | false => exact .inl ⟨rfl, rfl⟩
          | true =>
              exact .inr ⟨address, token, packet.drop 7, rfl, rfl, htok,
                of_decide_eq_true hok.symm, hlt, rfl⟩
  | call address msg msgSize encrypted => exact .inl ⟨rfl, rfl⟩
  | poll waiting frame => exact .inl ⟨rfl, rfl⟩

/-- They stay so. -/
theorem bounded_next {dev : Device} {l : Listener} {a : Action} (hscope : InScope dev a)
    (hl : Bounded l) : Bounded (next dev l a) := by
  intro x
  rcases next_cases hscope hl with ⟨hsame, -⟩ | ⟨address, token, payload, -, -, -, -, hlt, hupd⟩
  · rw [hsame]
    exact hl x
  · rw [hupd]
    by_cases hx : x = address
    · subst hx
      rw [Function.update_self, counter_toInt32]
      exact hlt
    · rw [Function.update_of_ne hx]
      exact hl x

/-- What one action does to the receive counter of `x`: it stays, or the token test accepts a
frame from `x` and the counter grows by less than `TOKEN_TRESHOLD`. -/
def Advances (dev : Device) (l : Listener) (a : Action) : Prop :=
  ∀ x, let r := counter (l.globals.recvTokens x)
    let r' := counter ((next dev l a).globals.recvTokens x)
    r ≤ r' ∧ (r' ≠ r → (∃ token, tokenTest dev l a = some (x, token, true)) ∧
      (r + 1 ≤ r' ∧ (r' : ℤ) ≤ r + (tokenTreshold - 1)))

/-- In a bounded state an action moves a counter forward by less than the window, or leaves it. -/
theorem advances_of_bounded {dev : Device} {l : Listener} {a : Action}
    (hscope : InScope dev a) (hl : Bounded l) : Advances dev l a := by
  intro x
  rcases next_cases hscope hl with
      ⟨hsame, -⟩ | ⟨address, token, payload, htest, -, -, hw, -, hupd⟩
  · rw [hsame]
    exact ⟨le_refl _, fun hne => absurd rfl hne⟩
  · rw [hupd]
    by_cases hx : x = address
    · subst hx
      rw [Function.update_self, counter_toInt32]
      refine ⟨by omega, fun _ => ⟨⟨token, htest⟩, by omega, ?_⟩⟩
      rw [tokenTreshold]
      omega
    · rw [Function.update_of_ne hx]
      exact ⟨le_refl _, fun hne => absurd rfl hne⟩

/-! ### No payload twice -/

/-- Every payload accepted in a run carries a token ahead of the counter the run starts with. -/
theorem lt_of_mem_accepted {dev : Device} {as : List Action} {l : Listener}
    (hscope : ∀ a ∈ as, InScope dev a) (hl : Bounded l) {x : UInt8} {payload : List UInt8}
    (hmem : (x, payload) ∈ accepted dev l as) :
    counter (l.globals.recvTokens x) < payloadToken dev.aes payload := by
  induction as generalizing l with
  | nil => exact absurd hmem List.not_mem_nil
  | cons a as ih =>
      have ha := hscope a List.mem_cons_self
      have hrest := ih (fun b hb => hscope b (List.mem_cons_of_mem a hb)) (bounded_next ha hl)
      rw [accepted, List.mem_append, Option.mem_toList] at hmem
      rcases next_cases ha hl with
          ⟨hsame, hnone⟩ | ⟨address, token, q, -, hacc, htok, hw, -, hupd⟩
      · rw [hsame] at hrest
        rw [hnone] at hmem
        exact hrest (hmem.resolve_left (by simp))
      · rw [hacc, Option.some.injEq, Prod.mk.injEq] at hmem
        rcases hmem with ⟨rfl, rfl⟩ | hmem
        · omega
        · have hlt := hrest hmem
          rw [hupd] at hlt
          by_cases hx : x = address
          · subst hx
            rw [Function.update_self, counter_toInt32] at hlt
            omega
          · rwa [Function.update_of_ne hx] at hlt

/-- No sender has a token accepted twice. -/
theorem nodup_accepted {dev : Device} {as : List Action} {l : Listener}
    (hscope : ∀ a ∈ as, InScope dev a) (hl : Bounded l) : (accepted dev l as).Nodup := by
  induction as generalizing l with
  | nil => exact List.nodup_nil
  | cons a as ih =>
      have ha := hscope a List.mem_cons_self
      have hscope' := fun b hb => hscope b (List.mem_cons_of_mem a hb)
      have hl' := bounded_next ha hl
      rcases next_cases ha hl with ⟨-, hnone⟩ | ⟨address, token, q, -, hacc, htok, -, -, hupd⟩
      · rw [accepted, hnone]
        exact ih hscope' hl'
      · rw [accepted, hacc, Option.toList_some, List.singleton_append, List.nodup_cons]
        refine ⟨fun hmem => ?_, ih hscope' hl'⟩
        have hlt := lt_of_mem_accepted hscope' hl' hmem
        rw [hupd, Function.update_self, counter_toInt32] at hlt
        omega

/-- **The replay window.** Over every run of a booted node, every receive counter stays a
token, moves only when a frame from its address is accepted, and then forward by at least one
and at most `TOKEN_TRESHOLD - 1`; and no payload of one sender is accepted twice. -/
theorem replayWindow (dev : Device) (rnd : UInt8 → Fin tokenMax.toNat) (encBuf : Mem UInt8)
    (as : List Action) (hscope : ∀ a ∈ as, InScope dev a) :
    (∀ l, Lts.run (step dev) (booted rnd encBuf) as = some l →
      ∀ a, counter (l.globals.recvTokens a) < 2 ^ (8 * tokenSize.toNat)) ∧
    Lts.Along (step dev) (Advances dev) (booted rnd encBuf) as ∧
    (accepted dev (booted rnd encBuf) as).Nodup := by
  have hinv : ∀ l a l', Bounded l → InScope dev a → step dev l a = some l' → Bounded l' := by
    intro l a l' hl ha hstep
    obtain rfl : next dev l a = l' := Option.some.inj hstep
    exact bounded_next ha hl
  have hboot := bounded_booted rnd encBuf
  have halong : Lts.Along (step dev) (fun _ a => InScope dev a) (booted rnd encBuf) as :=
    Lts.along_of_forall_mem hscope
  exact ⟨fun l hrun => Lts.run_inv hinv hboot halong hrun,
    Lts.along_of_inv hinv (fun l a hl ha => advances_of_bounded ha hl) hboot halong,
    nodup_accepted hscope hboot⟩

/-- Node `0` of two nodes. -/
def receiver : Device := (Config.direct 2 (Equiv.refl Block) Crc8.crc8).device 0

/-- The frame of a message from node `1` to node `0`. -/
def frameOf (token : ℕ) (m : List UInt8) : List UInt8 :=
  frameBytes Crc8.crc8 0 0 1 typeMaskNeedAck initTtl (sealed (Equiv.refl Block) token m)

/-- Two messages, the first of them heard twice, and a call in between. -/
def replayed : List Action :=
  [.hear ⟨0, null, 0⟩ null (frameOf 1 [104, 105]), .hear ⟨0, null, 0⟩ null (frameOf 1 [104, 105]),
    .call 1 null 0 null, .hear ⟨0, null, 0⟩ null (frameOf 2 [])]

/-- The message heard twice is accepted once. -/
theorem replayWindow_replayed :
    (∀ a ∈ replayed, InScope receiver a) ∧
      (accepted receiver (booted (fun _ => ⟨0, by decide⟩) null) replayed).Nodup := by
  have hscope : ∀ a ∈ replayed, InScope receiver a := by
    intro a ha
    simp only [replayed, List.mem_cons, List.not_mem_nil, or_false] at ha
    obtain rfl | rfl | rfl | rfl := ha <;> simp [InScope, frameOf, frameBytes, maxFrameSize,
      sealedSize_eq, receiver, Config.direct, Config.device]
  exact ⟨hscope, (replayWindow receiver (fun _ => ⟨0, by decide⟩) null replayed hscope).2.2⟩

end ReplayWindow

end LCore
