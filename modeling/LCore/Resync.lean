import LCore.Encryption

/-!
# Resynchronising the Counters

A receiver that rejects a token answers with the token it would take next, and the sender
puts that one into the payload it still holds and sends it again. `Resynchronises` is the
whole exchange: `encrypt` at the sender, a rejecting `decrypt` at the receiver,
`get_next_recv_token` there, `swap_token` at the sender, and `decrypt` of the retransmitted
payload.

The exchange works from every pair of counters but one value of the receiver's:
`resynchronises_iff`. The reply token is taken modulo `TOKEN_MAX` and the window test is not,
so a receiver at `TOKEN_MAX - 1` asks for token `0` and then rejects it, as it rejects every
token a sender can count to (`rejects_of_last`).
-/

open Memory Machine BigEndian

namespace LCore

namespace Encryption

/-- The exchange of sender `s` and receiver `d` after `s` has called `encrypt` on the `n`
bytes at `input`: if `d` rejects the payload for its token, then the payload that `s` makes of
it with `d`'s reply token is accepted, comes out as the `n` bytes, and leaves both counters
equal. `encrypted`, `token`, `msg₁` and `msg₂` are the uninitialised buffers the calls
write to, `size₁` and `size₂` the uninitialised sizes. -/
def Resynchronises (aes : Aes) (gs gd : Globals) (s d : UInt8) (input : Mem UInt8)
    (n : UInt8) (encrypted token msg₁ msg₂ : Mem UInt8) (size₁ size₂ : UInt8) : Prop :=
  let sent := encrypt aes gs input n encrypted d
  let first := decrypt aes gd sent.2.1 sent.2.2 msg₁ size₁ s
  let reply := getNextRecvToken first.2.1 token s
  let swapped := swapToken aes sent.1 sent.2.1 sent.2.2 d reply
  let second := decrypt aes first.2.1 swapped.2 sent.2.2 msg₂ size₂ s
  first.1 = false →
    second.1 = true ∧ second.2.2.2 = n ∧ cells second.2.2.1 n.toNat = cells input n.toNat ∧
      counter (swapped.1.sendTokens d) = counter (second.2.1.recvTokens s)

/-- A receiver at the last counter value takes no token below `TOKEN_MAX`. -/
theorem rejects_of_last {r t : ℕ} (hr : r + 1 = tokenMax.toNat) (ht : t < tokenMax.toNat) :
    ¬ InWindow r t := by
  rintro ⟨hlt, -⟩
  omega

/-- A receiver below the last value takes the token it asks for. -/
theorem inWindow_next {r : ℕ} (h : r + 1 < tokenMax.toNat) :
    InWindow r ((r + 1) % tokenMax.toNat) := by
  rw [Nat.mod_eq_of_lt h]
  exact ⟨by omega, by omega⟩

section Exchange

variable (aes : Aes) (gs gd : Globals) (s d : UInt8) {input : Mem UInt8} {m : List UInt8}
  (encrypted token msg₁ msg₂ : Mem UInt8) (size₁ size₂ : UInt8)

/-- The first payload carries the sender's next token, and is taken by the window of the
receiver. -/
theorem decrypt_encrypt_fst (hm : m.length ≤ 77) (hin : cells input m.length = m)
    (hs : counter (gs.sendTokens d) < tokenMax.toNat)
    (hr : counter (gd.recvTokens s) < tokenMax.toNat) :
    (decrypt aes gd (encrypt aes gs input (UInt8.ofNat m.length) encrypted d).2.1
        (encrypt aes gs input (UInt8.ofNat m.length) encrypted d).2.2 msg₁ size₁ s).1 = true ↔
      InWindow (counter (gd.recvTokens s)) ((counter (gs.sendTokens d) + 1) % tokenMax.toNat) := by
  have hmax : tokenMax.toNat = 65535 := tokenMax_toNat
  have hmod := Nat.mod_lt (counter (gs.sendTokens d) + 1) (show 0 < tokenMax.toNat by omega)
  have hcounter : counter (gd.recvTokens s) < 2 ^ 16 := by omega
  obtain ⟨encBuf, msg, hsent, hmsg⟩ := encrypt_spec aes gs encrypted d (by omega) hin
  rw [counter_nextSendToken_eq hs] at hmsg
  obtain ⟨buf, out, hfirst, -⟩ := decrypt_sealed aes gd msg₁ size₁ s (by omega) (by omega)
    hcounter hmsg
  simp only [hsent, hfirst]
  split
  · exact iff_of_true rfl ‹_›
  · exact iff_of_false Bool.false_ne_true ‹_›

/-- The exchange, computed: the first payload carries the sender's next token, the second the
receiver's, and the second is rejected or accepted by the same window. -/
theorem resynchronises_iff_inWindow (hm : m.length ≤ 77) (hin : cells input m.length = m)
    (hs : counter (gs.sendTokens d) < tokenMax.toNat)
    (hr : counter (gd.recvTokens s) < tokenMax.toNat) :
    Resynchronises aes gs gd s d input (UInt8.ofNat m.length) encrypted token msg₁ msg₂
        size₁ size₂ ↔
      (¬ InWindow (counter (gd.recvTokens s)) ((counter (gs.sendTokens d) + 1) % tokenMax.toNat) →
        InWindow (counter (gd.recvTokens s))
          ((counter (gd.recvTokens s) + 1) % tokenMax.toNat)) := by
  have hmax : tokenMax.toNat = 65535 := tokenMax_toNat
  have hpos : 0 < tokenMax.toNat := by omega
  have hmod := fun x => Nat.mod_lt x hpos
  have hlen : (UInt8.ofNat m.length).toNat = m.length := by
    rw [UInt8.toNat_ofNat']
    omega
  have htok : counter (nextSendToken tokenSize (gs.sendTokens d)) =
      (counter (gs.sendTokens d) + 1) % tokenMax.toNat :=
    counter_nextSendToken_eq hs
  obtain ⟨encBuf, msg, hsent, hmsg⟩ := encrypt_spec aes gs encrypted d (by omega) hin
  rw [htok] at hmsg
  have ht := hmod (counter (gs.sendTokens d) + 1)
  obtain ⟨buf, out, hfirst, hout⟩ := decrypt_sealed aes gd msg₁ size₁ s (by omega)
    (by omega) (by omega) hmsg
  by_cases hw : InWindow (counter (gd.recvTokens s))
      ((counter (gs.sendTokens d) + 1) % tokenMax.toNat)
  · rw [if_pos hw] at hfirst
    simp only [Resynchronises, hsent, hfirst, Bool.true_eq_false, false_implies, true_iff]
    exact fun hn => absurd hw hn
  · rw [if_neg hw] at hfirst
    have hreply : cells (getNextRecvToken { gd with encBuf := buf } token s) tokenSize.toNat =
        toBytes tokenSize.toNat ((counter (gd.recvTokens s) + 1) % tokenMax.toNat) := by
      rw [getNextRecvToken, cells_splitToBytes]
      congr 1
      exact toNat_nextRecvToken (g := { gd with encBuf := buf }) hr
    have hu := hmod (counter (gd.recvTokens s) + 1)
    obtain ⟨buf', msg', hswap, hmsg'⟩ := swapToken_sealed aes
      ⟨Function.update gs.sendTokens d (nextSendToken tokenSize (gs.sendTokens d)),
        gs.recvTokens, encBuf⟩ d (by omega) (by omega) hmsg hreply
    have hcounter : counter (gd.recvTokens s) < 2 ^ 16 := by omega
    obtain ⟨buf'', out', hsecond, hout'⟩ := decrypt_sealed aes { gd with encBuf := buf } msg₂
      size₂ s (by omega) (by omega) hcounter hmsg'
    simp only [Resynchronises, hsent, hfirst, hswap, hsecond, true_implies]
    by_cases hw' : InWindow (counter (gd.recvTokens s))
        ((counter (gd.recvTokens s) + 1) % tokenMax.toNat)
    · simp only [if_pos hw', hlen, hout', hin, Function.update_self, true_and]
      exact iff_of_true trivial fun _ => hw'
    · simp only [if_neg hw', Bool.false_eq_true, false_and, false_iff]
      exact fun h => hw' (h hw)

/-- **When resynchronisation works**: exactly when the receiver's counter is not at the last
value, `TOKEN_MAX - 1`, whatever the sender's counter and the message are. -/
theorem resynchronises_iff (hm : m.length ≤ 77) (hin : cells input m.length = m)
    (hs : counter (gs.sendTokens d) < tokenMax.toNat)
    (hr : counter (gd.recvTokens s) < tokenMax.toNat) :
    Resynchronises aes gs gd s d input (UInt8.ofNat m.length) encrypted token msg₁ msg₂
        size₁ size₂ ↔
      counter (gd.recvTokens s) + 1 < tokenMax.toNat := by
  rw [resynchronises_iff_inWindow aes gs gd s d encrypted token msg₁ msg₂ size₁ size₂ hm hin
    hs hr]
  constructor
  · intro h
    by_contra hlast
    have hr' : counter (gd.recvTokens s) + 1 = tokenMax.toNat := by omega
    have hpos : 0 < tokenMax.toNat := by omega
    have hmod := fun x => Nat.mod_lt x hpos
    exact rejects_of_last hr' (hmod _) (h (rejects_of_last hr' (hmod _)))
  · intro h _
    exact inWindow_next h

end Exchange

/-- The globals of a device whose counters all stand at the given values. -/
def atCounters (send recv : Int32) : Globals := ⟨fun _ => send, fun _ => recv, fun _ => 0⟩

/-- A receiver at the last counter but one rejects the first token of a sender, asks for
`TOKEN_MAX - 1`, and takes it, under every AES key. -/
theorem resynchronises_rejected :
    counter 65533 + 1 < tokenMax.toNat ∧
      ∀ aes : Aes,
        (decrypt aes (atCounters 0 65533)
          (encrypt aes (atCounters 0 0) (load [1, 2, 3] fun _ => 0) 3 (fun _ => 0) 1).2.1
          (encrypt aes (atCounters 0 0) (load [1, 2, 3] fun _ => 0) 3 (fun _ => 0) 1).2.2
          (fun _ => 0) 0 0).1 = false ∧
        Resynchronises aes (atCounters 0 0) (atCounters 0 65533) 0 1
          (load [1, 2, 3] fun _ => 0) 3 (fun _ => 0) (fun _ => 0) (fun _ => 0) (fun _ => 0)
          0 0 := by
  refine ⟨by decide, fun aes => ⟨?_, ?_⟩⟩
  · have hfirst := decrypt_encrypt_fst aes (atCounters 0 0) (atCounters 0 65533) 0 1
      (m := [1, 2, 3]) (fun _ => 0) (fun _ => 0) 0 (by decide) (cells_load _ fun _ => 0)
      (by decide) (by decide)
    exact Bool.eq_false_iff.mpr fun h => absurd (hfirst.mp h) (by decide)
  · exact (resynchronises_iff aes (atCounters 0 0) (atCounters 0 65533) 0 1 (m := [1, 2, 3])
      (fun _ => 0) (fun _ => 0) (fun _ => 0) (fun _ => 0) 0 0 (by decide) (by decide)
      (by decide) (by decide)).mpr (by decide)

/-- At receiver counter `TOKEN_MAX - 1` an empty message of a freshly booted sender is lost
for good, under every AES key. -/
theorem not_resynchronises_last :
    counter 65534 + 1 = tokenMax.toNat ∧
      ¬ ∃ aes : Aes, Resynchronises aes (atCounters 0 0) (atCounters 0 65534) 0 1
        (fun _ => 0) 0 (fun _ => 0) (fun _ => 0) (fun _ => 0) (fun _ => 0) 0 0 := by
  refine ⟨by decide, ?_⟩
  rintro ⟨aes, h⟩
  have hwindow := (resynchronises_iff_inWindow aes (atCounters 0 0) (atCounters 0 65534) 0 1
    (m := []) _ _ _ _ 0 0 (by decide) rfl (by decide) (by decide)).mp h
  exact absurd hwindow (by decide)

end Encryption

end LCore
