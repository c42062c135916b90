import LCore.AtMostOnce
import LCore.Link
import Mathlib.Data.Finset.Card

/-!
# Delivery at Most Twice

A message may be put into a queue twice, but never a third time, and never more often than its
caller has transmitted it, whatever copies the medium makes of its frames and however late it
hands them over. The counter of the receiver is behind every token that was taken, so all copies
of a frame together are good for one message, and a call sends its message under at most two
tokens.

The argument is an account of each call. What its message has been used for, the tokens under
which its frames under way may still be taken, and the resend it has left come to two at most,
and without the resend to as many as the caller has transmitted.

## Main results

* `account_step`: no step overdraws the account of a call.
* `atMostTwice`: the bounds on how often the message of a call is offered to a queue.
-/

open Memory

namespace LCore

namespace AtMostTwice

open Protocol (Body)
open AtMostOnce (FrameCarries frame_step called_of_carries)
open Link (transmissions)

/-- The message of a call is put into a queue, or refused by it. -/
def offers (tag : Tag) : Event → Bool
  | .put _ _ _ tag' => tag' == tag
  | .refused _ _ _ tag' => tag' == tag
  | _ => false

/-- How often listeners have taken the message of a call out of a frame and offered it to a
queue. -/
def offered (tag : Tag) (log : List Event) : ℕ := log.countP (offers tag)

/-- A listener is about to offer the message of a call. -/
def pending (tag : Tag) : Protocol.Task → ℕ
  | .queueing (.message _ _) tag' => if tag' = tag then 1 else 0
  | _ => 0

/-- The call may send its message again. -/
def again (tag : Tag) : Option Protocol.Call → ℕ
  | some c => if c.tag = tag ∧ c.allowResend = true then 1 else 0
  | none => 0

/-- What the message of a call has been used for. -/
def used (net : Protocol.Net) (d : UInt8) (tag : Tag) : ℕ :=
  offered tag net.log + pending tag (net.nodes d).task

/-- The account of a call from `s` to `d`: `tokens` has all those under which its message may
still be taken. -/
structure Account (net : Protocol.Net) (s d : UInt8) (tag : Tag) (tokens : Finset ℕ) : Prop where
  ahead : ∀ t, FrameCarries net s d tag t → (net.nodes d).recvToken s < t → t ∈ tokens
  two : used net d tag + tokens.card + again tag (net.nodes s).app ≤ 2
  sent : used net d tag + tokens.card ≤ transmissions s tag net.log

/-- The state between two steps: every call has an account, and nothing is offered that belongs
to no call. -/
structure Inv (net : Protocol.Net) : Prop where
  grounded : Integrity.NetGrounded net
  numbered : Integrity.Numbered net
  unmade : ∀ tag, (∀ d m, .called tag d m ∉ net.log) → offered tag net.log = 0
  account : ∀ tag d m, .called tag d m ∈ net.log → ∃ tokens, Account net tag.1 d tag tokens

/-- What has been offered in two logs is offered in one after the other. -/
theorem offered_append (tag : Tag) (new log : List Event) :
    offered tag (new ++ log) = offered tag new + offered tag log := List.countP_append

/-- A listener that owes packets has no message to put. -/
theorem pending_owing (tag : Tag) (packets : List Protocol.Packet) :
    pending tag (Protocol.Task.owing packets) = 0 := by
  cases packets with
  | nil => rfl
  | cons p packets => rfl

/-- Nothing is pending unless the message waits to be put. -/
theorem pending_eq_zero {tag : Tag} {task : Protocol.Task}
    (h : ∀ send m, task ≠ .queueing (.message send m) tag) : pending tag task = 0 := by
  unfold pending
  split
  · rename_i send m tag'
    refine if_neg fun htag => h send m ?_
    rw [htag]
  · rfl

/-- A call sends its message again at most once. -/
theorem again_le (tag : Tag) (app : Option Protocol.Call) : again tag app ≤ 1 := by
  unfold again
  split
  · split
    · exact le_refl _
    · exact Nat.zero_le _
  · exact Nat.zero_le _

section Node

variable {routes : Protocol.Routes} {v : UInt8} {n : Protocol.Node}

/-- An action passes on the message the listener has. -/
theorem offered_act (tag : Tag) {i : Action} {r : Protocol.Node.Result}
    (hacts : Protocol.Node.Acts routes v n i r) :
    offered tag r.2.2 + pending tag r.1.task = pending tag n.task := by
  cases hacts with
  | put htask => simp [offered, offers, pending, htask]
  | refused htask => simp [offered, offers, pending, htask]
  | queued htask => simp [offered, pending, htask]
  | transmitted htask =>
      rw [htask, pending_owing]
      rfl
  | called => exact Nat.zero_add _
  | returned => exact Nat.zero_add _
  | ignored => exact Nat.zero_add _
  | synced => exact Nat.zero_add _
  | resent => exact Nat.zero_add _
  | timedOut => exact Nat.zero_add _
  | taken => exact Nat.zero_add _

/-- A node offers nothing of a call for another node. -/
theorem offered_other {log : List Event} (h : Integrity.NodeGrounded log v n) {tag : Tag}
    (hother : ∀ m, .called tag v m ∉ log) {i : Action} {r : Protocol.Node.Result}
    (hacts : Protocol.Node.Acts routes v n i r) : offered tag r.2.2 = 0 := by
  have hnone : pending tag n.task = 0 :=
    pending_eq_zero fun send m htask => hother m (h.message send m tag htask).1
  have hpassed := offered_act tag hacts
  omega

/-- What a listener has of a call, after it has heard a packet: a message only if the packet
carried it under a token ahead of the counter. -/
theorem pending_hear (tag : Tag) {p : Protocol.Packet} {n' : Protocol.Node}
    (hpolling : n.task = .polling) (hhears : Protocol.Node.Hears routes v n p n') :
    pending tag n'.task = pending tag n.task ∨
      pending tag n'.task = pending tag n.task + 1 ∧ p.dest = v ∧ p.tag = tag ∧
        ∃ t m, p.body = .data t m ∧ n.recvToken p.send < t ∧ n'.recvToken p.send = t := by
  rw [hpolling]
  cases hhears with
  | ignored => exact .inl (by rw [hpolling])
  | relayed => exact .inl rfl
  | answer => exact .inl rfl
  | rejected => exact .inl rfl
  | @accepted token m hdest hbody hwindow =>
      by_cases htag : p.tag = tag
      · exact .inr ⟨if_pos htag, hdest, htag, token, m, hbody, hwindow.1, Function.update_self ..⟩
      · exact .inl (if_neg htag)

end Node

/-! ### The steps -/

section Step

variable {routes : Protocol.Routes} {net net' : Protocol.Net} {l : Step}

/-- What a step uses the message of a call for: nothing, or a frame is taken, which puts the
counter of the receiver at its token. -/
theorem used_step (h : Inv net)
    (hstep : Network.step (Protocol.machine routes) net l = some net') {tag : Tag} {d : UInt8}
    {m : List UInt8} (hcalled : .called tag d m ∈ net.log) :
    used net' d tag = used net d tag ∨
      used net' d tag = used net d tag + 1 ∧ (∀ v i, l ≠ .act v i) ∧ net'.log = net.log ∧
        ∃ t, FrameCarries net tag.1 d tag t ∧ (net.nodes d).recvToken tag.1 < t ∧
          (net'.nodes d).recvToken tag.1 = t := by
  unfold used
  cases l with
  | act v i =>
      obtain ⟨r, hr, rfl⟩ := Network.step_act.mp hstep
      have hacts := Protocol.Node.act_cases (Protocol.machine_act.mp hr).2
      left
      dsimp only
      rw [offered_append]
      by_cases hdv : d = v
      · subst hdv
        have hpassed := offered_act tag hacts
        rw [Function.update_self]
        omega
      · have hother : offered tag r.2.2 = 0 := by
          refine offered_other (h.grounded.nodes v) (fun m' hcalled' => hdv ?_) hacts
          exact (h.numbered.unique tag _ _ _ _ hcalled hcalled').1
        rw [Function.update_of_ne hdv, hother, Nat.zero_add]
  | hear v k g =>
      obtain ⟨p, r, hp, -, hr, rfl⟩ := Network.step_hear.mp hstep
      obtain ⟨hpolling, hlog, hhears⟩ := Protocol.Node.hear_cases hr
      dsimp only
      rw [hlog, List.nil_append]
      by_cases hdv : d = v
      · subst hdv
        rw [Function.update_self]
        rcases pending_hear tag hpolling hhears with hsame |
            ⟨hone, hdest, htag, t, m', hbody, hlt, heq⟩
        · exact .inl (by rw [hsame])
        · have hsend : tag.1 = p.send := by
            have hgrounded := h.grounded.air p (List.mem_of_getElem? hp)
            rw [hbody] at hgrounded
            exact htag ▸ hgrounded.2
          refine .inr ⟨by rw [hone, Nat.add_assoc], nofun, rfl, t, ?_, ?_, ?_⟩
          · exact ⟨p, m', .inl (List.mem_of_getElem? hp), hsend.symm, hdest, htag, hbody⟩
          · rw [hsend]
            exact hlt
          · rw [hsend]
            exact heq
      · rw [Function.update_of_ne hdv]
        exact .inl rfl
  | lose k =>
      simp only [Network.step, Option.ite_none_right_eq_some, Option.some.injEq] at hstep
      obtain ⟨-, rfl⟩ := hstep
      exact .inl rfl
  | duplicate k =>
      simp only [Network.step, Option.map_eq_some_iff] at hstep
      obtain ⟨p, -, rfl⟩ := hstep
      exact .inl rfl
  | alter k c =>
      simp only [Network.step, Option.bind_eq_some_iff, Option.map_eq_some_iff] at hstep
      obtain ⟨p, -, q, -, rfl⟩ := hstep
      exact .inl rfl

/-- A call that sends its message has transmitted it once more. -/
theorem sent_step (hstep : Network.step (Protocol.machine routes) net l = some net') {s : UInt8}
    {c : Protocol.Call} (hsends : Protocol.Sends net l s c) :
    transmissions s c.tag net'.log = transmissions s c.tag net.log + 1 := by
  cases hsends with
  | @called dest m encrypted token hcall happ htoken hc =>
      subst hcall hc
      obtain ⟨r, hr, rfl⟩ := Network.step_act.mp hstep
      have hacts := Protocol.Node.act_cases (Protocol.machine_act.mp hr).2
      cases hacts with
      | called => simp [transmissions, Protocol.Packet.event, Protocol.newPacket, Body.flags]
  | @resent c₀ body token cause rest hpoll happ hallow hqueue htoken hc =>
      subst hpoll hc
      obtain ⟨r, hr, rfl⟩ := Network.step_act.mp hstep
      have hpoll := (Protocol.machine_act.mp hr).2
      rcases htoken with ⟨rfl, rfl⟩ | rfl
      · simp only [Protocol.Node.act, Protocol.Node.poll, happ, hqueue, hallow, if_true] at hpoll
        obtain rfl := Option.some.inj hpoll
        simp [transmissions, Protocol.Node.resend, Protocol.Packet.event, Protocol.newPacket,
          Body.flags]
      · simp only [Protocol.Node.act, Protocol.Node.poll, happ, hqueue, hallow, if_true] at hpoll
        obtain rfl := Option.some.inj hpoll
        simp [transmissions, Protocol.Node.resend, Protocol.Packet.event, Protocol.newPacket,
          Body.flags]

/-- A call that was made before the step and sends its message now gives up its resend. -/
theorem again_of_sends (h : Inv net) {s : UInt8} {c : Protocol.Call}
    (hsends : Protocol.Sends net l s c) {d : UInt8} {m : List UInt8}
    (hcalled : .called c.tag d m ∈ net.log) :
    again c.tag (net.nodes s).app = 1 ∧ again c.tag (some c) = 0 := by
  cases hsends with
  | called hcall happ htoken hc =>
      rw [hc] at hcalled
      exact absurd (h.numbered.counted _ _ _ _ hcalled) (lt_irrefl _)
  | resent hpoll happ hallow hqueue htoken hc =>
      rw [happ, hc]
      exact ⟨if_pos ⟨rfl, hallow⟩, if_neg fun hagain => nomatch hagain.2⟩

variable (h : Inv net) (hl : l.Faithful)
  (hstep : Network.step (Protocol.machine routes) net l = some net')

include h hl hstep

/-- The call has no resend that it did not have before. -/
theorem again_step (s : UInt8) {tag : Tag} {d : UInt8} {m : List UInt8}
    (hcalled : .called tag d m ∈ net.log) :
    again tag (net'.nodes s).app ≤ again tag (net.nodes s).app := by
  cases happ' : (net'.nodes s).app with
  | none => exact Nat.zero_le _
  | some c =>
      by_cases htag : c.tag = tag
      · subst htag
        cases Protocol.app_step hl hstep happ' with
        | same happ => rw [happ]
        | synced happ hallow hc =>
            have hnone : again c.tag (some c) = 0 :=
              if_neg fun hagain => by simp [hc, hallow] at hagain
            omega
        | sends hsends =>
            obtain ⟨-, hnone⟩ := again_of_sends h hsends hcalled
            omega
      · have hnone : again tag (some c) = 0 := if_neg fun hagain => htag hagain.1
        omega

/-- **No step overdraws the account of a call.** -/
theorem account_step {tag : Tag} {d : UInt8} {m : List UInt8}
    (hcalled : .called tag d m ∈ net.log) {tokens : Finset ℕ}
    (haccount : Account net tag.1 d tag tokens) :
    ∃ tokens', Account net' tag.1 d tag tokens' := by
  obtain ⟨hahead, htwo, hsent⟩ := haccount
  have hle := Protocol.recvToken_step hl hstep d tag.1
  have hagain := again_step h hl hstep tag.1 hcalled
  have hlog : transmissions tag.1 tag net.log ≤ transmissions tag.1 tag net'.log :=
    (Protocol.log_suffix hl hstep).sublist.count_le _
  by_cases hsends : ∃ c, Protocol.Sends net l tag.1 c ∧ (net'.nodes tag.1).app = some c ∧
      c.tag = tag
  · -- the message is sent again, under one more token
    obtain ⟨c, hc, happ', rfl⟩ := hsends
    obtain ⟨hone, hnone⟩ := again_of_sends h hc hcalled
    have htransmitted := sent_step hstep hc
    have hsame : used net' d c.tag = used net d c.tag := by
      rcases used_step h hstep hcalled with hsame | ⟨-, hno, -⟩
      · exact hsame
      · cases hc with
        | called hact => exact absurd hact (hno _ _)
        | resent hact => exact absurd hact (hno _ _)
    have hcard := Finset.card_insert_le c.token tokens
    refine ⟨insert c.token tokens, fun t hframe hlt => ?_, ?_, ?_⟩
    · rcases frame_step hl hstep hframe with hold | ⟨c', -, happ, -, -, rfl⟩
      · exact Finset.mem_insert_of_mem (hahead t hold (by omega))
      · obtain rfl := Option.some.inj (happ'.symm.trans happ)
        exact Finset.mem_insert_self ..
    · rw [happ', hnone, hsame]
      omega
    · rw [hsame]
      omega
  · have hframes : ∀ t, FrameCarries net' tag.1 d tag t → FrameCarries net tag.1 d tag t := by
      intro t hframe
      rcases frame_step hl hstep hframe with hold | ⟨c, hc, happ, -, htag, -⟩
      · exact hold
      · exact absurd ⟨c, hc, happ, htag⟩ hsends
    rcases used_step h hstep hcalled with hsame | ⟨hmore, -, -, t₀, hframe₀, hlt₀, heq₀⟩
    · refine ⟨tokens, fun t hframe hlt => hahead t (hframes t hframe) (by omega), ?_, ?_⟩
      · rw [hsame]
        omega
      · rw [hsame]
        omega
    · -- a frame is taken, and its copies are behind the counter from now on
      have hmem := hahead t₀ hframe₀ hlt₀
      have hcard := Finset.card_erase_add_one hmem
      refine ⟨tokens.erase t₀, fun t hframe hlt => ?_, ?_, ?_⟩
      · rw [heq₀] at hlt
        exact Finset.mem_erase.mpr ⟨by omega, hahead t (hframes t hframe) (by omega)⟩
      · rw [hmore]
        omega
      · rw [hmore]
        omega

/-- A message that belongs to no call before the step is not offered in it. -/
theorem offered_unmade {tag : Tag} (hunmade : ∀ d m, .called tag d m ∉ net.log) :
    offered tag net'.log = 0 := by
  have hnone := h.unmade tag hunmade
  rcases Protocol.log_step hl hstep with ⟨hlog, -⟩ | ⟨v, i, r, -, hacts, -, hlog, -⟩
  · rw [hlog]
    exact hnone
  · rw [hlog, offered_append, hnone,
      offered_other (h.grounded.nodes v) (fun m => hunmade v m) hacts]

/-- A new call has one frame under way and one resend. -/
theorem account_called {v d : UInt8} {m : List UInt8} {encrypted : Mem UInt8}
    (hcall : l = .act v (.call d m encrypted)) :
    ∃ tokens, Account net' v d (v, (net.nodes v).calls) tokens := by
  have hunmade : ∀ d m, .called (v, (net.nodes v).calls) d m ∉ net.log :=
    fun d m hcalled => absurd (h.numbered.counted _ _ _ _ hcalled) (lt_irrefl _)
  have hcarried : ∀ s d t, ¬ FrameCarries net s d (v, (net.nodes v).calls) t := by
    intro s d t hframe
    obtain ⟨⟨m, hcalled⟩, -⟩ := called_of_carries h.grounded (.inl hframe)
    exact hunmade d m hcalled
  have hused : used net' d (v, (net.nodes v).calls) = 0 := by
    rw [used, offered_unmade h hl hstep hunmade, Nat.zero_add]
    refine pending_eq_zero fun send m' htask' => ?_
    rcases Protocol.queueing_step hl hstep htask' with
        htask | ⟨p, hp, hdest, htag, ⟨hentry, -⟩ | ⟨t, m₀, hbody, -, -, -⟩⟩
    · exact hunmade d m' ((h.grounded.nodes d).message send m' _ htask).1
    · exact nomatch hentry
    · exact hcarried p.send d t ⟨p, m₀, .inl hp, rfl, hdest, htag, hbody⟩
  have hagain := again_le (v, (net.nodes v).calls) (net'.nodes v).app
  subst hcall
  obtain ⟨r, hr, hnet'⟩ := Network.step_act.mp hstep
  have hacts := Protocol.Node.act_cases (Protocol.machine_act.mp hr).2
  cases hacts with
  | @called _ _ _ token happ htoken =>
      have htransmitted := sent_step hstep (.called rfl happ htoken rfl)
      have happ' : (net'.nodes v).app = some ⟨d, token, m, true, (v, (net.nodes v).calls)⟩ := by
        rw [hnet']
        dsimp only
        rw [Function.update_self]
      dsimp only at htransmitted
      refine ⟨{token}, fun t hframe _ => ?_, ?_, ?_⟩
      · rcases frame_step hl hstep hframe with hold | ⟨c, -, happc, -, -, rfl⟩
        · exact absurd hold (hcarried v d t)
        · obtain rfl := Option.some.inj (happ'.symm.trans happc)
          exact Finset.mem_singleton_self _
      · rw [hused, Finset.card_singleton]
        omega
      · rw [hused, Finset.card_singleton, htransmitted]
        omega

/-- Every step keeps the invariant. -/
theorem inv_step : Inv net' where
  grounded := Integrity.grounded_step net l net' h.grounded hl hstep
  numbered := Integrity.numbered_step h.numbered hl hstep
  unmade tag hunmade := offered_unmade h hl hstep fun d m hcalled =>
    hunmade d m ((Protocol.log_suffix hl hstep).subset hcalled)
  account tag d m hcalled' := by
    rcases Protocol.called_step hl hstep hcalled' with
        hcalled | ⟨v, rfl, -, encrypted, hcall⟩
    · obtain ⟨tokens, haccount⟩ := h.account tag d m hcalled
      exact account_step h hl hstep hcalled haccount
    · exact account_called h hl hstep hcall

end Step

/-- It holds of the network when it has booted. -/
theorem inv_booted (recvToken : UInt8 → UInt8 → ℕ) : Inv (Protocol.booted recvToken) where
  grounded := Integrity.grounded_booted recvToken
  numbered := Integrity.numbered_booted recvToken
  unmade _ _ := rfl
  account _ _ _ hcalled := nomatch hcalled

/-- **Delivery at most twice.** In every run in which the medium alters nothing, also if it
loses, delays, reorders and duplicates frames, the message of a call is offered to a queue at
most twice, and at most as often as its caller has transmitted it. -/
theorem atMostTwice (cfg : Config) (rnd : UInt8 → UInt8 → Fin tokenMax.toNat)
    (encBuf : UInt8 → Mem UInt8) {ls : List Step} (hclean : ∀ l ∈ ls, l.Clean) {net : LoraNet}
    (hrun : Lts.run (Network.step (machine cfg)) (booted rnd encBuf) ls = some net) (tag : Tag) :
    offered tag net.log ≤ 2 ∧ offered tag net.log ≤ transmissions tag.1 tag net.log := by
  obtain ⟨net', hrun', hrel⟩ := Refinement.exists_protocol_run cfg hclean hrun
  have hinv : Inv net' :=
    Lts.run_inv (fun _ _ _ hinv (hl : Network.Label.Faithful _) hstep => inv_step hinv hl hstep)
      (inv_booted _) (Lts.along_of_forall_mem fun l hmem => (hclean l hmem).faithful) hrun'
  rw [hrel.log]
  by_cases hcalled : ∃ d m, .called tag d m ∈ net'.log
  · obtain ⟨d, m, hcalled⟩ := hcalled
    obtain ⟨tokens, haccount⟩ := hinv.account tag d m hcalled
    obtain ⟨-, htwo, hsent⟩ := haccount
    rw [used] at htwo hsent
    exact ⟨by omega, by omega⟩
  · have hnone := hinv.unmade tag fun d m hmem => hcalled ⟨d, m, hmem⟩
    exact ⟨by omega, by omega⟩

/-- A packet comes twice, the copy is rejected, and the caller sends the message again under the
token it is asked for; the copies of that frame, and of the first one, do nothing more. -/
def copied : List Step :=
  [.act 0 (.call 1 [7] null), .duplicate 0, .duplicate 0, .hear 1 0 .zero, .act 1 .put,
    .act 1 .transmit, .hear 1 0 .zero, .act 1 .transmit, .hear 0 2 .zero, .act 0 .put,
    .act 0 .poll, .duplicate 2, .hear 1 0 .zero, .act 1 .put, .act 1 .transmit, .hear 1 2 .zero,
    .act 1 .transmit, .hear 1 0 .zero, .act 1 .transmit]

/-- The message is offered twice, and its caller has transmitted it twice. -/
theorem atMostTwice_copied :
    ∃ net, Lts.run (Network.step (machine (Config.direct 2 (Equiv.refl Block) Crc8.crc8)))
        (booted (fun _ _ => ⟨0, by decide⟩) fun _ => null) copied = some net ∧
      offered (0, 0) net.log = 2 ∧ offered (0, 0) net.log ≤ 2 ∧
      offered (0, 0) net.log ≤ transmissions 0 (0, 0) net.log := by
  have hclean : ∀ l ∈ copied, l.Clean := by
    simp [copied, Step.Clean, Network.Label.Admits, Action.Fits]
  obtain ⟨-, net, hrun, hlog⟩ := Refinement.exists_direct_run (Equiv.refl Block) Crc8.crc8
    (fun _ _ => ⟨0, by decide⟩)
    [.transmitted 1 (0, 0) (typeMaskSync ||| typeMaskResend),
      .transmitted 1 (0, 0) (typeMaskSync ||| typeMaskResend), .transmitted 1 (0, 0) typeMaskAck,
      .put 1 0 [7] (0, 0), .transmitted 0 (0, 0) typeMaskNeedAck,
      .transmitted 1 (0, 0) (typeMaskSync ||| typeMaskResend), .transmitted 1 (0, 0) typeMaskAck,
      .put 1 0 [7] (0, 0), .transmitted 0 (0, 0) typeMaskNeedAck, .called (0, 0) 1 [7]]
    hclean (by decide) (by decide)
  exact ⟨net, hrun, by rw [hlog]; decide, atMostTwice _ _ _ hclean hrun (0, 0)⟩

end AtMostTwice

end LCore
