import LCore.Lib.Crc8
import LCore.Provenance
import LCore.Refinement

/-!
# How Many Messages a Node Takes from a Peer

A node takes a message only under a token that is ahead of its counter for the peer, and the
counter never goes back: it starts at a random number below `TOKEN_MAX` and pays at least one and
at most nineteen for every message. Tokens are below `TOKEN_MAX` themselves, so from one boot to
the next a node takes at most `TOKEN_MAX - 1` messages from a peer, less its random number, and
once its counter has come to the last token it takes none any more, whatever the peer does.

## Main results

* `toll_run`: what the counter pays between any two states of a run.
* `lifetime`: the bounds on the messages of a peer in every run.
* `exhausted`: at the last token a node takes nothing from that peer for the rest of the run.
-/

open Memory

namespace LCore

namespace Lifetime

open Protocol (Body)
open Encryption (counter)

/-- A message from `s` is put into the queue of `d`, or refused by it. -/
def arrives (d s : UInt8) : Event → Bool
  | .put v send _ _ => v == d && send == s
  | .refused v send _ _ => v == d && send == s
  | _ => false

/-- How many messages from `s` the listener of `d` has taken out of their frames and offered to
its queue. -/
def arrivals (d s : UInt8) (log : List Event) : ℕ := log.countP (arrives d s)

/-- How many messages from `s` a listener is about to offer to its queue. -/
def pending (s : UInt8) : Protocol.Task → ℕ
  | .queueing (.message send _) _ => if send = s then 1 else 0
  | _ => 0

/-- Since the counter of `v` for `s` was `r` and `k` messages had come, it has paid for every
message that came. -/
structure Toll (s : UInt8) (r k : ℕ) (v : UInt8) (n : Protocol.Node) (log : List Event) : Prop where
  least : r + (arrivals v s log + pending s n.task) ≤ n.recvToken s + k
  most : n.recvToken s + 19 * k ≤ r + 19 * (arrivals v s log + pending s n.task)

/-- What came in two logs came in one after the other. -/
theorem arrivals_append (d s : UInt8) (new log : List Event) :
    arrivals d s (new ++ log) = arrivals d s new + arrivals d s log := List.countP_append

/-- A listener that owes packets has no message to put. -/
theorem pending_owing (s : UInt8) (packets : List Protocol.Packet) :
    pending s (Protocol.Task.owing packets) = 0 := by
  cases packets with
  | nil => rfl
  | cons p packets => rfl

section Node

variable {routes : Protocol.Routes} {v : UInt8} {n : Protocol.Node}

/-- An action passes on the message the listener has, and leaves the counters alone. -/
theorem arrivals_act (s : UInt8) {i : Action} {r : Protocol.Node.Result}
    (hacts : Protocol.Node.Acts routes v n i r) :
    arrivals v s r.2.2 + pending s r.1.task = pending s n.task ∧
      r.1.recvToken = n.recvToken := by
  refine ⟨?_, ?_⟩
  · cases hacts with
    | put htask => simp [arrivals, arrives, pending, htask]
    | refused htask => simp [arrivals, arrives, pending, htask]
    | queued htask => simp [arrivals, pending, htask]
    | transmitted htask =>
        rw [htask, pending_owing]
        rfl
    | called => exact Nat.zero_add _
    | returned => exact Nat.zero_add _
    | ignored => exact Nat.zero_add _
    | synced => exact Nat.zero_add _
    | resent => exact Nat.zero_add _
    | timedOut => exact Nat.zero_add _
    | taken => exact Nat.zero_add _
  · cases hacts with
    | _ => rfl

/-- No message comes to a node by what another one does. -/
theorem arrivals_other {d : UInt8} (hne : d ≠ v) (s : UInt8) {i : Action}
    {r : Protocol.Node.Result} (hacts : Protocol.Node.Acts routes v n i r) :
    arrivals d s r.2.2 = 0 := by
  cases hacts with
  | put htask => simp [arrivals, arrives, hne.symm]
  | refused htask => simp [arrivals, arrives, hne.symm]
  | _ => rfl

variable {s : UInt8} {r k : ℕ} {log : List Event} (h : Toll s r k v n log)

include h

/-- An action of the node is paid for. -/
theorem Toll.act {i : Action} {res : Protocol.Node.Result}
    (hacts : Protocol.Node.Acts routes v n i res) : Toll s r k v res.1 (res.2.2 ++ log) := by
  obtain ⟨hpassed, hsame⟩ := arrivals_act s hacts
  obtain ⟨hleast, hmost⟩ := h
  refine ⟨?_, ?_⟩
  · rw [arrivals_append, hsame]
    omega
  · rw [arrivals_append, hsame]
    omega

/-- A message that the listener takes out of its frame moves the counter. -/
theorem Toll.hear {p : Protocol.Packet} {n' : Protocol.Node} (hpolling : n.task = .polling)
    (hhears : Protocol.Node.Hears routes v n p n') : Toll s r k v n' log := by
  obtain ⟨hleast, hmost⟩ := h
  have hnone : pending s n.task = 0 := by rw [hpolling]; rfl
  rw [hnone] at hleast hmost
  cases hhears with
  | ignored => exact ⟨hnone ▸ hleast, hnone ▸ hmost⟩
  | relayed => exact ⟨hleast, hmost⟩
  | answer => exact ⟨hleast, hmost⟩
  | rejected => exact ⟨hleast, hmost⟩
  | @accepted token m hdest hbody hwindow =>
      obtain ⟨hlow, hhigh⟩ := hwindow
      by_cases hs : p.send = s
      · subst hs
        refine ⟨?_, ?_⟩
        · simp only [pending, if_pos, Function.update_self]
          omega
        · simp only [pending, if_pos, Function.update_self]
          omega
      · refine ⟨?_, ?_⟩
        · simp only [pending, if_neg hs, Function.update_of_ne (Ne.symm hs)]
          exact hleast
        · simp only [pending, if_neg hs, Function.update_of_ne (Ne.symm hs)]
          exact hmost

end Node

/-! ### Runs -/

/-- Between two states of a run the counter of every node for every peer has risen by one for each
message of the peer that came, at least, and by nineteen at most. -/
theorem toll_run {routes : Protocol.Routes} {start net : Protocol.Net} {ls : List Step}
    (hrun : Lts.run (Network.step (Protocol.machine routes)) start ls = some net) (s v : UInt8) :
    Toll s ((start.nodes v).recvToken s)
      (arrivals v s start.log + pending s (start.nodes v).task) v (net.nodes v) net.log := by
  set paid := fun v => Toll s ((start.nodes v).recvToken s)
    (arrivals v s start.log + pending s (start.nodes v).task) v with hpaid
  refine Lts.run_inv (fun net l net' (hinv : ∀ v, paid v (net.nodes v) net.log) (_ : True)
    hstep => ?_) (fun v => ⟨le_refl _, le_refl _⟩) (Lts.along_of_forall_mem fun _ _ => trivial)
    hrun v
  refine Network.log_inv paid
    (fun v n i r log h hr => ?_) (fun v n p g r log h hr => ?_)
    (fun v b n n' i r log hne h hr => ?_) (fun v b n n' p g r log _ h hr => ?_) hinv hstep
  · exact h.act (Protocol.Node.act_cases (Protocol.machine_act.mp hr).2)
  · obtain ⟨hpolling, hlog, hhears⟩ := Protocol.Node.hear_cases hr
    rw [hlog]
    exact h.hear hpolling hhears
  · have hnone := arrivals_other hne s (Protocol.Node.act_cases (Protocol.machine_act.mp hr).2)
    refine ⟨?_, ?_⟩
    · rw [arrivals_append, hnone, Nat.zero_add]
      exact h.least
    · rw [arrivals_append, hnone, Nat.zero_add]
      exact h.most
  · rw [(Protocol.Node.hear_cases hr).2.1]
    exact h

/-- The log of a run grows. -/
theorem arrivals_le_of_run {routes : Protocol.Routes} {start net : Protocol.Net} {ls : List Step}
    (hfaithful : ∀ l ∈ ls, l.Faithful)
    (hrun : Lts.run (Network.step (Protocol.machine routes)) start ls = some net) (d s : UInt8) :
    arrivals d s start.log ≤ arrivals d s net.log := by
  have hsuffix : start.log <:+ net.log :=
    Lts.run_inv (fun _ l _ (h : start.log <:+ _) (hl : l.Faithful) hstep =>
      h.trans (Protocol.log_suffix hl hstep)) (List.suffix_refl _)
      (Lts.along_of_forall_mem hfaithful) hrun
  exact hsuffix.sublist.countP_le

/-- A listener has at most one message. -/
theorem pending_le (s : UInt8) (task : Protocol.Task) : pending s task ≤ 1 := by
  unfold pending
  split
  · split
    · exact le_refl _
    · exact Nat.zero_le _
  · exact Nat.zero_le _

/-- **The messages of a boot.** In every run in which the medium alters nothing, a node that started
with the random number `r` for a peer has offered at most `TOKEN_MAX - 1 - r` messages of that peer
to its queue; its counter is at least as far as these take it, and at most nineteen for each message
and one that is on its way. -/
theorem lifetime (cfg : Config) {rnd : UInt8 → UInt8 → Fin tokenMax.toNat}
    {encBuf : UInt8 → Mem UInt8} {ls : List Step} (hclean : ∀ l ∈ ls, l.Clean) {net : LoraNet}
    (hrun : Lts.run (Network.step (machine cfg)) (booted rnd encBuf) ls = some net)
    (d s : UInt8) :
    rnd d s + arrivals d s net.log ≤ counter ((net.nodes d).listener.globals.recvTokens s) ∧
      counter ((net.nodes d).listener.globals.recvTokens s) ≤
        rnd d s + 19 * (arrivals d s net.log + 1) ∧
      counter ((net.nodes d).listener.globals.recvTokens s) < tokenMax.toNat := by
  obtain ⟨net', hrun', hrel⟩ := Refinement.exists_protocol_run cfg hclean hrun
  obtain ⟨hleast, hmost⟩ := toll_run hrun' s d
  have hstart : (((Protocol.booted fun v a => rnd v a).nodes d).recvToken s : ℕ) = rnd d s := rfl
  have hnone : arrivals d s (Protocol.booted fun v a => rnd v a).log +
      pending s ((Protocol.booted fun v a => rnd v a).nodes d).task = 0 := rfl
  have hpending := pending_le s (net'.nodes d).task
  rw [hstart, hnone] at hleast hmost
  rw [(hrel.nodes d).recvToken, hrel.log]
  exact ⟨by omega, by omega, (hrel.nodes d).recvBound s⟩

/-- A message that is sent twice, under the first token and under the one the peer asks for. -/
def sentTwice : List Step :=
  [.act 0 (.call 1 [7] null), .hear 1 0 .zero, .act 1 .transmit, .hear 0 0 .zero, .act 0 .put,
    .act 0 .poll, .hear 1 0 .zero]

/-- No packet of the run is altered, and its messages fit. -/
theorem sentTwice_clean : ∀ l ∈ sentTwice, l.Clean := by
  simp [sentTwice, Step.Clean, Network.Label.Admits, Action.Fits]

/-- A node that starts with the token before the last takes one message. -/
theorem lifetime_sentTwice :
    ∃ net, Lts.run (Network.step (machine (Config.direct 2 (Equiv.refl Block) Crc8.crc8)))
        (booted (fun _ _ => ⟨65533, by decide⟩) fun _ => null) (sentTwice ++ [.act 1 .put]) =
          some net ∧
      arrivals 1 0 net.log = 1 ∧
      65533 + arrivals 1 0 net.log ≤ counter ((net.nodes 1).listener.globals.recvTokens 0) ∧
      counter ((net.nodes 1).listener.globals.recvTokens 0) ≤
        65533 + 19 * (arrivals 1 0 net.log + 1) ∧
      counter ((net.nodes 1).listener.globals.recvTokens 0) < tokenMax.toNat := by
  have hclean : ∀ l ∈ sentTwice ++ [.act 1 .put], l.Clean := by
    simp [sentTwice, Step.Clean, Network.Label.Admits, Action.Fits]
  obtain ⟨net, hrun, hlog⟩ := Refinement.exists_code_run
    (Config.direct 2 (Equiv.refl Block) Crc8.crc8) (fun _ _ => ⟨65533, by decide⟩)
    (fun _ => null)
    [.put 1 0 [7] (0, 0), .transmitted 0 (0, 0) typeMaskNeedAck,
      .transmitted 1 (0, 0) (typeMaskSync ||| typeMaskResend),
      .transmitted 0 (0, 0) typeMaskNeedAck, .called (0, 0) 1 [7]] hclean (by decide)
  exact ⟨net, hrun, by rw [hlog]; rfl, lifetime _ hclean hrun 1 0⟩

/-- **The last token.** Once the counter of a node for a peer is `TOKEN_MAX - 1` and its listener
holds nothing, no message of that peer is put into its queue, or refused by it, in any continuation
of the run in which the medium alters nothing. -/
theorem exhausted (cfg : Config) {rnd : UInt8 → UInt8 → Fin tokenMax.toNat}
    {encBuf : UInt8 → Mem UInt8} {ls ls' : List Step} (hclean : ∀ l ∈ ls, l.Clean)
    (hclean' : ∀ l ∈ ls', l.Clean) {net net' : LoraNet}
    (hrun : Lts.run (Network.step (machine cfg)) (booted rnd encBuf) ls = some net)
    {d s : UInt8} (hlast : counter ((net.nodes d).listener.globals.recvTokens s) + 1 =
      tokenMax.toNat) (htask : (net.nodes d).task = .polling)
    (hrun' : Lts.run (Network.step (machine cfg)) net ls' = some net') :
    arrivals d s net'.log = arrivals d s net.log ∧
      counter ((net'.nodes d).listener.globals.recvTokens s) + 1 = tokenMax.toNat := by
  obtain ⟨pnet, -, hrel⟩ := Refinement.exists_protocol_run cfg hclean hrun
  have hsim := Lts.run_sim (Refinement.step_refines cfg) hrel hclean'
  rw [hrun'] at hsim
  obtain ⟨pnet', hprun', hrel'⟩ := Lts.exists_of_some_rel hsim
  have hleast := (toll_run hprun' s d).least
  have hnone : pending s (pnet.nodes d).task = 0 := by
    have hrelated := (hrel.nodes d).task
    rw [htask] at hrelated
    generalize (pnet.nodes d).task = task at hrelated
    cases hrelated
    rfl
  have hbound := (hrel'.nodes d).recvBound s
  have hgrows := arrivals_le_of_run (fun l hl => (hclean' l hl).faithful) hprun' d s
  rw [(hrel.nodes d).recvToken] at hlast
  rw [(hrel'.nodes d).recvToken, hrel.log, hrel'.log]
  omega

/-- A node that starts with the last token. -/
theorem exhausted_sentTwice :
    ∃ net', Lts.run (Network.step (machine (Config.direct 2 (Equiv.refl Block) Crc8.crc8)))
        (booted (fun _ _ => ⟨65534, by decide⟩) fun _ => null) sentTwice = some net' ∧
      .transmitted 1 (0, 0) (typeMaskSync ||| typeMaskResend) ∈ net'.log ∧
      arrivals 1 0 net'.log = 0 ∧
      counter ((net'.nodes 1).listener.globals.recvTokens 0) + 1 = tokenMax.toNat := by
  obtain ⟨net', hrun', hlog⟩ := Refinement.exists_code_run
    (Config.direct 2 (Equiv.refl Block) Crc8.crc8) (fun _ _ => ⟨65534, by decide⟩)
    (fun _ => null)
    [.transmitted 0 (0, 0) typeMaskNeedAck,
      .transmitted 1 (0, 0) (typeMaskSync ||| typeMaskResend),
      .transmitted 0 (0, 0) typeMaskNeedAck, .called (0, 0) 1 [7]] sentTwice_clean (by decide)
  have hlast : counter (((booted (fun _ _ => ⟨65534, by decide⟩) fun _ => null).nodes
      1).listener.globals.recvTokens 0) + 1 = tokenMax.toNat := by decide
  obtain ⟨hsame, hcounter⟩ := exhausted _ (List.forall_mem_nil _) sentTwice_clean
    (Lts.run_nil _) hlast rfl hrun'
  exact ⟨net', hrun', by rw [hlog]; decide, hsame, hcounter⟩

end Lifetime

end LCore
