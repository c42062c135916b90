import LCore.Queue
import LCore.Reboot
import LCore.Script

/-!
# One Call Brings Two Nodes Together

Messages were lost, calls ran out of time, nodes were switched off and on: the counters of a
sender and a receiver can be anywhere. If nothing is in flight between them, no answer is left in
the sender's queue, and the receiver has a token left, then the next call over a link that loses
nothing succeeds, whatever the counters are. It transmits its message once if its token happens to
be in the receiver's window, and otherwise once more under the token the receiver asks for. Then
the counters are equal.

## Main results

* `atRank_run`: a run of the exchange gets further with every step.
* `recovers`: the exchange, from every state at rest that a run with restarts can reach.
-/

open Memory

namespace LCore

namespace Recovery

open Link
open Encryption (counter InWindow)

/-! ### The exchange -/

/-- The steps of an exchange between `s` and `d`: no other call is made, none runs out of time,
nothing is lost, duplicated or altered, and there is room for what is put into a queue. -/
abbrev OnExchange (s d : UInt8) (net : LoraNet) (l : Step) : Prop :=
  OnLink s d [] (net.nodes s).calls (fun v => (net.nodes v).hasRoom) l

/-- Nothing is in flight between `s` and `d`, neither of them waits, and `s` has no answers left. -/
structure AtRest (net : LoraNet) (s d : UInt8) : Prop where
  air : net.air = []
  senderTask : (net.nodes s).task = .polling
  senderApp : (net.nodes s).app = none
  answers : (net.nodes s).responseQueue = []
  receiverTask : (net.nodes d).task = .polling
  receiverApp : (net.nodes d).app = none

/-- The call of `m` that `s` made in `start` has succeeded: it has returned `true` and did not
fail before, `m` was put into the queue of `d` and nothing else was, the message was transmitted
once if its token was in the window of `d` and twice if not, and the nodes are at rest with equal
counters. -/
structure Recovered (start net : LoraNet) (s d : UInt8) (m : List UInt8) (new : List Event) :
    Prop where
  log : net.log = new ++ start.log
  returned : .returned (s, (start.nodes s).calls) true (some (s, (start.nodes s).calls)) ∈ new
  notFailed : ∀ tag cause, .returned tag false cause ∉ new
  queued : puts d new = [(s, m)]
  transmitted : transmissions s (s, (start.nodes s).calls) new =
    if InWindow (counter ((start.nodes d).listener.globals.recvTokens s))
      ((counter ((start.nodes s).listener.globals.sendTokens d) + 1) % tokenMax.toNat)
      then 1 else 2
  rest : AtRest net s d
  counters : counter ((net.nodes s).listener.globals.sendTokens d) =
    counter ((net.nodes d).listener.globals.recvTokens s)

/-- The exchange that began in `start` has come as far as `p`; the call has been made. -/
def AtRank (routes : Protocol.Routes) (s d : UInt8) (m : List UInt8) (k sendToken r : ℕ)
    (start : Protocol.Net) (p : ℕ) (net : Protocol.Net) : Prop :=
  ∃ allow stage taken, Shows routes s d m k sendToken r start net allow stage taken ∧
    k < (net.nodes s).calls ∧ p = stage.rank allow + taken

section Run

variable {routes : Protocol.Routes} {s d : UInt8} {m : List UInt8} {k sendToken r : ℕ}
  {start net : Protocol.Net}

/-- The exchange has an end. -/
theorem AtRank.le {p : ℕ} (h : AtRank routes s d m k sendToken r start p net) :
    p ≤ 13 + queues s d start := by
  obtain ⟨allow, stage, taken, hshows, -, rfl⟩ := h
  have hbalance := hshows.balance
  have hrank := stage.rank_add_queued_le allow
  omega

/-- A call from a node at rest begins the exchange. -/
theorem exists_call (hne : s ≠ d) (hs : s.toNat < routes.netSize) (hd : d.toNat < routes.netSize)
    (hrest : sceneOf s d start = resting sendToken k r) (hm : m.length ≤ 77)
    (encrypted : Mem UInt8) :
    ∃ net p, Network.step (Protocol.machine routes) start (.act s (.call d m encrypted)) =
        some net ∧ 1 ≤ p ∧ AtRank routes s d m k sendToken r start p net := by
  have happ : (start.nodes s).app = none := congrArg Scene.app hrest
  have hsend : (start.nodes s).sendToken d = sendToken := congrArg Scene.sendToken hrest
  obtain rfl : (start.nodes s).calls = k := congrArg Scene.calls hrest
  have hcan : Network.step (Protocol.machine routes) start (.act s (.call d m encrypted)) ≠ none :=
    step_act_ne_none hs (call_ne_none hd hm happ encrypted)
  obtain ⟨net, hcall⟩ := Option.ne_none_iff_exists'.mp hcan
  obtain ⟨res, hr, rfl⟩ := Network.step_act.mp hcall
  have hacts := Protocol.Node.act_cases (Protocol.machine_act.mp hr).2
  cases hacts with
  | called _ htoken =>
      rw [hsend] at htoken
      obtain rfl := htoken
      obtain ⟨allow, stage, taken, hshows, hlt⟩ :=
        called_step (shows_idle routes m hrest) hne rfl
      refine ⟨_, _, hcall, hlt, allow, stage, taken, hshows, ?_, rfl⟩
      simp only [Function.update_self]
      exact Nat.lt_succ_self _

/-- A run of the exchange gets further with every step. -/
theorem atRank_run (hne : s ≠ d) (hsd : UInt8.ofInt (routes.tables s d) = d)
    (hds : UInt8.ofInt (routes.tables d s) = s) (hnext : r + 1 < tokenMax.toNat) {p₀ : ℕ}
    {net₀ : Protocol.Net} (h₀ : AtRank routes s d m k sendToken r start p₀ net₀) {ls : List Step}
    (hlink : Lts.Along (Network.step (Protocol.machine routes)) (OnLinkP s d []) net₀ ls)
    (hrun : Lts.run (Network.step (Protocol.machine routes)) net₀ ls = some net) :
    ∃ p, p₀ + ls.length ≤ p ∧ AtRank routes s d m k sendToken r start p net := by
  refine Lts.exists_rank_of_run (AtRank routes s d m k sendToken r start)
    (fun p net l net' hat hok hstep => ?_) h₀ hlink hrun
  obtain ⟨allow, stage, taken, hshows, hcalls, rfl⟩ := hat
  obtain ⟨allow', stage', taken', hshows', hlt⟩ :=
    advances_of_step hshows hne hsd hds (fun _ => hnext) (fun _ m' hm => absurd hm (by simp)) hok
      hstep
  have hfaithful : l.Faithful := (hok.clean (List.forall_mem_nil _)).faithful
  exact ⟨_, hlt, allow', stage', taken', hshows',
    hcalls.trans_le (Protocol.calls_step hfaithful hstep s), rfl⟩

/-- The call has returned exactly when the exchange is over. -/
theorem finished_iff {allow : Bool} {stage : Stage} {taken : ℕ}
    (h : Shows routes s d m k sendToken r start net allow stage taken)
    (hcalls : k < (net.nodes s).calls) : (net.nodes s).app = none ↔ stage = .finished := by
  rw [h.app_eq_none_iff]
  refine or_iff_right ?_
  rintro rfl
  have hidle : (net.nodes s).calls = k := h.sender.2.1
  omega

end Run

/-! ### The beginning and the end -/

/-- Networks that correspond are at rest together. -/
theorem atRest_iff {cfg : Config} {net : LoraNet} {net' : Protocol.Net}
    (hrel : Refinement.NetRel cfg net net') (s d : UInt8) :
    AtRest net s d ↔ sceneOf s d net' = resting ((net'.nodes s).sendToken d) (net'.nodes s).calls
      ((net'.nodes d).recvToken s) := by
  have hair := Network.eq_nil_iff_of_forall₂ hrel.air
  have hanswers := Network.eq_nil_iff_of_forall₂ (hrel.nodes s).responseQueue
  have htask := (hrel.nodes s).polling_iff
  have htask' := (hrel.nodes d).polling_iff
  have happ := (hrel.nodes s).app_eq_none_iff
  have happ' := (hrel.nodes d).app_eq_none_iff
  simp only [sceneOf, resting, Scene.mk.injEq, true_and]
  constructor
  · rintro ⟨h₁, h₂, h₃, h₄, h₅, h₆⟩
    exact ⟨happ.mp h₃, htask.mp h₂, hanswers.mp h₄, htask'.mp h₅, happ'.mp h₆, hair.mp h₁⟩
  · rintro ⟨h₁, h₂, h₃, h₄, h₅, h₆⟩
    exact ⟨hair.mpr h₆, htask.mpr h₂, happ.mpr h₁, hanswers.mpr h₃, htask'.mpr h₄, happ'.mpr h₅⟩

/-- What has happened when the exchange is over. -/
theorem log_over {s d : UInt8} {m : List UInt8} {k : ℕ} {allow : Bool} {new : List Event}
    (hnew : new.filter notTaken = events s d m k allow .finished) :
    .returned (s, k) true (some (s, k)) ∈ new ∧ (∀ tag cause, .returned tag false cause ∉ new) ∧
      puts d new = [(s, m)] ∧ transmissions s (s, k) new = if allow then 1 else 2 := by
  obtain ⟨hreturned, hnever, hputs, hcount⟩ := events_over s d m k allow
  have hmem : ∀ e, notTaken e = true → (e ∈ new ↔ e ∈ events s d m k allow .finished) := by
    intro e he
    rw [← hnew, List.mem_filter]
    exact ⟨fun h => ⟨h, he⟩, fun h => h.1⟩
  refine ⟨(hmem _ rfl).mpr hreturned, fun tag cause h => hnever tag cause ((hmem _ rfl).mp h), ?_,
    ?_⟩
  · rw [← puts_filter, hnew, hputs]
  · have hone := hcount (s, k)
    rw [if_pos rfl, ← hnew, transmissions, List.count_filter rfl] at hone
    exact hone

/-- **Recovery.** In every state that nodes can reach, with messages lost and delayed and nodes
switched off and on, in which nothing is in flight, neither `s` nor `d` waits, no answer is left in
the queue of `s` and `d` has a token left: a call of `s` over a link that loses nothing comes to
its end, however the steps of the two nodes are interleaved, and has then succeeded. -/
theorem recovers (cfg : Config) (s d : UInt8) (hne : s ≠ d) (hs : s.toNat < cfg.netSize)
    (hd : d.toNat < cfg.netSize) (hsd : cfg.tables s d = d.toNat) (hds : cfg.tables d s = s.toNat)
    {rnd : UInt8 → UInt8 → Fin tokenMax.toNat} {encBuf : UInt8 → Mem UInt8}
    {ls : List Reboot.PowerStep} (hclean : ∀ l ∈ ls, Reboot.Clean l) {start : LoraNet}
    (hrun : Lts.run (Reboot.powerStep cfg) (booted rnd encBuf) ls = some start)
    (hrest : AtRest start s d)
    (hnext : counter ((start.nodes d).listener.globals.recvTokens s) + 1 < tokenMax.toNat)
    {m : List UInt8} (hm : m.length ≤ 77) (encrypted : Mem UInt8) :
    ∃ net₀, Network.step (machine cfg) start (.act s (.call d m encrypted)) = some net₀ ∧
      ∀ ls' net, Lts.Along (Network.step (machine cfg)) (OnExchange s d) net₀ ls' →
        Lts.run (Network.step (machine cfg)) net₀ ls' = some net →
        ls'.length ≤ 12 + (start.nodes s).newFrameQueue.length +
          (start.nodes d).newFrameQueue.length ∧
        ((net.nodes s).app ≠ none →
          ∃ l, OnExchange s d net l ∧ Network.step (machine cfg) net l ≠ none) ∧
        ((net.nodes s).app = none → ∃ new, Recovered start net s d m new) := by
  have hsd' : UInt8.ofInt ((Refinement.routes cfg).tables s d) = d := by
    simp [Refinement.routes, hsd]
  have hds' : UInt8.ofInt ((Refinement.routes cfg).tables d s) = s := by
    simp [Refinement.routes, hds]
  obtain ⟨pstart, -, hrel⟩ := Reboot.exists_protocol_run cfg hclean hrun
  rw [(hrel.nodes d).recvToken] at hnext
  have hs' : s.toNat < (Refinement.routes cfg).netSize := hs
  have hd' : d.toNat < (Refinement.routes cfg).netSize := hd
  obtain ⟨pnet₀, p₀, hpcall, hpos, hat₀⟩ :=
    exists_call hne hs' hd' ((atRest_iff hrel s d).mp hrest) hm encrypted
  have hfits : Step.Clean (.act s (.call d m encrypted)) := hm
  have hcalled := Refinement.step_refines cfg start pstart _ hrel hfits
  rw [hpcall] at hcalled
  obtain ⟨net₀, hcall, hrel₀⟩ := Lts.exists_of_rel_some hcalled
  refine ⟨net₀, hcall, fun ls' net hlink hrun' => ?_⟩
  have hnone : ∀ m ∈ ([] : List (List UInt8)), m.length ≤ 77 := List.forall_mem_nil _
  have hclean' : ∀ l ∈ ls', Step.Clean l :=
    Lts.forall_mem_of_along (fun _ l (h : OnLink s d [] _ _ l) => h.clean hnone) hlink hrun'
  have hsim := Lts.run_sim (Refinement.step_refines cfg) hrel₀ hclean'
  rw [hrun'] at hsim
  obtain ⟨pnet, hprun, hrel'⟩ := Lts.exists_of_some_rel hsim
  have hplink := Lts.along_sim (Refinement.step_refines cfg)
    (fun net net' l hrel _ h => (onLink_rel hrel s d [] l).mp h) hrel₀ hclean' hlink
  obtain ⟨p, hle, hat⟩ := atRank_run hne hsd' hds' hnext hat₀ hplink hprun
  have hqueues : queues s d pstart = (start.nodes s).newFrameQueue.length +
      (start.nodes d).newFrameQueue.length := by
    rw [queues, (hrel.nodes s).newFrameQueue.length_eq, (hrel.nodes d).newFrameQueue.length_eq]
  have hbound := hat.le
  obtain ⟨allow, stage, taken, hshows, hcalls, -⟩ := hat
  have happIff := (hrel'.nodes s).app_eq_none_iff
  refine ⟨by omega, fun happ => ?_, fun happ => ?_⟩
  · obtain ⟨l, hl, hstep⟩ := exists_step hshows hne hs hd [] fun hnone => happ (happIff.mpr hnone)
    have hl' := (onLink_rel hrel' s d [] l).mpr hl
    exact ⟨l, hl', Refinement.step_ne_none hrel' (hl'.clean hnone) hstep⟩
  · obtain rfl := (finished_iff hshows hcalls).mp (happIff.mp happ)
    obtain ⟨new, hlog, hnew⟩ := hshows.logged
    obtain ⟨hreturned, hnotFailed, hqueued, htransmitted⟩ := log_over hnew
    obtain ⟨hsend, hmade, -, -, -⟩ := hshows.sender
    obtain ⟨hrecv, -, -⟩ := hshows.receiver
    have hallow : allow = true ↔ _ := hshows.reached
    refine ⟨new, ?_, ?_, hnotFailed, hqueued, ?_, (atRest_iff hrel' s d).mpr ?_, ?_⟩
    · rw [hrel'.log, hlog, hrel.log]
    · rw [(hrel.nodes s).calls]
      exact hreturned
    · rw [(hrel.nodes s).calls, htransmitted, (hrel.nodes s).sendToken, (hrel.nodes d).recvToken]
      exact if_congr hallow rfl rfl
    · have hview := hshows.view
      rw [hsend, hmade, hrecv, hview]
      rfl
    · rw [(hrel'.nodes s).sendToken, (hrel'.nodes d).recvToken, hsend, hrecv]
      rfl

/-- Three is a token. -/
theorem three_lt : 3 < tokenMax.toNat := by decide

/-- So is seven. -/
theorem seven_lt : 7 < tokenMax.toNat := by decide

/-- Node `0` is switched off and on. -/
def switched : List Reboot.PowerStep := [.restart 0 (fun _ => ⟨3, three_lt⟩, fun _ => 9)]

/-- Switching a node off and on alters no packet. -/
theorem switched_clean : ∀ l ∈ switched, Reboot.Clean l := List.forall_mem_singleton.mpr trivial

/-- It counts from zero again; node `1` expects the token eight. -/
def restarted : LoraNet :=
  (booted (fun _ _ => ⟨7, seven_lt⟩) fun _ => null).restart 0
    (Node.boot (fun _ => ⟨3, three_lt⟩) fun _ => 9)

/-- The run of the restart. -/
theorem run_switched :
    Lts.run (Reboot.powerStep (Config.direct 2 (Equiv.refl Block) Crc8.crc8))
      (booted (fun _ _ => ⟨7, seven_lt⟩) fun _ => null) switched = some restarted := rfl

/-- After the restart the next call comes through. -/
theorem recovers_restarted :
    ∃ net₀, Network.step (machine (Config.direct 2 (Equiv.refl Block) Crc8.crc8)) restarted
        (.act 0 (.call 1 [5] null)) = some net₀ ∧
      ∀ ls' net, Lts.Along (Network.step (machine (Config.direct 2 (Equiv.refl Block) Crc8.crc8)))
          (OnExchange 0 1) net₀ ls' →
        Lts.run (Network.step (machine (Config.direct 2 (Equiv.refl Block) Crc8.crc8))) net₀ ls' =
          some net →
        ls'.length ≤ 12 + (restarted.nodes 0).newFrameQueue.length +
          (restarted.nodes 1).newFrameQueue.length ∧
        ((net.nodes 0).app ≠ none → ∃ l, OnExchange 0 1 net l ∧
          Network.step (machine (Config.direct 2 (Equiv.refl Block) Crc8.crc8)) net l ≠ none) ∧
        ((net.nodes 0).app = none → ∃ new, Recovered restarted net 0 1 [5] new) :=
  recovers _ 0 1 (by decide) (by decide) (by decide) rfl rfl
    switched_clean run_switched ⟨rfl, rfl, rfl, rfl, rfl, rfl⟩ (by decide) (by decide) null

end Recovery

end LCore
