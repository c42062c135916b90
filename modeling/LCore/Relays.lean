import LCore.Flattened
import LCore.Traces

/-!
# Relays Do Not Show

Whatever the routing tables are, and wherever they lead, the nodes that send and receive messages
see nothing of them. Every run of a network with relays is, for its applications and its listeners,
a run of the network of the same size in which everyone reaches everyone directly: a packet is on
the air there from its first transmission to its last, and one that a relay drops, or that the
tables lead out of the network, is lost.

So what holds of every run of a direct network, under loss and delay, holds of every network with
relays. The one exception are messages of a node to itself: they come back over a relay, and
without one a node does not hear what it transmits.

## Main results

* `weak_step`: a step of the network with relays is a step of the direct network, or none.
* `relays_hidden`: the same for the runs of the code.
-/

open Memory

namespace LCore

namespace Relays

open Protocol (relayed)

/-! ### What the networks do -/

section Networks

variable {routes : Protocol.Routes} {P : Set UInt8} {held : UInt8 → Multiset Protocol.Packet}
  {net net' : Protocol.Net}

section Rel

variable (h : Rel P held net net')

include h

/-- A node changes in both networks. What it holds and what is on the air balance. -/
theorem Rel.next {v : UInt8} {n n' : Protocol.Node} {x : Multiset Protocol.Packet}
    {air air' : List Protocol.Packet} {new new' : List Event} (hnode : NodeRel n n' x)
    (htalks : Talks P v n) (hbetween : ∀ p ∈ air, Between P p.send p.dest)
    (hbalance : air' + held v + aired net.air =
      aired air + x + (net'.air : Multiset Protocol.Packet))
    (hsub : new'.Sublist new) (hlog : new'.filter notTransmitted = new.filter notTransmitted) :
    Rel P (Function.update held v x) ⟨Function.update net.nodes v n, air, new ++ net.log⟩
      ⟨Function.update net'.nodes v n', air', new' ++ net'.log⟩ where
  nodes w := by
    by_cases hw : w = v
    · subst hw
      simpa only [Function.update_self] using hnode
    · simpa only [Function.update_of_ne hw] using h.nodes w
  air := by
    have hsum := Network.sum_update_add held v x
    rw [h.air] at hbalance
    refine add_right_cancel (b := held v + aired net.air) ?_
    calc air' + (held v + aired net.air)
        = aired air + x + (aired net.air + ∑ w, held w) := by
          rw [← hbalance, add_assoc]
      _ = aired air + aired net.air + (∑ w, held w + x) := by
          ac_rfl
      _ = aired air + ∑ w, Function.update held v x w + (held v + aired net.air) := by
          rw [← hsum]
          ac_rfl
  talks w := by
    by_cases hw : w = v
    · subst hw
      simpa only [Function.update_self] using htalks
    · simpa only [Function.update_of_ne hw] using h.talks w
  between := hbetween
  sublist := hsub.append h.sublist
  log := by rw [List.filter_append, List.filter_append, hlog, h.log]

/-- A node changes in the network with relays only. -/
theorem Rel.hidden {v : UInt8} {n : Protocol.Node} {x : Multiset Protocol.Packet}
    {air : List Protocol.Packet} {new : List Event} (hnode : NodeRel n (net'.nodes v) x)
    (htalks : Talks P v n) (hbetween : ∀ p ∈ air, Between P p.send p.dest)
    (hbalance : held v + aired net.air = aired air + x)
    (hlog : new.filter notTransmitted = []) :
    Rel P (Function.update held v x) ⟨Function.update net.nodes v n, air, new ++ net.log⟩ net' := by
  have hnext : Rel P (Function.update held v x) ⟨Function.update net.nodes v n, air, new ++ net.log⟩
      ⟨Function.update net'.nodes v (net'.nodes v), net'.air, [] ++ net'.log⟩ :=
    h.next hnode htalks hbetween (by rw [add_assoc, hbalance, add_comm]) (List.nil_sublist new)
      hlog.symm
  rwa [Function.update_eq_self] at hnext

/-- A packet on the air is on the air in the direct network. -/
theorem Rel.exists_index {k : ℕ} {p : Protocol.Packet} (hp : net.air[k]? = some p) :
    ∃ k' : ℕ, net'.air[k']? = some (flat p) := by
  have hmem : flat p ∈ (net'.air : Multiset Protocol.Packet) := by
    rw [h.air]
    exact Multiset.mem_add.mpr (.inl (List.mem_map_of_mem (List.mem_of_getElem? hp)))
  exact List.getElem?_of_mem (Multiset.mem_coe.mp hmem)

/-- The direct network follows with some steps, or none. -/
def Matched (routes : Protocol.Routes) (P : Set UInt8) (net' net₁ : Protocol.Net) : Prop :=
  ∃ ls' net₁', (∀ l' ∈ ls', Step.Clean l' ∧ Among P l') ∧
    Lts.run (Network.step (Protocol.machine (direct routes))) net' ls' = some net₁' ∧
    ∃ held', Rel P held' net₁ net₁'

omit h in
/-- The direct network does nothing. -/
theorem matched_nil {net₁ : Protocol.Net} {held' : UInt8 → Multiset Protocol.Packet}
    (hrel : Rel P held' net₁ net') : Matched routes P net' net₁ :=
  ⟨[], net', nofun, rfl, held', hrel⟩

omit h in
/-- The direct network takes a step. -/
theorem matched_step {l : Step} {net₁ net₁' : Protocol.Net}
    {held' : UInt8 → Multiset Protocol.Packet} (hok : l.Clean ∧ Among P l)
    (hstep : Network.step (Protocol.machine (direct routes)) net' l = some net₁')
    (hrel : Rel P held' net₁ net₁') : Matched routes P net' net₁ :=
  ⟨[l], net₁', List.forall_mem_singleton.mpr hok,
    Lts.run_cons_eq_some.mpr ⟨net₁', hstep, rfl⟩, held', hrel⟩

section Act

variable {v : UInt8} {i : Action} {r : Protocol.Node.Result} (hv : v.toNat < routes.netSize)
  (hok : Step.Clean (.act v i) ∧ Among P (.act v i))

include hv hok

/-- The same action in the direct network. -/
theorem Rel.act_step {x : Multiset Protocol.Packet} {task : Protocol.Task}
    (hacts : Protocol.Node.Acts routes v (net.nodes v) i r)
    (hact : Protocol.Node.act (direct routes) v (net'.nodes v) i = some (flatResult task r))
    (htask : TaskRel r.1.task task x) (hx : held v = x) :
    Matched routes P net'
      ⟨Function.update net.nodes v r.1, net.air ++ r.2.1, r.2.2 ++ net.log⟩ := by
  obtain ⟨htalks, hbetween⟩ := (h.talks v).act hok.2 hacts
  refine matched_step hok
    (Network.step_act.mpr ⟨_, Protocol.machine_act.mpr ⟨hv, hact⟩, rfl⟩)
    (h.next (x := x) ⟨rfl, htask⟩ htalks ?_ ?_ (List.Sublist.refl _) rfl)
  · exact List.forall_mem_append.mpr ⟨h.between, hbetween⟩
  · rw [← hx]
    exact balance_append ..

/-- **A node acts.** What it relays is transmitted in the network with relays only. -/
theorem Rel.act (hr : Protocol.Node.act routes v (net.nodes v) i = some r) :
    Matched routes P net'
      ⟨Function.update net.nodes v r.1, net.air ++ r.2.1, r.2.2 ++ net.log⟩ := by
  have hacts := Protocol.Node.act_cases hr
  have hnode := (h.nodes v).node
  rcases (h.nodes v).task.cases with ⟨hown, htask, hheld⟩ | ⟨p, htask, htask', hheld⟩
  · have hflat := act_own routes v hown i
    rw [← htask, ← hnode, hr, Option.map_some] at hflat
    exact h.act_step hv hok hacts hflat (.own (own_of_act hown hacts)) hheld
  · have happ : ofApp i = true → Matched routes P net'
        ⟨Function.update net.nodes v r.1, net.air ++ r.2.1, r.2.2 ++ net.log⟩ := by
      intro hi
      have hflat := act_flat routes v (n := net.nodes v) hi (net'.nodes v).task
      rw [← hnode, hr, Option.map_some] at hflat
      refine h.act_step hv hok hacts hflat ?_ rfl
      rw [task_of_app hi hacts]
      exact (h.nodes v).task
    obtain ⟨htalks, hbetween⟩ := (h.talks v).act hok.2 hacts
    cases hacts with
    | queued hqueueing => exact absurd (htask.symm.trans hqueueing) nofun
    | put hqueueing => exact absurd (htask.symm.trans hqueueing) nofun
    | refused hqueueing => exact absurd (htask.symm.trans hqueueing) nofun
    | transmitted hsending =>
        -- the relay's own transmission: the packet is on the air of the direct network already
        obtain ⟨rfl, rfl⟩ := List.cons.inj (Protocol.Task.sending.inj (htask.symm.trans hsending))
        refine matched_nil (h.hidden (x := 0) ⟨hnode, ?_⟩ htalks
          (List.forall_mem_append.mpr ⟨h.between, hbetween⟩) ?_ rfl)
        · rw [htask']
          exact taskRel_polling
        · rw [hheld, aired_append, add_zero, add_comm]
          rfl
    | _ => exact happ rfl

end Act

section Hear

variable {v : UInt8} {k : ℕ} {p : Protocol.Packet} {n : Protocol.Node}
  {events : List Event}

/-- A packet is gone. -/
theorem Rel.lost {k' : ℕ} (hp : net.air[k]? = some p) (hp' : net'.air[k']? = some (flat p)) :
    Rel P held { net with air := net.air.eraseIdx k }
      { net' with air := net'.air.eraseIdx k' } where
  nodes := h.nodes
  air := by
    have hbalance := aired_eraseIdx hp hp'
    rw [h.air] at hbalance
    refine add_right_cancel (b := aired net.air) ?_
    calc net'.air.eraseIdx k' + aired net.air
        = aired (net.air.eraseIdx k) + (aired net.air + ∑ v, held v) := hbalance
      _ = aired (net.air.eraseIdx k) + ∑ v, held v + aired net.air := by ac_rfl
  talks := h.talks
  between q hq := h.between q (List.mem_of_mem_eraseIdx hq)
  sublist := h.sublist
  log := h.log

/-- A packet is lost, in both networks. -/
theorem Rel.lose (hp : net.air[k]? = some p) :
    Matched routes P net' { net with air := net.air.eraseIdx k } := by
  obtain ⟨k', hp'⟩ := h.exists_index hp
  obtain ⟨hlt, -⟩ := List.getElem?_eq_some_iff.mp hp'
  exact matched_step (l := .lose k') ⟨trivial, trivial⟩ (if_pos hlt) (h.lost hp hp')

/-- A packet comes twice, in both networks. -/
theorem Rel.duplicate (hp : net.air[k]? = some p) :
    Matched routes P net' { net with air := p :: net.air } := by
  obtain ⟨k', hp'⟩ := h.exists_index hp
  have hstep : Network.step (Protocol.machine (direct routes)) net' (.duplicate k') =
      some { net' with air := flat p :: net'.air } := by
    rw [Network.step, hp', Option.map_some]
  refine matched_step (l := .duplicate k') ⟨trivial, trivial⟩ hstep
    ⟨h.nodes, ?_, h.talks, ?_, h.sublist, h.log⟩
  · rw [← Multiset.cons_coe, h.air, ← Multiset.cons_add]
    rfl
  · exact List.forall_mem_cons.mpr ⟨h.between p (List.mem_of_getElem? hp), h.between⟩

/-- A node hears a packet. Only at its destination does it in the direct network. -/
theorem Rel.hear (hp : net.air[k]? = some p) (hv : v.toNat < routes.netSize)
    (hr : Protocol.Node.hear routes v (net.nodes v) p = some (n, events)) :
    Matched routes P net' ⟨Function.update net.nodes v n,
      if p.next = v then net.air.eraseIdx k else net.air, events ++ net.log⟩ := by
  obtain ⟨hpolling, hevents, hhears⟩ := Protocol.Node.hear_cases hr
  obtain rfl : events = [] := hevents
  obtain ⟨htask, hheld⟩ := (h.nodes v).task.of_polling hpolling
  have hmem := List.mem_of_getElem? hp
  have htalks := (h.talks v).hears (h.between p hmem) hhears
  have hbetween : ∀ q ∈ net.air.eraseIdx k, Between P q.send q.dest :=
    fun q hq => h.between q (List.mem_of_mem_eraseIdx hq)
  by_cases hnext : p.next = v
  · rw [if_pos hnext]
    by_cases hdest : p.dest = v
    · -- the last hop: the direct network hears the packet now
      obtain ⟨k', hp'⟩ := h.exists_index hp
      have hflat := hear_flat routes (n := net.nodes v) hnext hdest
      rw [hr, Option.map_some] at hflat
      have hnode : net'.nodes v = net.nodes v := by
        rw [(h.nodes v).node, htask, ← hpolling]
      rw [← hnode] at hflat
      have haud : (Protocol.machine (direct routes)).audible v (flat p) = true :=
        Protocol.machine_audible.mpr ⟨hv, fun heq =>
          (h.between p hmem).2.2 (heq.symm.trans hdest.symm)⟩
      have hconsumes : (Protocol.machine (direct routes)).consumes v (flat p) = true :=
        beq_iff_eq.mpr hdest
      have hheard : Network.step (Protocol.machine (direct routes)) net' (.hear v k' .zero) =
          some ⟨Function.update net'.nodes v { n with task := flatTask n.task },
            net'.air.eraseIdx k', [] ++ net'.log⟩ :=
        Network.step_hear.mpr ⟨_, _, hp', haud, hflat, by rw [if_pos hconsumes]⟩
      refine matched_step (l := .hear v k' .zero) ⟨trivial, trivial⟩ hheard
        (h.next (x := 0) ⟨?_, .own (own_of_hears hpolling hdest hhears)⟩ htalks hbetween ?_
          (List.Sublist.refl _) rfl)
      · rfl
      · rw [hheld, add_zero, add_zero]
        exact aired_eraseIdx hp hp'
    · cases hhears with
      | ignored =>
          rw [Function.update_eq_self]
          exact h.lose hp
      | relayed =>
          -- the packet goes on: it is still on the air in the direct network
          refine matched_nil (h.hidden (x := {flat p}) ⟨?_, ?_⟩ htalks hbetween ?_ rfl)
          · rw [(h.nodes v).node]
          · rw [htask]
            exact .relaying (relayed routes v p)
          · rw [hheld, zero_add, aired_eq_cons hp, ← Multiset.singleton_add, add_comm]
      | answer hdest' => exact absurd hdest' hdest
      | accepted hdest' => exact absurd hdest' hdest
      | rejected hdest' => exact absurd hdest' hdest
  · rw [if_neg hnext]
    obtain rfl : n = net.nodes v := Protocol.Node.hear_of_next_ne hr hnext
    rw [Function.update_eq_self]
    exact matched_nil h

end Hear

/-- **A step of the network with relays** is a step of the direct network, or none. -/
theorem weak_step {l : Step} {net₁ : Protocol.Net} (hok : l.Clean ∧ Among P l)
    (hstep : Network.step (Protocol.machine routes) net l = some net₁) :
    Matched routes P net' net₁ := by
  cases l with
  | act v i =>
      obtain ⟨r, hact, rfl⟩ := Network.step_act.mp hstep
      obtain ⟨hv, hr⟩ := Protocol.machine_act.mp hact
      exact h.act hv hok hr
  | hear v k g =>
      obtain ⟨p, ⟨n, events⟩, hp, haud, hr, rfl⟩ := Network.step_hear.mp hstep
      obtain ⟨hv, -⟩ := Protocol.machine_audible.mp haud
      simpa only [Protocol.machine, beq_iff_eq] using h.hear hp hv hr
  | lose k =>
      simp only [Network.step, Option.ite_none_right_eq_some, Option.some.injEq] at hstep
      obtain ⟨hk, rfl⟩ := hstep
      exact h.lose (List.getElem?_eq_getElem hk)
  | duplicate k =>
      simp only [Network.step, Option.map_eq_some_iff] at hstep
      obtain ⟨p, hp, rfl⟩ := hstep
      exact h.duplicate hp
  | alter k c => exact hok.1.elim

end Rel

/-- The two networks correspond when they have booted. -/
theorem rel_booted (recvToken : UInt8 → UInt8 → ℕ) :
    Rel P (fun _ => 0) (Protocol.booted recvToken) (Protocol.booted recvToken) where
  nodes _ := ⟨rfl, taskRel_polling⟩
  air := by
    rw [Finset.sum_const_zero, add_zero]
    rfl
  talks _ := ⟨nofun, nofun, nofun⟩
  between := nofun
  sublist := List.Sublist.refl _
  log := rfl

/-- **A run of the network with relays** is matched by one of the direct network. -/
theorem matched_run {recvToken : UInt8 → UInt8 → ℕ} {ls : List Step}
    (hok : ∀ l ∈ ls, l.Clean ∧ Among P l)
    (hrun : Lts.run (Network.step (Protocol.machine routes)) (Protocol.booted recvToken) ls =
      some net) : Matched routes P (Protocol.booted recvToken) net :=
  Lts.run_weak_sim (R := fun net net' => ∃ held, Rel P held net net')
    (fun _ _ _ _ ⟨_, hrel⟩ hok hstep => weak_step hrel hok hstep) ⟨_, rel_booted recvToken⟩ hok hrun

end Networks

/-! ### The code -/

/-- The direct network of the size of another one. -/
theorem routes_direct (cfg : Config) :
    Refinement.routes (.direct cfg.netSize cfg.aes cfg.crc) = direct (Refinement.routes cfg) := rfl

/-- **Relays do not show.** Take any run of any network in which the medium alters nothing and only
nodes in `P` call, and only other ones. What it has in its log is what such a run of the direct
network has, with the same tokens at the start, but for what is transmitted: every transmission
there is one here, and here are those of the relays besides. -/
theorem relays_hidden (cfg : Config) (P : Set UInt8) {rnd : UInt8 → UInt8 → Fin tokenMax.toNat}
    {encBuf : UInt8 → Mem UInt8} {ls : List Step} (hok : ∀ l ∈ ls, l.Clean ∧ Among P l)
    {net : LoraNet}
    (hrun : Lts.run (Network.step (machine cfg)) (booted rnd encBuf) ls = some net) :
    ∃ ls' net', (∀ l ∈ ls', Step.Clean l ∧ Among P l) ∧
      Lts.run (Network.step (machine (.direct cfg.netSize cfg.aes cfg.crc))) (booted rnd encBuf)
        ls' = some net' ∧
      net'.log.Sublist net.log ∧
      net'.log.filter notTransmitted = net.log.filter notTransmitted := by
  obtain ⟨pnet, hprun, hprel⟩ := Refinement.exists_protocol_run cfg (fun l hl => (hok l hl).1) hrun
  obtain ⟨ls', pnet', hok', hrun', held, hrel⟩ := matched_run hok hprun
  obtain ⟨net', hnet', hlog⟩ := Refinement.exists_code_run (.direct cfg.netSize cfg.aes cfg.crc)
    rnd encBuf pnet'.log (fun l hl => (hok' l hl).1) (by rw [routes_direct, hrun', Option.map_some])
  refine ⟨ls', net', hok', hnet', ?_, ?_⟩
  · rw [hlog, hprel.log]
    exact hrel.sublist
  · rw [hlog, hprel.log]
    exact hrel.log

/-- The tables for three devices. -/
def threeDevices : Config where
  netSize := 3
  tables := fun a d => (([[0, 1, 1], [0, 1, 2], [1, 1, 2]] : List (List ℤ)).getD a.toNat []).getD
    d.toNat 0
  aes := Equiv.refl Block
  crc := Crc8.crc8

/-- A message of the first device gets to the third one over the second one. -/
def overTheRelay : List Step :=
  [.act 0 (.call 2 [7] null), .hear 1 0 .zero, .act 1 .transmit, .hear 2 0 .zero, .act 2 .put,
    .act 2 .take]

/-- No packet of the run is altered, and only the two ends talk. -/
theorem overTheRelay_ok : ∀ l ∈ overTheRelay, l.Clean ∧ Among {0, 2} l := by
  simp [overTheRelay, Step.Clean, Network.Label.Admits, Action.Fits, Among, Between]

/-- The run goes through: the message arrives over the relay. -/
theorem exists_overTheRelay :
    ∃ net, Lts.run (Network.step (machine threeDevices))
        (booted (fun _ _ => ⟨0, by decide⟩) fun _ => null) overTheRelay = some net ∧
      net.log = [.taken 2 0 [7], .put 2 0 [7] (0, 0), .transmitted 1 (0, 0) typeMaskNeedAck,
        .transmitted 0 (0, 0) typeMaskNeedAck, .called (0, 0) 2 [7]] :=
  Refinement.exists_code_run threeDevices _ _ _ (fun l hl => (overTheRelay_ok l hl).1) (by decide)

/-- The direct network shows as much. -/
theorem relays_hidden_overTheRelay :
    ∃ net, Lts.run (Network.step (machine threeDevices))
        (booted (fun _ _ => ⟨0, by decide⟩) fun _ => null) overTheRelay = some net ∧
      ∃ ls' net', (∀ l ∈ ls', Step.Clean l ∧ Among {0, 2} l) ∧
        Lts.run (Network.step (machine (.direct 3 (Equiv.refl Block) Crc8.crc8)))
          (booted (fun _ _ => ⟨0, by decide⟩) fun _ => null) ls' = some net' ∧
        net'.log.Sublist net.log ∧
        net'.log.filter notTransmitted = net.log.filter notTransmitted := by
  obtain ⟨net, hrun, -⟩ := exists_overTheRelay
  exact ⟨net, hrun, relays_hidden threeDevices {0, 2} overTheRelay_ok hrun⟩

end Relays

end LCore
