import LCore.Link
import LCore.Quiescence
import LCore.Transparency

/-!
# Packets on Their Way

A network of any number of nodes, any of which may call any other at any time, over tables that
lead everywhere. As long as nothing disturbs it, every packet is on the path that the tables lead to
its destination: the node it names next can hear it, and passes it on, or takes it.

## Main results

* `OnWay.audible`, `OnWay.relay`, `OnWay.heard`: what comes of a packet on its way.
* `travels_step`: all packets stay on their ways.
-/

namespace LCore

namespace Exchanges

open Network
open Protocol (Body newPacket relayed)
open Encryption (counter)
open MultiHop (FirstArrival)
open Relays (Talks Between)
open Transparency (Leg)

/-! ### The network -/

/-- The steps of a network that nothing disturbs: nodes call others that have a token left, no call
runs out of time, nothing is lost, duplicated or altered, and there is room for what is put into a
queue. -/
def Undisturbed (net : LoraNet) : Step → Prop
  | .act s (.call d m _) => d ≠ s ∧ m.length ≤ 77 ∧
      counter ((net.nodes d).listener.globals.recvTokens s) + 1 < tokenMax.toNat
  | .act _ .timeout => False
  | .act v .put => (net.nodes v).hasRoom = true
  | .act _ _ | .hear _ _ _ => True
  | .lose _ | .duplicate _ | .alter _ _ => False

/-- The same for the protocol. -/
def UndisturbedP (net : Protocol.Net) : Step → Prop
  | .act s (.call d m _) => d ≠ s ∧ m.length ≤ 77 ∧ (net.nodes d).recvToken s + 1 < tokenMax.toNat
  | .act _ .timeout => False
  | .act v .put => (net.nodes v).hasRoom = true
  | .act _ _ | .hear _ _ _ => True
  | .lose _ | .duplicate _ | .alter _ _ => False

instance (net : Protocol.Net) : ∀ l, Decidable (UndisturbedP net l)
  | .act s (.call d m _) => inferInstanceAs (Decidable
      (d ≠ s ∧ m.length ≤ 77 ∧ (net.nodes d).recvToken s + 1 < tokenMax.toNat))
  | .act v .put => inferInstanceAs (Decidable ((net.nodes v).hasRoom = true))
  | .act _ .poll | .act _ .take | .act _ .transmit | .hear _ _ _ => inferInstanceAs (Decidable True)
  | .act _ .timeout | .lose _ | .duplicate _ | .alter _ _ => inferInstanceAs (Decidable False)

/-- The nodes of the network. -/
def nodesOf (cfg : Config) : Set UInt8 := {v | v.toNat < cfg.netSize}

/-- The tables lead from every node to every other one within the hop limit. -/
def Connected (cfg : Config) : Prop :=
  ∀ s d, Between (nodesOf cfg) s d → ∃ h, FirstArrival cfg s d h

/-! ### Packets on their way -/

/-- The packet is on a path that the tables lead to its destination. -/
structure OnWay (cfg : Config) (p : Protocol.Packet) : Prop where
  between : Between (nodesOf cfg) p.send p.dest
  leg : ∃ h i, FirstArrival cfg p.send p.dest h ∧ i < h ∧ Leg cfg p.send p.dest i p

section Way

variable {cfg : Config} {p : Protocol.Packet}

/-- A new packet is on its way. -/
theorem onWay_newPacket (hrouted : Connected cfg) {v dest : UInt8}
    (hbetween : Between (nodesOf cfg) v dest) (body : Body) (tag : Tag) :
    OnWay cfg (newPacket (Refinement.routes cfg) v dest body tag) := by
  obtain ⟨h, hfirst⟩ := hrouted v dest hbetween
  exact ⟨hbetween, h, 0, hfirst, hfirst.1, Transparency.leg_zero hbetween.1 rfl⟩

variable (hway : OnWay cfg p)

include hway

/-- The node it names can hear it. -/
theorem OnWay.audible :
    (Protocol.machine (Refinement.routes cfg)).audible p.next p = true := by
  obtain ⟨h, i, hfirst, hi, hleg⟩ := hway.leg
  refine Protocol.machine_audible.mpr
    ⟨?_, hleg.next_ne_origin hfirst hway.between.2.2 hi⟩
  by_cases hlast : i + 1 = h
  · rw [hleg.next_eq hfirst hlast]
    exact hway.between.2.1
  · exact (hleg.relay hfirst (by omega)).2.1

/-- Before its destination it is relayed. -/
theorem OnWay.relay (hdest : p.dest ≠ p.next) :
    p.ttl ≠ 0 ∧ OnWay cfg (relayed (Refinement.routes cfg) p.next p) := by
  obtain ⟨h, i, hfirst, hi, hleg⟩ := hway.leg
  have hlast : i + 1 ≠ h := fun hlast => hdest (hleg.next_eq hfirst hlast).symm
  obtain ⟨-, hx, httl⟩ := hleg.relay hfirst (by omega)
  exact ⟨httl, hway.between, h, i + 1, hfirst, by omega, hleg.succ hx httl⟩

/-- The node it names does something about it. -/
theorem OnWay.heard {n : Protocol.Node} {r : Protocol.Node × List Event}
    (hr : Protocol.Node.hear (Refinement.routes cfg) p.next n p = some r) :
    r.1.task ≠ .polling := by
  obtain ⟨htask, -, -⟩ := Protocol.Node.hear_cases hr
  by_cases hdest : p.dest = p.next
  · cases hbody : p.body with
    | data token m =>
        rw [Link.hear_data _ htask rfl hdest hbody] at hr
        obtain rfl := Option.some.inj hr
        split
        · exact Protocol.Task.noConfusion
        · exact Protocol.Task.noConfusion
    | _ =>
        rw [Link.hear_answer _ htask rfl hdest (by simp [hbody])] at hr
        obtain rfl := Option.some.inj hr
        exact Protocol.Task.noConfusion
  · have hd : p.dest.toNat < (Refinement.routes cfg).netSize := hway.between.2.1
    simp only [Protocol.Node.hear, htask, Protocol.Node.listen, if_true, if_neg hdest,
      if_pos (And.intro hd (hway.relay hdest).1)] at hr
    obtain rfl := Option.some.inj hr
    exact Protocol.Task.noConfusion

end Way

/-- All packets are on their way, and only nodes of the network have anything to do. -/
structure Travels (cfg : Config) (net : Protocol.Net) : Prop where
  sound : Quiescence.Sound net
  inside : ∀ v, v.toNat < cfg.netSize ∨ (net.nodes v).task = .polling
  talks : ∀ v, Talks (nodesOf cfg) v (net.nodes v)
  air : ∀ p ∈ net.air, OnWay cfg p
  tasks : ∀ v, ∀ p ∈ (net.nodes v).task.packets, OnWay cfg p

section Travel

variable {cfg : Config} {v : UInt8} {n : Protocol.Node} (hrouted : Connected cfg)
  (htalks : Talks (nodesOf cfg) v n) (hown : ∀ p ∈ n.task.packets, OnWay cfg p)

include hrouted htalks hown

/-- What an action leaves and transmits is on its way. -/
theorem onWay_act {i : Action} {r : Protocol.Node.Result}
    (hamong : Relays.Among (nodesOf cfg) (.act v i))
    (hacts : Protocol.Node.Acts (Refinement.routes cfg) v n i r) :
    (∀ p ∈ r.1.task.packets, OnWay cfg p) ∧ ∀ p ∈ r.2.1, OnWay cfg p := by
  obtain ⟨htalks', hbetween⟩ := htalks.act hamong hacts
  have hpackets := htalks'.packets
  cases hacts with
  | called =>
      refine ⟨hown, fun p hp => ?_⟩
      have hp' := hbetween p hp
      obtain rfl := List.mem_singleton.mp hp
      exact onWay_newPacket hrouted hp' ..
  | resent =>
      refine ⟨hown, fun p hp => ?_⟩
      have hp' := hbetween p hp
      obtain rfl := List.mem_singleton.mp hp
      exact onWay_newPacket hrouted hp' ..
  | queued => exact ⟨nofun, nofun⟩
  | put =>
      refine ⟨fun p hp => ?_, nofun⟩
      have hp' := hpackets p hp
      obtain rfl := List.mem_singleton.mp hp
      exact onWay_newPacket hrouted hp' ..
  | refused =>
      refine ⟨fun p hp => ?_, nofun⟩
      have hp' := hpackets p hp
      rcases List.mem_cons.mp hp with rfl | hp
      · exact onWay_newPacket hrouted hp' ..
      · obtain rfl := List.mem_singleton.mp hp
        exact onWay_newPacket hrouted hp' ..
  | transmitted htask =>
      rw [htask] at hown
      obtain ⟨hp, hrest⟩ := List.forall_mem_cons.mp hown
      refine ⟨fun q hq => hrest q ?_, List.forall_mem_singleton.mpr hp⟩
      rwa [Protocol.Task.packets_owing] at hq
  | _ => exact ⟨hown, nofun⟩

/-- What a packet that was heard leaves is on its way. -/
theorem onWay_hears {p : Protocol.Packet} {n' : Protocol.Node} (hway : OnWay cfg p)
    (hnext : p.next = v)
    (hhears : Protocol.Node.Hears (Refinement.routes cfg) v n p n') :
    ∀ q ∈ n'.task.packets, OnWay cfg q := by
  have hpackets := (htalks.hears hway.between hhears).packets
  subst hnext
  cases hhears with
  | ignored => exact hown
  | relayed hdest => exact List.forall_mem_singleton.mpr (hway.relay hdest).2
  | answer => exact nofun
  | accepted => exact nofun
  | rejected =>
      intro q hq
      have hq' := hpackets q hq
      obtain rfl := List.mem_singleton.mp hq
      exact onWay_newPacket hrouted hq' ..

end Travel

/-- A call is from one of the nodes to another one. -/
theorem among_act {cfg : Config} {net : Protocol.Net} {v : UInt8} {i : Action}
    {r : Protocol.Node.Result} (hl : UndisturbedP net (.act v i)) (hv : v.toNat < cfg.netSize)
    (hr : Protocol.Node.act (Refinement.routes cfg) v (net.nodes v) i = some r) :
    Relays.Among (nodesOf cfg) (.act v i) := by
  cases i with
  | call dest m encrypted =>
      simp only [Protocol.Node.act, Protocol.Node.call] at hr
      split at hr
      · cases hr
      · obtain ⟨⟨hd, -⟩, -⟩ := Option.ite_none_right_eq_some.mp hr
        exact ⟨hv, hd, hl.1.symm⟩
  | _ => trivial

/-- An undisturbed step is faithful. -/
theorem UndisturbedP.faithful {net : Protocol.Net} {l : Step} (hl : UndisturbedP net l) :
    l.Faithful := by
  cases l with
  | alter => exact hl
  | _ => trivial

section Update

variable {cfg : Config} {net : Protocol.Net} (h : Travels cfg net) {v : UInt8} {n : Protocol.Node}

include h

/-- A node that has been exchanged is one of the network. -/
theorem Travels.inside_update (hv : v.toNat < cfg.netSize) (w : UInt8) :
    w.toNat < cfg.netSize ∨ (Function.update net.nodes v n w).task = .polling :=
  (Function.forall_update_iff net.nodes fun w n => w.toNat < cfg.netSize ∨ n.task = .polling).mpr
    ⟨.inl hv, fun w _ => h.inside w⟩ w

/-- It talks to the nodes of the network. -/
theorem Travels.talks_update (hn : Talks (nodesOf cfg) v n) (w : UInt8) :
    Talks (nodesOf cfg) w (Function.update net.nodes v n w) :=
  (Function.forall_update_iff net.nodes fun w => Talks (nodesOf cfg) w).mpr
    ⟨hn, fun w _ => h.talks w⟩ w

/-- What it owes is on its way. -/
theorem Travels.tasks_update (hn : ∀ p ∈ n.task.packets, OnWay cfg p) (w : UInt8) :
    ∀ p ∈ (Function.update net.nodes v n w).task.packets, OnWay cfg p :=
  (Function.forall_update_iff net.nodes fun _ n => ∀ p ∈ n.task.packets, OnWay cfg p).mpr
    ⟨hn, fun w _ => h.tasks w⟩ w

end Update

/-- Every step keeps the packets on their way. -/
theorem travels_step {cfg : Config} (hrouted : Connected cfg) {net net' : Protocol.Net} {l : Step}
    (h : Travels cfg net) (hl : UndisturbedP net l)
    (hstep : Network.step (Protocol.machine (Refinement.routes cfg)) net l = some net') :
    Travels cfg net' := by
  have hsound := Quiescence.sound_step h.sound hl.faithful hstep
  cases l with
  | act v i =>
      obtain ⟨r, hr, rfl⟩ := step_act.mp hstep
      obtain ⟨hv, hact⟩ := Protocol.machine_act.mp hr
      have hacts := Protocol.Node.act_cases hact
      have hamong := among_act hl hv hact
      obtain ⟨htask, hnew⟩ := onWay_act hrouted (h.talks v) (h.tasks v) hamong hacts
      have htalks := ((h.talks v).act hamong hacts).1
      exact ⟨hsound, h.inside_update hv, h.talks_update htalks,
        List.forall_mem_append.mpr ⟨h.air, hnew⟩, h.tasks_update htask⟩
  | hear v k g =>
      obtain ⟨p, r, hp, haud, hr, rfl⟩ := step_hear.mp hstep
      have hway := h.air p (List.mem_of_getElem? hp)
      obtain ⟨hv, -⟩ := Protocol.machine_audible.mp haud
      obtain ⟨-, -, hhears⟩ := Protocol.Node.hear_cases hr
      have htalks := (h.talks v).hears hway.between hhears
      have hair : ∀ q ∈ if (Protocol.machine (Refinement.routes cfg)).consumes v p = true
          then net.air.eraseIdx k else net.air, OnWay cfg q := by
        split
        · exact fun q hq => h.air q (List.mem_of_mem_eraseIdx hq)
        · exact h.air
      refine ⟨hsound, h.inside_update hv, h.talks_update htalks, hair, h.tasks_update ?_⟩
      by_cases hnext : p.next = v
      · exact onWay_hears hrouted (h.talks v) (h.tasks v) hway hnext hhears
      · rw [Protocol.Node.hear_of_next_ne hr hnext]
        exact h.tasks v
  | lose k => exact hl.elim
  | duplicate k => exact hl.elim
  | alter k c => exact hl.elim

end Exchanges

end LCore
