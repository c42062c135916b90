import LCore.MultiHop
import LCore.Relays
import Mathlib.Data.List.InsertIdx

/-!
# Relays Are Transparent

Where the tables lead from each node that calls or is called to each other one, within the hop
limit and over nodes that do neither, the network with relays does all that the direct network
does: whenever a node hears a packet there, the relays have taken it along first. What the
applications and the listeners can see is then the same in both networks, under every timing and
every loss.

## Main results

* `relay_run`: a relay takes a packet along by one hop.
* `carried`: the relays take a packet to the last hop.
* `relays_transparent`: the code shows the same logs with relays and without.
-/

open Memory

namespace LCore

namespace Transparency

open Protocol (Body newPacket relayed)
open MultiHop (hop FirstArrival hop_succ_eq_some)
open Relays

/-- The tables lead from each node in `P` to each other one within the hop limit, over nodes that
are not in `P`. -/
def Routed (cfg : Config) (P : Set UInt8) : Prop :=
  ∀ s d, Between P s d → ∃ h, FirstArrival cfg s d h ∧
    ∀ i x, 1 ≤ i → i < h → hop cfg s d i = some x → x ∉ P

/-- What can be seen of a run: its log, but for what is transmitted. -/
def Shows (cfg : Config) (P : Set UInt8) (rnd : UInt8 → UInt8 → Fin tokenMax.toNat)
    (encBuf : UInt8 → Mem UInt8) (log : List Event) : Prop :=
  ∃ ls net, (∀ l ∈ ls, Step.Clean l ∧ Among P l) ∧
    Lts.run (Network.step (machine cfg)) (booted rnd encBuf) ls = some net ∧
    net.log.filter notTransmitted = log

/-- The packet is one its sender transmits, and no relay has. -/
def IsNew (routes : Protocol.Routes) (p : Protocol.Packet) : Prop :=
  p = newPacket routes p.send p.dest p.body p.tag

/-- A node that relays nothing. -/
structure Fresh (routes : Protocol.Routes) (P : Set UInt8) (v : UInt8) (n : Protocol.Node) :
    Prop extends Talks P v n where
  own : ∀ p ∈ n.task.packets, IsNew routes p
  idle : v ∉ P → n.task = .polling

/-- The networks are the same, and every packet is on the air for the first time. -/
structure Alike (routes : Protocol.Routes) (P : Set UInt8) (net net' : Protocol.Net) : Prop where
  nodes : ∀ v, net'.nodes v = { net.nodes v with task := flatTask (net.nodes v).task }
  air : net'.air = net.air.map flat
  fresh : ∀ v, Fresh routes P v (net.nodes v)
  new : ∀ p ∈ net.air, Between P p.send p.dest ∧ IsNew routes p
  log : net'.log.filter notTransmitted = net.log.filter notTransmitted

/-- Packets that are flattened alike have one destination. -/
theorem dest_of_flat_eq {p q : Protocol.Packet} (h : flat p = flat q) : p.dest = q.dest := by
  have hdest := congrArg Protocol.Packet.dest h
  exact hdest

/-- They have one sender. -/
theorem send_of_flat_eq {p q : Protocol.Packet} (h : flat p = flat q) : p.send = q.send := by
  have hsend := congrArg Protocol.Packet.send h
  exact hsend

/-! ### The nodes -/

section Node

variable {routes : Protocol.Routes} {P : Set UInt8} {v : UInt8} {n : Protocol.Node}

theorem isNew_newPacket (dest : UInt8) (body : Body) (tag : Tag) :
    IsNew routes (newPacket routes v dest body tag) := rfl

/-- What a node transmits itself is new. -/
theorem Fresh.origin (h : Fresh routes P v n) : ∀ p ∈ n.task.packets, p.origin = p.send := by
  intro p hp
  have hnew := h.own p hp
  rw [hnew]
  rfl

/-- A listener polls when it does so flattened. -/
theorem flatTask_eq_polling {task : Protocol.Task} (h : flatTask task = .polling) :
    task = .polling := by
  cases task with
  | polling => rfl
  | queueing => exact h
  | sending => cases h

/-- An action keeps a node fresh, and transmits new packets. -/
theorem Fresh.act (h : Fresh routes P v n) {i : Action} {r : Protocol.Node.Result}
    (hamong : Among P (.act v i)) (hacts : Protocol.Node.Acts routes v n i r) :
    Fresh routes P v r.1 ∧ ∀ p ∈ r.2.1, Between P p.send p.dest ∧ IsNew routes p := by
  obtain ⟨htalks, hbetween⟩ := h.toTalks.act hamong hacts
  have hidle : n.task ≠ .polling → v ∉ P → r.1.task = .polling :=
    fun htask hv => absurd (h.idle hv) htask
  cases hacts with
  | called =>
      refine ⟨⟨htalks, h.own, h.idle⟩, fun p hp => ⟨hbetween p hp, ?_⟩⟩
      obtain rfl := List.mem_singleton.mp hp
      exact isNew_newPacket ..
  | resent =>
      refine ⟨⟨htalks, h.own, h.idle⟩, fun p hp => ⟨hbetween p hp, ?_⟩⟩
      obtain rfl := List.mem_singleton.mp hp
      exact isNew_newPacket ..
  | returned => exact ⟨⟨htalks, h.own, h.idle⟩, nofun⟩
  | timedOut => exact ⟨⟨htalks, h.own, h.idle⟩, nofun⟩
  | ignored => exact ⟨⟨htalks, h.own, h.idle⟩, nofun⟩
  | taken => exact ⟨⟨htalks, h.own, h.idle⟩, nofun⟩
  | synced => exact ⟨⟨htalks, h.own, h.idle⟩, nofun⟩
  | queued => exact ⟨⟨htalks, nofun, fun _ => rfl⟩, nofun⟩
  | put htask =>
      refine ⟨⟨htalks, fun p hp => ?_, hidle (htask ▸ nofun)⟩, nofun⟩
      obtain rfl := List.mem_singleton.mp hp
      exact isNew_newPacket ..
  | refused htask =>
      refine ⟨⟨htalks, fun p hp => ?_, hidle (htask ▸ nofun)⟩, nofun⟩
      rcases List.mem_cons.mp hp with rfl | hp
      · exact isNew_newPacket ..
      · obtain rfl := List.mem_singleton.mp hp
        exact isNew_newPacket ..
  | @transmitted p rest htask =>
      have hown := h.own
      rw [htask] at hown
      refine ⟨⟨htalks, fun q hq => ?_, hidle (htask ▸ nofun)⟩, fun q hq => ⟨hbetween q hq, ?_⟩⟩
      · rw [Protocol.Task.packets_owing] at hq
        exact hown q (List.mem_cons_of_mem p hq)
      · obtain rfl := List.mem_singleton.mp hq
        exact hown q List.mem_cons_self

/-- So does hearing a packet for the node. -/
theorem Fresh.hears (h : Fresh routes P v n) {p : Protocol.Packet} {n' : Protocol.Node}
    (hp : Between P p.send p.dest) (hdest : p.dest = v)
    (hhears : Protocol.Node.Hears routes v n p n') : Fresh routes P v n' := by
  have htalks := h.toTalks.hears hp hhears
  have hv : v ∈ P := hdest ▸ hp.2.1
  refine ⟨htalks, ?_, fun hnot => absurd hv hnot⟩
  cases hhears with
  | ignored => exact h.own
  | relayed hne => exact absurd hdest hne
  | answer => exact nofun
  | accepted => exact nofun
  | rejected =>
      intro q hq
      obtain rfl := List.mem_singleton.mp hq
      exact isNew_newPacket ..

end Node

/-! ### The relays -/

section Carry

variable {routes : Protocol.Routes} {net : Protocol.Net} {k : ℕ} {p : Protocol.Packet}

/-- **A relay takes a packet along** and polls again. -/
theorem relay_run (routes : Protocol.Routes) {x : UInt8} (hp : net.air[k]? = some p)
    (hnext : p.next = x) (hdest : p.dest ≠ x) (horigin : x ≠ p.origin)
    (hx : x.toNat < routes.netSize) (hd : p.dest.toNat < routes.netSize) (httl : p.ttl ≠ 0)
    (htask : (net.nodes x).task = .polling) :
    Lts.run (Network.step (Protocol.machine routes)) net [.hear x k .zero, .act x .transmit] =
      some ⟨net.nodes, net.air.eraseIdx k ++ [relayed routes x p],
        (relayed routes x p).event :: net.log⟩ := by
  have hhear : Protocol.Node.hear routes x (net.nodes x) p =
      some ({ net.nodes x with task := .sending [relayed routes x p] }, []) := by
    simp only [Protocol.Node.hear, htask, Protocol.Node.listen, if_pos hnext, if_neg hdest,
      if_pos (And.intro hd httl)]
  have hconsumes : (Protocol.machine routes).consumes x p = true := beq_iff_eq.mpr hnext
  have hheard : Network.step (Protocol.machine routes) net (.hear x k .zero) =
      some ⟨Function.update net.nodes x { net.nodes x with task := .sending [relayed routes x p] },
        net.air.eraseIdx k, net.log⟩ :=
    Network.step_hear.mpr ⟨p, _, hp, Protocol.machine_audible.mpr ⟨hx, horigin⟩, hhear, by
      rw [if_pos hconsumes]
      rfl⟩
  have htransmit : Protocol.Node.act routes x
      { net.nodes x with task := .sending [relayed routes x p] } .transmit =
        some (net.nodes x, [relayed routes x p], [(relayed routes x p).event]) := by
    have hnode : { net.nodes x with task := Protocol.Task.polling } = net.nodes x := by
      rw [← htask]
    exact congrArg (fun n => some (n, _, _)) hnode
  refine Lts.run_cons_eq_some.mpr ⟨_, hheard, Lts.run_cons_eq_some.mpr ⟨_, ?_, rfl⟩⟩
  refine Network.step_act.mpr ⟨(net.nodes x, [relayed routes x p],
    [(relayed routes x p).event]), Protocol.machine_act.mpr ⟨hx, ?_⟩, ?_⟩
  · dsimp only
    rw [Function.update_self]
    exact htransmit
  · dsimp only
    rw [Function.update_idem, Function.update_eq_self]
    rfl

/-- The relays take the packet to the last hop, and nothing else changes. -/
def Carried (routes : Protocol.Routes) (P : Set UInt8) (net : Protocol.Net) (k : ℕ)
    (p : Protocol.Packet) : Prop :=
  ∃ ls k' p' air log, (∀ l ∈ ls, Step.Clean l ∧ Among P l) ∧
    Lts.run (Network.step (Protocol.machine routes)) net ls = some ⟨net.nodes, air, log⟩ ∧
    air[k']? = some p' ∧ air.eraseIdx k' = net.air.eraseIdx k ∧ flat p' = flat p ∧
    p'.next = p.dest ∧ p.dest ≠ p'.origin ∧
    log.filter notTransmitted = net.log.filter notTransmitted

variable {cfg : Config} {P : Set UInt8} {s d : UInt8}

/-- The sender of a message that arrives is a device of the network. -/
theorem sender_lt {h : ℕ} (hfirst : FirstArrival cfg s d h) : s.toNat < cfg.netSize := by
  obtain ⟨y, hy⟩ := MultiHop.exists_hop_of_le hfirst.1 hfirst.2.2.1
  obtain ⟨a, ha, hnet, -⟩ := hop_succ_eq_some.mp hy
  obtain rfl : s = a := Option.some.inj ha
  exact hnet

/-- A packet after `i` hops. -/
structure Leg (cfg : Config) (s d : UInt8) (i : ℕ) (p : Protocol.Packet) : Prop where
  dest : p.dest = d
  ttl : p.ttl.toNat = initTtl.toNat - i
  origin : hop cfg s d i = some p.origin
  next : hop cfg s d (i + 1) = some p.next

/-- A packet as its sender transmits it. -/
theorem leg_zero (hs : p.send.toNat < cfg.netSize) (hnew : IsNew (Refinement.routes cfg) p) :
    Leg cfg p.send p.dest 0 p where
  dest := rfl
  ttl := by
    rw [hnew]
    rfl
  origin := by
    have horigin : p.origin = p.send := by
      rw [hnew]
      rfl
    rw [horigin]
    rfl
  next := by
    refine hop_succ_eq_some.mpr ⟨p.send, rfl, hs, ?_⟩
    have hnext : p.next = UInt8.ofInt (cfg.tables p.send p.dest) := by
      conv_lhs => rw [hnew]
      rfl
    exact hnext.symm

/-- The next leg. -/
theorem Leg.succ {i : ℕ} (hleg : Leg cfg s d i p) (hx : p.next.toNat < cfg.netSize)
    (httl : p.ttl ≠ 0) : Leg cfg s d (i + 1) (relayed (Refinement.routes cfg) p.next p) where
  dest := hleg.dest
  ttl := by
    have hone := Protocol.Node.ttl_relayed (Refinement.routes cfg) p.next httl
    have httl' := hleg.ttl
    omega
  origin := hleg.next
  next := hop_succ_eq_some.mpr ⟨p.next, hleg.next, hx, by
    rw [← hleg.dest]
    rfl⟩

section Leg

variable {h i : ℕ} (hleg : Leg cfg s d i p) (hfirst : FirstArrival cfg s d h)

include hleg hfirst

/-- On the last leg a packet is for the node it is on its way to. -/
theorem Leg.next_eq (hi : i + 1 = h) : p.next = d := by
  obtain ⟨-, -, harrive, -⟩ := hfirst
  exact Option.some.inj (hleg.next.symm.trans (hi ▸ harrive))

/-- No node on the way names itself. -/
theorem Leg.next_ne_origin (hsd : s ≠ d) (hi : i < h) : p.next ≠ p.origin := by
  obtain ⟨-, -, harrive, hbefore⟩ := hfirst
  intro heq
  have hstay := MultiHop.hop_of_self_loop hleg.origin (heq ▸ hleg.next) (h - i)
  rw [Nat.add_sub_cancel' hi.le, harrive] at hstay
  have horigin : hop cfg s d i = some d := hleg.origin.trans hstay.symm
  by_cases hzero : i = 0
  · subst hzero
    exact hsd (Option.some.inj horigin)
  · exact hbefore i (by omega) hi horigin

/-- Before that it is for a relay, and has hops left. -/
theorem Leg.relay (hi : i + 1 < h) : p.next ≠ d ∧ p.next.toNat < cfg.netSize ∧ p.ttl ≠ 0 := by
  obtain ⟨-, hlimit, harrive, hbefore⟩ := hfirst
  refine ⟨fun heq => hbefore (i + 1) (by omega) hi (heq ▸ hleg.next), ?_, fun hzero => ?_⟩
  · obtain ⟨y, hy⟩ := MultiHop.exists_hop_of_le (show i + 1 + 1 ≤ h by omega) harrive
    obtain ⟨x, hx, hnet, -⟩ := hop_succ_eq_some.mp hy
    obtain rfl : p.next = x := Option.some.inj (hleg.next.symm.trans hx)
    exact hnet
  · have hsteps := hleg.ttl
    rw [hzero] at hsteps
    have h4 : initTtl.toNat = 4 := rfl
    have h0 : (0 : UInt8).toNat = 0 := rfl
    omega

end Leg

/-- **The relays take a packet to the last hop**, by induction on the hops that are left. -/
theorem carried {h : ℕ} (hfirst : FirstArrival cfg s d h) (hsd : s ≠ d)
    (hd : d.toNat < cfg.netSize)
    (hrelays : ∀ i x, 1 ≤ i → i < h → hop cfg s d i = some x → x ∉ P) {i : ℕ} (hi : i < h)
    (hleg : Leg cfg s d i p) (hp : net.air[k]? = some p)
    (hidle : ∀ v, v ∉ P → (net.nodes v).task = .polling) :
    Carried (Refinement.routes cfg) P net k p := by
  induction hleft : h - (i + 1) generalizing i net k p with
  | zero =>
      have hnext := hleg.next_eq hfirst (by omega)
      have horigin := hleg.next_ne_origin hfirst hsd hi
      refine ⟨[], k, p, net.air, net.log, nofun, rfl, hp, rfl, rfl, hnext.trans hleg.dest.symm,
        fun heq => horigin ?_, rfl⟩
      rw [hnext, ← heq, hleg.dest]
  | succ left ih =>
      have hlt : i + 1 < h := by omega
      obtain ⟨hne, hxnet, httl⟩ := hleg.relay hfirst hlt
      have horigin := hleg.next_ne_origin hfirst hsd hi
      have hrun := relay_run (Refinement.routes cfg) hp rfl (hleg.dest ▸ hne.symm) horigin hxnet
        (hleg.dest ▸ hd) httl (hidle _ (hrelays (i + 1) _ (by omega) hlt hleg.next))
      have hrest : Carried (Refinement.routes cfg) P ⟨net.nodes,
          net.air.eraseIdx k ++ [relayed (Refinement.routes cfg) p.next p],
          (relayed (Refinement.routes cfg) p.next p).event :: net.log⟩ (net.air.eraseIdx k).length
          (relayed (Refinement.routes cfg) p.next p) :=
        ih hlt (hleg.succ hxnet httl) (List.getElem?_concat_length ..) hidle (by omega)
      obtain ⟨ls, k', p', air, log, hok, hrun', hp', herase, hflat, hnext', horigin', hlog⟩ := hrest
      refine ⟨_ ++ ls, k', p', air, log, ?_, (Lts.run_append hrun ls).trans hrun', hp', ?_, hflat,
        hnext', horigin', hlog⟩
      · exact List.forall_mem_append.mpr ⟨by simp [Step.Clean, Network.Label.Admits,
          Action.Fits, Among], hok⟩
      · rw [herase, List.eraseIdx_append_of_length_le (Nat.le_refl _), Nat.sub_self]
        exact List.append_nil _

end Carry

/-! ### The networks -/

section Follow

variable {routes : Protocol.Routes} {P : Set UInt8} {net net' : Protocol.Net}

/-- The network with relays follows with some steps, or none. -/
def Followed (routes : Protocol.Routes) (P : Set UInt8) (net net₁' : Protocol.Net) : Prop :=
  ∃ ls net₁, (∀ l ∈ ls, Step.Clean l ∧ Among P l) ∧
    Lts.run (Network.step (Protocol.machine routes)) net ls = some net₁ ∧ Alike routes P net₁ net₁'

section Alike

variable (h : Alike routes P net net')

include h

/-- A node changes in both networks. -/
theorem Alike.next {v : UInt8} {n : Protocol.Node} {air : List Protocol.Packet}
    {log log' : List Event} (hfresh : Fresh routes P v n)
    (hnew : ∀ p ∈ air, Between P p.send p.dest ∧ IsNew routes p)
    (hlog : log'.filter notTransmitted = log.filter notTransmitted) :
    Alike routes P ⟨Function.update net.nodes v n, air, log⟩
      ⟨Function.update net'.nodes v { n with task := flatTask n.task }, air.map flat, log'⟩ where
  nodes w := by
    by_cases hw : w = v
    · subst hw
      simp only [Function.update_self]
    · simpa only [Function.update_of_ne hw] using h.nodes w
  air := rfl
  fresh w := by
    by_cases hw : w = v
    · subst hw
      simpa only [Function.update_self] using hfresh
    · simpa only [Function.update_of_ne hw] using h.fresh w
  new := hnew
  log := hlog

/-- A packet of the direct network. -/
theorem Alike.exists_packet {k : ℕ} {p' : Protocol.Packet} (hp' : net'.air[k]? = some p') :
    ∃ p, net.air[k]? = some p ∧ flat p = p' := by
  rw [h.air, List.getElem?_map] at hp'
  exact Option.map_eq_some_iff.mp hp'

/-- An action of the direct network can be followed. -/
theorem Alike.act {v : UInt8} {i : Action} {r' : Protocol.Node.Result}
    (hv : v.toNat < routes.netSize) (hok : Step.Clean (.act v i) ∧ Among P (.act v i))
    (hr' : Protocol.Node.act (direct routes) v (net'.nodes v) i = some r') :
    Followed routes P net
      ⟨Function.update net'.nodes v r'.1, net'.air ++ r'.2.1, r'.2.2 ++ net'.log⟩ := by
  rw [h.nodes v, act_own routes v (h.fresh v).origin i] at hr'
  obtain ⟨r, hr, rfl⟩ := Option.map_eq_some_iff.mp hr'
  obtain ⟨hfresh, hnew⟩ := (h.fresh v).act hok.2 (Protocol.Node.act_cases hr)
  have hstep : Network.step (Protocol.machine routes) net (.act v i) = some
      ⟨Function.update net.nodes v r.1, net.air ++ r.2.1, r.2.2 ++ net.log⟩ :=
    Network.step_act.mpr ⟨r, Protocol.machine_act.mpr ⟨hv, hr⟩, rfl⟩
  refine ⟨[.act v i], _, List.forall_mem_singleton.mpr hok,
    Lts.run_cons_eq_some.mpr ⟨_, hstep, rfl⟩, ?_⟩
  have hlog : (r.2.2 ++ net'.log).filter notTransmitted =
      (r.2.2 ++ net.log).filter notTransmitted := by
    rw [List.filter_append, List.filter_append, h.log]
  have hnext := h.next hfresh (List.forall_mem_append.mpr ⟨h.new, hnew⟩) hlog
  rw [List.map_append, ← h.air] at hnext
  exact hnext

end Alike

/-- A node of the direct network hears a packet, which the relays have taken to it. -/
theorem Alike.hear {cfg : Config} (hrouted : Routed cfg P)
    (h : Alike (Refinement.routes cfg) P net net') {v : UInt8} {k : ℕ} {p' : Protocol.Packet}
    {n' : Protocol.Node} {events : List Event} (hp' : net'.air[k]? = some p')
    (hv : v.toNat < cfg.netSize)
    (hr' : Protocol.Node.hear (direct (Refinement.routes cfg)) v (net'.nodes v) p' =
      some (n', events)) :
    Followed (Refinement.routes cfg) P net ⟨Function.update net'.nodes v n',
      if p'.next = v then net'.air.eraseIdx k else net'.air, events ++ net'.log⟩ := by
  obtain ⟨p, hp, rfl⟩ := h.exists_packet hp'
  obtain ⟨hpolling', hevents, -⟩ := Protocol.Node.hear_cases hr'
  obtain rfl : events = [] := hevents
  by_cases hdest : p.dest = v
  · have hnext : (flat p).next = v := hdest
    rw [if_pos hnext]
    obtain ⟨hbetween, hnew⟩ := h.new p (List.mem_of_getElem? hp)
    obtain ⟨hops, hfirst, hrelays⟩ := hrouted p.send p.dest hbetween
    obtain ⟨ls, k₁, p₁, air, log, hok, hrun, hp₁, herase, hflat, hnext₁, horigin, hlog⟩ :=
      carried hfirst hbetween.2.2 (hdest ▸ hv) hrelays hfirst.1
        (leg_zero (sender_lt hfirst) hnew) hp fun w hw => (h.fresh w).idle hw
    have hdest₁ : p₁.dest = p.dest := dest_of_flat_eq hflat
    have hsend₁ : p₁.send = p.send := send_of_flat_eq hflat
    -- the node is the same in both networks, since it listens
    have hsame : net'.nodes v = net.nodes v := by
      have htask : flatTask (net.nodes v).task = .polling := by
        rw [h.nodes v] at hpolling'
        exact hpolling'
      rw [h.nodes v, htask, ← flatTask_eq_polling htask]
    have hheard := hear_flat (Refinement.routes cfg) (n := net.nodes v)
      (hnext₁.trans hdest) (hdest₁.trans hdest)
    rw [hflat, ← hsame, hr', hsame] at hheard
    obtain ⟨r, hr, heq⟩ := Option.map_eq_some_iff.mp hheard.symm
    obtain ⟨rfl, hnone⟩ := Prod.mk.inj heq
    have hconsumes : (Protocol.machine (Refinement.routes cfg)).consumes v p₁ = true :=
      beq_iff_eq.mpr (hnext₁.trans hdest)
    have hstep : Network.step (Protocol.machine (Refinement.routes cfg)) ⟨net.nodes, air, log⟩
        (.hear v k₁ .zero) =
          some ⟨Function.update net.nodes v r.1, net.air.eraseIdx k, log⟩ := by
      refine Network.step_hear.mpr ⟨p₁, r, hp₁,
        Protocol.machine_audible.mpr ⟨hv, hdest ▸ horigin⟩, hr, ?_⟩
      rw [if_pos hconsumes, hnone, herase]
      rfl
    refine ⟨ls ++ [.hear v k₁ .zero], _, ?_, (Lts.run_append hrun _).trans
      (Lts.run_cons_eq_some.mpr ⟨_, hstep, rfl⟩), ?_⟩
    · exact List.forall_mem_append.mpr ⟨hok, List.forall_mem_singleton.mpr ⟨trivial, trivial⟩⟩
    · have hfresh := (h.fresh v).hears (by rw [hsend₁, hdest₁]; exact hbetween)
        (hdest₁.trans hdest) (Protocol.Node.hear_cases hr).2.2
      have hrest := h.next hfresh
        (fun q (hq : q ∈ net.air.eraseIdx k) => h.new q (List.mem_of_mem_eraseIdx hq))
        (h.log.trans hlog.symm)
      rw [← List.eraseIdx_map, ← h.air] at hrest
      exact hrest
  · have hnext : (flat p).next ≠ v := hdest
    obtain rfl : n' = net'.nodes v := Protocol.Node.hear_of_next_ne hr' hnext
    rw [if_neg hnext, Function.update_eq_self]
    exact ⟨[], net, nofun, rfl, h⟩

/-- **A step of the direct network** is some steps of the network with relays, or none. -/
theorem weak_step {cfg : Config} (hrouted : Routed cfg P)
    (h : Alike (Refinement.routes cfg) P net net') {l : Step} {net₁' : Protocol.Net}
    (hok : l.Clean ∧ Among P l)
    (hstep : Network.step (Protocol.machine (direct (Refinement.routes cfg))) net' l =
      some net₁') : Followed (Refinement.routes cfg) P net net₁' := by
  cases l with
  | act v i =>
      obtain ⟨r', hact, rfl⟩ := Network.step_act.mp hstep
      obtain ⟨hv, hr'⟩ := Protocol.machine_act.mp hact
      exact h.act hv hok hr'
  | hear v k g =>
      obtain ⟨p', ⟨n', events⟩, hp', haud, hr', rfl⟩ := Network.step_hear.mp hstep
      obtain ⟨hv, -⟩ := Protocol.machine_audible.mp haud
      simpa only [Protocol.machine, beq_iff_eq] using h.hear hrouted hp' hv hr'
  | lose k =>
      simp only [Network.step, Option.ite_none_right_eq_some, Option.some.injEq] at hstep
      obtain ⟨hk, rfl⟩ := hstep
      rw [h.air, List.length_map] at hk
      refine ⟨[.lose k], _, List.forall_mem_singleton.mpr hok,
        Lts.run_cons_eq_some.mpr ⟨_, if_pos hk, rfl⟩, h.nodes, ?_, h.fresh,
        fun q hq => h.new q (List.mem_of_mem_eraseIdx hq), h.log⟩
      dsimp only
      rw [h.air, List.eraseIdx_map]
  | duplicate k =>
      simp only [Network.step, Option.map_eq_some_iff] at hstep
      obtain ⟨p', hp', rfl⟩ := hstep
      obtain ⟨p, hp, rfl⟩ := h.exists_packet hp'
      have hdup : Network.step (Protocol.machine (Refinement.routes cfg)) net (.duplicate k) =
          some { net with air := p :: net.air } := by
        rw [Network.step, hp, Option.map_some]
      refine ⟨[.duplicate k], _, List.forall_mem_singleton.mpr hok,
        Lts.run_cons_eq_some.mpr ⟨_, hdup, rfl⟩, h.nodes, ?_, h.fresh,
        List.forall_mem_cons.mpr ⟨h.new p (List.mem_of_getElem? hp), h.new⟩, h.log⟩
      dsimp only
      rw [h.air, List.map_cons]
  | alter k c => exact hok.1.elim

end Follow

/-- The two networks are alike when they have booted. -/
theorem alike_booted (routes : Protocol.Routes) (P : Set UInt8) (recvToken : UInt8 → UInt8 → ℕ) :
    Alike routes P (Protocol.booted recvToken) (Protocol.booted recvToken) where
  nodes _ := rfl
  air := rfl
  fresh _ := ⟨⟨nofun, nofun, nofun⟩, nofun, fun _ => rfl⟩
  new := nofun
  log := rfl

/-! ### The code -/

/-- **Relays are transparent.** Where the tables lead from each node in `P` to each other one
within the hop limit and over nodes not in `P`, and only nodes in `P` call, and only other ones, the
network with relays and the direct network show the same, whatever the timing is and whatever is
lost or comes twice. -/
theorem relays_transparent (cfg : Config) {P : Set UInt8} (hrouted : Routed cfg P)
    (rnd : UInt8 → UInt8 → Fin tokenMax.toNat) (encBuf : UInt8 → Mem UInt8) (log : List Event) :
    Shows cfg P rnd encBuf log ↔
      Shows (.direct cfg.netSize cfg.aes cfg.crc) P rnd encBuf log := by
  constructor
  · rintro ⟨ls, net, hok, hrun, rfl⟩
    obtain ⟨pnet, hprun, hprel⟩ :=
      Refinement.exists_protocol_run cfg (fun l hl => (hok l hl).1) hrun
    obtain ⟨ls', pnet', hok', hprun', held, hrel⟩ := matched_run hok hprun
    obtain ⟨net', hrun', hlog⟩ := Refinement.exists_code_run (.direct cfg.netSize cfg.aes cfg.crc)
      rnd encBuf pnet'.log (fun l hl => (hok' l hl).1)
      (by rw [routes_direct, hprun', Option.map_some])
    refine ⟨ls', net', hok', hrun', ?_⟩
    rw [hlog, hprel.log]
    exact hrel.log
  · rintro ⟨ls', net', hok', hrun', rfl⟩
    obtain ⟨pnet', hprun', hprel'⟩ := Refinement.exists_protocol_run
      (.direct cfg.netSize cfg.aes cfg.crc) (fun l hl => (hok' l hl).1) hrun'
    have hsim : Followed (Refinement.routes cfg) P (Protocol.booted fun v a => rnd v a) pnet' :=
      Lts.run_weak_sim (R := fun net' net => Alike (Refinement.routes cfg) P net net')
        (fun _ _ _ _ halike hok hstep => weak_step hrouted halike hok hstep)
        (alike_booted _ P fun v a => rnd v a) hok' hprun'
    obtain ⟨ls, pnet, hok, hprun, halike⟩ := hsim
    obtain ⟨net, hrun, hlog⟩ := Refinement.exists_code_run cfg rnd encBuf pnet.log
      (fun l hl => (hok l hl).1) (by rw [hprun, Option.map_some])
    refine ⟨ls, net, hok, hrun, ?_⟩
    rw [hlog, hprel'.log]
    exact halike.log.symm

/-- The tables for three devices lead from the first to the third one over the second one. -/
theorem routed_threeDevices : Routed threeDevices {0, 2} := by
  rintro s d ⟨hs, hd, hsd⟩
  simp only [Set.mem_insert_iff, Set.mem_singleton_iff] at hs hd
  -- the only hop between is to the second device
  have hline : ∀ {s d : UInt8}, hop threeDevices s d 1 = some 1 →
      hop threeDevices s d 2 = some d → d ≠ 1 → ∃ h, FirstArrival threeDevices s d h ∧
        ∀ i x, 1 ≤ i → i < h → hop threeDevices s d i = some x → x ∉ ({0, 2} : Set UInt8) := by
    intro s d h₁ h₂ hne
    refine ⟨2, ⟨by decide, by decide, h₂, fun i hle hlt heq => ?_⟩, fun i x hle hlt hx => ?_⟩
    · obtain rfl : i = 1 := by omega
      exact hne (Option.some.inj (heq.symm.trans h₁))
    · obtain rfl : i = 1 := by omega
      obtain rfl : x = 1 := Option.some.inj (hx.symm.trans h₁)
      simp
  rcases hs with rfl | rfl
  · rcases hd with rfl | rfl
    · exact absurd rfl hsd
    · exact hline (by decide) (by decide) (by decide)
  · rcases hd with rfl | rfl
    · exact hline (by decide) (by decide) (by decide)
    · exact absurd rfl hsd

/-- Three devices show an exchange over the relay exactly when two would. -/
theorem relays_transparent_threeDevices :
    (Shows threeDevices {0, 2} (fun _ _ => ⟨0, by decide⟩) (fun _ => null)
        [.taken 2 0 [7], .put 2 0 [7] (0, 0), .called (0, 0) 2 [7]] ↔
      Shows (.direct 3 (Equiv.refl Block) Crc8.crc8) {0, 2} (fun _ _ => ⟨0, by decide⟩)
        (fun _ => null) [.taken 2 0 [7], .put 2 0 [7] (0, 0), .called (0, 0) 2 [7]]) ∧
      Shows threeDevices {0, 2} (fun _ _ => ⟨0, by decide⟩) (fun _ => null)
        [.taken 2 0 [7], .put 2 0 [7] (0, 0), .called (0, 0) 2 [7]] := by
  obtain ⟨net, hrun, hlog⟩ := exists_overTheRelay
  exact ⟨relays_transparent threeDevices routed_threeDevices _ _ _,
    overTheRelay, net, overTheRelay_ok, hrun, by rw [hlog]; rfl⟩

end Transparency

end LCore
