import LCore.Recovery
import LCore.Storm

/-!
# The Network Comes to Rest

How much there is to do for the nodes of a network, counted in steps: packets heard, transmitted,
put into queues and taken out of them, answers polled, messages sent again, calls that return. A
packet that a node hears without being named in it stays on the air and leaves nothing to do; such
a step is not counted. A frame is worth the steps it may still cause, and only a call makes a frame
out of nothing. So the work of a run is linear in its calls, whatever the tables are, and a network
in which nobody calls comes to rest: after a bounded number of steps no listener has anything to do,
no call waits, and no message is left in a queue.

## Main results

* `work_act`, `work_hear`: each step takes a unit of the work that is left.
* `work_le`: the steps of a run.
* `comes_to_rest`: without calls the steps of every run are bounded, and it goes on until all is at
  rest.
-/

open Memory

namespace LCore

namespace Quiescence

open Network
open Protocol (Body newPacket relayed)

/-- A call of `send_with_ack`. -/
def isCall : Step → Bool
  | .act _ (.call _ _ _) => true
  | _ => false

/-- The medium makes a second packet of one. -/
def isDuplicate : Step → Bool
  | .duplicate _ => true
  | _ => false

/-- A step of the nodes, but not a new call. -/
def Own : Step → Prop
  | .act _ (.call _ _ _) => False
  | .act _ _ | .hear _ _ _ => True
  | _ => False

/-- No listener has anything to do, no call waits, no message is left in a queue, and nobody who can
hear a packet on the air is named in it. -/
def AtRest (cfg : Config) (net : LoraNet) : Prop :=
  (∀ v, v.toNat < cfg.netSize → (net.nodes v).task = .polling ∧ (net.nodes v).app = none ∧
    (net.nodes v).newFrameQueue = []) ∧
  ∀ p ∈ net.air, ∀ v, (machine cfg).audible v p = true → (machine cfg).consumes v p = false

/-! ### The work -/

/-- The steps an answer causes that has `t` hops left: at each hop it is heard and transmitted, and
at the last one heard, put into a queue and polled. -/
def answerWork (t : ℕ) : ℕ := 2 * t + 3

/-- The steps a message causes: it has two answers if it is refused. -/
def messageWork (t : ℕ) : ℕ := 2 * t + 2 * (1 + answerWork initTtl.toNat) + 2

/-- The steps a frame causes that has `t` hops left. -/
def bodyWork (t : ℕ) : Body → ℕ
  | .data _ _ => messageWork t
  | _ => answerWork t

/-- The steps a packet on the air causes. -/
def packetWork (p : Protocol.Packet) : ℕ := bodyWork p.ttl.toNat p.body

/-- The steps a listener has to take. -/
def taskWork : Protocol.Task → ℕ
  | .polling => 0
  | .queueing (.response _ _) _ => 2
  | .queueing (.message _ _) _ => 1 + 2 * (1 + answerWork initTtl.toNat)
  | .sending packets => ledger (fun p => 1 + packetWork p) packets

/-- The transmission of a new message and the steps it causes. -/
def fullWork : ℕ := 1 + messageWork initTtl.toNat

/-- The steps of a call that waits: it returns, and may send its message again. -/
def callWork : Option Protocol.Call → ℕ
  | some c => if c.allowResend = true then fullWork else 1
  | none => 0

/-- The steps of a node. -/
def nodeWork (n : Protocol.Node) : ℕ :=
  taskWork n.task + n.responseQueue.length + n.newFrameQueue.length + callWork n.app

/-- What a step brings: a call has its own message and another one to send, a packet that comes
twice is one more. -/
def work : Step → ℕ
  | .act _ (.call _ _ _) => 2 * fullWork
  | .duplicate _ => fullWork
  | _ => 0

/-! ### The nodes -/

section Node

variable {routes : Protocol.Routes} {v : UInt8} {n : Protocol.Node}

/-- A packet means at least three steps of work. -/
theorem three_le_packetWork (p : Protocol.Packet) : 3 ≤ packetWork p := by
  unfold packetWork
  cases p.body with
  | data token m =>
      rw [bodyWork, messageWork]
      omega
  | _ => exact Nat.le_add_left 3 _

/-- What a frame is worth when it is new. -/
theorem packetWork_newPacket (routes : Protocol.Routes) (v dest : UInt8) (body : Body) (tag : Tag) :
    packetWork (newPacket routes v dest body tag) = bodyWork initTtl.toNat body := rfl

/-- Relaying a packet costs two of them. -/
theorem packetWork_relayed (routes : Protocol.Routes) (v : UInt8) {p : Protocol.Packet}
    (httl : p.ttl ≠ 0) :
    packetWork (relayed routes v p) + 2 = packetWork p := by
  have hone := Protocol.Node.ttl_relayed routes v httl
  have hbody : (relayed routes v p).body = p.body := rfl
  rw [packetWork, packetWork, hbody]
  cases p.body with
  | data token m =>
      simp only [bodyWork, messageWork]
      omega
  | _ =>
      simp only [bodyWork, answerWork]
      omega

/-- A call that waits means some work. -/
theorem one_le_callWork (c : Protocol.Call) : 1 ≤ callWork (some c) := by
  rw [callWork, fullWork]
  split <;> omega

/-- What is still to be sent means the work of its packets. -/
theorem taskWork_owing (packets : List Protocol.Packet) :
    taskWork (Protocol.Task.owing packets) = ledger (fun p => 1 + packetWork p) packets := by
  cases packets with
  | nil => rfl
  | cons p packets => rfl

/-- A queue grows by at most one. -/
theorem length_xQueueSend_le {α : Type*} (queue : List α) (item : α) :
    (xQueueSend queue item).2.length ≤ queue.length + 1 := by
  rw [xQueueSend]
  split
  · rw [List.length_append, List.length_singleton]
  · exact Nat.le_succ _

/-- **Every action takes a unit of the work.** -/
theorem work_act {i : Action} {r : Protocol.Node.Result}
    (hacts : Protocol.Node.Acts routes v n i r) :
    nodeWork r.1 + ledger packetWork r.2.1 + 1 ≤ nodeWork n + work (.act v i) := by
  unfold nodeWork
  cases hacts with
  | @called dest m encrypted token happ =>
      have hnew := packetWork_newPacket routes v dest (.data token m) (v, n.calls)
      simp only [bodyWork] at hnew
      simp only [happ, callWork, work, fullWork, ledger_cons, ledger_nil, if_true, hnew]
      omega
  | returned result happ hqueue =>
      simp only [hqueue, List.length_cons, callWork, ledger_nil]
      omega
  | ignored happ hqueue =>
      simp only [hqueue, List.length_cons, ledger_nil]
      omega
  | synced happ hallow hqueue =>
      simp only [happ, hqueue, hallow, List.length_cons, callWork, ledger_nil]
      omega
  | @resent c body token tag rest sendToken happ hallow hqueue =>
      have hnew := packetWork_newPacket routes v c.dest (.data token c.m) c.tag
      simp only [bodyWork] at hnew
      simp only [Protocol.Node.resend, happ, hqueue, hallow, List.length_cons, callWork, fullWork,
        ledger_cons, ledger_nil, Bool.false_eq_true, if_false, if_true, hnew]
      omega
  | @timedOut c happ =>
      have hpos := one_le_callWork c
      have hnone : callWork none = 0 := rfl
      simp only [happ, hnone, ledger_nil]
      omega
  | taken hqueue =>
      simp only [hqueue, List.length_cons, ledger_nil]
      omega
  | @queued send body tag htask =>
      have hlength := length_xQueueSend_le n.responseQueue (send, body, tag)
      simp only [htask, taskWork, ledger_nil]
      omega
  | @put send m tag htask =>
      have hack := packetWork_newPacket routes v send .ack tag
      simp only [bodyWork] at hack
      simp only [htask, taskWork, ledger_cons, ledger_nil, List.length_append,
        List.length_singleton, hack]
      omega
  | @refused send m tag htask =>
      have hack := packetWork_newPacket routes v send .ack tag
      have herror := packetWork_newPacket routes v send .error tag
      simp only [bodyWork] at hack herror
      simp only [htask, taskWork, ledger_cons, ledger_nil, hack, herror]
      omega
  | transmitted htask =>
      rw [taskWork_owing, htask, taskWork, ledger_cons, ledger_cons, ledger_nil]
      dsimp only
      omega

/-- **So does hearing a packet** that is then gone. -/
theorem work_hear {p : Protocol.Packet} {r : Protocol.Node × List Event}
    (hr : Protocol.Node.hear routes v n p = some r) :
    nodeWork r.1 + 1 ≤ nodeWork n + packetWork p := by
  obtain ⟨htask, -, hhears⟩ := Protocol.Node.hear_cases hr
  have hrelayed := Protocol.Node.ttl_ne_zero_of_relayed hr
  have hthree := three_le_packetWork p
  unfold nodeWork
  generalize r.1 = n' at hhears hrelayed ⊢
  cases hhears with
  | ignored => omega
  | relayed hdest =>
      have hone := packetWork_relayed routes v (hrelayed hdest Protocol.Task.noConfusion)
      simp only [htask, taskWork, ledger_cons, ledger_nil]
      omega
  | answer hdest hbody =>
      simp only [htask, taskWork]
      omega
  | accepted hdest hbody =>
      simp only [htask, taskWork, packetWork, hbody, bodyWork, messageWork]
      omega
  | @rejected token m hdest hbody =>
      have hsync := packetWork_newPacket routes v p.send
        (.sync ((n.recvToken p.send + 1) % tokenMax.toNat)) p.tag
      simp only [bodyWork] at hsync
      simp only [htask, taskWork, ledger_cons, ledger_nil, hsync]
      simp only [packetWork, hbody, bodyWork, messageWork]
      omega

/-- **Overhearing** a packet that names another node leaves nothing to do. -/
theorem work_overhear {p : Protocol.Packet} {r : Protocol.Node × List Event}
    (hr : Protocol.Node.hear routes v n p = some r)
    (hgone : (Protocol.machine routes).consumes v p = false) : nodeWork r.1 ≤ nodeWork n := by
  have hnext : p.next ≠ v := beq_eq_false_iff_ne.mp hgone
  rw [Protocol.Node.hear_of_next_ne hr hnext]

end Node

/-! ### The protocol -/

section Network

variable {routes : Protocol.Routes} {net net' : Protocol.Net}

/-- A packet has no more hops left than it started with. -/
def HopsLeft (p : Protocol.Packet) : Prop := p.ttl.toNat ≤ initTtl.toNat

/-- A listener that transmits has packets to transmit, with no more hops than they started with. -/
def Transmits (task : Protocol.Task) : Prop :=
  (∀ p ∈ task.packets, HopsLeft p) ∧ task ≠ .sending []

/-- What holds of all packets and listeners. -/
abbrev Sound (net : Protocol.Net) : Prop :=
  LocalInv (fun _ => HopsLeft) (fun _ _ n => Transmits n.task) (fun _ => True) net

/-- A new packet has all its hops left. -/
theorem hopsLeft_newPacket (v dest : UInt8) (body : Body) (tag : Tag) :
    HopsLeft (newPacket routes v dest body tag) := Nat.le_refl _

/-- What a listener owes has hops left when its packets have. -/
theorem transmits_owing {packets : List Protocol.Packet} (h : ∀ p ∈ packets, HopsLeft p) :
    Transmits (Protocol.Task.owing packets) := by
  refine ⟨fun p hp => h p (by rwa [Protocol.Task.packets_owing] at hp), ?_⟩
  cases packets with
  | nil => exact nofun
  | cons p packets => exact nofun

/-- What an action transmits has hops left. -/
theorem transmits_act {v : UInt8} {n : Protocol.Node} {i : Action} {r : Protocol.Node.Result}
    (hn : Transmits n.task) (hacts : Protocol.Node.Acts routes v n i r) :
    Transmits r.1.task ∧ ∀ p ∈ r.2.1, HopsLeft p := by
  cases hacts with
  | called =>
      refine ⟨hn, List.forall_mem_singleton.mpr (hopsLeft_newPacket ..)⟩
  | resent =>
      refine ⟨hn, List.forall_mem_singleton.mpr (hopsLeft_newPacket ..)⟩
  | queued => exact ⟨⟨nofun, nofun⟩, nofun⟩
  | put =>
      exact ⟨⟨List.forall_mem_singleton.mpr (hopsLeft_newPacket ..), nofun⟩, nofun⟩
  | refused =>
      exact ⟨⟨List.forall_mem_cons.mpr ⟨hopsLeft_newPacket ..,
        List.forall_mem_singleton.mpr (hopsLeft_newPacket ..)⟩, nofun⟩, nofun⟩
  | transmitted htask =>
      rw [htask] at hn
      obtain ⟨hp, hrest⟩ := List.forall_mem_cons.mp hn.1
      exact ⟨transmits_owing hrest, List.forall_mem_singleton.mpr hp⟩
  | _ => exact ⟨hn, nofun⟩

/-- What a listener owes after hearing a packet has hops left. -/
theorem transmits_hear {v : UInt8} {n : Protocol.Node} {p : Protocol.Packet}
    {r : Protocol.Node × List Event} (hn : Transmits n.task) (hp : HopsLeft p)
    (hr : Protocol.Node.hear routes v n p = some r) : Transmits r.1.task := by
  obtain ⟨-, -, hhears⟩ := Protocol.Node.hear_cases hr
  have hrelayed := Protocol.Node.ttl_ne_zero_of_relayed hr
  generalize r.1 = n' at hhears hrelayed ⊢
  cases hhears with
  | ignored => exact hn
  | relayed hdest =>
      have hone := Protocol.Node.ttl_relayed routes v (hrelayed hdest nofun)
      refine ⟨List.forall_mem_singleton.mpr ?_, nofun⟩
      unfold HopsLeft at hp ⊢
      omega
  | answer => exact ⟨nofun, nofun⟩
  | accepted => exact ⟨nofun, nofun⟩
  | rejected => exact ⟨List.forall_mem_singleton.mpr (hopsLeft_newPacket ..), nofun⟩

/-- Every step keeps the network sound. -/
theorem sound_step {l : Step} (hsound : Sound net) (hl : l.Faithful)
    (hstep : Network.step (Protocol.machine routes) net l = some net') : Sound net' := by
  refine LocalInv.step (fun _ _ _ h => h) (fun _ _ _ _ h => h) ?_ ?_ hsound hl hstep
  · intro log v n i r hn _ hr
    have hacts := Protocol.Node.act_cases (Protocol.machine_act.mp hr).2
    obtain ⟨hnode, hnew⟩ := transmits_act hn hacts
    exact ⟨hnode, hnew, trivial⟩
  · intro log v n p g r hn hp _ _ hr
    exact ⟨transmits_hear hn hp hr, trivial⟩

/-- A network that has booted is sound. -/
theorem sound_booted (recvToken : UInt8 → UInt8 → ℕ) : Sound (Protocol.booted recvToken) :=
  ⟨nofun, fun _ => ⟨nofun, nofun⟩, trivial⟩

/-- A packet that comes twice is not worth more than a new message. -/
theorem packetWork_lt {p : Protocol.Packet} (hp : HopsLeft p) : packetWork p + 1 ≤ fullWork := by
  unfold HopsLeft at hp
  rw [packetWork, fullWork]
  cases p.body with
  | data token m =>
      simp only [bodyWork, messageWork]
      omega
  | _ =>
      simp only [bodyWork, messageWork, answerWork]
      omega

/-- **Every step takes a unit of the work**, but for what it brings; a packet that is merely
overheard takes and brings nothing. -/
theorem work_step {l : Step} (hsound : Sound net) (hl : l.Faithful)
    (hstep : Network.step (Protocol.machine routes) net l = some net') :
    held (fun _ => nodeWork) packetWork net' +
        (if l.Busy (Protocol.machine routes) net then 1 else 0) ≤
      held (fun _ => nodeWork) packetWork net + work l :=
  held_step (P := HopsLeft) (fun p => (three_le_packetWork p).trans' (by omega))
    (fun _ _ _ _ hr => work_act (Protocol.Node.act_cases (Protocol.machine_act.mp hr).2))
    (fun _ _ _ _ _ hr _ => work_hear hr) (fun _ _ _ _ _ hr hgone => work_overhear hr hgone)
    (fun _ _ hp => packetWork_lt hp) hsound.air hl hstep

/-- The steps of a run are bounded by the work at its start and what it brings. -/
theorem busySteps_le {ls : List Step} (hsound : Sound net) (hl : ∀ l ∈ ls, l.Faithful)
    (hrun : Lts.run (Network.step (Protocol.machine routes)) net ls = some net') :
    busySteps (Protocol.machine routes) net ls ≤
      held (fun _ => nodeWork) packetWork net + ledger work ls := by
  have hle := count_le_ledger (held (fun _ => nodeWork) packetWork) work
    (fun _ _ _ hinv (hl : Label.Faithful _) hstep => sound_step hinv hl hstep)
    (fun _ _ _ hinv hl hstep => work_step hinv hl hstep) hsound (Lts.along_of_forall_mem hl) hrun
  exact (Nat.le_add_left _ _).trans hle

/-- What a run brings. -/
theorem ledger_work (ls : List Step) :
    ledger work ls = fullWork * (2 * ls.countP isCall + ls.countP isDuplicate) := by
  induction ls with
  | nil => rfl
  | cons l ls ih =>
      have hone : work l = fullWork * (2 * (if isCall l = true then 1 else 0) +
          if isDuplicate l = true then 1 else 0) := by
        cases l with
        | act v i => cases i <;> simp [work, isCall, isDuplicate, Nat.mul_comm]
        | _ => simp [work, isCall, isDuplicate]
      rw [ledger_cons, ih, hone, List.countP_cons, List.countP_cons]
      ring

/-- There is no work in a network that has booted. -/
theorem held_booted (recvToken : UInt8 → UInt8 → ℕ) :
    held (fun _ => nodeWork) packetWork (Protocol.booted recvToken) = 0 := by
  simp [held, Protocol.booted, Protocol.Node.boot, nodeWork, taskWork, callWork]

/-- Nothing is left to do in a network of the protocol. -/
def Idle (routes : Protocol.Routes) (net : Protocol.Net) : Prop :=
  (∀ v, v.toNat < routes.netSize → (net.nodes v).task = .polling ∧ (net.nodes v).app = none ∧
    (net.nodes v).newFrameQueue = []) ∧
  ∀ p ∈ net.air, ∀ v, (Protocol.machine routes).audible v p = true →
    (Protocol.machine routes).consumes v p = false

/-- Some node can do something. -/
def GoesOn (routes : Protocol.Routes) (net : Protocol.Net) : Prop :=
  ∃ l : Step, Own l ∧ l.Busy (Protocol.machine routes) net ∧
    Network.step (Protocol.machine routes) net l ≠ none

/-- An action a node can take. -/
theorem goesOn_of_act {v : UInt8} {i : Action} (hv : v.toNat < routes.netSize)
    (hown : Own (.act v i)) (hact : Protocol.Node.act routes v (net.nodes v) i ≠ none) :
    GoesOn routes net := by
  obtain ⟨r, hr⟩ := Option.ne_none_iff_exists'.mp hact
  refine ⟨.act v i, hown, trivial, step_act_ne_none ?_⟩
  rw [Protocol.machine_act.mpr ⟨hv, hr⟩]
  exact nofun

/-- **A network goes on until nothing is left to do.** -/
theorem idle_or_goesOn (hsound : Sound net) : Idle routes net ∨ GoesOn routes net := by
  refine or_iff_not_imp_right.mpr fun hstuck => ?_
  have hpolling : ∀ v, v.toNat < routes.netSize → (net.nodes v).task = .polling := by
    intro v hv
    cases htask : (net.nodes v).task with
    | polling => rfl
    | queueing entry tag =>
        refine absurd (goesOn_of_act (i := .put) hv trivial ?_) hstuck
        cases entry <;> simp [Protocol.Node.act, Protocol.Node.put, htask]
    | sending packets =>
        cases packets with
        | nil => exact absurd htask (hsound.nodes v).2
        | cons p packets =>
            refine absurd (goesOn_of_act (i := .transmit) hv trivial ?_) hstuck
            simp [Protocol.Node.act, Protocol.Node.transmit, htask]
  refine ⟨fun v hv => ⟨hpolling v hv, ?_, ?_⟩, fun p hp v haud => ?_⟩
  · cases happ : (net.nodes v).app with
    | none => rfl
    | some c =>
        refine absurd (goesOn_of_act (i := .timeout) hv trivial ?_) hstuck
        simp [Protocol.Node.act, Protocol.Node.timeout, happ]
  · cases hqueue : (net.nodes v).newFrameQueue with
    | nil => rfl
    | cons entry rest =>
        refine absurd (goesOn_of_act (i := .take) hv trivial ?_) hstuck
        simp [Protocol.Node.act, Protocol.Node.take, hqueue]
  · by_contra hconsumes
    obtain ⟨k, hk⟩ := List.getElem?_of_mem hp
    obtain ⟨hv, -⟩ := Protocol.machine_audible.mp haud
    refine hstuck ⟨.hear v k .zero, trivial, ⟨p, hk, Bool.eq_true_of_not_eq_false hconsumes⟩,
      step_hear_ne_none hk haud ?_⟩
    simp [Protocol.machine, Protocol.Node.hear, hpolling v hv]

end Network

/-! ### The code -/

section Code

variable {cfg : Config} {net : LoraNet} {net' : Protocol.Net}

/-- What the medium does with a packet is the same for the code and the protocol. -/
theorem busy_iff (hrel : Refinement.NetRel cfg net net') (l : Step) :
    l.Busy (machine cfg) net ↔ l.Busy (Protocol.machine (Refinement.routes cfg)) net' := by
  cases l with
  | hear v k g =>
      have hget := forall₂_getElem? hrel.air k
      simp only [Label.Busy]
      revert hget
      generalize net.air[k]? = p
      generalize net'.air[k]? = p'
      rintro (hp | _)
      · simp only [Option.some.injEq, exists_eq_left',
          (Refinement.simulates cfg).consumes v _ _ hp]
      · simp only [reduceCtorEq, false_and, exists_false]
  | _ => exact Iff.rfl

/-- The code is at rest when the protocol is idle. -/
theorem atRest_iff (hrel : Refinement.NetRel cfg net net') :
    AtRest cfg net ↔ Idle (Refinement.routes cfg) net' := by
  refine and_congr (forall_congr' fun v => imp_congr_right fun _ => ?_) ?_
  · exact and_congr (hrel.nodes v).polling_iff (and_congr
      (hrel.nodes v).app_eq_none_iff
      (eq_nil_iff_of_forall₂ (hrel.nodes v).newFrameQueue))
  · refine forall_mem_iff_of_forall₂ (fun p p' hp => forall_congr' fun v => ?_) hrel.air
    rw [(Refinement.simulates cfg).audible v p p' hp, (Refinement.simulates cfg).consumes v p p' hp]

/-- A step of the nodes alters no packet, and its message fits. -/
theorem Own.clean {l : Step} (h : Own l) : l.Clean := by
  cases l with
  | act v i =>
      cases i with
      | call => exact h.elim
      | _ => trivial
  | alter => exact h.elim
  | _ => trivial

/-- Without calls nothing is brought. -/
theorem ledger_work_of_own {ls : List Step} (h : ∀ l ∈ ls, Own l) : ledger work ls = 0 := by
  induction ls with
  | nil => rfl
  | cons l ls ih =>
      obtain ⟨hl, hls⟩ := List.forall_mem_cons.mp h
      have hnone : work l = 0 := by
        cases l with
        | act v i =>
            cases i with
            | call => exact hl.elim
            | _ => rfl
        | duplicate => exact hl.elim
        | _ => rfl
      rw [ledger_cons, hnone, ih hls]

/-- The code and the protocol do something in the same steps. -/
theorem busySteps_eq (hrel : Refinement.NetRel cfg net net') {ls : List Step}
    (hclean : ∀ l ∈ ls, l.Clean) : busySteps (machine cfg) net ls =
      busySteps (Protocol.machine (Refinement.routes cfg)) net' ls :=
  Lts.count_sim (Refinement.step_refines cfg) (fun _ _ l hrel => busy_iff hrel l) hrel hclean

/-- The steps of a network that corresponds to one of the protocol are bounded by the work there. -/
theorem busySteps_le_code (hrel : Refinement.NetRel cfg net net') (hsound : Sound net')
    {ls : List Step} (hclean : ∀ l ∈ ls, l.Clean)
    {net₁ : LoraNet} (hrun : Lts.run (Network.step (machine cfg)) net ls = some net₁) :
    busySteps (machine cfg) net ls ≤
      held (fun _ => nodeWork) packetWork net' + ledger work ls := by
  have hruns := Lts.run_sim (Refinement.step_refines cfg) hrel hclean
  rw [hrun] at hruns
  obtain ⟨net₁', hrun', -⟩ := Lts.exists_of_some_rel hruns
  rw [busySteps_eq hrel hclean]
  exact busySteps_le hsound (fun l hl => (hclean l hl).faithful) hrun'

/-- **The work of a run** is linear in its calls: not counting packets that are merely overheard, it
has at most seventy steps for each call, and half as many for each packet that comes twice. -/
theorem work_le (cfg : Config) {rnd : UInt8 → UInt8 → Fin tokenMax.toNat}
    {encBuf : UInt8 → Mem UInt8} {ls : List Step} (hclean : ∀ l ∈ ls, l.Clean) {net : LoraNet}
    (hrun : Lts.run (Network.step (machine cfg)) (booted rnd encBuf) ls = some net) :
    busySteps (machine cfg) (booted rnd encBuf) ls ≤
      70 * ls.countP isCall + 35 * ls.countP isDuplicate := by
  have hle := busySteps_le_code (Refinement.booted_rel cfg rnd encBuf) (sound_booted _) hclean hrun
  have hfull : fullWork = 35 := rfl
  rw [held_booted, ledger_work, hfull] at hle
  omega

/-- One message and its answer, and a third node that overhears both. -/
def overheard : List Step :=
  [.act 0 (.call 1 [7] null), .hear 2 0 .zero, .hear 1 0 .zero, .act 1 .put, .act 1 .transmit,
    .hear 2 0 .zero, .hear 0 0 .zero, .act 0 .put, .act 0 .poll]

/-- No packet of the run is altered, and its message fits. -/
theorem overheard_clean : ∀ l ∈ overheard, l.Clean := by
  simp [overheard, Step.Clean, Label.Admits, Action.Fits]

/-- A message that is answered at once takes seven steps, however many overhear it. -/
theorem work_le_overheard :
    ∃ net, Lts.run (Network.step (machine (Config.direct 3 (Equiv.refl Block) Crc8.crc8)))
        (booted (fun _ _ => ⟨0, by decide⟩) fun _ => null) overheard = some net ∧
      overheard.length = 9 ∧
      busySteps (machine (Config.direct 3 (Equiv.refl Block) Crc8.crc8))
        (booted (fun _ _ => ⟨0, by decide⟩) fun _ => null) overheard = 7 ∧
      busySteps (machine (Config.direct 3 (Equiv.refl Block) Crc8.crc8))
          (booted (fun _ _ => ⟨0, by decide⟩) fun _ => null) overheard ≤
        70 * overheard.countP isCall + 35 * overheard.countP isDuplicate := by
  have hrel := Refinement.booted_rel (Config.direct 3 (Equiv.refl Block) Crc8.crc8)
    (fun _ _ => ⟨0, by decide⟩) fun _ => null
  obtain ⟨net, hrun, -⟩ := Refinement.exists_code_run
    (Config.direct 3 (Equiv.refl Block) Crc8.crc8) (fun _ _ => ⟨0, by decide⟩) (fun _ => null)
    [.returned (0, 0) true (some (0, 0)), .transmitted 1 (0, 0) typeMaskAck,
      .put 1 0 [7] (0, 0), .transmitted 0 (0, 0) typeMaskNeedAck, .called (0, 0) 1 [7]]
    overheard_clean (by decide)
  refine ⟨net, hrun, rfl, ?_, work_le _ overheard_clean hrun⟩
  rw [busySteps_eq hrel overheard_clean]
  decide

/-- No packet of the run is altered, and its message fits. -/
theorem answered_clean : ∀ l ∈ Storm.answered, l.Clean := by
  simp [Storm.answered, Step.Clean, Label.Admits, Action.Fits]

/-- The run goes through: the call was answered. -/
theorem exists_answered :
    ∃ net, Lts.run (Network.step (machine (Config.direct 2 (Equiv.refl Block) Crc8.crc8)))
        (booted (fun _ _ => ⟨0, by decide⟩) fun _ => null) Storm.answered = some net ∧
      net.log = [.returned (0, 0) true (some (0, 0)), .transmitted 1 (0, 0) typeMaskAck,
        .put 1 0 [7] (0, 0), .transmitted 0 (0, 0) typeMaskNeedAck, .called (0, 0) 1 [7]] :=
  Refinement.exists_code_run _ _ _ _ answered_clean (by decide)

/-- What corresponds to a network in a run. -/
theorem exists_sound (cfg : Config) {rnd : UInt8 → UInt8 → Fin tokenMax.toNat}
    {encBuf : UInt8 → Mem UInt8} {ls : List Step} (hclean : ∀ l ∈ ls, l.Clean) {net : LoraNet}
    (hrun : Lts.run (Network.step (machine cfg)) (booted rnd encBuf) ls = some net) :
    ∃ net', Refinement.NetRel cfg net net' ∧ Sound net' := by
  obtain ⟨net', hrun', hrel⟩ := Refinement.exists_protocol_run cfg hclean hrun
  exact ⟨net', hrel, Lts.run_inv (fun _ _ _ hinv (hl : Network.Label.Faithful _) hstep =>
    sound_step hinv hl hstep) (sound_booted _)
    (Lts.along_of_forall_mem fun l hl => (hclean l hl).faithful) hrun'⟩

/-- **The network comes to rest.** Whatever has happened before, if from some time on nobody calls,
nothing is lost and nothing comes twice, then there is a bound on what the nodes still do besides
overhearing packets, and they go on until all is at rest, whatever the timing is. -/
theorem comes_to_rest (cfg : Config) {rnd : UInt8 → UInt8 → Fin tokenMax.toNat}
    {encBuf : UInt8 → Mem UInt8} {ls : List Step} (hclean : ∀ l ∈ ls, l.Clean) {net : LoraNet}
    (hrun : Lts.run (Network.step (machine cfg)) (booted rnd encBuf) ls = some net) :
    ∃ n, ∀ ls' net', (∀ l ∈ ls', Own l) →
      Lts.run (Network.step (machine cfg)) net ls' = some net' →
      busySteps (machine cfg) net ls' ≤ n ∧ (AtRest cfg net' ∨
        ∃ l, Own l ∧ l.Busy (machine cfg) net' ∧ Network.step (machine cfg) net' l ≠ none) := by
  obtain ⟨pnet, hrel, hsound⟩ := exists_sound cfg hclean hrun
  refine ⟨held (fun _ => nodeWork) packetWork pnet, fun ls' net' hown hrun' => ⟨?_, ?_⟩⟩
  · have hle := busySteps_le_code hrel hsound (fun l hl => (hown l hl).clean) hrun'
    have hzero : ledger work ls' = 0 := ledger_work_of_own hown
    rwa [hzero, Nat.add_zero] at hle
  · have hall : ∀ l ∈ ls ++ ls', l.Clean :=
      List.forall_mem_append.mpr ⟨hclean, fun l hl => (hown l hl).clean⟩
    obtain ⟨pnet', hrel', hsound'⟩ := exists_sound cfg hall ((Lts.run_append hrun ls').trans hrun')
    refine (idle_or_goesOn hsound').imp (atRest_iff hrel').mpr ?_
    rintro ⟨l, hown, hbusy, hstep⟩
    exact ⟨l, hown, (busy_iff hrel' l).mpr hbusy, Refinement.step_ne_none hrel' hown.clean hstep⟩

/-- After the answer the network comes to rest. -/
theorem comes_to_rest_answered :
    ∃ net, Lts.run (Network.step (machine (Config.direct 2 (Equiv.refl Block) Crc8.crc8)))
        (booted (fun _ _ => ⟨0, by decide⟩) fun _ => null) Storm.answered = some net ∧
      ∃ n, ∀ ls' net', (∀ l ∈ ls', Own l) →
        Lts.run (Network.step (machine (Config.direct 2 (Equiv.refl Block) Crc8.crc8))) net ls' =
          some net' →
        busySteps (machine (Config.direct 2 (Equiv.refl Block) Crc8.crc8)) net ls' ≤ n ∧
          (AtRest (Config.direct 2 (Equiv.refl Block) Crc8.crc8) net' ∨
            ∃ l, Own l ∧ l.Busy (machine (Config.direct 2 (Equiv.refl Block) Crc8.crc8)) net' ∧
              Network.step (machine (Config.direct 2 (Equiv.refl Block) Crc8.crc8)) net' l ≠
                none) := by
  obtain ⟨net, hrun, -⟩ := exists_answered
  exact ⟨net, hrun, comes_to_rest _ answered_clean hrun⟩

end Code

end Quiescence

end LCore
