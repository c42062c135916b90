import LCore.Queue
import LCore.Views

/-!
# Every Call Succeeds

In a network over tables that lead everywhere any node may call any other one at any time. If
nothing is lost or comes twice, no call runs out of time and there is room for what is put into a
queue, then every call returns `true`, its message is put into the queue of its peer once, and the
application there takes it: every packet is on its way, and every caller sees the one letter of its
call.

## Main results

* `view_step`: a step of the network is a turn of one exchange, and none of the others sees it.
* `quiet_or_goesOn`: while a letter is under way, some node can do something.
* `every_call_succeeds`: the runs of the code.
-/

open Memory

namespace LCore

namespace Exchanges

open Network
open Protocol (Body)
open Link (takes puts)
open MultiHop (FirstArrival)
open AtMostOnce (putTags)

/-! ### Success -/

/-- A step of the nodes that does something, without a new call. -/
def Goes (cfg : Config) (net : LoraNet) (l : Step) : Prop :=
  Quiescence.Own l ∧ Undisturbed net l ∧ l.Busy (machine cfg) net

/-- Every call that has returned has returned `true`, for the answer to it, and its message has been
put into the queue of its peer; no message has been put there twice. -/
structure Succeeds (log : List Event) : Prop where
  returned : ∀ tag result cause, .returned tag result cause ∈ log →
    result = true ∧ cause = some tag ∧
      ∃ d m, .called tag d m ∈ log ∧ .put d tag.1 m tag ∈ log
  once : (putTags log).Nodup

/-- Every call has returned `true`, and the applications have taken every message. -/
structure Finished (cfg : Config) (log : List Event) : Prop where
  returned : ∀ tag d m, .called tag d m ∈ log → .returned tag true (some tag) ∈ log
  taken : ∀ v, v.toNat < cfg.netSize → takes v log = puts v log

/-! ### Runs -/

/-- The state between two steps. -/
structure Inv (cfg : Config) (net : Protocol.Net) : Prop where
  travels : Travels cfg net
  conforms : ∀ s, Conforms s (view net s)

section Run

variable {cfg : Config} {net net' : Protocol.Net} (hinv : Inv cfg net)

include hinv

/-- **A step of the network is a turn of one exchange**, and none of the others sees it. -/
theorem view_step {l : Step} (hl : UndisturbedP net l)
    (hstep : Network.step (Protocol.machine (Refinement.routes cfg)) net l = some net') :
    Follows net net' := by
  cases l with
  | act v i =>
      obtain ⟨r, hr, rfl⟩ := step_act.mp hstep
      exact follows_act hinv.conforms (hinv.travels.talks v) hl
        (Protocol.Node.act_cases (Protocol.machine_act.mp hr).2)
  | hear v k g =>
      obtain ⟨p, r, hp, -, hr, rfl⟩ := step_hear.mp hstep
      have hway := hinv.travels.air p (List.mem_of_getElem? hp)
      by_cases hnext : p.next = v
      · subst hnext
        have hconsumes : (Protocol.machine (Refinement.routes cfg)).consumes p.next p = true :=
          beq_self_eq_true _
        rw [if_pos hconsumes]
        exact follows_hear hinv.conforms hway hp hr
      · have hconsumes : ¬ (Protocol.machine (Refinement.routes cfg)).consumes v p = true :=
          fun heq => hnext (beq_iff_eq.mp heq)
        obtain ⟨-, hlog, -⟩ := Protocol.Node.hear_cases hr
        rw [if_neg hconsumes, hlog, Protocol.Node.hear_of_next_ne hr hnext,
          Function.update_eq_self]
        exact fun s => .inl rfl
  | lose k => exact hl.elim
  | duplicate k => exact hl.elim
  | alter k c => exact hl.elim

/-- Every step keeps the invariant. -/
theorem inv_step (hrouted : Connected cfg) {l : Step} (hl : UndisturbedP net l)
    (hstep : Network.step (Protocol.machine (Refinement.routes cfg)) net l = some net') :
    Inv cfg net' := by
  refine ⟨travels_step hrouted hinv.travels hl hstep, fun s => ?_⟩
  rcases view_step hinv hl hstep s with hsame | hturn
  · rw [hsame]
    exact hinv.conforms s
  · exact conforms_turn (hinv.conforms s) hturn

end Run

/-- Nothing is on its way when the network has booted. -/
theorem letters_booted (recvToken : UInt8 → UInt8 → ℕ) :
    letters (Protocol.booted recvToken) = 0 := by
  simp [letters, contents, Protocol.booted, Protocol.Node.boot, nodeLetters, taskLetters,
    queueLetters]

/-- The invariant holds then. -/
theorem inv_booted (cfg : Config) (recvToken : UInt8 → UInt8 → ℕ) :
    Inv cfg (Protocol.booted recvToken) where
  travels :=
    { sound := Quiescence.sound_booted recvToken
      inside := fun _ => .inr rfl
      talks := fun _ => ⟨nofun, nofun, nofun⟩
      air := nofun
      tasks := fun _ => nofun }
  conforms s :=
    { waits := .idle rfl (by rw [view, letters_booted]; rfl)
      counters := fun _ _ => .inr rfl
      numbered := nofun
      app := nofun
      put := nofun
      once := List.nodup_nil
      returned := nofun
      made := nofun }

/-! ### Progress -/

/-- A step of the nodes that does something, in a network that nothing disturbs. -/
def GoesP (routes : Protocol.Routes) (net : Protocol.Net) (l : Step) : Prop :=
  Quiescence.Own l ∧ UndisturbedP net l ∧ l.Busy (Protocol.machine routes) net

section Progress

variable {cfg : Config} {net : Protocol.Net} (hinv : Inv cfg net)

include hinv

/-- Every caller has at most one letter on its way. -/
theorem card_lettersOf_le (s : UInt8) : (lettersOf s (letters net)).card ≤ 1 := by
  have hwaits := (hinv.conforms s).waits
  cases hwaits with
  | idle _ hletters =>
      have hnone : lettersOf s (letters net) = 0 := hletters
      simp [hnone]
  | @busy c x _ hletters _ =>
      have hone : lettersOf s (letters net) = {x} := hletters
      simp [hone]

/-- There is one answer in a queue at most. -/
theorem length_responseQueue_le (v : UInt8) : (net.nodes v).responseQueue.length ≤ 1 := by
  have hle : queueLetters v (net.nodes v).responseQueue ≤ letters net := by
    rw [letters, contents]
    have hnode : nodeLetters v (net.nodes v) ≤ ∑ w, nodeLetters w (net.nodes w) := by
      rw [← Finset.add_sum_erase Finset.univ _ (Finset.mem_univ v)]
      exact Multiset.le_add_right _ _
    exact (Multiset.le_add_left _ _).trans (hnode.trans (Multiset.le_add_right _ _))
  have hown : ∀ x ∈ queueLetters v (net.nodes v).responseQueue, x.tag.1 = v := by
    intro x hx
    obtain ⟨e, -, rfl⟩ := Multiset.mem_map.mp hx
    exact (call_of_answer hinv.conforms (Multiset.mem_of_le hle hx)).1
  have hcard := Multiset.card_le_card (Multiset.filter_le_filter (fun x => x.tag.1 = v) hle)
  have hself : lettersOf v (queueLetters v (net.nodes v).responseQueue) = _ :=
    lettersOf_eq_self hown
  rw [lettersOf] at hself
  rw [hself, queueLetters, Multiset.card_map, Multiset.coe_card] at hcard
  exact hcard.trans (card_lettersOf_le hinv v)

/-- An answer in a queue is one that a call waits for. -/
theorem exists_app {v : UInt8} {e : UInt8 × Body × Tag} {rest : List (UInt8 × Body × Tag)}
    (hqueue : (net.nodes v).responseQueue = e :: rest) :
    v.toNat < cfg.netSize ∧ ∃ c, (net.nodes v).app = some c := by
  obtain ⟨send, body, tag⟩ := e
  obtain ⟨-, c, happ, -, -⟩ :=
    call_of_answer hinv.conforms (mem_letters (nodeLetters_cons (v := v) hqueue))
  exact ⟨((hinv.travels.talks v).app c happ).2.1, c, happ⟩

end Progress

/-- Nothing is left to do: no letter is under way, and all messages have been taken. -/
def Quiet (cfg : Config) (net : Protocol.Net) : Prop :=
  letters net = 0 ∧ ∀ v, v.toNat < cfg.netSize → (net.nodes v).newFrameQueue = []

/-- **The nodes go on until nothing is left to do.** -/
theorem quiet_or_goesOn {cfg : Config} {net : Protocol.Net} (hinv : Inv cfg net) :
    Quiet cfg net ∨ ∃ l, GoesP (Refinement.routes cfg) net l ∧
      Network.step (Protocol.machine (Refinement.routes cfg)) net l ≠ none := by
  refine or_iff_not_imp_right.mpr fun hstuck => ?_
  have hact : ∀ v i, v.toNat < cfg.netSize → Quiescence.Own (.act v i) →
      UndisturbedP net (.act v i) →
      Protocol.Node.act (Refinement.routes cfg) v (net.nodes v) i = none := by
    intro v i hv hown hl
    by_contra hsome
    obtain ⟨r, hr⟩ := Option.ne_none_iff_exists'.mp hsome
    refine hstuck ⟨.act v i, ⟨hown, hl, trivial⟩, step_act_ne_none ?_⟩
    rw [Protocol.machine_act.mpr ⟨hv, hr⟩]
    exact nofun
  have hempty : ∀ v, v.toNat < cfg.netSize → (net.nodes v).newFrameQueue = [] := by
    intro v hv
    have hnone := hact v .take hv trivial trivial
    cases hqueue : (net.nodes v).newFrameQueue with
    | nil => rfl
    | cons e rest => simp [Protocol.Node.act, Protocol.Node.take, hqueue] at hnone
  have hpolling : ∀ v, (net.nodes v).task = .polling := by
    intro v
    rcases hinv.travels.inside v with hv | htask
    · cases htask : (net.nodes v).task with
      | polling => rfl
      | queueing entry tag =>
          have hnone : UndisturbedP net (.act v .put) → _ := hact v .put hv trivial
          cases entry with
          | response send body =>
              have hle := length_responseQueue_le hinv v
              have hroom : (net.nodes v).hasRoom = true := by
                simp only [Protocol.Node.hasRoom, htask, decide_eq_true_eq]
                exact hle.trans_lt (by decide)
              exact absurd (hnone hroom) (Link.put_ne_none htask)
          | message send m =>
              have hroom : (net.nodes v).hasRoom = true := by
                simp [Protocol.Node.hasRoom, htask, hempty v hv, queueLen]
              exact absurd (hnone hroom) (Link.put_ne_none htask)
      | sending packets =>
          cases packets with
          | nil => exact absurd htask (hinv.travels.sound.nodes v).2
          | cons p rest =>
              exact absurd (hact v .transmit hv trivial trivial) (Link.transmit_ne_none htask)
    · exact htask
  have hanswers : ∀ v, (net.nodes v).responseQueue = [] := by
    intro v
    cases hqueue : (net.nodes v).responseQueue with
    | nil => rfl
    | cons e rest =>
        obtain ⟨hv, c, happ⟩ := exists_app hinv hqueue
        exact absurd (hact v .poll hv trivial trivial) (Link.poll_ne_none happ hqueue)
  have hair : ∀ p, p ∉ net.air := by
    intro p hp
    obtain ⟨k, hk⟩ := List.getElem?_of_mem hp
    refine hstuck ⟨.hear p.next k .zero, ⟨trivial, trivial, p, hk, beq_self_eq_true _⟩,
      step_hear_ne_none hk (hinv.travels.air p hp).audible ?_⟩
    exact Link.hear_ne_none (hpolling _)
  refine ⟨Multiset.eq_zero_of_forall_notMem fun x hx => ?_, hempty⟩
  rw [letters] at hx
  rcases mem_contents.mp hx with ⟨v, hnode⟩ | ⟨p, hp, -⟩
  · rw [nodeLetters, hpolling, hanswers] at hnode
    exact Multiset.notMem_zero x hnode
  · exact hair p hp

/-! ### The code -/

section Code

/-- The puts of a caller. -/
theorem putTags_filter (s : UInt8) (log : List Event) :
    putTags (log.filter (ofCaller s)) = (putTags log).filter fun tag => tag.1 == s := by
  induction log with
  | nil => rfl
  | cons e log ih =>
      cases e with
      | put d a m tag =>
          have hcons : ∀ log, putTags (.put d a m tag :: log) = tag :: putTags log := fun _ => rfl
          by_cases hs : (tag.1 == s) = true
          · have hput : ofCaller s (.put d a m tag) = true := hs
            have htag := List.filter_cons_of_pos (p := fun t : Tag => t.1 == s)
              (l := putTags log) hs
            rw [List.filter_cons_of_pos hput, hcons, hcons, htag, ih]
          · have hput : ¬ ofCaller s (.put d a m tag) = true := hs
            have htag := List.filter_cons_of_neg (p := fun t : Tag => t.1 == s)
              (l := putTags log) hs
            rw [List.filter_cons_of_neg hput, hcons, htag, ih]
      | returned tag result cause =>
          rw [List.filter_cons]
          split
          · exact ih
          · exact ih
      | called tag d m =>
          rw [List.filter_cons]
          split
          · exact ih
          · exact ih
      | _ => exact ih

/-- What the exchanges say together. -/
theorem Inv.succeeds {cfg : Config} {net : Protocol.Net} (hinv : Inv cfg net) :
    Succeeds net.log := by
  refine ⟨fun tag result cause hmem => ?_, ?_⟩
  · have hseen : .returned tag result cause ∈ (view net tag.1).log :=
      List.mem_filter.mpr ⟨hmem, beq_self_eq_true _⟩
    obtain ⟨hresult, hcause, d, m, hcalled, hput⟩ := (hinv.conforms tag.1).returned _ _ _ hseen
    exact ⟨hresult, hcause, d, m, (List.mem_filter.mp hcalled).1, (List.mem_filter.mp hput).1⟩
  · refine List.nodup_iff_count_le_one.mpr fun tag => ?_
    have honce := List.nodup_iff_count_le_one.mp (hinv.conforms tag.1).once tag
    have hfilter : putTags (view net tag.1).log = _ := putTags_filter tag.1 net.log
    have hcount := List.count_filter (p := fun t : Tag => t.1 == tag.1) (l := putTags net.log)
      (beq_self_eq_true tag.1)
    rwa [hfilter, hcount] at honce

/-- With no letter under way, no call waits. -/
theorem Inv.returned {cfg : Config} {net : Protocol.Net} (hinv : Inv cfg net)
    (hletters : letters net = 0) {tag : Tag} {d : UInt8} {m : List UInt8}
    (hcalled : .called tag d m ∈ net.log) : .returned tag true (some tag) ∈ net.log := by
  have hseen : .called tag d m ∈ (view net tag.1).log :=
    List.mem_filter.mpr ⟨hcalled, beq_self_eq_true _⟩
  have hnone : (view net tag.1).letters = 0 := by
    rw [view, hletters]
    rfl
  rcases (hinv.conforms tag.1).made _ _ _ hseen with hreturned | ⟨c, happ, -⟩
  · exact (List.mem_filter.mp hreturned).1
  · cases (hinv.conforms tag.1).waits with
    | idle hidle => exact absurd (happ.symm.trans hidle) (Option.some_ne_none c)
    | busy _ hletter =>
        exact absurd (hletter.symm.trans hnone) (Multiset.singleton_ne_zero _)

/-- No packet of an undisturbed step is altered, and its message fits. -/
theorem Undisturbed.clean {net : LoraNet} {l : Step} (hl : Undisturbed net l) : l.Clean := by
  cases l with
  | act v i =>
      cases i with
      | call => exact hl.2.1
      | _ => trivial
  | hear => trivial
  | _ => exact hl.elim

/-- The code is undisturbed when the protocol is. -/
theorem undisturbed_iff {cfg : Config} {net : LoraNet} {net' : Protocol.Net}
    (hrel : Refinement.NetRel cfg net net') (l : Step) :
    Undisturbed net l ↔ UndisturbedP net' l := by
  cases l with
  | act v i =>
      cases i with
      | call d m encrypted =>
          simp only [Undisturbed, UndisturbedP, (hrel.nodes d).recvToken v]
      | put =>
          have hroom : (net.nodes v).hasRoom = (net'.nodes v).hasRoom :=
            Refinement.hasRoom_rel hrel (.act v .put)
          simp only [Undisturbed, UndisturbedP, hroom]
      | _ => exact Iff.rfl
  | _ => exact Iff.rfl

/-- What corresponds to a network in a run. -/
theorem exists_inv {cfg : Config} (hrouted : Connected cfg)
    {rnd : UInt8 → UInt8 → Fin tokenMax.toNat} {encBuf : UInt8 → Mem UInt8} {ls : List Step}
    (hquiet : Lts.Along (Network.step (machine cfg)) Undisturbed (booted rnd encBuf) ls)
    {net : LoraNet}
    (hrun : Lts.run (Network.step (machine cfg)) (booted rnd encBuf) ls = some net) :
    ∃ net', Refinement.NetRel cfg net net' ∧ Inv cfg net' := by
  have hclean : ∀ l ∈ ls, l.Clean :=
    Lts.forall_mem_of_along (fun _ _ hl => hl.clean) hquiet hrun
  obtain ⟨net', hrun', hrel⟩ := Refinement.exists_protocol_run cfg hclean hrun
  have hquiet' := Lts.along_sim (Refinement.step_refines cfg)
    (fun _ _ l hrel _ hl => (undisturbed_iff hrel l).mp hl) (Refinement.booted_rel cfg rnd encBuf)
    hclean hquiet
  exact ⟨net', hrel, Lts.run_inv (fun _ _ _ hinv hl hstep => inv_step hinv hrouted hl hstep)
    (inv_booted cfg _) hquiet' hrun'⟩

/-- **Every call succeeds.** If the tables lead everywhere, then in a network that nothing disturbs
every call that returns was successful; and when nobody calls any more, there is a bound on what the
nodes still do, and they go on until every call has returned and every message has been taken. -/
theorem every_call_succeeds (cfg : Config) (hrouted : Connected cfg)
    {rnd : UInt8 → UInt8 → Fin tokenMax.toNat} {encBuf : UInt8 → Mem UInt8} {ls : List Step}
    (hquiet : Lts.Along (Network.step (machine cfg)) Undisturbed (booted rnd encBuf) ls)
    {net : LoraNet}
    (hrun : Lts.run (Network.step (machine cfg)) (booted rnd encBuf) ls = some net) :
    Succeeds net.log ∧
      ∃ n, ∀ ls' net', (∀ l ∈ ls', Quiescence.Own l) →
        Lts.Along (Network.step (machine cfg)) Undisturbed net ls' →
        Lts.run (Network.step (machine cfg)) net ls' = some net' →
        busySteps (machine cfg) net ls' ≤ n ∧ (Finished cfg net'.log ∨
          ∃ l, Goes cfg net' l ∧ Network.step (machine cfg) net' l ≠ none) := by
  obtain ⟨pnet, hrel, hinv⟩ := exists_inv hrouted hquiet hrun
  refine ⟨hrel.log ▸ hinv.succeeds,
    held (fun _ => Quiescence.nodeWork) Quiescence.packetWork pnet,
    fun ls' net' hown hquiet' hrun' => ⟨?_, ?_⟩⟩
  · have hle := Quiescence.busySteps_le_code hrel hinv.travels.sound
      (fun l hl => (hown l hl).clean) hrun'
    rwa [Quiescence.ledger_work_of_own hown, Nat.add_zero] at hle
  · have hrun'' := (Lts.run_append hrun ls').trans hrun'
    obtain ⟨pnet', hrel', hinv'⟩ :=
      exists_inv hrouted (Lts.along_append hquiet hrun hquiet') hrun''
    rcases quiet_or_goesOn hinv' with ⟨hletters, htaken⟩ | ⟨l, ⟨hown, hl, hbusy⟩, hstep⟩
    · refine .inl ⟨fun tag d m hcalled => ?_, fun v hv => ?_⟩
      · rw [hrel'.log] at hcalled ⊢
        exact hinv'.returned hletters hcalled
      · have hempty := (eq_nil_iff_of_forall₂ (hrel'.nodes v).newFrameQueue).mpr
          (htaken v hv)
        have horder := (Queue.fifo_run hrun'' v).order
        rw [hempty, List.map_nil, List.append_nil] at horder
        exact List.reverse_injective horder
    · exact .inr ⟨l, ⟨hown, (undisturbed_iff hrel' l).mpr hl,
        (Quiescence.busy_iff hrel' l).mpr hbusy⟩, Refinement.step_ne_none hrel' hown.clean hstep⟩

/-- The tables for three devices lead everywhere. -/
theorem connected_threeDevices : Connected Relays.threeDevices := by
  have hnodes : ∀ v ∈ nodesOf Relays.threeDevices, v = 0 ∨ v = 1 ∨ v = 2 := by
    intro v hv
    have hlt : v.toNat < 3 := hv
    simp only [← UInt8.toNat_inj]
    have h0 : (0 : UInt8).toNat = 0 := rfl
    have h1 : (1 : UInt8).toNat = 1 := rfl
    have h2 : (2 : UInt8).toNat = 2 := rfl
    omega
  have hdirect : ∀ {s d : UInt8}, MultiHop.hop Relays.threeDevices s d 1 = some d →
      ∃ h, FirstArrival Relays.threeDevices s d h := fun h₁ =>
    ⟨1, by decide, by decide, h₁, fun i hle hlt => by omega⟩
  have hline : ∀ {s d : UInt8}, MultiHop.hop Relays.threeDevices s d 1 ≠ some d →
      MultiHop.hop Relays.threeDevices s d 2 = some d →
      ∃ h, FirstArrival Relays.threeDevices s d h := fun h₁ h₂ =>
    ⟨2, by decide, by decide, h₂, fun i hle hlt => by
      obtain rfl : i = 1 := by omega
      exact h₁⟩
  rintro s d ⟨hs, hd, hsd⟩
  rcases hnodes s hs with rfl | rfl | rfl
  · rcases hnodes d hd with rfl | rfl | rfl
    · exact absurd rfl hsd
    · exact hdirect (by decide)
    · exact hline (by decide) (by decide)
  · rcases hnodes d hd with rfl | rfl | rfl
    · exact hdirect (by decide)
    · exact absurd rfl hsd
    · exact hdirect (by decide)
  · rcases hnodes d hd with rfl | rfl | rfl
    · exact hline (by decide) (by decide)
    · exact hdirect (by decide)
    · exact absurd rfl hsd

/-- The two ends call each other, and the first call returns while the second message is still on
the air. -/
def crossing : List Step :=
  [.act 0 (.call 2 [7] null), .act 2 (.call 0 [8] null), .hear 1 0 .zero, .act 1 .transmit,
    .hear 2 1 .zero, .act 2 .put, .act 2 .transmit, .hear 1 1 .zero, .act 1 .transmit,
    .hear 0 1 .zero, .act 0 .put, .act 0 .poll]

/-- No packet of the run is altered, and its messages fit. -/
theorem crossing_clean : ∀ l ∈ crossing, l.Clean := by
  simp [crossing, Step.Clean, Label.Admits, Action.Fits]

/-- Two calls that cross each other, over a third device. -/
theorem every_call_succeeds_crossing :
    ∃ net, Lts.run (Network.step (machine Relays.threeDevices))
        (booted (fun _ _ => ⟨0, by decide⟩) fun _ => null) crossing = some net ∧
      .returned (0, 0) true (some (0, 0)) ∈ net.log ∧ Succeeds net.log ∧
      ∃ n, ∀ ls' net', (∀ l ∈ ls', Quiescence.Own l) →
        Lts.Along (Network.step (machine Relays.threeDevices)) Undisturbed net ls' →
        Lts.run (Network.step (machine Relays.threeDevices)) net ls' = some net' →
        busySteps (machine Relays.threeDevices) net ls' ≤ n ∧
          (Finished Relays.threeDevices net'.log ∨
            ∃ l, Goes Relays.threeDevices net' l ∧
              Network.step (machine Relays.threeDevices) net' l ≠ none) := by
  have hquiet := Lts.along_sim_symm (Refinement.step_refines Relays.threeDevices)
    (fun _ _ l hrel _ hl => (undisturbed_iff hrel l).mpr hl)
    (Refinement.booted_rel _ (fun _ _ => ⟨0, by decide⟩) fun _ => null) crossing_clean (by decide)
  obtain ⟨net, hrun, hlog⟩ := Refinement.exists_code_run Relays.threeDevices
    (fun _ _ => ⟨0, by decide⟩) (fun _ => null)
    [.returned (0, 0) true (some (0, 0)), .transmitted 1 (0, 0) typeMaskAck,
      .transmitted 2 (0, 0) typeMaskAck, .put 2 0 [7] (0, 0), .transmitted 1 (0, 0) typeMaskNeedAck,
      .transmitted 2 (2, 0) typeMaskNeedAck, .called (2, 0) 0 [8],
      .transmitted 0 (0, 0) typeMaskNeedAck, .called (0, 0) 2 [7]] crossing_clean (by decide)
  refine ⟨net, hrun, ?_, every_call_succeeds _ connected_threeDevices hquiet hrun⟩
  rw [hlog]
  exact List.mem_cons_self

end Code

end Exchanges

end LCore
