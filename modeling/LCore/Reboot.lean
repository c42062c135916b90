import LCore.Integrity
import LCore.Storm

/-!
# Nodes That Are Switched Off and On

A node may lose power at any time. Its counters, its queues, a call that waits and whatever its
listener had in hand are gone; it starts again with new random numbers, a send counter of zero for
every peer, and whatever its scratch buffer then holds. What it has put on the air is still there.

The code follows the protocol through restarts too, so invariants of the protocol that a freshly
started node satisfies hold in every run with restarts.

## Main results

* `run_refines`: runs of the code and of the protocol correspond, restarts included.
* `genuine_restarts`: no restart makes a node take a message that was not sent to it.
* `noStorm_restarts`: no restart adds to what the calls may cause on the air.
-/

open Memory

namespace LCore

namespace Reboot

open Network (PowerLabel)

/-- What a node finds when it is switched on: its random numbers, and its scratch buffer. -/
abbrev Boot := (UInt8 → Fin tokenMax.toNat) × Mem UInt8

/-- A step of a network of nodes that may be restarted. -/
abbrev PowerStep := PowerLabel UInt8 Action Node.Locals (ℕ × UInt8) Boot

/-- Every message fits a frame, and the medium alters nothing. -/
abbrev Clean (l : PowerStep) : Prop := l.Admits Step.Clean

/-- The steps of the code. -/
abbrev powerStep (cfg : Config) : LoraNet → PowerStep → Option LoraNet :=
  Network.powerStep (machine cfg) fun x => Node.boot x.1 x.2

/-- The steps of the protocol. -/
abbrev powerStepP (routes : Protocol.Routes) : Protocol.Net → PowerStep → Option Protocol.Net :=
  Network.powerStep (Protocol.machine routes) fun x => Protocol.Node.boot fun a => x.1 a

/-- A node that starts is one of the protocol that starts. -/
theorem boot_rel (cfg : Config) (x : Boot) :
    Refinement.NodeRel cfg (Node.boot x.1 x.2) (Protocol.Node.boot fun a => x.1 a) :=
  (Refinement.booted_rel cfg (fun _ => x.1) fun _ => x.2).nodes 0

/-- A restart of the code is a restart of the protocol. -/
theorem powerStep_refines (cfg : Config) (net : LoraNet) (net' : Protocol.Net) (l : PowerStep)
    (hrel : Refinement.NetRel cfg net net') (hl : Clean l) :
    Option.Rel (Refinement.NetRel cfg) (powerStep cfg net l)
      (powerStepP (Refinement.routes cfg) net' l) :=
  Network.powerStep_sim (Refinement.simulates cfg) (fun _ => boot_rel cfg) hrel hl

/-- **Refinement.** Runs with restarts correspond. -/
theorem run_refines (cfg : Config) (rnd : UInt8 → UInt8 → Fin tokenMax.toNat)
    (encBuf : UInt8 → Mem UInt8) {ls : List PowerStep} (hclean : ∀ l ∈ ls, Clean l) :
    Option.Rel (Refinement.NetRel cfg) (Lts.run (powerStep cfg) (booted rnd encBuf) ls)
      (Lts.run (powerStepP (Refinement.routes cfg)) (Protocol.booted fun v a => rnd v a) ls) :=
  Lts.run_sim (powerStep_refines cfg) (Refinement.booted_rel cfg rnd encBuf) hclean

/-- Every run of the code with restarts is a run of the protocol. -/
theorem exists_protocol_run (cfg : Config) {rnd : UInt8 → UInt8 → Fin tokenMax.toNat}
    {encBuf : UInt8 → Mem UInt8} {ls : List PowerStep} (hclean : ∀ l ∈ ls, Clean l) {net : LoraNet}
    (hrun : Lts.run (powerStep cfg) (booted rnd encBuf) ls = some net) :
    ∃ net', Lts.run (powerStepP (Refinement.routes cfg)) (Protocol.booted fun v a => rnd v a) ls =
      some net' ∧ Refinement.NetRel cfg net net' := by
  have hrel := run_refines cfg rnd encBuf hclean
  rw [hrun] at hrel
  exact Lts.exists_of_some_rel hrel

/-- Every log of the protocol with restarts is a log of the code. -/
theorem exists_code_run (cfg : Config) (rnd : UInt8 → UInt8 → Fin tokenMax.toNat)
    (encBuf : UInt8 → Mem UInt8) (log : List Event) {ls : List PowerStep}
    (hclean : ∀ l ∈ ls, Clean l)
    (hlog : (Lts.run (powerStepP (Refinement.routes cfg))
      (Protocol.booted fun v a => rnd v a) ls).map (·.log) = some log) :
    ∃ net, Lts.run (powerStep cfg) (booted rnd encBuf) ls = some net ∧ net.log = log := by
  obtain ⟨net', hrun', rfl⟩ := Option.map_eq_some_iff.mp hlog
  have hrel := run_refines cfg rnd encBuf hclean
  rw [hrun'] at hrel
  obtain ⟨net, hrun, hnet⟩ := Lts.exists_of_rel_some hrel
  exact ⟨net, hrun, hnet.log⟩

/-! ### What survives a restart -/

/-- A node that has just started holds nothing that would need a reason. -/
theorem nodeGrounded_boot (log : List Event) (v : UInt8) (recvToken : UInt8 → ℕ) :
    Integrity.NodeGrounded log v (Protocol.Node.boot recvToken) :=
  ⟨nofun, nofun, nofun, nofun, nofun⟩

/-- What is on the air is grounded, whichever nodes have been restarted. -/
theorem grounded_run {routes : Protocol.Routes} {recvToken : UInt8 → UInt8 → ℕ}
    {ls : List PowerStep} (hclean : ∀ l ∈ ls, Clean l) {net : Protocol.Net}
    (hrun : Lts.run (powerStepP routes) (Protocol.booted recvToken) ls = some net) :
    Integrity.NetGrounded net := by
  refine Lts.run_inv (fun net l net' (hinv : Integrity.NetGrounded net) (hl : Clean l) h => ?_)
    (Integrity.grounded_booted recvToken) (Lts.along_of_forall_mem hclean) hrun
  refine Network.powerStep_inv (fun net l net' hnet hl hstep => ?_) (fun net a x hnet => ?_)
    hinv hl h
  · exact Integrity.grounded_step net l net' hnet (Network.Label.Admits.faithful hl) hstep
  · exact hnet.restart (nodeGrounded_boot ..)

/-- **No invented or altered messages, whoever loses power.** In every run in which the medium
alters nothing and nodes are switched off and on at any time, every message put into a
`new_frame_queue` was passed to `send_with_ack` before, by the node whose address it has and for
the node where it is put. -/
theorem genuine_restarts (cfg : Config) {rnd : UInt8 → UInt8 → Fin tokenMax.toNat}
    {encBuf : UInt8 → Mem UInt8} {ls : List PowerStep} (hclean : ∀ l ∈ ls, Clean l) {net : LoraNet}
    (hrun : Lts.run (powerStep cfg) (booted rnd encBuf) ls = some net) :
    Network.Justified Integrity.Genuine net.log := by
  obtain ⟨net', hrun', hrel⟩ := exists_protocol_run cfg hclean hrun
  rw [hrel.log]
  exact (grounded_run hclean hrun').log

/-- The sender loses power while its message is on the air. -/
def afterSending : List PowerStep :=
  [.step (.act 0 (.call 1 [7] null)), .restart 0 (fun _ => ⟨3, by decide⟩, fun _ => 9),
    .step (.hear 1 0 .zero), .step (.act 1 .put)]

/-- No packet of the run is altered, and its messages fit. -/
theorem afterSending_clean : ∀ l ∈ afterSending, Clean l := by
  simp [afterSending, Clean, PowerLabel.Admits, Step.Clean, Network.Label.Admits, Action.Fits]

/-- Its message arrives all the same. -/
theorem exists_afterSending :
    ∃ net, Lts.run (powerStep (Config.direct 2 (Equiv.refl Block) Crc8.crc8))
        (booted (fun _ _ => ⟨0, by decide⟩) fun _ => null) afterSending = some net ∧
      net.log = [.put 1 0 [7] (0, 0), .transmitted 0 (0, 0) typeMaskNeedAck,
        .called (0, 0) 1 [7]] :=
  exists_code_run (Config.direct 2 (Equiv.refl Block) Crc8.crc8) (fun _ _ => ⟨0, by decide⟩)
    (fun _ => null) _ afterSending_clean (by decide)

/-- The message that is put was sent. -/
theorem genuine_afterSending :
    ∃ net, Lts.run (powerStep (Config.direct 2 (Equiv.refl Block) Crc8.crc8))
        (booted (fun _ _ => ⟨0, by decide⟩) fun _ => null) afterSending = some net ∧
      .put 1 0 [7] (0, 0) ∈ net.log ∧ Network.Justified Integrity.Genuine net.log := by
  obtain ⟨net, hrun, hlog⟩ := exists_afterSending
  exact ⟨net, hrun, hlog ▸ List.mem_cons_self, genuine_restarts _ afterSending_clean hrun⟩

/-! ### What a restart costs -/

/-- A restarted node has nothing left to spend. -/
theorem inBudget_run (a b : ℕ) {routes : Protocol.Routes} {recvToken : UInt8 → UInt8 → ℕ}
    {ls : List PowerStep} (hsingle : ∀ l ∈ ls, l.Admits Network.Label.Single) {net : Protocol.Net}
    (hrun : Lts.run (powerStepP routes) (Protocol.booted recvToken) ls = some net) :
    Network.InBudget (fun _ => Storm.nodeAccount a b) (Storm.worth a b) (Storm.cost a b)
      (Storm.pay a b) net := by
  have hbooted : Network.InBudget (fun _ => Storm.nodeAccount a b) (Storm.worth a b)
      (Storm.cost a b) (Storm.pay a b) (Protocol.booted recvToken) := by
    simp [Network.InBudget, Network.held, Protocol.booted, Protocol.Node.boot, Storm.nodeAccount,
      Storm.taskAccount, Storm.callAccount]
  refine Lts.run_inv (fun net l net' hinv (hl : l.Admits Network.Label.Single) h => ?_) hbooted
    (Lts.along_of_forall_mem hsingle) hrun
  refine Network.powerStep_inv (fun net l net' hnet hl hstep => ?_) (fun net v x hnet => ?_)
    hinv hl h
  · exact Storm.inBudget_step a b hnet hl hstep
  · exact hnet.restart rfl

/-- **No storm after a power cut.** If frames are neither duplicated nor altered, `k` calls cause at
most `6 * (INIT_TTL + 1) * k` transmissions, however often nodes are switched off and on. -/
theorem noStorm_restarts (cfg : Config) (rnd : UInt8 → UInt8 → Fin tokenMax.toNat)
    (encBuf : UInt8 → Mem UInt8) {ls : List PowerStep} (hclean : ∀ l ∈ ls, Clean l)
    (hsingle : ∀ l ∈ ls, l.Admits Network.Label.Single) {net : LoraNet}
    (hrun : Lts.run (powerStep cfg) (booted rnd encBuf) ls = some net) :
    Storm.transmissions net.log ≤ 6 * (initTtl.toNat + 1) * Storm.calls net.log := by
  obtain ⟨net', hrun', hrel⟩ := exists_protocol_run cfg hclean hrun
  have hbudget := inBudget_run 1 1 hsingle hrun'
  have hcovered : 1 * Storm.dataFrames net.log + 1 * Storm.responses net.log ≤
      2 * (1 * Storm.hops + 2 * (1 * Storm.hops)) * Storm.calls net.log := by
    rw [← Storm.ledger_cost, ← Storm.ledger_pay, hrel.log]
    unfold Network.InBudget at hbudget
    omega
  have hhops : Storm.hops = 5 := rfl
  have httl : initTtl.toNat = 4 := rfl
  rw [hhops] at hcovered
  rw [Storm.transmissions_eq, httl]
  omega

/-- There are no more transmissions than the calls allow. -/
theorem noStorm_afterSending :
    ∃ net, Lts.run (powerStep (Config.direct 2 (Equiv.refl Block) Crc8.crc8))
        (booted (fun _ _ => ⟨0, by decide⟩) fun _ => null) afterSending = some net ∧
      Storm.transmissions net.log ≤ 6 * (initTtl.toNat + 1) * Storm.calls net.log := by
  have hsingle : ∀ l ∈ afterSending, l.Admits Network.Label.Single := by
    simp [afterSending, PowerLabel.Admits, Network.Label.Single]
  obtain ⟨net, hrun, -⟩ := exists_afterSending
  exact ⟨net, hrun, noStorm_restarts _ _ _ afterSending_clean hsingle hrun⟩

end Reboot

end LCore
