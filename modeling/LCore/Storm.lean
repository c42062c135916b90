import LCore.Lib.Budget
import LCore.Lib.Crc8
import LCore.Provenance
import LCore.Refinement
import Mathlib.Data.FinEnum

/-!
# No Response Storm

How much a call of `send_with_ack` makes the network transmit. The argument is an account: a
call pays in for two data frames with everything they may cause, and every transmission takes
one unit out. What is paid in and not yet spent lies with the frames on the air, a frame being
worth a unit for each hop it has left and, if it carries a message, the two answers with all
their hops; with the listeners, for the packets they owe; and with the call that waits, which
may send its message once more. A response is worth its own hops only, so no response to a
response has to be paid for. Hops are counted by `ttl`, so the routes may be cyclic.

## Main results

* `inBudget_step`: no step spends what was not paid in.
* `noStorm`: the bounds on the transmissions of a run.
-/

namespace LCore

namespace Storm

open Memory Network
open Protocol (Body newPacket relayed)

/-! ### What is counted -/

/-- The data frames transmitted, by callers and by nodes that forward them. -/
def dataFrames (log : List Event) : ℕ :=
  log.countP fun
    | .transmitted _ _ type => type &&& responseMask = 0
    | _ => false

/-- The answers transmitted, by receivers and by nodes that forward them. -/
def responses (log : List Event) : ℕ :=
  log.countP fun
    | .transmitted _ _ type => type &&& responseMask ≠ 0
    | _ => false

/-- The packets transmitted. -/
def transmissions (log : List Event) : ℕ :=
  log.countP fun
    | .transmitted _ _ _ => true
    | _ => false

/-- The calls of `send_with_ack`. -/
def calls (log : List Event) : ℕ :=
  log.countP fun
    | .called _ _ _ => true
    | _ => false

/-! ### The account -/

/-- How often a new frame can be transmitted. -/
def hops : ℕ := initTtl.toNat + 1

section Account

variable (a b : ℕ)

/-- The price of transmitting a frame: `a` for a data frame, `b` for an answer. -/
def price : Body → ℕ
  | .data _ _ => a
  | _ => b

/-- What arriving at its destination may cost: a message has two answers. -/
def answering : Body → ℕ
  | .data _ _ => 2 * (b * hops)
  | _ => 0

/-- What a packet on the air may still cost. -/
def worth (p : Protocol.Packet) : ℕ := price a b p.body * p.ttl.toNat + answering b p.body

/-- What a packet may cost its listener, who has yet to transmit it, and others. -/
def owed (p : Protocol.Packet) : ℕ := price a b p.body + worth a b p

/-- What a listener may have to spend. -/
def taskAccount : Protocol.Task → ℕ
  | .polling => 0
  | .queueing (.response _ _) _ => 0
  | .queueing (.message _ _) _ => 2 * (b * hops)
  | .sending packets => ledger (owed a b) packets

/-- What a call may have to spend: it may send its message once more. -/
def callAccount : Option Protocol.Call → ℕ
  | some c => if c.allowResend = true then a * hops + 2 * (b * hops) else 0
  | none => 0

/-- What a node may have to spend. -/
def nodeAccount (n : Protocol.Node) : ℕ := taskAccount a b n.task + callAccount a b n.app

/-- What an event costs. -/
def cost : Event → ℕ
  | .transmitted _ _ type => if type &&& responseMask = 0 then a else b
  | _ => 0

/-- What an event pays in: a call pays for its message twice. -/
def pay : Event → ℕ
  | .called _ _ _ => 2 * (a * hops + 2 * (b * hops))
  | _ => 0

/-! ### Small accounts -/

/-- The type byte tells the price. -/
theorem price_eq (body : Body) :
    (if body.flags &&& responseMask = 0 then a else b) = price a b body := by
  cases body with
  | data token m => exact if_pos needAck_and_responseMask
  | _ => exact if_neg (Refinement.flags_and_responseMask fun _ _ h => Body.noConfusion h)

@[simp] theorem cost_event (p : Protocol.Packet) : cost a b p.event = price a b p.body :=
  price_eq a b p.body

@[simp] theorem cost_newPacket (routes : Protocol.Routes) (v dest : UInt8) (body : Body)
    (tag : Tag) : cost a b (newPacket routes v dest body tag).event = price a b body :=
  price_eq a b body

@[simp] theorem pay_event (p : Protocol.Packet) : pay a b p.event = 0 := rfl

@[simp] theorem taskAccount_owing (packets : List Protocol.Packet) :
    taskAccount a b (Protocol.Task.owing packets) = ledger (owed a b) packets := by
  cases packets with
  | nil => rfl
  | cons p rest => rfl

/-- A new packet and its transmission cost what a full number of hops does. -/
theorem worth_newPacket (routes : Protocol.Routes) (v dest : UInt8) (body : Body) (tag : Tag) :
    price a b body + worth a b (newPacket routes v dest body tag) =
      price a b body * hops + answering b body := by
  have hnew : (newPacket routes v dest body tag).ttl.toNat = initTtl.toNat := rfl
  have hbody : (newPacket routes v dest body tag).body = body := rfl
  rw [worth, hnew, hbody, hops, Nat.mul_succ]
  omega

/-- What a new packet will cost, over all its hops and with its answer. -/
theorem owed_newPacket (routes : Protocol.Routes) (v dest : UInt8) (body : Body) (tag : Tag) :
    owed a b (newPacket routes v dest body tag) = price a b body * hops + answering b body :=
  worth_newPacket a b routes v dest body tag

/-- Relaying a packet takes one of its hops. -/
theorem owed_relayed (routes : Protocol.Routes) (v : UInt8) {p : Protocol.Packet}
    (httl : p.ttl ≠ 0) :
    owed a b (relayed routes v p) = worth a b p := by
  have hpos : p.ttl.toNat ≠ 0 := fun h => httl (UInt8.toNat_inj.mp h)
  have hbody : (relayed routes v p).body = p.body := rfl
  have hone : (relayed routes v p).ttl.toNat + 1 = p.ttl.toNat := by
    have hle : (1 : UInt8) ≤ p.ttl := UInt8.le_iff_toNat_le.mpr (Nat.one_le_iff_ne_zero.mpr hpos)
    have hsub : (p.ttl - 1).toNat = p.ttl.toNat - 1 := UInt8.toNat_sub_of_le _ _ hle
    have hrelayed : (relayed routes v p).ttl = p.ttl - 1 := rfl
    rw [hrelayed, hsub]
    omega
  rw [owed, worth, worth, hbody, ← hone, Nat.mul_succ]
  omega

/-! ### The steps -/

variable {routes : Protocol.Routes} {v : UInt8} {n : Protocol.Node}

/-- No action spends more than what is paid in and what the node holds. -/
theorem account_act {i : Action} {r : Protocol.Node.Result}
    (h : Protocol.Node.Acts routes v n i r) :
    ledger (cost a b) r.2.2 + nodeAccount a b r.1 + ledger (worth a b) r.2.1 ≤
      ledger (pay a b) r.2.2 + nodeAccount a b n := by
  unfold nodeAccount
  cases h with
  | @called dest m encrypted token happ htoken =>
      have hnew := worth_newPacket a b routes v dest (.data token m) (v, n.calls)
      rw [price, answering] at hnew
      simp only [ledger_cons, ledger_nil, cost_newPacket, pay_event]
      simp only [cost, pay, price, callAccount, happ, if_true]
      omega
  | returned result happ hqueue =>
      simp only [ledger_cons, ledger_nil, cost, pay, callAccount]
      omega
  | ignored happ hqueue hentry =>
      simp only [ledger_nil]
      omega
  | synced happ hallow hqueue =>
      simp only [ledger_nil, callAccount, happ, hallow]
      omega
  | @resent c body token tag rest sendToken happ hallow hqueue htoken hcounter =>
      have hnew := worth_newPacket a b routes v c.dest (.data token c.m) c.tag
      rw [price, answering] at hnew
      simp only [Protocol.Node.resend, ledger_cons, ledger_nil, cost_newPacket, pay_event]
      simp only [price, callAccount, happ, hallow, Bool.false_eq_true, if_false, if_true]
      omega
  | timedOut happ =>
      simp only [ledger_cons, ledger_nil, cost, pay, callAccount]
      omega
  | taken hqueue =>
      simp only [ledger_cons, ledger_nil, cost, pay]
      omega
  | queued htask =>
      simp only [ledger_nil, taskAccount]
      omega
  | @put send m tag htask hroom =>
      have hack := owed_newPacket a b routes v send .ack tag
      simp only [price, answering] at hack
      simp only [ledger_cons, ledger_nil, cost, pay, taskAccount, htask]
      omega
  | @refused send m tag htask hfull =>
      have hack := owed_newPacket a b routes v send .ack tag
      have herror := owed_newPacket a b routes v send .error tag
      simp only [price, answering] at hack herror
      simp only [ledger_cons, ledger_nil, cost, pay, taskAccount, htask]
      omega
  | transmitted htask =>
      simp only [ledger_cons, ledger_nil, cost_event, pay_event, taskAccount_owing]
      rw [htask, taskAccount, ledger_cons, owed]
      omega

/-- Nor does hearing a packet, which brings what the packet is worth. -/
theorem account_hear {p : Protocol.Packet} {r : Protocol.Node × List Event}
    (h : Protocol.Node.hear routes v n p = some r) :
    ledger (cost a b) r.2 + nodeAccount a b r.1 ≤
      ledger (pay a b) r.2 + nodeAccount a b n +
        if (p.next == v) = true then worth a b p else 0 := by
  obtain ⟨htask, hev, hhears⟩ := Protocol.Node.hear_cases h
  rw [hev, ledger_nil, ledger_nil]
  by_cases hnext : p.next = v
  · rw [if_pos (beq_iff_eq.mpr hnext)]
    have hempty : nodeAccount a b n = callAccount a b n.app := by
      rw [nodeAccount, htask, taskAccount, Nat.zero_add]
    have hrelayed := Protocol.Node.ttl_ne_zero_of_relayed h
    rw [hempty]
    unfold nodeAccount
    generalize r.1 = n' at hhears hrelayed ⊢
    cases hhears with
    | ignored =>
        rw [htask, taskAccount]
        omega
    | relayed hdest =>
        have howed := owed_relayed a b routes v (hrelayed hdest nofun)
        simp only [taskAccount, ledger_cons, ledger_nil]
        omega
    | answer hdest hbody =>
        simp only [taskAccount]
        omega
    | accepted hdest hbody hwindow =>
        simp only [taskAccount, worth, hbody, answering]
        omega
    | @rejected token m hdest hbody hwindow =>
        have howed := owed_newPacket a b routes v p.send
          (.sync ((n.recvToken p.send + 1) % tokenMax.toNat)) p.tag
        simp only [price, answering] at howed
        simp only [taskAccount, ledger_cons, ledger_nil, worth, hbody, answering]
        omega
  · rw [Protocol.Node.hear_of_next_ne h hnext]
    omega

/-- **No step spends what was not paid in.** -/
theorem inBudget_step {net net' : Protocol.Net} {l : Step}
    (hbudget : InBudget (fun _ => nodeAccount a b) (worth a b) (cost a b) (pay a b) net)
    (hl : l.Single) (hstep : Network.step (Protocol.machine routes) net l = some net') :
    InBudget (fun _ => nodeAccount a b) (worth a b) (cost a b) (pay a b) net' := by
  refine InBudget.step (fun v n i r hr => ?_) (fun v n p g r hr => ?_) hbudget hl hstep
  · exact account_act a b (Protocol.Node.act_cases (Protocol.machine_act.mp hr).2)
  · exact account_hear a b hr

/-- The costs of a run are covered by the calls in it. -/
theorem cost_le_pay {recvToken : UInt8 → UInt8 → ℕ} {ls : List Step}
    (hsingle : ∀ l ∈ ls, l.Single) {net : Protocol.Net}
    (hrun : Lts.run (Network.step (Protocol.machine routes)) (Protocol.booted recvToken) ls =
      some net) : ledger (cost a b) net.log ≤ ledger (pay a b) net.log := by
  have hbooted : InBudget (fun _ => nodeAccount a b) (worth a b) (cost a b) (pay a b)
      (Protocol.booted recvToken) := by
    simp [InBudget, held, Protocol.booted, Protocol.Node.boot, nodeAccount, taskAccount,
      callAccount]
  have hbudget := Lts.run_inv
    (fun net l net' hinv (hl : l.Single) hstep => inBudget_step a b hinv hl hstep) hbooted
    (Lts.along_of_forall_mem hsingle) hrun
  unfold InBudget at hbudget
  omega

/-! ### The counts -/

/-- The costs of a log are its data frames and its responses. -/
theorem ledger_cost (log : List Event) :
    ledger (cost a b) log = a * dataFrames log + b * responses log := by
  unfold dataFrames responses
  induction log with
  | nil => rfl
  | cons e log ih =>
      rw [ledger_cons, ih, List.countP_cons, List.countP_cons]
      cases e with
      | transmitted node tag type =>
          by_cases htype : type &&& responseMask = 0
          · simp only [cost, htype, if_true, decide_true, ne_eq, not_true_eq_false, decide_false,
              Bool.false_eq_true, if_false, Nat.mul_add]
            omega
          · simp only [cost, htype, if_false, decide_false, ne_eq, not_false_eq_true, decide_true,
              Bool.false_eq_true, if_true, Nat.mul_add]
            omega
      | _ => simp [cost]

/-- The payments of a log are those of its calls. -/
theorem ledger_pay (log : List Event) :
    ledger (pay a b) log = 2 * (a * hops + 2 * (b * hops)) * calls log := by
  unfold calls
  induction log with
  | nil => rfl
  | cons e log ih =>
      rw [ledger_cons, ih, List.countP_cons]
      cases e with
      | called tag dest m =>
          simp only [pay, if_true, Nat.mul_add]
          omega
      | _ => simp [pay]

end Account

/-- Every transmission is of a data frame or of an answer. -/
theorem transmissions_eq (log : List Event) :
    transmissions log = dataFrames log + responses log := by
  unfold transmissions dataFrames responses
  induction log with
  | nil => rfl
  | cons e log ih =>
      rw [List.countP_cons, List.countP_cons, List.countP_cons, ih]
      cases e with
      | transmitted node tag type =>
          by_cases htype : type &&& responseMask = 0
          · simp only [htype, if_true, decide_true, ne_eq, not_true_eq_false, decide_false,
              Bool.false_eq_true, if_false]
            omega
          · simp only [htype, decide_false, ne_eq, not_false_eq_true, decide_true,
              Bool.false_eq_true, if_false, if_true]
            omega
      | _ => simp

/-- **No response storm.** In every network and every run in which frames are neither
duplicated nor altered, a call causes two data frames with all their hops at most, they cause
two answers each at most, and nothing causes more: `k` calls cause at most
`6 * (INIT_TTL + 1) * k` transmissions. -/
theorem noStorm (cfg : Config) (rnd : UInt8 → UInt8 → Fin tokenMax.toNat)
    (encBuf : UInt8 → Mem UInt8) {ls : List Step} (hclean : ∀ l ∈ ls, l.Clean ∧ l.Single)
    {net : LoraNet}
    (hrun : Lts.run (Network.step (machine cfg)) (booted rnd encBuf) ls = some net) :
    dataFrames net.log ≤ 2 * (initTtl.toNat + 1) * calls net.log ∧
      responses net.log ≤ 4 * (initTtl.toNat + 1) * calls net.log ∧
      transmissions net.log ≤ 6 * (initTtl.toNat + 1) * calls net.log := by
  obtain ⟨net', hrun', hrel⟩ := Refinement.exists_protocol_run cfg
    (fun l hl => (hclean l hl).1) hrun
  have hcovered : ∀ a b, a * dataFrames net.log + b * responses net.log ≤
      2 * (a * hops + 2 * (b * hops)) * calls net.log := by
    intro a b
    rw [← ledger_cost, ← ledger_pay, hrel.log]
    exact cost_le_pay a b (fun l hl => (hclean l hl).2) hrun'
  have hdata := hcovered 1 0
  have hresponse := hcovered 0 1
  have htotal := hcovered 1 1
  have hhops : hops = 5 := rfl
  have httl : initTtl.toNat = 4 := rfl
  rw [hhops] at hdata hresponse htotal
  rw [transmissions_eq, httl]
  omega

/-- One message and its answer. -/
def answered : List Step :=
  [.act 0 (.call 1 [7] null), .hear 1 0 .zero, .act 1 .put, .act 1 .transmit, .hear 0 0 .zero,
    .act 0 .put, .act 0 .poll]

/-- A message that is answered at once takes two transmissions of the thirty allowed. -/
theorem noStorm_answered :
    ∃ net, Lts.run (Network.step (machine (Config.direct 2 (Equiv.refl Block) Crc8.crc8)))
        (booted (fun _ _ => ⟨0, by decide⟩) fun _ => null) answered = some net ∧
      transmissions net.log = 2 ∧
      transmissions net.log ≤ 6 * (initTtl.toNat + 1) * calls net.log := by
  have hclean : ∀ l ∈ answered, l.Clean ∧ l.Single := by
    simp [answered, Step.Clean, Network.Label.Admits, Network.Label.Single, Action.Fits]
  obtain ⟨-, net, hrun, hlog⟩ := Refinement.exists_direct_run (Equiv.refl Block) Crc8.crc8
    (fun _ _ => ⟨0, by decide⟩)
    [.returned (0, 0) true (some (0, 0)), .transmitted 1 (0, 0) typeMaskAck,
      .put 1 0 [7] (0, 0), .transmitted 0 (0, 0) typeMaskNeedAck, .called (0, 0) 1 [7]]
    (fun l hl => (hclean l hl).1) (by decide) (by decide)
  exact ⟨net, hrun, by rw [hlog]; decide, (noStorm _ _ _ hclean hrun).2.2⟩

end Storm

end LCore
