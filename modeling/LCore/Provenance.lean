import LCore.Protocol

/-!
# What a Step of the Protocol Can Do

The inversion lemmas of the protocol: what an action of a node and hearing a packet can come
to, and from these where everything that a network holds after a step was before it. Proofs of
invariants use these and do not look into the rules again.

## Main results

* `Node.act_cases`, `Node.hear_cases`: what a node can do.
* `app_step`: why a node waits with a call.
* `inFlight_step`: where a packet that is under way comes from.
* `queueing_step`, `responseQueue_step`: where an entry of a queue comes from.
* `recvToken_step`: the receive counters never go back.
-/

namespace LCore

namespace Protocol

/-! ### Nodes -/

@[simp] theorem Task.packets_polling : Task.polling.packets = [] := rfl

@[simp] theorem Task.packets_queueing (entry : Entry) (tag : Tag) :
    (Task.queueing entry tag).packets = [] := rfl

@[simp] theorem Task.packets_sending (packets : List Packet) :
    (Task.sending packets).packets = packets := rfl

@[simp] theorem Task.packets_owing (packets : List Packet) :
    (Task.owing packets).packets = packets := by
  cases packets with
  | nil => rfl
  | cons p rest => rfl

/-- A listener that owes packets has nothing to put. -/
theorem Task.owing_ne_queueing (packets : List Packet) (entry : Entry) (tag : Tag) :
    Task.owing packets ≠ .queueing entry tag := by
  cases packets with
  | nil => exact fun h => nomatch h
  | cons p rest => exact fun h => nomatch h

namespace Node

section Cases

variable (routes : Routes) (v : UInt8) (n : Node)

/-- What an action comes to. -/
inductive Acts : Action → Result → Prop
  | called {dest : UInt8} {m : List UInt8} {encrypted : Memory.Mem UInt8} {token : ℕ}
      (happ : n.app = none) (htoken : token = (n.sendToken dest + 1) % tokenMax.toNat) :
      Acts (.call dest m encrypted)
        ({ n with
          sendToken := Function.update n.sendToken dest token
          app := some ⟨dest, token, m, true, (v, n.calls)⟩
          calls := n.calls + 1 },
        [newPacket routes v dest (.data token m) (v, n.calls)],
        [(newPacket routes v dest (.data token m) (v, n.calls)).event,
          .called (v, n.calls) dest m])
  | returned {c : Call} {tag : Tag} {rest : List (UInt8 × Body × Tag)} (result : Bool)
      (happ : n.app = some c)
      (hqueue : n.responseQueue = (c.dest, if result then .ack else .error, tag) :: rest) :
      Acts .poll ({ n with responseQueue := rest, app := none }, [],
        [.returned c.tag result (some tag)])
  | ignored {c : Call} {entry : UInt8 × Body × Tag} {rest : List (UInt8 × Body × Tag)}
      (happ : n.app = some c) (hqueue : n.responseQueue = entry :: rest)
      (hentry : entry.1 = c.dest → (∃ token m, entry.2.1 = .data token m) ∨
        entry.2.1 = .resend ∧ c.allowResend = false) :
      Acts .poll ({ n with responseQueue := rest }, [], [])
  | synced {c : Call} {token : ℕ} {tag : Tag} {rest : List (UInt8 × Body × Tag)}
      (happ : n.app = some c) (hallow : c.allowResend = false)
      (hqueue : n.responseQueue = (c.dest, .sync token, tag) :: rest) :
      Acts .poll ({ n with
        responseQueue := rest
        sendToken := Function.update n.sendToken c.dest token
        app := some { c with token := token } }, [], [])
  | resent {c : Call} {body : Body} {token : ℕ} {tag : Tag}
      {rest : List (UInt8 × Body × Tag)} {sendToken : UInt8 → ℕ}
      (happ : n.app = some c) (hallow : c.allowResend = true)
      (hqueue : n.responseQueue = (c.dest, body, tag) :: rest)
      (htoken : body = .resend ∧ token = c.token ∨ body = .sync token)
      (hcounter : ∀ u, body = .sync u → sendToken = Function.update n.sendToken c.dest u) :
      Acts .poll (resend routes v { n with responseQueue := rest, sendToken := sendToken }
        { c with token := token })
  | timedOut {c : Call} (happ : n.app = some c) :
      Acts .timeout ({ n with app := none }, [], [.returned c.tag false none])
  | taken {send : UInt8} {m : List UInt8} {tag : Tag} {rest : List (UInt8 × List UInt8 × Tag)}
      (hqueue : n.newFrameQueue = (send, m, tag) :: rest) :
      Acts .take ({ n with newFrameQueue := rest }, [], [.taken v send m])
  | queued {send : UInt8} {body : Body} {tag : Tag}
      (htask : n.task = .queueing (.response send body) tag) :
      Acts .put ({ n with
        responseQueue := (xQueueSend n.responseQueue (send, body, tag)).2
        task := .polling }, [], [])
  | put {send : UInt8} {m : List UInt8} {tag : Tag}
      (htask : n.task = .queueing (.message send m) tag)
      (hroom : n.newFrameQueue.length < queueLen) :
      Acts .put ({ n with
        newFrameQueue := n.newFrameQueue ++ [(send, m, tag)]
        task := .sending [newPacket routes v send .ack tag] }, [], [.put v send m tag])
  | refused {send : UInt8} {m : List UInt8} {tag : Tag}
      (htask : n.task = .queueing (.message send m) tag)
      (hfull : ¬ n.newFrameQueue.length < queueLen) :
      Acts .put ({ n with
        task := .sending [newPacket routes v send .error tag, newPacket routes v send .ack tag] },
        [], [.refused v send m tag])
  | transmitted {p : Packet} {rest : List Packet} (htask : n.task = .sending (p :: rest)) :
      Acts .transmit ({ n with task := Task.owing rest }, [p], [p.event])

/-- What hearing a packet comes to. -/
inductive Hears (p : Packet) : Node → Prop
  | ignored : Hears p n
  | relayed (hdest : p.dest ≠ v) : Hears p { n with task := .sending [relayed routes v p] }
  | answer (hdest : p.dest = v) (hbody : ∀ token m, p.body ≠ .data token m) :
      Hears p { n with task := .queueing (.response p.send p.body) p.tag }
  | accepted {token : ℕ} {m : List UInt8} (hdest : p.dest = v) (hbody : p.body = .data token m)
      (hwindow : Encryption.InWindow (n.recvToken p.send) token) :
      Hears p { n with
        recvToken := Function.update n.recvToken p.send token
        task := .queueing (.message p.send m) p.tag }
  | rejected {token : ℕ} {m : List UInt8} (hdest : p.dest = v) (hbody : p.body = .data token m)
      (hwindow : ¬ Encryption.InWindow (n.recvToken p.send) token) :
      Hears p { n with
        task := .sending [newPacket routes v p.send
          (.sync ((n.recvToken p.send + 1) % tokenMax.toNat)) p.tag] }

end Cases

variable {routes : Routes} {v : UInt8} {n : Node}

/-- A poll, case by case. -/
theorem poll_cases {r : Result} (h : poll routes v n = some r) : Acts routes v n .poll r := by
  cases happ : n.app with
  | none => simp [poll, happ] at h
  | some c =>
      cases hqueue : n.responseQueue with
      | nil => simp [poll, happ, hqueue] at h
      | cons entry rest =>
          obtain ⟨send, body, tag⟩ := entry
          have hignored : (send = c.dest → (∃ token m, body = .data token m) ∨
              body = .resend ∧ c.allowResend = false) →
              Acts routes v n .poll ({ n with app := some c, responseQueue := rest }, [], []) := by
            rw [← happ]
            exact .ignored happ hqueue
          simp only [poll, happ, hqueue] at h
          by_cases hsend : send = c.dest
          · subst hsend
            rw [if_pos rfl] at h
            cases body with
            | data token m =>
                obtain rfl := Option.some.inj h
                exact hignored fun _ => .inl ⟨token, m, rfl⟩
            | ack =>
                obtain rfl := Option.some.inj h
                exact .returned true happ hqueue
            | error =>
                obtain rfl := Option.some.inj h
                exact .returned false happ hqueue
            | resend =>
                obtain rfl := Option.some.inj h
                by_cases hallow : c.allowResend = true
                · rw [if_pos hallow]
                  exact .resent happ hallow hqueue (.inl ⟨rfl, rfl⟩) nofun
                · rw [if_neg hallow]
                  exact hignored fun _ => .inr ⟨rfl, Bool.not_eq_true _ ▸ hallow⟩
            | sync token =>
                obtain rfl := Option.some.inj h
                by_cases hallow : c.allowResend = true
                · rw [if_pos hallow]
                  refine .resent happ hallow hqueue (.inr rfl) fun u hu => ?_
                  rw [Body.sync.inj hu]
                · rw [if_neg hallow]
                  exact .synced happ (Bool.not_eq_true _ ▸ hallow) hqueue
          · rw [if_neg hsend] at h
            obtain rfl := Option.some.inj h
            exact hignored fun hsame => absurd hsame hsend

/-- A put, case by case. -/
theorem put_cases {r : Result} (h : put routes v n = some r) : Acts routes v n .put r := by
  cases htask : n.task with
  | polling => simp [put, htask] at h
  | sending packets => simp [put, htask] at h
  | queueing entry tag =>
      cases entry with
      | response send body =>
          simp only [put, htask] at h
          obtain rfl := Option.some.inj h
          exact .queued htask
      | message send m =>
          simp only [put, htask, xQueueSend] at h
          obtain rfl := Option.some.inj h
          by_cases hroom : n.newFrameQueue.length < queueLen
          · simp only [if_pos hroom, if_true]
            exact .put htask hroom
          · simp only [if_neg hroom]
            exact .refused htask hroom

/-- **What an action can do.** -/
theorem act_cases {i : Action} {r : Result} (h : act routes v n i = some r) :
    Acts routes v n i r := by
  cases i with
  | call dest m encrypted =>
      simp only [act, call] at h
      cases happ : n.app with
      | some c => simp [happ] at h
      | none =>
          simp only [happ, Option.ite_none_right_eq_some, Option.some.injEq] at h
          obtain ⟨-, rfl⟩ := h
          exact .called happ rfl
  | poll => exact poll_cases h
  | timeout =>
      cases happ : n.app with
      | none => simp [act, timeout, happ] at h
      | some c =>
          simp only [act, timeout, happ] at h
          obtain rfl := Option.some.inj h
          exact .timedOut happ
  | take =>
      cases hqueue : n.newFrameQueue with
      | nil => simp [act, take, hqueue] at h
      | cons entry rest =>
          simp only [act, take, hqueue] at h
          obtain rfl := Option.some.inj h
          exact .taken hqueue
  | put => exact put_cases h
  | transmit =>
      cases htask : n.task with
      | polling => simp [act, transmit, htask] at h
      | queueing entry tag => simp [act, transmit, htask] at h
      | sending packets =>
          cases packets with
          | nil => simp [act, transmit, htask] at h
          | cons p rest =>
              simp only [act, transmit, htask] at h
              obtain rfl := Option.some.inj h
              exact .transmitted htask

/-- **What hearing a packet can do.** -/
theorem hear_cases {p : Packet} {r : Node × List Event} (h : hear routes v n p = some r) :
    n.task = .polling ∧ r.2 = [] ∧ Hears routes v n p r.1 := by
  cases htask : n.task with
  | queueing entry tag => simp [hear, htask] at h
  | sending packets => simp [hear, htask] at h
  | polling =>
      simp only [hear, htask] at h
      obtain rfl := Option.some.inj h
      refine ⟨rfl, rfl, ?_⟩
      have hignored : Hears routes v n p { n with recvToken := n.recvToken, task := .polling } := by
        rw [← htask]
        exact .ignored
      simp only [listen]
      by_cases hnext : p.next = v
      · rw [if_pos hnext]
        by_cases hdest : p.dest = v
        · rw [if_pos hdest]
          have hanswer : (∀ token m, p.body ≠ .data token m) → Hears routes v n p
              { n with task := .queueing (.response p.send p.body) p.tag } := .answer hdest
          cases hbody : p.body with
          | data token m =>
              by_cases hwindow : Encryption.InWindow (n.recvToken p.send) token
              · simp only [if_pos hwindow]
                exact .accepted hdest hbody hwindow
              · simp only [if_neg hwindow]
                exact .rejected hdest hbody hwindow
          | _ =>
              rw [hbody] at hanswer
              exact hanswer fun token m h => nomatch h
        · rw [if_neg hdest]
          by_cases hok : p.dest.toNat < routes.netSize ∧ p.ttl ≠ 0
          · rw [if_pos hok]
            exact .relayed hdest
          · rw [if_neg hok]
            exact hignored
      · rw [if_neg hnext]
        exact hignored

/-- A packet that names another node next is ignored. -/
theorem hear_of_next_ne {p : Packet} {r : Node × List Event} (h : hear routes v n p = some r)
    (hnext : p.next ≠ v) : r.1 = n := by
  cases htask : n.task with
  | queueing entry tag => simp [hear, htask] at h
  | sending packets => simp [hear, htask] at h
  | polling =>
      simp only [hear, htask, listen, if_neg hnext] at h
      obtain rfl := Option.some.inj h
      rw [← htask]

/-- Relaying a packet takes one of its hops. -/
theorem ttl_relayed (routes : Routes) (v : UInt8) {p : Packet} (httl : p.ttl ≠ 0) :
    (relayed routes v p).ttl.toNat + 1 = p.ttl.toNat := by
  have hpos : 1 ≤ p.ttl.toNat := Nat.one_le_iff_ne_zero.mpr fun hzero =>
    httl (UInt8.toNat_inj.mp hzero)
  have hsub : (p.ttl - 1).toNat = p.ttl.toNat - 1 :=
    UInt8.toNat_sub_of_le _ _ (UInt8.le_iff_toNat_le.mpr hpos)
  have hrelayed : (relayed routes v p).ttl = p.ttl - 1 := rfl
  rw [hrelayed, hsub]
  omega

/-- A packet is relayed only while it has hops left. -/
theorem ttl_ne_zero_of_relayed {p : Packet} {r : Node × List Event}
    (h : hear routes v n p = some r) (hdest : p.dest ≠ v) (htask : r.1.task ≠ .polling) :
    p.ttl ≠ 0 := by
  intro httl
  have hno : ¬ (p.dest.toNat < routes.netSize ∧ p.ttl ≠ 0) := fun hok => hok.2 httl
  obtain ⟨hpolling, -, -⟩ := hear_cases h
  simp only [hear, hpolling, listen, if_neg hdest, if_neg hno] at h
  obtain rfl := Option.some.inj h
  refine htask ?_
  dsimp only
  split <;> rfl

end Node

/-! ### Networks -/

section Step

variable {routes : Routes} {net net' : Net} {l : Step} (hl : l.Faithful)
  (hstep : Network.step (machine routes) net l = some net')

include hl hstep

/-- What a step does to one node: nothing, an action of its own, or it hears a packet. -/
theorem node_step (v : UInt8) :
    net'.nodes v = net.nodes v ∨
    (∃ i r, l = .act v i ∧ Node.Acts routes v (net.nodes v) i r ∧ net'.nodes v = r.1) ∨
    (∃ p, p ∈ net.air ∧ Node.Hears routes v (net.nodes v) p (net'.nodes v)) := by
  rcases Network.node_of_step hstep v with heq | ⟨i, r, rfl, hr, heq⟩ | ⟨p, g, r, hp, hr, heq⟩
  · exact .inl heq
  · exact .inr (.inl ⟨i, r, rfl, Node.act_cases (machine_act.mp hr).2, heq⟩)
  · obtain ⟨-, -, hhears⟩ := Node.hear_cases hr
    rw [heq]
    exact .inr (.inr ⟨p, hp, hhears⟩)

/-- What a step does to the log and to the air: an action of a node adds its events and its
packets, and nothing else does. -/
theorem log_step :
    (net'.log = net.log ∧ net'.air ⊆ net.air) ∨
    (∃ v i r, l = .act v i ∧ Node.Acts routes v (net.nodes v) i r ∧ net'.nodes v = r.1 ∧
      net'.log = r.2.2 ++ net.log ∧ net'.air = net.air ++ r.2.1) := by
  cases l with
  | act a i =>
      obtain ⟨r, hr, rfl⟩ := Network.step_act.mp hstep
      exact .inr ⟨a, i, r, rfl, Node.act_cases (machine_act.mp hr).2, Function.update_self ..,
        rfl, rfl⟩
  | hear a k g =>
      obtain ⟨p, r, hp, -, hr, rfl⟩ := Network.step_hear.mp hstep
      obtain ⟨-, hev, -⟩ := Node.hear_cases hr
      refine .inl ⟨by rw [hev]; rfl, ?_⟩
      dsimp only
      split
      · exact List.eraseIdx_subset
      · exact fun _ h => h
  | lose k =>
      simp only [Network.step, Option.ite_none_right_eq_some, Option.some.injEq] at hstep
      obtain ⟨-, rfl⟩ := hstep
      exact .inl ⟨rfl, List.eraseIdx_subset⟩
  | duplicate k =>
      simp only [Network.step, Option.map_eq_some_iff] at hstep
      obtain ⟨p, hp, rfl⟩ := hstep
      exact .inl ⟨rfl, List.cons_subset.mpr ⟨List.mem_of_getElem? hp, fun _ h => h⟩⟩
  | alter k c => exact hl.elim

end Step

/-- A node sends the message of a call, for the first time or again. -/
inductive Sends (net : Net) (l : Step) (v : UInt8) (c : Call) : Prop
  | called {dest : UInt8} {m : List UInt8} {encrypted : Memory.Mem UInt8} {token : ℕ}
      (hl : l = .act v (.call dest m encrypted)) (happ : (net.nodes v).app = none)
      (htoken : token = ((net.nodes v).sendToken dest + 1) % tokenMax.toNat)
      (hc : c = ⟨dest, token, m, true, (v, (net.nodes v).calls)⟩)
  | resent {c₀ : Call} {body : Body} {token : ℕ} {tag : Tag} {rest : List (UInt8 × Body × Tag)}
      (hl : l = .act v .poll) (happ : (net.nodes v).app = some c₀)
      (hallow : c₀.allowResend = true)
      (hqueue : (net.nodes v).responseQueue = (c₀.dest, body, tag) :: rest)
      (htoken : body = .resend ∧ token = c₀.token ∨ body = .sync token)
      (hc : c = { c₀ with token := token, allowResend := false })

/-- Why a node waits with a call. -/
inductive Waits (net : Net) (l : Step) (v : UInt8) (c : Call) : Prop
  | same (happ : (net.nodes v).app = some c)
  | synced {c₀ : Call} {token : ℕ} (happ : (net.nodes v).app = some c₀)
      (hallow : c₀.allowResend = false) (hc : c = { c₀ with token := token })
  | sends (hsends : Sends net l v c)

/-- Where a packet that is under way comes from. -/
inductive Origin (routes : Routes) (net : Net) (l : Step) (net' : Net) (q : Packet) : Prop
  | old {p : Packet} (hp : InFlight net p) (hsend : q.send = p.send) (hdest : q.dest = p.dest)
      (hbody : q.body = p.body) (htag : q.tag = p.tag)
  | sent {v : UInt8} {c : Call} (hsends : Sends net l v c) (happ : (net'.nodes v).app = some c)
      (hq : q = newPacket routes v c.dest (.data c.token c.m) c.tag)
  | answered {v send : UInt8} {m : List UInt8} {body : Body} {tag : Tag}
      (htask : (net.nodes v).task = .queueing (.message send m) tag)
      (hbody : body = .ack ∨ body = .error) (hq : q = newPacket routes v send body tag)
  | rejected {v : UInt8} {p : Packet} {token u : ℕ} {m : List UInt8} (hp : p ∈ net.air)
      (hdest : p.dest = v) (hbody : p.body = .data token m)
      (hwindow : ¬ Encryption.InWindow ((net.nodes v).recvToken p.send) token)
      (hq : q = newPacket routes v p.send (.sync u) p.tag)

section Step

variable {routes : Routes} {net net' : Net} {l : Step} (hl : l.Faithful)
  (hstep : Network.step (machine routes) net l = some net')

include hl hstep

/-- Where the call of a node comes from. -/
theorem app_step {v : UInt8} {c : Call} (happ' : (net'.nodes v).app = some c) :
    Waits net l v c := by
  rcases node_step hl hstep v with heq | ⟨i, r, rfl, hacts, hr⟩ | ⟨p, -, hhears⟩
  · rw [heq] at happ'
    exact .same happ'
  · rw [hr] at happ'
    cases hacts with
    | called happ htoken =>
        obtain rfl := Option.some.inj happ'
        exact .sends (.called rfl happ htoken rfl)
    | resent happ hallow hqueue htoken hcounter =>
        obtain rfl := Option.some.inj happ'
        exact .sends (.resent rfl happ hallow hqueue htoken rfl)
    | synced happ hallow hqueue =>
        obtain rfl := Option.some.inj happ'
        exact .synced happ hallow rfl
    | returned => exact nomatch happ'
    | timedOut => exact nomatch happ'
    | _ => exact .same happ'
  · have happ : (net'.nodes v).app = (net.nodes v).app := by
      generalize net'.nodes v = n' at hhears
      cases hhears with
      | _ => rfl
    exact .same (happ ▸ happ')

/-- Where a packet that a node owes comes from. -/
theorem packets_step {v : UInt8} {q : Packet} (hq : q ∈ (net'.nodes v).task.packets) :
    Origin routes net l net' q := by
  rcases node_step hl hstep v with heq | ⟨i, r, rfl, hacts, hr⟩ | ⟨p, hp, hhears⟩
  · rw [heq] at hq
    exact .old (.inr ⟨v, hq⟩) rfl rfl rfl rfl
  · rw [hr] at hq
    cases hacts with
    | queued => exact nomatch hq
    | put htask hroom =>
        obtain rfl := List.mem_singleton.mp hq
        exact .answered htask (.inl rfl) rfl
    | refused htask hfull =>
        rcases List.mem_cons.mp hq with rfl | hq
        · exact .answered htask (.inr rfl) rfl
        · obtain rfl := List.mem_singleton.mp hq
          exact .answered htask (.inl rfl) rfl
    | transmitted htask =>
        rw [Task.packets_owing] at hq
        refine .old (.inr ⟨v, ?_⟩) rfl rfl rfl rfl
        rw [htask]
        exact List.mem_cons_of_mem _ hq
    | _ => exact .old (.inr ⟨v, hq⟩) rfl rfl rfl rfl
  · generalize net'.nodes v = n' at hhears hq
    cases hhears with
    | ignored => exact .old (.inr ⟨v, hq⟩) rfl rfl rfl rfl
    | relayed hdest =>
        obtain rfl := List.mem_singleton.mp hq
        exact .old (.inl hp) rfl rfl rfl rfl
    | answer => exact nomatch hq
    | accepted => exact nomatch hq
    | rejected hdest hbody hwindow =>
        obtain rfl := List.mem_singleton.mp hq
        exact .rejected hp hdest hbody hwindow rfl

/-- **Where a packet under way comes from.** -/
theorem inFlight_step {q : Packet} (hq : InFlight net' q) : Origin routes net l net' q := by
  rcases hq with hair | ⟨v, hv⟩
  · rcases log_step hl hstep with ⟨-, hsub⟩ | ⟨v, i, r, rfl, hacts, hr, -, hair'⟩
    · exact .old (.inl (hsub hair)) rfl rfl rfl rfl
    · rw [hair'] at hair
      rcases List.mem_append.mp hair with hold | hnew
      · exact .old (.inl hold) rfl rfl rfl rfl
      · have happ : (net'.nodes v).app = r.1.app := by rw [hr]
        cases hacts with
        | called happ' htoken =>
            obtain rfl := List.mem_singleton.mp hnew
            exact .sent (.called rfl happ' htoken rfl) happ rfl
        | resent happ' hallow hqueue htoken hcounter =>
            obtain rfl := List.mem_singleton.mp hnew
            exact .sent (.resent rfl happ' hallow hqueue htoken rfl) happ rfl
        | transmitted htask =>
            obtain rfl := List.mem_singleton.mp hnew
            refine .old (.inr ⟨v, ?_⟩) rfl rfl rfl rfl
            rw [htask]
            exact List.mem_cons_self
        | _ => exact nomatch hnew
  · exact packets_step hl hstep hv

/-- Where an entry that is to be queued comes from: a packet for this node. A message was under
a token in the window, which is the receive counter now. -/
theorem queueing_step {v : UInt8} {entry : Entry} {tag : Tag}
    (htask' : (net'.nodes v).task = .queueing entry tag) :
    (net.nodes v).task = .queueing entry tag ∨
    ∃ p ∈ net.air, p.dest = v ∧ p.tag = tag ∧
      ((entry = .response p.send p.body ∧ ∀ token m, p.body ≠ .data token m) ∨
        ∃ token m, p.body = .data token m ∧ entry = .message p.send m ∧
          (net.nodes v).recvToken p.send < token ∧ (net'.nodes v).recvToken p.send = token) := by
  rcases node_step hl hstep v with heq | ⟨i, r, rfl, hacts, hr⟩ | ⟨p, hp, hhears⟩
  · rw [heq] at htask'
    exact .inl htask'
  · rw [hr] at htask'
    cases hacts with
    | queued => exact nomatch htask'
    | put => exact nomatch htask'
    | refused => exact nomatch htask'
    | transmitted => exact absurd htask' (Task.owing_ne_queueing _ _ _)
    | _ => exact .inl htask'
  · generalize net'.nodes v = n' at hhears htask'
    cases hhears with
    | ignored => exact .inl htask'
    | relayed => exact nomatch htask'
    | rejected => exact nomatch htask'
    | answer hdest hbody =>
        obtain ⟨rfl, rfl⟩ := Task.queueing.inj htask'
        exact .inr ⟨p, hp, hdest, rfl, .inl ⟨rfl, hbody⟩⟩
    | accepted hdest hbody hwindow =>
        obtain ⟨rfl, rfl⟩ := Task.queueing.inj htask'
        exact .inr ⟨p, hp, hdest, rfl, .inr ⟨_, _, hbody, rfl, hwindow.1,
          Function.update_self ..⟩⟩

/-- Where an answer in `response_queue` comes from. -/
theorem responseQueue_step {v send : UInt8} {body : Body} {tag : Tag}
    (hmem : (send, body, tag) ∈ (net'.nodes v).responseQueue) :
    (send, body, tag) ∈ (net.nodes v).responseQueue ∨
      (net.nodes v).task = .queueing (.response send body) tag := by
  rcases node_step hl hstep v with heq | ⟨i, r, rfl, hacts, hr⟩ | ⟨p, hp, hhears⟩
  · rw [heq] at hmem
    exact .inl hmem
  · rw [hr] at hmem
    cases hacts with
    | queued htask =>
        rcases mem_xQueueSend _ hmem with hmem | hmem
        · exact .inl hmem
        · obtain ⟨rfl, rfl, rfl⟩ := hmem
          exact .inr htask
    | returned result happ hqueue => exact .inl (hqueue ▸ List.mem_cons_of_mem _ hmem)
    | ignored happ hqueue hentry => exact .inl (hqueue ▸ List.mem_cons_of_mem _ hmem)
    | synced happ hallow hqueue => exact .inl (hqueue ▸ List.mem_cons_of_mem _ hmem)
    | resent happ hallow hqueue => exact .inl (hqueue ▸ List.mem_cons_of_mem _ hmem)
    | _ => exact .inl hmem
  · generalize net'.nodes v = n' at hhears hmem
    cases hhears with
    | _ => exact .inl hmem

/-- The receive counters never go back. -/
theorem recvToken_step (v a : UInt8) :
    (net.nodes v).recvToken a ≤ (net'.nodes v).recvToken a := by
  rcases node_step hl hstep v with heq | ⟨i, r, rfl, hacts, hr⟩ | ⟨p, hp, hhears⟩
  · rw [heq]
  · rw [hr]
    cases hacts with
    | _ => exact le_refl _
  · generalize net'.nodes v = n' at hhears
    cases hhears with
    | accepted hdest hbody hwindow =>
        dsimp only
        rw [Function.update_apply]
        split
        · subst a
          exact hwindow.1.le
        · exact le_refl _
    | _ => exact le_refl _

/-- The log only grows. -/
theorem log_suffix : net.log <:+ net'.log := by
  rcases log_step hl hstep with ⟨hlog, -⟩ | ⟨v, i, r, -, -, -, hlog, -⟩
  · exact hlog ▸ List.suffix_refl _
  · exact hlog ▸ List.suffix_append _ _

/-- A node that is called counts the call, and none takes a count back. -/
theorem calls_step (v : UInt8) : (net.nodes v).calls ≤ (net'.nodes v).calls := by
  rcases node_step hl hstep v with heq | ⟨i, r, rfl, hacts, hr⟩ | ⟨p, hp, hhears⟩
  · rw [heq]
  · rw [hr]
    cases hacts with
    | called => exact Nat.le_succ _
    | _ => exact le_refl _
  · generalize net'.nodes v = n' at hhears
    cases hhears with
    | _ => exact le_refl _

/-- Where a call in the log comes from. -/
theorem called_step {tag : Tag} {d : UInt8} {m : List UInt8}
    (hmem : .called tag d m ∈ net'.log) :
    .called tag d m ∈ net.log ∨
      ∃ v, tag = (v, (net.nodes v).calls) ∧ (net'.nodes v).calls = (net.nodes v).calls + 1 ∧
        ∃ encrypted, l = .act v (.call d m encrypted) := by
  rcases log_step hl hstep with ⟨hlog, -⟩ | ⟨v, i, r, rfl, hacts, hr, hlog, -⟩
  · exact .inl (hlog ▸ hmem)
  · rw [hlog] at hmem
    rcases List.mem_append.mp hmem with hnew | hold
    · cases hacts with
      | called happ htoken =>
          simp only [Packet.event, List.mem_cons, reduceCtorEq, List.not_mem_nil, or_false,
            false_or] at hnew
          obtain ⟨rfl, rfl, rfl⟩ := Event.called.inj hnew
          exact .inr ⟨v, rfl, by rw [hr], _, rfl⟩
      | _ => simp [Packet.event, Node.resend] at hnew
    · exact .inl hold

/-- Where a message in the log comes from. -/
theorem put_step {tag : Tag} {d s : UInt8} {m : List UInt8}
    (hmem : .put d s m tag ∈ net'.log) :
    .put d s m tag ∈ net.log ∨
      (net.nodes d).task = .queueing (.message s m) tag ∧ (net'.nodes d).task.packets ≠ [] := by
  rcases log_step hl hstep with ⟨hlog, -⟩ | ⟨v, i, r, rfl, hacts, hr, hlog, -⟩
  · exact .inl (hlog ▸ hmem)
  · rw [hlog] at hmem
    rcases List.mem_append.mp hmem with hnew | hold
    · cases hacts with
      | put htask hroom =>
          obtain ⟨rfl, rfl, rfl, rfl⟩ := Event.put.inj (List.mem_singleton.mp hnew)
          exact .inr ⟨htask, by rw [hr]; exact List.cons_ne_nil _ _⟩
      | _ => simp [Packet.event, Node.resend] at hnew
    · exact .inl hold

end Step

end Protocol

end LCore
