import LCore.AckSoundness
import LCore.Awaiting

/-!
# What a Call Finds in the Queue

A call of `send_with_ack` takes whatever is in `response_queue`, and the queue is not emptied
before. An answer that came when nobody waited any more is still there: the `ACK` of a call
that ran out of time, the answer to a late frame, a frame that was corrupted on its way. The
next call to the same peer takes it for the answer to its own message.

From a state at rest, with the counters of the two nodes equal, an exchange in which nothing is
lost on the air does what it should exactly when the queue is not full and holds no `ACK`, `ERROR`
or `RESEND` of the peer. How the state was reached makes no difference.

## Main results

* `exchanges_of_clean`, `clean_of_exchanges`: with room in the queue and no such answer in it an
  exchange is undisturbed, and otherwise some exchange is not.
* `exchanges_iff`: both, in every state at rest that a run can reach.
* `not_exchanges_lateAck`: such a state in which the next call is disturbed.
-/

open Memory

namespace LCore

namespace Leftover

open AckSoundness (lateAck)
open Link (transmissions)

/-! ### The exchange -/

/-- The exchange is over: the call has returned and nothing is in flight. -/
structure Over (net : LoraNet) (s d : UInt8) : Prop where
  air : net.air = []
  senderTask : (net.nodes s).task = .polling
  receiverTask : (net.nodes d).task = .polling
  app : (net.nodes s).app = none

/-- The state `net` of an exchange, `n` steps after the call that was made in `start`; `new` is
what the log has since gained. The data frame was transmitted once, the call has not failed, the
exchange goes on until it is over, and then the call has returned `true` and no answer of `d`
is left. -/
structure Undisturbed (cfg : Config) (start : LoraNet) (s d : UInt8) (n : ℕ) (net : LoraNet)
    (new : List Event) : Prop where
  log : net.log = new ++ start.log
  once : transmissions s (s, (start.nodes s).calls) new = 1
  notFailed : ∀ cause, .returned (s, (start.nodes s).calls) false cause ∉ new
  bounded : n ≤ bound start s d
  goesOn : ¬ Over net s d → ∃ l, OnExchange s d net l ∧ Network.step (machine cfg) net l ≠ none
  result : Over net s d → (∃ cause, .returned (s, (start.nodes s).calls) true cause ∈ new) ∧
    ∀ e ∈ (net.nodes s).responseQueue, e.1.buf framePosSendAddr ≠ d

/-- The call can be made, and every exchange that follows is undisturbed. -/
def Exchanges (cfg : Config) (start : LoraNet) (s d : UInt8) (m : List UInt8) : Prop :=
  ∀ encrypted, ∃ net₀, Network.step (machine cfg) start (.act s (.call d m encrypted)) = some net₀ ∧
    ∀ ls net, Lts.Along (Network.step (machine cfg)) (OnExchange s d) net₀ ls →
      Lts.run (Network.step (machine cfg)) net₀ ls = some net →
      ∃ new, Undisturbed cfg start s d ls.length net new

/-! ### Leftover answers -/

section Main

variable {cfg : Config} {start net net' : LoraNet} {s d : UInt8} {stage : Stage}
  {rest : List (LoraFrame × Tag)} {new : List Event}

/-- An exchange that no answer disturbs: under way, with room and no such answer in the queue, or
over. `p` is how many of the steps it may take are used up. -/
def OnCourse (cfg : Config) (start : LoraNet) (s d : UInt8) (p : ℕ) (net : LoraNet) : Prop :=
  (∃ stage rest new, Going cfg start s d net stage rest new ∧ stage ≠ .lost ∧
      rest.length < queueLen ∧ (∀ e ∈ rest, ¬ Disturbs d e.1) ∧
        p + weight net s d stage ≤ bound start s d) ∨
    ∃ stage new, Done cfg start s d net stage new ∧ p + weight net s d stage ≤ bound start s d

/-- The call has returned on an answer to another one. -/
def Early (cfg : Config) (s d : UInt8) (net : LoraNet) : Prop :=
  ∃ stage rest, Stale cfg s d net stage rest ∧ stage ≠ .lost ∧ rest.length < queueLen

/-- The answer the call waits for was lost, and no other will do. -/
def Stuck (cfg : Config) (start : LoraNet) (s d : UInt8) (net : LoraNet) : Prop :=
  ∃ rest new, Going cfg start s d net .lost rest new ∧ ∀ e ∈ rest, ¬ Disturbs d e.1

section Steps

variable {l : Step} (hne : s ≠ d) (hds : UInt8.ofInt (cfg.tables d s) = s)
  (hex : OnExchange s d net l) (hstep : Network.step (machine cfg) net l = some net')

include hne hds hex hstep

/-- A step of an exchange on its course uses up one of the steps it may take. -/
theorem OnCourse.step {p : ℕ} (h : OnCourse cfg start s d p net) :
    OnCourse cfg start s d (p + 1) net' := by
  rcases h with ⟨stage, rest, new, hgoing, hlost, hroom, hclean, hweight⟩ |
    ⟨stage, new, hdone, hweight⟩
  · rcases moves_of_step hne hgoing.mail hds hgoing.receiverApp hex hstep with
      ⟨r, hr, hnet'⟩ | ⟨stage', hpasses⟩
    · rcases hgoing.of_poll hne hr hnet' with
        ⟨e, rest', rfl, -, hgoing', hless⟩ | ⟨-, hless, new', hdone⟩ | ⟨e, rest', rfl, hdisturbs, -⟩
      · refine .inl ⟨stage, rest', new, hgoing', hlost, ?_, fun e he => ?_, by omega⟩
        · rw [List.length_cons] at hroom
          omega
        · exact hclean e (List.mem_cons_of_mem _ he)
      · exact .inr ⟨stage, new', hdone, by omega⟩
      · exact absurd hdisturbs (hclean e List.mem_cons_self)
    · obtain ⟨new', hgoing'⟩ := hgoing.of_passes hpasses
      have hlost' := not_lost_of_passes hgoing.queue hpasses hroom hlost
      have hless := hpasses.less
      exact .inl ⟨stage', rest, new', hgoing', hlost', hroom, hclean, by omega⟩
  · rcases moves_of_step hne hdone.mail hds hdone.receiverApp hex hstep with
      ⟨r, hr, -⟩ | ⟨stage', hpasses⟩
    · rw [poll_eq_none hdone.app] at hr
      cases hr
    · obtain ⟨new', hdone'⟩ := hdone.of_passes hpasses
      have hless := hpasses.less
      exact .inr ⟨stage', new', hdone', by omega⟩

/-- A call that has returned early has returned early after every step. -/
theorem Early.step (h : Early cfg s d net) : Early cfg s d net' := by
  obtain ⟨stage, rest, hstale, hlost, hroom⟩ := h
  rcases moves_of_step hne hstale.mail hds hstale.receiverApp hex hstep with
    ⟨r, hr, -⟩ | ⟨stage', hpasses⟩
  · rw [poll_eq_none hstale.app] at hr
    cases hr
  · exact ⟨stage', rest, hstale.of_passes hpasses,
      not_lost_of_passes hstale.queue hpasses hroom hlost, hroom⟩

/-- A call that is stuck stays so. -/
theorem Stuck.step (h : Stuck cfg start s d net) : Stuck cfg start s d net' := by
  obtain ⟨rest, new, hgoing, hclean⟩ := h
  rcases moves_of_step hne hgoing.mail hds hgoing.receiverApp hex hstep with
    ⟨r, hr, hnet'⟩ | ⟨stage', hpasses⟩
  · rcases hgoing.of_poll hne hr hnet' with
      ⟨e, rest', rfl, -, hgoing', -⟩ | ⟨-, -, new', hdone⟩ | ⟨e, rest', rfl, hdisturbs, -⟩
    · exact ⟨rest', new, hgoing', fun e he => hclean e (List.mem_cons_of_mem _ he)⟩
    · exact absurd rfl hdone.answered
    · exact absurd hdisturbs (hclean e List.mem_cons_self)
  · obtain ⟨new', hgoing'⟩ := hgoing.of_passes hpasses
    rw [hpasses.stays rfl] at hgoing'
    exact ⟨rest, new', hgoing', hclean⟩

end Steps

/-! #### How exchanges end -/

/-- An exchange is not over while its call waits. -/
theorem Going.not_over (h : Going cfg start s d net stage rest new) : ¬ Over net s d := by
  intro hover
  obtain ⟨c, happ, -⟩ := h.app
  exact absurd (happ.symm.trans hover.app) (Option.some_ne_none c)

/-- An exchange on its course is undisturbed. -/
theorem OnCourse.undisturbed {p n : ℕ} (h : OnCourse cfg start s d p net) (hp : n ≤ p) (hne : s ≠ d)
    (hs : s.toNat < cfg.netSize) (hd : d.toNat < cfg.netSize)
    (hds : UInt8.ofInt (cfg.tables d s) = s) : ∃ new, Undisturbed cfg start s d n net new := by
  rcases h with ⟨stage, rest, new, hgoing, hlost, -, -, hweight⟩ | ⟨stage, new, hdone, hweight⟩
  · exact ⟨new, hgoing.log, hgoing.once, hgoing.notReturned false, by omega,
      fun _ => hgoing.exists_step hs hd hne hds hlost, fun hover => absurd hover hgoing.not_over⟩
  · have hleft := (Stage.answers_ne_nil_iff.mp hdone.answered).1
    obtain ⟨hair, hsender, hreceiver⟩ := hdone.mail.rests_iff.mpr hleft
    refine ⟨new, hdone.log, hdone.once, hdone.notFailed, by omega,
      fun hover => absurd ⟨hair, hsender, hreceiver, hdone.app⟩ hover,
      fun _ => ⟨hdone.returned, ?_⟩⟩
    rw [hdone.queue]
    exact List.forall_mem_nil _

/-- A call that has failed, or has sent its message again, is not undisturbed. -/
theorem Failed.not_undisturbed (h : Failed start s net) {n : ℕ} :
    ¬ Undisturbed cfg start s d n net new := by
  intro hundisturbed
  obtain ⟨new', hlog, hfailed⟩ := h
  obtain rfl := List.append_cancel_right (hlog.symm.trans hundisturbed.log)
  rcases hfailed with ⟨cause, hcause⟩ | htwice
  · exact hundisturbed.notFailed cause hcause
  · exact absurd hundisturbed.once (by omega)

/-- When a call has returned early, the `ACK` of its message is left over. -/
theorem Early.not_undisturbed (h : Early cfg s d net) (hover : Over net s d) {n : ℕ} :
    ¬ Undisturbed cfg start s d n net new := by
  intro hundisturbed
  obtain ⟨stage, rest, hstale, hlost, -⟩ := h
  have hleft := hstale.mail.rests_iff.mp ⟨hover.air, hover.senderTask, hover.receiverTask⟩
  obtain ⟨e, he⟩ := List.exists_mem_of_ne_nil _ (Stage.answers_ne_nil_iff.mpr ⟨hleft, hlost⟩)
  have hmem : e ∈ (net.nodes s).responseQueue := by
    rw [hstale.queue]
    exact List.mem_append_right _ he
  exact (hundisturbed.result hover).2 e hmem (Stage.answers_of_fits hstale.mail.fits he).2.1

/-- Whatever has happened, an exchange can be brought to its end, if that is so in every
exchange from `net`. -/
theorem exists_over
    (hruns : ∀ ls net', Lts.Along (Network.step (machine cfg)) (OnExchange s d) net ls →
      Lts.run (Network.step (machine cfg)) net ls = some net' →
      ∃ new, Undisturbed cfg start s d ls.length net' new)
    {ls₁ : List Step} {net₁ : LoraNet}
    (halong₁ : Lts.Along (Network.step (machine cfg)) (OnExchange s d) net ls₁)
    (hrun₁ : Lts.run (Network.step (machine cfg)) net ls₁ = some net₁) :
    ∃ ls net' n new, Lts.Along (Network.step (machine cfg)) (OnExchange s d) net₁ ls ∧
      Lts.run (Network.step (machine cfg)) net₁ ls = some net' ∧ Over net' s d ∧
        Undisturbed cfg start s d n net' new := by
  have hruns₁ : ∀ ls net', Lts.Along (Network.step (machine cfg)) (OnExchange s d) net₁ ls →
      Lts.run (Network.step (machine cfg)) net₁ ls = some net' →
      ∃ new, Undisturbed cfg start s d (ls₁.length + ls.length) net' new := by
    intro ls net' halong hrun
    have hund := hruns (ls₁ ++ ls) net' (Lts.along_append halong₁ hrun₁ halong)
      ((Lts.run_append hrun₁ ls).trans hrun)
    rwa [List.length_append] at hund
  obtain ⟨ls, net', halong, hrun, hover⟩ := Lts.exists_final (bound start s d)
    (fun ls net' halong hrun => by
      obtain ⟨new, hund⟩ := hruns₁ ls net' halong hrun
      have hle := hund.bounded
      omega)
    (fun ls net' halong hrun (hover : ¬ Over net' s d) => by
      obtain ⟨new, hund⟩ := hruns₁ ls net' halong hrun
      exact hund.goesOn hover)
  obtain ⟨new, hund⟩ := hruns₁ ls net' halong hrun
  exact ⟨ls, net', _, new, halong, hrun, hover, hund⟩

section Exchanges

variable (hne : s ≠ d) (hs : s.toNat < cfg.netSize) (hd : d.toNat < cfg.netSize)
  (hds : UInt8.ofInt (cfg.tables d s) = s)

include hs in
/-- A call that polls comes to the first answer it obeys. -/
theorem exists_disturbed (hne : s ≠ d) (h : Going cfg start s d net stage rest new)
    (hdisturbs : ∃ e ∈ rest, Disturbs d e.1) :
    ∃ ls net', Lts.Along (Network.step (machine cfg)) (OnExchange s d) net ls ∧
      Lts.run (Network.step (machine cfg)) net ls = some net' ∧
      (Failed start s net' ∨
        ∃ rest', rest'.length < rest.length ∧ Stale cfg s d net' stage rest') := by
  induction rest generalizing net with
  | nil =>
      obtain ⟨e, he, -⟩ := hdisturbs
      exact absurd he List.not_mem_nil
  | cons e rest ih =>
      obtain ⟨c, happ, -⟩ := h.app
      obtain ⟨net₁, hnet₁⟩ := Option.ne_none_iff_exists'.mp
        (act_ne_none hs (i := .poll) (poll_ne_none happ (h.queue.trans (List.cons_append ..))))
      obtain ⟨r, hr, hnet'⟩ := poll_of_step hnet₁
      have hpoll : OnExchange s d net (.act s .poll) := .inl rfl
      by_cases hnow : Disturbs d e.1
      · refine ⟨[.act s .poll], net₁, .cons hpoll hnet₁ trivial,
          Lts.run_cons_eq_some.mpr ⟨net₁, hnet₁, rfl⟩, ?_⟩
        exact (h.spoiled_of_poll hne hr hnet' hnow).imp_right fun hstale =>
          ⟨rest, Nat.lt_succ_self _, hstale⟩
      · obtain ⟨hgoing, -⟩ := h.dropped_of_poll hne hr hnet' hnow
        obtain ⟨e', he', hdisturbs⟩ := hdisturbs
        have hmem : e' ∈ rest := (List.mem_cons.mp he').resolve_left fun heq =>
          hnow (heq ▸ hdisturbs)
        obtain ⟨ls, net', halong, hrun, hended⟩ := ih hgoing ⟨e', hmem, hdisturbs⟩
        refine ⟨.act s .poll :: ls, net', .cons hpoll hnet₁ halong,
          Lts.run_cons_eq_some.mpr ⟨net₁, hnet₁, hrun⟩, hended.imp_right ?_⟩
        rintro ⟨rest', hless, hstale⟩
        exact ⟨rest', Nat.lt_succ_of_lt hless, hstale⟩

include hne hs hd hds in
/-- When the queue is full and the call does not poll in time, the `ACK` is lost. -/
theorem exists_lost (h : Going cfg start s d net stage rest new) (hanswers : stage.answers = [])
    (hfull : queueLen ≤ rest.length) :
    ∃ ls net' new', Lts.Along (Network.step (machine cfg)) (OnExchange s d) net ls ∧
      Lts.run (Network.step (machine cfg)) net ls = some net' ∧
        Going cfg start s d net' .lost rest new' := by
  induction hw : weight net s d stage using Nat.strong_induction_on generalizing net stage new with
  | _ w ih =>
      by_cases hleft : 0 < stage.left
      · obtain ⟨l, net₁, stage₁, hex, hnet₁, hpasses⟩ :=
          exists_passes hs hd h.mail hne hds h.receiverApp hleft
        obtain ⟨new₁, hgoing⟩ := h.of_passes hpasses
        have hanswers₁ : stage₁.answers = [] := by
          obtain ⟨more, -, hmore, hroom⟩ := hpasses.queue
          rw [h.queue, hanswers, List.append_nil] at hroom
          have hnil : more = [] := by_contra fun hne => absurd (hroom hne) (by omega)
          rw [hmore, hanswers, hnil, List.append_nil]
        obtain ⟨ls, net', new', halong, hrun, hlost⟩ :=
          ih _ (hw ▸ hpasses.less) hgoing hanswers₁ rfl
        exact ⟨l :: ls, net', new', .cons hex hnet₁ halong,
          Lts.run_cons_eq_some.mpr ⟨net₁, hnet₁, hrun⟩, hlost⟩
      · have hlost : stage = .lost := by_contra fun hnot =>
          Stage.answers_ne_nil_iff.mpr ⟨by omega, hnot⟩ hanswers
        subst hlost
        exact ⟨[], net, new, trivial, rfl, h⟩

variable (hsd : UInt8.ofInt (cfg.tables s d) = d) (hquiet : Quiet start s d) {m : List UInt8}
  (hm : m.length ≤ 77)

include hne hs hd hsd hds hquiet hm

/-- With room in the queue, and no answer in it that a call to `d` obeys, an exchange is
undisturbed. -/
theorem exchanges_of_clean (hroom : (start.nodes s).responseQueue.length < queueLen)
    (hclean : ∀ e ∈ (start.nodes s).responseQueue, ¬ Disturbs d e.1) :
    Exchanges cfg start s d m := by
  intro encrypted
  obtain ⟨net₀, p, new, hcall, hgoing, hweight⟩ :=
    exists_call hd hs hne hsd hquiet hm encrypted
  refine ⟨net₀, hcall, fun ls net halong hrun => ?_⟩
  have hstart : OnCourse cfg start s d 0 net₀ :=
    .inl ⟨.sent p, _, new, hgoing, (by simp), hroom, hclean, by omega⟩
  obtain ⟨p, hp, hcourse⟩ := Lts.exists_rank_of_run (OnCourse cfg start s d)
    (fun p net l net' h hex hstep => ⟨p + 1, Nat.lt_succ_self p, h.step hne hds hex hstep⟩)
    hstart halong hrun
  exact hcourse.undisturbed (by omega) hne hs hd hds

/-- If every exchange is undisturbed, there is room in the queue and no such answer in it. -/
theorem clean_of_exchanges (hbounded : (start.nodes s).responseQueue.length ≤ queueLen)
    (h : Exchanges cfg start s d m) :
    (start.nodes s).responseQueue.length < queueLen ∧
      ∀ e ∈ (start.nodes s).responseQueue, ¬ Disturbs d e.1 := by
  obtain ⟨net₀, p, new, hcall, hgoing, -⟩ := exists_call hd hs hne hsd hquiet hm null
  obtain ⟨net₁, hcall₁, hruns⟩ := h null
  obtain rfl : net₀ = net₁ := Option.some.inj (hcall.symm.trans hcall₁)
  have hclean : ∀ e ∈ (start.nodes s).responseQueue, ¬ Disturbs d e.1 := by
    intro e he hdisturbs
    obtain ⟨ls₁, net₁, halong₁, hrun₁, hfailed | ⟨rest, hless, hstale⟩⟩ :=
      exists_disturbed hs hne hgoing ⟨e, he, hdisturbs⟩
    · obtain ⟨new', hund⟩ := hruns ls₁ net₁ halong₁ hrun₁
      exact hfailed.not_undisturbed hund
    · obtain ⟨ls, net, n, new', halong, hrun, hover, hund⟩ := exists_over hruns halong₁ hrun₁
      have hearly : Early cfg s d net := Lts.run_inv
        (fun net l net' (h : Early cfg s d net) hex hstep => h.step hne hds hex hstep)
        ⟨.sent p, rest, hstale, (by simp), by omega⟩ halong hrun
      exact hearly.not_undisturbed hover hund
  refine ⟨by_contra fun hfull => ?_, hclean⟩
  obtain ⟨ls₁, net₁, new₁, halong₁, hrun₁, hlost⟩ :=
    exists_lost hne hs hd hds hgoing rfl (Nat.le_of_not_lt hfull)
  obtain ⟨ls, net, -, -, halong, hrun, hover, -⟩ := exists_over hruns halong₁ hrun₁
  obtain ⟨rest, new₂, hgoing₂, -⟩ : Stuck cfg start s d net := Lts.run_inv
    (fun net l net' (h : Stuck cfg start s d net) hex hstep => h.step hne hds hex hstep)
    ⟨_, new₁, hlost, hclean⟩ halong hrun
  exact hgoing₂.not_over hover

end Exchanges

end Main

/-! ### Reachable states -/

/-- An action keeps `response_queue` at most at its length. -/
theorem length_responseQueue_act {dev : Device} {n : Node} {i : Action} {r : Node.Result}
    (h : n.responseQueue.length ≤ queueLen) (hr : Node.act dev n i = some r) :
    r.1.responseQueue.length ≤ queueLen := by
  have hpolled : ∀ {e rest}, n.responseQueue = e :: rest → rest.length ≤ queueLen := by
    intro e rest hqueue
    rw [hqueue, List.length_cons] at h
    omega
  cases Node.act_cases hr with
  | returned happ hqueue => exact hpolled hqueue
  | waits happ hqueue => exact hpolled hqueue
  | resent happ hqueue => exact hpolled hqueue
  | queued htask => exact length_xQueueSend _ h
  | _ => exact h

/-- In every run, whatever happens on the air, `response_queue` has at most its length. -/
theorem length_responseQueue_le {cfg : Config} {rnd : UInt8 → UInt8 → Fin tokenMax.toNat}
    {encBuf : UInt8 → Mem UInt8} {ls : List Step} {net : LoraNet}
    (hrun : Lts.run (Network.step (machine cfg)) (booted rnd encBuf) ls = some net) (v : UInt8) :
    (net.nodes v).responseQueue.length ≤ queueLen := by
  refine Lts.run_inv (fun net l net' (hinv : ∀ v, (net.nodes v).responseQueue.length ≤ queueLen)
    (_ : True) hstep => ?_) (fun v => Nat.zero_le _)
    (Lts.along_of_forall_mem fun _ _ => trivial) hrun v
  refine Network.nodes_inv (fun _ n => n.responseQueue.length ≤ queueLen)
    (fun v n i r h hr => ?_) (fun v n p g r h hr => ?_) hinv hstep
  · exact length_responseQueue_act h (machine_act.mp hr).2
  · have hr' : Node.hear (cfg.device v) n p g = some r := hr
    rw [Node.hear] at hr'
    split at hr'
    · obtain rfl := Option.some.inj hr'
      exact h
    · cases hr'

/-- A network is at rest if its counterpart in the protocol is. -/
theorem quiet_of_rel {cfg : Config} {net : LoraNet} {net' : Protocol.Net} {s d : UInt8}
    (hrel : Refinement.NetRel cfg net net') (hair : net'.air = [])
    (htask : (net'.nodes s).task = .polling) (htask' : (net'.nodes d).task = .polling)
    (happ : (net'.nodes s).app = none) (happ' : (net'.nodes d).app = none)
    (hcounters : (net'.nodes s).sendToken d = (net'.nodes d).recvToken s)
    (hnext : (net'.nodes s).sendToken d + 1 < tokenMax.toNat) : Quiet net s d := by
  refine ⟨?_, (hrel.nodes s).polling_iff.mpr htask, (hrel.nodes d).polling_iff.mpr htask',
    (hrel.nodes s).app_eq_none_iff.mpr happ, (hrel.nodes d).app_eq_none_iff.mpr happ', ?_, ?_⟩
  · have h := hrel.air
    rw [hair] at h
    exact List.forall₂_nil_right_iff.mp h
  · rw [(hrel.nodes s).sendToken, (hrel.nodes d).recvToken, hcounters]
  · rw [(hrel.nodes s).sendToken]
    exact hnext

/-- **No answer is left over.** In every state of two nodes at rest, however it was reached, the
exchanges of a message are undisturbed exactly when there is room in the `response_queue` of the
sender and no answer in it that a call to `d` obeys. -/
theorem exchanges_iff (cfg : Config) (s d : UInt8) (hne : s ≠ d) (hs : s.toNat < cfg.netSize)
    (hd : d.toNat < cfg.netSize) (hsd : cfg.tables s d = d.toNat) (hds : cfg.tables d s = s.toNat)
    (rnd : UInt8 → UInt8 → Fin tokenMax.toNat) (encBuf : UInt8 → Mem UInt8) (ls : List Step)
    (net : LoraNet)
    (hrun : Lts.run (Network.step (machine cfg)) (booted rnd encBuf) ls = some net)
    (hquiet : Quiet net s d) (m : List UInt8) (hm : m.length ≤ 77) :
    Exchanges cfg net s d m ↔ (net.nodes s).responseQueue.length < queueLen ∧
      ∀ e ∈ (net.nodes s).responseQueue, ¬ Disturbs d e.1 := by
  have hsd' : UInt8.ofInt (cfg.tables s d) = d := by simp [hsd]
  have hds' : UInt8.ofInt (cfg.tables d s) = s := by simp [hds]
  constructor
  · exact clean_of_exchanges hne hs hd hds' hsd' hquiet hm (length_responseQueue_le hrun s)
  · rintro ⟨hroom, hclean⟩
    exact exchanges_of_clean hne hs hd hds' hsd' hquiet hm hroom hclean

/-- A byte goes from node `0` to node `1`. The next goes to node `2`, whose `ACK` is late and stays
in the queue of node `0`. -/
def stranger : List Step :=
  [.act 0 (.call 1 [6] null), .hear 1 0 .zero, .act 1 .put, .act 1 .transmit, .hear 0 0 .zero,
    .act 0 .put, .act 0 .poll, .act 0 (.call 2 [7] null), .hear 2 0 .zero, .act 2 .put,
    .act 0 .timeout, .act 2 .transmit, .hear 0 0 .zero, .act 0 .put]

/-- What is left over of the stranger does not disturb a call to node `1`. -/
theorem exchanges_stranger :
    ∃ net, Lts.run (Network.step (machine (Config.direct 3 (Equiv.refl Block) Crc8.crc8)))
        (booted (fun _ _ => ⟨0, by decide⟩) fun _ => null) stranger = some net ∧
      (∃ frame tag, (net.nodes 0).responseQueue = [(frame, tag)] ∧
        frame.buf framePosSendAddr = 2 ∧ frame.buf framePosType &&& typeMaskAck ≠ 0) ∧
      Quiet net 0 1 ∧
      Exchanges (Config.direct 3 (Equiv.refl Block) Crc8.crc8) net 0 1 [8] := by
  have hclean : ∀ l ∈ stranger, l.Clean := by
    simp [stranger, Step.Clean, Network.Label.Admits, Action.Fits]
  obtain ⟨net, net', hrun, -, hrel, hair, ⟨htask, htask'⟩, ⟨happ, happ'⟩, ⟨hsend, hrecv⟩, hqueue⟩ :=
    Refinement.exists_direct_state 3 (Equiv.refl Block) Crc8.crc8 (fun _ _ => ⟨0, by decide⟩)
      stranger hclean
      (fun net => net.air = [] ∧
        ((net.nodes 0).task = .polling ∧ (net.nodes 1).task = .polling) ∧
        ((net.nodes 0).app = none ∧ (net.nodes 1).app = none) ∧
        ((net.nodes 0).sendToken 1 = 1 ∧ (net.nodes 1).recvToken 0 = 1) ∧
        (net.nodes 0).responseQueue = [(2, .ack, (0, 1))]) (by decide)
  have hquiet : Quiet net 0 1 :=
    quiet_of_rel hrel hair htask htask' happ happ' (hsend.trans hrecv.symm) (by rw [hsend]; decide)
  obtain ⟨frame, tag, rest, hleft, hframe⟩ := (hrel.nodes 0).exists_response hqueue
  have hlen := (hrel.nodes 0).responseQueue.length_eq
  rw [hqueue, hleft, List.length_cons, List.length_singleton, Nat.add_eq_right,
    List.length_eq_zero_iff] at hlen
  rw [hlen] at hleft
  refine ⟨net, hrun, ⟨frame, tag, hleft, hframe.send, by rw [hframe.type]; decide⟩, hquiet, ?_⟩
  refine (exchanges_iff _ 0 1 (by decide) (by decide) (by decide) rfl rfl _ _ stranger net hrun
    hquiet [8] (by decide)).mpr ⟨by rw [hleft]; exact show 1 < queueLen by decide, ?_⟩
  intro e he hdisturbs
  rw [hleft] at he
  obtain rfl := List.mem_singleton.mp he
  exact absurd (hframe.send.symm.trans hdisturbs.1) (by decide)

/-- After the run the nodes are at rest, and the `ACK` disturbs the next call, under every AES key
and checksum, though no queue is full and no packet is lost, duplicated or altered. -/
theorem not_exchanges_lateAck :
    (∀ l ∈ lateAck, l.Clean) ∧ ¬ ∃ aes crc, ∀ net,
      Lts.run (Network.step (machine (Config.direct 2 aes crc)))
        (booted (fun _ _ => ⟨0, by decide⟩) fun _ => null) lateAck = some net →
      Quiet net 0 1 → Exchanges (Config.direct 2 aes crc) net 0 1 [8] := by
  have hclean : ∀ l ∈ lateAck, l.Clean := by
    simp [lateAck, Step.Clean, Network.Label.Admits, Action.Fits]
  refine ⟨hclean, ?_⟩
  rintro ⟨aes, crc, hexchanges⟩
  obtain ⟨net, net', hnet, -, hrel, hair, ⟨htask, htask'⟩, ⟨happ, happ'⟩, ⟨hsend, hrecv⟩, hqueue⟩ :=
    Refinement.exists_direct_state 2 aes crc (fun _ _ => ⟨0, by decide⟩) lateAck hclean
      (fun net => net.air = [] ∧
        ((net.nodes 0).task = .polling ∧ (net.nodes 1).task = .polling) ∧
        ((net.nodes 0).app = none ∧ (net.nodes 1).app = none) ∧
        ((net.nodes 0).sendToken 1 = 1 ∧ (net.nodes 1).recvToken 0 = 1) ∧
        (net.nodes 0).responseQueue = [(1, .ack, (0, 0))]) (by decide)
  have hquiet : Quiet net 0 1 :=
    quiet_of_rel hrel hair htask htask' happ happ' (hsend.trans hrecv.symm) (by rw [hsend]; decide)
  obtain ⟨frame, tag, rest, hleft, hframe⟩ := (hrel.nodes 0).exists_response hqueue
  have hs : (0 : UInt8).toNat < (Config.direct 2 aes crc).netSize := Nat.two_pos
  have hd : (1 : UInt8).toNat < (Config.direct 2 aes crc).netSize := Nat.one_lt_two
  have hclear := (clean_of_exchanges (by decide) hs hd rfl rfl hquiet (by decide)
    (length_responseQueue_le hnet 0) (hexchanges net hnet hquiet)).2
  rw [hleft] at hclear
  refine hclear (frame, tag) List.mem_cons_self ⟨hframe.send, .inl ?_⟩
  rw [hframe.type]
  decide

end Leftover

end LCore
