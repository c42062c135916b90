import LCore.Link
import LCore.Mail

/-!
# A Call That Waits

While a call waits, its message is at a stage, and it has taken from `response_queue` some of what
was there before. Such an exchange goes on, ends with the `ACK` of its own message, or is spoiled
by an answer to another one.

## Main results

* `exists_call`: the call that starts an exchange.
* `Going.of_passes`, `Going.of_poll`: what becomes of an exchange under way with a step.
* `Going.exists_step`: while the answer was not lost, a step is possible.
-/

open Memory

namespace LCore

namespace Leftover

open Link (transmissions)

/-! ### The exchange -/

/-- No call is in progress, nothing is in flight, the two counters are equal, and the next token
is one. -/
structure Quiet (net : LoraNet) (s d : UInt8) : Prop where
  air : net.air = []
  senderTask : (net.nodes s).task = .polling
  receiverTask : (net.nodes d).task = .polling
  senderApp : (net.nodes s).app = none
  receiverApp : (net.nodes d).app = none
  counters : Encryption.counter ((net.nodes s).listener.globals.sendTokens d) =
    Encryption.counter ((net.nodes d).listener.globals.recvTokens s)
  next : Encryption.counter ((net.nodes s).listener.globals.sendTokens d) + 1 < tokenMax.toNat

/-- How many steps an exchange from `net` may take after the call. -/
def bound (net : LoraNet) (s d : UInt8) : ℕ :=
  15 + (net.nodes s).responseQueue.length + (net.nodes s).newFrameQueue.length +
    (net.nodes d).newFrameQueue.length

/-! ### The run of an exchange -/

section Run

/-- An exchange is under way: the call made in `start` waits, its message is at a stage, and
`rest` of what was in the queue is still there. -/
structure Going (cfg : Config) (start : LoraNet) (s d : UInt8) (net : LoraNet) (stage : Stage)
    (rest : List (LoraFrame × Tag)) (new : List Event) : Prop where
  mail : Mail cfg s d net stage
  app : ∃ c, (net.nodes s).app = some c ∧ Waits d (s, (start.nodes s).calls) c
  receiverApp : (net.nodes d).app = none
  queue : (net.nodes s).responseQueue = rest ++ stage.answers
  log : net.log = new ++ start.log
  once : transmissions s (s, (start.nodes s).calls) new = 1
  notReturned : ∀ result cause, .returned (s, (start.nodes s).calls) result cause ∉ new

/-- The call has taken the `ACK` of its own message. -/
structure Done (cfg : Config) (start : LoraNet) (s d : UInt8) (net : LoraNet) (stage : Stage)
    (new : List Event) : Prop where
  mail : Mail cfg s d net stage
  answered : stage.answers ≠ []
  app : (net.nodes s).app = none
  receiverApp : (net.nodes d).app = none
  queue : (net.nodes s).responseQueue = []
  log : net.log = new ++ start.log
  once : transmissions s (s, (start.nodes s).calls) new = 1
  notFailed : ∀ cause, .returned (s, (start.nodes s).calls) false cause ∉ new
  returned : ∃ cause, .returned (s, (start.nodes s).calls) true cause ∈ new

/-- The call has failed, or has sent its message again. -/
def Failed (start : LoraNet) (s : UInt8) (net : LoraNet) : Prop :=
  ∃ new, net.log = new ++ start.log ∧
    ((∃ cause, .returned (s, (start.nodes s).calls) false cause ∈ new) ∨
      1 < transmissions s (s, (start.nodes s).calls) new)

/-- The call has returned, and the `ACK` for its message is not taken. -/
structure Stale (cfg : Config) (s d : UInt8) (net : LoraNet) (stage : Stage)
    (rest : List (LoraFrame × Tag)) : Prop where
  mail : Mail cfg s d net stage
  app : (net.nodes s).app = none
  receiverApp : (net.nodes d).app = none
  queue : (net.nodes s).responseQueue = rest ++ stage.answers

variable {cfg : Config} {start net net' : LoraNet} {s d : UInt8} {stage stage' : Stage}
  {rest : List (LoraFrame × Tag)} {new more : List Event} {l : Step}

/-- What is not notable is no transmission. -/
theorem transmissions_of_not_notable {tag : Tag} (h : ∀ e ∈ more, ¬ Notable s e) :
    transmissions s tag (more ++ new) = transmissions s tag new := by
  have hzero : more.count (.transmitted s tag typeMaskNeedAck) = 0 :=
    List.count_eq_zero.mpr fun hmem => h _ hmem rfl
  rw [transmissions, List.count_append, hzero, Nat.zero_add]
  rfl

/-- What is not notable is no return of a call. -/
theorem returned_mem_of_not_notable {tag : Tag} {result : Bool} {cause : Option Tag}
    (h : ∀ e ∈ more, ¬ Notable s e) :
    .returned tag result cause ∈ more ++ new ↔ .returned tag result cause ∈ new := by
  have hnot : Event.returned tag result cause ∉ more := fun hmem => h _ hmem trivial
  rw [List.mem_append, or_iff_right hnot]

/-- A return is no transmission. -/
theorem transmissions_cons_returned {tag : Tag} {result : Bool} {cause : Option Tag} (tag' : Tag) :
    transmissions s tag (.returned tag' result cause :: new) = transmissions s tag new :=
  List.count_cons_of_ne (by simp)

/-- What is in the queue stays there, and answers come after it. -/
theorem queue_of_passes (hqueue : (net.nodes s).responseQueue = rest ++ stage.answers)
    (hpasses : Passes cfg s d net stage net' stage') :
    (net'.nodes s).responseQueue = rest ++ stage'.answers := by
  obtain ⟨more, hmore, hanswers, -⟩ := hpasses.queue
  rw [hmore, hqueue, hanswers, List.append_assoc]

/-- With room in the queue the `ACK` is not lost. -/
theorem not_lost_of_passes (hqueue : (net.nodes s).responseQueue = rest ++ stage.answers)
    (hpasses : Passes cfg s d net stage net' stage') (hroom : rest.length < queueLen)
    (hlost : stage ≠ .lost) : stage' ≠ .lost := by
  intro hlost'
  have hnil : stage.answers = [] := by
    obtain ⟨more, -, hanswers, -⟩ := hpasses.queue
    rw [hlost'] at hanswers
    exact (List.append_eq_nil_iff.mp hanswers.symm).1
  rcases hpasses.full hlost' with h | hfull
  · exact hlost h
  · rw [hqueue, hnil, List.append_nil] at hfull
    omega

/-- An exchange under way goes on with the message. -/
theorem Going.of_passes (h : Going cfg start s d net stage rest new)
    (hpasses : Passes cfg s d net stage net' stage') :
    ∃ new', Going cfg start s d net' stage' rest new' := by
  obtain ⟨more, hlog, hquiet⟩ := hpasses.log
  refine ⟨more ++ new, hpasses.mail, ?_, hpasses.receiverApp.trans h.receiverApp,
    queue_of_passes h.queue hpasses, ?_, ?_, ?_⟩
  · rw [hpasses.senderApp]
    exact h.app
  · rw [hlog, h.log, List.append_assoc]
  · rw [transmissions_of_not_notable hquiet]
    exact h.once
  · intro result cause
    rw [returned_mem_of_not_notable hquiet]
    exact h.notReturned result cause

/-- So does one whose `ACK` was taken. -/
theorem Done.of_passes (h : Done cfg start s d net stage new)
    (hpasses : Passes cfg s d net stage net' stage') :
    ∃ new', Done cfg start s d net' stage' new' := by
  obtain ⟨more, hlog, hquiet⟩ := hpasses.log
  obtain ⟨answers, hqueue, hanswers, -⟩ := hpasses.queue
  obtain ⟨e, he⟩ := List.exists_mem_of_ne_nil _ h.answered
  have hone := (Stage.answers_of_fits h.mail.fits he).1
  have he' : e ∈ stage'.answers := by
    rw [hanswers]
    exact List.mem_append_left _ he
  have hone' := (Stage.answers_of_fits hpasses.mail.fits he').1
  rw [hone, hone', List.singleton_append, List.cons.injEq] at hanswers
  have hnil := hanswers.2
  refine ⟨more ++ new, hpasses.mail, List.ne_nil_of_mem he', hpasses.senderApp.trans h.app,
    hpasses.receiverApp.trans h.receiverApp, ?_, ?_, ?_, ?_, ?_⟩
  · rw [hqueue, h.queue, ← hnil, List.append_nil]
  · rw [hlog, h.log, List.append_assoc]
  · rw [transmissions_of_not_notable hquiet]
    exact h.once
  · intro cause
    rw [returned_mem_of_not_notable hquiet]
    exact h.notFailed cause
  · obtain ⟨cause, hcause⟩ := h.returned
    exact ⟨cause, List.mem_append_right _ hcause⟩

/-- So does one whose call has returned early. -/
theorem Stale.of_passes (h : Stale cfg s d net stage rest)
    (hpasses : Passes cfg s d net stage net' stage') : Stale cfg s d net' stage' rest :=
  ⟨hpasses.mail, hpasses.senderApp.trans h.app, hpasses.receiverApp.trans h.receiverApp,
    queue_of_passes h.queue hpasses⟩

/-- A poll leaves the message where it is. -/
theorem Mail.of_poll (h : Mail cfg s d net stage) (hne : s ≠ d) {n : Node} {log : List Event}
    (htask : n.task = (net.nodes s).task) :
    Mail cfg s d ⟨Function.update net.nodes s n, net.air ++ [], log⟩ stage := by
  have hs : Function.update net.nodes s n s = n := Function.update_self ..
  have hd : Function.update net.nodes s n d = net.nodes d := Function.update_of_ne hne.symm ..
  refine ⟨(List.append_nil _).trans h.air, ?_, ?_, ?_⟩
  · simp only [hs, htask, h.sender]
  · simp only [hd, h.receiver]
  · simpa only [hd] using h.fits

section Poll

variable (hne : s ≠ d) {r : Node.Result}
  (hr : Node.poll (cfg.device s) (net.nodes s) = some r)
  (hnet' : net' = ⟨Function.update net.nodes s r.1, net.air ++ r.2.1, r.2.2 ++ net.log⟩)

include hne hr hnet'

/-- With nothing else in the queue, the call takes the `ACK` of its own message. -/
theorem Going.taken_of_poll (h : Going cfg start s d net stage [] new) :
    weight net' s d stage < weight net s d stage ∧
      ∃ new', Done cfg start s d net' stage new' := by
  obtain ⟨c, happ, hwaits⟩ := h.app
  have hs : ∀ n, Function.update net.nodes s n s = n := fun n => Function.update_self ..
  have hd : ∀ n, Function.update net.nodes s n d = net.nodes d :=
    fun n => Function.update_of_ne hne.symm ..
  have hqueue := h.queue
  rw [List.nil_append] at hqueue
  cases hanswers : stage.answers with
  | nil =>
      simp only [Node.poll, happ, hqueue, hanswers] at hr
      cases hr
  | cons e more =>
      have hmem : e ∈ stage.answers := by
        rw [hanswers]
        exact List.mem_cons_self
      obtain ⟨hone, hsend, hack⟩ := Stage.answers_of_fits h.mail.fits hmem
      rw [hone] at hqueue
      rw [poll_ack hwaits happ hqueue hsend hack] at hr
      obtain rfl := Option.some.inj hr
      subst hnet'
      refine ⟨?_, .returned (s, (start.nodes s).calls) true (some e.2) :: new,
        h.mail.of_poll hne rfl, List.ne_nil_of_mem hmem, ?_, ?_, ?_, ?_, ?_, ?_, ?_⟩
      · simp only [weight, load, hs, hd, hqueue, List.length_cons]
        omega
      · simp only [hs]
      · simp only [hd, h.receiverApp]
      · simp only [hs]
      · simp only [h.log, List.cons_append, List.nil_append]
      · exact (transmissions_cons_returned ..).trans h.once
      · intro cause hmem
        simp [h.notReturned] at hmem
      · exact ⟨_, List.mem_cons_self⟩

variable {e : LoraFrame × Tag}

/-- An answer the call does not obey is dropped. -/
theorem Going.dropped_of_poll (h : Going cfg start s d net stage (e :: rest) new)
    (hnot : ¬ Disturbs d e.1) :
    Going cfg start s d net' stage rest new ∧ weight net' s d stage < weight net s d stage := by
  obtain ⟨c, happ, hwaits⟩ := h.app
  have hs : ∀ n, Function.update net.nodes s n s = n := fun n => Function.update_self ..
  have hd : ∀ n, Function.update net.nodes s n d = net.nodes d :=
    fun n => Function.update_of_ne hne.symm ..
  have hqueue := h.queue
  rw [List.cons_append] at hqueue
  obtain ⟨listener, c', hwaits', hpoll⟩ := poll_of_not_disturbs hwaits happ hqueue hnot
  rw [hpoll] at hr
  obtain rfl := Option.some.inj hr
  subst hnet'
  refine ⟨⟨h.mail.of_poll hne rfl, ⟨c', ?_, hwaits'⟩, ?_, ?_, h.log, h.once, h.notReturned⟩, ?_⟩
  · simp only [hs]
  · simp only [hd, h.receiverApp]
  · simp only [hs]
  · simp only [weight, load, hs, hd, hqueue, List.length_cons]
    omega

/-- An answer the call obeys spoils the exchange. -/
theorem Going.spoiled_of_poll (h : Going cfg start s d net stage (e :: rest) new)
    (hdisturbs : Disturbs d e.1) : Failed start s net' ∨ Stale cfg s d net' stage rest := by
  obtain ⟨c, happ, hwaits⟩ := h.app
  have hs : ∀ n, Function.update net.nodes s n s = n := fun n => Function.update_self ..
  have hd : ∀ n, Function.update net.nodes s n d = net.nodes d :=
    fun n => Function.update_of_ne hne.symm ..
  have hqueue := h.queue
  rw [List.cons_append] at hqueue
  have hlog : net'.log = (r.2.2 ++ new) ++ start.log := by
    rw [hnet', h.log, List.append_assoc]
  rcases poll_of_disturbs hwaits happ hqueue hdisturbs hr with rfl | hfalse | htwice
  · subst hnet'
    refine .inr ⟨h.mail.of_poll hne rfl, ?_, ?_, ?_⟩
    · simp only [hs]
    · simp only [hd, h.receiverApp]
    · simp only [hs]
  · exact .inl ⟨r.2.2 ++ new, hlog, .inl ⟨_, List.mem_append_left _ hfalse⟩⟩
  · refine .inl ⟨r.2.2 ++ new, hlog, .inr ?_⟩
    have honce := h.once
    have hpos := List.count_pos_iff.mpr htwice
    rw [transmissions] at honce ⊢
    rw [List.count_append]
    omega

/-- A poll of the call under way. -/
theorem Going.of_poll (h : Going cfg start s d net stage rest new) :
    (∃ e rest', rest = e :: rest' ∧ ¬ Disturbs d e.1 ∧
        Going cfg start s d net' stage rest' new ∧ weight net' s d stage < weight net s d stage) ∨
      (rest = [] ∧ weight net' s d stage < weight net s d stage ∧
        ∃ new', Done cfg start s d net' stage new') ∨
      ∃ e rest', rest = e :: rest' ∧ Disturbs d e.1 ∧
        (Failed start s net' ∨ Stale cfg s d net' stage rest') := by
  cases rest with
  | nil => exact .inr (.inl ⟨rfl, h.taken_of_poll hne hr hnet'⟩)
  | cons e rest =>
      by_cases hdisturbs : Disturbs d e.1
      · exact .inr (.inr ⟨e, rest, rfl, hdisturbs, h.spoiled_of_poll hne hr hnet' hdisturbs⟩)
      · exact .inl ⟨e, rest, rfl, hdisturbs, h.dropped_of_poll hne hr hnet' hdisturbs⟩

end Poll

/-! #### Progress -/

section Progress

variable (hs : s.toNat < cfg.netSize) (hd : d.toNat < cfg.netSize)

/-- What a node can do the network can. -/
theorem act_ne_none {v : UInt8} {i : Action} (hv : v.toNat < cfg.netSize)
    (hact : Node.act (cfg.device v) (net.nodes v) i ≠ none) :
    Network.step (machine cfg) net (.act v i) ≠ none := by
  obtain ⟨r, hr⟩ := Option.ne_none_iff_exists'.mp hact
  exact Network.step_act_ne_none (by simp [machine_act.mpr ⟨hv, hr⟩])

/-- A packet on the air can be heard by a node that polls. -/
theorem hear_ne_none {v : UInt8} {p : Packet} (hv : v.toNat < cfg.netSize) (hair : net.air = [p])
    (hother : v ≠ p.origin) (htask : (net.nodes v).task = .polling) :
    Network.step (machine cfg) net (.hear v 0 .zero) ≠ none := by
  have hp : net.air[0]? = some p := by
    rw [hair]
    rfl
  refine Network.step_hear_ne_none hp (machine_audible.mpr ⟨hv, hother⟩) ?_
  simp [machine, Node.hear, htask]

/-- A call can poll when there is something in the queue. -/
theorem poll_ne_none {dev : Device} {n : Node} {c : Call} {e : LoraFrame × Tag}
    {more : List (LoraFrame × Tag)} (happ : n.app = some c) (hqueue : n.responseQueue = e :: more) :
    Node.poll dev n ≠ none := by
  simp only [Node.poll, happ, hqueue]
  split
  · exact Option.some_ne_none _
  · exact Option.some_ne_none _
  · exact Option.some_ne_none _

/-- A message can be taken when there is one. -/
theorem take_ne_none {dev : Device} {n : Node} (hqueue : n.newFrameQueue ≠ []) :
    Node.take dev n ≠ none := by
  obtain ⟨e, more, hqueue⟩ := List.exists_cons_of_ne_nil hqueue
  simp [Node.take, hqueue]

include hs hd

/-- A message that is under way can be taken on. -/
theorem exists_passes (h : Mail cfg s d net stage) (hne : s ≠ d)
    (hds : UInt8.ofInt (cfg.tables d s) = s) (happ : (net.nodes d).app = none)
    (hleft : 0 < stage.left) :
    ∃ l net' stage', OnExchange s d net l ∧ Network.step (machine cfg) net l = some net' ∧
      Passes cfg s d net stage net' stage' := by
  -- any step that is not a poll will do
  suffices hstep : ∃ l, OnExchange s d net l ∧ l ≠ .act s .poll ∧
      Network.step (machine cfg) net l ≠ none by
    obtain ⟨l, hex, hpoll, hstep⟩ := hstep
    obtain ⟨net', hnet'⟩ := Option.ne_none_iff_exists'.mp hstep
    obtain ⟨stage', hpasses⟩ := passes_of_step hne h hds happ hex hpoll hnet'
    exact ⟨l, net', stage', hex, hnet', hpasses⟩
  have hsender := h.sender
  have hreceiver := h.receiver
  cases stage with
  | sent p =>
      have hother : d ≠ p.origin := fun heq => hne (h.fits.1.symm.trans heq.symm)
      exact ⟨.hear d 0 .zero, .inr rfl, (by simp), hear_ne_none hd h.air hother hreceiver⟩
  | held entry tag =>
      by_cases hroom : (net.nodes d).hasRoom = true
      · refine ⟨.act d .put, .inr ⟨rfl, hroom⟩, (by simp), act_ne_none hd ?_⟩
        rw [Node.act, put_message hreceiver hroom]
        exact Option.some_ne_none _
      · refine ⟨.act d .take, .inr rfl, (by simp), act_ne_none hd (take_ne_none fun hempty => ?_)⟩
        refine hroom ?_
        simp [Node.hasRoom, hreceiver, Stage.receiver, hempty, queueLen]
  | ackDue tag =>
      refine ⟨.act d .transmit, .inr rfl, (by simp), act_ne_none hd ?_⟩
      rw [Node.act, transmit_single hreceiver]
      exact Option.some_ne_none _
  | ackAir tag =>
      exact ⟨.hear s 0 .zero, .inl rfl, (by simp), hear_ne_none hs h.air hne hsender⟩
  | ackHeld frame tag =>
      refine ⟨.act s .put, .inl rfl, (by simp), act_ne_none hs ?_⟩
      rw [Node.act, put_response hsender]
      exact Option.some_ne_none _
  | ackQueued frame tag => exact absurd hleft (Nat.lt_irrefl 0)
  | lost => exact absurd hleft (Nat.lt_irrefl 0)

/-- While the call waits for an answer that was not lost, a step is possible. -/
theorem Going.exists_step (h : Going cfg start s d net stage rest new) (hne : s ≠ d)
    (hds : UInt8.ofInt (cfg.tables d s) = s) (hlost : stage ≠ .lost) :
    ∃ l, OnExchange s d net l ∧ Network.step (machine cfg) net l ≠ none := by
  by_cases hleft : 0 < stage.left
  · obtain ⟨l, net', stage', hex, hstep, -⟩ :=
      exists_passes hs hd h.mail hne hds h.receiverApp hleft
    exact ⟨l, hex, by simp [hstep]⟩
  · obtain ⟨c, happ, -⟩ := h.app
    have hanswers := Stage.answers_ne_nil_iff.mpr ⟨by omega, hlost⟩
    obtain ⟨e, more, hqueue⟩ := List.exists_cons_of_ne_nil (List.append_ne_nil_of_right_ne_nil rest
      hanswers)
    exact ⟨.act s .poll, .inl rfl, act_ne_none hs (poll_ne_none happ (h.queue.trans hqueue))⟩

end Progress

/-- Nothing is under way exactly when nothing is left to come. -/
theorem Mail.rests_iff (h : Mail cfg s d net stage) :
    net.air = [] ∧ (net.nodes s).task = .polling ∧ (net.nodes d).task = .polling ↔
      stage.left = 0 := by
  rw [h.air, h.sender, h.receiver]
  cases stage with
  | _ => simp [Stage.air, Stage.sender, Stage.receiver, Stage.left]

/-! #### The call -/

/-- The call that starts an exchange. -/
theorem exists_call (hd : d.toNat < cfg.netSize) (hs : s.toNat < cfg.netSize) (hne : s ≠ d)
    (hsd : UInt8.ofInt (cfg.tables s d) = d) (hquiet : Quiet start s d) {m : List UInt8}
    (hm : m.length ≤ 77) (encrypted : Mem UInt8) :
    ∃ net₀ p new,
      Network.step (machine cfg) start (.act s (.call d m encrypted)) = some net₀ ∧
        Going cfg start s d net₀ (.sent p) (start.nodes s).responseQueue new ∧
        weight net₀ s d (.sent p) = bound start s d := by
  have hnext := hquiet.next
  obtain ⟨globals, c, p, hcall, hwaits, horigin, htag, hbytes⟩ := call_eq (v := s)
    hquiet.senderApp hd hsd hm encrypted hnext
  have hself : ∀ n, Function.update start.nodes s n s = n := fun n => Function.update_self ..
  have hother : ∀ n, Function.update start.nodes s n d = start.nodes d :=
    fun n => Function.update_of_ne hne.symm ..
  have htype : p.event = .transmitted s (s, (start.nodes s).calls) typeMaskNeedAck := by
    rw [Packet.event, Packet.type, horigin, htag, hbytes]
    rfl
  have hact : (machine cfg).act s (start.nodes s) (.call d m encrypted) = _ :=
    (if_pos hs).trans hcall
  refine ⟨_, p, [p.event, .called (s, (start.nodes s).calls) d m],
    Network.step_act.mpr ⟨_, hact, rfl⟩,
    ⟨⟨?_, ?_, ?_, ?_⟩, ⟨c, ?_, hwaits⟩, ?_, ?_, rfl, ?_, ?_⟩, ?_⟩
  · simp only [hquiet.air, List.nil_append, Stage.air]
  · simp only [hself, hquiet.senderTask, Stage.sender]
  · simp only [hother, hquiet.receiverTask, Stage.receiver]
  · simp only [hother, Stage.Fits]
    refine ⟨horigin, _, m, hbytes, hm, hnext, ?_⟩
    rw [hquiet.counters]
    omega
  · simp only [hself]
  · simp only [hother, hquiet.receiverApp]
  · simp only [hself, Stage.answers, List.append_nil]
  · simp [transmissions, htype]
  · simp [htype]
  · simp only [weight, load, bound, hself, hother, Stage.left]
    omega

end Run

end Leftover

end LCore
