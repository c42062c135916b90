import LCore.Link

/-!
# The Script of an Exchange

A node calls another one over a good link. Such an exchange is a fixed script. It goes from the
call over the message, the queue of the receiver and the `ACK` back to the call; a message whose
token is not in the receiver's window is rejected, and goes out again under the token the receiver
asks for. `scene` gives what the two nodes and the air are at each stage, whatever the counters are
at the start. All that is left open is when the applications take messages out of their queues.

## Main results

* `advances_of_step`: every step takes the exchange on, or takes a message from a queue.
* `exists_step`: between the call and its return a step is possible.
* `events_over`: what the log says of an exchange that is over.
-/

namespace LCore

namespace Link

open Protocol (Body newPacket)
open Encryption (InWindow)

/-! ### The script -/

/-- The stages of an exchange. -/
inductive Stage
  | idle | sent | rejected | syncAir | syncHeld | syncQueued | held | ackDue | ackAir | ackHeld
  | ackQueued | finished
  deriving DecidableEq

/-- How far the exchange has come; `allow` tells whether the message may still be sent again. -/
def Stage.rank (allow : Bool) : Stage → ℕ
  | .idle => 0
  | .sent => if allow then 1 else 6
  | .rejected => 2
  | .syncAir => 3
  | .syncHeld => 4
  | .syncQueued => 5
  | .held => 7
  | .ackDue => 8
  | .ackAir => 9
  | .ackHeld => 10
  | .ackQueued => 11
  | .finished => 12

/-- How many messages the exchange has put into the receiver's queue. -/
def Stage.queued : Stage → ℕ
  | .ackDue | .ackAir | .ackHeld | .ackQueued | .finished => 1
  | _ => 0

/-- What of the network the exchange is about. -/
structure Scene where
  sendToken : ℕ
  calls : ℕ
  app : Option Protocol.Call
  senderTask : Protocol.Task
  answers : List (UInt8 × Body × Tag)
  recvToken : ℕ
  receiverTask : Protocol.Task
  receiverApp : Option Protocol.Call
  air : List Protocol.Packet

/-- Nothing is under way, and nobody waits. -/
def resting (sendToken calls recvToken : ℕ) : Scene :=
  ⟨sendToken, calls, none, .polling, [], recvToken, .polling, none, []⟩

section Script

variable (routes : Protocol.Routes) (s d : UInt8) (m : List UInt8) (k sendToken r : ℕ)

/-- The token of a new message. -/
def firstToken : ℕ := (sendToken + 1) % tokenMax.toNat

/-- The token of the message: the first one, or the one the receiver asks for. -/
def token (allow : Bool) : ℕ := if allow then firstToken sendToken else r + 1

/-- The message under its token. -/
def dataPacket (allow : Bool) : Protocol.Packet :=
  newPacket routes s d (.data (token sendToken r allow) m) (s, k)

/-- The receiver's demand. -/
def syncPacket : Protocol.Packet := newPacket routes d s (.sync (r + 1)) (s, k)

/-- The receiver's `ACK`. -/
def ackPacket : Protocol.Packet := newPacket routes d s .ack (s, k)

/-- The sender waits, and nothing is under way. -/
def begun (allow : Bool) : Scene where
  sendToken := token sendToken r allow
  calls := k + 1
  app := some ⟨d, token sendToken r allow, m, allow, (s, k)⟩
  senderTask := .polling
  answers := []
  recvToken := r
  receiverTask := .polling
  receiverApp := none
  air := []

/-- The receiver has taken the message. -/
def accepted (allow : Bool) : Scene :=
  { begun s d m k sendToken r allow with recvToken := token sendToken r allow }

/-- The scene at a stage of the `k`-th call of `s`, which counted to `sendToken` before, while `d`
counted to `r`. -/
def scene (allow : Bool) : Stage → Scene
  | .idle => resting sendToken k r
  | .sent =>
    { begun s d m k sendToken r allow with air := [dataPacket routes s d m k sendToken r allow] }
  | .rejected =>
    { begun s d m k sendToken r allow with receiverTask := .sending [syncPacket routes s d k r] }
  | .syncAir => { begun s d m k sendToken r allow with air := [syncPacket routes s d k r] }
  | .syncHeld =>
    { begun s d m k sendToken r allow with
      senderTask := .queueing (.response d (.sync (r + 1))) (s, k) }
  | .syncQueued =>
    { begun s d m k sendToken r allow with answers := [(d, .sync (r + 1), (s, k))] }
  | .held =>
    { accepted s d m k sendToken r allow with receiverTask := .queueing (.message s m) (s, k) }
  | .ackDue =>
    { accepted s d m k sendToken r allow with receiverTask := .sending [ackPacket routes s d k] }
  | .ackAir => { accepted s d m k sendToken r allow with air := [ackPacket routes s d k] }
  | .ackHeld =>
    { accepted s d m k sendToken r allow with senderTask := .queueing (.response d .ack) (s, k) }
  | .ackQueued => { accepted s d m k sendToken r allow with answers := [(d, .ack, (s, k))] }
  | .finished => resting (token sendToken r allow) (k + 1) (token sendToken r allow)

/-- The events up to the demand. -/
def rejectedEvents : List Event :=
  [.transmitted d (s, k) (typeMaskSync ||| typeMaskResend), .transmitted s (s, k) typeMaskNeedAck,
    .called (s, k) d m]

/-- The events up to the last data frame. -/
def sentEvents (allow : Bool) : List Event :=
  if allow then [.transmitted s (s, k) typeMaskNeedAck, .called (s, k) d m]
  else .transmitted s (s, k) typeMaskNeedAck :: rejectedEvents s d m k

/-- The events of the exchange up to a stage. -/
def events (allow : Bool) : Stage → List Event
  | .idle => []
  | .sent | .rejected | .held => sentEvents s d m k allow
  | .syncAir | .syncHeld | .syncQueued => rejectedEvents s d m k
  | .ackDue => .put d s m (s, k) :: sentEvents s d m k allow
  | .ackAir | .ackHeld | .ackQueued =>
    .transmitted d (s, k) typeMaskAck :: .put d s m (s, k) :: sentEvents s d m k allow
  | .finished => .returned (s, k) true (some (s, k)) :: .transmitted d (s, k) typeMaskAck ::
      .put d s m (s, k) :: sentEvents s d m k allow

/-- The receiver expects the token of a new message. -/
abbrev Expected : Prop := InWindow r (firstToken sendToken)

/-- A stage belongs to the exchange: the receiver demands another token if and only if the first
one is not in its window. -/
def Reached (allow : Bool) : Stage → Prop
  | .idle => allow = true
  | .sent => allow = false → ¬ Expected sendToken r
  | .rejected | .syncAir | .syncHeld | .syncQueued => allow = true ∧ ¬ Expected sendToken r
  | _ => allow = true ↔ Expected sendToken r

/-- What of the network the exchange is about. -/
def sceneOf (net : Protocol.Net) : Scene where
  sendToken := (net.nodes s).sendToken d
  calls := (net.nodes s).calls
  app := (net.nodes s).app
  senderTask := (net.nodes s).task
  answers := (net.nodes s).responseQueue
  recvToken := (net.nodes d).recvToken s
  receiverTask := (net.nodes d).task
  receiverApp := (net.nodes d).app
  air := net.air

/-- How many messages wait in the two nodes. -/
def queues (net : Protocol.Net) : ℕ :=
  (net.nodes s).newFrameQueue.length + (net.nodes d).newFrameQueue.length

/-- The exchange that begins in `start` is at a stage, and the applications have taken `taken`
messages since. -/
structure Shows (start net : Protocol.Net) (allow : Bool) (stage : Stage) (taken : ℕ) : Prop where
  reached : Reached sendToken r allow stage
  view : sceneOf s d net = scene routes s d m k sendToken r allow stage
  logged : ∃ new, net.log = new ++ start.log ∧
    new.filter notTaken = events s d m k allow stage
  balance : taken + queues s d net = queues s d start + stage.queued

/-- The exchange comes further. -/
def Advances (start net' : Protocol.Net) (allow : Bool) (stage : Stage) (taken : ℕ) : Prop :=
  ∃ allow' stage' taken', Shows routes s d m k sendToken r start net' allow' stage' taken' ∧
    stage.rank allow + taken < stage'.rank allow' + taken'

end Script

/-! ### The steps of the exchange -/

section Steps

variable {routes : Protocol.Routes} {s d : UInt8} {m : List UInt8} {k sendToken r : ℕ}
  {start net : Protocol.Net} {allow : Bool} {stage : Stage} {taken : ℕ}
  (h : Shows routes s d m k sendToken r start net allow stage taken) (hne : s ≠ d)

/-- Two nodes at rest are at the beginning of an exchange. -/
theorem shows_idle (routes : Protocol.Routes) (m : List UInt8)
    (hrest : sceneOf s d start = resting sendToken k r) :
    Shows routes s d m k sendToken r start start true .idle 0 :=
  ⟨rfl, hrest, ⟨[], rfl, rfl⟩, Nat.zero_add _⟩

include h

/-- The next scene, when the sender has moved. -/
theorem Shows.of_sender (hne : s ≠ d) {n : Protocol.Node} {air : List Protocol.Packet}
    {new : List Event} {allow' : Bool} {stage' : Stage} {taken' : ℕ}
    (hreached : Reached sendToken r allow' stage')
    (hscene : { scene routes s d m k sendToken r allow stage with
        sendToken := n.sendToken d, calls := n.calls, app := n.app, senderTask := n.task,
        answers := n.responseQueue, air := air } =
      scene routes s d m k sendToken r allow' stage')
    (hevents : new.filter notTaken ++ events s d m k allow stage =
      events s d m k allow' stage')
    (htaken : taken' + n.newFrameQueue.length + stage.queued =
      taken + (net.nodes s).newFrameQueue.length + stage'.queued) :
    Shows routes s d m k sendToken r start ⟨Function.update net.nodes s n, air, new ++ net.log⟩
      allow' stage' taken' where
  reached := hreached
  view := by
    rw [← hscene, ← h.view]
    simp only [sceneOf, Function.update_self, Function.update_of_ne hne.symm]
  logged := by
    obtain ⟨old, hlog, hold⟩ := h.logged
    refine ⟨new ++ old, by simp only [hlog, List.append_assoc], ?_⟩
    rw [List.filter_append, hold, hevents]
  balance := by
    have hold := h.balance
    simp only [queues, Function.update_self, Function.update_of_ne hne.symm] at hold ⊢
    omega

/-- The next scene, when the receiver has moved. -/
theorem Shows.of_receiver (hne : s ≠ d) {n : Protocol.Node} {air : List Protocol.Packet}
    {new : List Event} {allow' : Bool} {stage' : Stage} {taken' : ℕ}
    (hreached : Reached sendToken r allow' stage')
    (hscene : { scene routes s d m k sendToken r allow stage with
        recvToken := n.recvToken s, receiverTask := n.task, receiverApp := n.app, air := air } =
      scene routes s d m k sendToken r allow' stage')
    (hevents : new.filter notTaken ++ events s d m k allow stage =
      events s d m k allow' stage')
    (htaken : taken' + n.newFrameQueue.length + stage.queued =
      taken + (net.nodes d).newFrameQueue.length + stage'.queued) :
    Shows routes s d m k sendToken r start ⟨Function.update net.nodes d n, air, new ++ net.log⟩
      allow' stage' taken' where
  reached := hreached
  view := by
    rw [← hscene, ← h.view]
    simp only [sceneOf, Function.update_self, Function.update_of_ne hne]
  logged := by
    obtain ⟨old, hlog, hold⟩ := h.logged
    refine ⟨new ++ old, by simp only [hlog, List.append_assoc], ?_⟩
    rw [List.filter_append, hold, hevents]
  balance := by
    have hold := h.balance
    simp only [queues, Function.update_self, Function.update_of_ne hne] at hold ⊢
    omega

/-- What the sender is at a stage. -/
theorem Shows.sender : (net.nodes s).sendToken d =
      (scene routes s d m k sendToken r allow stage).sendToken ∧
    (net.nodes s).calls = (scene routes s d m k sendToken r allow stage).calls ∧
    (net.nodes s).app = (scene routes s d m k sendToken r allow stage).app ∧
    (net.nodes s).task = (scene routes s d m k sendToken r allow stage).senderTask ∧
    (net.nodes s).responseQueue = (scene routes s d m k sendToken r allow stage).answers := by
  rw [← h.view]
  exact ⟨rfl, rfl, rfl, rfl, rfl⟩

/-- What the receiver is at a stage. -/
theorem Shows.receiver : (net.nodes d).recvToken s =
      (scene routes s d m k sendToken r allow stage).recvToken ∧
    (net.nodes d).task = (scene routes s d m k sendToken r allow stage).receiverTask ∧
    (net.nodes d).app = (scene routes s d m k sendToken r allow stage).receiverApp := by
  rw [← h.view]
  exact ⟨rfl, rfl, rfl⟩

/-- What is on the air at a stage. -/
theorem Shows.air : net.air = (scene routes s d m k sendToken r allow stage).air := by
  rw [← h.view]
  rfl

/-- The sender waits from the call to its return. -/
theorem Shows.app_eq_none_iff : (net.nodes s).app = none ↔ stage = .idle ∨ stage = .finished := by
  rw [h.sender.2.2.1]
  cases stage with
  | idle => exact iff_of_true rfl (.inl rfl)
  | finished => exact iff_of_true rfl (.inr rfl)
  | _ => exact iff_of_false (Option.some_ne_none _) (by simp)

/-- The answers the call finds in its queue. -/
theorem answer_cases {c : Protocol.Call} {entry : UInt8 × Body × Tag}
    {rest : List (UInt8 × Body × Tag)} (happ : (net.nodes s).app = some c)
    (hqueue : (net.nodes s).responseQueue = entry :: rest) :
    rest = [] ∧ c = ⟨d, token sendToken r allow, m, allow, (s, k)⟩ ∧
      (stage = .syncQueued ∧ entry = (d, .sync (r + 1), (s, k)) ∨
        stage = .ackQueued ∧ entry = (d, .ack, (s, k))) := by
  obtain ⟨-, -, happ', -, hqueue'⟩ := h.sender
  rw [happ] at happ'
  rw [hqueue] at hqueue'
  cases stage with
  | syncQueued =>
      obtain ⟨hentry, hrest⟩ := List.cons.inj hqueue'
      exact ⟨hrest, Option.some.inj happ', .inl ⟨rfl, hentry⟩⟩
  | ackQueued =>
      obtain ⟨hentry, hrest⟩ := List.cons.inj hqueue'
      exact ⟨hrest, Option.some.inj happ', .inr ⟨rfl, hentry⟩⟩
  | _ => exact absurd hqueue' (by simp [scene, begun, accepted, resting])

include hne

/-- The sender calls. -/
theorem called_step (hstage : stage = .idle) :
    Advances routes s d m k sendToken r start
      (acted net s
        ({ net.nodes s with
          sendToken := Function.update (net.nodes s).sendToken d (firstToken sendToken)
          app := some ⟨d, firstToken sendToken, m, true, (s, k)⟩
          calls := k + 1 },
        [newPacket routes s d (.data (firstToken sendToken) m) (s, k)],
        [(newPacket routes s d (.data (firstToken sendToken) m) (s, k)).event,
          .called (s, k) d m])) allow stage taken := by
  subst hstage
  obtain ⟨-, -, -, htask, hanswers⟩ := h.sender
  obtain rfl : allow = true := h.reached
  refine ⟨true, .sent, taken, h.of_sender hne nofun ?_ rfl rfl, ?_⟩
  · simp only [htask, hanswers, h.air, Function.update_self]
    rfl
  · simp [Stage.rank]

/-- The sender takes the `ACK`. -/
theorem returned_step (hstage : stage = .ackQueued) :
    Advances routes s d m k sendToken r start
      (acted net s ({ net.nodes s with responseQueue := [], app := none }, [],
        [.returned (s, k) true (some (s, k))])) allow stage taken := by
  subst hstage
  obtain ⟨hsend, hcalls, -, htask, -⟩ := h.sender
  refine ⟨allow, .finished, taken, h.of_sender hne h.reached ?_ rfl rfl, ?_⟩
  · simp only [hsend, hcalls, htask, h.air, List.append_nil]
    rfl
  · simp [Stage.rank]

/-- The sender follows the demand. -/
theorem resent_step (hstage : stage = .syncQueued) :
    Advances routes s d m k sendToken r start
      (acted net s (Protocol.Node.resend routes s
        { net.nodes s with
          responseQueue := []
          sendToken := Function.update (net.nodes s).sendToken d (r + 1) }
        ⟨d, r + 1, m, true, (s, k)⟩)) allow stage taken := by
  subst hstage
  obtain ⟨-, hcalls, -, htask, -⟩ := h.sender
  obtain ⟨rfl, hnot⟩ := h.reached
  refine ⟨false, .sent, taken, h.of_sender hne (fun _ => hnot) ?_ rfl rfl, ?_⟩
  · simp only [Protocol.Node.resend, hcalls, htask, h.air, Function.update_self]
    rfl
  · simp [Stage.rank]

/-- The listener of the sender puts an answer into the queue. -/
theorem queued_step {send : UInt8} {body : Body} {tag : Tag}
    (htask : (net.nodes s).task = .queueing (.response send body) tag) :
    Advances routes s d m k sendToken r start
      (acted net s ({ net.nodes s with
        responseQueue := (xQueueSend (net.nodes s).responseQueue (send, body, tag)).2
        task := .polling }, [], [])) allow stage taken := by
  obtain ⟨hsend, hcalls, happ, htask', hanswers⟩ := h.sender
  rw [htask] at htask'
  have hreached := h.reached
  cases stage with
  | syncHeld =>
      obtain ⟨hentry, rfl⟩ := Protocol.Task.queueing.inj htask'
      obtain ⟨rfl, rfl⟩ := Protocol.Entry.response.inj hentry
      refine ⟨allow, .syncQueued, taken, h.of_sender hne hreached ?_ rfl rfl, ?_⟩
      · simp only [hsend, hcalls, happ, hanswers, h.air, List.append_nil]
        rfl
      · simp [Stage.rank]
  | ackHeld =>
      obtain ⟨hentry, rfl⟩ := Protocol.Task.queueing.inj htask'
      obtain ⟨rfl, rfl⟩ := Protocol.Entry.response.inj hentry
      refine ⟨allow, .ackQueued, taken, h.of_sender hne hreached ?_ rfl rfl, ?_⟩
      · simp only [hsend, hcalls, happ, hanswers, h.air, List.append_nil]
        rfl
      · simp [Stage.rank]
  | _ => exact absurd htask' (by simp [scene, begun, accepted, resting])

/-- The sender takes a message from its own queue. -/
theorem Shows.taken_sender {e : UInt8 × List UInt8 × Tag} {rest : List (UInt8 × List UInt8 × Tag)}
    (hqueue : (net.nodes s).newFrameQueue = e :: rest) {send : UInt8} {m' : List UInt8} :
    Advances routes s d m k sendToken r start
      (acted net s ({ net.nodes s with newFrameQueue := rest }, [], [.taken s send m']))
      allow stage taken := by
  obtain ⟨hsend, hcalls, happ, htask, hanswers⟩ := h.sender
  refine ⟨allow, stage, taken + 1, h.of_sender hne h.reached ?_ rfl ?_, by omega⟩
  · simp only [hsend, hcalls, happ, htask, hanswers, h.air, List.append_nil]
  · simp only [hqueue, List.length_cons]
    omega

/-- What the sender does on its own. The call it makes is that of the exchange. -/
theorem sender_step {ms : List (List UInt8)} {room : UInt8 → Bool} {i : Action}
    {res : Protocol.Node.Result} (hacts : Protocol.Node.Acts routes s (net.nodes s) i res)
    (hlink : OnLink s d ms (net.nodes s).calls room (.act s i))
    (hcall : (net.nodes s).app = none → ∀ m', ms[(net.nodes s).calls]? = some m' →
      stage = .idle ∧ m' = m) :
    Advances routes s d m k sendToken r start (acted net s res) allow stage taken := by
  obtain ⟨hsend, hcalls, -, htask', -⟩ := h.sender
  cases hacts with
  | called happ htoken =>
      obtain ⟨-, rfl, hm⟩ := hlink
      obtain ⟨rfl, rfl⟩ := hcall happ _ hm
      rw [hsend] at htoken
      obtain rfl := htoken
      rw [hcalls]
      exact called_step h hne rfl
  | returned result happ hqueue =>
      obtain ⟨rfl, rfl, ⟨-, hentry⟩ | ⟨hstage, hentry⟩⟩ := answer_cases h happ hqueue
      · cases result with
        | _ => exact absurd hentry (by simp)
      · cases result with
        | false => exact absurd hentry (by simp)
        | true =>
            obtain ⟨-, -, rfl⟩ := hentry
            exact returned_step h hne hstage
  | ignored happ hqueue hentry =>
      obtain ⟨-, rfl, ⟨-, rfl⟩ | ⟨-, rfl⟩⟩ := answer_cases h happ hqueue
      · exact absurd (hentry rfl) (by simp)
      · exact absurd (hentry rfl) (by simp)
  | synced happ hallow hqueue =>
      obtain ⟨-, rfl, ⟨rfl, -⟩ | ⟨-, hentry⟩⟩ := answer_cases h happ hqueue
      · have htrue : allow = true := h.reached.1
        rw [htrue] at hallow
        cases hallow
      · exact absurd hentry (by simp)
  | resent happ hallow hqueue htoken hcounter =>
      obtain ⟨rfl, rfl, ⟨hstage, hentry⟩ | ⟨-, hentry⟩⟩ := answer_cases h happ hqueue
      · obtain ⟨-, rfl, rfl⟩ := hentry
        obtain rfl := Body.sync.inj (htoken.resolve_left (by simp))
        obtain rfl := hcounter _ rfl
        obtain rfl : allow = true := hallow
        exact resent_step h hne hstage
      · obtain ⟨-, rfl, -⟩ := hentry
        exact absurd htoken (by simp)
  | timedOut happ => exact hlink.elim
  | taken hqueue => exact h.taken_sender hne hqueue
  | queued htask => exact queued_step h hne htask
  | put htask hroom =>
      rw [htask] at htask'
      cases stage with
      | _ => exact absurd htask' (by simp [scene, begun, accepted, resting])
  | refused htask hfull =>
      rw [htask] at htask'
      cases stage with
      | _ => exact absurd htask' (by simp [scene, begun, accepted, resting])
  | transmitted htask =>
      rw [htask] at htask'
      cases stage with
      | _ => exact absurd htask' (by simp [scene, begun, accepted, resting])

/-- The receiver puts the message into its queue. -/
theorem put_step {send : UInt8} {m' : List UInt8} {tag : Tag}
    (htask : (net.nodes d).task = .queueing (.message send m') tag) :
    Advances routes s d m k sendToken r start
      (acted net d ({ net.nodes d with
        newFrameQueue := (net.nodes d).newFrameQueue ++ [(send, m', tag)]
        task := .sending [newPacket routes d send .ack tag] }, [], [.put d send m' tag]))
      allow stage taken := by
  obtain ⟨hrecv, htask', happ⟩ := h.receiver
  rw [htask] at htask'
  have hreached := h.reached
  cases stage with
  | held =>
      obtain ⟨hentry, rfl⟩ := Protocol.Task.queueing.inj htask'
      obtain ⟨rfl, rfl⟩ := Protocol.Entry.message.inj hentry
      refine ⟨allow, .ackDue, taken, h.of_receiver hne hreached ?_ rfl ?_, ?_⟩
      · simp only [hrecv, happ, h.air, List.append_nil]
        rfl
      · simp [Stage.queued, Nat.add_assoc]
      · simp [Stage.rank]
  | _ => exact absurd htask' (by simp [scene, begun, accepted, resting])

/-- The receiver transmits what it owes. -/
theorem transmitted_step {p : Protocol.Packet} {rest : List Protocol.Packet}
    (htask : (net.nodes d).task = .sending (p :: rest)) :
    Advances routes s d m k sendToken r start
      (acted net d ({ net.nodes d with task := Protocol.Task.owing rest }, [p], [p.event]))
      allow stage taken := by
  obtain ⟨hrecv, htask', happ⟩ := h.receiver
  rw [htask] at htask'
  have hreached := h.reached
  cases stage with
  | rejected =>
      obtain ⟨rfl, rfl⟩ := List.cons.inj (Protocol.Task.sending.inj htask')
      obtain ⟨rfl, hnot⟩ := hreached
      refine ⟨true, .syncAir, taken, h.of_receiver hne ⟨rfl, hnot⟩ ?_ rfl rfl, ?_⟩
      · simp only [hrecv, happ, h.air]
        rfl
      · simp [Stage.rank]
  | ackDue =>
      obtain ⟨rfl, rfl⟩ := List.cons.inj (Protocol.Task.sending.inj htask')
      refine ⟨allow, .ackAir, taken, h.of_receiver hne hreached ?_ rfl rfl, ?_⟩
      · simp only [hrecv, happ, h.air]
        rfl
      · simp [Stage.rank]
  | _ => exact absurd htask' (by simp [scene, begun, accepted, resting])

/-- What the receiver does on its own. -/
theorem receiver_step {ms : List (List UInt8)} {calls : ℕ} {i : Action}
    {res : Protocol.Node.Result} (hacts : Protocol.Node.Acts routes d (net.nodes d) i res)
    (hlink : OnLink s d ms calls (fun v => (net.nodes v).hasRoom) (.act d i)) :
    Advances routes s d m k sendToken r start (acted net d res) allow stage taken := by
  obtain ⟨hrecv, htask', happ'⟩ := h.receiver
  have hnoApp : (net.nodes d).app = none := by
    rw [happ']
    cases stage with
    | _ => rfl
  cases hacts with
  | called happ htoken => exact absurd hlink.1.symm hne
  | returned result happ => exact nomatch happ.symm.trans hnoApp
  | ignored happ => exact nomatch happ.symm.trans hnoApp
  | synced happ => exact nomatch happ.symm.trans hnoApp
  | resent happ => exact nomatch happ.symm.trans hnoApp
  | timedOut happ => exact hlink.elim
  | @taken send m' tag rest hqueue =>
      refine ⟨allow, stage, taken + 1, h.of_receiver hne h.reached ?_ rfl ?_, by omega⟩
      · simp only [hrecv, htask', happ', h.air, List.append_nil]
      · simp only [hqueue, List.length_cons]
        omega
  | queued htask =>
      rw [htask] at htask'
      cases stage with
      | _ => exact absurd htask' (by simp [scene, begun, accepted, resting])
  | put htask hroom => exact put_step h hne htask
  | refused htask hfull =>
      have hroom := hlink.2
      simp only [Protocol.Node.hasRoom, htask, decide_eq_true_eq] at hroom
      exact absurd hroom hfull
  | transmitted htask => exact transmitted_step h hne htask

/-- The receiver hears the message. -/
theorem heard_step (hsd : UInt8.ofInt (routes.tables s d) = d) (hnext : r + 1 < tokenMax.toNat)
    (hstage : stage = .sent) {res : Protocol.Node × List Event}
    (hr : Protocol.Node.hear routes d (net.nodes d)
      (dataPacket routes s d m k sendToken r allow) = some res) :
    Advances routes s d m k sendToken r start (heard net d [] res) allow stage taken := by
  subst hstage
  obtain ⟨hrecv, htask, happ⟩ := h.receiver
  have hreached : allow = false → ¬ Expected sendToken r := h.reached
  have hrecv' : (net.nodes d).recvToken s = r := hrecv
  have hheard := hear_data routes (p := dataPacket routes s d m k sendToken r allow) htask hsd rfl
    rfl
  have hsend : (dataPacket routes s d m k sendToken r allow).send = s := rfl
  rw [hheard, hsend, hrecv', Nat.mod_eq_of_lt hnext] at hr
  obtain rfl := Option.some.inj hr
  by_cases hwindow : InWindow r (token sendToken r allow)
  · rw [if_pos hwindow]
    have hheld : allow = true ↔ Expected sendToken r := by
      cases allow with
      | true => exact iff_of_true rfl hwindow
      | false => exact iff_of_false Bool.false_ne_true (hreached rfl)
    refine ⟨allow, .held, taken, h.of_receiver hne hheld ?_ rfl rfl, ?_⟩
    · simp only [happ, Function.update_self]
      rfl
    · cases allow with
      | _ => simp [Stage.rank]
  · rw [if_neg hwindow]
    have hallow : allow = true := by
      cases allow with
      | true => rfl
      | false => exact absurd (⟨by simp [token], by simp [token]⟩ : InWindow _ _) hwindow
    subst hallow
    refine ⟨true, .rejected, taken, h.of_receiver hne ⟨rfl, hwindow⟩ ?_ rfl rfl, ?_⟩
    · simp only [happ, hrecv]
      rfl
    · simp [Stage.rank]

/-- The sender hears an answer. -/
theorem answered_step (hds : UInt8.ofInt (routes.tables d s) = s) (body : Body)
    (hbody : ∀ token m, body ≠ .data token m) (stage' : Stage)
    (hreached : Reached sendToken r allow stage')
    (htask : (scene routes s d m k sendToken r allow stage).senderTask = .polling)
    (hscene : { scene routes s d m k sendToken r allow stage with
        senderTask := .queueing (.response d body) (s, k), air := [] } =
      scene routes s d m k sendToken r allow stage')
    (hevents : events s d m k allow stage = events s d m k allow stage')
    (hqueued : stage.queued = stage'.queued) (hrank : stage.rank allow < stage'.rank allow)
    {res : Protocol.Node × List Event}
    (hr : Protocol.Node.hear routes s (net.nodes s) (newPacket routes d s body (s, k)) =
      some res) :
    Advances routes s d m k sendToken r start (heard net s [] res) allow stage taken := by
  obtain ⟨hsend, hcalls, happ, htask', hanswers⟩ := h.sender
  have hheard := hear_answer routes (p := newPacket routes d s body (s, k)) (htask'.trans htask)
    hds rfl hbody
  rw [hheard] at hr
  obtain rfl := Option.some.inj hr
  refine ⟨allow, stage', taken, h.of_sender hne hreached ?_ hevents ?_, by omega⟩
  · rw [← hscene]
    simp only [hsend, hcalls, happ, hanswers]
    rfl
  · dsimp only
    omega

/-- What is heard. -/
theorem hear_step (hsd : UInt8.ofInt (routes.tables s d) = d)
    (hds : UInt8.ofInt (routes.tables d s) = s)
    (hnext : stage = .sent → r + 1 < tokenMax.toNat) {v : UInt8} {i : ℕ}
    {p : Protocol.Packet} {res : Protocol.Node × List Event} (hv : v = s ∨ v = d)
    (hp : net.air[i]? = some p) (hother : v ≠ p.origin)
    (hr : Protocol.Node.hear routes v (net.nodes v) p = some res) :
    Advances routes s d m k sendToken r start
      (heard net v (if p.next = v then net.air.eraseIdx i else net.air) res) allow stage taken := by
  have hreached := h.reached
  have hair := h.air
  cases stage with
  | sent =>
      obtain ⟨rfl, hrest⟩ := Network.eq_of_getElem?_singleton hair hp
      obtain rfl : v = d := hv.resolve_left hother
      have hto : (dataPacket routes s v m k sendToken r allow).next = v := hsd
      rw [if_pos hto, hrest]
      exact heard_step h hne hsd (hnext rfl) rfl hr
  | syncAir =>
      obtain ⟨rfl, hrest⟩ := Network.eq_of_getElem?_singleton hair hp
      obtain rfl : v = s := hv.resolve_right hother
      have hto : (syncPacket routes v d k r).next = v := hds
      rw [if_pos hto, hrest]
      exact answered_step h hne hds (.sync (r + 1)) nofun .syncHeld hreached rfl rfl rfl rfl
        (by simp [Stage.rank]) hr
  | ackAir =>
      obtain ⟨rfl, hrest⟩ := Network.eq_of_getElem?_singleton hair hp
      obtain rfl : v = s := hv.resolve_right hother
      have hto : (ackPacket routes v d k).next = v := hds
      rw [if_pos hto, hrest]
      exact answered_step h hne hds .ack nofun .ackHeld hreached rfl rfl rfl rfl
        (by simp [Stage.rank]) hr
  | _ => rw [hair] at hp; exact absurd hp (by simp [scene, begun, accepted, resting])

/-- **The steps of the exchange.** Each of them takes it on, or takes a message from a queue, if the
next call on the link is that of the exchange. -/
theorem advances_of_step (hsd : UInt8.ofInt (routes.tables s d) = d)
    (hds : UInt8.ofInt (routes.tables d s) = s) (hnext : stage = .sent → r + 1 < tokenMax.toNat)
    {ms : List (List UInt8)}
    (hcall : (net.nodes s).app = none → ∀ m', ms[(net.nodes s).calls]? = some m' →
      stage = .idle ∧ m' = m)
    {l : Step} {net' : Protocol.Net} (hlink : OnLinkP s d ms net l)
    (hstep : Network.step (Protocol.machine routes) net l = some net') :
    Advances routes s d m k sendToken r start net' allow stage taken := by
  cases l with
  | act v i =>
      obtain ⟨res, hr, rfl⟩ := Network.step_act.mp hstep
      have hacts := Protocol.Node.act_cases (Protocol.machine_act.mp hr).2
      rcases hlink.node with rfl | rfl
      · exact sender_step h hne hacts hlink hcall
      · exact receiver_step h hne hacts hlink
  | hear v i g =>
      obtain ⟨p, res, hp, haud, hr, rfl⟩ := Network.step_hear.mp hstep
      have hother := (Protocol.machine_audible.mp haud).2
      have hheard := hear_step h hne hsd hds hnext hlink hp hother hr
      have hconsumes : ((Protocol.machine routes).consumes v p = true) = (p.next = v) :=
        propext beq_iff_eq
      simp only [hconsumes]
      exact hheard
  | lose i => exact hlink.elim
  | duplicate i => exact hlink.elim
  | alter i c => exact hlink.elim

/-- Between the call and its return a step is possible. -/
theorem exists_step (hs : s.toNat < routes.netSize) (hd : d.toNat < routes.netSize)
    (ms : List (List UInt8)) (happ : (net.nodes s).app ≠ none) :
    ∃ l, OnLinkP s d ms net l ∧ Network.step (Protocol.machine routes) net l ≠ none := by
  have hwaits := h.app_eq_none_iff
  obtain ⟨-, -, happ', hsenderTask, hanswers⟩ := h.sender
  obtain ⟨-, htask, -⟩ := h.receiver
  cases stage with
  | idle => exact absurd (hwaits.mpr (.inl rfl)) happ
  | sent =>
      exact ⟨.hear d 0 .zero, .inr rfl, step_hear_ne_none hd h.air hne.symm (hear_ne_none htask)⟩
  | rejected =>
      exact ⟨.act d .transmit, .inr rfl, step_act_ne_none hd (transmit_ne_none htask)⟩
  | syncAir =>
      exact ⟨.hear s 0 .zero, .inl rfl, step_hear_ne_none hs h.air hne (hear_ne_none hsenderTask)⟩
  | syncHeld =>
      exact ⟨.act s .put, ⟨.inl rfl, hasRoom_of_answers hsenderTask hanswers⟩,
        step_act_ne_none hs (put_ne_none hsenderTask)⟩
  | syncQueued =>
      exact ⟨.act s .poll, .inl rfl, step_act_ne_none hs (poll_ne_none happ' hanswers)⟩
  | held =>
      by_cases hroom : (net.nodes d).hasRoom = true
      · exact ⟨.act d .put, ⟨.inr rfl, hroom⟩, step_act_ne_none hd (put_ne_none htask)⟩
      · -- the queue is full, and its application takes a message
        have hfull : (net.nodes d).newFrameQueue ≠ [] := fun hempty =>
          hroom (hasRoom_of_messages htask hempty)
        exact ⟨.act d .take, .inr rfl, step_act_ne_none hd (take_ne_none hfull)⟩
  | ackDue =>
      exact ⟨.act d .transmit, .inr rfl, step_act_ne_none hd (transmit_ne_none htask)⟩
  | ackAir =>
      exact ⟨.hear s 0 .zero, .inl rfl, step_hear_ne_none hs h.air hne (hear_ne_none hsenderTask)⟩
  | ackHeld =>
      exact ⟨.act s .put, ⟨.inl rfl, hasRoom_of_answers hsenderTask hanswers⟩,
        step_act_ne_none hs (put_ne_none hsenderTask)⟩
  | ackQueued =>
      exact ⟨.act s .poll, .inl rfl, step_act_ne_none hs (poll_ne_none happ' hanswers)⟩
  | finished => exact absurd (hwaits.mpr (.inr rfl)) happ

end Steps

/-! ### The end of the exchange -/

/-- The script has an end. -/
theorem Stage.rank_add_queued_le (allow : Bool) (stage : Stage) :
    stage.rank allow + stage.queued ≤ 13 := by
  cases stage with
  | sent => cases allow with | _ => simp [Stage.rank, Stage.queued]
  | _ => simp [Stage.rank, Stage.queued]

/-- What the log says of an exchange that is over: the call has returned `true` and did not fail
before, its message was put into the queue of `d` and nothing else was, and its frame was
transmitted twice if another token was asked for. -/
theorem events_over (s d : UInt8) (m : List UInt8) (k : ℕ) (allow : Bool) :
    .returned (s, k) true (some (s, k)) ∈ events s d m k allow .finished ∧
      (∀ tag cause, .returned tag false cause ∉ events s d m k allow .finished) ∧
      puts d (events s d m k allow .finished) = [(s, m)] ∧
      ∀ tag, transmissions s tag (events s d m k allow .finished) =
        if tag = (s, k) then if allow then 1 else 2 else 0 := by
  have hack : typeMaskAck ≠ typeMaskNeedAck := by decide
  have hsync : typeMaskSync ||| typeMaskResend ≠ typeMaskNeedAck := by decide
  refine ⟨List.mem_cons_self, fun tag cause hfalse => ?_, ?_, fun tag => ?_⟩
  · cases allow with
    | _ => simp [events, sentEvents, rejectedEvents] at hfalse
  · cases allow with
    | _ => simp [events, sentEvents, rejectedEvents, puts]
  · by_cases htag : tag = (s, k)
    · cases allow with
      | _ => simp [events, sentEvents, rejectedEvents, transmissions, hack, hsync, htag]
    · have hother : ¬ (s, k) = tag := fun h => htag h.symm
      cases allow with
      | _ => simp [events, sentEvents, rejectedEvents, transmissions, hack, hsync, htag, hother]

end Link

end LCore
