import LCore.Actions
import LCore.Integrity
import LCore.Link

/-!
# Messages Leave a Node in the Order They Came

Between the listener and the application lies `new_frame_queue`. In every run, with packets of
any content on the air, what the application of a node has taken and what is still in the queue
is what the listener has put there, in this order. Nothing is lost between the two tasks, nothing
is taken twice, and at most four messages wait.

Without altered packets every message that is taken was also sent, by the node it is said to come
from.

## Main results

* `fifo`: the queue of every node in every run.
* `taken_sent`: the way of a message from `send_with_ack` to `try_receive`.
-/

open Memory

namespace LCore

namespace Queue

open Link (takes takes_append puts puts_append)

/-- A message that has been put. -/
theorem mem_puts {v send : UInt8} {m : List UInt8} {log : List Event} :
    (send, m) ∈ puts v log ↔ ∃ tag, .put v send m tag ∈ log := by
  rw [puts, List.mem_filterMap]
  constructor
  · rintro ⟨e, he, heq⟩
    cases e with
    | put d send' m' tag =>
        simp only [Option.ite_none_right_eq_some, Option.some.injEq, Prod.mk.injEq] at heq
        obtain ⟨rfl, rfl, rfl⟩ := heq
        exact ⟨tag, he⟩
    | _ => cases heq
  · rintro ⟨tag, htag⟩
    exact ⟨_, htag, if_pos rfl⟩

/-- An entry of `new_frame_queue` as `try_receive` hands it over. -/
def content (e : NewMsg × Tag) : UInt8 × List UInt8 :=
  (e.1.address, cells e.1.msg e.1.msgSize.toNat)

/-- What a node has taken is what its listener has put, up to what is still in the queue. -/
structure Fifo (v : UInt8) (n : Node) (log : List Event) : Prop where
  order : (takes v log).reverse ++ n.newFrameQueue.map content = (puts v log).reverse
  room : n.newFrameQueue.length ≤ queueLen

/-! ### The steps of a node -/

/-- What an action does to `new_frame_queue`. -/
inductive Queues (v : UInt8) (n : Node) (r : Node.Result) : Prop
  | kept (hqueue : r.1.newFrameQueue = n.newFrameQueue)
      (htakes : ∀ a, takes a r.2.2 = []) (hputs : ∀ a, puts a r.2.2 = [])
  | taken {e : NewMsg × Tag} (hqueue : n.newFrameQueue = e :: r.1.newFrameQueue)
      (hlog : r.2.2 = [.taken v (content e).1 (content e).2])
  | put {e : NewMsg × Tag} (hroom : n.newFrameQueue.length < queueLen)
      (hqueue : r.1.newFrameQueue = n.newFrameQueue ++ [e])
      (hlog : r.2.2 = [.put v (content e).1 (content e).2 e.2])

/-- An action does to the queue what its events say. -/
theorem queues_of_act {dev : Device} {n : Node} {i : Action} {r : Node.Result}
    (hr : Node.act dev n i = some r) : Queues dev.address n r := by
  cases Node.act_cases hr with
  | taken hqueue => exact .taken hqueue rfl
  | put htask hroom => exact .put hroom rfl rfl
  | _ => exact .kept rfl (fun _ => rfl) fun _ => rfl

/-- A node that hears something leaves its queue alone and reports nothing. -/
theorem queue_of_hear {dev : Device} {n : Node} {p : Packet} {locals : Node.Locals}
    {r : Node × List Event} (hr : Node.hear dev n p locals = some r) :
    r.1.newFrameQueue = n.newFrameQueue ∧ r.2 = [] := by
  rw [Node.hear] at hr
  split at hr
  · obtain rfl := Option.some.inj hr
    exact ⟨rfl, rfl⟩
  · cases hr

section Fifo

variable {v : UInt8} {n : Node} {log : List Event} (h : Fifo v n log)

include h

/-- So the account of the queue stays right. -/
theorem Fifo.queues {r : Node.Result} (hr : Queues v n r) : Fifo v r.1 (r.2.2 ++ log) := by
  obtain ⟨horder, hroom⟩ := h
  cases hr with
  | kept hqueue htakes hputs =>
      refine ⟨?_, hqueue ▸ hroom⟩
      rw [takes_append, puts_append, htakes, hputs, hqueue]
      exact horder
  | @taken e hqueue hlog =>
      rw [hqueue, List.map_cons] at horder
      rw [hqueue, List.length_cons] at hroom
      refine ⟨?_, by omega⟩
      have htakes : takes v r.2.2 = [content e] := by simp [hlog, takes]
      have hputs : puts v r.2.2 = [] := by simp [hlog, puts]
      rw [takes_append, puts_append, htakes, hputs, List.singleton_append, List.reverse_cons,
        List.append_assoc]
      exact horder
  | @put e hlt hqueue hlog =>
      have htakes : takes v r.2.2 = [] := by simp [hlog, takes]
      have hputs : puts v r.2.2 = [content e] := by simp [hlog, puts]
      refine ⟨?_, ?_⟩
      · rw [takes_append, puts_append, htakes, hputs, hqueue, List.map_append, List.nil_append,
          List.singleton_append, List.reverse_cons, ← List.append_assoc, horder]
        rfl
      · rw [hqueue, List.length_append, List.length_singleton]
        exact hlt

/-- What another node does is none of its business. -/
theorem Fifo.other {b : UInt8} {n' : Node} {r : Node.Result} (hne : v ≠ b)
    (hr : Queues b n' r) : Fifo v n (r.2.2 ++ log) := by
  have hnone : takes v r.2.2 = [] ∧ puts v r.2.2 = [] := by
    cases hr with
    | kept _ htakes hputs => exact ⟨htakes v, hputs v⟩
    | taken _ hlog => simp [hlog, takes, puts, hne.symm]
    | put _ _ hlog => simp [hlog, takes, puts, hne]
  refine ⟨?_, h.room⟩
  rw [takes_append, puts_append, hnone.1, hnone.2]
  exact h.order

end Fifo

/-! ### The runs -/

/-- It is right in every run. -/
theorem fifo_run {cfg : Config} {rnd : UInt8 → UInt8 → Fin tokenMax.toNat}
    {encBuf : UInt8 → Mem UInt8} {ls : List Step} {net : LoraNet}
    (hrun : Lts.run (Network.step (machine cfg)) (booted rnd encBuf) ls = some net) (v : UInt8) :
    Fifo v (net.nodes v) net.log := by
  refine Lts.run_inv (fun net l net' (hinv : ∀ v, Fifo v (net.nodes v) net.log) (_ : True)
    hstep => ?_) (fun v => ⟨rfl, Nat.zero_le _⟩) (Lts.along_of_forall_mem fun _ _ => trivial) hrun v
  refine Network.log_inv Fifo (fun v n i r log h hr => ?_) (fun v n p g r log h hr => ?_)
    (fun v b n n' i r log hne h hr => ?_) (fun v b n n' p g r log _ h hr => ?_) hinv hstep
  · exact h.queues (queues_of_act (machine_act.mp hr).2)
  · obtain ⟨hqueue, hlog⟩ := queue_of_hear hr
    rw [hlog]
    exact ⟨hqueue ▸ h.order, hqueue ▸ h.room⟩
  · exact h.other hne (queues_of_act (machine_act.mp hr).2)
  · rw [(queue_of_hear hr).2]
    exact h

/-- **The queue of new messages.** In every run, whatever happens on the air and whatever the
packets contain, what the application of a node has taken and then what waits in the queue is what
the listener has put there, the oldest first; at most four messages wait. -/
theorem fifo (cfg : Config) {rnd : UInt8 → UInt8 → Fin tokenMax.toNat}
    {encBuf : UInt8 → Mem UInt8} {ls : List Step} {net : LoraNet}
    (hrun : Lts.run (Network.step (machine cfg)) (booted rnd encBuf) ls = some net) (v : UInt8) :
    (takes v net.log).reverse ++ (net.nodes v).newFrameQueue.map content =
        (puts v net.log).reverse ∧
      (net.nodes v).newFrameQueue.length ≤ queueLen :=
  ⟨(fifo_run hrun v).order, (fifo_run hrun v).room⟩

/-- **From `send_with_ack` to `try_receive`.** If the medium alters nothing, then every message
that the application of `d` has taken is one that the node whose address it has passed to
`send_with_ack` for `d`, and the messages came out in the order in which they were put in. -/
theorem taken_sent (cfg : Config) {rnd : UInt8 → UInt8 → Fin tokenMax.toNat}
    {encBuf : UInt8 → Mem UInt8} {ls : List Step} (hclean : ∀ l ∈ ls, l.Clean) {net : LoraNet}
    (hrun : Lts.run (Network.step (machine cfg)) (booted rnd encBuf) ls = some net) (d : UInt8) :
    (takes d net.log).reverse <+: (puts d net.log).reverse ∧
      ∀ s m, (s, m) ∈ takes d net.log → ∃ k, .called (s, k) d m ∈ net.log := by
  have hfifo := fifo_run hrun d
  have hordered : (takes d net.log).reverse <+: (puts d net.log).reverse := ⟨_, hfifo.order⟩
  refine ⟨hordered, fun s m hmem => ?_⟩
  obtain ⟨tag, hput⟩ := mem_puts.mp
    (List.mem_reverse.mp (hordered.subset (List.mem_reverse.mpr hmem)))
  obtain ⟨net', hrun', hrel⟩ := Refinement.exists_protocol_run cfg hclean hrun
  have hgrounded := Integrity.grounded_run (fun l hl => (hclean l hl).faithful) hrun'
  rw [hrel.log] at hput ⊢
  obtain ⟨newer, older, hlog⟩ := List.append_of_mem hput
  obtain ⟨hcalled, rfl⟩ := hgrounded.log _ older ⟨newer, hlog.symm⟩
  exact ⟨tag.2, hlog ▸ List.mem_append_right _ (List.mem_cons_of_mem _ hcalled)⟩

/-- Two messages are sent, and one of them is taken. -/
def oneTaken : List Step :=
  [.act 0 (.call 1 [7] null), .hear 1 0 .zero, .act 1 .put, .act 1 .transmit, .hear 0 0 .zero,
    .act 0 .put, .act 0 .poll, .act 0 (.call 1 [8] null), .hear 1 0 .zero, .act 1 .put,
    .act 1 .take]

/-- No packet of the run is altered, and its messages fit. -/
theorem oneTaken_clean : ∀ l ∈ oneTaken, l.Clean := by
  simp [oneTaken, Step.Clean, Network.Label.Admits, Action.Fits]

/-- The run goes through: one of two messages was taken. -/
theorem exists_oneTaken :
    ∃ net, Lts.run (Network.step (machine (Config.direct 2 (Equiv.refl Block) Crc8.crc8)))
        (booted (fun _ _ => ⟨0, by decide⟩) fun _ => null) oneTaken = some net ∧
      takes 1 net.log = [(0, [7])] ∧ puts 1 net.log = [(0, [8]), (0, [7])] := by
  obtain ⟨net, hrun, hlog⟩ := Refinement.exists_code_run
    (Config.direct 2 (Equiv.refl Block) Crc8.crc8) (fun _ _ => ⟨0, by decide⟩) (fun _ => null)
    [.taken 1 0 [7], .put 1 0 [8] (0, 1), .transmitted 0 (0, 1) typeMaskNeedAck,
      .called (0, 1) 1 [8], .returned (0, 0) true (some (0, 0)),
      .transmitted 1 (0, 0) typeMaskAck, .put 1 0 [7] (0, 0),
      .transmitted 0 (0, 0) typeMaskNeedAck, .called (0, 0) 1 [7]] oneTaken_clean (by decide)
  exact ⟨net, hrun, by rw [hlog]; rfl, by rw [hlog]; rfl⟩

/-- The other one is in the queue. -/
theorem fifo_oneTaken :
    ∃ net, Lts.run (Network.step (machine (Config.direct 2 (Equiv.refl Block) Crc8.crc8)))
        (booted (fun _ _ => ⟨0, by decide⟩) fun _ => null) oneTaken = some net ∧
      (takes 1 net.log).reverse ++ (net.nodes 1).newFrameQueue.map content =
        (puts 1 net.log).reverse ∧
      (net.nodes 1).newFrameQueue.length ≤ queueLen := by
  obtain ⟨net, hrun, -⟩ := exists_oneTaken
  exact ⟨net, hrun, fifo _ hrun 1⟩

/-- The one that was taken is the older, and was sent. -/
theorem taken_sent_oneTaken :
    ∃ net, Lts.run (Network.step (machine (Config.direct 2 (Equiv.refl Block) Crc8.crc8)))
        (booted (fun _ _ => ⟨0, by decide⟩) fun _ => null) oneTaken = some net ∧
      (0, [7]) ∈ takes 1 net.log ∧ (takes 1 net.log).reverse <+: (puts 1 net.log).reverse ∧
      ∀ s m, (s, m) ∈ takes 1 net.log → ∃ k, .called (s, k) 1 m ∈ net.log := by
  obtain ⟨net, hrun, htakes, -⟩ := exists_oneTaken
  exact ⟨net, hrun, htakes ▸ List.mem_cons_self, taken_sent _ oneTaken_clean hrun 1⟩

end Queue

end LCore
