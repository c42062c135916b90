import LCore.Letters
import LCore.Travel

/-!
# What the Callers See of a Step

A network that nothing disturbs is one small machine for each caller, of which at most one moves
with a step. A letter changes hands in most steps, which no caller sees; the others are the turns of
the exchange it belongs to.

## Main results

* `call_of_answer`, `send_of_data`, `send_of_message`: whose letter it is.
* `follows_act`, `follows_hear`: an action, and hearing a packet, is a turn of one exchange, and
  none of the others sees it.
-/

namespace LCore

namespace Exchanges

open Network
open Protocol (Body newPacket)
open Link (acted heard)
open Encryption (InWindow)
open Relays (Talks)

/-! ### Where the letters are -/

section Letters

variable {v : UInt8} {n : Protocol.Node}

/-- What is no data frame is an answer. -/
theorem contentOf_eq {body : Body} (h : ∀ token m, body ≠ .data token m) :
    contentOf body = .answer body := by
  cases body with
  | data token m => exact absurd rfl (h token m)
  | _ => rfl

/-- The letters of a node are with its listener and in its queue. -/
theorem nodeLetters_congr {n' : Protocol.Node} (htask : n'.task = n.task)
    (hqueue : n'.responseQueue = n.responseQueue) : nodeLetters v n' = nodeLetters v n := by
  rw [nodeLetters, nodeLetters, htask, hqueue]

/-- The letters of what is owed. -/
theorem taskLetters_owing (packets : List Protocol.Packet) :
    taskLetters v (Protocol.Task.owing packets) =
      (packets : Multiset Protocol.Packet).map letterOf := by
  cases packets with
  | nil => rfl
  | cons p packets => rfl

/-- An entry more in the queue is a letter more. -/
theorem queueLetters_append (queue : List (UInt8 × Body × Tag)) (e : UInt8 × Body × Tag) :
    queueLetters v (queue ++ [e]) = queueLetters v queue + {⟨e.1, v, .answer e.2.1, e.2.2⟩} := by
  rw [queueLetters, ← Multiset.coe_add, Multiset.map_add]
  rfl

/-- The letters of a node that takes an entry out of its queue. -/
theorem nodeLetters_cons {send : UInt8} {body : Body} {tag : Tag}
    {rest : List (UInt8 × Body × Tag)} (hqueue : n.responseQueue = (send, body, tag) :: rest) :
    nodeLetters v n =
      nodeLetters v { n with responseQueue := rest } + {⟨send, v, .answer body, tag⟩} := by
  have hcons : queueLetters v ((send, body, tag) :: rest) =
      queueLetters v rest + {⟨send, v, .answer body, tag⟩} := by
    rw [queueLetters, ← Multiset.cons_coe, Multiset.map_cons, ← Multiset.singleton_add, add_comm]
    rfl
  rw [nodeLetters, nodeLetters, hqueue, hcons, add_assoc]

variable {net : Protocol.Net} {s : UInt8} {x : Letter} {rest : Multiset Letter}

/-- Letters of `s` alone. -/
theorem lettersOf_eq_self (h : ∀ x ∈ rest, x.tag.1 = s) : lettersOf s rest = rest :=
  Multiset.filter_eq_self.mpr h

/-- The letters of `s` are those whose tag is of `s`. -/
theorem mem_lettersOf : x ∈ lettersOf s rest ↔ x ∈ rest ∧ x.tag.1 = s := Multiset.mem_filter

/-- A caller exchanges some of its letters for others, and nobody else sees it. -/
theorem lettersOf_exchange {L L' before after : Multiset Letter} (h : L' + before = L + after)
    (htags : ∀ x ∈ before + after, x.tag.1 = s) :
    lettersOf s L' + before = lettersOf s L + after ∧
      ∀ a, a ≠ s → lettersOf a L' = lettersOf a L := by
  have hsplit : ∀ a, lettersOf a L' + lettersOf a before = lettersOf a L + lettersOf a after := by
    intro a
    have hfilter := congrArg (lettersOf a) h
    rwa [lettersOf, lettersOf, Multiset.filter_add, Multiset.filter_add] at hfilter
  have hbefore : ∀ x ∈ before, x.tag.1 = s := fun x hx =>
    htags x (Multiset.mem_add.mpr (.inl hx))
  have hafter : ∀ x ∈ after, x.tag.1 = s := fun x hx => htags x (Multiset.mem_add.mpr (.inr hx))
  refine ⟨?_, fun a ha => ?_⟩
  · have hs := hsplit s
    rwa [lettersOf_eq_self hbefore, lettersOf_eq_self hafter] at hs
  · have hnone : ∀ {L : Multiset Letter}, (∀ x ∈ L, x.tag.1 = s) → lettersOf a L = 0 :=
      fun hL => Multiset.filter_eq_nil.mpr fun x hx heq => ha (heq.symm.trans (hL x hx))
    have hother := hsplit a
    rwa [hnone hbefore, hnone hafter, add_zero, add_zero] at hother

/-- Every letter belongs to a call that waits. -/
theorem exists_stage (h : ∀ s, Conforms s (view net s)) (hx : x ∈ letters net)
    (hs : x.tag.1 = s) :
    ∃ c, (net.nodes s).app = some c ∧ lettersOf s (letters net) = {x} ∧
      Stage s (view net s) c x := by
  obtain ⟨rest, hrest⟩ := Multiset.exists_cons_of_mem (mem_lettersOf.mpr ⟨hx, hs⟩)
  obtain ⟨c, happ, rfl, hstage⟩ := (h s).stage hrest
  exact ⟨c, happ, hrest, hstage⟩

/-- A message comes from its caller. -/
theorem send_of_data (h : ∀ s, Conforms s (view net s)) {send dest : UInt8} {token : ℕ}
    {m : List UInt8} {tag : Tag} (hx : ⟨send, dest, .data token m, tag⟩ ∈ letters net) :
    tag.1 = send := by
  generalize htag : tag.1 = a
  obtain ⟨c, -, -, hstage⟩ := exists_stage h hx htag
  cases hstage with
  | asked => rfl

/-- A message that waits to be put comes from its caller. -/
theorem send_of_message (h : ∀ s, Conforms s (view net s)) {send dest : UInt8} {m : List UInt8}
    {tag : Tag} (hx : ⟨send, dest, .message m, tag⟩ ∈ letters net) : tag.1 = send := by
  generalize htag : tag.1 = a
  obtain ⟨c, -, -, hstage⟩ := exists_stage h hx htag
  cases hstage with
  | delivered => rfl

/-- An answer is for the call of a node that waits, comes from its peer, and is an `ACK` or the
first demand to send the message again. -/
theorem call_of_answer (h : ∀ s, Conforms s (view net s)) {send dest : UInt8} {body : Body}
    {tag : Tag} (hx : ⟨send, dest, .answer body, tag⟩ ∈ letters net) :
    tag.1 = dest ∧ ∃ c, (net.nodes dest).app = some c ∧ c.dest = send ∧
      (body = .ack ∨ c.allowResend = true ∧ ∃ token, body = .sync token) := by
  generalize htag : tag.1 = a
  obtain ⟨c, happ, -, hstage⟩ := exists_stage h hx htag
  cases hstage with
  | demanded hallow => exact ⟨rfl, c, happ, rfl, .inr ⟨hallow, _, rfl⟩⟩
  | answered => exact ⟨rfl, c, happ, rfl, .inl rfl⟩

end Letters

/-! ### What a step shows -/

/-- A step of the network is a turn of one exchange, and none of the others sees it. -/
def Follows (net net' : Protocol.Net) : Prop :=
  ∀ s, view net' s = view net s ∨ Turn s (view net s) (view net' s)

section Views

variable {net : Protocol.Net} {v s : UInt8} {n : Protocol.Node} {air : List Protocol.Packet}
  {new : List Event}

/-- The application of a node has done nothing. -/
def SameApp (n n' : Protocol.Node) : Prop :=
  n'.app = n.app ∧ n'.sendToken = n.sendToken ∧ n'.calls = n.calls

/-- One caller sees an event of a call. -/
theorem filter_ofCaller {e : Event} {a : UInt8} (he : ∀ s, ofCaller s e = (a == s)) (s : UInt8) :
    [e].filter (ofCaller s) = if a = s then [e] else [] := by
  by_cases hs : a = s
  · rw [if_pos hs]
    exact List.filter_cons_of_pos ((he s).trans (beq_iff_eq.mpr hs))
  · rw [if_neg hs]
    exact List.filter_cons_of_neg fun hseen => hs (beq_iff_eq.mp ((he s).symm.trans hseen))

/-- A step that a caller does not see. -/
theorem view_same
    (hletters : lettersOf s (letters (heard net v air (n, new))) = lettersOf s (letters net))
    (happ : v = s → SameApp (net.nodes v) n) (hrecv : n.recvToken s = (net.nodes v).recvToken s)
    (hlog : new.filter (ofCaller s) = []) : view (heard net v air (n, new)) s = view net s := by
  have hsame : SameApp (net.nodes s) (Function.update net.nodes v n s) := by
    by_cases hs : v = s
    · subst hs
      rw [Function.update_self]
      exact happ rfl
    · rw [Function.update_of_ne (Ne.symm hs)]
      exact ⟨rfl, rfl, rfl⟩
  have hrecv' : ∀ d, (Function.update net.nodes v n d).recvToken s = (net.nodes d).recvToken s :=
    (Function.forall_update_iff net.nodes fun d n => n.recvToken s = (net.nodes d).recvToken s).mpr
      ⟨hrecv, fun _ _ => rfl⟩
  exact View.ext hletters hsame.1 hsame.2.1 (funext hrecv') hsame.2.2
    (by rw [view, List.filter_append, hlog, List.nil_append]; rfl)

/-- What the application of a caller does. -/
theorem view_caller (hrecv : n.recvToken = (net.nodes v).recvToken) :
    view (heard net v air (n, new)) v = { view net v with
      letters := lettersOf v (letters (heard net v air (n, new)))
      app := n.app
      sendToken := n.sendToken
      calls := n.calls
      log := new.filter (ofCaller v) ++ (view net v).log } := by
  have hrecv' : ∀ d, (Function.update net.nodes v n d).recvToken v = (net.nodes d).recvToken v :=
    (Function.forall_update_iff net.nodes fun d n => n.recvToken v = (net.nodes d).recvToken v).mpr
      ⟨congrFun hrecv v, fun _ _ => rfl⟩
  exact View.ext rfl (by simp [view]) (by simp [view]) (funext hrecv') (by simp [view])
    (by simp [view])

/-- What a listener does is seen by another node. -/
theorem view_listener (hs : s ≠ v) :
    view (heard net v air (n, new)) s = { view net s with
      letters := lettersOf s (letters (heard net v air (n, new)))
      recvToken := Function.update (view net s).recvToken v (n.recvToken s)
      log := new.filter (ofCaller s) ++ (view net s).log } := by
  refine View.ext rfl ?_ ?_ (funext fun d => ?_) ?_ ?_
  · simp [view, Function.update_of_ne hs]
  · simp [view, Function.update_of_ne hs]
  · exact Function.apply_update (fun _ n => n.recvToken s) net.nodes v n d
  · simp [view, Function.update_of_ne hs]
  · simp [view]

variable {before after : Multiset Letter} {shown : List Event}

/-- Nobody sees that a letter is handed on. -/
theorem follows_of_same (hletters : letters (heard net v air (n, new)) = letters net)
    (happ : SameApp (net.nodes v) n) (hrecv : n.recvToken = (net.nodes v).recvToken)
    (hlog : ∀ s, new.filter (ofCaller s) = []) : Follows net (heard net v air (n, new)) := fun s =>
  .inl (view_same (congrArg (lettersOf s) hletters) (fun _ => happ) (congrFun hrecv s) (hlog s))

/-- A turn of the application of a caller. -/
theorem follows_caller (hletters : letters (heard net v air (n, new)) + before =
      letters net + after) (htags : ∀ x ∈ before + after, x.tag.1 = v)
    (hrecv : n.recvToken = (net.nodes v).recvToken)
    (hshown : new.filter (ofCaller v) = shown)
    (hlog : ∀ s, s ≠ v → new.filter (ofCaller s) = [])
    (hturn : ∀ L, L + before = (view net v).letters + after → Turn v (view net v)
      { view net v with
        letters := L
        app := n.app
        sendToken := n.sendToken
        calls := n.calls
        log := shown ++ (view net v).log }) :
    Follows net (heard net v air (n, new)) := by
  obtain ⟨hself, hother⟩ := lettersOf_exchange hletters htags
  intro s
  by_cases hs : s = v
  · subst hs
    rw [view_caller hrecv, hshown]
    exact .inr (hturn _ hself)
  · exact .inl (view_same (hother s hs) (fun heq => absurd heq.symm hs) (congrFun hrecv s)
      (hlog s hs))

/-- A turn of a listener, in an exchange of another node. -/
theorem follows_listener (hne : s ≠ v) (hletters : letters (heard net v air (n, new)) + before =
      letters net + after) (htags : ∀ x ∈ before + after, x.tag.1 = s)
    (happ : SameApp (net.nodes v) n)
    (hrecv : ∀ a, a ≠ s → n.recvToken a = (net.nodes v).recvToken a)
    (hshown : new.filter (ofCaller s) = shown)
    (hlog : ∀ a, a ≠ s → new.filter (ofCaller a) = [])
    (hturn : ∀ L, L + before = (view net s).letters + after → Turn s (view net s)
      { view net s with
        letters := L
        recvToken := Function.update (view net s).recvToken v (n.recvToken s)
        log := shown ++ (view net s).log }) :
    Follows net (heard net v air (n, new)) := by
  obtain ⟨hself, hother⟩ := lettersOf_exchange hletters htags
  intro a
  by_cases ha : a = s
  · subst ha
    rw [view_listener hne, hshown]
    exact .inr (hturn _ hself)
  · exact .inl (view_same (hother a ha) (fun _ => happ) (hrecv a ha) (hlog a ha))

end Views

section Act

variable {routes : Protocol.Routes} {net : Protocol.Net} {v : UInt8} {r : Protocol.Node.Result}

/-- A node exchanges some of its letters for others. -/
theorem letters_acted {n : Protocol.Node} {packets : List Protocol.Packet} {new : List Event}
    {kept before after : Multiset Letter}
    (hbefore : nodeLetters v (net.nodes v) = kept + before)
    (hafter : nodeLetters v n + (packets : Multiset Protocol.Packet).map letterOf =
      kept + after) :
    letters (heard net v (net.air ++ packets) (n, new)) + before = letters net + after := by
  have hsum : letters (heard net v (net.air ++ packets) (n, new)) + nodeLetters v (net.nodes v) =
      letters net + (nodeLetters v n + (packets : Multiset Protocol.Packet).map letterOf) := by
    rw [letters, letters]
    exact contents_act n (new ++ net.log) packets
  rw [hbefore, hafter] at hsum
  refine add_left_cancel (a := kept) ?_
  calc _ = letters (heard net v (net.air ++ packets) (n, new)) + (kept + before) := by ac_rfl
    _ = letters net + (kept + after) := hsum
    _ = _ := by ac_rfl

/-- A letter of a node is under way. -/
theorem mem_letters {kept : Multiset Letter} {x : Letter}
    (hnode : nodeLetters v (net.nodes v) = kept + {x}) : x ∈ letters net := by
  rw [letters]
  refine mem_contents.mpr (.inl ⟨v, ?_⟩)
  rw [hnode]
  exact Multiset.mem_add.mpr (.inr (Multiset.mem_singleton_self x))

/-- A call is a turn of its own exchange. -/
theorem follows_called {d : UInt8} {m : List UInt8} {token : ℕ} (hpeer : d ≠ v)
    (happ : (net.nodes v).app = none)
    (htoken : token = ((net.nodes v).sendToken d + 1) % tokenMax.toNat)
    (hnext : (net.nodes d).recvToken v + 1 < tokenMax.toNat) :
    Follows net (acted net v ({ net.nodes v with
      sendToken := Function.update (net.nodes v).sendToken d token
      app := some ⟨d, token, m, true, (v, (net.nodes v).calls)⟩
      calls := (net.nodes v).calls + 1 },
      [newPacket routes v d (.data token m) (v, (net.nodes v).calls)],
      [(newPacket routes v d (.data token m) (v, (net.nodes v).calls)).event,
        .called (v, (net.nodes v).calls) d m])) := by
  have hshown : ∀ s, [(newPacket routes v d (.data token m) (v, (net.nodes v).calls)).event,
      .called (v, (net.nodes v).calls) d m].filter (ofCaller s) =
        if v = s then [.called (v, (net.nodes v).calls) d m] else [] :=
    filter_ofCaller fun _ => rfl
  refine follows_caller (letters_acted (add_zero _).symm rfl) (by simp [letterOf, newPacket]) rfl
    ((hshown v).trans (if_pos rfl)) (fun s hs => (hshown s).trans (if_neg (Ne.symm hs)))
    fun L hL => ?_
  obtain rfl : L = ⟨v, d, .data token m, (v, (net.nodes v).calls)⟩ ::ₘ (view net v).letters := by
    rw [add_zero, add_comm] at hL
    exact hL
  exact Turn.called hpeer happ htoken hnext

/-- The letters stay the same. -/
theorem letters_same {n : Protocol.Node} {packets : List Protocol.Packet} {new : List Event}
    (hnode : nodeLetters v n + (packets : Multiset Protocol.Packet).map letterOf =
      nodeLetters v (net.nodes v)) :
    letters (heard net v (net.air ++ packets) (n, new)) = letters net := by
  have hkept : letters (heard net v (net.air ++ packets) (n, new)) + 0 = letters net + 0 :=
    letters_acted (add_zero _).symm (hnode.trans (add_zero _).symm)
  rwa [add_zero, add_zero] at hkept

variable (h : ∀ s, Conforms s (view net s))

include h

/-- So is an answer that ends a call. -/
theorem follows_returned {c : Protocol.Call} {tag : Tag} {rest : List (UInt8 × Body × Tag)}
    {result : Bool} (happ : (net.nodes v).app = some c)
    (hqueue : (net.nodes v).responseQueue =
      (c.dest, if result then .ack else .error, tag) :: rest) :
    Follows net (acted net v ({ net.nodes v with responseQueue := rest, app := none }, [],
      [.returned c.tag result (some tag)])) := by
  have hbefore := nodeLetters_cons (v := v) hqueue
  obtain ⟨rfl, c', happ', -, hbody⟩ := call_of_answer h (mem_letters hbefore)
  obtain rfl := Option.some.inj (happ.symm.trans happ')
  -- nothing but an `ACK` decides the call
  obtain rfl : result = true := by
    cases result with
    | true => rfl
    | false => simp at hbody
  have hcaller := ((h tag.1).app c happ).1
  have hshown := filter_ofCaller (e := .returned c.tag true (some tag)) (a := tag.1)
    fun s => congrArg (· == s) hcaller
  refine follows_caller (letters_acted hbefore rfl) (by simp) rfl
    ((hshown _).trans (if_pos rfl)) (fun s hs => (hshown s).trans (if_neg (Ne.symm hs)))
    fun L hL => ?_
  have hletters : (view net tag.1).letters = ⟨c.dest, tag.1, .answer .ack, tag⟩ ::ₘ L := by
    rw [add_comm] at hL
    exact ((add_zero _).symm.trans hL.symm)
  exact Turn.returned happ hletters

/-- So is an answer that makes a call send its message again. -/
theorem follows_resent {c : Protocol.Call} {body : Body} {token : ℕ} {tag : Tag}
    {rest : List (UInt8 × Body × Tag)} {sendToken : UInt8 → ℕ}
    (happ : (net.nodes v).app = some c) (hallow : c.allowResend = true)
    (hqueue : (net.nodes v).responseQueue = (c.dest, body, tag) :: rest)
    (htoken : body = .resend ∧ token = c.token ∨ body = .sync token)
    (hcounter : ∀ u, body = .sync u →
      sendToken = Function.update (net.nodes v).sendToken c.dest u) :
    Follows net (acted net v (Protocol.Node.resend routes v
      { net.nodes v with responseQueue := rest, sendToken := sendToken }
      { c with token := token })) := by
  have hbefore := nodeLetters_cons (v := v) hqueue
  have hmem := mem_letters hbefore
  obtain ⟨rfl, c', happ', -, hbody⟩ := call_of_answer h hmem
  obtain rfl := Option.some.inj (happ.symm.trans happ')
  -- nothing but a `SYNC` has the message sent again
  obtain rfl : body = .sync token := by
    rcases htoken with ⟨rfl, -⟩ | hsync
    · simp at hbody
    · exact hsync
  obtain rfl := hcounter token rfl
  have hcaller := ((h tag.1).app c happ).1
  have hshown : ∀ s, [(newPacket routes tag.1 c.dest (.data token c.m) c.tag).event].filter
      (ofCaller s) = [] := fun s => by simp [ofCaller, Protocol.Packet.event]
  refine follows_caller (letters_acted hbefore rfl)
    (by simp [Protocol.Node.resend, letterOf, newPacket, hcaller]) rfl (hshown _)
    (fun s _ => hshown s) fun L hL => ?_
  obtain ⟨more, hold, rfl⟩ := exists_rest (y := ⟨tag.1, c.dest, .data token c.m, c.tag⟩) hL
    (mem_lettersOf.mpr ⟨hmem, rfl⟩)
  exact Turn.resent happ hallow hold

/-- So is a message that is put. -/
theorem follows_put {send : UInt8} {m : List UInt8} {tag : Tag} (hne : send ≠ v)
    (htask : (net.nodes v).task = .queueing (.message send m) tag) :
    Follows net (acted net v ({ net.nodes v with
      newFrameQueue := (net.nodes v).newFrameQueue ++ [(send, m, tag)]
      task := .sending [newPacket routes v send .ack tag] }, [], [.put v send m tag])) := by
  have hbefore : nodeLetters v (net.nodes v) =
      queueLetters v (net.nodes v).responseQueue + {⟨send, v, .message m, tag⟩} := by
    rw [nodeLetters, htask, add_comm]
    rfl
  have hmem := mem_letters hbefore
  obtain rfl := send_of_message h hmem
  have hnode : ∀ queue : List (UInt8 × List UInt8 × Tag), nodeLetters v { net.nodes v with
      newFrameQueue := queue, task := .sending [newPacket routes v tag.1 .ack tag] } +
        (([] : List Protocol.Packet) : Multiset Protocol.Packet).map letterOf =
      queueLetters v (net.nodes v).responseQueue + {⟨v, tag.1, .answer .ack, tag⟩} := by
    intro queue
    show taskLetters v (.sending [newPacket routes v tag.1 .ack tag]) +
      queueLetters v (net.nodes v).responseQueue + 0 = _
    rw [add_zero, add_comm]
    rfl
  have hshown := filter_ofCaller (e := .put v tag.1 m tag) (a := tag.1) fun _ => rfl
  refine follows_listener hne (letters_acted hbefore (hnode _)) (by simp) ⟨rfl, rfl, rfl⟩
    (fun _ _ => rfl) ((hshown _).trans (if_pos rfl))
    (fun s hs => (hshown s).trans (if_neg (Ne.symm hs))) fun L hL => ?_
  obtain ⟨more, hold, rfl⟩ := exists_rest hL (mem_lettersOf.mpr ⟨hmem, rfl⟩)
  have hturn := Turn.put hold
  have hrecv : Function.update (view net tag.1).recvToken v ((net.nodes v).recvToken tag.1) =
      (view net tag.1).recvToken := Function.update_eq_self v _
  dsimp only
  rw [hrecv]
  exact hturn

/-- **An action is a turn of one exchange, or shows nothing.** -/
theorem follows_act {P : Set UInt8} (htalks : Talks P v (net.nodes v)) {i : Action}
    (hl : UndisturbedP net (.act v i))
    (hacts : Protocol.Node.Acts routes v (net.nodes v) i r) : Follows net (acted net v r) := by
  cases hacts with
  | called happ htoken => exact follows_called hl.1 happ htoken hl.2.2
  | returned result happ hqueue => exact follows_returned h happ hqueue
  | @ignored c entry rest happ hqueue hentry =>
      obtain ⟨send, body, tag⟩ := entry
      obtain ⟨hv, c', happ', hdest, hbody⟩ :=
        call_of_answer h (mem_letters (nodeLetters_cons (v := v) hqueue))
      obtain rfl := Option.some.inj (happ.symm.trans happ')
      rcases hentry hdest.symm with ⟨token, m, heq⟩ | ⟨heq, hallow⟩
      · obtain rfl : body = .data token m := heq
        simp at hbody
      · obtain rfl : body = .resend := heq
        simp at hbody
  | synced happ hallow hqueue =>
      obtain ⟨hv, c', happ', -, hbody⟩ :=
        call_of_answer h (mem_letters (nodeLetters_cons (v := v) hqueue))
      obtain rfl := Option.some.inj (happ.symm.trans happ')
      simp [hallow] at hbody
  | resent happ hallow hqueue htoken hcounter =>
      exact follows_resent h happ hallow hqueue htoken hcounter
  | timedOut => exact hl.elim
  | taken =>
      exact follows_of_same (letters_same ((add_zero _).trans (nodeLetters_congr rfl rfl)))
        ⟨rfl, rfl, rfl⟩ rfl fun s => rfl
  | @queued send body tag htask =>
      have hroom : (net.nodes v).responseQueue.length < queueLen := by
        have hroom' : (net.nodes v).hasRoom = true := hl
        simpa only [Protocol.Node.hasRoom, htask, decide_eq_true_eq] using hroom'
      refine follows_of_same (letters_same ?_) ⟨rfl, rfl, rfl⟩ rfl fun s => rfl
      rw [xQueueSend, if_pos hroom]
      show 0 + queueLetters v ((net.nodes v).responseQueue ++ [(send, body, tag)]) + 0 = _
      rw [zero_add, add_zero, queueLetters_append, nodeLetters, htask, add_comm]
      rfl
  | put htask => exact follows_put h (htalks.message _ _ _ htask).2.2 htask
  | refused htask hfull =>
      have hroom : (net.nodes v).hasRoom = true := hl
      simp only [Protocol.Node.hasRoom, htask, decide_eq_true_eq] at hroom
      exact absurd hroom hfull
  | @transmitted p rest htask =>
      refine follows_of_same (letters_same ?_) ⟨rfl, rfl, rfl⟩ rfl fun s => rfl
      have hcons : taskLetters v (.sending (p :: rest)) =
          {letterOf p} + (rest : Multiset Protocol.Packet).map letterOf := by
        rw [taskLetters, ← Multiset.cons_coe, Multiset.map_cons, Multiset.singleton_add]
      show taskLetters v (Protocol.Task.owing rest) + queueLetters v (net.nodes v).responseQueue +
        {letterOf p} = nodeLetters v (net.nodes v)
      rw [nodeLetters, htask, taskLetters_owing, hcons]
      ac_rfl

end Act

section Hear

variable {cfg : Config} {net : Protocol.Net} {p : Protocol.Packet} {k : ℕ}

/-- A listener that polls takes the letter in a packet off the air. -/
theorem letters_heard {v : UInt8} {n : Protocol.Node} {new : List Event} {x y : Letter}
    (hp : net.air[k]? = some p) (htask : (net.nodes v).task = .polling)
    (hqueue : n.responseQueue = (net.nodes v).responseQueue) (hx : letterOf p = x)
    (hy : taskLetters v n.task = {y}) :
    letters (heard net v (net.air.eraseIdx k) (n, new)) + {x} = letters net + {y} := by
  subst hx
  rw [← hy]
  have hsum : letters (heard net v (net.air.eraseIdx k) (n, new)) +
      (nodeLetters v (net.nodes v) + {letterOf p}) = letters net + nodeLetters v n := by
    rw [letters, letters]
    exact contents_hear n (new ++ net.log) hp
  have hbefore : nodeLetters v (net.nodes v) = queueLetters v (net.nodes v).responseQueue := by
    rw [nodeLetters, htask]
    exact zero_add _
  rw [hbefore, nodeLetters, hqueue] at hsum
  refine add_left_cancel (a := queueLetters v (net.nodes v).responseQueue) ?_
  calc _ = letters (heard net v (net.air.eraseIdx k) (n, new)) +
        (queueLetters v (net.nodes v).responseQueue + {letterOf p}) := by ac_rfl
    _ = letters net + (taskLetters v n.task + queueLetters v (net.nodes v).responseQueue) := hsum
    _ = _ := by ac_rfl

/-- A packet on the air is a letter on its way. -/
theorem mem_letters_air (hp : net.air[k]? = some p) : letterOf p ∈ letters net := by
  rw [letters]
  exact mem_contents.mpr (.inr ⟨p, List.mem_of_getElem? hp, rfl⟩)

variable (h : ∀ s, Conforms s (view net s)) (hway : OnWay cfg p) (hp : net.air[k]? = some p)

include h hway hp

/-- The letter in a data frame that has arrived. -/
theorem data_letter (hdest : p.dest = p.next) {token : ℕ} {m : List UInt8}
    (hbody : p.body = .data token m) :
    letterOf p = ⟨p.send, p.next, .data token m, p.tag⟩ ∧
      ⟨p.send, p.next, .data token m, p.tag⟩ ∈ letters net ∧ p.tag.1 = p.send ∧
      p.send ≠ p.next := by
  have hletter : letterOf p = ⟨p.send, p.next, .data token m, p.tag⟩ := by
    rw [letterOf, hdest, hbody]
    rfl
  have hmem := mem_letters_air hp
  rw [hletter] at hmem
  exact ⟨hletter, hmem, send_of_data h hmem, hdest ▸ hway.between.2.2⟩

variable (htask : (net.nodes p.next).task = .polling) (hdest : p.dest = p.next)

include htask hdest

/-- A message that is accepted is a turn of its exchange. -/
theorem follows_accepted {token : ℕ} {m : List UInt8} (hbody : p.body = .data token m)
    (hwindow : InWindow ((net.nodes p.next).recvToken p.send) token) :
    Follows net (heard net p.next (net.air.eraseIdx k) ({ net.nodes p.next with
      recvToken := Function.update (net.nodes p.next).recvToken p.send token
      task := .queueing (.message p.send m) p.tag }, [])) := by
  obtain ⟨hletter, hmem, hcaller, hne⟩ := data_letter h hway hp hdest hbody
  refine follows_listener hne (letters_heard hp htask rfl hletter rfl) (by simp [hcaller])
    ⟨rfl, rfl, rfl⟩ (fun a ha => Function.update_of_ne ha ..) rfl (fun _ _ => rfl) fun L hL => ?_
  obtain ⟨more, hold, rfl⟩ := exists_rest hL (mem_lettersOf.mpr ⟨hmem, hcaller⟩)
  have hturn := Turn.accepted hold hwindow
  dsimp only
  rw [Function.update_self]
  exact hturn

/-- So is a message that is rejected. -/
theorem follows_rejected {routes : Protocol.Routes} {token : ℕ} {m : List UInt8}
    (hbody : p.body = .data token m)
    (hwindow : ¬ InWindow ((net.nodes p.next).recvToken p.send) token) :
    Follows net (heard net p.next (net.air.eraseIdx k) ({ net.nodes p.next with
      task := .sending [newPacket routes p.next p.send
        (.sync (((net.nodes p.next).recvToken p.send + 1) % tokenMax.toNat)) p.tag] }, [])) := by
  obtain ⟨hletter, hmem, hcaller, hne⟩ := data_letter h hway hp hdest hbody
  refine follows_listener hne (letters_heard hp htask rfl hletter rfl)
    (by simp [letterOf, newPacket, hcaller])
    ⟨rfl, rfl, rfl⟩ (fun _ _ => rfl) rfl (fun _ _ => rfl) fun L hL => ?_
  obtain ⟨more, hold, rfl⟩ := exists_rest hL (mem_lettersOf.mpr ⟨hmem, hcaller⟩)
  have hturn := Turn.rejected hold hwindow
  have hrecv : Function.update (view net p.send).recvToken p.next
      ((net.nodes p.next).recvToken p.send) = (view net p.send).recvToken :=
    Function.update_eq_self p.next _
  dsimp only
  rw [hrecv]
  exact hturn

end Hear

/-- **So is hearing a packet.** -/
theorem follows_hear {cfg : Config} {net : Protocol.Net} {p : Protocol.Packet} {k : ℕ}
    {r : Protocol.Node × List Event}
    (h : ∀ s, Conforms s (view net s)) (hway : OnWay cfg p) (hp : net.air[k]? = some p)
    (hr : Protocol.Node.hear (Refinement.routes cfg) p.next (net.nodes p.next) p = some r) :
    Follows net (heard net p.next (net.air.eraseIdx k) r) := by
  obtain ⟨htask, hlog, hhears⟩ := Protocol.Node.hear_cases hr
  have hheard := hway.heard hr
  obtain ⟨n, new⟩ := r
  dsimp only at hlog hhears hheard
  subst hlog
  -- a letter that only changes hands
  have hsame : n.responseQueue = (net.nodes p.next).responseQueue →
      taskLetters p.next n.task = {letterOf p} →
      letters (heard net p.next (net.air.eraseIdx k) (n, [])) = letters net := by
    intro hqueue hletter
    exact add_right_cancel (letters_heard hp htask hqueue rfl hletter)
  cases hhears with
  | ignored => exact absurd htask hheard
  | relayed hdest => exact follows_of_same (hsame rfl rfl) ⟨rfl, rfl, rfl⟩ rfl fun s => rfl
  | answer hdest hbody =>
      refine follows_of_same (hsame rfl ?_) ⟨rfl, rfl, rfl⟩ rfl fun s => rfl
      rw [letterOf, contentOf_eq hbody, hdest]
      rfl
  | accepted hdest hbody hwindow => exact follows_accepted h hway hp htask hdest hbody hwindow
  | rejected hdest hbody hwindow => exact follows_rejected h hway hp htask hdest hbody hwindow

end Exchanges

end LCore
