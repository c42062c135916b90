import LCore.AtMostOnce
import LCore.Lib.Budget
import Mathlib.Data.FinEnum

/-!
# The Letter of a Call

Each call of a node has one letter under way, from the message to the answer: on the air, with a
listener, or in the caller's `response_queue`. What a caller sees of the network, its letter, its
own counters and those of others for it, is a small machine that knows nothing of the other callers
or of the relays.

## Main results

* `conforms_turn`: a turn keeps what holds between the letter, the call and the counters.
-/

namespace LCore

namespace Exchanges

open Network
open Protocol (Body)
open Encryption (InWindow)
open AtMostOnce (putTags)

/-! ### Letters -/

/-- What a letter says. -/
inductive Content
  /-- the message of a call under a token -/
  | data (token : ℕ) (m : List UInt8)
  /-- a message that a listener has taken out of its frame -/
  | message (m : List UInt8)
  | answer (body : Body)
  deriving DecidableEq

/-- What is under way for a call. -/
structure Letter where
  send : UInt8
  dest : UInt8
  content : Content
  tag : Tag
  deriving DecidableEq

/-- What a frame says. -/
def contentOf : Body → Content
  | .data token m => .data token m
  | body => .answer body

/-- The letter in a packet. -/
def letterOf (p : Protocol.Packet) : Letter := ⟨p.send, p.dest, contentOf p.body, p.tag⟩

/-- The letters a listener has. -/
def taskLetters (v : UInt8) : Protocol.Task → Multiset Letter
  | .polling => 0
  | .queueing (.response send body) tag => {⟨send, v, .answer body, tag⟩}
  | .queueing (.message send m) tag => {⟨send, v, .message m, tag⟩}
  | .sending packets => (packets : Multiset Protocol.Packet).map letterOf

/-- The letters in `response_queue`. -/
def queueLetters (v : UInt8) (queue : List (UInt8 × Body × Tag)) : Multiset Letter :=
  (queue : Multiset (UInt8 × Body × Tag)).map fun e => ⟨e.1, v, .answer e.2.1, e.2.2⟩

/-- The letters a node has. -/
def nodeLetters (v : UInt8) (n : Protocol.Node) : Multiset Letter :=
  taskLetters v n.task + queueLetters v n.responseQueue

/-- The letters under way. -/
@[irreducible] def letters (net : Protocol.Net) : Multiset Letter :=
  contents nodeLetters letterOf net

/-- The event is one of the calls of `s`. -/
def ofCaller (s : UInt8) : Event → Bool
  | .called tag _ _ | .returned tag _ _ | .put _ _ _ tag => tag.1 == s
  | _ => false

/-- What a caller sees of the network: its letters, its call and its counters, the counters of
the others for it, and what the log says about its calls. -/
@[ext] structure View where
  letters : Multiset Letter
  app : Option Protocol.Call
  sendToken : UInt8 → ℕ
  recvToken : UInt8 → ℕ
  calls : ℕ
  log : List Event

/-- The letters of `s`. -/
def lettersOf (s : UInt8) (letters : Multiset Letter) : Multiset Letter :=
  letters.filter fun x => x.tag.1 = s

/-- The network as `s` sees it. -/
def view (net : Protocol.Net) (s : UInt8) : View where
  letters := lettersOf s (letters net)
  app := (net.nodes s).app
  sendToken := (net.nodes s).sendToken
  recvToken d := (net.nodes d).recvToken s
  calls := (net.nodes s).calls
  log := net.log.filter (ofCaller s)

/-! ### The exchange of a caller -/

/-- A turn in the exchange of `s`: a call, what its peer does with the message, the answer. -/
inductive Turn (s : UInt8) (w : View) : View → Prop
  | called {d : UInt8} {m : List UInt8} {token : ℕ} (hpeer : d ≠ s) (happ : w.app = none)
      (htoken : token = (w.sendToken d + 1) % tokenMax.toNat)
      (hnext : w.recvToken d + 1 < tokenMax.toNat) :
      Turn s w { w with
        letters := ⟨s, d, .data token m, (s, w.calls)⟩ ::ₘ w.letters
        app := some ⟨d, token, m, true, (s, w.calls)⟩
        sendToken := Function.update w.sendToken d token
        calls := w.calls + 1
        log := .called (s, w.calls) d m :: w.log }
  | accepted {d : UInt8} {token : ℕ} {m : List UInt8} {tag : Tag} {rest : Multiset Letter}
      (hletters : w.letters = ⟨s, d, .data token m, tag⟩ ::ₘ rest)
      (hwindow : InWindow (w.recvToken d) token) :
      Turn s w { w with
        letters := ⟨s, d, .message m, tag⟩ ::ₘ rest
        recvToken := Function.update w.recvToken d token }
  | rejected {d : UInt8} {token : ℕ} {m : List UInt8} {tag : Tag} {rest : Multiset Letter}
      (hletters : w.letters = ⟨s, d, .data token m, tag⟩ ::ₘ rest)
      (hwindow : ¬ InWindow (w.recvToken d) token) :
      Turn s w { w with
        letters :=
          ⟨d, s, .answer (.sync ((w.recvToken d + 1) % tokenMax.toNat)), tag⟩ ::ₘ rest }
  | put {d : UInt8} {m : List UInt8} {tag : Tag} {rest : Multiset Letter}
      (hletters : w.letters = ⟨s, d, .message m, tag⟩ ::ₘ rest) :
      Turn s w { w with
        letters := ⟨d, s, .answer .ack, tag⟩ ::ₘ rest
        log := .put d s m tag :: w.log }
  | returned {c : Protocol.Call} {tag : Tag} {rest : Multiset Letter} (happ : w.app = some c)
      (hletters : w.letters = ⟨c.dest, s, .answer .ack, tag⟩ ::ₘ rest) :
      Turn s w { w with
        letters := rest
        app := none
        log := .returned c.tag true (some tag) :: w.log }
  | resent {c : Protocol.Call} {token : ℕ} {tag : Tag} {rest : Multiset Letter}
      (happ : w.app = some c) (hallow : c.allowResend = true)
      (hletters : w.letters = ⟨c.dest, s, .answer (.sync token), tag⟩ ::ₘ rest) :
      Turn s w { w with
        letters := ⟨s, c.dest, .data token c.m, c.tag⟩ ::ₘ rest
        app := some { c with token := token, allowResend := false }
        sendToken := Function.update w.sendToken c.dest token }

/-- Where the exchange of a call stands, by its letter. -/
inductive Stage (s : UInt8) (w : View) (c : Protocol.Call) : Letter → Prop
  | asked
      (htoken : c.token = w.recvToken c.dest + 1 ∨
        c.token = 1 ∧ 0 < w.recvToken c.dest ∧ c.allowResend = true)
      (hcounter : w.sendToken c.dest = c.token) (hnext : w.recvToken c.dest + 1 < tokenMax.toNat)
      (hput : c.tag ∉ putTags w.log) : Stage s w c ⟨s, c.dest, .data c.token c.m, c.tag⟩
  | demanded (hallow : c.allowResend = true) (hnext : w.recvToken c.dest + 1 < tokenMax.toNat)
      (hput : c.tag ∉ putTags w.log) :
      Stage s w c ⟨c.dest, s, .answer (.sync (w.recvToken c.dest + 1)), c.tag⟩
  | delivered (hcounter : w.sendToken c.dest = w.recvToken c.dest)
      (hput : c.tag ∉ putTags w.log) : Stage s w c ⟨s, c.dest, .message c.m, c.tag⟩
  | answered (hcounter : w.sendToken c.dest = w.recvToken c.dest)
      (hput : .put c.dest s c.m c.tag ∈ w.log) : Stage s w c ⟨c.dest, s, .answer .ack, c.tag⟩

/-- The call that waits has one letter, and there are no others. -/
inductive Waits (s : UInt8) (w : View) : Prop
  | idle (happ : w.app = none) (hletters : w.letters = 0)
  | busy {c : Protocol.Call} {x : Letter} (happ : w.app = some c) (hletters : w.letters = {x})
      (hstage : Stage s w c x)

/-- The state between two turns. -/
structure Conforms (s : UInt8) (w : View) : Prop where
  waits : Waits s w
  counters : ∀ d, (∀ c, w.app = some c → c.dest ≠ d) →
    w.sendToken d = w.recvToken d ∨ w.sendToken d = 0
  numbered : ∀ tag d m, .called tag d m ∈ w.log → tag.2 < w.calls
  app : ∀ c, w.app = some c → c.tag.1 = s ∧ .called c.tag c.dest c.m ∈ w.log
  put : ∀ d a m tag, .put d a m tag ∈ w.log → ∃ d' m', .called tag d' m' ∈ w.log
  once : (putTags w.log).Nodup
  returned : ∀ tag result cause, .returned tag result cause ∈ w.log →
    result = true ∧ cause = some tag ∧ ∃ d m, .called tag d m ∈ w.log ∧ .put d s m tag ∈ w.log
  made : ∀ tag d m, .called tag d m ∈ w.log →
    .returned tag true (some tag) ∈ w.log ∨ ∃ c, w.app = some c ∧ c.tag = tag

section Turn

variable {s : UInt8} {w w' : View} (h : Conforms s w)

include h

/-- The letter of the call that waits. -/
theorem Conforms.stage {x : Letter} {rest : Multiset Letter} (hletters : w.letters = x ::ₘ rest) :
    ∃ c, w.app = some c ∧ rest = 0 ∧ Stage s w c x := by
  cases h.waits with
  | idle happ hnone =>
      rw [hnone] at hletters
      exact absurd hletters (Multiset.zero_ne_cons)
  | busy happ hone hstage =>
      rw [hone] at hletters
      obtain ⟨rfl, rfl⟩ := (Multiset.singleton_eq_cons_iff _).mp hletters
      exact ⟨_, happ, rfl, hstage⟩

/-- The tag of a new call is in no event. -/
theorem Conforms.fresh : (s, w.calls) ∉ putTags w.log := by
  intro hmem
  obtain ⟨d, a, m, hput⟩ := AtMostOnce.mem_putTags.mp hmem
  obtain ⟨d', m', hcalled⟩ := h.put d a m _ hput
  exact lt_irrefl _ (h.numbered _ _ _ hcalled)

/-- The token of a new call: the one its peer expects next, or the first one of all. -/
theorem Conforms.firstToken (happ : w.app = none) {d : UInt8}
    (hnext : w.recvToken d + 1 < tokenMax.toNat) :
    (w.sendToken d + 1) % tokenMax.toNat = w.recvToken d + 1 ∨
      (w.sendToken d + 1) % tokenMax.toNat = 1 ∧ 0 < w.recvToken d := by
  have hcounters := h.counters d (by simp [happ])
  rcases hcounters with heq | hzero
  · rw [heq]
    exact .inl (Nat.mod_eq_of_lt hnext)
  · have hone : (w.sendToken d + 1) % tokenMax.toNat = 1 := by
      rw [hzero]
      exact Nat.mod_eq_of_lt (by omega)
    rw [hone]
    omega

/-- A caller calls. -/
theorem Conforms.called {d : UInt8} {m : List UInt8} {token : ℕ} (happ : w.app = none)
    (htoken : token = (w.sendToken d + 1) % tokenMax.toNat)
    (hnext : w.recvToken d + 1 < tokenMax.toNat) :
    Conforms s { w with
      letters := ⟨s, d, .data token m, (s, w.calls)⟩ ::ₘ w.letters
      app := some ⟨d, token, m, true, (s, w.calls)⟩
      sendToken := Function.update w.sendToken d token
      calls := w.calls + 1
      log := .called (s, w.calls) d m :: w.log } := by
  have hnone : w.letters = 0 := by
    cases h.waits with
    | idle _ hletters => exact hletters
    | busy hbusy => exact nomatch happ.symm.trans hbusy
  have hfirst := h.firstToken happ hnext
  rw [← htoken] at hfirst
  refine
    { waits := .busy rfl (by rw [hnone]; rfl) (.asked ?_ (Function.update_self ..) hnext h.fresh)
      counters := fun d' hd' => ?_
      numbered := fun tag d' m' hmem => ?_
      app := fun c hc => ?_
      put := fun d' a m' tag hmem => ?_
      once := h.once
      returned := fun tag result cause hmem => ?_
      made := fun tag d' m' hmem => ?_ }
  · exact hfirst.imp_right fun hone => ⟨hone.1, hone.2, rfl⟩
  · have hne : d' ≠ d := fun heq => hd' _ rfl heq.symm
    dsimp only
    rw [Function.update_of_ne hne]
    exact h.counters d' (by simp [happ])
  · rcases List.mem_cons.mp hmem with heq | hold
    · obtain ⟨rfl, -, -⟩ := Event.called.inj heq
      exact Nat.lt_succ_self _
    · exact (h.numbered tag d' m' hold).trans (Nat.lt_succ_self _)
  · obtain rfl := Option.some.inj hc
    exact ⟨rfl, List.mem_cons_self⟩
  · obtain ⟨d₀, m₀, hcalled⟩ := h.put d' a m' tag ((List.mem_cons.mp hmem).resolve_left nofun)
    exact ⟨d₀, m₀, List.mem_cons_of_mem _ hcalled⟩
  · obtain ⟨hresult, hcause, d₀, m₀, hcalled, hput⟩ :=
      h.returned tag result cause ((List.mem_cons.mp hmem).resolve_left nofun)
    exact ⟨hresult, hcause, d₀, m₀, List.mem_cons_of_mem _ hcalled, List.mem_cons_of_mem _ hput⟩
  · rcases List.mem_cons.mp hmem with heq | hold
    · obtain ⟨rfl, -, -⟩ := Event.called.inj heq
      exact .inr ⟨_, rfl, rfl⟩
    · rcases h.made tag d' m' hold with hreturned | ⟨c, hc, -⟩
      · exact .inl (List.mem_cons_of_mem _ hreturned)
      · exact nomatch happ.symm.trans hc

/-- A message is accepted. -/
theorem Conforms.accepted {d : UInt8} {token : ℕ} {m : List UInt8} {tag : Tag}
    {rest : Multiset Letter} (hletters : w.letters = ⟨s, d, .data token m, tag⟩ ::ₘ rest) :
    Conforms s { w with
      letters := ⟨s, d, .message m, tag⟩ ::ₘ rest
      recvToken := Function.update w.recvToken d token } := by
  obtain ⟨c, happ, rfl, hstage⟩ := h.stage hletters
  cases hstage with
  | asked htoken hcounter hnext hput =>
      refine { h with waits := .busy happ rfl (.delivered ?_ hput), counters := fun d' hd' => ?_ }
      · dsimp only
        rw [Function.update_self]
        exact hcounter
      · have hne : d' ≠ c.dest := fun heq => hd' c happ heq.symm
        dsimp only
        rw [Function.update_of_ne hne]
        exact h.counters d' hd'

/-- A message is rejected, and a `SYNC|RESEND` goes back. -/
theorem Conforms.rejected {d : UInt8} {token : ℕ} {m : List UInt8} {tag : Tag}
    {rest : Multiset Letter} (hletters : w.letters = ⟨s, d, .data token m, tag⟩ ::ₘ rest)
    (hwindow : ¬ InWindow (w.recvToken d) token) :
    Conforms s { w with
      letters :=
        ⟨d, s, .answer (.sync ((w.recvToken d + 1) % tokenMax.toNat)), tag⟩ ::ₘ rest } := by
  obtain ⟨c, happ, rfl, hstage⟩ := h.stage hletters
  cases hstage with
  | asked htoken hcounter hnext hput =>
      rcases htoken with heq | ⟨-, -, hallow⟩
      · exact absurd ⟨by omega, by omega⟩ hwindow
      · rw [Nat.mod_eq_of_lt hnext]
        exact { h with waits := .busy happ rfl (.demanded hallow hnext hput) }

/-- A message is put, and an `ACK` goes back. -/
theorem Conforms.queued {d : UInt8} {m : List UInt8} {tag : Tag} {rest : Multiset Letter}
    (hletters : w.letters = ⟨s, d, .message m, tag⟩ ::ₘ rest) :
    Conforms s { w with
      letters := ⟨d, s, .answer .ack, tag⟩ ::ₘ rest
      log := .put d s m tag :: w.log } := by
  obtain ⟨c, happ, rfl, hstage⟩ := h.stage hletters
  cases hstage with
  | delivered hcounter hput =>
      obtain ⟨htag, hcalled⟩ := h.app c happ
      refine { h with
        waits := .busy happ rfl (.answered hcounter List.mem_cons_self)
        numbered := fun tag d' m' hmem => ?_
        app := fun c hc => ?_
        put := fun d' a m' tag hmem => ?_
        once := List.nodup_cons.mpr ⟨hput, h.once⟩
        returned := fun tag result cause hmem => ?_
        made := fun tag d' m' hmem => ?_ }
      · exact h.numbered tag d' m' ((List.mem_cons.mp hmem).resolve_left nofun)
      · exact (h.app c hc).imp_right (List.mem_cons_of_mem _)
      · rcases List.mem_cons.mp hmem with heq | hold
        · obtain ⟨rfl, rfl, rfl, rfl⟩ := Event.put.inj heq
          exact ⟨_, _, List.mem_cons_of_mem _ hcalled⟩
        · obtain ⟨d₀, m₀, hmade⟩ := h.put d' a m' tag hold
          exact ⟨d₀, m₀, List.mem_cons_of_mem _ hmade⟩
      · obtain ⟨hresult, hcause, d₀, m₀, hmade, hold⟩ :=
          h.returned tag result cause ((List.mem_cons.mp hmem).resolve_left nofun)
        exact ⟨hresult, hcause, d₀, m₀, List.mem_cons_of_mem _ hmade, List.mem_cons_of_mem _ hold⟩
      · exact (h.made tag d' m' ((List.mem_cons.mp hmem).resolve_left nofun)).imp_left
          (List.mem_cons_of_mem _)

/-- The `ACK` is polled. -/
theorem Conforms.decided {c : Protocol.Call} {tag : Tag} {rest : Multiset Letter}
    (happ : w.app = some c) (hletters : w.letters = ⟨c.dest, s, .answer .ack, tag⟩ ::ₘ rest) :
    Conforms s { w with
      letters := rest
      app := none
      log := .returned c.tag true (some tag) :: w.log } := by
  obtain ⟨c', happ', rfl, hstage⟩ := h.stage hletters
  obtain rfl := Option.some.inj (happ.symm.trans happ')
  obtain ⟨htag, hcalled⟩ := h.app c happ
  generalize hx : (⟨c.dest, s, .answer .ack, tag⟩ : Letter) = x at hstage
  cases hstage with
  | answered hcounter hput =>
      obtain ⟨-, -, -, rfl⟩ := Letter.mk.inj hx
      refine
        { waits := .idle rfl rfl
          counters := fun d _ => ?_
          numbered := fun tag d m hmem => ?_
          app := nofun
          put := fun d a m tag hmem => ?_
          once := h.once
          returned := fun tag result cause hmem => ?_
          made := fun tag d m hmem => ?_ }
      · by_cases hd : c.dest = d
        · subst hd
          exact .inl hcounter
        · refine h.counters d fun c' hc' => ?_
          obtain rfl := Option.some.inj (happ.symm.trans hc')
          exact hd
      · exact h.numbered tag d m ((List.mem_cons.mp hmem).resolve_left nofun)
      · obtain ⟨d₀, m₀, hmade⟩ := h.put d a m tag ((List.mem_cons.mp hmem).resolve_left nofun)
        exact ⟨d₀, m₀, List.mem_cons_of_mem _ hmade⟩
      · rcases List.mem_cons.mp hmem with heq | hold
        · obtain ⟨rfl, rfl, rfl⟩ := Event.returned.inj heq
          exact ⟨rfl, rfl, c.dest, c.m, List.mem_cons_of_mem _ hcalled, List.mem_cons_of_mem _ hput⟩
        · obtain ⟨hresult, hcause, d₀, m₀, hmade, hput₀⟩ := h.returned tag result cause hold
          exact ⟨hresult, hcause, d₀, m₀, List.mem_cons_of_mem _ hmade,
            List.mem_cons_of_mem _ hput₀⟩
      · rcases h.made tag d m ((List.mem_cons.mp hmem).resolve_left nofun) with
            hreturned | ⟨c', hc', rfl⟩
        · exact .inl (List.mem_cons_of_mem _ hreturned)
        · obtain rfl := Option.some.inj (happ.symm.trans hc')
          exact .inl List.mem_cons_self
  | _ => cases hx

/-- The `SYNC|RESEND` is polled, and the message goes out again under the token it asks for. -/
theorem Conforms.followed {c : Protocol.Call} {token : ℕ} {tag : Tag} {rest : Multiset Letter}
    (happ : w.app = some c)
    (hletters : w.letters = ⟨c.dest, s, .answer (.sync token), tag⟩ ::ₘ rest) :
    Conforms s { w with
      letters := ⟨s, c.dest, .data token c.m, c.tag⟩ ::ₘ rest
      app := some { c with token := token, allowResend := false }
      sendToken := Function.update w.sendToken c.dest token } := by
  obtain ⟨c', happ', rfl, hstage⟩ := h.stage hletters
  obtain rfl := Option.some.inj (happ.symm.trans happ')
  generalize hx : (⟨c.dest, s, .answer (.sync token), tag⟩ : Letter) = x at hstage
  cases hstage with
  | demanded hallow hnext hput =>
      obtain ⟨-, -, hcontent, -⟩ := Letter.mk.inj hx
      obtain rfl := Body.sync.inj (Content.answer.inj hcontent)
      refine { h with
        waits := .busy rfl rfl (.asked (.inl rfl) (Function.update_self ..) hnext hput)
        counters := fun d hd => ?_
        app := fun c' hc' => ?_
        made := fun tag d m hmem => ?_ }
      · have hne : d ≠ c.dest := fun heq => hd _ rfl heq.symm
        dsimp only
        rw [Function.update_of_ne hne]
        refine h.counters d fun c' hc' => ?_
        obtain rfl := Option.some.inj (happ.symm.trans hc')
        exact hne.symm
      · obtain rfl := Option.some.inj hc'
        exact h.app c happ
      · refine (h.made tag d m hmem).imp_right ?_
        rintro ⟨c', hc', rfl⟩
        obtain rfl := Option.some.inj (happ.symm.trans hc')
        exact ⟨_, rfl, rfl⟩
  | _ => cases hx

/-- **A turn keeps the exchange in order.** -/
theorem conforms_turn (hturn : Turn s w w') : Conforms s w' := by
  cases hturn with
  | called hpeer happ htoken hnext => exact h.called happ htoken hnext
  | accepted hletters => exact h.accepted hletters
  | rejected hletters hwindow => exact h.rejected hletters hwindow
  | put hletters => exact h.queued hletters
  | returned happ hletters => exact h.decided happ hletters
  | resent happ hallow hletters => exact h.followed happ hletters

end Turn

end Exchanges

end LCore
