import LCore.Queue
import LCore.Script

/-!
# Delivery on a Good Link

A node sends messages one after another over a link that loses and alters nothing and answers
before the time is up, to a node whose application keeps taking them. The two nodes have never
exchanged a frame: the sender counts from zero, the receiver from its random number.

Such a run is a series of exchanges. In the first one the message is rejected unless the random
number is zero, and goes out again under the token the receiver asks for; after it the counters are
equal, and no other message is rejected.

## Main results

* `further_step`: a step takes an exchange on, begins the next one, or takes a message.
* `delivery`: a run has a bounded number of steps, and one that cannot go on has delivered
  every message, in order, and every call has returned `true`.
-/

open Memory

namespace LCore

namespace Delivery

open Link

/-- Every message has been delivered: every call has returned `true`, the first has transmitted
its frame at most twice and every other once, and the application of `d` has taken the messages
in order, each from `s`. -/
structure Delivered (s d : UInt8) (ms : List (List UInt8)) (log : List Event) : Prop where
  returned : ∀ k < ms.length, .returned (s, k) true (some (s, k)) ∈ log
  never : ∀ tag cause, .returned tag false cause ∉ log
  first : transmissions s (s, 0) log ≤ 2
  later : ∀ k < ms.length, 0 < k → transmissions s (s, k) log = 1
  taken : (takes d log).reverse = ms.map (s, ·)

/-! ### The series -/

section Series

variable (routes : Protocol.Routes) (s d : UInt8) (ms : List (List UInt8)) (r₀ : ℕ)

/-- The `k`-th message. -/
def message (k : ℕ) : List UInt8 := ms.getD k []

/-- What `s` has counted to before the `k`-th call, while `d` has counted to `r₀ + k`. -/
def counted (k : ℕ) : ℕ := if k = 0 then 0 else r₀ + k

/-- The events of the first `k` exchanges. -/
def history : ℕ → List Event
  | 0 => []
  | k + 1 => events s d (message ms k) k (decide (Expected (counted r₀ k) (r₀ + k))) .finished ++
      history k

/-- The link is in the `k`-th exchange, which began in `start`: `earlier` messages had been taken by
then, and `taken` have been since. -/
structure Underway (start net : Protocol.Net) (k earlier : ℕ) (allow : Bool) (stage : Stage)
    (taken : ℕ) : Prop where
  shows : Shows routes s d (message ms k) k (counted r₀ k) (r₀ + k) start net allow stage taken
  going : stage ≠ .finished
  calls : (net.nodes s).calls ≤ ms.length
  events : start.log.filter notTaken = history s d ms r₀ k
  balance : earlier + queues s d start = k

/-- How far the link has come. -/
def AtRank (p : ℕ) (net : Protocol.Net) : Prop :=
  ∃ start k earlier allow stage taken,
    Underway routes s d ms r₀ start net k earlier allow stage taken ∧
      p = 12 * k + stage.rank allow + earlier + taken

end Series

section Steps

variable {routes : Protocol.Routes} {s d : UInt8} {ms : List (List UInt8)} {r₀ : ℕ}
  {start net : Protocol.Net} {k earlier : ℕ} {allow : Bool} {stage : Stage} {taken : ℕ}

/-- The message of number `k`. -/
theorem message_eq {m : List UInt8} (h : ms[k]? = some m) : message ms k = m := by
  rw [message, List.getD_eq_getElem?_getD, h]
  rfl

/-- The token of the `k`-th call, the first apart. -/
theorem firstToken_counted (hk : 0 < k) (hmax : r₀ + k + 1 < tokenMax.toNat) :
    firstToken (counted r₀ k) = r₀ + k + 1 := by
  rw [firstToken, counted, if_neg (Nat.ne_of_gt hk)]
  exact Nat.mod_eq_of_lt hmax

/-- No message but the first can be rejected. -/
theorem expected_counted (hk : 0 < k) (hmax : r₀ + k + 1 < tokenMax.toNat) :
    Expected (counted r₀ k) (r₀ + k) := by
  rw [Expected, firstToken_counted hk hmax]
  exact ⟨Nat.lt_succ_self _, by omega⟩

/-- Under whatever token the `k`-th message is taken, the counters are then equal. -/
theorem token_counted (hmax : r₀ + k + 1 < tokenMax.toNat)
    (hallow : allow = true → Expected (counted r₀ k) (r₀ + k)) :
    token (counted r₀ k) (r₀ + k) allow = r₀ + k + 1 := by
  cases allow with
  | false => rfl
  | true =>
      show firstToken (counted r₀ k) = r₀ + k + 1
      cases k with
      | zero =>
          have hone : firstToken (counted r₀ 0) = 1 := rfl
          obtain ⟨hlt, -⟩ := hallow rfl
          rw [hone] at hlt ⊢
          omega
      | succ k => exact firstToken_counted (Nat.succ_pos k) hmax

/-- The link makes no more calls than there are messages. -/
theorem calls_le {net' : Protocol.Net} {l : Step} (hlink : OnLinkP s d ms net l)
    (hstep : Network.step (Protocol.machine routes) net l = some net')
    (hcalls : (net.nodes s).calls ≤ ms.length) : (net'.nodes s).calls ≤ ms.length := by
  have hfaithful : l.Faithful := by
    cases l with
    | alter i c => exact hlink.elim
    | _ => trivial
  rcases Protocol.node_step hfaithful hstep s with heq | ⟨i, r, rfl, hacts, hr⟩ | ⟨p, -, hhears⟩
  · rwa [heq]
  · rw [hr]
    cases hacts with
    | called => exact (List.getElem?_eq_some_iff.mp hlink.2.2).1
    | _ => exact hcalls
  · generalize net'.nodes s = n' at hhears
    cases hhears with
    | _ => exact hcalls

/-- A node that has just been switched on is at the beginning of the first exchange. -/
theorem atRank_booted {recvToken : UInt8 → UInt8 → ℕ} (hr₀ : recvToken d s = r₀) :
    AtRank routes s d ms r₀ 0 (Protocol.booted recvToken) := by
  have hrest : sceneOf s d (Protocol.booted recvToken) = resting (counted r₀ 0) 0 (r₀ + 0) := by
    rw [← hr₀]
    rfl
  exact ⟨_, 0, 0, true, .idle, 0,
    ⟨shows_idle routes _ hrest, by decide, Nat.zero_le _, rfl, rfl⟩, rfl⟩

/-- An exchange that is over is the beginning of the next one. -/
theorem Underway.next (h : Underway routes s d ms r₀ start net k earlier allow stage taken)
    {net' : Protocol.Net} {allow' : Bool} {taken' : ℕ} (hmax : r₀ + ms.length < tokenMax.toNat)
    (hshows : Shows routes s d (message ms k) k (counted r₀ k) (r₀ + k) start net' allow' .finished
      taken') (hcalls : (net'.nodes s).calls ≤ ms.length) :
    Underway routes s d ms r₀ net' net' (k + 1) (earlier + taken') true .idle 0 := by
  have hreached : allow' = true ↔ Expected (counted r₀ k) (r₀ + k) := hshows.reached
  have hmade : (net'.nodes s).calls = k + 1 := hshows.sender.2.1
  have htoken := token_counted (k := k) (by omega) hreached.mp
  have hrest : sceneOf s d net' = resting (counted r₀ (k + 1)) (k + 1) (r₀ + (k + 1)) := by
    rw [hshows.view, scene, htoken]
    rfl
  refine ⟨shows_idle routes _ hrest, by decide, hcalls, ?_, ?_⟩
  · obtain ⟨new, hlog, hnew⟩ := hshows.logged
    have hdecide : allow' = decide (Expected (counted r₀ k) (r₀ + k)) := by
      rw [Bool.eq_iff_iff, decide_eq_true_iff]
      exact hreached
    rw [hlog, List.filter_append, hnew, h.events, history, hdecide]
  · have hbefore := h.balance
    have hbalance : taken' + queues s d net' = queues s d start + 1 := hshows.balance
    omega

section Run

variable (hne : s ≠ d) (hsd : UInt8.ofInt (routes.tables s d) = d)
  (hds : UInt8.ofInt (routes.tables d s) = s) (hmax : r₀ + ms.length < tokenMax.toNat)

include hne hsd hds hmax

/-- **The steps of the link.** Each takes the link further. -/
theorem further_step {p : ℕ} (h : AtRank routes s d ms r₀ p net) {l : Step}
    {net' : Protocol.Net} (hlink : OnLinkP s d ms net l)
    (hstep : Network.step (Protocol.machine routes) net l = some net') :
    ∃ p', p < p' ∧ AtRank routes s d ms r₀ p' net' := by
  obtain ⟨start, k, earlier, allow, stage, taken, hunderway, rfl⟩ := h
  have hcalls := hunderway.calls
  have hmade := hunderway.shows.sender.2.1
  have hnext : stage = .sent → r₀ + k + 1 < tokenMax.toNat := by
    rintro rfl
    have hk : (net.nodes s).calls = k + 1 := hmade
    omega
  have hcall : (net.nodes s).app = none → ∀ m, ms[(net.nodes s).calls]? = some m →
      stage = .idle ∧ m = message ms k := by
    intro happ m hm
    obtain rfl : stage = .idle :=
      (hunderway.shows.app_eq_none_iff.mp happ).resolve_right hunderway.going
    have hk : (net.nodes s).calls = k := hmade
    exact ⟨rfl, (message_eq (hk ▸ hm)).symm⟩
  obtain ⟨allow', stage', taken', hshows, hlt⟩ :=
    advances_of_step hunderway.shows hne hsd hds hnext hcall hlink hstep
  have hcalls' := calls_le hlink hstep hcalls
  by_cases hover : stage' = .finished
  · subst hover
    have hrank : Stage.finished.rank allow' = 12 := rfl
    refine ⟨_, ?_, net', k + 1, _, true, .idle, 0, hunderway.next hmax hshows hcalls', rfl⟩
    have hidle : Stage.idle.rank true = 0 := rfl
    omega
  · refine ⟨_, ?_, start, k, earlier, allow', stage', taken',
      ⟨hshows, hover, hcalls', hunderway.events, hunderway.balance⟩, rfl⟩
    omega

/-- A run on the link gets further with every step. -/
theorem atRank_run {recvToken : UInt8 → UInt8 → ℕ} (hr₀ : recvToken d s = r₀) {ls : List Step}
    (hlink : Lts.Along (Network.step (Protocol.machine routes)) (OnLinkP s d ms)
      (Protocol.booted recvToken) ls)
    (hrun : Lts.run (Network.step (Protocol.machine routes)) (Protocol.booted recvToken) ls =
      some net) : ∃ p, ls.length ≤ p ∧ AtRank routes s d ms r₀ p net := by
  obtain ⟨p, hle, hat⟩ := Lts.exists_rank_of_run (AtRank routes s d ms r₀)
    (fun _ _ _ _ hat hok hstep => further_step hne hsd hds hmax hat hok hstep)
    (atRank_booted hr₀) hlink hrun
  exact ⟨p, by omega, hat⟩

end Run

/-- The series has an end. -/
theorem AtRank.le {p : ℕ} (h : AtRank routes s d ms r₀ p net) : p ≤ 13 * ms.length := by
  obtain ⟨start, k, earlier, allow, stage, taken, hunderway, rfl⟩ := h
  have hcalls := hunderway.calls
  have hearlier := hunderway.balance
  have hbalance := hunderway.shows.balance
  have hrank := stage.rank_add_queued_le allow
  have hmade := hunderway.shows.sender.2.1
  cases stage with
  | idle =>
      have hk : (net.nodes s).calls = k := hmade
      simp only [Stage.rank, Stage.queued] at hbalance ⊢
      omega
  | finished => exact absurd rfl hunderway.going
  | _ =>
      have hk : (net.nodes s).calls = k + 1 := hmade
      omega

/-- While there is a message to be delivered or taken, a step is possible. -/
theorem exists_onLink (hs : s.toNat < routes.netSize) (hd : d.toNat < routes.netSize) (hne : s ≠ d)
    (hms : ∀ m ∈ ms, m.length ≤ 77)
    (h : Underway routes s d ms r₀ start net k earlier allow stage taken) :
    (∃ l, OnLinkP s d ms net l ∧ Network.step (Protocol.machine routes) net l ≠ none) ∨
      net.log.filter notTaken = history s d ms r₀ ms.length ∧
        (net.nodes d).newFrameQueue = [] := by
  refine or_iff_not_imp_left.mpr fun hstuck => ?_
  have happ : (net.nodes s).app = none := by
    by_contra happ
    exact hstuck (exists_step h.shows hne hs hd ms happ)
  obtain rfl : stage = .idle := (h.shows.app_eq_none_iff.mp happ).resolve_right h.going
  have hcalls := h.calls
  have hmade : (net.nodes s).calls = k := h.shows.sender.2.1
  obtain rfl : k = ms.length := by
    by_contra hlast
    have hlt : k < ms.length := by omega
    have hm : ms[(net.nodes s).calls]? = some ms[k] := by
      rw [hmade]
      exact List.getElem?_eq_getElem hlt
    exact hstuck ⟨.act s (.call d ms[k] null), ⟨rfl, rfl, hm⟩, step_act_ne_none hs
      (call_ne_none hd (hms _ (List.getElem_mem hlt)) happ null)⟩
  obtain ⟨new, hlog, hnew⟩ := h.shows.logged
  refine ⟨?_, ?_⟩
  · rw [hlog, List.filter_append, hnew, h.events]
    rfl
  · by_contra hqueue
    exact hstuck ⟨.act d .take, .inr rfl, step_act_ne_none hd (take_ne_none hqueue)⟩

/-! ### What has happened by the end -/

/-- Every message before is acknowledged in the history. -/
theorem returned_mem_history {n j : ℕ} (hj : j < n) :
    .returned (s, j) true (some (s, j)) ∈ history s d ms r₀ n := by
  induction n with
  | zero => exact absurd hj (Nat.not_lt_zero j)
  | succ n ih =>
      by_cases hlast : j = n
      · subst hlast
        exact List.mem_append_left _ (events_over s d _ j _).1
      · exact List.mem_append_right _ (ih (by omega))

/-- No call of the history fails. -/
theorem not_returned_false_mem_history (n : ℕ) (tag : Tag) (cause : Option Tag) :
    .returned tag false cause ∉ history s d ms r₀ n := by
  induction n with
  | zero => exact List.not_mem_nil
  | succ n ih =>
      intro hmem
      rcases List.mem_append.mp hmem with hnew | hold
      · exact (events_over s d _ n _).2.1 tag cause hnew
      · exact ih hold

/-- The data frames of the first `n` exchanges. -/
theorem transmissions_history (n j : ℕ) :
    transmissions s (s, j) (history s d ms r₀ n) =
      if j < n then if Expected (counted r₀ j) (r₀ + j) then 1 else 2 else 0 := by
  induction n with
  | zero => rfl
  | succ n ih =>
      have hnew := (events_over s d (message ms n) n
        (decide (Expected (counted r₀ n) (r₀ + n)))).2.2.2 (s, j)
      rw [transmissions] at ih hnew ⊢
      rw [history, List.count_append, hnew, ih]
      by_cases hj : j = n
      · subst hj
        simp
      · have hlt : j < n + 1 ↔ j < n := by omega
        simp [hj, hlt]

/-- The messages of the first `n` exchanges. -/
theorem puts_history {n : ℕ} (hn : n ≤ ms.length) :
    (puts d (history s d ms r₀ n)).reverse = (ms.take n).map (s, ·) := by
  induction n with
  | zero => rfl
  | succ n ih =>
      have hnew := (events_over s d (message ms n) n
        (decide (Expected (counted r₀ n) (r₀ + n)))).2.2.1
      have hmessage : message ms n = ms[n] := message_eq (List.getElem?_eq_getElem hn)
      have htake : ms.take (n + 1) = ms.take n ++ [ms[n]] := by simp
      rw [history, puts_append, hnew, List.reverse_append, ih (by omega), htake, List.map_append,
        hmessage]
      rfl

/-- At the end of the series everything is delivered, if the messages that were put have been
taken. -/
theorem delivered_of_history {log : List Event} (hmax : r₀ + ms.length < tokenMax.toNat)
    (hlog : log.filter notTaken = history s d ms r₀ ms.length) (htaken : takes d log = puts d log) :
    Delivered s d ms log := by
  have hmem : ∀ e, notTaken e = true → (e ∈ log ↔ e ∈ history s d ms r₀ ms.length) := by
    intro e he
    rw [← hlog, List.mem_filter]
    exact ⟨fun hlog => ⟨hlog, he⟩, fun hboth => hboth.1⟩
  have hcount : ∀ j, transmissions s (s, j) log =
      if j < ms.length then if Expected (counted r₀ j) (r₀ + j) then 1 else 2 else 0 := by
    intro j
    rw [← transmissions_history (d := d), transmissions, transmissions, ← hlog,
      List.count_filter rfl]
  refine ⟨fun k hk => ?_, fun tag cause hfalse => ?_, ?_, fun k hk hpos => ?_, ?_⟩
  · exact (hmem _ rfl).mpr (returned_mem_history hk)
  · exact not_returned_false_mem_history _ tag cause ((hmem _ rfl).mp hfalse)
  · rw [hcount]
    split
    · split <;> omega
    · omega
  · rw [hcount, if_pos hk, if_pos (expected_counted hpos (by omega))]
  · rw [htaken, ← puts_filter, hlog, puts_history (le_refl _), List.take_length]

end Steps

/-! ### The code -/

/-- **Delivery on a good link.** A freshly booted node `s` sends the messages `ms` to `d` over
a link that loses and alters nothing, with no call running out of time and room for whatever is
put into a queue. Whatever the receiver's random number and however the steps of the two nodes
are interleaved, a run has at most thirteen steps for each message, and a run that cannot go on
has delivered them all. -/
theorem delivery (cfg : Config) (s d : UInt8) (hne : s ≠ d) (hs : s.toNat < cfg.netSize)
    (hd : d.toNat < cfg.netSize) (hsd : cfg.tables s d = d.toNat) (hds : cfg.tables d s = s.toNat)
    (rnd : UInt8 → UInt8 → Fin tokenMax.toNat) (encBuf : UInt8 → Mem UInt8)
    (ms : List (List UInt8)) (hms : ∀ m ∈ ms, m.length ≤ 77)
    (hmax : (rnd d s : ℕ) + ms.length < tokenMax.toNat) (ls : List Step)
    (hlink : Lts.Along (Network.step (machine cfg))
      (fun net => OnLink s d ms (net.nodes s).calls fun v => (net.nodes v).hasRoom)
      (booted rnd encBuf) ls)
    (net : LoraNet)
    (hrun : Lts.run (Network.step (machine cfg)) (booted rnd encBuf) ls = some net) :
    ls.length ≤ 13 * ms.length ∧
      ((∀ l, OnLink s d ms (net.nodes s).calls (fun v => (net.nodes v).hasRoom) l →
        Network.step (machine cfg) net l = none) → Delivered s d ms net.log) := by
  have hsd' : UInt8.ofInt ((Refinement.routes cfg).tables s d) = d := by
    simp [Refinement.routes, hsd]
  have hds' : UInt8.ofInt ((Refinement.routes cfg).tables d s) = s := by
    simp [Refinement.routes, hds]
  have hclean : ∀ l ∈ ls, l.Clean :=
    Lts.forall_mem_of_along (fun _ l (h : OnLink s d ms _ _ l) => h.clean hms) hlink hrun
  obtain ⟨net', hrun', hrel⟩ := Refinement.exists_protocol_run cfg hclean hrun
  have hlink' : Lts.Along (Network.step (Protocol.machine (Refinement.routes cfg)))
      (OnLinkP s d ms) (Protocol.booted fun v a => rnd v a) ls :=
    Lts.along_sim (Refinement.step_refines cfg)
      (fun net net' l hrel _ h => (onLink_rel hrel s d ms l).mp h)
      (Refinement.booted_rel cfg rnd encBuf) hclean hlink
  obtain ⟨p, hle, hat⟩ := atRank_run hne hsd' hds' hmax rfl hlink' hrun'
  refine ⟨hle.trans hat.le, fun hstuck => ?_⟩
  obtain ⟨start, k, earlier, allow, stage, taken, hunderway, -⟩ := hat
  rcases exists_onLink hs hd hne hms hunderway with ⟨l, hl, hstep⟩ | ⟨hlog, hqueue⟩
  · have hl' := (onLink_rel hrel s d ms l).mpr hl
    exact absurd (hstuck l hl') (Refinement.step_ne_none hrel (hl'.clean hms) hstep)
  · have hempty := (Network.eq_nil_iff_of_forall₂ (hrel.nodes d).newFrameQueue).mpr hqueue
    have horder := (Queue.fifo_run hrun d).order
    rw [hempty, List.map_nil, List.append_nil] at horder
    rw [← hrel.log] at hlog
    exact delivered_of_history hmax hlog (List.reverse_injective horder)

/-- Two messages to a receiver whose random number is 5; both are taken at the end. -/
def twoMessages : List Step :=
  [.act 0 (.call 1 [7] null), .hear 1 0 .zero, .act 1 .transmit, .hear 0 0 .zero, .act 0 .put,
    .act 0 .poll, .hear 1 0 .zero, .act 1 .put, .act 1 .transmit, .hear 0 0 .zero, .act 0 .put,
    .act 0 .poll, .act 0 (.call 1 [8] null), .hear 1 0 .zero, .act 1 .put, .act 1 .transmit,
    .hear 0 0 .zero, .act 0 .put, .act 0 .poll, .act 1 .take, .act 1 .take]

/-- The run delivers the two messages. -/
theorem delivery_twoMessages :
    ∃ net, Lts.run (Network.step (machine (Config.direct 2 (Equiv.refl Block) Crc8.crc8)))
        (booted (fun _ _ => ⟨5, by decide⟩) fun _ => null) twoMessages = some net ∧
      (takes 1 net.log).reverse = [(0, [7]), (0, [8])] ∧ twoMessages.length ≤ 13 * 2 ∧
      ((∀ l, OnLink 0 1 [[7], [8]] (net.nodes 0).calls (fun v => (net.nodes v).hasRoom) l →
        Network.step (machine (Config.direct 2 (Equiv.refl Block) Crc8.crc8)) net l = none) →
        Delivered 0 1 [[7], [8]] net.log) := by
  have hclean : ∀ l ∈ twoMessages, l.Clean := by
    simp [twoMessages, Step.Clean, Network.Label.Admits, Action.Fits]
  have hlink' : Lts.Along (Network.step (Protocol.machine ⟨2, fun _ dest => dest.toNat⟩))
      (OnLinkP 0 1 [[7], [8]]) (Protocol.booted fun _ _ => 5) twoMessages := by decide
  have hlink := Lts.along_sim_symm
    (Refinement.step_refines (Config.direct 2 (Equiv.refl Block) Crc8.crc8))
    (fun net net' l hrel _ h => (onLink_rel hrel 0 1 [[7], [8]] l).mpr h)
    (Refinement.booted_rel _ (fun _ _ => ⟨5, by decide⟩) fun _ => null) hclean hlink'
  obtain ⟨net, hrun, hlog⟩ := Refinement.exists_code_run
    (Config.direct 2 (Equiv.refl Block) Crc8.crc8) (fun _ _ => ⟨5, by decide⟩) (fun _ => null)
    [.taken 1 0 [8], .taken 1 0 [7], .returned (0, 1) true (some (0, 1)),
      .transmitted 1 (0, 1) typeMaskAck, .put 1 0 [8] (0, 1),
      .transmitted 0 (0, 1) typeMaskNeedAck, .called (0, 1) 1 [8],
      .returned (0, 0) true (some (0, 0)), .transmitted 1 (0, 0) typeMaskAck,
      .put 1 0 [7] (0, 0), .transmitted 0 (0, 0) typeMaskNeedAck,
      .transmitted 1 (0, 0) (typeMaskSync ||| typeMaskResend),
      .transmitted 0 (0, 0) typeMaskNeedAck, .called (0, 0) 1 [7]] hclean (by decide)
  exact ⟨net, hrun, by rw [hlog]; decide, delivery _ 0 1 (by decide) (by decide) (by decide) rfl rfl
    _ _ [[7], [8]] (by decide) (by decide) twoMessages hlink net hrun⟩

end Delivery

end LCore
