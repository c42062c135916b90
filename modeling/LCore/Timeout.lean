import LCore.Copies
import LCore.Lib.WrappingClock

/-!
# The Time Limit of a Wait

A call of `_send` that waits reads `millis()` into `_wait_start`, a `uint64_t`, and polls
`response_queue` while `millis()-_wait_start < RESPONSE_TIMEOUT_MS`. On the nodes `millis()` is
a counter of 32 bits; the difference is taken in 64. `TimedWait` is a wait with its clock:
a `Round` of the loop has the instant at which the condition is evaluated, and when the round
ends in a recursive call, the instant at which that one starts its own wait.

The condition is right as long as the counter has not wrapped since the wait began. When it
has, the difference is close to `2 ^ 64` and the loop ends at once: `along_exact_iff`.

## Main results

* `step_cases`: what a round does.
* `polls_iff`: the condition as the difference of two readings of a clock that wraps.
* `along_exact_iff`: the rounds at which the condition is right.
* `send_of_run`: a wait with its clock is a wait over the frames it has found.
-/

namespace LCore

namespace Timeout

open Encryption WrappingClock

/-- `RESPONSE_TIMEOUT_MS`, as it is compared. -/
def responseTimeoutMs : UInt64 := 1000

/-- `millis()` at an instant, in milliseconds since the node was switched on. -/
def millis (instant : ℕ) : UInt32 := UInt32.ofNat instant

/-- The condition of the wait loop: `millis()-_wait_start < RESPONSE_TIMEOUT_MS`. -/
def inTime (now : UInt32) (waitStart : UInt64) : Bool :=
  now.toUInt64 - waitStart < responseTimeoutMs

/-- A call of `_send` in its wait: the globals, the variables of the call, `_wait_start`, the
packets transmitted so far, and the value returned if it has returned. `began` is the instant at
which the wait started and `clock` the last one at which the clock was read; no step depends on
`began`. -/
structure TimedWait where
  globals : Globals
  waiting : Waiting
  waitStart : UInt64
  packets : List (List UInt8)
  returned : Option Bool
  began : ℕ
  clock : ℕ

/-- A round of the loop: the instant at which its condition is evaluated, the frame that
`xQueueReceive` finds if it is called, and the instant at which a recursive call starts to
wait. -/
structure Round where
  now : ℕ
  frame : Option LoraFrame
  again : ℕ

/-- The transmission, and the start of the wait. -/
def start (dev : Device) (g : Globals) (w : Waiting) (instant : ℕ) : TimedWait where
  globals := g
  waiting := w
  waitStart := (millis instant).toUInt64
  packets := [transmit dev w.address w.msg w.msgSize w.flags]
  returned := none
  began := instant
  clock := instant

/-- The round looks into `response_queue`. -/
def polls (s : TimedWait) (r : Round) : Bool := inTime (millis r.now) s.waitStart

/-- A round may follow: the call has not returned, and time does not go back. -/
def Follows (s : TimedWait) (r : Round) : Prop :=
  s.returned = none ∧ s.clock ≤ r.now ∧ r.now ≤ r.again

instance (s : TimedWait) (r : Round) : Decidable (Follows s r) :=
  inferInstanceAs (Decidable (_ ∧ _))

/-- A round of the loop. -/
def step (dev : Device) (s : TimedWait) (r : Round) : Option TimedWait :=
  if ¬ Follows s r then none
  else if polls s r then
    match r.frame with
    | none => some { s with clock := r.now }
    | some frame =>
        let h := handleResponse dev.aes s.globals s.waiting frame
        match h.2.2 with
        | .returned result =>
            some { s with
              globals := h.1, waiting := h.2.1, returned := some result, clock := r.now }
        | .wait => some { s with globals := h.1, waiting := h.2.1, clock := r.now }
        | .resend =>
            -- the recursive call: it transmits, and overwrites `_wait_start`
            let s' := start dev h.1 { h.2.1 with allowResend := false } r.again
            some { s' with packets := s.packets ++ s'.packets }
  else
    some { s with returned := some false, clock := r.now }

/-- The round is right about the time: it polls if fewer than `RESPONSE_TIMEOUT_MS` milliseconds
have passed since the wait began, and if not, the call returns. -/
def Exact (dev : Device) (s : TimedWait) (r : Round) : Prop :=
  ∀ s', step dev s r = some s' →
    (r.now - s.began < responseTimeoutMs.toNat → polls s r = true) ∧
    (responseTimeoutMs.toNat ≤ r.now - s.began → polls s r = false ∧ s'.returned = some false)

/-- The counter has not wrapped since the wait began, or it has, at least
`RESPONSE_TIMEOUT_MS` milliseconds have passed, and it is not again less than that above where the
wait began. -/
def Steady (s : TimedWait) (r : Round) : Prop :=
  Follows s r → Faithful (2 ^ 32) responseTimeoutMs.toNat s.began r.now

/-! ### One round -/

/-- What a round does. -/
theorem step_cases {dev : Device} {s s' : TimedWait} {r : Round} (h : step dev s r = some s') :
    Follows s r ∧
    ((polls s r = false ∧ s' = { s with returned := some false, clock := r.now }) ∨
    (polls s r = true ∧ r.frame = none ∧ s' = { s with clock := r.now }) ∨
    ∃ frame, polls s r = true ∧ r.frame = some frame ∧
      let h := handleResponse dev.aes s.globals s.waiting frame
      (∃ result, h.2.2 = .returned result ∧ s' = { s with
        globals := h.1, waiting := h.2.1, returned := some result, clock := r.now }) ∨
      (h.2.2 = .wait ∧ s' = { s with globals := h.1, waiting := h.2.1, clock := r.now }) ∨
      (h.2.2 = .resend ∧
        let again := start dev h.1 { h.2.1 with allowResend := false } r.again
        s' = { again with packets := s.packets ++ again.packets })) := by
  rw [step] at h
  by_cases hfollows : Follows s r
  swap
  · rw [if_pos hfollows] at h
    exact absurd h (by simp)
  rw [if_neg (not_not.mpr hfollows)] at h
  refine ⟨hfollows, ?_⟩
  cases hpolls : polls s r with
  | false =>
      rw [hpolls, if_neg (by simp)] at h
      exact .inl ⟨rfl, (Option.some.inj h).symm⟩
  | true =>
      rw [hpolls, if_pos rfl] at h
      cases hframe : r.frame with
      | none =>
          rw [hframe] at h
          exact .inr (.inl ⟨rfl, rfl, (Option.some.inj h).symm⟩)
      | some frame =>
          refine .inr (.inr ⟨frame, rfl, rfl, ?_⟩)
          simp only [hframe] at h
          cases hreply : (handleResponse dev.aes s.globals s.waiting frame).2.2 with
          | returned result =>
              simp only [hreply] at h
              exact .inl ⟨result, hreply, (Option.some.inj h).symm⟩
          | wait =>
              simp only [hreply] at h
              exact .inr (.inl ⟨hreply, (Option.some.inj h).symm⟩)
          | resend =>
              simp only [hreply] at h
              exact .inr (.inr ⟨hreply, (Option.some.inj h).symm⟩)

/-- Every round that may follow does something. -/
theorem exists_step (dev : Device) {s : TimedWait} {r : Round} (h : Follows s r) :
    ∃ s', step dev s r = some s' := by
  rw [step, if_neg (not_not.mpr h)]
  split
  · split
    · exact ⟨_, rfl⟩
    · dsimp only
      split <;> exact ⟨_, rfl⟩
  · exact ⟨_, rfl⟩

/-! ### What the condition measures -/

/-- `_wait_start` is what the clock showed when the wait began. -/
structure Timed (s : TimedWait) : Prop where
  waitStart : s.waitStart = (millis s.began).toUInt64
  began : s.began ≤ s.clock

/-- A wait that starts is timed. -/
theorem timed_start (dev : Device) (g : Globals) (w : Waiting) (instant : ℕ) :
    Timed (start dev g w instant) :=
  ⟨rfl, Nat.le_refl _⟩

/-- A round keeps `_wait_start` and the beginning of the wait together; a recursive call sets
both anew. -/
theorem timed_step {dev : Device} {s s' : TimedWait} {r : Round} (hs : Timed s)
    (h : step dev s r = some s') : Timed s' := by
  have hbegan := hs.began
  obtain ⟨⟨-, hclock, -⟩, ⟨-, rfl⟩ | ⟨-, -, rfl⟩ | ⟨frame, -, -, hreply⟩⟩ := step_cases h
  · exact ⟨hs.waitStart, by simp only; omega⟩
  · exact ⟨hs.waitStart, by simp only; omega⟩
  · obtain ⟨result, -, rfl⟩ | ⟨-, rfl⟩ | ⟨-, rfl⟩ := hreply
    · exact ⟨hs.waitStart, by simp only; omega⟩
    · exact ⟨hs.waitStart, by simp only; omega⟩
    · exact ⟨rfl, Nat.le_refl _⟩

/-- The condition compares the limit with the difference of two readings of the 32-bit clock
in a 64-bit counter. -/
theorem polls_iff {s : TimedWait} (hs : Timed s) (r : Round) :
    polls s r = true ↔
      widened (2 ^ 32) (2 ^ 64) s.began r.now < responseTimeoutMs.toNat := by
  have hread : ∀ t, (millis t).toUInt64.toNat = reading (2 ^ 32) t := by
    intro t
    rw [UInt32.toNat_toUInt64, millis, UInt32.toNat_ofNat']
    rfl
  rw [polls, inTime, decide_eq_true_iff, UInt64.lt_iff_toNat_lt, UInt64.toNat_sub, hs.waitStart,
    hread, hread]
  rfl

/-- A round is right about the time exactly when the clock is faithful. -/
theorem exact_iff (dev : Device) {s : TimedWait} (hs : Timed s) (r : Round) :
    Exact dev s r ↔ Steady s r := by
  have hbegan := hs.began
  have hlimit : responseTimeoutMs.toNat = 1000 := rfl
  have hdeadline : Follows s r →
      ((polls s r = true ↔ r.now - s.began < responseTimeoutMs.toNat) ↔
        Faithful (2 ^ 32) responseTimeoutMs.toNat s.began r.now) := by
    rintro ⟨-, hclock, -⟩
    rw [polls_iff hs r]
    exact widened_exact_iff (by omega) (by omega) (by omega)
  constructor
  · intro hexact hfollows
    obtain ⟨s', h⟩ := exists_step dev hfollows
    obtain ⟨hgoes, hends⟩ := hexact s' h
    refine (hdeadline hfollows).mp ⟨fun hpolls => ?_, hgoes⟩
    by_contra hlate
    exact absurd ((hends (Nat.not_lt.mp hlate)).1.symm.trans hpolls) (by simp)
  · intro hsteady s' h
    obtain ⟨hfollows, hcases⟩ := step_cases h
    have hiff := (hdeadline hfollows).mpr (hsteady hfollows)
    refine ⟨hiff.mpr, fun hlate => ?_⟩
    have hpolls : polls s r = false := by
      rw [← Bool.not_eq_true, hiff]
      exact Nat.not_lt.mpr hlate
    refine ⟨hpolls, ?_⟩
    rcases hcases with ⟨-, rfl⟩ | ⟨hyes, -⟩ | ⟨_, hyes, -⟩
    · rfl
    · exact absurd (hpolls.symm.trans hyes) (by simp)
    · exact absurd (hpolls.symm.trans hyes) (by simp)

/-- **The time limit.** For every call, every instant at which its wait begins, and every run of
its loop with any frames at any later instants, through the wait of a recursive call as well: the
loop polls as long as fewer than `RESPONSE_TIMEOUT_MS` milliseconds have passed since the wait
began and returns `false` once they have, at every round, exactly when the clock is faithful at
every round. -/
theorem along_exact_iff (dev : Device) (g : Globals) (w : Waiting) (instant : ℕ)
    (rounds : List Round) :
    Lts.Along (step dev) (Exact dev) (start dev g w instant) rounds ↔
      Lts.Along (step dev) Steady (start dev g w instant) rounds := by
  have hstart := timed_start dev g w instant
  constructor
  · exact Lts.along_of_inv (fun s r s' hs _ h => timed_step hs h)
      (fun s r hs hexact => (exact_iff dev hs r).mp hexact) hstart
  · exact Lts.along_of_inv (fun s r s' hs _ h => timed_step hs h)
      (fun s r hs hsteady => (exact_iff dev hs r).mpr hsteady) hstart

/-- A wait that begins half a second before the counter wraps ends when it wraps, whatever the
call. -/
theorem not_exact_wrap :
    ¬ ∃ dev g w, Lts.Along (step dev) (Exact dev) (start dev g w 4294966796)
      [⟨4294967296, none, 4294967296⟩] := by
  rintro ⟨dev, g, w, hexact, -⟩
  have hfollows : Follows (start dev g w 4294966796) ⟨4294967296, none, 4294967296⟩ :=
    ⟨rfl, by simp [start], by simp⟩
  have hsteady := (exact_iff dev (timed_start dev g w 4294966796) _).mp hexact hfollows
  simp only [start] at hsteady
  exact absurd hsteady (by decide)

/-! ### The wait without its clock -/

/-- A call that has returned makes no more rounds. -/
theorem run_of_returned {dev : Device} {s s' : TimedWait} {rounds : List Round} {result : Bool}
    (hs : s.returned = some result) (hrun : Lts.run (step dev) s rounds = some s') : s' = s := by
  cases rounds with
  | nil => exact (Option.some.inj hrun).symm
  | cons r rounds =>
      obtain ⟨s₁, hstep, -⟩ := Lts.run_cons_eq_some.mp hrun
      exact absurd ((step_cases hstep).1.1.symm.trans hs) (by simp)

/-- A wait that has returned did what `_send` does over the frames it has found before its time
was up, and nothing else: it transmitted the same packets, and left the same globals and the same
value. -/
theorem send_of_run {dev : Device} {s s' : TimedWait} {rounds : List Round} {result : Bool}
    (hs : s.returned = none) (hrun : Lts.run (step dev) s rounds = some s')
    (hreturned : s'.returned = some result) :
    ∃ frames packets, frames.Sublist (rounds.filterMap Round.frame) ∧
      Copies.send dev s.globals s.waiting frames = (s'.globals, packets, result) ∧
      s'.packets = s.packets ++ packets := by
  induction rounds generalizing s with
  | nil =>
      obtain rfl : s = s' := Option.some.inj hrun
      exact absurd (hs.symm.trans hreturned) (by simp)
  | cons r rounds ih =>
      obtain ⟨s₁, hstep, hrest⟩ := Lts.run_cons_eq_some.mp hrun
      obtain ⟨-, ⟨-, rfl⟩ | ⟨-, hframe, rfl⟩ | ⟨frame, -, hframe, hreply⟩⟩ :=
        step_cases hstep
      · -- the time is up
        obtain rfl := run_of_returned rfl hrest
        obtain rfl := Option.some.inj hreturned
        exact ⟨[], [], List.nil_sublist _, rfl, (List.append_nil _).symm⟩
      · -- the queue is empty
        obtain ⟨frames, packets, hsub, hsend, hpackets⟩ :=
          ih (s := { s with clock := r.now }) hs hrest
        rw [List.filterMap_cons_none hframe]
        exact ⟨frames, packets, hsub, hsend, hpackets⟩
      · rw [List.filterMap_cons_some hframe]
        obtain ⟨value, hvalue, rfl⟩ | ⟨hwait, rfl⟩ | ⟨hresend, rfl⟩ := hreply
        · obtain rfl := run_of_returned rfl hrest
          obtain rfl := Option.some.inj hreturned
          refine ⟨[frame], [], List.singleton_sublist.mpr List.mem_cons_self, ?_,
            (List.append_nil _).symm⟩
          simp only [Copies.send, hvalue]
        · obtain ⟨frames, packets, hsub, hsend, hpackets⟩ := ih (by exact hs) hrest
          refine ⟨frame :: frames, packets, hsub.cons_cons frame, ?_, hpackets⟩
          simp only [Copies.send, hwait, hsend]
        · obtain ⟨frames, packets, hsub, hsend, hpackets⟩ := ih rfl hrest
          simp only [start] at hsend hpackets
          set w := (handleResponse dev.aes s.globals s.waiting frame).2.1 with hw
          refine ⟨frame :: frames, transmit dev w.address w.msg w.msgSize w.flags :: packets,
            hsub.cons_cons frame, ?_, ?_⟩
          · simp only [Copies.send, hresend, ← hw, hsend]
          · rw [hpackets, List.append_assoc, List.singleton_append]

end Timeout

end LCore
