import LCore.Lib.Crc8
import LCore.Refinement
import Mathlib.Data.Fintype.Basic

/-!
# What a Log Depends On

The log of a network of nodes running the code is a function of its routes, of the random
numbers of its nodes, and of what the applications, the listeners and the medium do in which
order. The AES key, the checksum, the scratch buffers and everything a function finds
uninitialised on its stack do not show in it: it is the log of the protocol.

## Main results

* `traces_eq`: a schedule gives the code and the protocol the same log, or is a run of neither.
* `logs_eq`: networks with the same routes and random numbers have the same logs, whatever their
  keys and checksums are and whatever is left in their memory.
-/

open Memory

namespace LCore

/-- An action without what the application's buffer on the stack holds before. -/
def Action.forget : Action → Action
  | .call dest m _ => .call dest m null
  | i => i

/-- A step without what the functions find uninitialised on their stacks. -/
def Step.forget : Step → Step
  | .act v i => .act v i.forget
  | .hear v k _ => .hear v k .zero
  | l => l

@[simp] theorem Step.forget_clean {l : Step} : l.forget.Clean ↔ l.Clean := by
  cases l with
  | act v i => cases i <;> rfl
  | _ => rfl

namespace Traces

/-- The log of a run of the code, if the schedule is one. -/
def codeLog (cfg : Config) (rnd : UInt8 → UInt8 → Fin tokenMax.toNat) (encBuf : UInt8 → Mem UInt8)
    (ls : List Step) : Option (List Event) :=
  (Lts.run (Network.step (machine cfg)) (booted rnd encBuf) ls).map (·.log)

/-- The log of a run of the protocol. -/
def protocolLog (routes : Protocol.Routes) (rnd : UInt8 → UInt8 → Fin tokenMax.toNat)
    (ls : List Step) : Option (List Event) :=
  (Lts.run (Network.step (Protocol.machine routes)) (Protocol.booted fun v a => rnd v a) ls).map
    (·.log)

/-- The protocol looks at nothing that is forgotten. -/
theorem step_forget (routes : Protocol.Routes) (net : Protocol.Net) (l : Step) :
    Network.step (Protocol.machine routes) net l.forget =
      Network.step (Protocol.machine routes) net l := by
  cases l with
  | act v i => cases i <;> rfl
  | _ => rfl

/-- A run of the protocol does not depend on what is forgotten. -/
theorem run_forget (routes : Protocol.Routes) (net : Protocol.Net) (ls : List Step) :
    Lts.run (Network.step (Protocol.machine routes)) net (ls.map Step.forget) =
      Lts.run (Network.step (Protocol.machine routes)) net ls := by
  induction ls generalizing net with
  | nil => rfl
  | cons l ls ih => simp only [List.map_cons, Lts.run_cons, step_forget, ih]

/-- Which schedules are clean does not depend on what is left in memory. -/
theorem clean_of_forget_eq {ls ls' : List Step} (hsame : ls'.map Step.forget = ls.map Step.forget)
    (hclean : ∀ l ∈ ls, l.Clean) : ∀ l ∈ ls', l.Clean := by
  intro l hl
  obtain ⟨k, hk, hkl⟩ := List.mem_map.mp (hsame ▸ List.mem_map_of_mem hl)
  exact Step.forget_clean.mp (hkl ▸ Step.forget_clean.mpr (hclean k hk))

/-- Corresponding networks have the same log, and there is none of either or of both. -/
theorem log_eq_of_rel {cfg : Config} {net : Option LoraNet} {net' : Option Protocol.Net}
    (hrel : Option.Rel (Refinement.NetRel cfg) net net') : net.map (·.log) = net'.map (·.log) := by
  rcases hrel with (hnet | _)
  · exact congrArg some hnet.log
  · rfl

/-- The run of the protocol that corresponds to a run of the code needs no more than what the
schedule says when the memory is forgotten. -/
theorem run_rel (cfg : Config) (rnd : UInt8 → UInt8 → Fin tokenMax.toNat)
    (encBuf : UInt8 → Mem UInt8) {ls : List Step} (hclean : ∀ l ∈ ls, l.Clean) :
    Option.Rel (Refinement.NetRel cfg)
      (Lts.run (Network.step (machine cfg)) (booted rnd encBuf) ls)
      (Lts.run (Network.step (Protocol.machine (Refinement.routes cfg)))
        (Protocol.booted fun v a => rnd v a) (ls.map Step.forget)) := by
  rw [run_forget]
  exact Refinement.run_refines cfg rnd encBuf hclean

/-- **The code and the protocol have the same traces.** Every schedule in which the messages fit
a frame and the medium alters nothing either gives both the same log, or is impossible for both;
the protocol can do without what the functions of the code find in uninitialised memory. -/
theorem traces_eq (cfg : Config) (rnd : UInt8 → UInt8 → Fin tokenMax.toNat)
    (encBuf : UInt8 → Mem UInt8) {ls : List Step} (hclean : ∀ l ∈ ls, l.Clean) :
    codeLog cfg rnd encBuf ls = protocolLog (Refinement.routes cfg) rnd (ls.map Step.forget) :=
  log_eq_of_rel (run_rel cfg rnd encBuf hclean)

/-- A message that is sent, heard and taken. -/
def sentAndTaken (locals : Node.Locals) : List Step :=
  [.act 0 (.call 1 [7] null), .hear 1 0 locals, .act 1 .put, .act 1 .take]

/-- No packet of the run is altered, and its message fits. -/
theorem sentAndTaken_clean (locals : Node.Locals) : ∀ l ∈ sentAndTaken locals, l.Clean := by
  simp [sentAndTaken, Step.Clean, Network.Label.Admits, Action.Fits]

/-- What its log says. -/
def sentAndTakenLog : List Event :=
  [.taken 1 0 [7], .put 1 0 [7] (0, 0), .transmitted 0 (0, 0) typeMaskNeedAck, .called (0, 0) 1 [7]]

/-- The log that the protocol has of it. -/
theorem protocolLog_sentAndTaken (locals : Node.Locals) :
    protocolLog ⟨2, fun _ d => d.toNat⟩ (fun _ _ => ⟨0, by decide⟩)
      ((sentAndTaken locals).map Step.forget) = some sentAndTakenLog := by
  have hforget : (sentAndTaken locals).map Step.forget = sentAndTaken .zero := rfl
  rw [hforget]
  decide

/-- Two nodes, of which every one expects the token one next. -/
theorem traces_eq_sentAndTaken :
    codeLog (.direct 2 (Equiv.refl _) Crc8.crc8) (fun _ _ => ⟨0, by decide⟩) (fun _ => null)
        (sentAndTaken ⟨⟨1, fun _ => 2, 3⟩, fun _ => 4⟩) = some sentAndTakenLog ∧
    codeLog (.direct 2 (Equiv.refl _) Crc8.crc8) (fun _ _ => ⟨0, by decide⟩) (fun _ => null)
        (sentAndTaken ⟨⟨1, fun _ => 2, 3⟩, fun _ => 4⟩) =
      protocolLog (Refinement.routes (.direct 2 (Equiv.refl _) Crc8.crc8))
        (fun _ _ => ⟨0, by decide⟩)
        ((sentAndTaken ⟨⟨1, fun _ => 2, 3⟩, fun _ => 4⟩).map Step.forget) := by
  have heq := traces_eq (.direct 2 (Equiv.refl _) Crc8.crc8) (fun _ _ => ⟨0, by decide⟩)
    (fun _ => null) (sentAndTaken_clean ⟨⟨1, fun _ => 2, 3⟩, fun _ => 4⟩)
  exact ⟨heq.trans (protocolLog_sentAndTaken _), heq⟩

/-- **Keys, checksums and memory do not show.** Two networks with the same routes and the same
random numbers have the same log after schedules that differ in nothing but what is left in
memory, whatever permutation of the blocks the cipher and whatever function of the bytes the
checksum is. -/
theorem logs_eq (cfg cfg' : Config) (hroutes : Refinement.routes cfg = Refinement.routes cfg')
    (rnd : UInt8 → UInt8 → Fin tokenMax.toNat) (encBuf encBuf' : UInt8 → Mem UInt8)
    {ls ls' : List Step} (hclean : ∀ l ∈ ls, l.Clean)
    (hsame : ls'.map Step.forget = ls.map Step.forget) :
    codeLog cfg rnd encBuf ls = codeLog cfg' rnd encBuf' ls' := by
  have hclean' : ∀ l ∈ ls', l.Clean := clean_of_forget_eq hsame hclean
  have hlog := log_eq_of_rel (run_rel cfg rnd encBuf hclean)
  have hlog' := log_eq_of_rel (run_rel cfg' rnd encBuf' hclean')
  rw [hsame, ← hroutes] at hlog'
  exact hlog.trans hlog'.symm

/-- A network whose cipher and checksum do nothing, and one with the checksum of the code and a
cipher that swaps two blocks, the listener of which starts with other locals. -/
theorem logs_eq_sentAndTaken :
    codeLog (.direct 2 (Equiv.refl _) fun _ => 0) (fun _ _ => ⟨0, by decide⟩) (fun _ => null)
        (sentAndTaken ⟨⟨1, fun _ => 2, 3⟩, fun _ => 4⟩) = some sentAndTakenLog ∧
    codeLog (.direct 2 (Equiv.refl _) fun _ => 0) (fun _ _ => ⟨0, by decide⟩) (fun _ => null)
        (sentAndTaken ⟨⟨1, fun _ => 2, 3⟩, fun _ => 4⟩) =
      codeLog (.direct 2 (Equiv.swap (fun _ => 0) fun _ => 1) Crc8.crc8)
        (fun _ _ => ⟨0, by decide⟩) (fun _ _ => 9) (sentAndTaken .zero) := by
  have hlog := log_eq_of_rel (run_rel (.direct 2 (Equiv.refl _) fun _ => 0)
    (fun _ _ => ⟨0, by decide⟩) (fun _ => null)
    (sentAndTaken_clean ⟨⟨1, fun _ => 2, 3⟩, fun _ => 4⟩))
  exact ⟨hlog.trans (protocolLog_sentAndTaken _),
    logs_eq (.direct 2 (Equiv.refl _) fun _ => 0)
      (.direct 2 (Equiv.swap (fun _ => 0) fun _ => 1) Crc8.crc8) rfl _ _ _
      (sentAndTaken_clean _) rfl⟩

end Traces

end LCore
