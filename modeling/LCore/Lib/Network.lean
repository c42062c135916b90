import LCore.Lib.Lts
import Mathlib.Data.List.Forall2
import Mathlib.Logic.Function.Basic

/-!
# Nodes on a Shared Medium

A network of nodes that all run one program and hear each other's packets. A `Machine` is the
program: what a node does on its own (`act`), which may put packets on the air, and what it
does with a packet it hears (`hear`). Both report events, and the network keeps them in a log,
the newest first. The medium may hand a packet to any node that can hear it, in any order and
as late as it likes; it may lose, duplicate and alter packets.

## Main results

* `nodes_of_run`: a node that takes part in no step of a run stays as it was.
* `nodes_inv`: an invariant of the nodes is preserved by every step, whatever the medium does,
  if the program preserves it.
* `log_inv`: the same for an invariant of a node and what the log says about it.
* `LocalInv.step`: an invariant given by a property of the packets on the air and a property
  of the nodes, each relative to the log, is preserved by every step if the program preserves
  it.
* `justified_cons`: properties of a log by what came before each event.
* `powerStep_inv`: the rule for networks whose nodes may be restarted.
-/

namespace Network

/-- The program of a node with address in `A` and state in `σ`: packets are in `π`, own actions
in `ι`, events in `ε`; `γ` is what a node may find in its memory when it hears a packet, and `κ`
the ways the medium may alter one. -/
structure Machine (A σ π ι γ κ ε : Type*) where
  /-- An action, if the node can take it: its new state, the packets it transmits, and the
  events, the newest first. -/
  act : A → σ → ι → Option (σ × List π × List ε)
  /-- Hearing a packet, if the node listens. -/
  hear : A → σ → π → γ → Option (σ × List ε)
  /-- Whether a node can hear a packet. -/
  audible : A → π → Bool
  /-- Whether the packet is gone when the node has heard it. -/
  consumes : A → π → Bool
  /-- A packet altered in flight, if it can be. -/
  alter : κ → π → Option π

/-- The nodes, the packets on the air, and the log. -/
structure Net (A σ π ε : Type*) where
  nodes : A → σ
  air : List π
  log : List ε

/-- A step of the network. -/
inductive Label (A ι γ κ : Type*)
  | act (a : A) (i : ι)
  | hear (a : A) (k : ℕ) (g : γ)
  | lose (k : ℕ)
  | duplicate (k : ℕ)
  | alter (k : ℕ) (c : κ)

section Step

variable {A σ π ι γ κ ε : Type*} [DecidableEq A] (M : Machine A σ π ι γ κ ε)

/-- The network after a step. -/
def step (net : Net A σ π ε) : Label A ι γ κ → Option (Net A σ π ε)
  | .act a i => (M.act a (net.nodes a) i).map fun r =>
      ⟨Function.update net.nodes a r.1, net.air ++ r.2.1, r.2.2 ++ net.log⟩
  | .hear a k g => net.air[k]?.bind fun p =>
      if M.audible a p = true then
        (M.hear a (net.nodes a) p g).map fun r =>
          ⟨Function.update net.nodes a r.1,
            if M.consumes a p = true then net.air.eraseIdx k else net.air, r.2 ++ net.log⟩
      else none
  | .lose k => if k < net.air.length then some { net with air := net.air.eraseIdx k } else none
  | .duplicate k => net.air[k]?.map fun p => { net with air := p :: net.air }
  | .alter k c => net.air[k]?.bind fun p => (M.alter c p).map fun q =>
      { net with air := net.air.set k q }

variable {M} {net net' : Net A σ π ε}

/-- An action takes place at its node, which may transmit packets and write events. -/
theorem step_act {a : A} {i : ι} :
    step M net (.act a i) = some net' ↔ ∃ r, M.act a (net.nodes a) i = some r ∧
      net' = ⟨Function.update net.nodes a r.1, net.air ++ r.2.1, r.2.2 ++ net.log⟩ := by
  rw [step, Option.map_eq_some_iff]
  exact exists_congr fun r => and_congr_right fun _ => eq_comm

/-- Hearing takes a packet from the air, if the node consumes it. -/
theorem step_hear {a : A} {k : ℕ} {g : γ} :
    step M net (.hear a k g) = some net' ↔ ∃ p r, net.air[k]? = some p ∧
      M.audible a p = true ∧ M.hear a (net.nodes a) p g = some r ∧
      net' = ⟨Function.update net.nodes a r.1,
        if M.consumes a p = true then net.air.eraseIdx k else net.air, r.2 ++ net.log⟩ := by
  simp only [step, Option.bind_eq_some_iff, Option.ite_none_right_eq_some,
    Option.map_eq_some_iff]
  constructor
  · rintro ⟨p, hp, haud, r, hr, rfl⟩
    exact ⟨p, r, hp, haud, hr, rfl⟩
  · rintro ⟨p, r, hp, haud, hr, rfl⟩
    exact ⟨p, hp, haud, r, hr, rfl⟩

/-- An action the program can take is a step. -/
theorem step_act_ne_none {a : A} {i : ι} (hact : M.act a (net.nodes a) i ≠ none) :
    step M net (.act a i) ≠ none := by
  simpa only [step, ne_eq, Option.map_eq_none_iff] using hact

/-- A node that can hear a packet on the air may do so. -/
theorem step_hear_ne_none {a : A} {k : ℕ} {g : γ} {p : π} (hp : net.air[k]? = some p)
    (haud : M.audible a p = true) (hhear : M.hear a (net.nodes a) p g ≠ none) :
    step M net (.hear a k g) ≠ none := by
  simpa only [step, hp, Option.bind_some, if_pos haud, ne_eq, Option.map_eq_none_iff] using hhear

/-- What a step does to one node: nothing, an action of its own, or it hears a packet. -/
theorem node_of_step {l : Label A ι γ κ} (hstep : step M net l = some net') (a : A) :
    net'.nodes a = net.nodes a ∨
    (∃ i r, l = .act a i ∧ M.act a (net.nodes a) i = some r ∧ net'.nodes a = r.1) ∨
    (∃ p g r, p ∈ net.air ∧ M.hear a (net.nodes a) p g = some r ∧ net'.nodes a = r.1) := by
  cases l with
  | act b i =>
      obtain ⟨r, hr, rfl⟩ := step_act.mp hstep
      by_cases hab : a = b
      · subst hab
        exact .inr (.inl ⟨i, r, rfl, hr, Function.update_self ..⟩)
      · exact .inl (Function.update_of_ne hab ..)
  | hear b k g =>
      obtain ⟨p, r, hp, -, hr, rfl⟩ := step_hear.mp hstep
      by_cases hab : a = b
      · subst hab
        exact .inr (.inr ⟨p, g, r, List.mem_of_getElem? hp, hr, Function.update_self ..⟩)
      · exact .inl (Function.update_of_ne hab ..)
  | lose k =>
      simp only [step, Option.ite_none_right_eq_some, Option.some.injEq] at hstep
      obtain ⟨-, rfl⟩ := hstep
      exact .inl rfl
  | duplicate k =>
      simp only [step, Option.map_eq_some_iff] at hstep
      obtain ⟨p, -, rfl⟩ := hstep
      exact .inl rfl
  | alter k c =>
      simp only [step, Option.bind_eq_some_iff, Option.map_eq_some_iff] at hstep
      obtain ⟨p, -, q, -, rfl⟩ := hstep
      exact .inl rfl

/-- The node that takes part in a step. -/
def Label.actor : Label A ι γ κ → Option A
  | .act a _ => some a
  | .hear a _ _ => some a
  | _ => none

/-- A node that takes part in no step of a run stays as it was. -/
theorem nodes_of_run {ls : List (Label A ι γ κ)} {a : A} (ha : ∀ l ∈ ls, l.actor ≠ some a)
    (hrun : Lts.run (step M) net ls = some net') : net'.nodes a = net.nodes a := by
  induction ls generalizing net with
  | nil => rw [Option.some.inj hrun]
  | cons l ls ih =>
      obtain ⟨net₁, hstep, hrest⟩ := Lts.run_cons_eq_some.mp hrun
      rw [ih (fun l' hl' => ha l' (List.mem_cons_of_mem l hl')) hrest]
      have hl := ha l List.mem_cons_self
      cases l with
      | act b i =>
          obtain ⟨r, -, rfl⟩ := step_act.mp hstep
          exact Function.update_of_ne (fun hab => hl (congrArg some hab.symm)) ..
      | hear b k g =>
          obtain ⟨p, r, -, -, -, rfl⟩ := step_hear.mp hstep
          exact Function.update_of_ne (fun hab => hl (congrArg some hab.symm)) ..
      | lose k =>
          simp only [step, Option.ite_none_right_eq_some, Option.some.injEq] at hstep
          obtain ⟨-, rfl⟩ := hstep
          rfl
      | duplicate k =>
          simp only [step, Option.map_eq_some_iff] at hstep
          obtain ⟨p, -, rfl⟩ := hstep
          rfl
      | alter k c =>
          simp only [step, Option.bind_eq_some_iff, Option.map_eq_some_iff] at hstep
          obtain ⟨p, -, q, -, rfl⟩ := hstep
          rfl

/-- When only one packet is on the air, that is the one a node hears. -/
theorem eq_of_getElem?_singleton {air : List π} {p q : π} {k : ℕ} (hair : air = [q])
    (hp : air[k]? = some p) : p = q ∧ air.eraseIdx k = [] := by
  subst hair
  obtain ⟨hk, hpq⟩ := List.getElem?_eq_some_iff.mp hp
  rw [List.length_singleton] at hk
  obtain rfl : k = 0 := by omega
  exact ⟨hpq.symm, rfl⟩

end Step

/-! ### Invariants -/

section Invariant

variable {A σ π ι γ κ ε : Type*}

/-- A step that alters no packet. -/
def Label.Faithful : Label A ι γ κ → Prop
  | .alter _ _ => False
  | _ => True

/-- A step that neither alters a packet nor makes a second one of it. -/
def Label.Single : Label A ι γ κ → Prop
  | .alter _ _ => False
  | .duplicate _ => False
  | _ => True

/-- A step that alters no packet and takes an action only if it satisfies `ok`. -/
def Label.Admits (ok : ι → Prop) : Label A ι γ κ → Prop
  | .act _ i => ok i
  | .alter _ _ => False
  | _ => True

/-- An admitted label alters nothing. -/
theorem Label.Admits.faithful {ok : ι → Prop} {l : Label A ι γ κ} (h : l.Admits ok) :
    l.Faithful := by
  cases l with
  | alter k c => exact h
  | _ => trivial

variable [DecidableEq A] {M : Machine A σ π ι γ κ ε}

/-- The rule for invariants of the nodes: whatever the medium does, they are preserved if the
program preserves them. -/
theorem nodes_inv (Q : A → σ → Prop)
    (hact : ∀ a n i r, Q a n → M.act a n i = some r → Q a r.1)
    (hhear : ∀ a n p g r, Q a n → M.hear a n p g = some r → Q a r.1)
    {net net' : Net A σ π ε} {l : Label A ι γ κ} (hinv : ∀ a, Q a (net.nodes a))
    (hstep : step M net l = some net') (a : A) : Q a (net'.nodes a) := by
  rcases node_of_step hstep a with heq | ⟨i, r, -, hr, heq⟩ | ⟨p, g, r, -, hr, heq⟩
  · rw [heq]
    exact hinv a
  · rw [heq]
    exact hact a _ i r (hinv a) hr
  · rw [heq]
    exact hhear a _ p g r (hinv a) hr

/-- The rule for what a node and the log say of each other, whatever the medium does: it is
preserved if the node preserves it, and if the events of other nodes do not matter to it. -/
theorem log_inv (Q : A → σ → List ε → Prop)
    (hact : ∀ a n i r log, Q a n log → M.act a n i = some r → Q a r.1 (r.2.2 ++ log))
    (hhear : ∀ a n p g r log, Q a n log → M.hear a n p g = some r → Q a r.1 (r.2 ++ log))
    (hact' : ∀ a b n n' i r log, a ≠ b → Q a n log → M.act b n' i = some r →
      Q a n (r.2.2 ++ log))
    (hhear' : ∀ a b n n' p g r log, a ≠ b → Q a n log → M.hear b n' p g = some r →
      Q a n (r.2 ++ log))
    {net net' : Net A σ π ε} {l : Label A ι γ κ} (hinv : ∀ a, Q a (net.nodes a) net.log)
    (hstep : step M net l = some net') (a : A) : Q a (net'.nodes a) net'.log := by
  cases l with
  | act b i =>
      obtain ⟨r, hr, rfl⟩ := step_act.mp hstep
      dsimp only
      by_cases hab : a = b
      · subst hab
        rw [Function.update_self]
        exact hact a _ i r _ (hinv a) hr
      · rw [Function.update_of_ne hab]
        exact hact' a b _ _ i r _ hab (hinv a) hr
  | hear b k g =>
      obtain ⟨p, r, -, -, hr, rfl⟩ := step_hear.mp hstep
      dsimp only
      by_cases hab : a = b
      · subst hab
        rw [Function.update_self]
        exact hhear a _ p g r _ (hinv a) hr
      · rw [Function.update_of_ne hab]
        exact hhear' a b _ _ p g r _ hab (hinv a) hr
  | lose k =>
      simp only [step, Option.ite_none_right_eq_some, Option.some.injEq] at hstep
      obtain ⟨-, rfl⟩ := hstep
      exact hinv a
  | duplicate k =>
      simp only [step, Option.map_eq_some_iff] at hstep
      obtain ⟨p, -, rfl⟩ := hstep
      exact hinv a
  | alter k c =>
      simp only [step, Option.bind_eq_some_iff, Option.map_eq_some_iff] at hstep
      obtain ⟨p, -, q, -, rfl⟩ := hstep
      exact hinv a

/-- The rule for network invariants: it is enough to look at actions, at hearing a packet that
stays on the air, and at what holds when packets disappear or come twice. -/
theorem step_inv (Inv : Net A σ π ε → Prop)
    (hact : ∀ net a i r, Inv net → M.act a (net.nodes a) i = some r →
      Inv ⟨Function.update net.nodes a r.1, net.air ++ r.2.1, r.2.2 ++ net.log⟩)
    (hhear : ∀ net a p g r, Inv net → p ∈ net.air → M.audible a p = true →
      M.hear a (net.nodes a) p g = some r →
      Inv ⟨Function.update net.nodes a r.1, net.air, r.2 ++ net.log⟩)
    (hair : ∀ net air, Inv net → air ⊆ net.air → Inv { net with air := air })
    {net net' : Net A σ π ε} {l : Label A ι γ κ} (hinv : Inv net) (hl : l.Faithful)
    (hstep : step M net l = some net') : Inv net' := by
  cases l with
  | act a i =>
      obtain ⟨r, hr, rfl⟩ := step_act.mp hstep
      exact hact net a i r hinv hr
  | hear a k g =>
      obtain ⟨p, r, hp, haud, hr, rfl⟩ := step_hear.mp hstep
      have hheard := hhear net a p g r hinv (List.mem_of_getElem? hp) haud hr
      split
      · exact hair _ _ hheard (List.eraseIdx_subset)
      · exact hheard
  | lose k =>
      simp only [step, Option.ite_none_right_eq_some, Option.some.injEq] at hstep
      obtain ⟨-, rfl⟩ := hstep
      exact hair net _ hinv List.eraseIdx_subset
  | duplicate k =>
      simp only [step, Option.map_eq_some_iff] at hstep
      obtain ⟨p, hp, rfl⟩ := hstep
      exact hair net _ hinv (List.cons_subset.mpr ⟨List.mem_of_getElem? hp, fun _ h => h⟩)
  | alter k c => exact hl.elim

/-- `P` holds of the packets on the air and `Q` of the nodes, both relative to the log, and `W`
of the log. -/
structure LocalInv (P : List ε → π → Prop) (Q : List ε → A → σ → Prop) (W : List ε → Prop)
    (net : Net A σ π ε) : Prop where
  air : ∀ p ∈ net.air, P net.log p
  nodes : ∀ a, Q net.log a (net.nodes a)
  log : W net.log

/-- The rule for invariants of packets, nodes and log: they are preserved if the program
preserves them and more events do not make them false. -/
theorem LocalInv.step {P : List ε → π → Prop} {Q : List ε → A → σ → Prop} {W : List ε → Prop}
    (hP : ∀ log new p, P log p → P (new ++ log) p)
    (hQ : ∀ log new a n, Q log a n → Q (new ++ log) a n)
    (hact : ∀ log a n i r, Q log a n → W log → M.act a n i = some r →
      Q (r.2.2 ++ log) a r.1 ∧ (∀ p ∈ r.2.1, P (r.2.2 ++ log) p) ∧ W (r.2.2 ++ log))
    (hhear : ∀ log a n p g r, Q log a n → P log p → W log → M.audible a p = true →
      M.hear a n p g = some r → Q (r.2 ++ log) a r.1 ∧ W (r.2 ++ log))
    {net net' : Net A σ π ε} {l : Label A ι γ κ} (hinv : LocalInv P Q W net) (hl : l.Faithful)
    (hstep : step M net l = some net') : LocalInv P Q W net' := by
  have hupdate : ∀ (net : Net A σ π ε) (a : A) (n : σ) (new : List ε),
      (∀ b, Q net.log b (net.nodes b)) → Q (new ++ net.log) a n →
      ∀ b, Q (new ++ net.log) b (Function.update net.nodes a n b) := by
    intro net a n new hnodes hn b
    by_cases hb : b = a
    · subst hb
      rw [Function.update_self]
      exact hn
    · rw [Function.update_of_ne hb]
      exact hQ _ _ _ _ (hnodes b)
  refine step_inv (LocalInv P Q W) ?_ ?_ ?_ hinv hl hstep
  · rintro net a i r ⟨hair, hnodes, hlog⟩ hr
    obtain ⟨hnode, hnew, hlog'⟩ := hact net.log a _ i r (hnodes a) hlog hr
    refine ⟨fun p hp => ?_, hupdate net a r.1 r.2.2 hnodes hnode, hlog'⟩
    rcases List.mem_append.mp hp with hp | hp
    · exact hP _ _ _ (hair p hp)
    · exact hnew p hp
  · rintro net a p g r ⟨hair, hnodes, hlog⟩ hp haud hr
    obtain ⟨hnode, hlog'⟩ := hhear net.log a _ p g r (hnodes a) (hair p hp) hlog haud hr
    exact ⟨fun q hq => hP _ _ _ (hair q hq), hupdate net a r.1 r.2 hnodes hnode, hlog'⟩
  · rintro net air ⟨hair, hnodes, hlog⟩ hsub
    exact ⟨fun p hp => hair p (hsub hp), hnodes, hlog⟩

end Invariant

/-! ### The log -/

section Log

variable {ε : Type*} {why : ε → List ε → Prop}

/-- Every event of the log is justified by the events before it. -/
def Justified (why : ε → List ε → Prop) (log : List ε) : Prop :=
  ∀ e before, (e :: before) <:+ log → why e before

@[simp] theorem justified_nil : Justified why [] := by
  intro e before h
  exact absurd (List.suffix_nil.mp h) (by simp)

/-- A log is justified when its last event is and the rest is. -/
theorem justified_cons {e : ε} {log : List ε} :
    Justified why (e :: log) ↔ why e log ∧ Justified why log := by
  constructor
  · intro h
    exact ⟨h e log (List.suffix_refl _), fun e' before hs =>
      h e' before (hs.trans (List.suffix_cons e log))⟩
  · rintro ⟨he, hlog⟩ e' before hs
    rcases List.suffix_cons_iff.mp hs with heq | hs
    · obtain ⟨rfl, rfl⟩ := List.cons.inj heq
      exact he
    · exact hlog e' before hs

end Log

/-! ### Restarts -/

section Restart

variable {A σ π ι γ κ ε ρ : Type*}

/-- A step of a network whose nodes may be restarted. -/
inductive PowerLabel (A ι γ κ ρ : Type*)
  | step (l : Label A ι γ κ)
  | restart (a : A) (x : ρ)

/-- A condition on the steps; nodes may be restarted at any time. -/
def PowerLabel.Admits (P : Label A ι γ κ → Prop) : PowerLabel A ι γ κ ρ → Prop
  | .step l => P l
  | .restart _ _ => True

variable [DecidableEq A]

/-- A network in which one node starts anew. -/
def Net.restart (net : Net A σ π ε) (a : A) (n : σ) : Net A σ π ε :=
  { net with nodes := Function.update net.nodes a n }

/-- The network after a step, or with a node restarted; what is on the air stays there. -/
def powerStep (M : Machine A σ π ι γ κ ε) (boot : ρ → σ) (net : Net A σ π ε) :
    PowerLabel A ι γ κ ρ → Option (Net A σ π ε)
  | .step l => step M net l
  | .restart a x => some (net.restart a (boot x))

variable {M : Machine A σ π ι γ κ ε} {boot : ρ → σ}

/-- The rule for invariants of networks with restarts. -/
theorem powerStep_inv {P : Label A ι γ κ → Prop} {Inv : Net A σ π ε → Prop}
    (hstep : ∀ net l net', Inv net → P l → step M net l = some net' → Inv net')
    (hrestart : ∀ net a x, Inv net → Inv (net.restart a (boot x))) {net net' : Net A σ π ε}
    {l : PowerLabel A ι γ κ ρ} (hinv : Inv net) (hl : l.Admits P)
    (h : powerStep M boot net l = some net') : Inv net' := by
  cases l with
  | step l => exact hstep net l net' hinv hl h
  | restart a x =>
      obtain rfl := Option.some.inj h
      exact hrestart net a x hinv

/-- A restarted node of which the invariant holds. -/
theorem LocalInv.restart {P : List ε → π → Prop} {Q : List ε → A → σ → Prop} {W : List ε → Prop}
    {net : Net A σ π ε} (h : LocalInv P Q W net) {a : A} {n : σ} (hn : Q net.log a n) :
    LocalInv P Q W (net.restart a n) := by
  refine ⟨h.air, fun b => ?_, h.log⟩
  dsimp only [Net.restart]
  by_cases hb : b = a
  · subst hb
    rw [Function.update_self]
    exact hn
  · rw [Function.update_of_ne hb]
    exact h.nodes b

end Restart

end Network
