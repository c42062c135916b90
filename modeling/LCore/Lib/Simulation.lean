import LCore.Lib.Network
import Mathlib.Data.List.Forall2

/-!
# Networks That Correspond

Two programs correspond when related nodes can take the same actions and hear related packets
alike. Their networks then take the same steps, and their logs are the same.

## Main results

* `step_sim`: programs that correspond action by action give networks that correspond step by
  step, with the same log.
* `powerStep_sim`: the same for networks whose nodes may be restarted.
-/

namespace Network

section Simulation

variable {A σ π σ' π' ι γ κ ε ρ : Type*}

/-- Two programs correspond: related nodes can take the same actions and hear related packets
alike, with related results and the same events. -/
structure Simulates (M : Machine A σ π ι γ κ ε) (M' : Machine A σ' π' ι γ κ ε)
    (Rnode : A → σ → σ' → Prop) (Rpacket : π → π' → Prop) (ok : ι → Prop) : Prop where
  act : ∀ a n n' i, Rnode a n n' → ok i →
    Option.Rel (fun r r' => Rnode a r.1 r'.1 ∧ List.Forall₂ Rpacket r.2.1 r'.2.1 ∧
      r.2.2 = r'.2.2) (M.act a n i) (M'.act a n' i)
  hear : ∀ a n n' p p' g, Rnode a n n' → Rpacket p p' →
    Option.Rel (fun r r' => Rnode a r.1 r'.1 ∧ r.2 = r'.2) (M.hear a n p g) (M'.hear a n' p' g)
  audible : ∀ a p p', Rpacket p p' → M.audible a p = M'.audible a p'
  consumes : ∀ a p p', Rpacket p p' → M.consumes a p = M'.consumes a p'

/-- Networks with related nodes, related packets on the air, and the same log. -/
structure Related (Rnode : A → σ → σ' → Prop) (Rpacket : π → π' → Prop) (net : Net A σ π ε)
    (net' : Net A σ' π' ε) : Prop where
  nodes : ∀ a, Rnode a (net.nodes a) (net'.nodes a)
  air : List.Forall₂ Rpacket net.air net'.air
  log : net.log = net'.log

/-- Corresponding lists are empty together. -/
theorem eq_nil_iff_of_forall₂ {α β : Type*} {R : α → β → Prop} {l : List α} {l' : List β}
    (h : List.Forall₂ R l l') : l = [] ↔ l' = [] := by
  rw [← List.length_eq_zero_iff, ← List.length_eq_zero_iff, h.length_eq]

/-- What corresponds has the property when its counterparts have. -/
theorem forall_mem_iff_of_forall₂ {R : π → π' → Prop} {P : π → Prop} {Q : π' → Prop}
    (hPQ : ∀ p p', R p p' → (P p ↔ Q p')) {air : List π} {air' : List π'}
    (h : List.Forall₂ R air air') : (∀ p ∈ air, P p) ↔ ∀ p' ∈ air', Q p' := by
  induction h with
  | nil => simp
  | cons hp _ ih => rw [List.forall_mem_cons, List.forall_mem_cons, hPQ _ _ hp, ih]

/-- Lists that correspond do so at every position. -/
theorem forall₂_getElem? {R : π → π' → Prop} {l : List π} {l' : List π'}
    (h : List.Forall₂ R l l') (k : ℕ) : Option.Rel R l[k]? l'[k]? := by
  induction h generalizing k with
  | nil => exact .none
  | cons hab _ ih =>
      cases k with
      | zero => exact .some hab
      | succ k => exact ih k

/-- Every element has a counterpart. -/
theorem exists_of_forall₂ {R : π → π' → Prop} {l : List π} {l' : List π'}
    (h : List.Forall₂ R l l') {q : π'} (hq : q ∈ l') : ∃ p ∈ l, R p q := by
  induction h with
  | nil => exact nomatch hq
  | @cons p q' l l' hpq _ ih =>
      rcases List.mem_cons.mp hq with rfl | hq
      · exact ⟨p, List.mem_cons_self, hpq⟩
      · obtain ⟨p', hp', hR⟩ := ih hq
        exact ⟨p', List.mem_cons_of_mem _ hp', hR⟩

/-- Lists that correspond do so when a position is erased. -/
theorem forall₂_eraseIdx {R : π → π' → Prop} {l : List π} {l' : List π'}
    (h : List.Forall₂ R l l') (k : ℕ) : List.Forall₂ R (l.eraseIdx k) (l'.eraseIdx k) := by
  induction h generalizing k with
  | nil => exact .nil
  | cons hab htail ih =>
      cases k with
      | zero => exact htail
      | succ k => exact .cons hab (ih k)

variable {M : Machine A σ π ι γ κ ε} {M' : Machine A σ' π' ι γ κ ε}
  {Rnode : A → σ → σ' → Prop} {Rpacket : π → π' → Prop} {ok : ι → Prop}

variable [DecidableEq A]

/-- Nodes that correspond do so after one of them has been exchanged. -/
theorem Related.update {net : Net A σ π ε} {net' : Net A σ' π' ε}
    (h : Related Rnode Rpacket net net') {a : A} {n : σ} {n' : σ'} (hn : Rnode a n n') (b : A) :
    Rnode b (Function.update net.nodes a n b) (Function.update net'.nodes a n' b) := by
  by_cases hb : b = a
  · subst hb
    rw [Function.update_self, Function.update_self]
    exact hn
  · rw [Function.update_of_ne hb, Function.update_of_ne hb]
    exact h.nodes b

/-- **Lockstep.** Networks of corresponding programs take corresponding steps. -/
theorem step_sim (hsim : Simulates M M' Rnode Rpacket ok) {net : Net A σ π ε}
    {net' : Net A σ' π' ε} {l : Label A ι γ κ} (h : Related Rnode Rpacket net net')
    (hl : l.Admits ok) :
    Option.Rel (Related Rnode Rpacket) (step M net l) (step M' net' l) := by
  cases l with
  | act a i =>
      have hact := hsim.act a _ _ i (h.nodes a) hl
      simp only [step]
      revert hact
      generalize M.act a (net.nodes a) i = r
      generalize M'.act a (net'.nodes a) i = r'
      rintro (⟨hnode, hpackets, hev⟩ | _)
      · exact .some ⟨h.update hnode, List.rel_append h.air hpackets,
          congrArg₂ (· ++ ·) hev h.log⟩
      · exact .none
  | hear a k g =>
      have hget := forall₂_getElem? h.air k
      simp only [step]
      revert hget
      generalize net.air[k]? = p
      generalize net'.air[k]? = p'
      rintro (hp | _)
      · rename_i p p'
        simp only [Option.bind_some, hsim.audible a p p' hp, hsim.consumes a p p' hp]
        split
        · have hhear := hsim.hear a _ _ p p' g (h.nodes a) hp
          revert hhear
          generalize M.hear a (net.nodes a) p g = r
          generalize M'.hear a (net'.nodes a) p' g = r'
          rintro (⟨hnode, hev⟩ | _)
          · refine .some ⟨h.update hnode, ?_, congrArg₂ (· ++ ·) hev h.log⟩
            dsimp only
            split
            · exact forall₂_eraseIdx h.air k
            · exact h.air
          · exact .none
        · exact .none
      · exact .none
  | lose k =>
      simp only [step, h.air.length_eq]
      split
      · exact .some ⟨h.nodes, forall₂_eraseIdx h.air k, h.log⟩
      · exact .none
  | duplicate k =>
      have hget := forall₂_getElem? h.air k
      simp only [step]
      revert hget
      generalize net.air[k]? = p
      generalize net'.air[k]? = p'
      rintro (hp | _)
      · exact .some ⟨h.nodes, .cons hp h.air, h.log⟩
      · exact .none
  | alter k c => exact hl.elim

/-- Corresponding programs that start in related states give corresponding networks with
restarts. -/
theorem powerStep_sim {boot : ρ → σ} {boot' : ρ → σ'}
    (hsim : Simulates M M' Rnode Rpacket ok) (hboot : ∀ a x, Rnode a (boot x) (boot' x))
    {net : Net A σ π ε} {net' : Net A σ' π' ε} {l : PowerLabel A ι γ κ ρ}
    (h : Related Rnode Rpacket net net') (hl : l.Admits (Label.Admits ok)) :
    Option.Rel (Related Rnode Rpacket) (powerStep M boot net l) (powerStep M' boot' net' l) := by
  cases l with
  | step l => exact step_sim hsim h hl
  | restart a x => exact .some ⟨fun b => h.update (hboot a x) b, h.air, h.log⟩

end Simulation

end Network
