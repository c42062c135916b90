import LCore.Lib.Network
import Mathlib.Algebra.BigOperators.Group.Finset.Piecewise
import Mathlib.Data.Fintype.Basic

/-!
# What Lies in a Network

The nodes of a network hold something, and so do the packets on the air. A step moves it, and the
sum changes only by what the program takes in or gives out.

## Main results

* `contents_act`, `contents_hear`: what a step does to all that lies in the nodes and on the air.
* `InBudget.step`: events that cost and events that pay. What is paid for and not yet spent lies
  in the nodes and on the air.
* `held_step`, `count_le_ledger`: the same for steps that cost a unit each.
-/

namespace Network

/-! ### Sums -/

section Sums

variable {A σ π : Type*}

/-- A packet and the rest of what is on the air. -/
theorem coe_eraseIdx {air : List π} {k : ℕ} {p : π} (hp : air[k]? = some p) :
    (air : Multiset π) = p ::ₘ (air.eraseIdx k : Multiset π) := by
  obtain ⟨hk, rfl⟩ := List.getElem?_eq_some_iff.mp hp
  exact (Multiset.coe_eq_coe.mpr (List.getElem_cons_eraseIdx_perm hk)).symm

/-- A sum over the nodes when one of them has changed. -/
theorem sum_update_add {M : Type*} [AddCommMonoid M] [Fintype A] [DecidableEq A] (f : A → M)
    (a : A) (x : M) : ∑ b, Function.update f a x b + f a = ∑ b, f b + x := by
  rw [Finset.sum_update_of_mem (Finset.mem_univ a), Finset.sdiff_singleton_eq_erase,
    ← Finset.add_sum_erase Finset.univ f (Finset.mem_univ a)]
  ac_rfl

/-- When one node changes, so does the sum of what the nodes hold. -/
theorem sum_node_update {M : Type*} [AddCommMonoid M] [Fintype A] [DecidableEq A]
    (node : A → σ → M) (nodes : A → σ) (a : A) (n : σ) :
    ∑ b, node b (Function.update nodes a n b) + node a (nodes a) =
      ∑ b, node b (nodes b) + node a n := by
  have hupdate : (fun b => node b (Function.update nodes a n b)) =
      Function.update (fun b => node b (nodes b)) a (node a n) :=
    funext fun b => Function.apply_update node nodes a n b
  rw [hupdate]
  exact sum_update_add (fun b => node b (nodes b)) a (node a n)

end Sums

/-! ### Contents -/

section Contents

variable {A σ π ε τ : Type*} [Fintype A]

/-- What lies in the nodes and on the air, as things of one kind: `node` is what a node holds, and
`packet` what a packet is. -/
def contents (node : A → σ → Multiset τ) (packet : π → τ) (net : Net A σ π ε) : Multiset τ :=
  ∑ a, node a (net.nodes a) + (net.air : Multiset π).map packet

variable {node : A → σ → Multiset τ} {packet : π → τ} {net : Net A σ π ε}

/-- What a network contains is at a node or in a packet. -/
theorem mem_contents {x : τ} :
    x ∈ contents node packet net ↔
      (∃ a, x ∈ node a (net.nodes a)) ∨ ∃ p ∈ net.air, packet p = x := by
  simp only [contents, Multiset.mem_add, Multiset.mem_sum, Finset.mem_univ, true_and,
    Multiset.mem_map, Multiset.mem_coe]

variable [DecidableEq A] {a : A} (n : σ) (log : List ε)

/-- A node that acts exchanges what it held for what it holds then and what it transmits. -/
theorem contents_act (packets : List π) :
    contents node packet ⟨Function.update net.nodes a n, net.air ++ packets, log⟩ +
        node a (net.nodes a) =
      contents node packet net + (node a n + (packets : Multiset π).map packet) := by
  have hair : ((net.air ++ packets : List π) : Multiset π).map packet =
      (net.air : Multiset π).map packet + (packets : Multiset π).map packet := by
    rw [← Multiset.coe_add, Multiset.map_add]
  have hsum : ∑ b, node b (Function.update net.nodes a n b) + node a (net.nodes a) =
      ∑ b, node b (net.nodes b) + node a n := sum_node_update node net.nodes a n
  rw [contents, contents, hair]
  calc _ = (∑ b, node b (Function.update net.nodes a n b) + node a (net.nodes a)) +
        ((net.air : Multiset π).map packet + (packets : Multiset π).map packet) := by ac_rfl
    _ = _ := by
      rw [hsum]
      ac_rfl

/-- A node that hears a packet, which is then gone, exchanges it and what it held for what it holds
then. -/
theorem contents_hear {k : ℕ} {p : π} (hp : net.air[k]? = some p) :
    contents node packet ⟨Function.update net.nodes a n, net.air.eraseIdx k, log⟩ +
        (node a (net.nodes a) + {packet p}) =
      contents node packet net + node a n := by
  have hair : (net.air : Multiset π).map packet =
      (net.air.eraseIdx k : Multiset π).map packet + {packet p} := by
    rw [coe_eraseIdx hp, Multiset.map_cons, ← Multiset.singleton_add, add_comm]
  have hsum : ∑ b, node b (Function.update net.nodes a n b) + node a (net.nodes a) =
      ∑ b, node b (net.nodes b) + node a n := sum_node_update node net.nodes a n
  rw [contents, contents, hair]
  calc _ = (∑ b, node b (Function.update net.nodes a n b) + node a (net.nodes a)) +
        ((net.air.eraseIdx k : Multiset π).map packet + {packet p}) := by ac_rfl
    _ = _ := by
      rw [hsum]
      ac_rfl

/-- One thing is exchanged for another. -/
theorem exists_rest {before after : Multiset τ} {x y : τ} (h : after + {x} = before + {y})
    (hx : x ∈ before) : ∃ rest, before = x ::ₘ rest ∧ after = y ::ₘ rest := by
  obtain ⟨rest, rfl⟩ := Multiset.exists_cons_of_mem hx
  refine ⟨rest, rfl, add_right_cancel (b := {x}) ?_⟩
  rw [h, ← Multiset.singleton_add, ← Multiset.singleton_add]
  ac_rfl

end Contents

/-! ### Budgets -/

section Budget

variable {A σ π ι γ κ ε : Type*} [DecidableEq A]

/-- What a log costs, or pays, if an event costs or pays `f`. -/
def ledger (f : ε → ℕ) : List ε → ℕ
  | [] => 0
  | e :: log => f e + ledger f log

@[simp] theorem ledger_nil (f : ε → ℕ) : ledger f [] = 0 := rfl

@[simp] theorem ledger_cons (f : ε → ℕ) (e : ε) (log : List ε) :
    ledger f (e :: log) = f e + ledger f log := rfl

@[simp] theorem ledger_append (f : ε → ℕ) (new log : List ε) :
    ledger f (new ++ log) = ledger f new + ledger f log := by
  induction new with
  | nil => rw [List.nil_append, ledger_nil, Nat.zero_add]
  | cons e new ih => rw [List.cons_append, ledger_cons, ledger_cons, ih, Nat.add_assoc]

variable [Fintype A]

/-- What lies in the nodes and on the air, if a node holds `node` and a packet is worth
`packet`. -/
def held (node : A → σ → ℕ) (packet : π → ℕ) (net : Net A σ π ε) : ℕ :=
  ∑ a, node a (net.nodes a) + ledger packet net.air

/-- A packet that leaves the air takes its worth with it. -/
theorem ledger_eraseIdx (packet : π → ℕ) {air : List π} {k : ℕ} {p : π} (hp : air[k]? = some p) :
    ledger packet (air.eraseIdx k) + packet p = ledger packet air := by
  induction air generalizing k with
  | nil => exact nomatch hp
  | cons q air ih =>
      cases k with
      | zero =>
          obtain rfl : q = p := by simpa using hp
          rw [List.eraseIdx_cons_zero, ledger_cons, Nat.add_comm]
      | succ k =>
          have hrest := ih (k := k) (by simpa using hp)
          rw [List.eraseIdx_cons_succ, ledger_cons, ledger_cons]
          omega

/-- What was spent, and what is still held, is covered by what was paid. -/
def InBudget (node : A → σ → ℕ) (packet : π → ℕ) (cost pay : ε → ℕ) (net : Net A σ π ε) : Prop :=
  ledger cost net.log + held node packet net ≤ ledger pay net.log

/-- The rule for budgets: a program keeps to its budget if no action and no hearing spends more
than what is paid, taken from the node, or taken from the packet that is gone. -/
theorem InBudget.step {M : Machine A σ π ι γ κ ε} {node : A → σ → ℕ} {packet : π → ℕ}
    {cost pay : ε → ℕ}
    (hact : ∀ a n i r, M.act a n i = some r →
      ledger cost r.2.2 + node a r.1 + ledger packet r.2.1 ≤ ledger pay r.2.2 + node a n)
    (hhear : ∀ a n p g r, M.hear a n p g = some r →
      ledger cost r.2 + node a r.1 ≤
        ledger pay r.2 + node a n + if M.consumes a p = true then packet p else 0)
    {net net' : Net A σ π ε} {l : Label A ι γ κ} (hbudget : InBudget node packet cost pay net)
    (hl : l.Single) (hstep : Network.step M net l = some net') :
    InBudget node packet cost pay net' := by
  unfold InBudget held at hbudget ⊢
  cases l with
  | act a i =>
      obtain ⟨r, hr, rfl⟩ := step_act.mp hstep
      have hnode := hact a _ i r hr
      have hsum := sum_node_update node net.nodes a r.1
      have hair : ledger packet (net.air ++ r.2.1) =
          ledger packet net.air + ledger packet r.2.1 := ledger_append ..
      dsimp only
      rw [hair, ledger_append, ledger_append]
      omega
  | hear a k g =>
      obtain ⟨p, r, hp, -, hr, rfl⟩ := step_hear.mp hstep
      have hnode := hhear a _ p g r hr
      have hsum := sum_node_update node net.nodes a r.1
      have hgone := ledger_eraseIdx packet hp
      dsimp only
      rw [ledger_append, ledger_append]
      split at hnode
      · rw [if_pos ‹_›]
        omega
      · rw [if_neg ‹_›]
        omega
  | lose k =>
      simp only [Network.step, Option.ite_none_right_eq_some, Option.some.injEq] at hstep
      obtain ⟨hk, rfl⟩ := hstep
      have hgone := ledger_eraseIdx packet (List.getElem?_eq_getElem hk)
      dsimp only
      omega
  | duplicate k => exact hl.elim
  | alter k c => exact hl.elim

/-- A step that does something: a node does not just overhear a packet that stays on the air. -/
def Label.Busy (M : Machine A σ π ι γ κ ε) (net : Net A σ π ε) : Label A ι γ κ → Prop
  | .hear a k _ => ∃ p, net.air[k]? = some p ∧ M.consumes a p = true
  | _ => True

instance decidableBusy (M : Machine A σ π ι γ κ ε) (net : Net A σ π ε) :
    ∀ l : Label A ι γ κ, Decidable (l.Busy M net)
  | .hear a k _ =>
      match h : net.air[k]? with
      | none => isFalse fun ⟨_, hp, _⟩ => nomatch h.symm.trans hp
      | some q => decidable_of_iff (M.consumes a q = true) (by simp [Label.Busy, h])
  | .act _ _ | .lose _ | .duplicate _ | .alter _ _ => isTrue trivial

/-- The steps of a run that do something. -/
def busySteps (M : Machine A σ π ι γ κ ε) (net : Net A σ π ε) (ls : List (Label A ι γ κ)) : ℕ :=
  Lts.count (Network.step M) (fun net l => l.Busy M net) net ls

/-- The rule for steps: each that does something takes a unit of what lies in the nodes and on the
air, and none adds more to it than it pays in. -/
theorem held_step {M : Machine A σ π ι γ κ ε} {node : A → σ → ℕ} {packet : π → ℕ}
    {pay : Label A ι γ κ → ℕ} {P : π → Prop} (hpacket : ∀ p, 1 ≤ packet p)
    (hact : ∀ a n i r, M.act a n i = some r →
      node a r.1 + ledger packet r.2.1 + 1 ≤ node a n + pay (.act a i))
    (hhear : ∀ a n p g r, M.hear a n p g = some r → M.consumes a p = true →
      node a r.1 + 1 ≤ node a n + packet p)
    (hoverhear : ∀ a n p g r, M.hear a n p g = some r → M.consumes a p = false →
      node a r.1 ≤ node a n)
    (hdup : ∀ k p, P p → packet p + 1 ≤ pay (.duplicate k))
    {net net' : Net A σ π ε} {l : Label A ι γ κ} (hair : ∀ p ∈ net.air, P p) (hl : l.Faithful)
    (hstep : Network.step M net l = some net') :
    held node packet net' + (if l.Busy M net then 1 else 0) ≤ held node packet net + pay l := by
  unfold held
  cases l with
  | act a i =>
      obtain ⟨r, hr, rfl⟩ := step_act.mp hstep
      have hnode := hact a _ i r hr
      have hsum := sum_node_update node net.nodes a r.1
      have happend : ledger packet (net.air ++ r.2.1) =
          ledger packet net.air + ledger packet r.2.1 := ledger_append ..
      have hbusy : Label.Busy M net (.act a i) := trivial
      rw [if_pos hbusy]
      dsimp only
      rw [happend]
      omega
  | hear a k g =>
      obtain ⟨p, r, hp, -, hr, rfl⟩ := step_hear.mp hstep
      have hsum := sum_node_update node net.nodes a r.1
      have hgone := ledger_eraseIdx packet hp
      cases hconsumes : M.consumes a p with
      | true =>
          have hnode := hhear a _ p g r hr hconsumes
          have hbusy : Label.Busy M net (.hear a k g) := ⟨p, hp, hconsumes⟩
          rw [if_pos hbusy]
          dsimp only
          rw [if_pos rfl]
          omega
      | false =>
          have hnode := hoverhear a _ p g r hr hconsumes
          have hidle : ¬ Label.Busy M net (.hear a k g) := by
            rintro ⟨q, hq, hgone⟩
            obtain rfl : p = q := Option.some.inj (hp.symm.trans hq)
            exact Bool.false_ne_true (hconsumes.symm.trans hgone)
          rw [if_neg hidle]
          dsimp only
          rw [if_neg Bool.false_ne_true]
          omega
  | lose k =>
      simp only [Network.step, Option.ite_none_right_eq_some, Option.some.injEq] at hstep
      obtain ⟨hk, rfl⟩ := hstep
      have hgone := ledger_eraseIdx packet (List.getElem?_eq_getElem hk)
      have hone := hpacket net.air[k]
      have hbusy : Label.Busy M net (.lose k) := trivial
      rw [if_pos hbusy]
      dsimp only
      omega
  | duplicate k =>
      simp only [Network.step, Option.map_eq_some_iff] at hstep
      obtain ⟨p, hp, rfl⟩ := hstep
      have hone := hdup k p (hair p (List.mem_of_getElem? hp))
      have hbusy : Label.Busy M net (.duplicate k) := trivial
      rw [if_pos hbusy]
      dsimp only
      rw [ledger_cons]
      omega
  | alter k c => exact hl.elim

/-- If every step of one kind takes a unit of what is left, but for what its label pays in, the
number of these steps in a run is bounded by what is paid. -/
theorem count_le_ledger {S L : Type*} {step : S → L → Option S} {ok P : S → L → Prop}
    [∀ s l, Decidable (P s l)] {Inv : S → Prop} (left : S → ℕ) (pay : L → ℕ)
    (hinv : ∀ s l s', Inv s → ok s l → step s l = some s' → Inv s')
    (hstep : ∀ s l s', Inv s → ok s l → step s l = some s' →
      left s' + (if P s l then 1 else 0) ≤ left s + pay l)
    {s s' : S} {ls : List L} (hs : Inv s) (hok : Lts.Along step ok s ls)
    (hrun : Lts.run step s ls = some s') :
    left s' + Lts.count step P s ls ≤ left s + ledger pay ls := by
  induction ls generalizing s with
  | nil =>
      obtain rfl : s = s' := Option.some.inj hrun
      exact Nat.le_refl _
  | cons l ls ih =>
      obtain ⟨s₁, hl, hrest⟩ := Lts.run_cons_eq_some.mp hrun
      have hone := hstep s l s₁ hs hok.1 hl
      have hle := ih (hinv s l s₁ hs hok.1 hl) (hok.2 s₁ hl) hrest
      rw [Lts.count_cons hl, ledger_cons]
      omega

/-- A node that holds nothing when it starts spends nothing. -/
theorem InBudget.restart {node : A → σ → ℕ} {packet : π → ℕ} {cost pay : ε → ℕ}
    {net : Net A σ π ε} (h : InBudget node packet cost pay net) {a : A} {n : σ}
    (hn : node a n = 0) : InBudget node packet cost pay (net.restart a n) := by
  have hsum := sum_node_update node net.nodes a n
  unfold InBudget held at h ⊢
  rw [Net.restart]
  dsimp only
  omega

end Budget

end Network
