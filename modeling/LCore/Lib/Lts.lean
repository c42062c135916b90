import Mathlib.Data.Option.Basic
import Mathlib.Data.List.Basic

/-!
# Runs of a System

A system is a step function `step : S → L → Option S`: a label is taken in a state, or is not
enabled there. A run is a list of labels. `Along` says that a condition on the state and the
label holds at every step of a run, so an assumption about a run and a property of it are
written in the same way.

## Main results

* `run_inv`, `along_of_inv`: what one step preserves, a whole run preserves.
* `along_congr`: a condition on steps may be replaced by an equivalent one.
* `run_sim`, `along_sim`: lockstep simulation; `run_weak_sim`: a step for some steps, or for none.
* `exists_rank_of_run`: a rank that every step raises bounds the length of a run.
* `count_sim`: corresponding runs have as many steps of one kind.
* `exists_final`: if runs are bounded and none stops before a final state, one gets there.
-/

namespace Lts

variable {S T L : Type*} {step : S → L → Option S}

/-- The state after the labels `ls`, if each is enabled in its turn. -/
def run (step : S → L → Option S) : S → List L → Option S
  | s, [] => some s
  | s, l :: ls => (step s l).bind fun s' => run step s' ls

/-- `P` holds at every step of the run `ls` from `s`. -/
def Along (step : S → L → Option S) (P : S → L → Prop) : S → List L → Prop
  | _, [] => True
  | s, l :: ls => P s l ∧ ∀ s', step s l = some s' → Along step P s' ls

@[simp] theorem run_nil (s : S) : run step s [] = some s := rfl

/-- A run takes its first label first. -/
theorem run_cons (s : S) (l : L) (ls : List L) :
    run step s (l :: ls) = (step s l).bind fun s' => run step s' ls := rfl

/-- A run that goes through has gone through its first label. -/
theorem run_cons_eq_some {s s'' : S} {l : L} {ls : List L} :
    run step s (l :: ls) = some s'' ↔ ∃ s', step s l = some s' ∧ run step s' ls = some s'' := by
  rw [run_cons, Option.bind_eq_some_iff]

@[simp] theorem along_nil (P : S → L → Prop) (s : S) : Along step P s [] := trivial

/-- A condition along a run holds of its first label and along the rest. -/
theorem along_cons {P : S → L → Prop} {s : S} {l : L} {ls : List L} :
    Along step P s (l :: ls) ↔ P s l ∧ ∀ s', step s l = some s' → Along step P s' ls :=
  Iff.rfl

/-- A step, and a run from where it leads. -/
theorem Along.cons {P : S → L → Prop} {s s' : S} {l : L} {ls : List L} (hP : P s l)
    (hl : step s l = some s') (hrest : Along step P s' ls) : Along step P s (l :: ls) := by
  refine ⟨hP, fun t ht => ?_⟩
  obtain rfl : s' = t := Option.some.inj (hl.symm.trans ht)
  exact hrest

/-- A weaker condition holds along a run too. -/
theorem along_mono {P Q : S → L → Prop} (h : ∀ s l, P s l → Q s l) {s : S} {ls : List L}
    (hP : Along step P s ls) : Along step Q s ls := by
  induction ls generalizing s with
  | nil => trivial
  | cons l ls ih => exact ⟨h s l hP.1, fun s' hs' => ih (hP.2 s' hs')⟩

/-- Two conditions hold along a run when each does. -/
theorem along_and {P Q : S → L → Prop} {s : S} {ls : List L} :
    Along step (fun s l => P s l ∧ Q s l) s ls ↔ Along step P s ls ∧ Along step Q s ls := by
  induction ls generalizing s with
  | nil => simp
  | cons l ls ih =>
      simp only [along_cons, ih]
      constructor
      · rintro ⟨⟨hP, hQ⟩, hrest⟩
        exact ⟨⟨hP, fun s' hs' => (hrest s' hs').1⟩, hQ, fun s' hs' => (hrest s' hs').2⟩
      · rintro ⟨⟨hP, hPs⟩, hQ, hQs⟩
        exact ⟨⟨hP, hQ⟩, fun s' hs' => ⟨hPs s' hs', hQs s' hs'⟩⟩

/-- Conditions that agree on the labels of a run hold along it alike. -/
theorem along_congr {P Q : S → L → Prop} {s : S} {ls : List L}
    (h : ∀ s, ∀ l ∈ ls, P s l ↔ Q s l) : Along step P s ls ↔ Along step Q s ls := by
  induction ls generalizing s with
  | nil => exact Iff.rfl
  | cons l ls ih =>
      exact and_congr (h s l List.mem_cons_self) (forall_congr' fun s' =>
        imp_congr_right fun _ => ih fun t l' hl' => h t l' (List.mem_cons_of_mem l hl'))

/-- A condition on labels alone holds along a run when it holds of every label. -/
theorem along_of_forall_mem {P : L → Prop} {s : S} {ls : List L} (h : ∀ l ∈ ls, P l) :
    Along step (fun _ l => P l) s ls := by
  induction ls generalizing s with
  | nil => trivial
  | cons l ls ih =>
      exact ⟨h l List.mem_cons_self, fun _ _ => ih fun l' hl' => h l' (List.mem_cons_of_mem l hl')⟩

/-- A condition that can be checked at every step can be checked along a run. -/
instance decidableAlong {P : S → L → Prop} [∀ s l, Decidable (P s l)] :
    ∀ (s : S) (ls : List L), Decidable (Along step P s ls)
  | _, [] => isTrue trivial
  | s, l :: ls =>
      match h : step s l with
      | none => decidable_of_iff (P s l) (by simp [Along, h])
      | some s' =>
          have : Decidable (Along step P s' ls) := decidableAlong s' ls
          decidable_of_iff (P s l ∧ Along step P s' ls) (by simp [Along, h])

/-! ### Invariants -/

section Invariant

variable {ok : S → L → Prop} {Inv : S → Prop}
  (hstep : ∀ s l s', Inv s → ok s l → step s l = some s' → Inv s')

include hstep

/-- An invariant of the steps that satisfy `ok` holds at the end of every run along which
`ok` holds. -/
theorem run_inv {s s' : S} {ls : List L} (hs : Inv s) (hok : Along step ok s ls)
    (hrun : run step s ls = some s') : Inv s' := by
  induction ls generalizing s with
  | nil =>
      obtain rfl : s = s' := Option.some.inj hrun
      exact hs
  | cons l ls ih =>
      obtain ⟨s₁, hl, hrest⟩ := run_cons_eq_some.mp hrun
      exact ih (hstep s l s₁ hs hok.1 hl) (hok.2 s₁ hl) hrest

/-- What follows from the invariant at a single step holds along the run. -/
theorem along_of_inv {P : S → L → Prop} (hP : ∀ s l, Inv s → ok s l → P s l) {s : S}
    {ls : List L} (hs : Inv s) (hok : Along step ok s ls) : Along step P s ls := by
  induction ls generalizing s with
  | nil => trivial
  | cons l ls ih =>
      exact ⟨hP s l hs hok.1, fun s' hl => ih (hstep s l s' hs hok.1 hl) (hok.2 s' hl)⟩

end Invariant

/-! ### Simulation -/

/-- What is related to something is something. -/
theorem exists_of_rel_some {α β : Type*} {R : α → β → Prop} {a : Option α} {y : β}
    (h : Option.Rel R a (some y)) : ∃ x, a = some x ∧ R x y := by
  cases a with
  | none => exact nomatch h
  | some x =>
      rcases h with (hxy | _)
      exact ⟨x, rfl, hxy⟩

/-- Something is related only to something. -/
theorem exists_of_some_rel {α β : Type*} {R : α → β → Prop} {x : α} {b : Option β}
    (h : Option.Rel R (some x) b) : ∃ y, b = some y ∧ R x y := by
  cases b with
  | none => exact nomatch h
  | some y =>
      rcases h with (hxy | _)
      exact ⟨y, rfl, hxy⟩

section Simulation

variable {step' : T → L → Option T} {R : S → T → Prop} {ok : L → Prop}
  (hsim : ∀ s t l, R s t → ok l → Option.Rel R (step s l) (step' t l))

include hsim

/-- Two systems whose steps correspond have corresponding runs. -/
theorem run_sim {s : S} {t : T} {ls : List L} (hR : R s t) (hok : ∀ l ∈ ls, ok l) :
    Option.Rel R (run step s ls) (run step' t ls) := by
  induction ls generalizing s t with
  | nil => exact .some hR
  | cons l ls ih =>
      have hl := hsim s t l hR (hok l List.mem_cons_self)
      rw [run_cons, run_cons]
      cases hs : step s l with
      | none =>
          cases ht : step' t l with
          | none => exact .none
          | some t' =>
              rw [hs, ht] at hl
              nomatch hl
      | some s' =>
          rw [hs] at hl
          obtain ⟨t', ht, hR'⟩ := exists_of_some_rel hl
          rw [ht]
          exact ih hR' fun l' hl' => hok l' (List.mem_cons_of_mem l hl')

/-- A condition that carries over at corresponding states carries over along runs. -/
theorem along_sim {P : S → L → Prop} {Q : T → L → Prop}
    (hPQ : ∀ s t l, R s t → ok l → P s l → Q t l) {s : S} {t : T} {ls : List L} (hR : R s t)
    (hok : ∀ l ∈ ls, ok l) (hP : Along step P s ls) : Along step' Q t ls := by
  induction ls generalizing s t with
  | nil => trivial
  | cons l ls ih =>
      refine ⟨hPQ s t l hR (hok l List.mem_cons_self) hP.1, fun t' ht' => ?_⟩
      have hl := hsim s t l hR (hok l List.mem_cons_self)
      rw [ht'] at hl
      obtain ⟨s', hs, hR'⟩ := exists_of_rel_some hl
      exact ih hR' (fun l' hl' => hok l' (List.mem_cons_of_mem l hl')) (hP.2 s' hs)

/-- The same in the other direction. -/
theorem along_sim_symm {P : S → L → Prop} {Q : T → L → Prop}
    (hQP : ∀ s t l, R s t → ok l → Q t l → P s l) {s : S} {t : T} {ls : List L} (hR : R s t)
    (hok : ∀ l ∈ ls, ok l) (hQ : Along step' Q t ls) : Along step P s ls := by
  refine along_sim (R := flip R) (fun t s l hR hl => ?_) (fun t s l hR => hQP s t l hR) hR hok hQ
  have hrel := hsim s t l hR hl
  revert hrel
  generalize step s l = a
  generalize step' t l = b
  rintro (h | _)
  · exact .some h
  · exact .none

end Simulation

/-! ### Steps of one kind -/

section Count

variable {P : S → L → Prop} [∀ s l, Decidable (P s l)]

/-- How many steps of the run `ls` from `s` satisfy `P`. -/
def count (step : S → L → Option S) (P : S → L → Prop) [∀ s l, Decidable (P s l)] :
    S → List L → ℕ
  | _, [] => 0
  | s, l :: ls => (if P s l then 1 else 0) + (step s l).elim 0 fun s' => count step P s' ls

@[simp] theorem count_nil (s : S) : count step P s [] = 0 := rfl

/-- The first step, and the run from where it leads. -/
theorem count_cons {s s' : S} {l : L} (hl : step s l = some s') (ls : List L) :
    count step P s (l :: ls) = (if P s l then 1 else 0) + count step P s' ls := by
  rw [count, hl, Option.elim_some]

/-- Two systems whose steps correspond take as many steps that satisfy corresponding conditions. -/
theorem count_sim {step' : T → L → Option T} {R : S → T → Prop} {ok : L → Prop}
    {Q : T → L → Prop} [∀ t l, Decidable (Q t l)]
    (hsim : ∀ s t l, R s t → ok l → Option.Rel R (step s l) (step' t l))
    (hPQ : ∀ s t l, R s t → (P s l ↔ Q t l)) {s : S} {t : T} {ls : List L} (hR : R s t)
    (hok : ∀ l ∈ ls, ok l) : count step P s ls = count step' Q t ls := by
  induction ls generalizing s t with
  | nil => rfl
  | cons l ls ih =>
      have hl := hsim s t l hR (hok l List.mem_cons_self)
      have hone : (if P s l then 1 else 0) = if Q t l then 1 else 0 :=
        if_congr (hPQ s t l hR) rfl rfl
      rw [count, count, hone]
      revert hl
      generalize step s l = a
      generalize step' t l = b
      rintro (hR' | _)
      · rw [Option.elim_some, Option.elim_some,
          ih hR' fun l' hl' => hok l' (List.mem_cons_of_mem l hl')]
      · rfl

end Count

/-! ### Termination -/

/-- If every step takes an invariant to a higher rank, a run of `n` steps takes it up by `n` at
least. -/
theorem exists_rank_of_run {ok : S → L → Prop} (Inv : ℕ → S → Prop)
    (hstep : ∀ p s l s', Inv p s → ok s l → step s l = some s' → ∃ p', p < p' ∧ Inv p' s') {p : ℕ}
    {s s' : S} {ls : List L} (hs : Inv p s) (hok : Along step ok s ls)
    (hrun : run step s ls = some s') : ∃ p', p + ls.length ≤ p' ∧ Inv p' s' := by
  induction ls generalizing p s with
  | nil =>
      obtain rfl : s = s' := Option.some.inj hrun
      exact ⟨p, Nat.le_refl p, hs⟩
  | cons l ls ih =>
      obtain ⟨s₁, hl, hrest⟩ := run_cons_eq_some.mp hrun
      obtain ⟨p₁, hlt, hinv⟩ := hstep p s l s₁ hs hok.1 hl
      obtain ⟨p', hle, hinv'⟩ := ih hinv (hok.2 s₁ hl) hrest
      refine ⟨p', ?_, hinv'⟩
      rw [List.length_cons]
      omega

/-- A run that goes on. -/
theorem run_append {s s' : S} {ls : List L} (hrun : run step s ls = some s') (ls' : List L) :
    run step s (ls ++ ls') = run step s' ls' := by
  induction ls generalizing s with
  | nil =>
      obtain rfl : s = s' := Option.some.inj hrun
      rfl
  | cons l ls ih =>
      obtain ⟨s₁, hl, hrest⟩ := run_cons_eq_some.mp hrun
      rw [List.cons_append, run_cons, hl]
      exact ih hrest

/-- A condition that holds along two runs holds along both, one after the other. -/
theorem along_append {P : S → L → Prop} {s s' : S} {ls ls' : List L} (hP : Along step P s ls)
    (hrun : run step s ls = some s') (hP' : Along step P s' ls') :
    Along step P s (ls ++ ls') := by
  induction ls generalizing s with
  | nil =>
      obtain rfl : s = s' := Option.some.inj hrun
      exact hP'
  | cons l ls ih =>
      obtain ⟨s₁, hl, hrest⟩ := run_cons_eq_some.mp hrun
      exact .cons hP.1 hl (ih (hP.2 s₁ hl) hrest)

/-- If the runs along `P` are bounded and none of them is stuck before a final state, one of them
ends in a final state. -/
theorem exists_final {P : S → L → Prop} {final : S → Prop} {s : S} (n : ℕ)
    (hbound : ∀ ls s', Along step P s ls → run step s ls = some s' → ls.length ≤ n)
    (hgoes : ∀ ls s', Along step P s ls → run step s ls = some s' → ¬ final s' →
      ∃ l, P s' l ∧ step s' l ≠ none) :
    ∃ ls s', Along step P s ls ∧ run step s ls = some s' ∧ final s' := by
  by_contra hnever
  have hlonger : ∀ k : ℕ, ∃ ls s', Along step P s ls ∧ run step s ls = some s' ∧
      ls.length = k := by
    intro k
    induction k with
    | zero => exact ⟨[], s, trivial, rfl, rfl⟩
    | succ k ih =>
        obtain ⟨ls, s', hP, hrun, hlen⟩ := ih
        obtain ⟨l, hl, hstep⟩ := hgoes ls s' hP hrun fun hfinal =>
          hnever ⟨ls, s', hP, hrun, hfinal⟩
        obtain ⟨s'', hs''⟩ := Option.ne_none_iff_exists'.mp hstep
        have hrun' : run step s' [l] = some s'' := run_cons_eq_some.mpr ⟨s'', hs'', rfl⟩
        exact ⟨ls ++ [l], s'', along_append hP hrun (.cons hl hs'' trivial),
          (run_append hrun [l]).trans hrun', by simp [hlen]⟩
  obtain ⟨ls, s', hP, hrun, hlen⟩ := hlonger (n + 1)
  have hle := hbound ls s' hP hrun
  omega

/-- Weak simulation: if every step of a system is matched by some steps of another one, or by none,
then so is every run. -/
theorem run_weak_sim {L' : Type*} {step' : T → L' → Option T} {R : S → T → Prop} {ok : L → Prop}
    {ok' : L' → Prop}
    (hsim : ∀ s t l s', R s t → ok l → step s l = some s' →
      ∃ ls' t', (∀ l' ∈ ls', ok' l') ∧ run step' t ls' = some t' ∧ R s' t')
    {s s' : S} {t : T} {ls : List L} (hR : R s t) (hok : ∀ l ∈ ls, ok l)
    (hrun : run step s ls = some s') :
    ∃ ls' t', (∀ l' ∈ ls', ok' l') ∧ run step' t ls' = some t' ∧ R s' t' := by
  induction ls generalizing s t with
  | nil =>
      obtain rfl : s = s' := Option.some.inj hrun
      exact ⟨[], t, nofun, rfl, hR⟩
  | cons l ls ih =>
      obtain ⟨s₁, hl, hrest⟩ := run_cons_eq_some.mp hrun
      obtain ⟨ls₁, t₁, hok₁, hrun₁, hR₁⟩ := hsim s t l s₁ hR (hok l List.mem_cons_self) hl
      obtain ⟨ls₂, t₂, hok₂, hrun₂, hR₂⟩ :=
        ih hR₁ (fun l' hl' => hok l' (List.mem_cons_of_mem l hl')) hrest
      refine ⟨ls₁ ++ ls₂, t₂, fun l' hl' => ?_, (run_append hrun₁ ls₂).trans hrun₂, hR₂⟩
      rcases List.mem_append.mp hl' with hl' | hl'
      · exact hok₁ l' hl'
      · exact hok₂ l' hl'

/-- What every step of a run that goes through requires of its label. -/
theorem forall_mem_of_along {P : S → L → Prop} {Q : L → Prop} (hPQ : ∀ s l, P s l → Q l)
    {s s' : S} {ls : List L} (hP : Along step P s ls) (hrun : run step s ls = some s') :
    ∀ l ∈ ls, Q l := by
  induction ls generalizing s with
  | nil => exact nofun
  | cons l ls ih =>
      obtain ⟨s₁, hl, hrest⟩ := run_cons_eq_some.mp hrun
      intro l' hl'
      rcases List.mem_cons.mp hl' with rfl | hl'
      · exact hPQ s l' hP.1
      · exact ih (hP.2 s₁ hl) hrest l' hl'

end Lts
