import Mathlib.Data.Option.Basic
import Mathlib.Data.Sum.Basic
import Mathlib.Logic.Relation
import Mathlib.Order.Basic
import Mathlib.Tactic.Common

/-!
# Bounded loops

A `while` loop whose body either continues with a new loop state or leaves with a result, run
for a bounded number of iterations; `none` says that the loop has not left within the bound.
`run_of_variant` is the total-correctness rule: an invariant that every iteration keeps, together
with a variant that every continuing iteration decreases, shows that the loop leaves and that the
result is as wanted; `run_invariant` is its partial companion, for a loop that has left.
`run_simulation` relates two loops iteration by iteration, `run_congr` two that agree where an
invariant holds, `run_refines` the iterations of a run that has ended well, and `Visits` are the
states that a loop passes through, of which only the last one leaves. `After` counts the iterations
on the way: an invariant that knows how many there have been bounds them (`run_of_after`).
-/

namespace Loop

variable {σ ρ : Type*}

/-- Runs the body `f` at most `fuel` times from the loop state `s`. -/
def run (f : σ → σ ⊕ ρ) : ℕ → σ → Option ρ
  | 0, _ => none
  | fuel + 1, s =>
    match f s with
    | .inl s' => run f fuel s'
    | .inr r => some r

/-- Without fuel there is no result. -/
@[simp]
theorem run_zero (f : σ → σ ⊕ ρ) (s : σ) : run f 0 s = none := rfl

/-- A unit of fuel pays for one round. -/
theorem run_succ (f : σ → σ ⊕ ρ) (fuel : ℕ) (s : σ) :
    run f (fuel + 1) s =
      match f s with
      | .inl s' => run f fuel s'
      | .inr r => some r := rfl

/-- An iteration that continues. -/
theorem run_of_continue {f : σ → σ ⊕ ρ} {s s' : σ} (h : f s = .inl s') (fuel : ℕ) :
    run f (fuel + 1) s = run f fuel s' := by
  rw [run_succ, h]

/-- An iteration that leaves. -/
theorem run_of_exit {f : σ → σ ⊕ ρ} {s : σ} {r : ρ} (h : f s = .inr r) (fuel : ℕ) :
    run f (fuel + 1) s = some r := by
  rw [run_succ, h]

/-- Total correctness: from a state of the invariant `I`, every iteration either leaves with a
result satisfying `Q` or continues in `I` with a smaller variant, so more iterations than the
variant are enough. -/
theorem run_of_variant {f : σ → σ ⊕ ρ} {I : σ → Prop} {Q : ρ → Prop} (variant : σ → ℕ)
    (hcont : ∀ s s', I s → f s = .inl s' → I s' ∧ variant s' < variant s)
    (hexit : ∀ s r, I s → f s = .inr r → Q r) :
    ∀ {fuel : ℕ} {s : σ}, I s → variant s < fuel → ∃ r, run f fuel s = some r ∧ Q r := by
  intro fuel
  induction fuel with
  | zero => intro s _ h; exact absurd h (Nat.not_lt_zero _)
  | succ fuel ih =>
    intro s hI hlt
    cases hb : f s with
    | inl s' =>
      obtain ⟨hI', hdec⟩ := hcont s s' hI hb
      rw [run_of_continue hb]
      exact ih hI' (by omega)
    | inr r => exact ⟨r, run_of_exit hb fuel, hexit s r hI hb⟩

/-- Partial correctness: a result that a loop has left with is one that an iteration from a state
of the invariant leaves with. -/
theorem run_invariant {f : σ → σ ⊕ ρ} {I : σ → Prop} {Q : ρ → Prop}
    (hcont : ∀ s s', I s → f s = .inl s' → I s') (hexit : ∀ s r, I s → f s = .inr r → Q r) :
    ∀ {fuel : ℕ} {s : σ} {r : ρ}, I s → run f fuel s = some r → Q r := by
  intro fuel
  induction fuel with
  | zero => intro s r _ h; cases h
  | succ fuel ih =>
    intro s r hI h
    cases hb : f s with
    | inl s' =>
      rw [run_of_continue hb] at h
      exact ih (hcont s s' hI hb) h
    | inr r' =>
      rw [run_of_exit hb, Option.some.injEq] at h
      exact h ▸ hexit s r' hI hb

/-- Refinement of a run that has left with a state `e s'`. `K` says of a state that nothing has gone
wrong up to it, so it is known at the end and holds of every state before; where it holds, the
iterations are those of another loop on the abstract states. -/
theorem run_refines {τ : Type*} {f : σ → σ ⊕ ρ} {g : τ → τ ⊕ τ} {a : σ → τ} {e : σ → ρ}
    {I K : σ → Prop}
    (hcont : ∀ s s', I s → f s = .inl s' → I s' ∧ (K s' → K s ∧ g (a s) = .inl (a s')))
    (hexit : ∀ s s', I s → f s = .inr (e s') → I s' ∧ (K s' → K s ∧ g (a s) = .inr (a s'))) :
    ∀ {fuel : ℕ} {s s' : σ}, I s → run f fuel s = some (e s') →
      I s' ∧ (K s' → K s ∧ run g fuel (a s) = some (a s')) := by
  intro fuel
  induction fuel with
  | zero => intro s s' _ h; cases h
  | succ fuel ih =>
    intro s s' hI h
    cases hb : f s with
    | inl t =>
      obtain ⟨ht, hstep⟩ := hcont s t hI hb
      rw [run_of_continue hb] at h
      obtain ⟨hI', hrest⟩ := ih ht h
      refine ⟨hI', fun hK' => ?_⟩
      -- the rest of the run says that nothing has gone wrong up to `t`
      obtain ⟨hK, hrun⟩ := hrest hK'
      obtain ⟨hbefore, hg⟩ := hstep hK
      exact ⟨hbefore, by rw [run_of_continue hg, hrun]⟩
    | inr r =>
      rw [run_of_exit hb, Option.some.injEq] at h
      subst h
      obtain ⟨hI', hlast⟩ := hexit s s' hI hb
      refine ⟨hI', fun hK' => ?_⟩
      obtain ⟨hK, hg⟩ := hlast hK'
      exact ⟨hK, run_of_exit hg fuel⟩

/-- Two loops whose bodies keep their states related leave together, with related results. -/
theorem run_simulation {τ π : Type*} {f : σ → σ ⊕ ρ} {g : τ → τ ⊕ π} {R : σ → τ → Prop}
    {Q : ρ → π → Prop} (hbody : ∀ s t, R s t → Sum.LiftRel R Q (f s) (g t)) :
    ∀ (fuel : ℕ) {s : σ} {t : τ}, R s t → Option.Rel Q (run f fuel s) (run g fuel t) := by
  intro fuel
  induction fuel with
  | zero => intro s t _; exact .none
  | succ fuel ih =>
    intro s t hR
    have hrel := hbody s t hR
    rw [run_succ, run_succ]
    generalize f s = x at hrel
    generalize g t = y at hrel
    cases hrel with
    | inl hnext => exact ih hnext
    | inr hleave => exact .some hleave

/-- Two loops whose bodies agree on the states of an invariant run alike from there. -/
theorem run_congr {f g : σ → σ ⊕ ρ} {I : σ → Prop} (hcont : ∀ s s', I s → f s = .inl s' → I s')
    (hbody : ∀ s, I s → g s = f s) (fuel : ℕ) {s : σ} (h : I s) : run g fuel s = run f fuel s := by
  induction fuel generalizing s with
  | zero => rfl
  | succ fuel ih =>
    rw [run_succ, run_succ, hbody s h]
    cases hb : f s with
    | inl s' => exact ih (hcont s s' h hb)
    | inr r => rfl

/-- A loop whose body commutes with a map of the states runs like the other loop. -/
theorem run_map {τ π : Type*} {f : σ → σ ⊕ ρ} {g : τ → τ ⊕ π} (a : σ → τ) (b : ρ → π)
    (hbody : ∀ s, g (a s) = (f s).map a b) (fuel : ℕ) (s : σ) :
    run g fuel (a s) = (run f fuel s).map b := by
  induction fuel generalizing s with
  | zero => rfl
  | succ fuel ih =>
    rw [run_succ, run_succ, hbody]
    cases f s with
    | inl s' => exact ih s'
    | inr r => rfl

/-- The states that the loop passes through from `s`. -/
abbrev Visits (f : σ → σ ⊕ ρ) : σ → σ → Prop :=
  Relation.ReflTransGen fun s s' => f s = .inl s'

/-- A loop leaves from one state only. -/
theorem Visits.exit_unique {f : σ → σ ⊕ ρ} {s a b : σ} {r r' : ρ} (ha : Visits f s a)
    (hra : f a = .inr r) (hb : Visits f s b) (hrb : f b = .inr r') : a = b := by
  induction ha using Relation.ReflTransGen.head_induction_on with
  | refl =>
    -- the loop has left at `a`, so it visits nothing further
    rcases Relation.ReflTransGen.cases_head hb with rfl | ⟨c, hc, -⟩
    · rfl
    · rw [hra] at hc
      cases hc
  | head hstep _ ih =>
    rcases Relation.ReflTransGen.cases_head hb with rfl | ⟨c, hc, hcb⟩
    · rw [hstep] at hrb
      cases hrb
    · rw [hstep, Sum.inl.injEq] at hc
      exact ih (hc ▸ hcb)

/-- The loop has gone on `n` times from `s`, and is at the last state. -/
inductive After (f : σ → σ ⊕ ρ) (s : σ) : ℕ → σ → Prop
  | zero : After f s 0 s
  | succ {n : ℕ} {t u : σ} (h : After f s n t) (hstep : f t = .inl u) : After f s (n + 1) u

/-- What holds at the start, and after an iteration if before it, holds after any number of
iterations. -/
theorem After.invariant {f : σ → σ ⊕ ρ} {s : σ} {I : ℕ → σ → Prop} (h₀ : I 0 s)
    (hcont : ∀ n t u, I n t → f t = .inl u → I (n + 1) u) {n : ℕ} {t : σ} (h : After f s n t) :
    I n t := by
  induction h with
  | zero => exact h₀
  | succ _ hstep ih => exact hcont _ _ _ ih hstep

/-- A loop that goes on fewer than `n` times leaves at its `n`-th test or before. -/
theorem run_of_after {f : σ → σ ⊕ ρ} {s : σ} {n : ℕ}
    (h : ∀ k t u, After f s k t → f t = .inl u → k + 1 < n) (hpos : 0 < n) :
    ∃ r, run f n s = some r := by
  -- `k` iterations are behind, and `m` tests are left
  suffices hgen : ∀ m k t, After f s k t → k + m = n → 0 < m → ∃ r, run f m t = some r from
    hgen n 0 s .zero (Nat.zero_add n) hpos
  intro m
  induction m with
  | zero => intro k t _ _ hm; exact absurd hm (Nat.lt_irrefl 0)
  | succ m ih =>
    intro k t hafter hsum _
    cases hb : f t with
    | inl u =>
      have hlt := h k t u hafter hb
      rw [run_of_continue hb]
      exact ih (k + 1) u (hafter.succ hb) (by omega) (by omega)
    | inr r => exact ⟨r, run_of_exit hb m⟩

end Loop
