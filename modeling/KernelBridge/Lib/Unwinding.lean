import Mathlib.Data.List.Nodup

/-!
# Acquiring in turn

Code that acquires resources one after the other and, when one cannot be had, releases those it has,
the last one first. `build` is the log of such code and how it ends. `track` reads a log as a
monitor would, who keeps the resources that are held on a stack and accepts neither a second
acquisition of one nor a release of any but the last.
-/

namespace Unwinding

variable {ρ ε : Type*}

/-- What can happen to a resource. -/
inductive Action (ρ : Type*)
  | acquire (r : ρ)
  | release (r : ρ)
  deriving DecidableEq, Repr

/-- The resources that are held after a log, the last one first; `none` if the log is not in order. -/
def track [DecidableEq ρ] : List ρ → List (Action ρ) → Option (List ρ)
  | held, [] => some held
  | held, .acquire r :: log => if r ∈ held then none else track (r :: held) log
  | [], .release _ :: _ => none
  | top :: held, .release r :: log => if r = top then track held log else none

/-- All that is held is released, the last one first. -/
def unwind (held : List ρ) : List (Action ρ) := held.map .release

/-- The log of acquiring these resources, of which some fail with an error, while others are held
already; and what is held at the end, or the error. -/
def build (held : List ρ) : List (ρ × Option ε) → List (Action ρ) × Except ε (List ρ)
  | [] => ([], .ok held)
  | (_, some e) :: _ => (unwind held, .error e)
  | (r, none) :: steps =>
    let (log, outcome) := build (r :: held) steps
    (.acquire r :: log, outcome)

section Track

variable [DecidableEq ρ] {held : List ρ} {log : List (Action ρ)} {steps : List (ρ × Option ε)}

/-- A log is tracked part by part. -/
theorem track_append (log' : List (Action ρ)) :
    track held (log ++ log') = (track held log).bind fun held' => track held' log' := by
  induction log generalizing held with
  | nil => rfl
  | cons action log ih =>
    cases action with
    | acquire r =>
      simp only [List.cons_append, track]
      split_ifs
      · rfl
      · exact ih
    | release r =>
      cases held with
      | nil => rfl
      | cons top held =>
        simp only [List.cons_append, track]
        split_ifs
        · exact ih
        · rfl

/-- Unwinding releases all that is held. -/
theorem track_unwind : track held (unwind held) = some [] := by
  induction held with
  | nil => rfl
  | cons top held ih => rwa [unwind, List.map_cons, track, if_pos rfl]

/-- The log is in order, and at its end nothing is held that should not be. -/
theorem track_build (hnodup : (steps.map Prod.fst ++ held).Nodup) :
    track held (build held steps).1 = some ((build held steps).2.toOption.getD []) := by
  induction steps generalizing held with
  | nil => rfl
  | cons step steps ih =>
    obtain ⟨r, _ | e⟩ := step
    · rw [List.map_cons, List.cons_append, List.nodup_cons] at hnodup
      have hfresh : r ∉ held := fun hr => hnodup.1 (List.mem_append_right _ hr)
      have hrest : (steps.map Prod.fst ++ r :: held).Nodup :=
        List.nodup_middle.mpr (List.nodup_cons.mpr hnodup)
      rw [build, track, if_neg hfresh]
      exact ih hrest
    · exact track_unwind

end Track

/-- All is held at the end if nothing failed. -/
theorem build_eq_ok_iff {held held' : List ρ} {steps : List (ρ × Option ε)} :
    (build held steps).2 = .ok held' ↔
      (∀ step ∈ steps, step.2 = none) ∧ held' = (steps.map Prod.fst).reverse ++ held := by
  induction steps generalizing held with
  | nil => simp [build, eq_comm]
  | cons step steps ih =>
    obtain ⟨r, _ | e⟩ := step
    · simp [build, ih]
    · simp [build]

/-- The error is that of the first acquisition that failed. -/
theorem build_eq_error_iff {held : List ρ} {steps : List (ρ × Option ε)} {e : ε} :
    (build held steps).2 = .error e ↔ ∃ before r after, steps = before ++ (r, some e) :: after ∧
      ∀ step ∈ before, step.2 = none := by
  induction steps generalizing held with
  | nil => simp [build]
  | cons step steps ih =>
    obtain ⟨r, _ | e'⟩ := step
    · simp only [build, ih]
      constructor
      · rintro ⟨before, r', after, rfl, hbefore⟩
        exact ⟨(r, none) :: before, r', after, rfl, by simpa using hbefore⟩
      · rintro ⟨before, r', after, heq, hbefore⟩
        cases before with
        | nil => simp at heq
        | cons first before =>
          obtain ⟨-, rfl⟩ := List.cons.inj heq
          exact ⟨before, r', after, rfl, fun step hstep => hbefore step (List.mem_cons_of_mem _ hstep)⟩
    · simp only [build, Except.error.injEq]
      constructor
      · rintro rfl
        exact ⟨[], r, steps, rfl, nofun⟩
      · rintro ⟨before, r', after, heq, hbefore⟩
        cases before with
        | nil =>
          have hfirst := (List.cons.inj heq).1
          simp only [Prod.mk.injEq, Option.some.injEq] at hfirst
          exact hfirst.2
        | cons first before =>
          obtain ⟨rfl, -⟩ := List.cons.inj heq
          exact absurd (hbefore _ List.mem_cons_self) (by simp)

end Unwinding
