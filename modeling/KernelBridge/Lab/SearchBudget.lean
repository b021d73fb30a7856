import KernelBridge.Lab.Precedence
import KernelBridge.Lib.SearchTree

/-!
# The search budget of the history checker

The events of a history are never all waiting for each other, so the search explores at least one
choice. With the law of the search tree this makes one number of the history decide what
`check_history` answers under each budget.

Main result: `checkHistory_budget_law`.
-/

namespace Lab

open Py Backtrack

/-- The verdict of a search that is not abandoned, and what it has explored. -/
inductive Verdict.Conclusive : Verdict → ℕ → Prop
  | pass (order : List ℕ) (explored : ℕ) : Conclusive (.pass order explored) explored
  | fail (explored : ℕ) : Conclusive (.fail explored) explored

namespace History

variable {h : History}

/-- The search of a history with an event is not complete at its start. -/
theorem start_not_complete (hpos : 0 < h.events.length) : h.problem.complete h.start = false := by
  -- the first event is not placed yet
  by_contra hcomplete
  have := complete_iff.mp (by simpa using hcomplete) ⟨0, hpos⟩
  rw [show placed h.start.mask _ = false from placed_zero] at this
  cases this

/-- A history has one conclusive verdict, which every budget that covers its cost reaches. -/
theorem check_law (hpos : 0 < h.events.length) : ∃ n verdict, 1 ≤ n ∧
    Verdict.Conclusive verdict n ∧ ∀ budget, h.check budget =
      if n ≤ budget then verdict else .inconclusive "search budget exhausted" budget := by
  obtain ⟨out, n, hout, hlaw⟩ := h.problem.search_law (h.events.length + 1) h.start
  obtain ⟨i, heligible⟩ := exists_eligible (start_not_complete hpos)
  have hn : 1 ≤ n := Problem.search_pos (start_not_complete hpos) (List.mem_finRange i) heligible
    hout ((hlaw n).trans (if_pos le_rfl))
  cases out with
  | exhausted => exact absurd rfl hout
  | found s =>
    refine ⟨n, .pass s.order n, hn, .pass _ _, fun budget => ?_⟩
    rw [check, hlaw]
    split_ifs <;> rfl
  | none =>
    refine ⟨n, .fail n, hn, .fail _, fun budget => ?_⟩
    rw [check, hlaw]
    split_ifs <;> rfl

end History

/-- The budget law of the history checker. A complete and well-formed history has a number, at least
one, and one verdict, a pass or a fail that reports the number as explored. Under every admissible
budget that is not below the number `check_history` returns this verdict; under a smaller one it
reports that the budget is exhausted, and the budget as explored. -/
theorem checkHistory_budget_law {capacity : Json} {history : List Json} {expectedCount : ℕ}
    {h : History} (hcount : 1 ≤ expectedCount ∧ expectedCount ≤ maxHistory)
    (hcomplete : history.length = expectedCount)
    (haccept : accept capacity history = .ok (some h)) :
    ∃ n : ℕ, ∃ verdict, 1 ≤ n ∧ ((∃ order, verdict = .pass order n) ∨ verdict = .fail n) ∧
      ∀ budget : ℤ, 1 ≤ budget ∧ budget ≤ 100000 →
        checkHistory capacity history expectedCount budget =
          .ok (if (n : ℤ) ≤ budget then verdict
            else .inconclusive "search budget exhausted" budget.toNat) := by
  have hpos : 0 < h.events.length := by
    rw [length_of_accept haccept]
    omega
  obtain ⟨n, verdict, hn, hconclusive, hcheck⟩ := History.check_law hpos
  refine ⟨n, verdict, hn, ?_, fun budget hbudget => ?_⟩
  · cases hconclusive with
    | pass order => exact .inl ⟨order, rfl⟩
    | fail => exact .inr rfl
  · rw [checkHistory_of_accept hbudget hcount hcomplete haccept, hcheck]
    simp only [show n ≤ budget.toNat ↔ (n : ℤ) ≤ budget by omega]

/-- The budget that the recording of two calls needs. -/
theorem checkHistory_budget_law_handoff :
    ∃ n : ℕ, ∃ verdict, 1 ≤ n ∧ ((∃ order, verdict = .pass order n) ∨ verdict = .fail n) ∧
      ∀ budget : ℤ, 1 ≤ budget ∧ budget ≤ 100000 →
        checkHistory (.int 256) recordedHandoff 2 budget =
          .ok (if (n : ℤ) ≤ budget then verdict
            else .inconclusive "search budget exhausted" budget.toNat) :=
  checkHistory_budget_law (h := History.handoff) (by decide) rfl rfl

end Lab
