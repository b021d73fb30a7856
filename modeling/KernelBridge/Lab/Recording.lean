import KernelBridge.Lab.Prefixes

/-!
# The order of a recording

The workers append their events as the calls return, so one run can be recorded in many orders. The
events in another order are a history again (`accept_perm`), and each of the two is embedded in the
other. So their search trees are of one size, although the searches visit them in different orders
and place the events at different bits.

Main result: `checkHistory_refutation_cost`.
-/

namespace Lab

open Py Backtrack

namespace History

variable {h h' : History}

/-- The events of `h` in another order, inside `h`. -/
theorem nonempty_embedding_of_perm (hcapacity : h'.capacity = h.capacity)
    (hperm : h'.events.Perm h.events) : Nonempty (Embedding h' h) := by
  obtain ⟨is, his, hevents⟩ := perm_events_iff.mp hperm
  have hlength : h'.events.length = is.length := by rw [← hevents, select, List.length_map]
  have hnodup : is.Nodup := his.nodup_iff.mpr (List.nodup_finRange _)
  exact ⟨{
    position := fun k => is.get (k.cast hlength)
    injective := fun j k hjk =>
      Fin.cast_injective hlength (List.nodup_iff_injective_get.mp hnodup hjk)
    capacity_eq := hcapacity
    unindexed_eq := fun k => by
      rw [List.get_eq_getElem, List.getElem_of_eq hevents.symm]
      simp [select]
    closed := fun j k _ => by
      obtain ⟨i, hi⟩ := List.get_of_mem (his.mem_iff.mpr (List.mem_finRange j))
      exact ⟨i.cast hlength.symm, hi⟩ }⟩

/-- The cost of the search does not depend on the order of the recording. -/
theorem cost_eq_of_perm (hcapacity : h'.capacity = h.capacity)
    (hperm : h'.events.Perm h.events) : h'.cost = h.cost := by
  obtain ⟨c⟩ := nonempty_embedding_of_perm hcapacity hperm
  obtain ⟨c'⟩ := nonempty_embedding_of_perm hcapacity.symm hperm.symm
  exact le_antisymm c.cost_le c'.cost_le

/-- A history without an explanation is refuted at its cost. -/
theorem check_of_not_isWitness (hnone : ∀ order, ¬h.IsWitness order) (budget : ℕ) :
    h.check budget = if h.cost ≤ budget then .fail h.cost
      else .inconclusive "search budget exhausted" budget := by
  obtain ⟨out, n, hout, hlaw⟩ := h.problem.search_law (h.events.length + 1) h.start
  have hsearch := (hlaw n).trans (if_pos le_rfl)
  cases out with
  | exhausted => exact absurd rfl hout
  | found s =>
    -- what is found is an explanation
    have hspec := h.check_spec n
    rw [check, hsearch] at hspec
    exact absurd hspec (hnone s.order)
  | none =>
    obtain rfl : n = h.cost := (Problem.cost_of_none hsearch).trans (Nat.zero_add _)
    rw [check, hlaw]
    split_ifs <;> rfl

end History

/-- The events of an accepted history in another order are accepted, and are the same. -/
theorem accept_perm {capacity : Json} {history history' : List Json} {h : History}
    (hperm : history'.Perm history) (haccept : accept capacity history = .ok (some h)) :
    ∃ h', accept capacity history' = .ok (some h') ∧ h'.capacity = h.capacity ∧
      h'.events.Perm h.events := by
  obtain ⟨hcapacity, hreads, hpos, hle⟩ := accept_iff_reads.mp haccept
  obtain ⟨events, hreads', hevents⟩ := List.perm_comp_forall₂ hperm hreads.flip
  have hsequences (w : ℕ) : (sequencesOf w events).Perm (sequencesOf w h.events) :=
    (hevents.filter _).map _
  have hlength := hperm.length_eq
  refine ⟨{ h with
    events
    operations_valid := fun e he => h.operations_valid e (hevents.mem_iff.mp he)
    started_le := fun e he => h.started_le e (hevents.mem_iff.mp he)
    index_nodup := (hevents.map _).nodup_iff.mpr h.index_nodup
    index_lt := fun e he => hevents.length_eq ▸ h.index_lt e (hevents.mem_iff.mp he)
    sequences := fun e he => ?_
    separate := fun e he other hother =>
      h.separate e (hevents.mem_iff.mp he) other (hevents.mem_iff.mp hother) },
    accept_iff_reads.mpr ⟨hcapacity, hreads'.flip, by omega, by omega⟩, rfl, hevents⟩
  · -- the same numbers are sorted
    rw [(hsequences _).length_eq, ← h.sequences e (hevents.mem_iff.mp he)]
    exact ((List.perm_insertionSort _ _).trans ((hsequences _).trans
      (List.perm_insertionSort _ _).symm)).eq_of_pairwise
      (fun a b _ _ hab hba => le_antisymm hab hba) (List.pairwise_insertionSort _ _)
      (List.pairwise_insertionSort _ _)

/-- The cost of a refutation does not depend on the order of the recording. A complete and
well-formed history without an explanation has a number, and in whatever order its events are
recorded, `check_history` reports a fail with this number as explored under every admissible budget
that is not below it. Only under the other budgets the search is abandoned. -/
theorem checkHistory_refutation_cost {capacity : Json} {history : List Json} {expectedCount : ℕ}
    {h : History} (hcount : 1 ≤ expectedCount ∧ expectedCount ≤ maxHistory)
    (hcomplete : history.length = expectedCount)
    (haccept : accept capacity history = .ok (some h))
    (hnone : ∀ order, ¬h.IsWitness order) :
    ∃ n : ℕ, ∀ history', history'.Perm history → ∀ budget : ℤ, 1 ≤ budget ∧ budget ≤ 100000 →
      checkHistory capacity history' expectedCount budget =
        .ok (if (n : ℤ) ≤ budget then .fail n
          else .inconclusive "search budget exhausted" budget.toNat) := by
  refine ⟨h.cost, fun history' hperm budget hbudget => ?_⟩
  obtain ⟨h', haccept', hcapacity, hevents⟩ := accept_perm hperm haccept
  -- an explanation of the same events would explain the history
  have hnone' : ∀ order, ¬h'.IsWitness order := by
    intro order hwitness
    obtain ⟨es, hes, -, hlegal⟩ := hwitness
    rw [hcapacity] at hlegal
    exact hnone _ ⟨es, hes.trans hevents, rfl, hlegal⟩
  rw [checkHistory_of_accept hbudget hcount (hperm.length_eq.trans hcomplete) haccept',
    History.check_of_not_isWitness hnone', History.cost_eq_of_perm hcapacity hevents]
  simp only [show h.cost ≤ budget.toNat ↔ (h.cost : ℤ) ≤ budget by omega]

/-- The cost of refuting the recording of a read of a byte that was never written. -/
theorem checkHistory_refutation_cost_phantom :
    ∃ n : ℕ, ∀ history', history'.Perm recordedPhantom →
      ∀ budget : ℤ, 1 ≤ budget ∧ budget ≤ 100000 →
        checkHistory (.int 256) history' 2 budget =
          .ok (if (n : ℤ) ≤ budget then .fail n
            else .inconclusive "search budget exhausted" budget.toNat) := by
  have hfail : Fails (.int 256) recordedPhantom 10 := ⟨1, rfl⟩
  obtain ⟨h, haccept, hnone⟩ := hfail.not_isWitness
  exact checkHistory_refutation_cost (by decide) rfl haccept hnone

end Lab
