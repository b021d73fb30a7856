import KernelBridge.Lab.Linearizability
import KernelBridge.Lib.RealTime

/-!
# The precedence relation of the history checker

The events of a history are timed calls, and the sequence numbers of the workers are the programs
that make them. What `check_history` has checked is what `RealTime.Calls` asks for, and what it
encodes in the masks `predecessors` is that one call comes before another (`before_iff`): a strict
order. So whatever has been placed, something can be placed next unless all is, and some order of
the events respects the masks. A failing search has tried the answers, not the order.

Main result: `checkHistory_precedence`.
-/

namespace Lab

open Py

namespace History

variable (h : History)

/-- The events of a history, as timed calls of sequential programs. -/
def calls : RealTime.Calls (Fin h.events.length) ℕ where
  started i := (h.events.get i).started
  finished i := (h.events.get i).finished
  earlier j i := (h.events.get j).sameWorkerBefore (h.events.get i) = true
  started_le i := h.started_le _ (List.getElem_mem i.isLt)
  earlier_irrefl i := by simp [Event.sameWorkerBefore]
  earlier_trans i j k hij hjk := by
    obtain ⟨hworker, hsequence⟩ := of_decide_eq_true hij
    obtain ⟨hworker', hsequence'⟩ := of_decide_eq_true hjk
    exact decide_eq_true ⟨hworker'.trans hworker, hsequence.trans hsequence'⟩
  separate i j hij :=
    h.separate _ (List.getElem_mem j.isLt) _ (List.getElem_mem i.isLt) hij

/-- The event `j` is in the mask of what must precede the event `i`. -/
def Before (j i : Fin h.events.length) : Prop := placed (h.predecessors i) j = true

variable {h} {i j : Fin h.events.length} {s : SearchState h.events.length}

/-- The order of the checker is that of the calls. -/
theorem precedes_iff :
    h.calls.Precedes j i ↔ (h.events.get j).precedes (h.events.get i) = true := by
  rw [Event.precedes, Bool.or_eq_true, decide_eq_true_eq]
  rfl

/-- The masks encode which call comes before which. -/
theorem before_iff : h.Before j i ↔ h.calls.Precedes j i := by
  rw [Before, placed_predecessors, decide_eq_true_eq, precedes_iff]
  -- no event comes before itself, so the test of the source for that is redundant
  refine and_iff_right_of_imp fun hprec heq => ?_
  subst heq
  exact irrefl i (precedes_iff.mpr hprec)

/-- Coming before is a strict order, also for the instances of the library. -/
instance isStrictOrder_before : IsStrictOrder (Fin h.events.length) h.Before := by
  have heq : h.Before = h.calls.Precedes := funext₂ fun _ _ => propext before_iff
  rw [heq]
  infer_instance

/-- Whatever is placed, an event can be placed next, unless all are. -/
theorem exists_eligible (hcomplete : h.problem.complete s = false) :
    ∃ i, h.problem.eligible s i = true := by
  have hmissing : ∃ i, i ∉ {k | placed s.mask k = true} := by
    by_contra hall
    push Not at hall
    rw [complete_iff.mpr hall] at hcomplete
    cases hcomplete
  obtain ⟨i, hi, hbefore⟩ := RealTime.exists_next h.calls.Precedes hmissing
  exact ⟨i, eligible_iff.mpr ⟨by simpa using hi, fun j _ hprec =>
    hbefore j (precedes_iff.mpr hprec)⟩⟩

/-- Some order of the events respects real time and the sequences of the workers. -/
theorem exists_order (h : History) : ∃ es : List (Event Op), es.Perm h.events ∧
    es.Pairwise fun a b => b.precedes a = false := by
  obtain ⟨is, hnodup, hall, hordered⟩ := RealTime.exists_sequence h.calls.Precedes
  refine ⟨h.select is, perm_events_iff.mpr ⟨is, ?_, rfl⟩, ?_⟩
  · exact (List.perm_ext_iff_of_nodup hnodup (List.nodup_finRange _)).mpr fun k => by simp [hall]
  · refine List.pairwise_map.mpr (hordered.imp fun {i j} hij => ?_)
    simpa using mt precedes_iff.mpr hij

end History

/-- The precedence relation of the history checker is a strict partial order. In every history that
passes the checks of `check_history`, the relation in the masks is irreflexive, transitive and
without cycles, and consists of what finishes before the other starts or is earlier in the sequence
of the same worker. So the search can always go on until all is placed, some order of the events
respects the relation, and a fail says of every such order that the model answers otherwise. -/
theorem checkHistory_precedence {capacity : Json} {history : List Json} {h : History}
    (haccept : accept capacity history = .ok (some h)) :
    IsStrictOrder (Fin h.events.length) h.Before ∧
      (∀ i, ¬Relation.TransGen h.Before i i) ∧
      (∀ i j : Fin h.events.length, h.Before j i ↔
        (h.events.get j).finished < (h.events.get i).started ∨
          (h.events.get i).worker = (h.events.get j).worker ∧
            (h.events.get j).sequence < (h.events.get i).sequence) ∧
      (∀ s, h.problem.complete s = false → ∃ i, h.problem.eligible s i = true) ∧
      (∃ es : List (Event Op), es.Perm h.events ∧ es.Pairwise fun a b => b.precedes a = false) ∧
      ∀ (expectedCount : ℕ) (budget : ℤ) (explored : ℕ),
        checkHistory capacity history expectedCount budget = .ok (.fail explored) →
          ∀ es : List (Event Op), es.Perm h.events →
            es.Pairwise (fun a b => b.precedes a = false) → ¬Replays (.new h.capacity) es := by
  refine ⟨inferInstance, RealTime.not_transGen_self _, fun i j => ?_,
    fun s => History.exists_eligible, h.exists_order, fun expectedCount budget explored hfail => ?_⟩
  · rw [History.before_iff, RealTime.Calls.Precedes]
    exact or_congr Iff.rfl decide_eq_true_iff
  · intro es hperm hordered hreplays
    rcases checkHistory_cases hfail with hinconclusive | ⟨-, -, accepted, haccepted, hverdict⟩
    · rcases hinconclusive with hnone | hnone <;> cases hnone
    · obtain rfl : h = accepted := by simpa using haccept.symm.trans haccepted
      -- an order in which the model answers as recorded is an explanation
      have hspec := h.check_spec budget.toNat
      rw [← hverdict] at hspec
      exact hspec _ ⟨es, hperm, rfl, hordered, hreplays⟩

/-- The order of two calls, and what the masks of the search make of it. -/
theorem checkHistory_precedence_handoff :
    IsStrictOrder (Fin History.handoff.events.length) History.handoff.Before ∧
      (∀ i, ¬Relation.TransGen History.handoff.Before i i) ∧
      (∀ i j : Fin History.handoff.events.length, History.handoff.Before j i ↔
        (History.handoff.events.get j).finished < (History.handoff.events.get i).started ∨
          (History.handoff.events.get i).worker = (History.handoff.events.get j).worker ∧
            (History.handoff.events.get j).sequence < (History.handoff.events.get i).sequence) ∧
      (∀ s, History.handoff.problem.complete s = false →
        ∃ i, History.handoff.problem.eligible s i = true) ∧
      (∃ es : List (Event Op), es.Perm History.handoff.events ∧
        es.Pairwise fun a b => b.precedes a = false) ∧
      ∀ (expectedCount : ℕ) (budget : ℤ) (explored : ℕ),
        checkHistory (.int 256) recordedHandoff expectedCount budget = .ok (.fail explored) →
          ∀ es : List (Event Op), es.Perm History.handoff.events →
            es.Pairwise (fun a b => b.precedes a = false) → ¬Replays (.new 256) es :=
  checkHistory_precedence rfl

end Lab
