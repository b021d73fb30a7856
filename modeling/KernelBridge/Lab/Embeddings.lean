import KernelBridge.Lab.SearchBudget

/-!
# Histories inside histories

The indexes that operations are recorded under say nothing about their order or their answers. So
the events of one history can be those of another but for the indexes, and the positions of the
events can differ as well. If what must come before one of them is one of them, the search of the
first history can be followed in the second (`Embedding.Follows`), and the tree that it explores is
no larger (`Embedding.cost_le`).
-/

namespace Lab

open Py Backtrack

/-- The event without its index, which neither its order nor its answer depends on. -/
def Event.unindexed (e : Event Op) : Event Op := { e with index := 0 }

namespace History

/-- What it costs to refute a history: the eligible choices in the tree of its search. -/
def cost (h : History) : ℕ := h.problem.cost (h.events.length + 1) h.start

/-- The events of `part` are events of `h`, but for their indexes, together with whatever must come
before them. -/
structure Embedding (part h : History) where
  position : Fin part.events.length → Fin h.events.length
  injective : Function.Injective position
  capacity_eq : part.capacity = h.capacity
  unindexed_eq : ∀ k, (part.events.get k).unindexed = (h.events.get (position k)).unindexed
  closed : ∀ j k, (h.events.get j).precedes (h.events.get (position k)) = true → ∃ i, position i = j

namespace Embedding

variable {part h : History} (c : Embedding part h)

/-- The order of the part is that of the whole. -/
theorem precedes_eq (j k : Fin part.events.length) :
    (part.events.get j).precedes (part.events.get k) =
      (h.events.get (c.position j)).precedes (h.events.get (c.position k)) := by
  have hunindexed (e e' : Event Op) : e.precedes e' = e.unindexed.precedes e'.unindexed := rfl
  rw [hunindexed, c.unindexed_eq, c.unindexed_eq, ← hunindexed]

/-- Different events of the part are at different places. -/
theorem nodup_position : ((List.finRange _).map c.position).Nodup :=
  (List.nodup_finRange _).map c.injective

/-- The part is not longer than the whole. -/
theorem length_le (c : Embedding part h) : part.events.length ≤ h.events.length := by
  simpa using Fintype.card_le_of_injective _ c.injective

variable {c} {s : SearchState part.events.length} {t : SearchState h.events.length}

variable (c) in
/-- The search of the part is where that of the whole is: of the events of the part the same are
placed, and the models agree. -/
def Follows (s : SearchState part.events.length) (t : SearchState h.events.length) : Prop :=
  (∀ k, placed s.mask k = placed t.mask (c.position k)) ∧ s.model = t.model

/-- The searches start at the same place. -/
theorem follows_start : c.Follows part.start h.start :=
  ⟨fun _ => placed_zero.trans placed_zero.symm, congrArg ReferenceModel.new c.capacity_eq⟩

/-- When the search of the whole is complete, so is that of the part. -/
theorem Follows.complete (hst : c.Follows s t) (ht : h.problem.complete t = true) :
    part.problem.complete s = true :=
  complete_iff.mpr fun k => (hst.1 k).trans (complete_iff.mp ht _)

/-- An event of the part is eligible in both searches or in neither. -/
theorem Follows.eligible_iff (hst : c.Follows s t) (k : Fin part.events.length) :
    part.problem.eligible s k = true ↔ h.problem.eligible t (c.position k) = true := by
  rw [History.eligible_iff, History.eligible_iff, hst.1]
  refine and_congr_right fun _ => ⟨fun hpart j hne hprec => ?_, fun hwhole j hne hprec => ?_⟩
  · -- what comes before an event of the part is in the part
    obtain ⟨j, rfl⟩ := c.closed j k hprec
    rw [← hst.1]
    exact hpart j (fun hkj => hne (congrArg c.position hkj)) ((c.precedes_eq j k).trans hprec)
  · rw [hst.1]
    exact hwhole _ (fun hkj => hne (c.injective hkj)) ((c.precedes_eq j k).symm.trans hprec)

/-- Placing an event of the part keeps the searches together. -/
theorem Follows.advance (hst : c.Follows s t) (k : Fin part.events.length) :
    Option.Rel c.Follows (part.problem.advance s k) (h.problem.advance t (c.position k)) := by
  have hoperation := congrArg Event.operation (c.unindexed_eq k)
  have hactual := congrArg Event.actual (c.unindexed_eq k)
  simp only [Event.unindexed] at hoperation hactual
  have hmask (j : Fin part.events.length) :
      placed (s.mask ||| bit k) j = placed (t.mask ||| bit (c.position k)) (c.position j) := by
    simp only [placed_or, placed_bit, hst.1, c.injective.eq_iff]
  simp only [problem, hoperation, hactual, hst.2]
  split_ifs
  · exact .some ⟨hmask, rfl⟩
  · exact .none

/-- The tree of the part is no larger than that of the whole. -/
theorem cost_le (c : Embedding part h) : part.cost ≤ h.cost := by
  refine Problem.cost_le_of_embedding (R := c.Follows) (f := c.position) ?_
    (fun _ _ hst => hst.complete) (fun _ _ k hst _ hk => (hst.eligible_iff k).mp hk) ?_
    (Nat.succ_le_succ c.length_le) follows_start
  · exact List.subperm_of_subset c.nodup_position fun i _ => List.mem_finRange i
  · intro s t k s₁ hst _ _ hadvance
    have hrel := hst.advance k
    rw [hadvance] at hrel
    generalize h.problem.advance t (c.position k) = result at hrel ⊢
    cases hrel with
    | some hst₁ => exact ⟨_, rfl, hst₁⟩

end Embedding

end History

end Lab
