import Mathlib.Data.List.Chain
import Mathlib.Data.List.Perm.Basic
import Mathlib.Logic.Relation
import Mathlib.Tactic.Common

/-!
# Topological orders

An order of some elements is `Ordered` if the parents of each come before it. A depth-first search
produces such an order by listing an element when all its parents are listed; what it has listed is
`Settled`, the last element first. On a cycle there is no such order (`Ordered.acyclic`), and a
search that meets an element on the way to itself has found a cycle (`exists_cycle`).
-/

namespace Topological

variable {α : Type*} (parents : α → List α)

/-- Each element was listed once, when its parents were listed. The last element comes first. -/
inductive Settled : List α → Prop
  | nil : Settled []
  | cons {i : α} {done : List α} (hnew : i ∉ done) (hparents : parents i ⊆ done)
      (hdone : Settled done) : Settled (i :: done)

/-- Nothing comes before one of its parents. -/
def Ordered [DecidableEq α] (order : List α) : Prop :=
  ∀ i ∈ order, ∀ j ∈ parents i, order.idxOf j < order.idxOf i

variable {parents} {done order : List α} {i j : α}

/-- No node is settled twice. -/
theorem Settled.nodup (h : Settled parents done) : done.Nodup := by
  induction h with
  | nil => exact List.nodup_nil
  | cons hnew _ _ ih => exact List.nodup_cons.mpr ⟨hnew, ih⟩

/-- The parents of a settled node are settled. -/
theorem Settled.parents_subset (h : Settled parents done) (hi : i ∈ done) : parents i ⊆ done := by
  induction h with
  | nil => cases hi
  | cons _ hparents _ ih =>
    rcases List.mem_cons.mp hi with rfl | hi
    · exact List.subset_cons_of_subset _ hparents
    · exact List.subset_cons_of_subset _ (ih hi)

/-- What is settled is ordered. -/
theorem Settled.ordered [DecidableEq α] (h : Settled parents done) :
    Ordered parents done.reverse := by
  induction h with
  | nil => intro i hi; cases hi
  | @cons k done hnew hparents hdone ih =>
    intro i hi j hj
    rw [List.reverse_cons] at hi ⊢
    have hmem {x : α} (hx : x ∈ done) :
        (done.reverse ++ [k]).idxOf x = done.reverse.idxOf x :=
      List.idxOf_append_of_mem (List.mem_reverse.mpr hx)
    rcases List.mem_append.mp hi with hi | hi
    · -- the parents of a settled element are settled before `k`
      have hi := List.mem_reverse.mp hi
      rw [hmem hi, hmem (hdone.parents_subset hi hj)]
      exact ih i (List.mem_reverse.mpr hi) j hj
    · -- `k` itself is listed after all of them
      obtain rfl : i = k := by simpa using hi
      have hj := hparents hj
      rw [hmem hj, List.idxOf_append_of_notMem (by simpa using hnew)]
      exact Nat.lt_add_right _ (List.idxOf_lt_length_of_mem (List.mem_reverse.mpr hj))

/-- What comes before what, in an order. -/
theorem Ordered.lt_of_transGen [DecidableEq α] (h : Ordered parents order) (hi : i ∈ order)
    (hpath : Relation.TransGen (fun b a => b ∈ parents a) j i) : order.idxOf j < order.idxOf i := by
  induction hpath using Relation.TransGen.head_induction_on with
  | single hj => exact h i hi _ hj
  | @head j k hj _ ih =>
    -- what comes before an element of the order is in the order
    have hk : k ∈ order := List.idxOf_lt_length_iff.mp (ih.trans (List.idxOf_lt_length_of_mem hi))
    exact (h k hk j hj).trans ih

/-- An order shows that its elements are on no cycle. -/
theorem Ordered.acyclic [DecidableEq α] (h : Ordered parents order) (hi : i ∈ order) :
    ¬Relation.TransGen (fun b a => b ∈ parents a) i i :=
  fun hpath => lt_irrefl _ (h.lt_of_transGen hi hpath)

/-- An element that is met again on the way to itself is on a cycle. -/
theorem exists_cycle {visiting : List α} (hchain : (i :: visiting).IsChain fun b a => b ∈ parents a)
    (hi : i ∈ visiting) : Relation.TransGen (fun b a => b ∈ parents a) i i := by
  -- along the way every element is reached from every later one
  have hpaths := (hchain.imp fun _ _ h => Relation.TransGen.single h).pairwise
  exact (List.pairwise_cons.mp hpaths).1 i hi

/-- What comes before what, as a part of the list. -/
theorem idxOf_lt_iff_sublist [DecidableEq α] {l : List α} (hnodup : l.Nodup) (hj : j ∈ l) :
    l.idxOf i < l.idxOf j ↔ [i, j].Sublist l := by
  induction l with
  | nil => cases hj
  | cons k l ih =>
    obtain ⟨hk, hnodup⟩ := List.nodup_cons.mp hnodup
    by_cases hik : i = k
    · -- `i` comes first, so `j` is any other element
      subst hik
      rw [List.idxOf_cons_self, List.cons_sublist_cons, List.singleton_sublist]
      by_cases hij : i = j
      · subst hij
        simp [hk]
      · simpa [List.idxOf_cons_ne _ hij, Ne.symm hij] using hj
    · rw [List.idxOf_cons_ne _ (Ne.symm hik)]
      by_cases hjk : j = k
      · -- `j` comes first, and there is no second one
        subst hjk
        rw [List.idxOf_cons_self]
        refine iff_of_false (Nat.not_lt_zero _) fun hsub => hk ?_
        rcases List.sublist_cons_iff.mp hsub with hsub | ⟨rest, heq, -⟩
        · exact hsub.subset (by simp)
        · exact absurd (List.cons.inj heq).1 hik
      · have hj := (List.mem_cons.mp hj).resolve_left hjk
        rw [List.idxOf_cons_ne _ (Ne.symm hjk), Nat.succ_lt_succ_iff, ih hnodup hj]
        constructor
        · exact fun hsub => hsub.cons k
        · intro hsub
          rcases List.sublist_cons_iff.mp hsub with hsub | ⟨rest, heq, -⟩
          · exact hsub
          · exact absurd (List.cons.inj heq).1 hik

end Topological
