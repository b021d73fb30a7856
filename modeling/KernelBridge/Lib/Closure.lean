import KernelBridge.Lib.Loop
import Mathlib.Data.List.Basic

/-!
# The largest closed part of a list

Every element requires others, and a list is closed if it holds all that its elements require. The
loop `prune` deletes the elements with a requirement that is missing, all at once, until there is
none. It ends after at most as many rounds as there are elements (`exists_prune`), and what it
leaves is the largest closed part of the list.
-/

namespace Closure

variable {α : Type*} [DecidableEq α] (requires : α → List α)

/-- The list holds all that its elements require. -/
def Closed (ids : List α) : Prop := ∀ i ∈ ids, requires i ⊆ ids

/-- The elements of which no requirement is missing. -/
def survivors (ids : List α) : List α := ids.filter fun i => (requires i).all (· ∈ ids)

/-- One round of the loop. -/
def round (ids : List α) : List α ⊕ List α :=
  if survivors requires ids = ids then .inr ids else .inl (survivors requires ids)

/-- The loop, for at most `fuel` rounds. -/
def prune (fuel : ℕ) (ids : List α) : Option (List α) := Loop.run (round requires) fuel ids

variable {requires}

/-- An element survives a round if all that it requires is there. -/
theorem mem_survivors {ids : List α} {i : α} :
    i ∈ survivors requires ids ↔ i ∈ ids ∧ requires i ⊆ ids := by
  simp [survivors, List.subset_def]

/-- A round leaves a list as it is if and only if the list is closed. -/
theorem survivors_eq_self_iff {ids : List α} :
    survivors requires ids = ids ↔ Closed requires ids := by
  simp [survivors, List.filter_eq_self, Closed, List.subset_def]

/-- A closed part of the list survives a round. -/
theorem subset_survivors {part ids : List α} (hclosed : Closed requires part)
    (hsub : part ⊆ ids) : part ⊆ survivors requires ids := fun _ hi =>
  mem_survivors.mpr ⟨hsub hi, fun _ hj => hsub (hclosed _ hi hj)⟩

/-- The loop ends, with the largest closed part of the list in its order. -/
theorem exists_prune {fuel : ℕ} {ids : List α} (hfuel : ids.length < fuel) :
    ∃ kept, prune requires fuel ids = some kept ∧ kept.Sublist ids ∧ Closed requires kept ∧
      ∀ part, Closed requires part → part ⊆ ids → part ⊆ kept := by
  refine Loop.run_of_variant
    (I := fun rest => rest.Sublist ids ∧ ∀ part, Closed requires part → part ⊆ ids → part ⊆ rest)
    List.length ?_ ?_ ⟨List.Sublist.refl ids, fun _ _ hsub => hsub⟩ hfuel
  · rintro rest rest' ⟨hrest, hmax⟩ hround
    rw [round] at hround
    split_ifs at hround with heq
    cases hround
    refine ⟨⟨List.filter_sublist.trans hrest, fun part hclosed hsub =>
      subset_survivors hclosed (hmax part hclosed hsub)⟩, ?_⟩
    -- a round that changes the list deletes an element
    have hne : (survivors requires rest).length ≠ rest.length := fun hlen =>
      heq (List.filter_sublist.eq_of_length hlen)
    have hle : (survivors requires rest).length ≤ rest.length := List.length_filter_le _ _
    omega
  · rintro rest kept ⟨hrest, hmax⟩ hround
    rw [round] at hround
    split_ifs at hround with heq
    cases hround
    exact ⟨hrest, survivors_eq_self_iff.mp heq, hmax⟩

end Closure
