import Mathlib.Data.Finset.Sort
import Mathlib.Data.Fintype.Card
import Mathlib.Data.Fintype.Sets
import Mathlib.Order.Extension.Linear
import Mathlib.Order.RelClasses

/-!
# The order of timed calls

Calls that take time, made by sequential programs. A call comes before another if it has finished
strictly before the other starts, or if it is earlier in the same program. The two do not fit
together by themselves: the first is strict in the times, and the calls of a program may touch. They
do if no call of a program finishes after a later one starts (`Calls.separate`), and then coming
before is a strict order (`Calls.isStrictOrder_precedes`).

Of finitely many things in a strict order, one can always be taken next (`exists_next`), so all of
them can be taken in turn (`exists_sequence`).
-/

namespace RealTime

variable {ι τ : Type*}

/-! ## Precedence -/

/-- Calls with the times at which they start and finish, and the order within the programs that
make them. -/
structure Calls (ι τ : Type*) [Preorder τ] where
  started : ι → τ
  finished : ι → τ
  earlier : ι → ι → Prop
  started_le : ∀ i, started i ≤ finished i
  earlier_irrefl : ∀ i, ¬earlier i i
  earlier_trans : ∀ i j k, earlier i j → earlier j k → earlier i k
  separate : ∀ i j, earlier i j → finished i ≤ started j

namespace Calls

variable [Preorder τ] (c : Calls ι τ)

/-- The call `i` has finished before `j` starts, or it is earlier in the same program. -/
def Precedes (i j : ι) : Prop := c.finished i < c.started j ∨ c.earlier i j

variable {c} {i j : ι}

/-- Either way `i` has finished when `j` starts. -/
theorem Precedes.finished_le (h : c.Precedes i j) : c.finished i ≤ c.started j :=
  h.elim le_of_lt (c.separate i j)

/-- Coming before is a strict order. -/
instance isStrictOrder_precedes : IsStrictOrder ι c.Precedes where
  irrefl i h := by
    rcases h with hlt | hearlier
    · exact absurd (lt_of_lt_of_le hlt (c.started_le i)) (lt_irrefl _)
    · exact c.earlier_irrefl i hearlier
  trans i j k hij hjk := by
    rcases hij with hlt | hearlier
    · exact .inl (hlt.trans_le ((c.started_le j).trans hjk.finished_le))
    · rcases hjk with hlt | hearlier'
      · exact .inl (((c.separate i j hearlier).trans (c.started_le j)).trans_lt hlt)
      · exact .inr (c.earlier_trans i j k hearlier hearlier')

end Calls

/-! ## Strict orders on finite types -/

section StrictOrder

variable (r : ι → ι → Prop) [IsStrictOrder ι r]

/-- Unless everything has been taken, something is left of which everything before has been taken. -/
theorem exists_next [Finite ι] {taken : Set ι} (h : ∃ i, i ∉ taken) :
    ∃ i, i ∉ taken ∧ ∀ j, r j i → j ∈ taken := by
  obtain ⟨i, hi, hmin⟩ := (Finite.wellFounded_of_trans_of_irrefl r).has_min takenᶜ h
  exact ⟨i, hi, fun j hj => not_not.mp fun hout => hmin j hout hj⟩

/-- Everything can be taken in turn, nothing after what it comes before. -/
theorem exists_sequence [Fintype ι] :
    ∃ is : List ι, is.Nodup ∧ (∀ i, i ∈ is) ∧ is.Pairwise fun i j => ¬r j i := by
  classical
  let _ := partialOrderOfSO r
  -- sort by a linear order that extends the given one
  obtain ⟨s, hlinear, hle⟩ := extend_partialOrder ((· ≤ ·) : ι → ι → Prop)
  refine ⟨Finset.univ.sort s, Finset.sort_nodup _ _, fun i => by simp, ?_⟩
  have hsorted := (Finset.pairwise_sort Finset.univ s).and (Finset.sort_nodup Finset.univ s)
  refine hsorted.imp fun {i j} ⟨hij, hne⟩ hji => hne ?_
  exact antisymm hij (hle j i (le_of_lt hji))

/-- There is no cycle in a strict order. -/
theorem not_transGen_self (i : ι) : ¬Relation.TransGen r i i := by
  rw [Relation.transGen_eq_self]
  exact irrefl i

end StrictOrder

end RealTime
