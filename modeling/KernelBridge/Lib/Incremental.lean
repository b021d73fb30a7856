import Mathlib.Data.List.Basic
import Mathlib.Tactic.Common

/-!
# Incremental consumers

A consumer keeps a buffer to which input is appended, and takes steps on it while it can. When a
step that is possible on a buffer is possible, with the same effect, on every longer buffer, the
consumer may be run whenever input arrives: `settle_append` says that running it before more input
comes changes nothing in the end.

`resync` drops what lies before the first place at which a pattern may start, a pattern that the
end of the data cuts off included, and may itself be applied whenever data arrives
(`resync_append`).
-/

namespace Incremental

/-- A consumer with states `σ` of an input of elements of `α`. -/
structure Machine (σ α : Type*) where
  /-- One step, if there is one to take. -/
  step : σ → Option σ
  append : σ → List α → σ
  /-- A bound on the steps left. -/
  size : σ → ℕ
  size_lt : ∀ {s s'}, step s = some s' → size s' < size s
  append_append : ∀ s a b, append (append s a) b = append s (a ++ b)
  step_append : ∀ {s s'}, step s = some s' → ∀ b, step (append s b) = some (append s' b)

namespace Machine

variable {σ α : Type*} (m : Machine σ α)

/-- Takes steps while there are any. -/
def settle (s : σ) : σ :=
  match _h : m.step s with
  | none => s
  | some s' => settle s'
termination_by m.size s
decreasing_by exact m.size_lt _h

/-- A state in which no step can be taken is settled. -/
theorem settle_of_none {s : σ} (h : m.step s = none) : m.settle s = s := by
  rw [settle]
  split
  · rfl
  · rename_i s' hsome
    rw [h] at hsome
    cases hsome

/-- A step does not change where a state settles. -/
theorem settle_of_some {s s' : σ} (h : m.step s = some s') : m.settle s = m.settle s' := by
  rw [settle]
  split
  · rename_i hnone
    rw [h] at hnone
    cases hnone
  · rename_i t hsome
    rw [h, Option.some.injEq] at hsome
    rw [hsome]

/-- Running the consumer before more input comes changes nothing in the end. -/
theorem settle_append (s : σ) (b : List α) :
    m.settle (m.append (m.settle s) b) = m.settle (m.append s b) := by
  induction s using settle.induct m with
  | case1 s h => rw [m.settle_of_none h]
  | case2 s s' h ih =>
    rw [m.settle_of_some h, ih, m.settle_of_some (m.step_append h b)]

end Machine

/-! ## Searching for a pattern -/

section Resync

variable {α : Type*} [DecidableEq α] (pattern : List α)

/-- The pattern may start at the front of `l`: `l` starts with it, or is cut off inside it. -/
def MayStart (l : List α) : Prop := l.take pattern.length <+: pattern

/-- Whether the pattern may start here is a comparison of lists. -/
instance (l : List α) : Decidable (MayStart pattern l) := by
  unfold MayStart
  infer_instance

/-- Drops what lies before the first place at which the pattern may start. -/
def resync : List α → List α
  | [] => []
  | x :: xs => if MayStart pattern (x :: xs) then x :: xs else resync xs

variable {pattern}

/-- Nothing is dropped where the pattern may start. -/
theorem resync_of_mayStart {l : List α} (h : MayStart pattern l) : resync pattern l = l := by
  rcases l with _ | ⟨x, xs⟩
  · rfl
  · rw [resync, if_pos h]

/-- Resynchronising only drops. -/
theorem length_resync_le (l : List α) : (resync pattern l).length ≤ l.length := by
  induction l with
  | nil => exact Nat.le_refl _
  | cons x xs ih =>
    rw [resync]
    split
    · exact Nat.le_refl _
    · exact Nat.le_trans ih (Nat.le_succ _)

/-- The pattern may start at the front of what `resync` leaves. -/
theorem mayStart_resync (l : List α) : MayStart pattern (resync pattern l) := by
  induction l with
  | nil =>
    rw [resync, MayStart, List.take_nil]
    exact List.nil_prefix
  | cons x xs ih =>
    rw [resync]
    split
    · assumption
    · exact ih

omit [DecidableEq α] in
/-- Where the pattern cannot start, it cannot start when more data arrives. -/
theorem MayStart.of_append {l b : List α} (h : MayStart pattern (l ++ b)) : MayStart pattern l := by
  refine List.IsPrefix.trans ?_ h
  rw [List.take_append]
  exact List.prefix_append _ _

/-- Dropping the data before the first place at which the pattern may start, before more data
arrives, changes nothing in the end. -/
theorem resync_append (l b : List α) :
    resync pattern (resync pattern l ++ b) = resync pattern (l ++ b) := by
  induction l with
  | nil => rfl
  | cons x xs ih =>
    by_cases h : MayStart pattern (x :: xs)
    · rw [resync_of_mayStart h]
    · have happend : ¬ MayStart pattern (x :: (xs ++ b)) := fun hstart =>
        h (MayStart.of_append hstart)
      rw [resync, if_neg h, ih, List.cons_append, resync, if_neg happend]

/-- Resynchronising twice is resynchronising once. -/
theorem resync_resync (l : List α) : resync pattern (resync pattern l) = resync pattern l :=
  resync_of_mayStart (mayStart_resync l)

/-- Positions at which the pattern cannot start may be skipped. -/
theorem resync_drop {l : List α} {n : ℕ} (hn : n ≤ l.length)
    (h : ∀ i < n, ¬ MayStart pattern (l.drop i)) : resync pattern (l.drop n) = resync pattern l := by
  induction n generalizing l with
  | zero => rfl
  | succ n ih =>
    rcases l with _ | ⟨x, xs⟩
    · simp at hn
    · rw [List.drop_succ_cons, ih (Nat.le_of_succ_le_succ hn) fun i hi => by
        simpa using h (i + 1) (Nat.succ_lt_succ hi)]
      rw [resync, if_neg (by simpa using h 0 (Nat.succ_pos _))]

omit [DecidableEq α] in
/-- In data that is long enough, the pattern may start only where it occurs. -/
theorem mayStart_iff {l : List α} (h : pattern.length ≤ l.length) :
    MayStart pattern l ↔ l.take pattern.length = pattern := by
  constructor
  · intro hprefix
    exact hprefix.eq_of_length (List.length_take_of_le h)
  · intro heq
    exact ⟨[], by rw [heq, List.append_nil]⟩

end Resync

end Incremental
