import Mathlib.Data.List.Basic
import Mathlib.Data.Nat.Basic
import Mathlib.Tactic.Common

/-!
# Backtracking with a budget

Depth-first search for a complete state. From a state, the choices are tried in a fixed order; an
eligible choice costs one unit of a budget whether it leads anywhere or not, and the whole search
is abandoned when an eligible choice comes up with nothing left to spend.

`Problem.Path` is what the search explores. A state that is found is complete and reached by a
path (`search_found`); a search that fails, with a rank that every advance lowers as its depth
bound, shows that no path leads to a complete state (`search_none`). The outcome of a search that
is not abandoned is the same under every budget that covers its cost (`search_eq_of_le`), and one
that is abandoned has spent its budget exactly (`search_exhausted`).
-/

namespace Backtrack

variable {σ ι : Type*}

/-- What to search for, and how: the complete states, the choices in the order they are tried,
those eligible in a state, and where a choice leads, if anywhere. -/
structure Problem (σ ι : Type*) where
  complete : σ → Bool
  choices : List ι
  eligible : σ → ι → Bool
  advance : σ → ι → Option σ

/-- The outcome of a search. -/
inductive Outcome (σ : Type*)
  | found (s : σ)
  | none
  | exhausted

namespace Problem

variable (P : Problem σ ι) (budget : ℕ)

/-- Tries the choices in turn from the state `s`; `visit` searches from the states they lead
to. The number is that of the choices explored so far. -/
def tryAll (visit : σ → ℕ → Outcome σ × ℕ) (s : σ) : List ι → ℕ → Outcome σ × ℕ
  | [], explored => (.none, explored)
  | i :: rest, explored =>
    if P.eligible s i = false then tryAll visit s rest explored
    else if budget ≤ explored then (.exhausted, explored)
    else
      match P.advance s i with
      | none => tryAll visit s rest (explored + 1)
      | some s' =>
        match visit s' (explored + 1) with
        | (.none, explored) => tryAll visit s rest explored
        | result => result

/-- The search from `s`, at most `depth` states deep. -/
def search : ℕ → σ → ℕ → Outcome σ × ℕ
  | 0, _, explored => (.none, explored)
  | depth + 1, s, explored =>
    if P.complete s then (.found s, explored)
    else P.tryAll budget (search depth) s P.choices explored

/-- The states that sequences of eligible choices lead to. -/
inductive Path : σ → List ι → σ → Prop
  | nil (s : σ) : Path s [] s
  | cons {s s' s'' : σ} {i : ι} {is : List ι} (heligible : P.eligible s i = true)
      (hadvance : P.advance s i = some s') (hpath : Path s' is s'') : Path s (i :: is) s''

variable {P budget} {visit visit' : σ → ℕ → Outcome σ × ℕ} {s s' : σ} {e e' depth : ℕ} {l : List ι}
  {out : Outcome σ}

/-- One choice of `tryAll`: skipped, over budget, leading nowhere, or visited. -/
theorem tryAll_cons (P : Problem σ ι) (budget : ℕ) (visit : σ → ℕ → Outcome σ × ℕ) (s : σ) (i : ι)
    (rest : List ι) (e : ℕ) :
    (P.eligible s i = false ∧
      P.tryAll budget visit s (i :: rest) e = P.tryAll budget visit s rest e) ∨
    (P.eligible s i = true ∧ budget ≤ e ∧
      P.tryAll budget visit s (i :: rest) e = (.exhausted, e)) ∨
    (P.eligible s i = true ∧ e < budget ∧ P.advance s i = none ∧
      P.tryAll budget visit s (i :: rest) e = P.tryAll budget visit s rest (e + 1)) ∨
    ∃ s', P.eligible s i = true ∧ e < budget ∧ P.advance s i = some s' ∧
      P.tryAll budget visit s (i :: rest) e =
        match visit s' (e + 1) with
        | (.none, e₁) => P.tryAll budget visit s rest e₁
        | result => result := by
  cases hel : P.eligible s i with
  | false => exact .inl ⟨rfl, by simp [tryAll, hel]⟩
  | true =>
    rcases Nat.lt_or_ge e budget with hlt | hge
    · cases hadv : P.advance s i with
      | none => exact .inr (.inr (.inl ⟨rfl, hlt, rfl, by simp [tryAll, hel, hadv, not_le.mpr hlt]⟩))
      | some s' =>
        exact .inr (.inr (.inr ⟨s', rfl, hlt, rfl, by simp [tryAll, hel, hadv, not_le.mpr hlt]⟩))
    · exact .inr (.inl ⟨rfl, hge, by simp [tryAll, hel, hge]⟩)

/-! ## Soundness and completeness -/

/-- What is found is found behind one of the choices. -/
theorem tryAll_found (h : P.tryAll budget visit s l e = (.found s', e')) :
    ∃ i s₁ e₁, P.eligible s i = true ∧ P.advance s i = some s₁ ∧
      visit s₁ e₁ = (.found s', e') := by
  induction l generalizing e with
  | nil => simp [tryAll] at h
  | cons i rest ih =>
    rcases tryAll_cons P budget visit s i rest e with
      ⟨-, heq⟩ | ⟨-, -, heq⟩ | ⟨-, -, -, heq⟩ | ⟨s₁, hel, -, hadv, heq⟩ <;> rw [heq] at h
    · exact ih h
    · cases h
    · exact ih h
    · split at h
      · exact ih h
      · exact ⟨i, s₁, _, hel, hadv, h⟩

/-- A state that is found is complete, and a path leads to it. -/
theorem search_found (h : P.search budget depth s e = (.found s', e')) :
    ∃ is, P.Path s is s' ∧ P.complete s' = true := by
  induction depth generalizing s e with
  | zero => cases h
  | succ depth ih =>
    rw [search] at h
    split_ifs at h with hcomplete
    · cases h
      exact ⟨[], .nil _, hcomplete⟩
    · obtain ⟨i, s₁, e₁, hel, hadv, hvisit⟩ := tryAll_found h
      obtain ⟨is, hpath, hcomplete'⟩ := ih hvisit
      exact ⟨i :: is, .cons hel hadv hpath, hcomplete'⟩

/-- If nothing is found, then behind none of the choices that can be made. -/
theorem tryAll_none (h : P.tryAll budget visit s l e = (.none, e')) {i : ι} (hi : i ∈ l)
    (hel : P.eligible s i = true) {s₁ : σ} (hadv : P.advance s i = some s₁) :
    ∃ e₁ e₂, visit s₁ e₁ = (.none, e₂) := by
  induction l generalizing e with
  | nil => cases hi
  | cons j rest ih =>
    rcases tryAll_cons P budget visit s j rest e with
      ⟨hno, heq⟩ | ⟨-, -, heq⟩ | ⟨-, -, hnone, heq⟩ | ⟨s₂, -, -, hsome, heq⟩ <;> rw [heq] at h
    · rcases List.mem_cons.mp hi with rfl | hi
      · rw [hel] at hno; cases hno
      · exact ih h hi
    · cases h
    · rcases List.mem_cons.mp hi with rfl | hi
      · rw [hadv] at hnone; cases hnone
      · exact ih h hi
    · split at h
      next hvisit =>
        rcases List.mem_cons.mp hi with rfl | hi
        · rw [hadv] at hsome
          cases hsome
          exact ⟨_, _, hvisit⟩
        · exact ih h hi
      next hvisit => exact absurd h (hvisit _)

/-- If the search fails, no path leads to a complete state. The depth must exceed a rank of the
state that every advance lowers, so that the search is never cut short. -/
theorem search_none (rank : σ → ℕ)
    (hrank : ∀ s i s', P.eligible s i = true → P.advance s i = some s' → rank s' < rank s)
    (hall : ∀ s i, P.eligible s i = true → i ∈ P.choices)
    (hdepth : rank s < depth) (h : P.search budget depth s e = (.none, e')) {is : List ι}
    (hpath : P.Path s is s') : P.complete s' = false := by
  induction depth generalizing s e e' is with
  | zero => exact absurd hdepth (Nat.not_lt_zero _)
  | succ depth ih =>
    rw [search] at h
    by_cases hcomplete : P.complete s = true
    · rw [if_pos hcomplete] at h
      cases h
    · rw [if_neg hcomplete] at h
      cases hpath with
      | nil => simpa using hcomplete
      | @cons _ s₁ _ i is hel hadv hrest =>
        -- the search has visited the first state on the path and found nothing there
        obtain ⟨e₁, e₂, hvisit⟩ := tryAll_none h (hall s i hel) hel hadv
        have := hrank s i s₁ hel hadv
        exact ih (by omega) hvisit hrest

/-! ## The budget -/

/-- The count of explored states does not go down. -/
theorem tryAll_mono (hvisit : ∀ s e, e ≤ (visit s e).2) :
    e ≤ (P.tryAll budget visit s l e).2 := by
  induction l generalizing e with
  | nil => exact le_rfl
  | cons i rest ih =>
    rcases tryAll_cons P budget visit s i rest e with
      ⟨-, heq⟩ | ⟨-, -, heq⟩ | ⟨-, -, -, heq⟩ | ⟨s₁, -, -, -, heq⟩ <;> rw [heq]
    · exact ih
    · exact Nat.le_of_succ_le ih
    · have := hvisit s₁ (e + 1)
      split
      next e₁ hnone =>
        rw [hnone] at this
        exact le_trans (by omega : e ≤ e₁) ih
      next result hresult => omega

/-- The number of choices explored only grows. -/
theorem search_mono : e ≤ (P.search budget depth s e).2 := by
  induction depth generalizing s e with
  | zero => exact le_rfl
  | succ depth ih =>
    rw [search]
    split_ifs
    · exact le_rfl
    · exact tryAll_mono fun _ _ => ih

/-- The count stays within the budget if every visit keeps it there. -/
theorem tryAll_le (hvisit : ∀ s e, e ≤ budget → (visit s e).2 ≤ budget) (he : e ≤ budget) :
    (P.tryAll budget visit s l e).2 ≤ budget := by
  induction l generalizing e with
  | nil => exact he
  | cons i rest ih =>
    rcases tryAll_cons P budget visit s i rest e with
      ⟨-, heq⟩ | ⟨-, -, heq⟩ | ⟨-, hlt, -, heq⟩ | ⟨s₁, -, hlt, -, heq⟩ <;> rw [heq]
    · exact ih he
    · exact he
    · exact ih hlt
    · have := hvisit s₁ (e + 1) hlt
      split
      next e₁ hnone => rw [hnone] at this; exact ih this
      next => exact this

/-- The search never spends more than its budget. -/
theorem search_le (he : e ≤ budget) : (P.search budget depth s e).2 ≤ budget := by
  induction depth generalizing s e with
  | zero => exact he
  | succ depth ih =>
    rw [search]
    split_ifs
    · exact he
    · exact tryAll_le (fun _ _ => ih) he

/-- The search gives up only when the budget is spent. -/
theorem tryAll_exhausted (hvisit : ∀ s e e', visit s e = (.exhausted, e') → budget ≤ e')
    (h : P.tryAll budget visit s l e = (.exhausted, e')) : budget ≤ e' := by
  induction l generalizing e with
  | nil => cases h
  | cons i rest ih =>
    rcases tryAll_cons P budget visit s i rest e with
      ⟨-, heq⟩ | ⟨-, hge, heq⟩ | ⟨-, -, -, heq⟩ | ⟨s₁, -, -, -, heq⟩ <;> rw [heq] at h
    · exact ih h
    · cases h; exact hge
    · exact ih h
    · split at h
      · exact ih h
      · exact hvisit _ _ _ h

/-- A search that is abandoned has spent its budget exactly. -/
theorem search_exhausted (he : e ≤ budget) (h : P.search budget depth s e = (.exhausted, e')) :
    e' = budget := by
  have hle : (P.search budget depth s e).2 ≤ budget := search_le he
  rw [h] at hle
  -- the other direction does not need that the budget is not exceeded
  refine le_antisymm hle ?_
  clear he hle
  induction depth generalizing s e e' with
  | zero => cases h
  | succ depth ih =>
    rw [search] at h
    by_cases hcomplete : P.complete s = true
    · rw [if_pos hcomplete] at h
      cases h
    · rw [if_neg hcomplete] at h
      exact tryAll_exhausted (fun _ _ _ => ih) h

/-- A search that ends within another budget goes the same way with it. -/
theorem tryAll_eq_of_le {budget' : ℕ} {explored : ℕ} (hmono : ∀ s e, e ≤ (visit s e).2)
    (hvisit : ∀ s e out explored, visit s e = (out, explored) → out ≠ .exhausted →
      explored ≤ budget' → visit' s e = (out, explored))
    (h : P.tryAll budget visit s l e = (out, explored)) (hout : out ≠ .exhausted)
    (hle : explored ≤ budget') : P.tryAll budget' visit' s l e = (out, explored) := by
  induction l generalizing e with
  | nil => exact h
  | cons i rest ih =>
    rcases tryAll_cons P budget visit s i rest e with
      ⟨hno, heq⟩ | ⟨-, -, heq⟩ | ⟨hel, -, hadv, heq⟩ | ⟨s₁, hel, -, hadv, heq⟩ <;> rw [heq] at h
    · rw [tryAll, if_pos hno]
      exact ih h
    · cases h
      exact absurd rfl hout
    · -- what was explored fits the other budget, so this choice does
      have hlt : e + 1 ≤ (P.tryAll budget visit s rest (e + 1)).2 := tryAll_mono hmono
      rw [h] at hlt
      rw [tryAll, if_neg (by simp [hel]), if_neg (by omega), hadv]
      exact ih h
    · -- the visit costs at least the choice itself, and no more than the whole search
      have hgrow := hmono s₁ (e + 1)
      cases hv : visit s₁ (e + 1) with
      | mk out₁ e₁ =>
        rw [hv] at h hgrow
        cases out₁ with
        | none =>
          replace h : P.tryAll budget visit s rest e₁ = (out, explored) := h
          have hrest : e₁ ≤ (P.tryAll budget visit s rest e₁).2 := tryAll_mono hmono
          rw [h] at hrest
          have hsame := hvisit s₁ (e + 1) .none e₁ hv (by simp) (by omega)
          rw [tryAll, if_neg (by simp [hel]), if_neg (by omega), hadv]
          simp only [hsame]
          exact ih h
        | found s₂ =>
          cases h
          have hsame := hvisit s₁ (e + 1) _ _ hv hout hle
          rw [tryAll, if_neg (by simp [hel]), if_neg (by omega), hadv]
          simp only [hsame]
        | exhausted =>
          cases h
          exact absurd rfl hout

/-- A search that is not abandoned has the same outcome, at the same cost, under every budget that
covers the cost. -/
theorem search_eq_of_le {budget' explored : ℕ} (h : P.search budget depth s e = (out, explored))
    (hout : out ≠ .exhausted) (hle : explored ≤ budget') :
    P.search budget' depth s e = (out, explored) := by
  induction depth generalizing s e out explored with
  | zero => exact h
  | succ depth ih =>
    rw [search] at h ⊢
    split_ifs at h ⊢ with hcomplete
    · exact h
    · exact tryAll_eq_of_le (fun _ _ => search_mono) (fun _ _ _ _ => ih) h hout hle

end Problem

end Backtrack
