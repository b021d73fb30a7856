import KernelBridge.Lib.Backtrack
import Mathlib.Algebra.Order.BigOperators.Group.List
import Mathlib.Algebra.Order.Ring.Nat
import Mathlib.Data.List.Perm.Subperm

/-!
# The tree of a backtracking search

`Problem.cost` counts the eligible choices in the tree below a state. It does not depend on the
order of the choices, and it is what a search without a budget explores if it finds nothing
(`search_of_cost_le`). So every search has a number of its own, and under any budget it either ends
with that number, always in the same way, or is abandoned with the budget spent (`search_law`).

Two problems are compared in two ways. If the choices of one are among those of the other, and its
steps can be followed there, its tree is no larger (`cost_le_of_embedding`). If the other one has, in
addition, no other eligible choices until the first is complete, and tries them in the same order,
then the first search ends no later than the other does (`search_lockstep`).
-/

namespace Backtrack

namespace Problem

variable {σ ι σ' ι' : Type*} (P : Problem σ ι)

/-- The number of eligible choices in the tree below `s`, at most `depth` states deep. -/
def cost : ℕ → σ → ℕ
  | 0, _ => 0
  | depth + 1, s =>
    if P.complete s then 0
    else (P.choices.map fun i =>
      if P.eligible s i then 1 + (P.advance s i).elim 0 (cost depth) else 0).sum

/-- What one choice at `s` adds to the cost, if `below` is that of the states it leads to. -/
def costOf (below : σ → ℕ) (s : σ) (i : ι) : ℕ :=
  if P.eligible s i then 1 + (P.advance s i).elim 0 below else 0

variable {P} {budget depth depth' e e' : ℕ} {s s' : σ} {i : ι} {l : List ι}

/-- The cost of a state is that of its choices, if it is not complete. -/
theorem cost_succ : P.cost (depth + 1) s =
    if P.complete s then 0 else (P.choices.map (P.costOf (P.cost depth) s)).sum := rfl

/-- A choice that cannot be made costs nothing. -/
theorem costOf_of_not_eligible {below : σ → ℕ} (h : P.eligible s i = false) :
    P.costOf below s i = 0 := by
  simp [costOf, h]

/-- A choice that leads nowhere costs the step. -/
theorem costOf_of_none {below : σ → ℕ} (h : P.eligible s i = true) (hadv : P.advance s i = none) :
    P.costOf below s i = 1 := by
  simp [costOf, h, hadv]

/-- A choice costs the step and what is behind it. -/
theorem costOf_of_some {below : σ → ℕ} (h : P.eligible s i = true)
    (hadv : P.advance s i = some s') : P.costOf below s i = 1 + below s' := by
  simp [costOf, h, hadv]

/-! ## The cost as a budget -/

/-- The search is not abandoned and explores at most `cost` choices, exactly so many if it finds
nothing. -/
def Affords (result : Outcome σ × ℕ) (e cost : ℕ) : Prop :=
  result.1 ≠ .exhausted ∧ result.2 ≤ e + cost ∧ (result.1 = .none → result.2 = e + cost)

/-- A budget that covers the choices is enough for trying them. -/
theorem tryAll_of_cost_le {visit : σ → ℕ → Outcome σ × ℕ} {below : σ → ℕ}
    (hvisit : ∀ s e, e + below s ≤ budget → Affords (visit s e) e (below s))
    (h : e + (l.map (P.costOf below s)).sum ≤ budget) :
    Affords (P.tryAll budget visit s l e) e (l.map (P.costOf below s)).sum := by
  induction l generalizing e with
  | nil => exact ⟨by simp [tryAll], by simp [tryAll], by simp [tryAll]⟩
  | cons i rest ih =>
    rw [List.map_cons, List.sum_cons] at h ⊢
    rcases tryAll_cons P budget visit s i rest e with
      ⟨hno, heq⟩ | ⟨hel, hge, heq⟩ | ⟨hel, -, hadv, heq⟩ | ⟨s₁, hel, -, hadv, heq⟩ <;> rw [heq]
    · rw [costOf_of_not_eligible hno, Nat.zero_add] at h ⊢
      exact ih h
    · -- an eligible choice has a cost of its own
      have hpos : 1 ≤ P.costOf below s i := by
        simp [costOf, hel]
      omega
    · rw [costOf_of_none hel hadv] at h ⊢
      obtain ⟨hout, hle, hnone⟩ := ih (e := e + 1) (by omega)
      exact ⟨hout, by omega, fun hfail => by have := hnone hfail; omega⟩
    · rw [costOf_of_some hel hadv] at h ⊢
      obtain ⟨hout, hle, hnone⟩ := hvisit s₁ (e + 1) (by omega)
      cases hv : visit s₁ (e + 1) with
      | mk out e₁ =>
        rw [hv] at hout hle hnone
        cases out with
        | none =>
          -- the rest is tried with what the visit has left
          obtain rfl : e₁ = e + 1 + below s₁ := hnone rfl
          obtain ⟨hrest, hrest_le, hrest_none⟩ := ih (e := e + 1 + below s₁) (by omega)
          refine ⟨hrest, ?_, fun hfail => ?_⟩
          · dsimp only
            omega
          · have := hrest_none hfail
            dsimp only
            omega
        | found s₂ => exact ⟨by simp, by dsimp only at hle ⊢; omega, by simp⟩
        | exhausted => exact absurd rfl hout

/-- A budget that covers the cost is enough. -/
theorem search_of_cost_le (h : e + P.cost depth s ≤ budget) :
    Affords (P.search budget depth s e) e (P.cost depth s) := by
  induction depth generalizing s e with
  | zero => exact ⟨by simp [search], by simp [search], by simp [search, cost]⟩
  | succ depth ih =>
    rw [cost_succ] at h ⊢
    rw [search]
    split_ifs at h ⊢ with hcomplete
    · exact ⟨by simp, by simp, by simp⟩
    · exact tryAll_of_cost_le (fun _ _ hle => ih hle) h

/-- A search that finds nothing has explored the whole tree. -/
theorem cost_of_none (h : P.search budget depth s e = (.none, e')) : e' = e + P.cost depth s := by
  -- the outcome is the same under a budget that covers the cost as well
  have hlarge := search_eq_of_le h (by simp) (le_max_left e' (e + P.cost depth s))
  obtain ⟨-, -, hnone⟩ : Affords (P.search (max e' (e + P.cost depth s)) depth s e) e _ :=
    search_of_cost_le (le_max_right _ _)
  rw [hlarge] at hnone
  exact hnone rfl

/-- The budget law. A search has a number `n` of its own: under a budget of at least `n` it ends
after `n` choices, always in the same way, and under a smaller one it is abandoned with the budget
spent. -/
theorem search_law (P : Problem σ ι) (depth : ℕ) (s : σ) : ∃ out n, out ≠ .exhausted ∧
    ∀ budget, P.search budget depth s 0 = if n ≤ budget then (out, n) else (.exhausted, budget) := by
  obtain ⟨hout, -, -⟩ : Affords (P.search (0 + P.cost depth s) depth s 0) 0 (P.cost depth s) :=
    search_of_cost_le le_rfl
  -- `n` is what the search explores under a budget that covers the cost
  generalize hsearch : P.search (0 + P.cost depth s) depth s 0 = result at hout
  obtain ⟨out, n⟩ := result
  refine ⟨out, n, hout, fun budget => ?_⟩
  split_ifs with hle
  · exact search_eq_of_le hsearch hout hle
  · rcases hsmall : P.search budget depth s 0 with ⟨out', n'⟩
    have hspent : (P.search budget depth s 0).2 ≤ budget := search_le (Nat.zero_le budget)
    rw [hsmall] at hspent
    by_cases hexhausted : out' = .exhausted
    · subst hexhausted
      rw [search_exhausted (Nat.zero_le budget) hsmall]
    · -- a search that ends within the budget ends alike under every larger one
      exfalso
      dsimp only at hspent
      have h₁ := search_eq_of_le hsmall hexhausted (le_max_left n' n)
      have h₂ := search_eq_of_le hsearch hout (le_max_right n' n)
      obtain ⟨-, rfl⟩ := Prod.mk.inj (h₁.symm.trans h₂)
      omega

/-- With a choice at hand a search explores something. -/
theorem search_pos (hcomplete : P.complete s = false) (hi : i ∈ P.choices)
    (heligible : P.eligible s i = true) {out : Outcome σ} {n : ℕ} (hout : out ≠ .exhausted)
    (h : P.search budget (depth + 1) s 0 = (out, n)) : 1 ≤ n := by
  by_contra hzero
  obtain rfl : n = 0 := by omega
  -- it would not need any budget at all
  have hnone := search_eq_of_le h hout (le_refl 0)
  rw [search, if_neg (by simp [hcomplete])] at hnone
  have hall : ∀ {l : List ι}, i ∈ l → ∀ visit, (P.tryAll 0 visit s l 0).1 = .exhausted := by
    intro l hl visit
    induction l with
    | nil => cases hl
    | cons j rest ih =>
      rw [tryAll]
      split_ifs with hno
      · refine ih ((List.mem_cons.mp hl).resolve_left ?_)
        rintro rfl
        rw [heligible] at hno
        cases hno
      · rfl
      · omega
  have := hall hi (P.search 0 depth)
  rw [hnone] at this
  exact hout this

/-! ## A part of a tree -/

section Embedding

variable {Q : Problem σ' ι'} {R : σ → σ' → Prop} {f : ι → ι'} {t : σ'}

/-- If the steps of `P` can be followed in `Q`, the tree of `P` is no larger. -/
theorem cost_le_of_embedding (hchoices : (P.choices.map f).Subperm Q.choices)
    (hcomplete : ∀ s t, R s t → Q.complete t = true → P.complete s = true)
    (heligible : ∀ s t i, R s t → P.complete s = false → P.eligible s i = true →
      Q.eligible t (f i) = true)
    (hadvance : ∀ s t i s₁, R s t → P.complete s = false → P.eligible s i = true →
      P.advance s i = some s₁ → ∃ t₁, Q.advance t (f i) = some t₁ ∧ R s₁ t₁)
    (hdepth : depth ≤ depth') (hR : R s t) : P.cost depth s ≤ Q.cost depth' t := by
  induction depth generalizing s t depth' with
  | zero => exact Nat.zero_le _
  | succ depth ih =>
    obtain ⟨depth', rfl⟩ : ∃ d, depth' = d + 1 := ⟨depth' - 1, by omega⟩
    rw [cost_succ, cost_succ]
    cases hP : P.complete s with
    | true => exact Nat.zero_le _
    | false =>
      have hQ : Q.complete t = false := by
        by_contra htrue
        rw [hcomplete s t hR (by simpa using htrue)] at hP
        cases hP
      rw [if_neg (by simp), if_neg (by simp [hQ])]
      have hchoice (i : ι) :
          P.costOf (P.cost depth) s i ≤ Q.costOf (Q.cost depth') t (f i) := by
        cases hel : P.eligible s i with
        | false => rw [costOf_of_not_eligible hel]; exact Nat.zero_le _
        | true =>
          -- `Q` takes the choice too, and gets as far
          have helQ := heligible s t i hR hP hel
          cases hadv : P.advance s i with
          | none =>
            rw [costOf_of_none hel hadv]
            simp [costOf, helQ]
          | some s₁ =>
            obtain ⟨t₁, hadvQ, hR₁⟩ := hadvance s t i s₁ hR hP hel hadv
            rw [costOf_of_some hel hadv, costOf_of_some helQ hadvQ]
            exact Nat.add_le_add_left (ih (Nat.le_of_succ_le_succ hdepth) hR₁) 1
      -- choice by choice, and the other choices of `Q` cost nothing less
      obtain ⟨choices, hperm, hsub⟩ := hchoices
      calc (P.choices.map (P.costOf (P.cost depth) s)).sum
          ≤ (P.choices.map fun i => Q.costOf (Q.cost depth') t (f i)).sum :=
            List.sum_le_sum fun i _ => hchoice i
        _ = ((P.choices.map f).map (Q.costOf (Q.cost depth') t)).sum := by
            rw [List.map_map]
            rfl
        _ = (choices.map (Q.costOf (Q.cost depth') t)).sum := (hperm.map _).symm.sum_eq
        _ ≤ (Q.choices.map (Q.costOf (Q.cost depth') t)).sum :=
            (hsub.map _).sum_le_sum fun _ _ => Nat.zero_le _

end Embedding

/-! ## Two searches in lockstep -/

section Lockstep

variable {Q : Problem σ' ι'} {R : σ → σ' → Prop} {p : ι' → Option ι} {t : σ'} {d : ℕ}

/-- The search that ended with `result` after the other one ended with `result'`: it has spent no
more, and has found something if the other one has. -/
def NoLater (result : Outcome σ × ℕ) (result' : Outcome σ' × ℕ) : Prop :=
  result.1 ≠ .exhausted ∧ result.2 ≤ result'.2 ∧
    ∀ t, result'.1 = .found t → ∃ s, result.1 = .found s

/-- Two searches whose choices correspond go on in step. -/
theorem tryAll_lockstep {visit : σ → ℕ → Outcome σ × ℕ} {visit' : σ' → ℕ → Outcome σ' × ℕ}
    (heligible : ∀ j, Q.eligible t j = true ↔ ∃ i, p j = some i ∧ P.eligible s i = true)
    (hadvance : ∀ j i, p j = some i → P.eligible s i = true →
      Option.Rel R (P.advance s i) (Q.advance t j))
    (hmono : ∀ t e, e ≤ (visit' t e).2)
    (hvisit : ∀ i s₁ t₁ e e', P.eligible s i = true → P.advance s i = some s₁ → R s₁ t₁ → e ≤ e' →
      (visit' t₁ e').1 ≠ .exhausted → NoLater (visit s₁ e) (visit' t₁ e'))
    {l : List ι'} (hle : e ≤ e') (hout : (Q.tryAll budget visit' t l e').1 ≠ .exhausted) :
    NoLater (P.tryAll budget visit s (l.filterMap p) e) (Q.tryAll budget visit' t l e') := by
  induction l generalizing e e' with
  | nil => exact ⟨by simp [tryAll], hle, by simp [tryAll]⟩
  | cons j rest ih =>
    -- a choice that is not tried in `Q` is none of `P`, or one that is not tried there either
    have hskip (hno : Q.eligible t j = false) :
        P.tryAll budget visit s ((j :: rest).filterMap p) e =
          P.tryAll budget visit s (rest.filterMap p) e := by
      cases hp : p j with
      | none => rw [List.filterMap_cons_none hp]
      | some i =>
        have hi : P.eligible s i = false := by
          by_contra htrue
          rw [(heligible j).mpr ⟨i, hp, by simpa using htrue⟩] at hno
          cases hno
        rw [List.filterMap_cons_some hp, tryAll, if_pos hi]
    have hsame (hel : Q.eligible t j = true) : ∃ i, p j = some i ∧ P.eligible s i = true ∧
        (j :: rest).filterMap p = i :: rest.filterMap p := by
      obtain ⟨i, hp, hi⟩ := (heligible j).mp hel
      exact ⟨i, hp, hi, List.filterMap_cons_some hp⟩
    rcases tryAll_cons Q budget visit' t j rest e' with
      ⟨hno, heq⟩ | ⟨-, -, heq⟩ | ⟨hel, hlt, hadv, heq⟩ | ⟨t₁, hel, hlt, hadv, heq⟩ <;>
      rw [heq] at hout ⊢
    · rw [hskip hno]
      exact ih hle hout
    · exact absurd rfl hout
    · -- the choice is a dead end in both
      obtain ⟨i, hp, hi, hcons⟩ := hsame hel
      have hrel := hadvance j i hp hi
      rw [hadv] at hrel
      cases hP : P.advance s i with
      | some s₁ => rw [hP] at hrel; cases hrel
      | none =>
        rw [hcons, tryAll, if_neg (by simp [hi]), if_neg (by omega), hP]
        simp only
        exact ih (Nat.succ_le_succ hle) hout
    · -- both go down, to states that are related
      obtain ⟨i, hp, hi, hcons⟩ := hsame hel
      have hrel := hadvance j i hp hi
      rw [hadv] at hrel
      cases hP : P.advance s i with
      | none => rw [hP] at hrel; cases hrel
      | some s₁ =>
        rw [hP] at hrel
        obtain ⟨hR₁⟩ := hrel
        rw [hcons, tryAll, if_neg (by simp [hi]), if_neg (by omega), hP]
        have hnext := hvisit i s₁ t₁ (e + 1) (e' + 1) hi hP hR₁ (Nat.succ_le_succ hle)
        have hgrow := hmono t₁ (e' + 1)
        rcases hQ : visit' t₁ (e' + 1) with ⟨out', n'⟩
        rcases hP' : visit s₁ (e + 1) with ⟨out, n⟩
        rw [hQ, hP'] at hnext
        rw [hQ] at hout hgrow
        simp only [hP']
        cases out' with
        | exhausted => exact absurd rfl hout
        | found t₂ =>
          -- then the visit in `P` has found something too, and both stop here
          obtain ⟨hne, hspent, hfound⟩ := hnext (by simp)
          obtain ⟨s₂, rfl⟩ := hfound t₂ rfl
          exact ⟨hne, hspent, fun _ _ => ⟨s₂, rfl⟩⟩
        | none =>
          obtain ⟨hne, hspent, -⟩ := hnext (by simp)
          cases out with
          | exhausted => exact absurd rfl hne
          | none => exact ih hspent hout
          | found s₂ =>
            -- `P` stops while `Q` goes on
            have hrest : n' ≤ (Q.tryAll budget visit' t rest n').2 := tryAll_mono hmono
            exact ⟨by simp, hspent.trans hrest, fun _ _ => ⟨s₂, rfl⟩⟩

/-- As long as `P` is not complete, `Q` has the same eligible choices, up to `p`, and tries them in
the same order: then a search in `P` ends no later than the one in `Q`, if that is not abandoned. -/
theorem search_lockstep (hchoices : P.choices = Q.choices.filterMap p)
    (hcomplete : ∀ s t, R s t → Q.complete t = true → P.complete s = true)
    (heligible : ∀ s t, R s t → P.complete s = false → ∀ j,
      (Q.eligible t j = true ↔ ∃ i, p j = some i ∧ P.eligible s i = true))
    (hadvance : ∀ s t, R s t → P.complete s = false → ∀ j i, p j = some i →
      P.eligible s i = true → Option.Rel R (P.advance s i) (Q.advance t j))
    (rank : σ → ℕ)
    (hrank : ∀ s i s', P.eligible s i = true → P.advance s i = some s' → rank s' < rank s)
    (hdepth : rank s < depth) (hle : depth ≤ d) (hR : R s t) (he : e ≤ e')
    (hout : (Q.search budget d t e').1 ≠ .exhausted) :
    NoLater (P.search budget depth s e) (Q.search budget d t e') := by
  induction depth generalizing s t e e' d with
  | zero => exact absurd hdepth (Nat.not_lt_zero _)
  | succ depth ih =>
    obtain ⟨d, rfl⟩ : ∃ k, d = k + 1 := ⟨d - 1, by omega⟩
    cases hP : P.complete s with
    | true =>
      -- `P` is done, whatever `Q` still has to do
      rw [search, if_pos hP]
      exact ⟨by simp, he.trans search_mono, fun _ _ => ⟨s, rfl⟩⟩
    | false =>
      have hQ : Q.complete t = false := by
        by_contra htrue
        rw [hcomplete s t hR (by simpa using htrue)] at hP
        cases hP
      rw [search, if_neg (by simp [hP])]
      rw [search, if_neg (by simp [hQ])] at hout ⊢
      rw [hchoices]
      refine tryAll_lockstep (heligible s t hR hP) (hadvance s t hR hP) (fun _ _ => search_mono)
        ?_ he hout
      intro i s₁ t₁ e₁ e₁' hi hadv hR₁ hle₁ hout₁
      -- the rank drops with every choice, so the depth that is left is enough
      have := hrank s i s₁ hi hadv
      exact ih (by omega) (Nat.le_of_succ_le_succ hle) hR₁ hle₁ hout₁

end Lockstep

end Problem

end Backtrack
