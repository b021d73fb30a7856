import Mathlib.Data.List.Basic

/-!
# Runs of a labelled transition system

Finite runs of a step relation `step : σ → ε → σ → Prop`, with the list of labels they emit. A
property of every reachable state, possibly relating it to the labels emitted so far, is proved
by `Run.invariant`: it holds at the start and every step that continues a run keeps it. A measure
that every step lowers bounds the length of the runs (`Run.length_le`).
-/

namespace Lts

variable {σ ε : Type*} {step : σ → ε → σ → Prop} {s₀ : σ}

/-- The finite runs of `step` from `s₀`: the labels emitted, oldest first, and the state
reached. -/
inductive Run (step : σ → ε → σ → Prop) (s₀ : σ) : List ε → σ → Prop
  | nil : Run step s₀ [] s₀
  | snoc {tr : List ε} {s : σ} {e : ε} {s' : σ} :
      Run step s₀ tr s → step s e s' → Run step s₀ (tr ++ [e]) s'

/-- A relation between trace and state that holds at the start and is kept by every step that
continues a run holds at the end of every run. -/
theorem Run.invariant {I : List ε → σ → Prop} {tr : List ε} {s : σ} (h : Run step s₀ tr s)
    (base : I [] s₀)
    (next : ∀ tr s e s', Run step s₀ tr s → I tr s → step s e s' → I (tr ++ [e]) s') :
    I tr s := by
  induction h with
  | nil => exact base
  | snoc hrun hstep ih => exact next _ _ _ _ hrun ih hstep

/-- A state property kept by every step holds along every run that starts in it. -/
theorem Run.inductive {I : σ → Prop} {tr : List ε} {s : σ} (h : Run step s₀ tr s) (base : I s₀)
    (next : ∀ s e s', I s → step s e s' → I s') : I s :=
  h.invariant (I := fun _ s => I s) base fun _ _ _ _ _ ih hstep => next _ _ _ ih hstep

/-- If every step lowers a measure, no run is longer than the measure at its start. -/
theorem Run.length_le {tr : List ε} {s : σ} (h : Run step s₀ tr s) (measure : σ → ℕ)
    (lt : ∀ s e s', step s e s' → measure s' < measure s) :
    tr.length + measure s ≤ measure s₀ := by
  induction h with
  | nil => simp
  | snoc _ hstep ih =>
    have := lt _ _ _ hstep
    simp only [List.length_append, List.length_singleton]
    omega

/-- If every step from the states with `I` keeps `I` and lowers a measure, no run from such a state
is longer than the measure there. -/
theorem Run.length_le_of_invariant {I : σ → Prop} {tr : List ε} {s : σ} (h : Run step s₀ tr s)
    (measure : σ → ℕ) (base : I s₀)
    (next : ∀ s e s', I s → step s e s' → I s' ∧ measure s' < measure s) :
    tr.length + measure s ≤ measure s₀ := by
  suffices hall : I s ∧ tr.length + measure s ≤ measure s₀ from hall.2
  induction h with
  | nil => exact ⟨base, by simp⟩
  | snoc _ hstep ih =>
    obtain ⟨hI, hle⟩ := ih
    obtain ⟨hI', hlt⟩ := next _ _ _ hI hstep
    refine ⟨hI', ?_⟩
    simp only [List.length_append, List.length_singleton]
    omega

/-- If every step from the states with `I` keeps `I` and either lowers `main`, and raises `minor` by
at most `slack`, or keeps `main` and lowers `minor`, this bounds the length of the runs. -/
theorem Run.length_le_of_lex {I : σ → Prop} {tr : List ε} {s : σ} (h : Run step s₀ tr s)
    (main minor : σ → ℕ) (slack : ℕ) (base : I s₀)
    (next : ∀ s e s', I s → step s e s' → I s' ∧
      (main s' < main s ∧ minor s' ≤ minor s + slack ∨ main s' = main s ∧ minor s' < minor s)) :
    tr.length ≤ (slack + 1) * main s₀ + minor s₀ := by
  refine Nat.le_trans (Nat.le_add_right _ _) <|
    h.length_le_of_invariant (fun s => (slack + 1) * main s + minor s) base fun s e s' hI hstep => ?_
  obtain ⟨hI', hlower | ⟨hsame, hlt⟩⟩ := next s e s' hI hstep
  · refine ⟨hI', ?_⟩
    have hmul : (slack + 1) * (main s' + 1) ≤ (slack + 1) * main s :=
      Nat.mul_le_mul_left _ hlower.1
    rw [Nat.mul_add, Nat.mul_one] at hmul
    have := hlower.2
    show (slack + 1) * main s' + minor s' < (slack + 1) * main s + minor s
    omega
  · refine ⟨hI', ?_⟩
    show (slack + 1) * main s' + minor s' < (slack + 1) * main s + minor s
    rw [hsame]
    omega

/-- Runs compose. -/
theorem Run.append {tr₁ tr₂ : List ε} {s₁ s₂ : σ} (h₁ : Run step s₀ tr₁ s₁)
    (h₂ : Run step s₁ tr₂ s₂) : Run step s₀ (tr₁ ++ tr₂) s₂ := by
  induction h₂ with
  | nil => simpa using h₁
  | snoc _ hstep ih => simpa only [← List.append_assoc] using Run.snoc ih hstep

/-- A step followed by a run. -/
theorem Run.cons {e : ε} {s₁ s₂ : σ} {tr : List ε} (h : step s₀ e s₁) (h₂ : Run step s₁ tr s₂) :
    Run step s₀ (e :: tr) s₂ := by
  simpa using (Run.nil.snoc h).append h₂

/-- A run passes through a state after every prefix of its trace. -/
theorem Run.split {tr : List ε} {s : σ} (h : Run step s₀ tr s) :
    ∀ {tr₁ tr₂ : List ε}, tr = tr₁ ++ tr₂ → ∃ m, Run step s₀ tr₁ m ∧ Run step m tr₂ s := by
  induction h with
  | nil =>
    intro tr₁ tr₂ heq
    obtain ⟨rfl, rfl⟩ := List.append_eq_nil_iff.mp heq.symm
    exact ⟨s₀, .nil, .nil⟩
  | @snoc tr s e s' hrun hstep ih =>
    intro tr₁ tr₂ heq
    -- the last step belongs to the second part, unless that is empty
    rcases List.eq_nil_or_concat tr₂ with rfl | ⟨init, last, rfl⟩
    · rw [List.append_nil] at heq
      subst heq
      exact ⟨s', .snoc hrun hstep, .nil⟩
    · rw [List.concat_eq_append, ← List.append_assoc] at heq
      obtain ⟨htr, hlast⟩ := List.append_inj' heq rfl
      obtain ⟨m, hm, hrest⟩ := ih htr
      obtain rfl : e = last := by simpa using hlast
      exact ⟨m, hm, by simpa using Run.snoc hrest hstep⟩

/-- A run of a system with richer labels is a run of the plain one. -/
theorem Run.map {ε' : Type*} {step' : σ → ε' → σ → Prop} {f : ε' → ε} {tr : List ε'} {s : σ}
    (h : Run step' s₀ tr s) (hstep : ∀ s e s', step' s e s' → step s (f e) s') :
    Run step s₀ (tr.map f) s := by
  induction h with
  | nil => exact .nil
  | snoc _ hlast ih =>
    rw [List.map_append]
    exact ih.snoc (hstep _ _ _ hlast)

/-- A run of a system with fewer steps is a run. -/
theorem Run.mono {step' : σ → ε → σ → Prop} {tr : List ε} {s : σ} (h : Run step' s₀ tr s)
    (hstep : ∀ s e s', step' s e s' → step s e s') : Run step s₀ tr s := by
  simpa using h.map (f := id) hstep

/-- If every step can be given a richer label, so can every run. -/
theorem Run.lift {ε' : Type*} {step' : σ → ε' → σ → Prop} {f : ε' → ε} {tr : List ε} {s : σ}
    (h : Run step s₀ tr s) (hstep : ∀ s e s', step s e s' → ∃ e', f e' = e ∧ step' s e' s') :
    ∃ tr', tr'.map f = tr ∧ Run step' s₀ tr' s := by
  induction h with
  | nil => exact ⟨[], rfl, .nil⟩
  | snoc _ hlast ih =>
    obtain ⟨tr', rfl, hrun⟩ := ih
    obtain ⟨e', rfl, hstep'⟩ := hstep _ _ _ hlast
    exact ⟨tr' ++ [e'], by rw [List.map_append]; rfl, hrun.snoc hstep'⟩

/-- If a second system can answer every step so that a relation between the states is kept, it has a
run with the same labels. -/
theorem Run.simulate {τ : Type*} {step' : τ → ε → τ → Prop} {R : σ → τ → Prop} {t₀ : τ}
    {tr : List ε} {s : σ} (h : Run step s₀ tr s) (base : R s₀ t₀)
    (next : ∀ s e s' t, R s t → step s e s' → ∃ t', step' t e t' ∧ R s' t') :
    ∃ t, Run step' t₀ tr t ∧ R s t := by
  induction h with
  | nil => exact ⟨t₀, .nil, base⟩
  | snoc _ hstep ih =>
    obtain ⟨t, hrun, hrel⟩ := ih
    obtain ⟨t', hstep', hrel'⟩ := next _ _ _ _ hrel hstep
    exact ⟨t', hrun.snoc hstep', hrel'⟩

/-- If a second system can answer every step, with a step of its own or by staying where it is, so
that a relation between the states is kept, it has a run that ends in a related state. -/
theorem Run.refine {τ ε' : Type*} {step' : τ → ε' → τ → Prop} {R : σ → τ → Prop} {t₀ : τ}
    {tr : List ε} {s : σ} (h : Run step s₀ tr s) (base : R s₀ t₀)
    (next : ∀ s e s' t, R s t → step s e s' → R s' t ∨ ∃ e' t', step' t e' t' ∧ R s' t') :
    ∃ tr' t, Run step' t₀ tr' t ∧ R s t := by
  induction h with
  | nil => exact ⟨[], t₀, .nil, base⟩
  | snoc _ hstep ih =>
    obtain ⟨tr', t, hrun, hrel⟩ := ih
    rcases next _ _ _ _ hrel hstep with hstay | ⟨e', t', hstep', hrel'⟩
    · exact ⟨tr', t, hrun, hstay⟩
    · exact ⟨tr' ++ [e'], t', hrun.snoc hstep', hrel'⟩

/-- The last step of a run. -/
theorem Run.last {tr : List ε} {e : ε} {s' : σ} (h : Run step s₀ (tr ++ [e]) s') :
    ∃ s, Run step s₀ tr s ∧ step s e s' := by
  generalize htr : tr ++ [e] = tr' at h
  cases h with
  | nil => simp at htr
  | snoc hrun hstep =>
    obtain ⟨rfl, he⟩ := List.append_inj' htr rfl
    obtain rfl : e = _ := by simpa using he
    exact ⟨_, hrun, hstep⟩

end Lts
