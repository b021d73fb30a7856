import Mathlib.Logic.Relation
import Mathlib.Order.Defs.Unbundled

/-!
# Programs that raise

Programs that change a state, may raise an exception, and catch what others raise: `EStateM`, where
what was done to the state before an exception stays done. How such a program ends follows from how
its parts end (`bind_of_ok`, `tryCatch_of_error` and so on). A preorder between the states before
and after is kept by a program, whichever way it ends, if it is kept by its parts (`Keeps.bind` and
so on).
-/

namespace Raising

variable {ε σ α β : Type}

section Runs

variable {m : EStateM ε σ α} {f : α → EStateM ε σ β} {handle : ε → EStateM ε σ α}
  {final : EStateM ε σ β} {s s' s'' : σ} {a : α} {b : β} {e e' : ε}

/-- What follows a statement that went through. -/
theorem bind_of_ok (h : m s = .ok a s') : (m >>= f) s = f a s' := by
  show EStateM.bind m f s = _
  rw [EStateM.bind, h]

/-- Nothing follows a statement that raised. -/
theorem bind_of_error (h : m s = .error e s') : (m >>= f) s = .error e s' := by
  show EStateM.bind m f s = _
  rw [EStateM.bind, h]

/-- Programs that run alike from a state can be exchanged there. -/
theorem bind_of_eq {m' : EStateM ε σ α} (h : m s = m' s') : (m >>= f) s = (m' >>= f) s' := by
  show EStateM.bind m f s = EStateM.bind m' f s'
  rw [EStateM.bind, EStateM.bind, h]

/-- A sequence goes through if both parts do. -/
theorem bind_eq_ok (h : (m >>= f) s = .ok b s'') :
    ∃ a s', m s = .ok a s' ∧ f a s' = .ok b s'' := by
  cases hm : m s with
  | ok a s' => exact ⟨a, s', rfl, (bind_of_ok hm).symm.trans h⟩
  | error e s' => exact absurd ((bind_of_error hm).symm.trans h) (by simp)

/-- A handler is not reached if nothing was raised. -/
theorem tryCatch_of_ok (h : m s = .ok a s') : tryCatch m handle s = .ok a s' := by
  show EStateM.tryCatch m handle s = _
  delta EStateM.tryCatch
  dsimp only
  rw [h]

/-- A handler takes over where something was raised. -/
theorem tryCatch_of_error (h : m s = .error e s') : tryCatch m handle s = handle e s' := by
  show EStateM.tryCatch m handle s = _
  delta EStateM.tryCatch
  dsimp only
  rw [h]
  rfl

/-- The final program runs after the first one, and what it raises counts. -/
theorem tryFinally_of_ok (h : m s = .ok a s') : tryFinally m final s =
    match final s' with
    | .ok _ s'' => .ok a s''
    | .error e s'' => .error e s'' := by
  show EStateM.map Prod.fst (tryFinally' m fun _ => final) s = _
  simp only [EStateM.map, tryFinally', h]
  cases final s' <;> rfl

/-- What is raised in a `finally` block replaces what was raised before. -/
theorem tryFinally_of_error (h : m s = .error e s') : tryFinally m final s =
    match final s' with
    | .ok _ s'' => .error e s''
    | .error e' s'' => .error e' s'' := by
  show EStateM.map Prod.fst (tryFinally' m fun _ => final) s = _
  simp only [EStateM.map, tryFinally', h]
  cases final s' <;> rfl

end Runs

/-! ## What is kept -/

/-- The state after a run, whichever way it has ended. -/
def stateOf : EStateM.Result ε σ α → σ
  | .ok _ s => s
  | .error _ s => s

/-- A `finally` block is executed whether something was raised or not. -/
theorem stateOf_tryFinally {m : EStateM ε σ α} {final : EStateM ε σ β} (s : σ) :
    stateOf (tryFinally m final s) = stateOf (final (stateOf (m s))) := by
  cases h : m s with
  | ok a s' =>
    rw [tryFinally_of_ok h, stateOf]
    cases final s' <;> rfl
  | error e s' =>
    rw [tryFinally_of_error h, stateOf]
    cases final s' <;> rfl

/-- The states before and after the program are related. -/
def Keeps (r : σ → σ → Prop) (m : EStateM ε σ α) : Prop := ∀ s, r s (stateOf (m s))

/-- What keeps a relation keeps a weaker one. -/
theorem Keeps.mono {r r' : σ → σ → Prop} {m : EStateM ε σ α} (h : ∀ s s', r s s' → r' s s')
    (hm : Keeps r m) : Keeps r' m := fun s => h s _ (hm s)

section Keeps

variable {r : σ → σ → Prop} [IsPreorder σ r] {m : EStateM ε σ α}

/-- Returning a value leaves the state as it is. -/
theorem keeps_pure (a : α) : Keeps r (pure a : EStateM ε σ α) := fun s => refl_of r s

/-- Raising leaves the state as it is. -/
theorem keeps_throw (e : ε) : Keeps r (throw e : EStateM ε σ α) := fun s => refl_of r s

/-- Reading the state leaves it as it is. -/
theorem keeps_get : Keeps r (get : EStateM ε σ σ) := fun s => refl_of r s

/-- A sequence keeps what its parts keep. -/
theorem Keeps.bind {f : α → EStateM ε σ β} (hm : Keeps r m) (hf : ∀ a, Keeps r (f a)) :
    Keeps r (m >>= f) := by
  intro s
  have hfirst := hm s
  cases h : m s with
  | ok a s' =>
    rw [h] at hfirst
    rw [bind_of_ok h]
    exact trans_of r hfirst (hf a s')
  | error e s' =>
    rw [h] at hfirst
    rw [bind_of_error h]
    exact hfirst

/-- So does a block with its handler. -/
theorem Keeps.tryCatch {handle : ε → EStateM ε σ α} (hm : Keeps r m)
    (hhandle : ∀ e, Keeps r (handle e)) : Keeps r (tryCatch m handle) := by
  intro s
  have hfirst := hm s
  cases h : m s with
  | ok a s' =>
    rw [h] at hfirst
    rw [tryCatch_of_ok h]
    exact hfirst
  | error e s' =>
    rw [h] at hfirst
    rw [tryCatch_of_error h]
    exact trans_of r hfirst (hhandle e s')

end Keeps

end Raising
