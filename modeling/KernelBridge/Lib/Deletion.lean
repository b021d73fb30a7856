import KernelBridge.Lib.Loop

/-!
# Search by deletion

A list is made smaller for as long as a test accepts what is left. In rounds, contiguous parts of
the list are deleted one at a time: the first candidate that the test accepts replaces the list,
and if it accepts none, the parts are made smaller, down to single entries. The test need not be
monotone, and what a deletion leaves may be a smaller list than the deletion itself would, so the
search promises no smallest list.

`run_minimal` is what it does promise: no single further deletion is accepted. `run_tried` says what
it asks the test about: parts of the list that are not empty, as long as nothing else goes with what
is deleted.
-/

namespace Deletion

variable {α : Type*}

/-! ## Deletions -/

/-- What is left without `width` entries from `offset` on. -/
def delete (width offset : ℕ) (l : List α) : List α := l.take offset ++ l.drop (offset + width)

/-- A deletion leaves a sublist. -/
theorem delete_sublist (width offset : ℕ) (l : List α) : (delete width offset l).Sublist l := by
  -- what is kept before the deletion, and what is kept behind it
  have hsub := (List.Sublist.refl (l.take offset)).append (List.drop_sublist width (l.drop offset))
  rwa [List.drop_drop, List.take_append_drop] at hsub

/-- Something is left if less than all is deleted. -/
theorem delete_ne_nil {width offset : ℕ} {l : List α} (h : width < l.length) :
    delete width offset l ≠ [] := by
  intro hnil
  have hlength := congrArg List.length hnil
  simp only [delete, List.length_append, List.length_take, List.length_drop,
    List.length_nil] at hlength
  omega

/-- A deletion inside the list makes it shorter. -/
theorem length_delete_lt {width offset : ℕ} {l : List α} (hwidth : 0 < width)
    (hoffset : offset < l.length) : (delete width offset l).length < l.length := by
  simp only [delete, List.length_append, List.length_take, List.length_drop]
  omega

/-- Deleting commutes with renaming the elements. -/
theorem map_delete {β : Type*} (f : α → β) (width offset : ℕ) (l : List α) :
    (delete width offset l).map f = delete width offset (l.map f) := by
  rw [delete, List.map_append, List.map_take, List.map_drop, delete]

/-! ## Sweeps -/

/-- The multiples of `width` below `size`. -/
def offsets (size width : ℕ) : List ℕ :=
  (List.range ((size + width - 1) / width)).map fun k => k * width

/-- With width one, every place is an offset. -/
@[simp]
theorem offsets_one (size : ℕ) : offsets size 1 = List.range size := by
  simp [offsets]

/-- Tries candidates in order, up to the first one that is accepted. Returns those tried, and that
one. -/
def sweep (accepts : List α → Bool) : List (List α) → List (List α) × Option (List α)
  | [] => ([], none)
  | keep :: rest =>
    if accepts keep then ([keep], some keep)
    else (keep :: (sweep accepts rest).1, (sweep accepts rest).2)

variable {accepts : List α → Bool}

/-- The sweep stops at the first candidate that is accepted. -/
theorem sweep_cons_of_accepted {keep : List α} (h : accepts keep = true) (rest : List (List α)) :
    sweep accepts (keep :: rest) = ([keep], some keep) := if_pos h

/-- The sweep goes on after a candidate that is not accepted. -/
theorem sweep_cons_of_not_accepted {keep : List α} (h : accepts keep = false)
    (rest : List (List α)) : sweep accepts (keep :: rest) =
      (keep :: (sweep accepts rest).1, (sweep accepts rest).2) := by
  rw [sweep, h]
  rfl

/-- A sweep finds nothing if and only if it accepts no candidate. -/
theorem sweep_eq_none_iff {candidates : List (List α)} :
    (sweep accepts candidates).2 = none ↔ ∀ keep ∈ candidates, accepts keep = false := by
  induction candidates with
  | nil => simp [sweep]
  | cons keep rest ih =>
    cases h : accepts keep with
    | true => simp [sweep_cons_of_accepted h, h]
    | false => simp [sweep_cons_of_not_accepted h, h, ih]

/-- Only candidates are tried. -/
theorem sweep_subset (candidates : List (List α)) :
    (sweep accepts candidates).1 ⊆ candidates := by
  induction candidates with
  | nil => exact List.Subset.refl _
  | cons keep rest ih =>
    cases h : accepts keep with
    | true =>
      rw [sweep_cons_of_accepted h]
      exact List.cons_subset_cons keep (List.nil_subset rest)
    | false =>
      rw [sweep_cons_of_not_accepted h]
      exact List.cons_subset_cons keep ih

/-- What is found is a candidate. -/
theorem mem_of_sweep_eq_some {candidates : List (List α)} {keep : List α}
    (h : (sweep accepts candidates).2 = some keep) : keep ∈ candidates := by
  induction candidates with
  | nil => cases h
  | cons first rest ih =>
    cases hfirst : accepts first with
    | true =>
      rw [sweep_cons_of_accepted hfirst] at h
      exact Option.some.inj h ▸ List.mem_cons_self
    | false =>
      rw [sweep_cons_of_not_accepted hfirst] at h
      exact List.mem_cons_of_mem first (ih h)

/-! ## Rounds -/

/-- A way to search. -/
structure Method (α : Type*) where
  /-- Entries are deleted one at a time from the start. -/
  single : Bool
  /-- What is left without a number of entries from an offset on. -/
  propose : ℕ → ℕ → List α → List α
  /-- The test. -/
  accepts : List α → Bool

/-- The state of the search between two rounds. -/
structure Search (α : Type*) where
  current : List α
  /-- The number of parts. -/
  granularity : ℕ
  /-- The candidates that the test was asked about, in order. -/
  tried : List (List α)

namespace Method

variable (m : Method α)

/-- The number of entries that are deleted at once. -/
def width (size granularity : ℕ) : ℕ :=
  if m.single then 1 else (size + granularity - 1) / granularity

/-- The candidates of a round. -/
def candidates (s : Search α) : List (List α) :=
  (offsets s.current.length (m.width s.current.length s.granularity)).map fun offset =>
    m.propose (m.width s.current.length s.granularity) offset s.current

/-- The parts are single entries. -/
def finest (s : Search α) : Prop := m.single = true ∨ s.current.length ≤ s.granularity

/-- Whether a granularity is the finest is a comparison of numbers. -/
instance (s : Search α) : Decidable (m.finest s) :=
  inferInstanceAs (Decidable (m.single = true ∨ s.current.length ≤ s.granularity))

/-- One round of the search, which leaves with its last state. -/
def round (s : Search α) : Search α ⊕ Search α :=
  if s.current.length ≤ 1 then .inr s
  else
    match sweep m.accepts (m.candidates s) with
    | (tried, some keep) => .inl
      { current := keep, granularity := max 2 (s.granularity - 1), tried := s.tried ++ tried }
    | (tried, none) =>
      if m.finest s then .inr { s with tried := s.tried ++ tried }
      else .inl { s with granularity := min s.current.length (s.granularity * 2)
                         tried := s.tried ++ tried }

variable {m}

/-- A round that ends with a single entry. -/
theorem round_of_single {s : Search α} (h : s.current.length ≤ 1) : m.round s = .inr s := if_pos h

/-- A round in which a candidate is accepted. -/
theorem round_of_found {s : Search α} (h : ¬s.current.length ≤ 1) {tried : List (List α)}
    {keep : List α} (hsweep : sweep m.accepts (m.candidates s) = (tried, some keep)) :
    m.round s = .inl
      { current := keep, granularity := max 2 (s.granularity - 1), tried := s.tried ++ tried } := by
  rw [round, if_neg h, hsweep]

/-- The last round. -/
theorem round_of_finest {s : Search α} (h : ¬s.current.length ≤ 1) {tried : List (List α)}
    (hsweep : sweep m.accepts (m.candidates s) = (tried, none)) (hfinest : m.finest s) :
    m.round s = .inr { s with tried := s.tried ++ tried } := by
  rw [round, if_neg h, hsweep]
  exact if_pos hfinest

/-- A round in which no candidate is accepted, though the parts can be made smaller. -/
theorem round_of_coarse {s : Search α} (h : ¬s.current.length ≤ 1) {tried : List (List α)}
    (hsweep : sweep m.accepts (m.candidates s) = (tried, none)) (hcoarse : ¬m.finest s) :
    m.round s = .inl
      { s with granularity := min s.current.length (s.granularity * 2)
               tried := s.tried ++ tried } := by
  rw [round, if_neg h, hsweep]
  exact if_neg hcoarse

/-! The same, said of the state that a round has ended with. -/

/-- A round that finds a candidate goes on with it, one step coarser. -/
theorem round_eq_of_found {s s' : Search α} (h : ¬s.current.length ≤ 1) {tried : List (List α)}
    (hsweep : sweep m.accepts (m.candidates s) = (tried, some s'.current))
    (hgranularity : s'.granularity = max 2 (s.granularity - 1))
    (htried : s'.tried = s.tried ++ tried) : m.round s = .inl s' := by
  rw [round_of_found h hsweep, ← hgranularity, ← htried]

/-- A round at the finest granularity that finds nothing is the last. -/
theorem round_eq_of_finest {s s' : Search α} (h : ¬s.current.length ≤ 1) {tried : List (List α)}
    (hsweep : sweep m.accepts (m.candidates s) = (tried, none)) (hfinest : m.finest s)
    (hcurrent : s'.current = s.current) (hgranularity : s'.granularity = s.granularity)
    (htried : s'.tried = s.tried ++ tried) : m.round s = .inr s' := by
  rw [round_of_finest h hsweep hfinest, ← hcurrent, ← hgranularity, ← htried]

/-- A round that finds nothing and is not at the finest granularity doubles the granularity. -/
theorem round_eq_of_coarse {s s' : Search α} (h : ¬s.current.length ≤ 1) {tried : List (List α)}
    (hsweep : sweep m.accepts (m.candidates s) = (tried, none)) (hcoarse : ¬m.finest s)
    (hcurrent : s'.current = s.current)
    (hgranularity : s'.granularity = min s.current.length (s.granularity * 2))
    (htried : s'.tried = s.tried ++ tried) : m.round s = .inl s' := by
  rw [round_of_coarse h hsweep hcoarse, ← hgranularity, ← htried, ← hcurrent]

/-! ## Minimality -/

variable (m) in
/-- No deletion of a single entry is accepted. -/
def Minimal (l : List α) : Prop :=
  l.length ≤ 1 ∨ ∀ offset < l.length, m.accepts (m.propose 1 offset l) = false

/-- At the finest granularity one element is deleted at a time. -/
theorem width_eq_one {s : Search α} (h : m.finest s) (hpos : 1 ≤ s.current.length) :
    m.width s.current.length s.granularity = 1 := by
  unfold width
  split_ifs with hsingle
  · rfl
  · have hle : s.current.length ≤ s.granularity := h.resolve_left hsingle
    -- there are at least as many parts as entries
    exact Nat.div_eq_of_lt_le (by omega) (by omega)

/-- The search is left after a round of single deletions that were all rejected. -/
theorem round_exit {s s' : Search α} (h : m.round s = .inr s') : m.Minimal s'.current := by
  by_cases hone : s.current.length ≤ 1
  · rw [round_of_single hone] at h
    cases h
    exact .inl hone
  rcases hsweep : sweep m.accepts (m.candidates s) with ⟨tried, _ | keep⟩
  · by_cases hfinest : m.finest s
    · rw [round_of_finest hone hsweep hfinest] at h
      cases h
      refine .inr fun offset hoffset => ?_
      -- the last sweep has asked about each single entry
      have hnone : (sweep m.accepts (m.candidates s)).2 = none := by rw [hsweep]
      refine sweep_eq_none_iff.mp hnone _ ?_
      rw [candidates, width_eq_one hfinest (by omega), offsets_one]
      exact List.mem_map_of_mem (List.mem_range.mpr hoffset)
    · rw [round_of_coarse hone hsweep hfinest] at h
      cases h
  · rw [round_of_found hone hsweep] at h
    cases h

/-- When the search is over, no single deletion is accepted, whatever the test. -/
theorem run_minimal {fuel : ℕ} {s s' : Search α} (h : Loop.run m.round fuel s = some s') :
    m.Minimal s'.current :=
  Loop.run_invariant (I := fun _ => True) (Q := fun r => m.Minimal r.current)
    (fun _ _ _ _ => trivial) (fun _ _ _ hexit => round_exit hexit) trivial h

/-! ## Candidates -/

variable (m) in
/-- A deletion takes nothing else with it. -/
def Plain : Prop := ∀ width offset l, m.propose width offset l = delete width offset l

/-- Some entries are deleted. -/
theorem width_pos {size granularity : ℕ} (hsize : 1 ≤ size) (h2 : 2 ≤ granularity) :
    0 < m.width size granularity := by
  unfold width
  split_ifs
  · exact Nat.one_pos
  · exact Nat.div_pos (by omega) (by omega)

/-- Fewer entries are deleted than there are. -/
theorem width_lt {size granularity : ℕ} (hsize : 1 < size) (h2 : 2 ≤ granularity) :
    m.width size granularity < size := by
  unfold width
  split_ifs
  · exact hsize
  · -- there are at least two parts
    rw [Nat.div_lt_iff_lt_mul (by omega)]
    have := Nat.mul_le_mul_left (size - 1) h2
    have hsub : size * granularity = (size - 1) * granularity + granularity := by
      rw [Nat.sub_mul, Nat.one_mul, Nat.sub_add_cancel (Nat.le_mul_of_pos_left _ (by omega))]
    omega

/-- The candidates of a plain deletion are not empty and are sublists. -/
theorem mem_candidates (hplain : m.Plain) {s : Search α} (hone : ¬s.current.length ≤ 1)
    (h2 : 2 ≤ s.granularity) {keep : List α} (h : keep ∈ m.candidates s) :
    keep ≠ [] ∧ keep.Sublist s.current := by
  obtain ⟨offset, -, rfl⟩ := List.mem_map.mp h
  rw [hplain]
  exact ⟨delete_ne_nil (width_lt (by omega) h2), delete_sublist _ _ _⟩

/-- The search is about parts of the list `l` that are not empty. -/
structure Within (l : List α) (s : Search α) : Prop where
  current : s.current.Sublist l
  two_le : 2 ≤ s.granularity
  tried : ∀ keep ∈ s.tried, keep ≠ [] ∧ keep.Sublist l

/-- What was tried stays within the list that the search started from. -/
theorem Within.append {l : List α} {s : Search α} (h : Within l s) (hplain : m.Plain)
    (hone : ¬s.current.length ≤ 1) {tried : List (List α)} {found : Option (List α)}
    (hsweep : sweep m.accepts (m.candidates s) = (tried, found)) :
    ∀ keep ∈ s.tried ++ tried, keep ≠ [] ∧ keep.Sublist l := by
  intro keep hkeep
  rcases List.mem_append.mp hkeep with hold | hnew
  · exact h.tried keep hold
  · -- a part of a part
    have hmem : keep ∈ m.candidates s := sweep_subset _ (by rw [hsweep]; exact hnew)
    obtain ⟨hne, hsub⟩ := mem_candidates hplain hone h.two_le hmem
    exact ⟨hne, hsub.trans h.current⟩

/-- A round stays within the list, whether it continues or leaves. -/
theorem Within.round {l : List α} {s : Search α} (h : Within l s) (hplain : m.Plain) :
    Within l (Sum.elim id id (m.round s)) := by
  by_cases hone : s.current.length ≤ 1
  · rw [round_of_single hone]
    exact h
  rcases hsweep : sweep m.accepts (m.candidates s) with ⟨tried, _ | keep⟩
  · by_cases hfinest : m.finest s
    · rw [round_of_finest hone hsweep hfinest]
      exact ⟨h.current, h.two_le, h.append hplain hone hsweep⟩
    · rw [round_of_coarse hone hsweep hfinest]
      have h2 : 2 ≤ s.granularity * 2 := by
        have := h.two_le
        omega
      exact ⟨h.current, Nat.le_min.mpr ⟨by omega, h2⟩, h.append hplain hone hsweep⟩
  · rw [round_of_found hone hsweep]
    have hmem : keep ∈ m.candidates s := mem_of_sweep_eq_some (congrArg Prod.snd hsweep)
    obtain ⟨-, hsub⟩ := mem_candidates hplain hone h.two_le hmem
    exact ⟨hsub.trans h.current, Nat.le_max_left _ _, h.append hplain hone hsweep⟩

/-- The search asks about parts of the list only. -/
theorem run_tried (hplain : m.Plain) {fuel : ℕ} {s s' : Search α} {l : List α} (h : Within l s)
    (hrun : Loop.run m.round fuel s = some s') : Within l s' := by
  refine Loop.run_invariant (I := Within l) (Q := Within l) ?_ ?_ h hrun
  all_goals
    intro t t' ht hround
    have hnext := ht.round hplain
    rwa [hround] at hnext

end Method

end Deletion
