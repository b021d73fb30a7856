import KernelBridge.Lab.History
import Mathlib.Data.Fintype.Basic
import Mathlib.Data.Fintype.Card
import Mathlib.Data.List.FinRange

/-!
# What the verdicts of the history checker mean

An explanation of a history is an order of its events that respects real time and the sequences
of the workers, and in which the reference model answers what was recorded
(`History.IsWitness`).

A path of the search is a `Schedule` of events that are free and in order: `path_spec` says so, and
what the path does to the search state; `path_of_schedule` is the converse. So the explanations are
what the complete paths place (`isWitness_iff`), and the search finds one if there is one
(`check_spec`), or gives up on its budget.

Main result: `checkHistory_correct`, the soundness and completeness of `check_history`.
-/

namespace Lab

open Py Backtrack

/-- The model answers the events in turn as recorded. -/
def Replays : ReferenceModel → List (Event Op) → Prop
  | _, [] => True
  | model, e :: es =>
    (model.apply e.operation).1.toJson.eq e.actual = true ∧
      Replays (model.apply e.operation).2 es

namespace History

/-- The operation indexes `order` explain the history: they are those of its events, in an order
in which no event comes before one that must precede it, and in which the model answers what was
recorded. -/
def IsWitness (h : History) (order : List ℕ) : Prop :=
  ∃ es : List (Event Op), es.Perm h.events ∧ es.map Event.index = order ∧
    es.Pairwise (fun a b => b.precedes a = false) ∧ Replays (.new h.capacity) es

variable {h : History}

/-! ## Masks -/

/-- Whether an event is in a mask. -/
def placed {n : ℕ} (mask : BitVec n) (k : Fin n) : Bool := mask.getLsbD k

section Masks

variable {n : ℕ} {mask mask' : BitVec n} {i k : Fin n}

/-- A mask is what it places. -/
theorem placed_ext (hall : ∀ k, placed mask k = placed mask' k) : mask = mask' :=
  BitVec.eq_of_getLsbD_eq fun k hk => hall ⟨k, hk⟩

/-- At the start nothing is placed. -/
@[simp]
theorem placed_zero : placed 0#n k = false := BitVec.getLsbD_zero

/-- The full mask places everything. -/
@[simp]
theorem placed_allOnes : placed (BitVec.allOnes n) k = true := by simp [placed]

/-- The mask of an event places that event. -/
@[simp]
theorem placed_bit : placed (bit i) k = decide (k = i) := by
  rw [placed, bit, BitVec.getLsbD_twoPow]
  simp [Fin.ext_iff, eq_comm]

/-- A union of masks places what either places. -/
@[simp]
theorem placed_or : placed (mask ||| mask') k = (placed mask k || placed mask' k) :=
  BitVec.getLsbD_or

/-- An intersection of masks places what both place. -/
@[simp]
theorem placed_and : placed (mask &&& mask') k = (placed mask k && placed mask' k) :=
  BitVec.getLsbD_and

/-- The complement of a mask places what the mask does not. -/
@[simp]
theorem placed_not : placed (~~~mask) k = !placed mask k := by
  rw [placed, BitVec.getLsbD_not, decide_eq_true k.isLt, Bool.true_and, placed]

/-- The empty mask is the one that places nothing. -/
theorem mask_eq_zero_iff : mask = 0 ↔ ∀ k, placed mask k = false :=
  ⟨fun h _ => h ▸ placed_zero, fun hall => placed_ext fun k => (hall k).trans placed_zero.symm⟩

/-- A mask that does not meet that of an event does not place it. -/
theorem and_bit_eq_zero_iff : mask &&& bit i = 0 ↔ placed mask i = false := by
  rw [mask_eq_zero_iff]
  constructor
  · intro hall
    simpa using hall i
  · intro hi k
    by_cases hk : k = i
    · subst hk; simp [hi]
    · simp [hk]

end Masks

variable {h : History} {s s' : SearchState h.events.length} {i j : Fin h.events.length}
  {is : List (Fin h.events.length)}

/-- The predecessors of an event are the events that precede it. -/
theorem placed_predecessors :
    placed (h.predecessors i) j =
      decide (i ≠ j ∧ (h.events.get j).precedes (h.events.get i) = true) := by
  -- along the loop, the mask holds the predecessors among the events seen
  have hloop : ∀ (l : List (Fin h.events.length)) (mask : BitVec h.events.length),
      placed (l.foldl (fun mask j =>
        if i ≠ j ∧ (h.events.get j).precedes (h.events.get i) = true then mask ||| bit j
        else mask) mask) j =
      (placed mask j ||
        decide (j ∈ l ∧ i ≠ j ∧ (h.events.get j).precedes (h.events.get i) = true)) := by
    intro l
    induction l with
    | nil => simp
    | cons k l ih =>
      intro mask
      rw [List.foldl_cons, ih]
      by_cases hjk : j = k
      · subst hjk
        by_cases hp : i ≠ j ∧ (h.events.get j).precedes (h.events.get i) = true
        · rw [if_pos hp, placed_or, placed_bit, decide_eq_true rfl, Bool.or_true, Bool.true_or,
            decide_eq_true ⟨List.mem_cons_self, hp⟩, Bool.or_true]
        · rw [if_neg hp, decide_eq_false (fun h => hp h.2), decide_eq_false (fun h => hp h.2)]
      · split_ifs with hp <;> simp [hjk]
  rw [predecessors, hloop]
  simp [List.mem_finRange]

/-- An event is eligible if it is not placed, and everything that must precede it is. -/
theorem eligible_iff : h.problem.eligible s i = true ↔ placed s.mask i = false ∧
    ∀ j, i ≠ j → (h.events.get j).precedes (h.events.get i) = true → placed s.mask j = true := by
  simp only [problem, decide_eq_true_eq]
  refine and_congr and_bit_eq_zero_iff (mask_eq_zero_iff.trans (forall_congr' fun j => ?_))
  simp only [placed_and, placed_not, placed_predecessors]
  cases placed s.mask j <;> simp

/-- The search is complete when every event is placed. -/
theorem complete_iff : h.problem.complete s = true ↔ ∀ k, placed s.mask k = true := by
  simp only [problem, decide_eq_true_eq]
  exact ⟨fun hall k => hall ▸ placed_allOnes,
    fun hall => placed_ext fun k => (hall k).trans placed_allOnes.symm⟩

/-- Placing an event sets its bit and appends its index, if the model answers as recorded. -/
theorem advance_eq_some_iff : h.problem.advance s i = some s' ↔
    (s.model.apply (h.events.get i).operation).1.toJson.eq (h.events.get i).actual = true ∧
      s' = { mask := s.mask ||| bit i
             model := (s.model.apply (h.events.get i).operation).2
             order := s.order ++ [(h.events.get i).index] } := by
  simp only [problem]
  split_ifs with hactual
  · simp only [hactual, true_and, Option.some.injEq]
    exact eq_comm
  · simp only [hactual, false_and, reduceCtorEq]

/-! ## Paths and schedules -/

/-- The events at these positions. -/
def select (h : History) (is : List (Fin h.events.length)) : List (Event Op) :=
  is.map fun i => h.events.get i

/-- The positions are placed in turn from the state `s`: each is free, comes after what must
precede it, and answers as recorded. -/
structure Schedule (s : SearchState h.events.length) (is : List (Fin h.events.length)) : Prop where
  nodup : is.Nodup
  free : ∀ i ∈ is, placed s.mask i = false
  ordered : (h.select is).Pairwise fun a b => b.precedes a = false
  replays : Replays s.model (h.select is)

/-- A path places its choices, in turn. -/
theorem path_spec (hpath : h.problem.Path s is s') : Schedule s is ∧
    (∀ k, placed s'.mask k = (placed s.mask k || decide (k ∈ is))) ∧
    s'.order = s.order ++ (h.select is).map Event.index := by
  induction hpath with
  | nil s => exact ⟨⟨by simp, by simp, by simp [select], by simp [select, Replays]⟩, by simp,
      by simp [select]⟩
  | @cons s s₁ s₂ i is heligible hadvance hpath ih =>
    obtain ⟨hplan, hmask, horder⟩ := ih
    obtain ⟨hfree, hbefore⟩ := eligible_iff.mp heligible
    obtain ⟨hactual, rfl⟩ := advance_eq_some_iff.mp hadvance
    have hlater : ∀ j ∈ is, placed s.mask j = false ∧ j ≠ i := by
      intro j hj
      simpa using hplan.free j hj
    refine ⟨⟨?_, ?_, ?_, hactual, hplan.replays⟩, ?_, ?_⟩
    · exact List.nodup_cons.mpr ⟨fun hi => (hlater i hi).2 rfl, hplan.nodup⟩
    · intro j hj
      rcases List.mem_cons.mp hj with rfl | hj
      · exact hfree
      · exact (hlater j hj).1
    · refine List.pairwise_cons.mpr ⟨fun e he => ?_, hplan.ordered⟩
      obtain ⟨j, hj, rfl⟩ := List.mem_map.mp he
      -- what must precede `i` is placed already, and `j` is not
      by_contra hprec
      have := hbefore j (hlater j hj).2.symm (by simpa using hprec)
      rw [(hlater j hj).1] at this
      cases this
    · intro k
      rw [hmask]
      simp [Bool.or_assoc]
    · rw [horder]
      simp [select]

/-- A schedule that misses nothing that must precede what it holds is a path. -/
theorem path_of_schedule (hplan : Schedule s is)
    (hclosed : ∀ i ∈ is, ∀ j, (h.events.get j).precedes (h.events.get i) = true →
      placed s.mask j = true ∨ j ∈ is) : ∃ s', h.problem.Path s is s' := by
  induction is generalizing s with
  | nil => exact ⟨s, .nil s⟩
  | cons i is ih =>
    obtain ⟨hi, hnodup⟩ := List.nodup_cons.mp hplan.nodup
    obtain ⟨hfirst, hordered⟩ := List.pairwise_cons.mp hplan.ordered
    obtain ⟨hactual, hreplays⟩ := hplan.replays
    have heligible : h.problem.eligible s i = true := by
      refine eligible_iff.mpr ⟨hplan.free i List.mem_cons_self, fun j hne hprec => ?_⟩
      rcases hclosed i List.mem_cons_self j hprec with hplaced | hj
      · exact hplaced
      · -- nothing placed later must precede `i`
        have hj : j ∈ is := (List.mem_cons.mp hj).resolve_left hne.symm
        have := hfirst _ (List.mem_map_of_mem hj)
        rw [hprec] at this
        cases this
    obtain ⟨s₁, hadvance, hmask, hmodel⟩ : ∃ s₁, h.problem.advance s i = some s₁ ∧
        s₁.mask = s.mask ||| bit i ∧ s₁.model = (s.model.apply (h.events.get i).operation).2 :=
      ⟨_, advance_eq_some_iff.mpr ⟨hactual, rfl⟩, rfl, rfl⟩
    have hrest : Schedule s₁ is := by
      refine ⟨hnodup, fun j hj => ?_, hordered, hmodel ▸ hreplays⟩
      have hne : j ≠ i := fun hji => hi (hji ▸ hj)
      simpa [hmask, hne] using hplan.free j (List.mem_cons_of_mem i hj)
    obtain ⟨s', hpath⟩ := ih hrest fun k hk j hprec => by
      rcases hclosed k (List.mem_cons_of_mem i hk) j hprec with hplaced | hj
      · exact .inl (by simp [hmask, hplaced])
      · rcases List.mem_cons.mp hj with rfl | hj
        · exact .inl (by simp [hmask])
        · exact .inr hj
    exact ⟨s', .cons heligible hadvance hpath⟩

/-- All positions select all events. -/
theorem select_finRange : h.select (List.finRange h.events.length) = h.events := by
  simp [select]

/-- The orders of the events are the orders of their positions. -/
theorem perm_events_iff {es : List (Event Op)} : es.Perm h.events ↔
    ∃ is, is.Perm (List.finRange h.events.length) ∧ h.select is = es := by
  constructor
  · intro hperm
    rw [← select_finRange] at hperm
    obtain ⟨is, rfl, his⟩ := (congrFun₂ (List.eq_map_comp_perm _) _ _).mpr hperm
    exact ⟨is, his, rfl⟩
  · rintro ⟨is, hperm, rfl⟩
    have := hperm.map fun i => h.events.get i
    exact select_finRange (h := h) ▸ this

/-- The explanations are what the paths from the start to a complete state place. -/
theorem isWitness_iff {order : List ℕ} : h.IsWitness order ↔
    ∃ is s', h.problem.Path h.start is s' ∧ h.problem.complete s' = true ∧ s'.order = order := by
  constructor
  · rintro ⟨es, hperm, rfl, hordered, hreplays⟩
    obtain ⟨is, his, rfl⟩ := perm_events_iff.mp hperm
    -- every position is in the order, so whatever must precede another is
    have hmem : ∀ k, k ∈ is := fun k => his.mem_iff.mpr (List.mem_finRange k)
    have hplan : Schedule h.start is :=
      ⟨his.nodup_iff.mpr (List.nodup_finRange _), fun _ _ => placed_zero, hordered, hreplays⟩
    obtain ⟨s', hpath⟩ := path_of_schedule hplan fun _ _ j _ => .inr (hmem j)
    obtain ⟨-, hmask, horder⟩ := path_spec hpath
    exact ⟨is, s', hpath, complete_iff.mpr fun k => by simp [hmask, hmem], by simp [horder, start]⟩
  · rintro ⟨is, s', hpath, hcomplete, rfl⟩
    obtain ⟨hplan, hmask, horder⟩ := path_spec hpath
    have hmem : ∀ k, k ∈ is := by
      intro k
      -- a complete state has placed everything, and the path is what it has placed
      have := complete_iff.mp hcomplete k
      rw [hmask] at this
      simpa [start] using this
    have hperm : is.Perm (List.finRange h.events.length) :=
      (List.perm_ext_iff_of_nodup hplan.nodup (List.nodup_finRange _)).mpr fun k => by simp [hmem]
    exact ⟨h.select is, perm_events_iff.mpr ⟨is, hperm, rfl⟩, by simp [horder, start],
      hplan.ordered, hplan.replays⟩

/-- An explanation lists all the operation indexes. -/
theorem IsWitness.perm_range {order : List ℕ} (hwitness : h.IsWitness order) :
    order.Perm (List.range h.events.length) := by
  obtain ⟨es, hperm, rfl, -⟩ := hwitness
  -- the indexes are different and in range, and as many as the range has
  have hsub : (h.events.map Event.index).Subperm (List.range h.events.length) := by
    refine List.subperm_of_subset h.index_nodup fun k hk => ?_
    obtain ⟨e, he, rfl⟩ := List.mem_map.mp hk
    exact List.mem_range.mpr (h.index_lt e he)
  exact (hperm.map _).trans (hsub.perm_of_length_le (by simp))

/-! ## The verdicts -/

/-- How many events are still to be placed. -/
def remaining (s : SearchState h.events.length) : ℕ :=
  (Finset.univ.filter fun k => placed s.mask k = false).card

/-- Placing an event leaves less to place. -/
theorem remaining_lt (heligible : h.problem.eligible s i = true)
    (hadvance : h.problem.advance s i = some s') : remaining s' < remaining s := by
  obtain ⟨hfree, -⟩ := eligible_iff.mp heligible
  obtain ⟨-, rfl⟩ := advance_eq_some_iff.mp hadvance
  refine Finset.card_lt_card ⟨fun k hk => ?_, fun hsub => ?_⟩
  · simp_all
  · have := @hsub i (by simp [hfree])
    simp at this

/-- What a verdict on an accepted history means. -/
theorem check_spec (budget : ℕ) :
    match h.check budget with
    | .pass order _ => h.IsWitness order
    | .fail _ => ∀ order, ¬h.IsWitness order
    | .inconclusive reason explored => reason = "search budget exhausted" ∧ explored = budget := by
  rw [check]
  rcases hsearch : h.problem.search budget (h.events.length + 1) h.start 0 with ⟨out, explored⟩
  cases out with
  | found s' =>
    obtain ⟨is, hpath, hcomplete⟩ := Problem.search_found hsearch
    exact isWitness_iff.mpr ⟨is, s', hpath, hcomplete, rfl⟩
  | none =>
    intro order hwitness
    obtain ⟨is, s', hpath, hcomplete, -⟩ := isWitness_iff.mp hwitness
    -- the search goes deep enough: each placement leaves one event less
    have hdepth : remaining h.start < h.events.length + 1 :=
      Nat.lt_succ_of_le ((Finset.card_filter_le _ _).trans (by simp))
    have := Problem.search_none remaining (fun _ _ _ => remaining_lt)
      (fun _ i _ => List.mem_finRange i) hdepth hsearch hpath
    rw [hcomplete] at this
    cases this
  | exhausted => exact ⟨rfl, Problem.search_exhausted (Nat.zero_le _) hsearch⟩

/-- Under a larger budget the verdict stays, unless the smaller one was exhausted. -/
theorem check_eq_of_le {budget budget' : ℕ} (hle : budget ≤ budget') :
    h.check budget' = h.check budget ∨
      ∃ explored, h.check budget = .inconclusive "search budget exhausted" explored := by
  rw [check, check]
  rcases hsearch : h.problem.search budget (h.events.length + 1) h.start 0 with ⟨out, explored⟩
  by_cases hout : out = .exhausted
  · subst hout
    exact .inr ⟨explored, rfl⟩
  · -- what was explored fits the smaller budget, and so the larger
    have hspent : (h.problem.search budget (h.events.length + 1) h.start 0).2 ≤ budget :=
      Problem.search_le (Nat.zero_le budget)
    rw [hsearch] at hspent
    exact .inl (by rw [Problem.search_eq_of_le hsearch hout (hspent.trans hle)])

end History

/-- The history checker is sound and complete. On a history that it accepts as complete and well
formed it returns a verdict. If this is a pass, the order returned lists all operation indexes and
explains the history; if it is a fail, no order explains it; and the only other verdict is that
the search reached its budget. -/
theorem checkHistory_correct {capacity : Json} {history : List Json} {expectedCount : ℕ}
    {budget : ℤ} {h : History} (hbudget : 1 ≤ budget ∧ budget ≤ 100000)
    (hcount : 1 ≤ expectedCount ∧ expectedCount ≤ maxHistory)
    (hcomplete : history.length = expectedCount)
    (haccept : accept capacity history = .ok (some h)) :
    ∃ verdict, checkHistory capacity history expectedCount budget = .ok verdict ∧
      match verdict with
      | .pass order _ => order.Perm (List.range expectedCount) ∧ h.IsWitness order
      | .fail _ => ∀ order, ¬h.IsWitness order
      | .inconclusive reason explored => reason = "search budget exhausted" ∧ explored = budget := by
  have hlength : h.events.length = expectedCount := (length_of_accept haccept).trans hcomplete
  refine ⟨h.check budget.toNat, checkHistory_of_accept hbudget hcount hcomplete haccept, ?_⟩
  have hspec := h.check_spec budget.toNat
  cases hverdict : h.check budget.toNat with
  | pass order explored =>
    rw [hverdict] at hspec
    exact ⟨hlength ▸ hspec.perm_range, hspec⟩
  | fail explored =>
    rw [hverdict] at hspec
    exact hspec
  | inconclusive reason explored =>
    rw [hverdict] at hspec
    obtain ⟨hreason, hexplored⟩ := hspec
    exact ⟨hreason, by omega⟩

/-- A write of one byte, and a read that finds the byte and returns first. -/
def History.handoff : History where
  capacity := 256
  events :=
    [{ index := 1, worker := 0, sequence := 0, started := 0, finished := 9,
       operation := .write [0x61], actual := (success 1 none).toJson },
     { index := 0, worker := 1, sequence := 0, started := 1, finished := 2,
       operation := .read 1, actual := (success 1 (some [0x61])).toJson }]
  minCapacity_le := minCapacity_le_256
  le_maxCapacity := le_maxCapacity_256
  operations_valid := by decide
  started_le := by decide
  index_nodup := by decide
  index_lt := by decide
  sequences := by decide
  separate := by decide

/-- `History.handoff` as it is recorded. -/
def recordedHandoff : List Json :=
  History.handoff.events.map fun e => Event.toJson { e with operation := e.operation.toJson }

/-- The verdict on the recording of two calls, and what it says. -/
theorem checkHistory_correct_handoff :
    ∃ verdict, checkHistory (.int 256) recordedHandoff 2 10 = .ok verdict ∧
      match verdict with
      | .pass order _ => order.Perm (List.range 2) ∧ History.handoff.IsWitness order
      | .fail _ => ∀ order, ¬History.handoff.IsWitness order
      | .inconclusive reason explored =>
        reason = "search budget exhausted" ∧ (explored : ℤ) = 10 :=
  checkHistory_correct (by decide) (by decide) rfl rfl

end Lab
