import KernelBridge.Lab.Cuts
import Mathlib.Data.List.Lex
import Mathlib.Data.Prod.Lex

/-!
# Reducing a history to a prefix

`reduce_history_prefix` of `lab/history.py`. The events of a failing history are sorted by time, and
the prefixes that end at a quiescent cut are checked in turn until one fails. The events are objects
that the caller still holds, so the function works on copies: the model keeps the dicts in a store,
and copying and assigning are operations on it.

Every quiescent prefix is decided under the budget that refutes the whole history (`decided`), and
the whole itself is the last of them, so the loop ends with the first prefix that has no legal
ordering.

Main result: `reduceHistoryPrefix_shortest`.
-/

namespace Lab

open Py

/-- The dicts of the interpreter, by reference. -/
abbrev Store := List Json

namespace Store

/-- The dicts that are referred to. -/
def load (store : Store) (refs : List ℕ) : List Json := refs.map fun r => (store[r]?).getD .null

/-- The loop of `copy.deepcopy` over a list; `memo` holds the objects that are copied already, with
their copies. -/
def copyAll (memo : List (ℕ × ℕ)) : List ℕ → Store → List ℕ × Store
  | [], store => ([], store)
  | r :: rest, store =>
    match memo.lookup r with
    -- an object that occurs twice is copied once
    | some copy =>
      let (copies, store) := copyAll memo rest store
      (copy :: copies, store)
    | none =>
      let (copies, after) :=
        copyAll ((r, store.length) :: memo) rest (store ++ [(store[r]?).getD .null])
      (store.length :: copies, after)

/-- `copy.deepcopy` of a list of events. -/
def deepcopy (store : Store) (refs : List ℕ) : List ℕ × Store := copyAll [] refs store

/-- The loop of `reduce_history_prefix` that gives the events of a candidate new indexes. -/
def renumber : ℕ → List ℕ → Store → Store
  | _, [], store => store
  | index, r :: rest, store => renumber (index + 1) rest (store.modify r (reindexEvent index))

end Store

/-- The key of the sort. -/
def sortKey (event : Json) : ℤ ×ₗ ℤ ×ₗ ℤ :=
  toLex (fieldOf event "started_ns",
    toLex (fieldOf event "worker", fieldOf event "sequence"))

/-- `max(e["finished_ns"] for e in events)`. -/
def maxFinished (events : List Json) : ℤ :=
  ((events.map fun e => fieldOf e "finished_ns").max?).getD 0

/-- The condition under which the loop goes on to the next size: a retained event may overlap the
first dropped one. -/
def overlaps (events : List Json) (size : ℕ) : Bool :=
  (events[size]?).any fun next => fieldOf next "started_ns" ≤ maxFinished (events.take size)

/-- The answer of `reduce_history_prefix`. -/
inductive PrefixReduction
  /-- The history does not fail, or is not decided. -/
  | unreduced (classification : String) (result : Verdict) (history : List ℕ) (checks : ℕ)
  /-- `HISTORY_COUNTEREXAMPLE`. -/
  | counterexample (history : List ℕ) (result : Verdict)
      (checks originalOperations reducedOperations : ℕ)
  /-- `INCONCLUSIVE`, behind the loop. -/
  | inconclusive (history : List ℕ) (checks : ℕ)

/-- The loop over the sizes. -/
def tryPrefixes (capacity : Json) (history ordered : List ℕ) (budget : ℤ) :
    List ℕ → ℕ → Store → Except String (PrefixReduction × Store)
  -- the sizes run out: the answer behind the loop
  | [], checks, store =>
    let (copies, store) := store.deepcopy history
    .ok (.inconclusive copies checks, store)
  | size :: sizes, checks, store =>
    if overlaps (store.load ordered) size = true then
      tryPrefixes capacity history ordered budget sizes checks store
    else
      let (candidate, store) := store.deepcopy (ordered.take size)
      let store := store.renumber 0 candidate
      match checkHistory capacity (store.load candidate) size budget with
      | .error e => .error e
      | .ok (.fail explored) =>
        .ok (.counterexample candidate (.fail explored) (checks + 1) history.length size, store)
      | .ok _ => tryPrefixes capacity history ordered budget sizes (checks + 1) store

/-- `reduce_history_prefix`. -/
def reduceHistoryPrefix (capacity : Json) (history : List ℕ) (budget : ℤ) (store : Store) :
    Except String (PrefixReduction × Store) :=
  match checkHistory capacity (store.load history) history.length budget with
  | .error e => .error e
  | .ok (.fail _) =>
    let ordered := history.insertionSort fun r r' =>
      sortKey ((store[r]?).getD .null) ≤ sortKey ((store[r']?).getD .null)
    tryPrefixes capacity history ordered budget (List.range' 1 ordered.length) 1 store
  | .ok original =>
    let (copies, store) := store.deepcopy history
    let classification :=
      match original with
      | .inconclusive _ _ => "INCONCLUSIVE"
      | _ => "NO_COUNTEREXAMPLE"
    .ok (.unreduced classification original copies 1, store)

/-! ## Copies -/

namespace Store

variable {store : Store} {refs : List ℕ}

/-- What is in the store stays where it is. -/
theorem load_append (hrefs : ∀ r ∈ refs, r < store.length) (more : Store) :
    load (store ++ more) refs = load store refs :=
  List.map_congr_left fun r hr => by rw [List.getElem?_append_left (hrefs r hr)]

/-- Objects that are added do not change the ones there are. -/
theorem load_of_prefix {store' : Store} (hrefs : ∀ r ∈ refs, r < store.length)
    (hbase : store <+: store') : store'.load refs = store.load refs := by
  obtain ⟨more, rfl⟩ := hbase
  exact load_append hrefs more

/-- Objects that are all different are copied to the end of the store. -/
theorem copyAll_eq {memo : List (ℕ × ℕ)} (hnodup : refs.Nodup)
    (hmemo : ∀ r ∈ refs, memo.lookup r = none) (hrefs : ∀ r ∈ refs, r < store.length) :
    copyAll memo refs store =
      (List.range' store.length refs.length, store ++ store.load refs) := by
  induction refs generalizing memo store with
  | nil => simp [copyAll, load]
  | cons r rest ih =>
    obtain ⟨hr, hnodup⟩ := List.nodup_cons.mp hnodup
    have hrest : ∀ r' ∈ rest, r' < store.length :=
      fun r' hr' => hrefs r' (List.mem_cons_of_mem r hr')
    rw [copyAll, hmemo r List.mem_cons_self]
    -- the copy that is made now is none of a later object
    have hmemo' : ∀ r' ∈ rest, List.lookup r' ((r, store.length) :: memo) = none := by
      intro r' hr'
      have hne : (r' == r) = false := by
        rw [beq_eq_false_iff_ne]
        rintro rfl
        exact hr hr'
      rw [List.lookup_cons, hne]
      exact hmemo r' (List.mem_cons_of_mem r hr')
    simp only
    rw [ih hnodup hmemo' fun r' hr' => by
      rw [List.length_append]
      exact Nat.lt_add_right _ (hrest r' hr')]
    rw [load_append hrest]
    simp [load, List.range'_succ]

/-- A deep copy appends copies of the objects. -/
theorem deepcopy_eq (hnodup : refs.Nodup) (hrefs : ∀ r ∈ refs, r < store.length) :
    store.deepcopy refs = (List.range' store.length refs.length, store ++ store.load refs) :=
  copyAll_eq hnodup (fun _ _ => rfl) hrefs

/-- The loop that renumbers copies at the end of the store changes nothing else. -/
theorem renumber_eq (store copies : Store) (index : ℕ) :
    renumber index (List.range' store.length copies.length) (store ++ copies) =
      store ++ copies.mapIdx fun i => reindexEvent (index + i) := by
  induction copies generalizing store index with
  | nil => simp [renumber]
  | cons copy copies ih =>
    rw [List.length_cons, List.range'_succ, renumber]
    -- the first copy is the one behind what was there before
    have hmodify : (store ++ copy :: copies).modify store.length (reindexEvent index) =
        (store ++ [reindexEvent index copy]) ++ copies := by
      simp [List.modify_eq_take_cons_drop]
    rw [hmodify]
    have := ih (store ++ [reindexEvent index copy]) (index + 1)
    rw [List.length_append, List.length_singleton] at this
    rw [this, List.mapIdx_cons]
    simp [Nat.add_assoc, Nat.add_comm 1]

/-- The copies are read back. -/
theorem load_range' (store copies : Store) :
    load (store ++ copies) (List.range' store.length copies.length) = copies := by
  refine List.ext_getElem (by simp [load]) fun i _ _ => ?_
  simp only [load, List.getElem_map, List.getElem_range', one_mul]
  rw [List.getElem?_append_right (Nat.le_add_right _ _), Nat.add_sub_cancel_left,
    List.getElem?_eq_getElem (by assumption)]
  rfl

/-- Copying some events and giving the copies new indexes. -/
theorem copy_renumber (hnodup : refs.Nodup) (hrefs : ∀ r ∈ refs, r < store.length) :
    ∃ copies, store.deepcopy refs = (List.range' store.length refs.length, store ++ copies) ∧
      renumber 0 (List.range' store.length refs.length) (store ++ copies) =
        store ++ reindex (store.load refs) ∧
      load (store ++ reindex (store.load refs)) (List.range' store.length refs.length) =
        reindex (store.load refs) := by
  have hlength : refs.length = (store.load refs).length := by simp [load]
  refine ⟨_, deepcopy_eq hnodup hrefs, ?_, ?_⟩
  · rw [hlength, renumber_eq]
    simp [reindex]
  · have := load_range' store (reindex (store.load refs))
    rwa [reindex, List.length_mapIdx, ← hlength] at this

end Store

/-! ## Prefixes -/

/-- All events have finished before a time if and only if the last has. -/
theorem maxFinished_lt_iff {events : List Json} (hne : events ≠ []) {time : ℤ} :
    maxFinished events < time ↔ ∀ e ∈ events, fieldOf e "finished_ns" < time := by
  obtain ⟨latest, hlatest⟩ : ∃ latest, (events.map fun e => fieldOf e "finished_ns").max? =
      some latest := Option.ne_none_iff_exists'.mp (by simpa using hne)
  rw [maxFinished, hlatest, Option.getD_some, ← Int.le_sub_one_iff, List.max?_le_iff hlatest]
  simp only [List.forall_mem_map, Int.le_sub_one_iff]

/-- Among sorted events it is enough to look at the first dropped one. -/
theorem overlaps_eq_false_iff {events : List Json}
    (hsorted : events.Pairwise fun a b => sortKey a < sortKey b) {size : ℕ} (hpos : 1 ≤ size) :
    overlaps events size = false ↔ QuiescentCut (events.take size) (events.drop size) := by
  rcases Nat.lt_or_ge size events.length with hlt | hge
  · have hne : events.take size ≠ [] := by
      rw [ne_eq, List.take_eq_nil_iff]
      rintro (rfl | rfl)
      · omega
      · simp at hlt
    have hdrop := List.drop_eq_getElem_cons hlt
    -- of the dropped events the first one starts first
    have hlater : ∀ d ∈ events.drop size,
        fieldOf events[size] "started_ns" ≤ fieldOf d "started_ns" := by
      intro d hd
      rw [hdrop] at hd
      rcases List.mem_cons.mp hd with rfl | hd
      · exact le_rfl
      · have htail := hsorted.sublist (List.drop_sublist size events)
        rw [hdrop] at htail
        have hkey := (List.pairwise_cons.mp htail).1 d hd
        rw [sortKey, sortKey, Prod.Lex.toLex_lt_toLex] at hkey
        rcases hkey with hkey | ⟨hkey, -⟩
        · exact hkey.le
        · exact hkey.le
    rw [overlaps, List.getElem?_eq_getElem hlt, Option.any_some, decide_eq_false_iff_not, not_le,
      maxFinished_lt_iff hne]
    constructor
    · exact fun hfirst r hr d hd => (hfirst r hr).trans_le (hlater d hd)
    · exact fun hquiet r hr => hquiet r hr _ (hdrop ▸ List.mem_cons_self)
  · -- nothing is dropped
    rw [overlaps, List.getElem?_eq_none hge, List.drop_eq_nil_of_le hge]
    simp [QuiescentCut]

/-- What it takes for a history to fail. -/
theorem Fails.accepted {capacity : Json} {history : List Json} {budget : ℤ}
    (hfail : Fails capacity history budget) : ∃ h : History,
      accept capacity history = .ok (some h) ∧ (1 ≤ budget ∧ budget ≤ 100000) ∧
      history.length ≤ maxHistory ∧ ∃ explored, h.check budget.toNat = .fail explored := by
  obtain ⟨explored, hfail⟩ := hfail
  have hbudget : 1 ≤ budget ∧ budget ≤ 100000 := by
    by_contra hno
    rw [checkHistory, if_pos hno] at hfail
    cases hfail
  rcases checkHistory_cases hfail with (h | h) | ⟨hcount, -, h, haccept, hverdict⟩
  · cases h
  · cases h
  · exact ⟨h, haccept, hbudget, hcount.2, explored, hverdict.symm⟩

/-- The budget that refutes a history decides each part of a quiescent cut, and refutes the part in
which nothing is dropped. -/
theorem Fails.decides {capacity : Json} {history retained dropped : List Json} {budget : ℤ}
    (hfail : Fails capacity history budget) (hsplit : history.Perm (retained ++ dropped))
    (hne : retained ≠ []) (hquiet : QuiescentCut retained dropped) :
    (Passes capacity (reindex retained) budget ∧ dropped ≠ []) ∨
      Fails capacity (reindex retained) budget := by
  obtain ⟨h, haccept, hbudget, hcount, explored, hcheck⟩ := hfail.accepted
  obtain ⟨c, hpart, hpositions, -⟩ := exists_cut haccept hsplit hquiet
  have hpart := hpart hne
  have hlength := hsplit.length_eq
  rw [List.length_append] at hlength
  have hcount' : (reindex retained).length ≤ maxHistory := by
    rw [reindex, List.length_mapIdx]
    omega
  rcases verdict_cases hbudget hcount' hpart with ⟨hpass, hlin⟩ | ⟨hfail', -⟩ | hgives
  · refine .inl ⟨hpass, ?_⟩
    rintro rfl
    -- nothing is dropped, so the whole would have an explanation too
    have hall : ∀ i, i ∈ c.positions := by
      have hperm : c.positions.Perm (List.finRange _) :=
        (List.subperm_of_subset c.nodup fun i _ => List.mem_finRange i).perm_of_length_le (by
          rw [List.length_finRange, hpositions, length_of_accept haccept, hlength]
          exact le_rfl)
      exact fun i => hperm.mem_iff.mpr (List.mem_finRange i)
    have hspec := h.check_spec budget.toNat
    rw [hcheck] at hspec
    obtain ⟨order, hwitness⟩ :=
      (History.exists_witness_iff h).mpr ((c.linearizable_part_iff_of_forall hall).mp hlin)
    exact hspec order hwitness
  · exact .inr hfail'
  · -- the search of the part fits the budget
    obtain ⟨-, -, hpos', -⟩ := accept_iff_reads.mp hpart
    rw [GivesUp, checkHistory_of_accept hbudget ⟨hpos', hcount'⟩ rfl hpart] at hgives
    rcases c.check_part_of_fail hcheck with ⟨order, n, hverdict⟩ | ⟨n, hverdict⟩ <;>
      rw [hverdict] at hgives <;> cases hgives

/-! ## The loop -/

/-- Of the prefixes of at least `first` events that end at a quiescent cut, the one of `size` events
is the first that fails. The others pass. -/
structure FirstFailure (capacity : Json) (events : List Json) (budget : ℤ)
    (first size explored : ℕ) : Prop where
  first_le : first ≤ size
  le_length : size ≤ events.length
  quiet : QuiescentCut (events.take size) (events.drop size)
  fails : checkHistory capacity (reindex (events.take size)) size budget = .ok (.fail explored)
  passes : ∀ smaller, first ≤ smaller → smaller < size →
    QuiescentCut (events.take smaller) (events.drop smaller) →
    Passes capacity (reindex (events.take smaller)) budget

/-- The reduction has ended with the first failure. The counterexample is made of copies, and what
was in the store before is as it was. -/
def Reduces (capacity : Json) (events : List Json) (budget : ℤ) (first : ℕ) (base : Store)
    (result : Except String (PrefixReduction × Store)) : Prop :=
  ∃ candidate size explored checks, ∃ store : Store,
    result = .ok (.counterexample candidate (.fail explored) checks events.length size, store) ∧
    FirstFailure capacity events budget first size explored ∧
    store.load candidate = reindex (events.take size) ∧ base <+: store ∧
    ∀ r ∈ candidate, base.length ≤ r

section Loop

variable {capacity : Json} {history ordered : List ℕ} {budget : ℤ} {base store : Store}
  {first : ℕ}

/-- A prefix that is not the first failure can be passed over. -/
theorem Reduces.of_succ {events : List Json} {result : Except String (PrefixReduction × Store)}
    (h : Reduces capacity events budget (first + 1) base result)
    (hskip : QuiescentCut (events.take first) (events.drop first) →
      Passes capacity (reindex (events.take first)) budget) :
    Reduces capacity events budget first base result := by
  obtain ⟨candidate, size, explored, checks, store, hresult, hfirst, hkept⟩ := h
  refine ⟨candidate, size, explored, checks, store, hresult, ⟨?_, hfirst.le_length, hfirst.quiet,
    hfirst.fails, fun smaller hge hlt hquiet => ?_⟩, hkept⟩
  · exact Nat.le_of_succ_le hfirst.first_le
  · rcases Nat.eq_or_lt_of_le hge with rfl | hgt
    · exact hskip hquiet
    · exact hfirst.passes smaller hgt hlt hquiet

/-- One round of the loop at a quiescent cut: the prefix is copied, renumbered and checked. -/
theorem tryPrefixes_cons {size : ℕ} {sizes : List ℕ} {checks : ℕ} (hnodup : ordered.Nodup)
    (hmem : ∀ r ∈ ordered, r < store.length)
    (hquiet : overlaps (store.load ordered) size = false) :
    ∃ candidate, ∃ store' : Store, store <+: store' ∧ (∀ r ∈ candidate, store.length ≤ r) ∧
      store'.load candidate = reindex ((store.load ordered).take size) ∧
      tryPrefixes capacity history ordered budget (size :: sizes) checks store =
        match checkHistory capacity (reindex ((store.load ordered).take size)) size budget with
        | .error e => .error e
        | .ok (.fail explored) =>
          .ok (.counterexample candidate (.fail explored) (checks + 1) history.length size, store')
        | .ok _ => tryPrefixes capacity history ordered budget sizes (checks + 1) store' := by
  have htake : (store.load ordered).take size = store.load (ordered.take size) := by
    rw [Store.load, Store.load, List.map_take]
  obtain ⟨copies, hcopy, hrenumber, hload⟩ := Store.copy_renumber
    (hnodup.sublist (List.take_sublist size ordered))
    (fun r hr => hmem r (List.mem_of_mem_take hr))
  refine ⟨_, _, List.prefix_append _ _, fun r hr => (List.mem_range'_1.mp hr).1,
    htake ▸ hload, ?_⟩
  rw [tryPrefixes, if_neg (by simp [hquiet])]
  simp only [hcopy, hrenumber, hload, htake]

/-- The loop ends with the first quiescent prefix that fails, if each is decided and the last one
fails. -/
theorem tryPrefixes_spec (hlength : history.length = ordered.length) (hnodup : ordered.Nodup)
    (hmem : ∀ r ∈ ordered, r < base.length)
    (hsorted : (base.load ordered).Pairwise fun a b => sortKey a < sortKey b)
    (hdecided : ∀ size, 1 ≤ size → size ≤ ordered.length →
      QuiescentCut ((base.load ordered).take size) ((base.load ordered).drop size) →
      (Passes capacity (reindex ((base.load ordered).take size)) budget ∧ size < ordered.length) ∨
        Fails capacity (reindex ((base.load ordered).take size)) budget)
    {count checks : ℕ} (hbase : base <+: store) (hpos : 1 ≤ first)
    (hle : first ≤ ordered.length) (hcount : first + count = ordered.length + 1) :
    Reduces capacity (base.load ordered) budget first base
      (tryPrefixes capacity history ordered budget (List.range' first count) checks store) := by
  induction count generalizing first checks store with
  | zero => omega
  | succ count ih =>
    have hload : store.load ordered = base.load ordered := Store.load_of_prefix hmem hbase
    have hmem' : ∀ r ∈ ordered, r < store.length :=
      fun r hr => (hmem r hr).trans_le hbase.length_le
    have hlength' : (base.load ordered).length = ordered.length := by simp [Store.load]
    have htake : (reindex ((base.load ordered).take first)).length = first := by
      rw [reindex, List.length_mapIdx, List.length_take, hlength', Nat.min_eq_left hle]
    rw [List.range'_succ]
    cases hover : overlaps (base.load ordered) first with
    | true =>
      -- not a quiescent cut, so it is not the last size either
      have hnot := mt (overlaps_eq_false_iff hsorted hpos).mpr (by simp [hover])
      have hlt : first < ordered.length := by
        refine lt_of_le_of_ne hle fun heq => hnot ?_
        rw [List.drop_eq_nil_of_le (by omega)]
        exact fun _ _ _ hd => absurd hd List.not_mem_nil
      rw [tryPrefixes, if_pos (by rw [hload, hover])]
      exact (ih hbase (Nat.le_succ_of_le hpos) hlt (by omega)).of_succ fun h => absurd h hnot
    | false =>
      have hquiet := (overlaps_eq_false_iff hsorted hpos).mp hover
      obtain ⟨candidate, store', hgrow, hnew, hcandidate, hround⟩ :=
        @tryPrefixes_cons capacity history ordered budget store first (List.range' (first + 1) count)
          checks hnodup hmem' (hload.symm ▸ hover)
      rw [hload] at hcandidate hround
      rw [hround]
      rcases hdecided first hpos hle hquiet with ⟨⟨order, explored, hpass⟩, hlt⟩ | ⟨explored, hfail⟩
      · -- the prefix passes, so the loop goes on, with the copies left behind in the store
        rw [htake] at hpass
        rw [hpass]
        refine (ih (hbase.trans hgrow) (Nat.le_succ_of_le hpos) hlt (by omega)).of_succ fun _ => ?_
        exact ⟨order, explored, by rw [htake]; exact hpass⟩
      · -- the first prefix that fails is the answer
        rw [htake] at hfail
        rw [hfail]
        refine ⟨candidate, first, explored, checks + 1, store', by rw [hlength, hlength'],
          ⟨le_rfl, by omega, hquiet, hfail, fun smaller hge hlt => by omega⟩, hcandidate,
          hbase.trans hgrow, fun r hr => hbase.length_le.trans (hnew r hr)⟩

end Loop

/-! ## The reduction -/

/-- A size at which the reduction may stop: the cut is quiescent, and what is retained is a history
that no order of its events explains. -/
def Refuted (capacity : Json) (events : List Json) (size : ℕ) : Prop :=
  1 ≤ size ∧ size ≤ events.length ∧ QuiescentCut (events.take size) (events.drop size) ∧
    ∃ part, accept capacity (reindex (events.take size)) = .ok (some part) ∧
      ∀ order, ¬part.IsWitness order

/-- A recording that fails has no explanation. -/
theorem Fails.not_isWitness {capacity : Json} {history : List Json} {budget : ℤ}
    (hfail : Fails capacity history budget) :
    ∃ h, accept capacity history = .ok (some h) ∧ ∀ order, ¬h.IsWitness order := by
  obtain ⟨h, haccept, -, -, explored, hcheck⟩ := hfail.accepted
  have hspec := h.check_spec budget.toNat
  rw [hcheck] at hspec
  exact ⟨h, haccept, hspec⟩

/-- A recording that passes has an explanation. -/
theorem Passes.isWitness {capacity : Json} {history : List Json} {budget : ℤ} {h : History}
    (hpass : Passes capacity history budget) (haccept : accept capacity history = .ok (some h)) :
    ∃ order, h.IsWitness order := by
  obtain ⟨order, explored, hpass⟩ := hpass
  rcases checkHistory_cases hpass with (hno | hno) | ⟨-, -, h', haccept', hverdict⟩
  · cases hno
  · cases hno
  · rw [haccept] at haccept'
    cases haccept'
    have hspec := h.check_spec budget.toNat
    rw [← hverdict] at hspec
    exact ⟨order, hspec⟩

/-- The first failure is the least size at which the reduction may stop. -/
theorem FirstFailure.isLeast {capacity : Json} {events : List Json} {budget : ℤ}
    {size explored : ℕ} (h : FirstFailure capacity events budget 1 size explored) :
    IsLeast {size | Refuted capacity events size} size := by
  have hlength {size : ℕ} (hle : size ≤ events.length) :
      (reindex (events.take size)).length = size := by
    rw [reindex, List.length_mapIdx, List.length_take, Nat.min_eq_left hle]
  have hfails : Fails capacity (reindex (events.take size)) budget :=
    ⟨explored, by rw [hlength h.le_length]; exact h.fails⟩
  refine ⟨⟨h.first_le, h.le_length, h.quiet, hfails.not_isWitness⟩, ?_⟩
  rintro smaller ⟨hpos, -, hquiet, part, haccept, hnone⟩
  by_contra hlt
  -- a smaller one has passed, so it has an explanation
  obtain ⟨order, hwitness⟩ := (h.passes smaller hpos (not_le.mp hlt) hquiet).isWitness haccept
  exact hnone order hwitness

/-- What is read of the events is what is recorded of them. -/
theorem map_eq_of_reads {β : Type*} {events : List (Event Op)} {history : List Json}
    (hreads : List.Forall₂ Event.Reads events history) {f : Json → β} {g : Event Op → β}
    (hfg : ∀ e j, Event.Reads e j → f j = g e) : history.map f = events.map g := by
  induction hreads with
  | nil => rfl
  | cons hread _ ih => rw [List.map_cons, List.map_cons, hfg _ _ hread, ih]

/-- The events of an accepted history are different objects, which are in the store, and no two of
them have the same place in the sort. -/
theorem load_spec {capacity : Json} {history : List ℕ} {store : Store} {h : History}
    (haccept : accept capacity (store.load history) = .ok (some h)) :
    history.Nodup ∧ (∀ r ∈ history, r < store.length) ∧
      ((store.load history).map sortKey).Nodup := by
  obtain ⟨-, hreads, -⟩ := accept_iff_reads.mp haccept
  have hindex : (store.load history).map (fun j => j.get? "index") =
      (h.events.map Event.index).map fun i : ℕ => some (Json.int i) := by
    rw [List.map_map]
    refine map_eq_of_reads hreads ?_
    rintro e j ⟨raw, op, hraw, -, rfl⟩
    exact hraw.index
  have hplace : (store.load history).map
      (fun j => (fieldOf j "worker", fieldOf j "sequence")) =
      (h.events.map fun e => (e.worker, e.sequence)).map fun p => ((p.1 : ℤ), (p.2 : ℤ)) := by
    rw [List.map_map]
    refine map_eq_of_reads hreads fun e j hread => ?_
    obtain ⟨-, -, hworker, hsequence⟩ := Event.Reads.fieldOf_eq hread
    rw [hworker, hsequence]
    rfl
  refine ⟨?_, fun r hr => ?_, ?_⟩
  · -- one object would have one index
    have hnodup : ((store.load history).map fun j => j.get? "index").Nodup := by
      rw [hindex]
      refine h.index_nodup.map fun i j hij => ?_
      simpa using hij
    rw [Store.load, List.map_map] at hnodup
    exact hnodup.of_map
  · -- what is not in the store has no index at all
    by_contra hout
    have hmem : (Json.null).get? "index" ∈ (store.load history).map fun j => j.get? "index" := by
      refine List.mem_map.mpr ⟨_, List.mem_map_of_mem hr, ?_⟩
      rw [List.getElem?_eq_none (not_lt.mp hout)]
      rfl
    rw [hindex] at hmem
    obtain ⟨i, -, hi⟩ := List.mem_map.mp hmem
    cases hi
  · -- not even a worker and a sequence number are shared
    have hnodup : (((store.load history).map sortKey).map fun k => ofLex (ofLex k).2).Nodup := by
      rw [List.map_map]
      change ((store.load history).map
        fun j => (fieldOf j "worker", fieldOf j "sequence")).Nodup
      rw [hplace]
      refine h.worker_sequence_nodup.map fun p q hpq => ?_
      simpa [Prod.ext_iff] using hpq
    exact hnodup.of_map

/-- The sort of the events, which leaves no two of them in one place. -/
theorem sorted_spec {history : List ℕ} {store : Store}
    (hkeys : ((store.load history).map sortKey).Nodup) {ordered : List ℕ}
    (hordered : ordered = history.insertionSort fun r r' =>
      sortKey ((store[r]?).getD .null) ≤ sortKey ((store[r']?).getD .null)) :
    ordered.Perm history ∧
      (store.load ordered).Pairwise fun a b => sortKey a < sortKey b := by
  have hperm : ordered.Perm history := hordered ▸ List.perm_insertionSort _ history
  refine ⟨hperm, ?_⟩
  have hsorted : (store.load ordered).Pairwise fun a b => sortKey a ≤ sortKey b := by
    rw [Store.load, List.pairwise_map, hordered]
    have htotal : Std.Total fun r r' : ℕ =>
        sortKey ((store[r]?).getD .null) ≤ sortKey ((store[r']?).getD .null) :=
      ⟨fun _ _ => le_total _ _⟩
    have htrans : IsTrans ℕ fun r r' : ℕ =>
        sortKey ((store[r]?).getD .null) ≤ sortKey ((store[r']?).getD .null) :=
      ⟨fun _ _ _ => le_trans⟩
    exact List.pairwise_insertionSort _ history
  -- no ties, so the order is strict
  have hne : (store.load ordered).Pairwise fun a b => sortKey a ≠ sortKey b := by
    refine List.pairwise_map.mp (((hperm.map _).map sortKey).nodup_iff.mpr hkeys)
  exact (hsorted.and hne).imp fun h => lt_of_le_of_ne h.1 h.2

/-- The reduction of a failing history. It returns a counterexample, with no check that raises or
runs out of budget: under the budget that refutes the whole, every shorter quiescent prefix passes.
The counterexample is the shortest prefix of the history, sorted by start, worker and sequence
number, that ends at a quiescent cut and has no legal ordering. It consists of new objects, equal to
those of the prefix but for their indexes, and the objects of the caller are as they were. -/
theorem reduceHistoryPrefix_shortest {capacity : Json} {history : List ℕ} {budget : ℤ}
    {store : Store} (hfail : Fails capacity (store.load history) budget) :
    ∃ ordered candidate size explored checks, ∃ store' : Store,
      ordered.Perm (store.load history) ∧
      ordered.Pairwise (fun a b => sortKey a < sortKey b) ∧
      reduceHistoryPrefix capacity history budget store =
        .ok (.counterexample candidate (.fail explored) checks history.length size, store') ∧
      IsLeast {size | Refuted capacity ordered size} size ∧
      FirstFailure capacity ordered budget 1 size explored ∧
      store'.load candidate = reindex (ordered.take size) ∧
      store <+: store' ∧ ∀ r ∈ candidate, store.length ≤ r := by
  obtain ⟨h, haccept, -, -, -⟩ := hfail.accepted
  obtain ⟨hnodup, hmem, hkeys⟩ := load_spec haccept
  obtain ⟨-, -, hpos, -⟩ := accept_iff_reads.mp haccept
  obtain ⟨n, hcheck⟩ := hfail
  have hlength : (store.load history).length = history.length := by simp [Store.load]
  rw [hlength] at hcheck hpos
  rw [reduceHistoryPrefix, hcheck]
  generalize hordered : history.insertionSort (fun r r' : ℕ =>
    sortKey ((store[r]?).getD .null) ≤ sortKey ((store[r']?).getD .null)) = ordered
  obtain ⟨hperm, hsorted⟩ := sorted_spec hkeys hordered.symm
  have hlength' := hperm.length_eq
  have hreduces : Reduces capacity (store.load ordered) budget 1 store
      (tryPrefixes capacity history ordered budget (List.range' 1 ordered.length) 1 store) := by
    refine tryPrefixes_spec hlength'.symm (hperm.nodup_iff.mpr hnodup)
      (fun r hr => hmem r (hperm.mem_iff.mp hr)) hsorted (fun size hsize hle hquiet => ?_)
      (List.prefix_refl store) le_rfl (by omega) (Nat.add_comm 1 _)
    -- each quiescent prefix is decided, since the whole is refuted
    have hsplit : (store.load history).Perm
        ((store.load ordered).take size ++ (store.load ordered).drop size) := by
      rw [List.take_append_drop]
      exact (hperm.map _).symm
    have hne : (store.load ordered).take size ≠ [] := by
      have hlen : (store.load ordered).length = ordered.length := by simp [Store.load]
      rw [← List.length_pos_iff, List.length_take, hlen]
      omega
    have hfail : Fails capacity (store.load history) budget := ⟨n, by rw [hlength]; exact hcheck⟩
    refine (hfail.decides hsplit hne hquiet).imp_left fun ⟨hpass, hdrop⟩ => ⟨hpass, ?_⟩
    -- a prefix that passes has dropped something, so it is not the last
    by_contra hlast
    exact hdrop (List.drop_eq_nil_of_le (by simp [Store.load]; omega))
  obtain ⟨candidate, size, explored, checks, store', hresult, hfirst, hcandidate, hkept⟩ := hreduces
  refine ⟨store.load ordered, candidate, size, explored, checks, store', hperm.map _, hsorted, ?_,
    hfirst.isLeast, hfirst, hcandidate, hkept⟩
  rw [show (store.load ordered).length = ordered.length by simp [Store.load]] at hresult
  rw [← hlength']
  exact hresult

/-- A write, recorded before a read that found a byte though nothing had been written. -/
def recordedPhantom : Store :=
  [Event.toJson { index := 0, worker := 0, sequence := 0, started := 2, finished := 3,
                  operation := (Op.write [0x61]).toJson, actual := (success 1 none).toJson },
   Event.toJson { index := 1, worker := 1, sequence := 0, started := 0, finished := 1,
                  operation := (Op.read 1).toJson,
                  actual := (success 1 (some [0x61])).toJson }]

/-- The recording of a read of a byte that was never written, and a cut of it. -/
theorem reduceHistoryPrefix_shortest_phantom :
    ∃ ordered candidate size explored checks, ∃ store' : Store,
      ordered.Perm (Store.load recordedPhantom [0, 1]) ∧
      ordered.Pairwise (fun a b => sortKey a < sortKey b) ∧
      reduceHistoryPrefix (.int 256) [0, 1] 10 recordedPhantom =
        .ok (.counterexample candidate (.fail explored) checks 2 size, store') ∧
      IsLeast {size | Refuted (.int 256) ordered size} size ∧
      FirstFailure (.int 256) ordered 10 1 size explored ∧
      store'.load candidate = reindex (ordered.take size) ∧
      recordedPhantom <+: store' ∧ ∀ r ∈ candidate, recordedPhantom.length ≤ r :=
  reduceHistoryPrefix_shortest ⟨1, rfl⟩

end Lab
