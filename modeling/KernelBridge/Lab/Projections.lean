import KernelBridge.Lab.Schedulable

/-!
# Pruning and projecting a workload

What `Workload.prune` leaves is the largest part of a set of indexes that holds what it requires
(`Workload.prune_largest`).

The projection of a workload on a candidate is a workload again: its records are those between
retained operations, with the places of these as their new indexes (`Workload.describes_project`),
and a schedule of the whole orders the part (`Workload.schedulable_project`). Projecting twice is
projecting once, on the composed indexes.

Main results: `Workload.prune_largest` and `Workload.project_compose`.
-/

namespace Lab

open Py

namespace Workload

variable (w : Workload)

/-! ## Pruning -/

/-- `pruned` is the largest closed part of `keep`, in order. -/
structure LargestClosed (keep pruned : List ℕ) : Prop where
  increasing : pruned.Pairwise (· < ·)
  subset : pruned ⊆ keep
  closed : Closure.Closed w.required pruned
  largest : ∀ part, Closure.Closed w.required part → part ⊆ keep → part ⊆ pruned

variable {w}

/-- Increasing lists with the same elements are the same. -/
theorem eq_of_subset {keep keep' : List ℕ} (h : keep.Pairwise (· < ·))
    (h' : keep'.Pairwise (· < ·)) (hsub : keep ⊆ keep') (hsub' : keep' ⊆ keep) : keep = keep' :=
  (sublist_of_subset h h' hsub).antisymm (sublist_of_subset h' h hsub')

/-- There is one largest closed part. -/
theorem LargestClosed.eq {keep pruned pruned' : List ℕ} (h : w.LargestClosed keep pruned)
    (h' : w.LargestClosed keep pruned') : pruned = pruned' :=
  eq_of_subset h.increasing h'.increasing (h'.largest pruned h.closed h.subset)
    (h.largest pruned' h'.closed h'.subset)

/-- Pruning leaves the largest closed part. -/
theorem largestClosed_prune (keep : List ℕ) : w.LargestClosed keep (w.prune keep) := by
  obtain ⟨hsorted, hsub, hclosed, hlargest⟩ := w.prune_spec keep
  exact ⟨hsorted, hsub, hclosed, hlargest⟩

/-- Pruning more leaves more. -/
theorem prune_mono {keep keep' : List ℕ} (hsub : keep ⊆ keep') :
    w.prune keep ⊆ w.prune keep' :=
  (largestClosed_prune keep').largest _ (largestClosed_prune keep).closed
    (List.Subset.trans (largestClosed_prune keep).subset hsub)

/-- What is closed is left alone, but for its order. -/
theorem prune_eq_sortedSet_iff {keep : List ℕ} :
    w.prune keep = sortedSet keep ↔ Closure.Closed w.required keep := by
  constructor
  · intro h i hi j hj
    -- what is left alone is closed, since what pruning leaves is
    have hi' : i ∈ w.prune keep := by rw [h]; exact mem_sortedSet.mpr hi
    exact (largestClosed_prune keep).subset ((largestClosed_prune keep).closed i hi' hj)
  · intro hclosed
    refine (largestClosed_prune keep).eq ⟨pairwise_sortedSet keep, fun i hi => mem_sortedSet.mp hi,
      fun i hi j hj => mem_sortedSet.mpr (hclosed i (mem_sortedSet.mp hi) hj),
      fun part _ hpart i hi => mem_sortedSet.mpr (hpart hi)⟩

/-- `prune` computes the largest closed part of a set of indexes. The loop ends; its result is in
order, a part of the set, closed, and holds every closed part of the set. So pruning twice is
pruning once, a larger set leaves more, just the closed sets are left alone, and what is left is a
candidate unless it is empty. -/
theorem prune_largest (w : Workload) {keep : List ℕ} (hkeep : ∀ i ∈ keep, i < w.size) :
    (∃ kept, Closure.prune w.required (keep.length + 1) keep.dedup = some kept ∧
      w.prune keep = sortedSet kept) ∧
    w.LargestClosed keep (w.prune keep) ∧
    w.prune (w.prune keep) = w.prune keep ∧
    (∀ keep', keep ⊆ keep' → w.prune keep ⊆ w.prune keep') ∧
    (w.prune keep = sortedSet keep ↔ Closure.Closed w.required keep) ∧
    (w.valid (w.prune keep) = true ↔ w.prune keep ≠ []) := by
  have hpruned := largestClosed_prune (w := w) keep
  refine ⟨?_, hpruned, ?_, fun _ => prune_mono, prune_eq_sortedSet_iff, ?_⟩
  · have hfuel : keep.dedup.length < keep.length + 1 :=
      Nat.lt_succ_of_le (List.dedup_sublist keep).length_le
    obtain ⟨kept, hrun, -⟩ := @Closure.exists_prune _ _ w.required _ _ hfuel
    exact ⟨kept, hrun, by rw [prune, hrun, Option.getD_some]⟩
  · rw [prune_eq_sortedSet_iff.mpr hpruned.closed]
    exact sortedSet_eq_self_iff.mpr hpruned.increasing
  · rw [w.valid_iff]
    exact ⟨fun h => h.1, fun hne => ⟨hne, hpruned.increasing,
      fun i hi => hkeep i (hpruned.subset hi), hpruned.closed⟩⟩

/-- The workload of the chain over two workers. -/
def chain : Workload where
  source := chainSource
  operations := chainOperations
  owners := [0, 1, 0]
  edges := chainEdges
  operations_eq := rfl
  edges_eq := rfl
  ordered := by decide +kernel

/-- Pruning a chain of three operations. -/
theorem prune_largest_chain :
    (∃ kept, Closure.prune chain.required ([1, 2].length + 1) [1, 2].dedup = some kept ∧
      chain.prune [1, 2] = sortedSet kept) ∧
    chain.LargestClosed [1, 2] (chain.prune [1, 2]) ∧
    chain.prune (chain.prune [1, 2]) = chain.prune [1, 2] ∧
    (∀ keep', [1, 2] ⊆ keep' → chain.prune [1, 2] ⊆ chain.prune keep') ∧
    (chain.prune [1, 2] = sortedSet [1, 2] ↔ Closure.Closed chain.required [1, 2]) ∧
    (chain.valid (chain.prune [1, 2]) = true ↔ chain.prune [1, 2] ≠ []) :=
  chain.prune_largest (by decide)

end Workload

/-! ## Renumbered records -/

/-- What a record of a dependency must be. -/
theorem Edge.read_eq_ok_iff {n : ℕ} {j : Json} {edge : Edge n} : Edge.read n j = .ok edge ↔
    j = .dict edge.record ∧
    sameKeys edge.record ["operation", "requires", "kind"] = true ∧
    lookup "operation" edge.record = some (.int (edge.operation : ℕ)) ∧
    lookup "requires" edge.record = some (.int (edge.requires : ℕ)) ∧
    (∃ name, lookup "kind" edge.record = some (.str name) ∧ Kind.ofName name = some edge.kind) ∧
    edge.operation ≠ edge.requires := by
  constructor
  · intro h
    unfold Edge.read at h
    split at h
    next record =>
      split_ifs at h with hkeys
      split at h
      next a b name hoperation hrequires hkind =>
        split at h
        next kind hname =>
          split_ifs at h with hrange
          cases h
          refine ⟨rfl, by simpa using hkeys, ?_, ?_, ⟨name, hkind, hname⟩, ?_⟩
          · rw [hoperation, Int.toNat_of_nonneg hrange.1.1]
          · rw [hrequires, Int.toNat_of_nonneg hrange.2.1.1]
          · simp only [ne_eq, Fin.mk.injEq]
            omega
        next => cases h
      next => cases h
    next => cases h
  · obtain ⟨record, operation, requires, kind⟩ := edge
    rintro ⟨rfl, hkeys, hoperation, hrequires, ⟨name, hkind, hname⟩, hne⟩
    dsimp only at hkeys hoperation hrequires hkind hname hne
    have hne' : (operation : ℕ) ≠ requires := fun heq => hne (Fin.ext heq)
    simp only [Edge.read, hkeys, hoperation, hrequires, hkind, hname]
    rw [if_neg (by simp), dif_pos (by omega)]
    simp

/-- Setting a key that is allowed keeps the keys allowed. -/
theorem all_setEntry {names : List String} {key : String} {v : Json} {d : List (String × Json)}
    (hkey : key ∈ names) (h : (d.all fun e => names.contains e.1) = true) :
    ((setEntry key v d).all fun e => names.contains e.1) = true := by
  induction d with
  | nil => simpa [setEntry] using hkey
  | cons e d ih =>
    obtain ⟨k, u⟩ := e
    rw [List.all_cons, Bool.and_eq_true] at h
    rw [setEntry]
    split_ifs
    · rw [List.all_cons, Bool.and_eq_true]
      exact ⟨by simpa using hkey, h.2⟩
    · rw [List.all_cons, Bool.and_eq_true]
      exact ⟨h.1, ih h.2⟩

/-- Setting one of its keys keeps the keys of a dict. -/
theorem sameKeys_setEntry {names : List String} {key : String} {v : Json}
    {d : List (String × Json)} (hkey : key ∈ names) (h : sameKeys d names = true) :
    sameKeys (setEntry key v d) names = true := by
  rw [sameKeys, Bool.and_eq_true] at h ⊢
  refine ⟨all_setEntry hkey h.1, List.all_eq_true.mpr fun name hname => ?_⟩
  rw [lookup_setEntry]
  split_ifs
  · rfl
  · exact List.all_eq_true.mp h.2 name hname

/-- Two keys that are set twice. -/
theorem setEntry_twice {key key' : String} (hne : key ≠ key') (u u' v v' : Json)
    (d : List (String × Json)) :
    setEntry key' u (setEntry key v (setEntry key' u' (setEntry key v' d))) =
      setEntry key' u (setEntry key v d) := by
  rw [setEntry_comm hne v u' (by simp), setEntry_setEntry, setEntry_setEntry]

/-- `dict(edge, operation=a, requires=b)`. -/
def Edge.renumber {n m : ℕ} (edge : Edge n) (a b : Fin m) : Edge m where
  record := setEntry "requires" (.int (b : ℕ)) (setEntry "operation" (.int (a : ℕ)) edge.record)
  operation := a
  requires := b
  kind := edge.kind

/-- A record with other indexes is read as such. -/
theorem Edge.read_renumber {n m : ℕ} {edge : Edge n} {j : Json} (h : Edge.read n j = .ok edge)
    {a b : Fin m} (hne : a ≠ b) :
    Edge.read m (.dict (edge.renumber a b).record) = .ok (edge.renumber a b) := by
  obtain ⟨-, hkeys, -, -, ⟨name, hkind, hname⟩, -⟩ := Edge.read_eq_ok_iff.mp h
  refine Edge.read_eq_ok_iff.mpr ⟨rfl, ?_, ?_, ?_, ⟨name, ?_, hname⟩, hne⟩
  · exact sameKeys_setEntry (by simp) (sameKeys_setEntry (by simp) hkeys)
  · simp [Edge.renumber]
  · simp [Edge.renumber]
  · simpa [Edge.renumber] using hkind

namespace Workload

/-! ## Composing index lists -/

/-- `tuple(keep[j] for j in keep2)`. -/
def compose (keep keep2 : List ℕ) : List ℕ := keep2.map fun j => keep.getD j 0

section Compose

variable {keep keep2 : List ℕ}

/-- The retained indexes are in order. -/
theorem getD_lt_getD_iff (hkeep : keep.Pairwise (· < ·)) {i j : ℕ} (hi : i < keep.length)
    (hj : j < keep.length) : keep.getD i 0 < keep.getD j 0 ↔ i < j := by
  have hlt {i j : ℕ} (hi : i < keep.length) (hj : j < keep.length) (hij : i < j) :
      keep.getD i 0 < keep.getD j 0 := by
    rw [List.getD_eq_getElem keep 0 hi, List.getD_eq_getElem keep 0 hj]
    exact List.pairwise_iff_getElem.mp hkeep i j hi hj hij
  refine ⟨fun h => ?_, hlt hi hj⟩
  -- places that are not in this order are equal or in the other one
  by_contra hge
  rcases Nat.eq_or_lt_of_le (not_lt.mp hge) with rfl | hlt'
  · exact absurd h (lt_irrefl _)
  · exact absurd (hlt hj hi hlt') h.asymm

/-- A candidate of a candidate is in order if its indexes are. -/
theorem pairwise_compose_iff (hkeep : keep.Pairwise (· < ·)) (hlt : ∀ j ∈ keep2, j < keep.length) :
    (compose keep keep2).Pairwise (· < ·) ↔ keep2.Pairwise (· < ·) := by
  rw [compose, List.pairwise_map]
  exact List.Pairwise.iff_of_mem fun {i j} hi hj => getD_lt_getD_iff hkeep (hlt i hi) (hlt j hj)

/-- What a candidate of a candidate retains. -/
theorem mem_compose_iff (hkeep : keep.Pairwise (· < ·)) (hlt : ∀ j ∈ keep2, j < keep.length)
    {i : ℕ} : i ∈ compose keep keep2 ↔ i ∈ keep ∧ keep.idxOf i ∈ keep2 := by
  have hnodup : keep.Nodup := hkeep.imp fun h => h.ne
  rw [compose, List.mem_map]
  constructor
  · rintro ⟨j, hj, rfl⟩
    have hj' := hlt j hj
    rw [List.getD_eq_getElem keep 0 hj', hnodup.idxOf_getElem]
    exact ⟨List.getElem_mem hj', hj⟩
  · rintro ⟨hi, hidx⟩
    have hi' := List.idxOf_lt_length_of_mem hi
    exact ⟨_, hidx, by rw [List.getD_eq_getElem keep 0 hi', List.getElem_idxOf hi']⟩

/-- An index of a candidate of a candidate is its index in the candidate. -/
theorem idxOf_compose (hkeep : keep.Pairwise (· < ·)) (hlt : ∀ j ∈ keep2, j < keep.length)
    {i : ℕ} (hi : i ∈ keep) : (compose keep keep2).idxOf i = keep2.idxOf (keep.idxOf i) := by
  have hnodup : keep.Nodup := hkeep.imp fun h => h.ne
  induction keep2 with
  | nil => rfl
  | cons j keep2 ih =>
    have hj := hlt j List.mem_cons_self
    have hsame : keep.getD j 0 = i ↔ j = keep.idxOf i := by
      rw [List.getD_eq_getElem keep 0 hj]
      constructor
      · rintro rfl
        exact (hnodup.idxOf_getElem j hj).symm
      · rintro rfl
        exact List.getElem_idxOf hj
    rw [compose, List.map_cons, ← compose]
    by_cases heq : j = keep.idxOf i
    · -- the element comes first in both
      rw [hsame.mpr heq, heq, List.idxOf_cons_self, List.idxOf_cons_self]
    · rw [List.idxOf_cons_ne _ (mt hsame.mp heq), List.idxOf_cons_ne _ heq,
        ih fun k hk => hlt k (List.mem_cons_of_mem j hk)]

/-- Where the elements of an increasing list are. -/
theorem map_idxOf_self (hkeep : keep.Pairwise (· < ·)) :
    keep.map (fun i => keep.idxOf i) = List.range keep.length := by
  have hnodup : keep.Nodup := hkeep.imp fun h => h.ne
  refine List.ext_getElem (by simp) fun k hk _ => ?_
  rw [List.getElem_map, List.getElem_range, hnodup.idxOf_getElem]

end Compose

/-! ## The projection as a workload -/

variable (w : Workload)

/-- The records between retained operations, with the places of these as indexes. -/
def retained (keep : List ℕ) : List (Edge (keep.map w.operation).length) :=
  w.edges.filterMap fun edge =>
    if h : (edge.operation : ℕ) ∈ keep ∧ (edge.requires : ℕ) ∈ keep then
      some (edge.renumber
        ⟨keep.idxOf (edge.operation : ℕ), by simpa using List.idxOf_lt_length_of_mem h.1⟩
        ⟨keep.idxOf (edge.requires : ℕ), by simpa using List.idxOf_lt_length_of_mem h.2⟩)
    else none

/-- The entries of `project`. -/
def projectedSource (keep : List ℕ) : List (String × Json) :=
  setEntry "dependencies" (.list (w.renumbered keep))
    (setEntry "original_ids" (.list (keep.map fun i : ℕ => Json.int i))
      (setEntry "worker_ids" (.list (keep.map fun i => Json.int (w.owner i)))
        (setEntry "operations" (.list (keep.map w.operation)) w.source)))

variable {w} {keep : List ℕ}

/-- A record is retained if both of its ends are, and refers to them by their new indexes. -/
theorem mem_retained {edge' : Edge (keep.map w.operation).length} :
    edge' ∈ w.retained keep ↔ ∃ edge ∈ w.edges, (edge.operation : ℕ) ∈ keep ∧
      (edge.requires : ℕ) ∈ keep ∧ ∃ a b : Fin (keep.map w.operation).length,
        (a : ℕ) = keep.idxOf (edge.operation : ℕ) ∧ (b : ℕ) = keep.idxOf (edge.requires : ℕ) ∧
        edge' = edge.renumber a b := by
  rw [retained, List.mem_filterMap]
  constructor
  · rintro ⟨edge, hedge, h⟩
    split_ifs at h with hkeep
    cases h
    exact ⟨edge, hedge, hkeep.1, hkeep.2, _, _, rfl, rfl, rfl⟩
  · rintro ⟨edge, hedge, hoperation, hrequires, a, b, ha, hb, rfl⟩
    refine ⟨edge, hedge, ?_⟩
    have ha' : a = ⟨keep.idxOf (edge.operation : ℕ), ha ▸ a.isLt⟩ := Fin.ext ha
    have hb' : b = ⟨keep.idxOf (edge.requires : ℕ), hb ▸ b.isLt⟩ := Fin.ext hb
    rw [dif_pos ⟨hoperation, hrequires⟩, ha', hb']

/-- The records of the projection are the ones it is written with. -/
theorem renumbered_eq : w.renumbered keep =
    (w.retained keep).map fun edge => .dict edge.record := by
  rw [renumbered, retained, List.map_filterMap]
  refine List.filterMap_congr fun edge _ => ?_
  split_ifs <;> rfl

/-- The record of the workload was read from some dict. -/
theorem exists_read {edge : Edge w.operations.length} (hedge : edge ∈ w.edges) :
    ∃ j, Edge.read w.operations.length j = .ok edge := by
  obtain ⟨records, -, hread⟩ := w.describes.records
  obtain ⟨i, hi, rfl⟩ := List.getElem_of_mem hedge
  have hall := mapM_eq_ok_iff.mp hread
  exact ⟨_, hall.get (by rw [hall.length_eq]; exact hi) hi⟩

/-- Places tell retained operations apart. -/
theorem idxOf_inj {i j : ℕ} (hi : i ∈ keep) (hj : j ∈ keep) :
    keep.idxOf i = keep.idxOf j ↔ i = j := by
  refine ⟨fun h => ?_, fun h => h ▸ rfl⟩
  rw [← List.getElem_idxOf (List.idxOf_lt_length_of_mem hi),
    ← List.getElem_idxOf (List.idxOf_lt_length_of_mem hj)]
  simp only [h]

/-- A projection is described by the operations, owners and records it retains. -/
theorem describes_project (hkeep : w.valid keep = true) :
    Describes (w.projectedSource keep) (keep.map w.operation) (keep.map w.owner)
      (w.retained keep) := by
  obtain ⟨hne, hsorted, hlt, -⟩ := w.valid_iff.mp hkeep
  have hd := w.describes
  refine ⟨?_, ⟨?_, ?_⟩, ?_, ?_, ?_, ⟨w.renumbered keep, ?_, ?_⟩, ?_⟩
  · simp [projectedSource]
  · rw [List.length_map]
    exact List.length_pos_of_ne_nil hne
  · have hle := (w.sublist_ids hkeep).length_le
    rw [length_ids] at hle
    rw [List.length_map]
    exact hle.trans w.size_le
  · -- the retained owners are among those of the whole
    obtain ⟨workers, hworkers, hpos, hle, howners⟩ := hd.workers
    refine ⟨workers, by simpa [projectedSource] using hworkers, hpos, hle, fun v hv => ?_⟩
    obtain ⟨i, hi, rfl⟩ := List.mem_map.mp hv
    have hi' : i < w.owners.length := hd.owned ▸ hlt i hi
    rw [owner, List.getD_eq_getElem _ _ hi']
    exact howners _ (List.getElem_mem hi')
  · simp [projectedSource, Function.comp_def]
  · rw [List.length_map, List.length_map]
  · simp [projectedSource]
  · rw [mapM_eq_ok_iff, renumbered_eq, List.forall₂_map_left_iff, List.forall₂_same]
    intro edge' hedge'
    obtain ⟨edge, hedge, hoperation, hrequires, a, b, ha, hb, rfl⟩ := mem_retained.mp hedge'
    obtain ⟨j, hread⟩ := exists_read hedge
    refine Edge.read_renumber hread fun hab => ?_
    -- a record does not require its own operation
    have hne := (Edge.read_eq_ok_iff.mp hread).2.2.2.2.2
    rw [Fin.ext_iff, ha, hb, idxOf_inj hoperation hrequires] at hab
    exact hne (Fin.ext hab)
  · -- records that are told apart are told apart by their places
    have hdistinct : w.edges.Pairwise fun e e' => e.key ≠ e'.key := List.pairwise_map.mp hd.distinct
    refine List.pairwise_map.mpr (List.pairwise_filterMap.mpr (hdistinct.imp ?_))
    intro e e' hne r hr r' hr' hsame
    split_ifs at hr hr' with h h'
    cases hr
    cases hr'
    rw [Edge.key, Edge.key] at hsame
    simp only [Edge.renumber, Prod.mk.injEq, Fin.mk.injEq] at hsame
    obtain ⟨hoperation, hrequires, hkind⟩ := hsame
    rw [idxOf_inj h.1 h'.1] at hoperation
    rw [idxOf_inj h.2 h'.2] at hrequires
    exact hne (by rw [Edge.key, Edge.key, Fin.ext hoperation, Fin.ext hrequires, hkind])

/-- A schedule of the whole orders the retained operations. -/
theorem schedulable_project (hkeep : w.valid keep = true) :
    Schedulable (keep.map w.owner) (w.retained keep) := by
  obtain ⟨-, hsorted, hlt, -⟩ := w.valid_iff.mp hkeep
  have hnodup : keep.Nodup := hsorted.imp fun h => h.ne
  obtain ⟨order, horder⟩ := w.schedulable
  have hordernodup : order.Nodup := horder.perm.nodup_iff.mpr List.nodup_range
  have hmem {i : ℕ} (hi : i ∈ keep) : i ∈ order :=
    horder.perm.mem_iff.mpr (List.mem_range.mpr (hlt i hi))
  -- the retained operations in the order of the whole, by their places
  let part := (order.filter (· ∈ keep)).map fun i => keep.idxOf i
  have hperm : part.Perm (List.range keep.length) := by
    rw [← map_idxOf_self hsorted]
    refine List.Perm.map _ ((List.perm_ext_iff_of_nodup (hordernodup.filter _) hnodup).mpr ?_)
    intro i
    simp only [List.mem_filter, decide_eq_true_eq]
    exact ⟨fun h => h.2, fun h => ⟨hmem h, h⟩⟩
  have hpartnodup : part.Nodup := hperm.nodup_iff.mpr List.nodup_range
  -- what comes before what in the whole does so in the part
  have hbefore {i j : ℕ} (hi : i ∈ keep) (hj : j ∈ keep) (h : order.idxOf i < order.idxOf j) :
      part.idxOf (keep.idxOf i) < part.idxOf (keep.idxOf j) := by
    have hj' : keep.idxOf j ∈ part :=
      List.mem_map_of_mem (List.mem_filter.mpr ⟨hmem hj, by simpa using hj⟩)
    rw [Topological.idxOf_lt_iff_sublist hpartnodup hj']
    have hsub := (Topological.idxOf_lt_iff_sublist hordernodup (hmem hj)).mp h
    -- the two stay where they are when the others are deleted
    have hfilter := hsub.filter (· ∈ keep)
    rw [List.filter_eq_self.mpr (by simp [hi, hj])] at hfilter
    exact hfilter.map fun i => keep.idxOf i
  refine ⟨part, by rw [List.length_map]; exact hperm, fun i j hij hj howner => ?_, ?_⟩
  · rw [List.length_map] at hj
    have hi := hij.trans hj
    have hgetD {k : ℕ} (hk : k < keep.length) : keep.idxOf keep[k] = k := hnodup.idxOf_getElem k hk
    -- operations of one worker of the part are of one worker of the whole
    have howner' : w.owners[keep[i]]? = w.owners[keep[j]]? := by
      have hk {k : ℕ} (hk : k < keep.length) :
          w.owners[keep[k]]? = some (w.owner keep[k]) := by
        have hlen : keep[k] < w.owners.length :=
          w.describes.owned ▸ hlt _ (List.getElem_mem hk)
        rw [owner, List.getD_eq_getElem _ _ hlen, List.getElem?_eq_getElem hlen]
      rw [hk hi, hk hj]
      simpa [List.getElem?_eq_getElem, hi, hj] using howner
    have := hbefore (List.getElem_mem hi) (List.getElem_mem hj) (horder.program _ _
      (List.pairwise_iff_getElem.mp hsorted i j hi hj hij) (hlt _ (List.getElem_mem hj)) howner')
    rwa [hgetD hi, hgetD hj] at this
  · intro edge' hedge' hkind
    obtain ⟨edge, hedge, hoperation, hrequires, a, b, ha, hb, rfl⟩ := mem_retained.mp hedge'
    show part.idxOf (b : ℕ) < part.idxOf (a : ℕ)
    rw [ha, hb]
    exact hbefore hrequires hoperation (horder.prerequisites edge hedge hkind)

/-- The projection as a workload of its own. -/
def projection (w : Workload) (keep : List ℕ) (hkeep : w.valid keep = true) : Workload where
  source := w.projectedSource keep
  operations := keep.map w.operation
  owners := keep.map w.owner
  edges := w.retained keep
  operations_eq := by
    obtain ⟨h, -, -, -⟩ := exists_of_schedulable (describes_project hkeep) (schedulable_project hkeep)
    exact h
  edges_eq := by
    obtain ⟨-, h, -, -⟩ := exists_of_schedulable (describes_project hkeep) (schedulable_project hkeep)
    exact h
  ordered := by
    obtain ⟨-, -, h, -⟩ := exists_of_schedulable (describes_project hkeep) (schedulable_project hkeep)
    exact h

section Projection

variable (hkeep : w.valid keep = true) {keep2 : List ℕ}

/-- A projection is a workload. -/
theorem new_projection : new (w.project keep) = .ok (w.projection keep hkeep) :=
  new_source (w.projection keep hkeep)

/-- A projection has as many operations as are retained. -/
theorem size_projection : (w.projection keep hkeep).size = keep.length :=
  List.length_map _

/-- Exactly the records between retained operations survive. -/
theorem mem_edges_projection {a b : ℕ} {kind : Kind} :
    (∃ edge ∈ (w.projection keep hkeep).edges,
      (edge.operation : ℕ) = a ∧ (edge.requires : ℕ) = b ∧ edge.kind = kind) ↔
    ∃ edge ∈ w.edges, keep[a]? = some (edge.operation : ℕ) ∧
      keep[b]? = some (edge.requires : ℕ) ∧ edge.kind = kind := by
  obtain ⟨-, hsorted, -, -⟩ := w.valid_iff.mp hkeep
  have hnodup : keep.Nodup := hsorted.imp fun h => h.ne
  -- what is at a place, and the place of what is there
  have hplace {k i : ℕ} : keep[k]? = some i ↔ i ∈ keep ∧ k = keep.idxOf i := by
    rw [List.getElem?_eq_some_iff]
    constructor
    · rintro ⟨hk, rfl⟩
      exact ⟨List.getElem_mem hk, (hnodup.idxOf_getElem k hk).symm⟩
    · rintro ⟨hi, rfl⟩
      exact ⟨List.idxOf_lt_length_of_mem hi, List.getElem_idxOf _⟩
  simp only [hplace]
  constructor
  · rintro ⟨edge', hedge', rfl, rfl, rfl⟩
    obtain ⟨edge, hedge, hoperation, hrequires, a, b, ha, hb, rfl⟩ := mem_retained.mp hedge'
    exact ⟨edge, hedge, ⟨hoperation, ha⟩, ⟨hrequires, hb⟩, rfl⟩
  · rintro ⟨edge, hedge, ⟨hoperation, rfl⟩, ⟨hrequires, rfl⟩, rfl⟩
    have hlt {i : ℕ} (hi : i ∈ keep) : keep.idxOf i < (keep.map w.operation).length := by
      rw [List.length_map]
      exact List.idxOf_lt_length_of_mem hi
    exact ⟨_, mem_retained.mpr ⟨edge, hedge, hoperation, hrequires, ⟨_, hlt hoperation⟩,
      ⟨_, hlt hrequires⟩, rfl, rfl, rfl⟩, rfl, rfl, rfl⟩

/-- What is a candidate of the projection. -/
theorem valid_projection_iff : (w.projection keep hkeep).valid keep2 = true ↔
    (∀ j ∈ keep2, j < keep.length) ∧ w.valid (compose keep keep2) = true := by
  obtain ⟨-, hsorted, hlt, hclosed⟩ := w.valid_iff.mp hkeep
  rw [valid_iff, valid_iff, size_projection, closed_iff, closed_iff]
  constructor
  · rintro ⟨hne, hsorted2, hlt2, hclosed2⟩
    refine ⟨hlt2, by simpa [compose] using hne, (pairwise_compose_iff hsorted hlt2).mpr hsorted2,
      fun i hi => hlt i ((mem_compose_iff hsorted hlt2).mp hi).1, fun edge hedge hkind hi => ?_⟩
    -- the operation is retained, so what it requires is, and the record is one of the projection
    obtain ⟨hoperation, hplace⟩ := (mem_compose_iff hsorted hlt2).mp hi
    have hrequires := (w.closed_iff.mp hclosed) edge hedge hkind hoperation
    obtain ⟨edge', hedge', ha, hb, hkind'⟩ := (mem_edges_projection hkeep).mpr
      ⟨edge, hedge, List.getElem?_idxOf hoperation, List.getElem?_idxOf hrequires, rfl⟩
    refine (mem_compose_iff hsorted hlt2).mpr ⟨hrequires, ?_⟩
    rw [← hb]
    exact hclosed2 edge' hedge' (hkind'.symm ▸ hkind) (ha.symm ▸ hplace)
  · rintro ⟨hlt2, hne, hsorted2, -, hclosed2⟩
    -- a record of the projection is one of the whole, with places for indexes
    refine ⟨by simpa [compose] using hne, (pairwise_compose_iff hsorted hlt2).mp hsorted2, hlt2,
      fun edge' hedge' hkind hi => ?_⟩
    obtain ⟨edge, hedge, hoperation, hrequires, a, b, ha, hb, rfl⟩ := mem_retained.mp hedge'
    have hi : (a : ℕ) ∈ keep2 := hi
    rw [ha] at hi
    have := hclosed2 edge hedge hkind ((mem_compose_iff hsorted hlt2).mpr ⟨hoperation, hi⟩)
    show (b : ℕ) ∈ keep2
    rw [hb]
    exact ((mem_compose_iff hsorted hlt2).mp this).2

/-- Renumbering twice is renumbering once. -/
theorem renumbered_projection (hlt2 : ∀ j ∈ keep2, j < keep.length) :
    (w.projection keep hkeep).renumbered keep2 = w.renumbered (compose keep keep2) := by
  obtain ⟨-, hsorted, -, -⟩ := w.valid_iff.mp hkeep
  rw [renumbered, renumbered]
  refine Eq.trans (@List.filterMap_filterMap _ (Edge (keep.map w.operation).length) _ _ _ w.edges) ?_
  refine List.filterMap_congr fun edge _ => ?_
  have hmem {i : ℕ} := @mem_compose_iff keep keep2 hsorted hlt2 i
  by_cases hretained : (edge.operation : ℕ) ∈ keep ∧ (edge.requires : ℕ) ∈ keep
  · rw [dif_pos hretained]
    simp only [hmem, hretained.1, hretained.2, true_and,
      idxOf_compose hsorted hlt2 hretained.1, idxOf_compose hsorted hlt2 hretained.2]
    -- each index is set twice, and the second time counts
    change (if _ ∧ _ then some (Json.dict (setEntry _ _ (setEntry "operation" _
      (setEntry "requires" _ (setEntry "operation" _ edge.record))))) else none) = _
    rw [setEntry_twice (by decide)]
    rfl
  · -- a record that the first projection drops is between operations the second one does not retain
    rw [dif_neg hretained, if_neg fun h => hretained ⟨(hmem.mp h.1).1, (hmem.mp h.2).1⟩]
    rfl

/-- Projecting twice is projecting once, but for `original_ids`. -/
theorem project_projection (hlt2 : ∀ j ∈ keep2, j < keep.length) :
    (w.projection keep hkeep).project keep2 =
      Json.set "original_ids" (.list (keep2.map fun j : ℕ => Json.int j))
        (w.project (compose keep keep2)) := by
  obtain ⟨-, -, hlt, -⟩ := w.valid_iff.mp hkeep
  have hoperations : keep2.map (w.projection keep hkeep).operation =
      (compose keep keep2).map w.operation := by
    rw [compose, List.map_map]
    refine List.map_congr_left fun j hj => ?_
    simp [operation, projection, hlt2 j hj]
  have howners : (keep2.map fun j => Json.int ((w.projection keep hkeep).owner j)) =
      (compose keep keep2).map fun i => Json.int (w.owner i) := by
    rw [compose, List.map_map]
    refine List.map_congr_left fun j hj => ?_
    simp [owner, projection, hlt2 j hj]
  rw [project, project, renumbered_projection hkeep hlt2, hoperations, howners,
    show (w.projection keep hkeep).source = w.projectedSource keep from rfl, projectedSource]
  -- every entry of the first projection is set again
  rw [setEntry_comm (show "operations" ≠ "dependencies" by decide) _ _ (by simp),
    setEntry_comm (show "operations" ≠ "original_ids" by decide) _ _ (by simp),
    setEntry_comm (show "operations" ≠ "worker_ids" by decide) _ _ (by simp), setEntry_setEntry,
    setEntry_comm (show "worker_ids" ≠ "dependencies" by decide) _ _ (by simp),
    setEntry_comm (show "worker_ids" ≠ "original_ids" by decide) _ _ (by simp), setEntry_setEntry,
    setEntry_comm (show "original_ids" ≠ "dependencies" by decide) _ _ (by simp),
    setEntry_setEntry, setEntry_setEntry, Json.set,
    setEntry_comm (show "original_ids" ≠ "dependencies" by decide) _ _ (by simp),
    setEntry_setEntry]

end Projection

/-- Projections are workloads, and compose. The projection of a workload on a candidate is accepted.
It holds the retained operations with their owners, in their order for every worker, and exactly the
records between them, renumbered. A tuple of its indexes is a candidate just when the composed tuple
is one of the whole, and then projecting on it is projecting the whole on the composed tuple, but for
the original indexes that are recorded. -/
theorem project_compose (w : Workload) {keep : List ℕ} (hkeep : w.valid keep = true) :
    ∃ value part, w.candidate keep = .ok value ∧ new value = .ok part ∧
      part.operations = keep.map w.operation ∧ part.owners = keep.map w.owner ∧
      (∀ v, (program value v).Sublist (program (.dict w.source) v)) ∧
      (∀ a b kind, (∃ edge ∈ part.edges,
          (edge.operation : ℕ) = a ∧ (edge.requires : ℕ) = b ∧ edge.kind = kind) ↔
        ∃ edge ∈ w.edges, keep[a]? = some (edge.operation : ℕ) ∧
          keep[b]? = some (edge.requires : ℕ) ∧ edge.kind = kind) ∧
      ∀ keep2, (part.valid keep2 = true ↔
          (∀ j ∈ keep2, j < keep.length) ∧ w.valid (compose keep keep2) = true) ∧
        (part.valid keep2 = true → ∃ whole, w.candidate (compose keep keep2) = .ok whole ∧
          part.candidate keep2 =
            .ok (Json.set "original_ids" (.list (keep2.map fun j : ℕ => Json.int j)) whole)) := by
  refine ⟨w.project keep, w.projection keep hkeep, w.candidate_eq_ok hkeep, new_projection hkeep, rfl,
    rfl, w.program_sublist hkeep, fun a b kind => mem_edges_projection hkeep, fun keep2 =>
      ⟨valid_projection_iff hkeep, fun hvalid => ?_⟩⟩
  obtain ⟨hlt2, hcomposed⟩ := (valid_projection_iff hkeep).mp hvalid
  refine ⟨_, w.candidate_eq_ok hcomposed, ?_⟩
  rw [candidate_eq_ok _ hvalid, project_projection hkeep hlt2]

/-- Projecting a chain of three operations twice. -/
theorem project_compose_chain :
    ∃ value part, chain.candidate [0, 1] = .ok value ∧ new value = .ok part ∧
      part.operations = [0, 1].map chain.operation ∧ part.owners = [0, 1].map chain.owner ∧
      (∀ v, (program value v).Sublist (program (.dict chain.source) v)) ∧
      (∀ a b kind, (∃ edge ∈ part.edges,
          (edge.operation : ℕ) = a ∧ (edge.requires : ℕ) = b ∧ edge.kind = kind) ↔
        ∃ edge ∈ chain.edges, [0, 1][a]? = some (edge.operation : ℕ) ∧
          [0, 1][b]? = some (edge.requires : ℕ) ∧ edge.kind = kind) ∧
      ∀ keep2, (part.valid keep2 = true ↔
          (∀ j ∈ keep2, j < [0, 1].length) ∧ chain.valid (compose [0, 1] keep2) = true) ∧
        (part.valid keep2 = true → ∃ whole, chain.candidate (compose [0, 1] keep2) = .ok whole ∧
          part.candidate keep2 =
            .ok (Json.set "original_ids" (.list (keep2.map fun j : ℕ => Json.int j)) whole)) :=
  chain.project_compose (by decide)

end Workload

end Lab
