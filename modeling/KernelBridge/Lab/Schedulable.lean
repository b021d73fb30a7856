import KernelBridge.Lab.Workload
import KernelBridge.Lib.Topological

/-!
# Which workloads are accepted

`Workload.__init__` searches the required records and the programs of the workers for a cycle. The
search keeps `Settled` what is done and a path of what it is visiting (`visit_spec`), so it ends
without an error just when the operations can be put in an order that respects the constraints
(`checkOrder_spec`). The earlier check on records within one worker only rejects what no order
respects (`IsSchedule.not_conflicts`).

Main result: `Workload.new_iff_schedulable`.
-/

namespace Lab

open Py Topological

/-! ## Reading the records -/

section Records

variable {n : ℕ} {owners : List ℕ} {seen edges : List (Edge n)} {records : List Json}

/-- The record asks for a later operation of the same worker. -/
def Edge.Conflicts (owners : List ℕ) (edge : Edge n) : Prop :=
  edge.kind.required = true ∧ owners[edge.operation]? = owners[edge.requires]? ∧
    edge.operation < edge.requires

/-- Whether a record conflicts with the order of its worker is a comparison of numbers. -/
instance (edge : Edge n) : Decidable (edge.Conflicts owners) :=
  inferInstanceAs (Decidable (_ ∧ _ ∧ _))

/-- What the loop over the records accepts. -/
theorem readEdges_eq_ok_iff (hseen : (seen.map Edge.key).Nodup) :
    readEdges n owners seen records = .ok edges ↔ ∃ new, edges = seen ++ new ∧
      records.mapM (Edge.read n) = .ok new ∧ (edges.map Edge.key).Nodup ∧
      ∀ edge ∈ new, ¬edge.Conflicts owners := by
  induction records generalizing seen with
  | nil =>
    simp only [readEdges, List.mapM_nil, pure, Except.pure, Except.ok.injEq]
    constructor
    · rintro rfl
      exact ⟨[], by simp, rfl, hseen, by simp⟩
    · rintro ⟨new, rfl, rfl, -⟩
      simp
  | cons record records ih =>
    have hnext (edge : Edge n) (hnew : edge.key ∉ seen.map Edge.key) :
        ((seen ++ [edge]).map Edge.key).Nodup := by
      rw [List.map_append, List.nodup_append']
      exact ⟨hseen, by simp, by simpa [List.disjoint_singleton] using hnew⟩
    simp only [readEdges, bind_eq_ok_iff, List.mapM_cons]
    constructor
    · rintro ⟨edge, hread, h⟩
      -- the record is neither a duplicate nor in conflict, and the rest follows it
      split_ifs at h with hdup hconflict
      obtain ⟨new, rfl, hrest, hnodup, hnone⟩ := (ih (hnext edge hdup)).mp h
      refine ⟨edge :: new, by simp, ⟨edge, hread, new, hrest, rfl⟩, hnodup, ?_⟩
      exact List.forall_mem_cons.mpr ⟨hconflict, hnone⟩
    · rintro ⟨new, rfl, ⟨edge, hread, rest, hrest, hnew⟩, hnodup, hnone⟩
      cases hnew
      obtain ⟨hconflict, hnone⟩ := List.forall_mem_cons.mp hnone
      have hassoc : seen ++ edge :: rest = (seen ++ [edge]) ++ rest := by simp
      have hdup : edge.key ∉ seen.map Edge.key := by
        rw [List.map_append, List.map_cons, List.nodup_append'] at hnodup
        exact fun hmem => hnodup.2.2 hmem List.mem_cons_self
      refine ⟨edge, hread, ?_⟩
      rw [Edge.Conflicts] at hconflict
      rw [if_neg hdup, if_neg hconflict]
      exact (ih (hnext edge hdup)).mpr ⟨rest, hassoc, hrest, hnodup, hnone⟩

/-- Distinct records, one of which conflicts, are rejected for that. -/
theorem readEdges_of_conflicts (hread : records.mapM (Edge.read n) = .ok edges)
    (hnodup : ((seen ++ edges).map Edge.key).Nodup)
    (hconflict : ∃ edge ∈ edges, edge.Conflicts owners) :
    readEdges n owners seen records =
      .error "prerequisite conflicts with worker program order" := by
  induction records generalizing seen edges with
  | nil =>
    cases hread
    obtain ⟨edge, hedge, -⟩ := hconflict
    cases hedge
  | cons record records ih =>
    simp only [List.mapM_cons, bind_eq_ok_iff] at hread
    obtain ⟨edge, hread, rest, hrest, hnew⟩ := hread
    cases hnew
    have hdup : edge.key ∉ seen.map Edge.key := by
      rw [List.map_append, List.map_cons, List.nodup_append'] at hnodup
      exact fun hmem => hnodup.2.2 hmem List.mem_cons_self
    rw [readEdges, hread]
    simp only [bind, Except.bind]
    rw [if_neg hdup]
    split_ifs with hfirst
    · rfl
    · -- this record does not conflict, so a later one does
      refine ih hrest (by simpa using hnodup) ?_
      obtain ⟨bad, hbad, hc⟩ := hconflict
      refine ⟨bad, (List.mem_cons.mp hbad).resolve_left ?_, hc⟩
      rintro rfl
      exact hfirst hc

end Records

/-! ## The search for a cycle -/

/-- The text of the error for a cycle. -/
def cyclicConstraints : String := "cyclic prerequisite/program-order constraints"

/-- What the search does to the nodes that are done: they stay settled, only nodes that are not on
the way are added, and `wanted` are among them in the end. If it stops, there is a cycle. -/
def Searched (graph : ℕ → List ℕ) (n : ℕ) (visiting done wanted : List ℕ) :
    Except String (List ℕ) → Prop
  | .ok done' => Settled graph done' ∧ done ⊆ done' ∧ wanted ⊆ done' ∧
      (∀ v ∈ visiting, v ∉ done') ∧ ∀ j ∈ done', j ∈ done ∨ j < n
  | .error message => message = cyclicConstraints ∧
      ∃ k < n, Relation.TransGen (fun b a => b ∈ graph a) k k

section Search

variable {graph : ℕ → List ℕ} {n : ℕ} {visiting done : List ℕ} {i : ℕ}

/-- The loop over some nodes, if each of them is searched. -/
theorem searched_foldlM {search : List ℕ → ℕ → Except String (List ℕ)} {nodes : List ℕ}
    (hsearch : ∀ i ∈ nodes, ∀ done, Settled graph done → (∀ v ∈ visiting, v ∉ done) →
      Searched graph n visiting done [i] (search done i))
    (hdone : Settled graph done) (hvisiting : ∀ v ∈ visiting, v ∉ done) :
    Searched graph n visiting done nodes (nodes.foldlM search done) := by
  induction nodes generalizing done with
  | nil => exact ⟨hdone, List.Subset.refl done, by simp, hvisiting, fun j hj => .inl hj⟩
  | cons i nodes ih =>
    have hfirst := hsearch i List.mem_cons_self done hdone hvisiting
    rw [List.foldlM_cons]
    cases hrun : search done i with
    | error message =>
      rw [hrun] at hfirst
      exact hfirst
    | ok done₁ =>
      rw [hrun] at hfirst
      obtain ⟨hsettled, hgrow, hi, hvisiting₁, hnew⟩ := hfirst
      -- the other nodes are searched with what is settled by now
      have hrest := ih (fun j hj => hsearch j (List.mem_cons_of_mem i hj)) hsettled hvisiting₁
      show Searched graph n visiting done (i :: nodes) (nodes.foldlM search done₁)
      cases hrun' : nodes.foldlM search done₁ with
      | error message =>
        rw [hrun'] at hrest
        exact hrest
      | ok done₂ =>
        rw [hrun'] at hrest
        obtain ⟨hsettled₂, hgrow₂, hnodes, hvisiting₂, hnew₂⟩ := hrest
        refine ⟨hsettled₂, List.Subset.trans hgrow hgrow₂, ?_, hvisiting₂, fun j hj => ?_⟩
        · exact List.cons_subset.mpr ⟨hgrow₂ (hi List.mem_cons_self), hnodes⟩
        · rcases hnew₂ j hj with hj | hj
          · exact hnew j hj
          · exact .inr hj

/-- The search from one node. The nodes on the way are a path to it, and there is fuel for as many
as are not on the way. -/
theorem visit_spec (hgraph : ∀ i < n, ∀ j ∈ graph i, j < n) {fuel : ℕ}
    (hfuel : n < fuel + visiting.length) (hnodup : visiting.Nodup) (hlt : ∀ v ∈ visiting, v < n)
    (hi : i < n) (hchain : (i :: visiting).IsChain fun b a => b ∈ graph a)
    (hdone : Settled graph done) (hvisiting : ∀ v ∈ visiting, v ∉ done) :
    Searched graph n visiting done [i] (visit graph fuel visiting done i) := by
  induction fuel generalizing visiting done i with
  | zero =>
    -- there are only `n` nodes to be on the way
    have hsub : visiting.Subperm (List.range n) :=
      List.subperm_of_subset hnodup fun v hv => List.mem_range.mpr (hlt v hv)
    have := hsub.length_le
    rw [List.length_range] at this
    omega
  | succ fuel ih =>
    rw [visit]
    by_cases hback : i ∈ visiting
    · -- the path has come back to a node on it
      rw [if_pos hback]
      exact ⟨rfl, i, hi, exists_cycle hchain hback⟩
    rw [if_neg hback]
    by_cases hold : i ∈ done
    · rw [if_pos hold]
      exact ⟨hdone, List.Subset.refl done, by simpa using hold, hvisiting, fun j hj => .inl hj⟩
    rw [if_neg hold]
    -- the parents are searched with the node itself on the way
    have hparents : Searched graph n (i :: visiting) done (graph i) ((graph i).foldlM
        (fun done parent => visit graph fuel (i :: visiting) done parent) done) := by
      refine searched_foldlM (fun j hj done hdone hvisiting => ?_) hdone
        (List.forall_mem_cons.mpr ⟨hold, hvisiting⟩)
      refine ih ?_ (List.nodup_cons.mpr ⟨hback, hnodup⟩) (List.forall_mem_cons.mpr ⟨hi, hlt⟩)
        (hgraph i hi j hj) (List.IsChain.cons_cons hj hchain) hdone hvisiting
      rw [List.length_cons]
      omega
    cases hrun : (graph i).foldlM
        (fun done parent => visit graph fuel (i :: visiting) done parent) done with
    | error message =>
      rw [hrun] at hparents
      exact hparents
    | ok done' =>
      rw [hrun] at hparents
      obtain ⟨hsettled, hgrow, hparents, hvisiting', hnew⟩ := hparents
      obtain ⟨hinew, hvisiting'⟩ := List.forall_mem_cons.mp hvisiting'
      -- all its parents are settled, and it has not been settled on the way
      refine ⟨.cons hinew hparents hsettled, List.subset_cons_of_subset i hgrow, by simp, ?_, ?_⟩
      · intro v hv
        rw [List.mem_cons, not_or]
        exact ⟨fun hvi => hback (hvi ▸ hv), hvisiting' v hv⟩
      · intro j hj
        rcases List.mem_cons.mp hj with rfl | hj
        · exact .inr hi
        · exact hnew j hj

end Search

/-! ## Schedules -/

section Schedules

variable {n : ℕ} {owners : List ℕ} {edges : List (Edge n)} {order : List ℕ}

/-- An order of all operations that keeps those of each worker in their source order, and every
operation after those it requires. -/
structure IsSchedule (owners : List ℕ) (edges : List (Edge n)) (order : List ℕ) : Prop where
  perm : order.Perm (List.range n)
  program : ∀ i j, i < j → j < n → owners[i]? = owners[j]? → order.idxOf i < order.idxOf j
  prerequisites : ∀ edge ∈ edges, edge.kind.required = true →
    order.idxOf (edge.requires : ℕ) < order.idxOf (edge.operation : ℕ)

/-- The operations can be put in such an order. -/
def Schedulable (owners : List ℕ) (edges : List (Edge n)) : Prop :=
  ∃ order, IsSchedule owners edges order

/-- What the enforced records require of an operation. -/
theorem mem_requiredBy {i j : ℕ} : j ∈ requiredBy edges i ↔
    ∃ edge ∈ edges, edge.kind.required = true ∧ (edge.operation : ℕ) = i ∧
      (edge.requires : ℕ) = j := by
  simp [requiredBy, and_assoc]

/-- The previous operation of the same worker comes earlier. -/
theorem previous_spec {i j : ℕ} (h : previous owners j = some i) :
    i < j ∧ owners[i]? = owners[j]? := by
  simpa using List.mem_of_getLast? h

/-- An earlier operation of the same worker is the previous one, or before it. -/
theorem exists_previous {i j : ℕ} (hij : i < j) (howner : owners[i]? = owners[j]?) :
    ∃ k, previous owners j = some k ∧ i ≤ k := by
  have hmem : i ∈ (List.range j).filter fun k => owners[k]? = owners[j]? := by
    simpa using ⟨hij, howner⟩
  cases hlast : previous owners j with
  | none => rw [List.getLast?_eq_none_iff.mp hlast] at hmem; cases hmem
  | some k =>
    refine ⟨k, rfl, ?_⟩
    obtain ⟨before, hbefore⟩ := List.getLast?_eq_some_iff.mp hlast
    rw [hbefore] at hmem
    -- the operations of the worker are listed in order
    have hsorted : (before ++ [k]).Pairwise (· < ·) :=
      hbefore ▸ List.pairwise_lt_range.filter _
    rcases List.mem_append.mp hmem with hi | hi
    · exact ((List.pairwise_append.mp hsorted).2.2 i hi k (by simp)).le
    · exact (by simpa using hi : i = k).le

/-- The constraints of an operation are about operations of the workload. -/
theorem constraints_lt {i j : ℕ} (hi : i < n) (hj : j ∈ constraints owners edges i) : j < n := by
  rcases List.mem_append.mp hj with hj | hj
  · obtain ⟨edge, -, -, -, rfl⟩ := mem_requiredBy.mp hj
    exact edge.requires.isLt
  · exact (previous_spec (Option.mem_toList.mp hj)).1.trans hi

/-- Schedules are the topological orders of the constraints. -/
theorem isSchedule_iff (hperm : order.Perm (List.range n)) :
    IsSchedule owners edges order ↔ Ordered (constraints owners edges) order := by
  have hmem {i : ℕ} : i ∈ order ↔ i < n := hperm.mem_iff.trans List.mem_range
  constructor
  · intro h i hi j hj
    rcases List.mem_append.mp hj with hj | hj
    · obtain ⟨edge, hedge, hkind, rfl, rfl⟩ := mem_requiredBy.mp hj
      exact h.prerequisites edge hedge hkind
    · obtain ⟨hlt, howner⟩ := previous_spec (Option.mem_toList.mp hj)
      exact h.program j i hlt (hmem.mp hi) howner
  · intro h
    refine ⟨hperm, fun i j hij hj howner => ?_, fun edge hedge hkind => ?_⟩
    · -- from each operation of the worker to the previous one, down to `i`
      induction j using Nat.strong_induction_on with
      | _ j ih =>
        obtain ⟨k, hprevious, hik⟩ := exists_previous hij howner
        obtain ⟨hkj, hkowner⟩ := previous_spec hprevious
        have hlast : order.idxOf k < order.idxOf j :=
          h j (hmem.mpr hj) k (List.mem_append_right _ (Option.mem_toList.mpr hprevious))
        rcases Nat.eq_or_lt_of_le hik with rfl | hik
        · exact hlast
        · exact (ih k hkj hik (hkj.trans hj) (howner.trans hkowner.symm)).trans hlast
    · refine h _ (hmem.mpr edge.operation.isLt) _ (List.mem_append_left _ ?_)
      exact mem_requiredBy.mpr ⟨edge, hedge, hkind, rfl, rfl⟩

/-- No schedule respects a record that conflicts with the program of a worker. -/
theorem IsSchedule.not_conflicts (h : IsSchedule owners edges order) :
    ∀ edge ∈ edges, ¬edge.Conflicts owners := by
  rintro edge hedge ⟨hkind, howner, hlt⟩
  exact absurd (h.prerequisites edge hedge hkind)
    (h.program _ _ hlt edge.requires.isLt howner).asymm

/-- The search goes through just when there is a schedule, and otherwise finds a cycle. -/
theorem checkOrder_spec : (checkOrder owners edges = .ok () ∧ Schedulable owners edges) ∨
    (checkOrder owners edges = .error cyclicConstraints ∧ ¬Schedulable owners edges) := by
  have hsearch : Searched (constraints owners edges) n [] [] (List.range n)
      ((List.range n).foldlM (visit (constraints owners edges) (n + 1) []) []) := by
    refine searched_foldlM (fun i hi done hdone hvisiting => ?_) .nil (by simp)
    refine visit_spec (fun i hi j => constraints_lt hi) (by simp) List.nodup_nil (by simp)
      (List.mem_range.mp hi) (List.isChain_singleton i) hdone hvisiting
  rw [checkOrder]
  cases hrun : (List.range n).foldlM (visit (constraints owners edges) (n + 1) []) [] with
  | error message =>
    rw [hrun] at hsearch
    obtain ⟨rfl, k, hk, hcycle⟩ := hsearch
    refine .inr ⟨rfl, ?_⟩
    -- a schedule would order the cycle
    rintro ⟨order, horder⟩
    have hordered := (isSchedule_iff horder.perm).mp horder
    exact hordered.acyclic (horder.perm.mem_iff.mpr (List.mem_range.mpr hk)) hcycle
  | ok done =>
    rw [hrun] at hsearch
    obtain ⟨hsettled, -, hall, -, hnew⟩ := hsearch
    -- what is settled is listed last first
    refine .inl ⟨rfl, done.reverse, ?_⟩
    have hperm : done.Perm (List.range n) :=
      (List.perm_ext_iff_of_nodup hsettled.nodup List.nodup_range).mpr fun i =>
        ⟨fun hi => List.mem_range.mpr ((hnew i hi).resolve_left List.not_mem_nil), fun hi => hall hi⟩
    exact (isSchedule_iff (done.reverse_perm.trans hperm)).mpr hsettled.ordered

end Schedules

/-! ## Construction -/

namespace Workload

/-- The dict describes 1..12 operations with an existing worker each, and distinct dependency
records that are well formed. -/
structure Describes (source : List (String × Json)) (operations : List Json) (owners : List ℕ)
    (edges : List (Edge operations.length)) : Prop where
  listed : lookup "operations" source = some (.list operations)
  count : 1 ≤ operations.length ∧ operations.length ≤ 12
  workers : ∃ workers : ℕ, lookup "workers" source = some (.int workers) ∧ 1 ≤ workers ∧
    workers ≤ 4 ∧ ∀ v ∈ owners, v < workers
  assigned : lookup "worker_ids" source = some (.list (owners.map fun v : ℕ => Json.int v))
  owned : owners.length = operations.length
  records : ∃ records, (lookup "dependencies" source).getD (.list []) = .list records ∧
    records.mapM (Edge.read operations.length) = .ok edges
  distinct : (edges.map Edge.key).Nodup

variable {source : List (String × Json)} {operations : List Json} {owners : List ℕ}
  {edges : List (Edge operations.length)}

/-- What the operations and their owners must be. -/
theorem readOperations_eq_ok_iff : readOperations source = .ok (operations, owners) ↔
    lookup "operations" source = some (.list operations) ∧
    (1 ≤ operations.length ∧ operations.length ≤ 12) ∧
    (∃ workers : ℕ, lookup "workers" source = some (.int workers) ∧ 1 ≤ workers ∧ workers ≤ 4 ∧
      ∀ v ∈ owners, v < workers) ∧
    lookup "worker_ids" source = some (.list (owners.map fun v : ℕ => Json.int v)) ∧
    owners.length = operations.length := by
  constructor
  · intro h
    unfold readOperations at h
    split at h
    next operations' workers ids hoperations hworkers hids =>
      split_ifs at h with hbounds
      cases hcheck : checkAssignments invalidOwnership ids workers operations'.length with
      | error message => rw [hcheck] at h; cases h
      | ok owners' =>
        rw [hcheck] at h
        cases h
        obtain ⟨rfl, hlength, hlt⟩ := checkAssignments_eq_ok_iff.mp hcheck
        refine ⟨hoperations, hbounds.1, ⟨workers.toNat, ?_, by omega, by omega, ?_⟩, hids, hlength⟩
        · rw [hworkers, Int.toNat_of_nonneg (by omega)]
        · intro v hv
          have := hlt v hv
          omega
    next => cases h
  · rintro ⟨hoperations, hcount, ⟨workers, hworkers, hpos, hle, hlt⟩, hids, hlength⟩
    have hcheck : checkAssignments invalidOwnership
        (.list (owners.map fun v : ℕ => Json.int v)) workers operations.length = .ok owners :=
      checkAssignments_eq_ok_iff.mpr ⟨rfl, hlength, fun v hv => by exact_mod_cast hlt v hv⟩
    simp only [readOperations, hoperations, hworkers, hids]
    rw [if_pos ⟨hcount, by omega, by omega⟩, hcheck]
    rfl

/-- The records, with none as a default. -/
theorem readRecords_eq_ok_iff {records : List Json} : readRecords source = .ok records ↔
    (lookup "dependencies" source).getD (.list []) = .list records := by
  unfold readRecords
  split
  next h => simp [h]
  next h => simp [h]
  next value hvalue h =>
    simp only [h, Option.getD_some, reduceCtorEq, false_iff]
    exact hvalue records

/-- A workload is what its source is read as. -/
theorem new_source (w : Workload) : new (.dict w.source) = .ok w := by
  obtain ⟨source, operations, owners, edges, hoperations, hedges, hordered⟩ := w
  simp only [new]
  split
  next message h => rw [hoperations] at h; cases h
  next operations' owners' h =>
    have heq := hoperations.symm.trans h
    cases heq
    split
    next message h' => rw [hedges] at h'; cases h'
    next edges' h' =>
      have heq := hedges.symm.trans h'
      cases heq
      split
      next message h'' => rw [hordered] at h''; cases h''
      next => rfl

/-- What a workload has been read from. -/
theorem describes (w : Workload) : Describes w.source w.operations w.owners w.edges := by
  obtain ⟨hoperations, hcount, hworkers, hids, hlength⟩ :=
    readOperations_eq_ok_iff.mp w.operations_eq
  obtain ⟨records, hrecords, hedges⟩ := bind_eq_ok_iff.mp w.edges_eq
  obtain ⟨new, hnew, hread, hnodup, -⟩ := (readEdges_eq_ok_iff (by simp)).mp hedges
  rw [List.nil_append] at hnew
  exact ⟨hoperations, hcount, hworkers, hids, hlength,
    ⟨records, readRecords_eq_ok_iff.mp hrecords, hnew ▸ hread⟩, hnodup⟩

/-- An accepted workload has an order of its operations. -/
theorem schedulable (w : Workload) : Schedulable w.owners w.edges := by
  rcases @checkOrder_spec _ w.owners w.edges with ⟨-, h⟩ | ⟨h, -⟩
  · exact h
  · rw [w.ordered] at h
    cases h

/-- A description that can be scheduled is accepted, as it is described. -/
theorem exists_of_schedulable (h : Describes source operations owners edges)
    (hschedule : Schedulable owners edges) : ∃ (operations_eq : _) (edges_eq : _) (ordered : _),
      new (.dict source) =
        .ok { source, operations, owners, edges, operations_eq, edges_eq, ordered } := by
  obtain ⟨records, hrecords, hread⟩ := h.records
  obtain ⟨order, horder⟩ := hschedule
  have hedges : readRecords source >>= readEdges operations.length owners [] = .ok edges :=
    bind_eq_ok_iff.mpr ⟨records, readRecords_eq_ok_iff.mpr hrecords,
      (readEdges_eq_ok_iff (by simp)).mpr ⟨edges, rfl, hread, h.distinct, horder.not_conflicts⟩⟩
  have hordered : checkOrder owners edges = .ok () := by
    rcases @checkOrder_spec _ owners edges with ⟨hok, -⟩ | ⟨-, hno⟩
    · exact hok
    · exact absurd ⟨order, horder⟩ hno
  have hoperations : readOperations source = .ok (operations, owners) :=
    readOperations_eq_ok_iff.mpr ⟨h.listed, h.count, h.workers, h.assigned, h.owned⟩
  exact ⟨hoperations, hedges, hordered, new_source
    { source, operations, owners, edges, operations_eq := hoperations, edges_eq := hedges,
      ordered := hordered }⟩

/-- A description that cannot be scheduled is rejected with one of two errors. -/
theorem new_of_not_schedulable (h : Describes source operations owners edges)
    (hschedule : ¬Schedulable owners edges) :
    new (.dict source) = .error "prerequisite conflicts with worker program order" ∨
    new (.dict source) = .error cyclicConstraints := by
  obtain ⟨records, hrecords, hread⟩ := h.records
  have hoperations : readOperations source = .ok (operations, owners) :=
    readOperations_eq_ok_iff.mpr ⟨h.listed, h.count, h.workers, h.assigned, h.owned⟩
  have hbind {result : Except String (List (Edge operations.length))}
      (hresult : readEdges operations.length owners [] records = result) :
      (readRecords source >>= readEdges operations.length owners []) = result := by
    rw [readRecords_eq_ok_iff.mpr hrecords]
    exact hresult
  by_cases hconflict : ∃ edge ∈ edges, edge.Conflicts owners
  · -- the loop over the records stops at the conflict
    have hedges := hbind (readEdges_of_conflicts hread h.distinct hconflict)
    refine .inl ?_
    rw [new]
    split
    next message h' => rw [hoperations] at h'; cases h'
    next operations' owners' h' =>
      cases hoperations.symm.trans h'
      split
      next message h' => rw [hedges] at h'; cases h'; rfl
      next edges' h' => rw [hedges] at h'; cases h'
  · -- the records are read, and the search finds a cycle
    have hnone : ∀ edge ∈ edges, ¬edge.Conflicts owners :=
      fun edge hedge hc => hconflict ⟨edge, hedge, hc⟩
    have hedges : (readRecords source >>= readEdges operations.length owners []) = .ok edges :=
      hbind ((readEdges_eq_ok_iff (by simp)).mpr ⟨edges, rfl, hread, h.distinct, hnone⟩)
    have hcycle : checkOrder owners edges = .error cyclicConstraints := by
      rcases @checkOrder_spec _ owners edges with ⟨-, hyes⟩ | ⟨hcycle, -⟩
      · exact absurd hyes hschedule
      · exact hcycle
    refine .inr ?_
    rw [new]
    split
    next message h' => rw [hoperations] at h'; cases h'
    next operations' owners' h' =>
      cases hoperations.symm.trans h'
      split
      next message h' => rw [hedges] at h'; cases h'
      next edges' h' =>
        cases hedges.symm.trans h'
        split
        next message h' => rw [hcycle] at h'; cases h'; rfl
        next h' => rw [hcycle] at h'; cases h'

/-- Construction accepts exactly the constraints that can be scheduled, and raises one of two errors
for the others. The records of the advisory kinds never matter: of two descriptions of the same
operations and owners with the same enforced prerequisites, both are accepted or neither. -/
theorem new_iff_schedulable (h : Describes source operations owners edges) :
    ((∃ w, new (.dict source) = .ok w) ↔ Schedulable owners edges) ∧
    (¬Schedulable owners edges →
      new (.dict source) = .error "prerequisite conflicts with worker program order" ∨
      new (.dict source) = .error cyclicConstraints) ∧
    ∀ (source' : List (String × Json)) (edges' : List (Edge operations.length)),
      Describes source' operations owners edges' →
      (∀ i j, j ∈ requiredBy edges i ↔ j ∈ requiredBy edges' i) →
      ((∃ w, new (.dict source) = .ok w) ↔ ∃ w, new (.dict source') = .ok w) := by
  have hiff {source : List (String × Json)} {edges : List (Edge operations.length)}
      (h : Describes source operations owners edges) :
      (∃ w, new (.dict source) = .ok w) ↔ Schedulable owners edges := by
    constructor
    · rintro ⟨w, hw⟩
      by_contra hno
      rcases new_of_not_schedulable h hno with herror | herror <;> rw [hw] at herror <;> cases herror
    · intro hschedule
      obtain ⟨_, _, _, hnew⟩ := exists_of_schedulable h hschedule
      exact ⟨_, hnew⟩
  -- a schedule of one description is one of the other
  have hrequired {edges edges' : List (Edge operations.length)}
      (hsame : ∀ i j, j ∈ requiredBy edges i ↔ j ∈ requiredBy edges' i)
      (hschedule : Schedulable owners edges) : Schedulable owners edges' := by
    obtain ⟨order, horder⟩ := hschedule
    refine ⟨order, horder.perm, horder.program, fun edge hedge hkind => ?_⟩
    obtain ⟨edge', hedge', hkind', hoperation, hrequires⟩ := mem_requiredBy.mp
      ((hsame _ _).mpr (mem_requiredBy.mpr ⟨edge, hedge, hkind, rfl, rfl⟩))
    rw [← hoperation, ← hrequires]
    exact horder.prerequisites edge' hedge' hkind'
  refine ⟨hiff h, new_of_not_schedulable h, fun source' edges' h' hsame => ?_⟩
  rw [hiff h, hiff h']
  exact ⟨hrequired hsame, hrequired fun i j => (hsame i j).symm⟩

/-- The records of a chain over two workers, and one that only advises. -/
def chainRecords : List (List (String × Json)) :=
  [[("operation", .int 1), ("requires", .int 0), ("kind", .str "HARD_STRUCTURAL")],
    [("operation", .int 2), ("requires", .int 1), ("kind", .str "CONTRACT_REQUIRED")],
    [("operation", .int 0), ("requires", .int 2), ("kind", .str "OPTIONAL_HEURISTIC")]]

/-- Three operations, each of which requires the one before. -/
def chainSource : List (String × Json) :=
  [("workers", .int 2), ("worker_ids", .list [.int 0, .int 1, .int 0]),
    ("operations", .list [.dict [("op", .str "put")], .dict [("op", .str "get")],
      .dict [("op", .str "delete")]]),
    ("dependencies", .list (chainRecords.map .dict))]

/-- The operations of the chain. -/
def chainOperations : List Json :=
  [.dict [("op", .str "put")], .dict [("op", .str "get")], .dict [("op", .str "delete")]]

/-- Its records. -/
def chainEdges : List (Edge 3) :=
  [⟨[("operation", .int 1), ("requires", .int 0), ("kind", .str "HARD_STRUCTURAL")], 1, 0,
      .hardStructural⟩,
    ⟨[("operation", .int 2), ("requires", .int 1), ("kind", .str "CONTRACT_REQUIRED")], 2, 1,
      .contractRequired⟩,
    ⟨[("operation", .int 0), ("requires", .int 2), ("kind", .str "OPTIONAL_HEURISTIC")], 0, 2,
      .optionalHeuristic⟩]

/-- The source describes them. -/
theorem describes_chain : Describes chainSource chainOperations [0, 1, 0] chainEdges where
  listed := rfl
  count := by decide
  workers := ⟨2, rfl, by decide, by decide, by decide⟩
  assigned := rfl
  owned := rfl
  records := ⟨_, rfl, rfl⟩
  distinct := by decide

/-- The chain is accepted just when it can be scheduled, and so is every workload that requires the
same. -/
theorem new_iff_schedulable_chain :
    ((∃ w, new (.dict chainSource) = .ok w) ↔ Schedulable [0, 1, 0] chainEdges) ∧
    (¬Schedulable [0, 1, 0] chainEdges →
      new (.dict chainSource) = .error "prerequisite conflicts with worker program order" ∨
      new (.dict chainSource) = .error cyclicConstraints) ∧
    ∀ (source' : List (String × Json)) (edges' : List (Edge chainOperations.length)),
      Describes source' chainOperations [0, 1, 0] edges' →
      (∀ i j, j ∈ requiredBy chainEdges i ↔ j ∈ requiredBy edges' i) →
      ((∃ w, new (.dict chainSource) = .ok w) ↔ ∃ w, new (.dict source') = .ok w) :=
  new_iff_schedulable describes_chain

end Workload

end Lab
