import KernelBridge.Lab.Concurrency
import KernelBridge.Lib.Closure
import Mathlib.Data.List.Dedup
import Mathlib.Data.List.Sort

/-!
# Workloads with dependencies

`Workload` of `lab/dradd.py`: the operations of a scenario, the worker each belongs to, and the
dependency records between them.

A record says that an operation requires another one. It constrains which operations may be
retained together (`Workload.valid`), never their schedule, and only the kinds of `REQUIRED` are
enforced. A candidate for reduction is a list of original indexes; `Workload.project` writes it as
a scenario of its own, which keeps the operations of every worker in their order
(`Workload.program_project`).
-/

namespace Lab

open Py

/-! ## Dependency records -/

/-- `KINDS`. -/
inductive Kind
  | hardStructural
  | contractRequired
  | conservativeInferred
  | optionalHeuristic
  deriving DecidableEq, Repr

/-- The kind with this name. -/
def Kind.ofName : String → Option Kind
  | "HARD_STRUCTURAL" => some .hardStructural
  | "CONTRACT_REQUIRED" => some .contractRequired
  | "CONSERVATIVE_INFERRED" => some .conservativeInferred
  | "OPTIONAL_HEURISTIC" => some .optionalHeuristic
  | _ => none

/-- `kind in REQUIRED`. -/
def Kind.required : Kind → Bool
  | .hardStructural | .contractRequired => true
  | .conservativeInferred | .optionalHeuristic => false

/-- A dependency record between two of `n` operations. -/
structure Edge (n : ℕ) where
  /-- The dict itself. -/
  record : List (String × Json)
  operation : Fin n
  requires : Fin n
  kind : Kind

/-- `(a, b, kind)`, by which records are told apart. -/
def Edge.key {n : ℕ} (edge : Edge n) : Fin n × Fin n × Kind :=
  (edge.operation, edge.requires, edge.kind)

/-- The checks on one record by itself. -/
def Edge.read (n : ℕ) : Json → Except String (Edge n)
  | .dict record =>
    if sameKeys record ["operation", "requires", "kind"] = false then
      .error "invalid dependency record"
    else
      match lookup "operation" record, lookup "requires" record, lookup "kind" record with
      | some (.int a), some (.int b), some (.str name) =>
        match Kind.ofName name with
        | some kind =>
          if h : (0 ≤ a ∧ a < n) ∧ (0 ≤ b ∧ b < n) ∧ a ≠ b then
            .ok ⟨record, ⟨a.toNat, by omega⟩, ⟨b.toNat, by omega⟩, kind⟩
          else .error "invalid dependency reference or kind"
        | none => .error "invalid dependency reference or kind"
      | _, _, _ => .error "invalid dependency reference or kind"
  | _ => .error "invalid dependency record"

/-- The loop over the records; `seen` are the records before. -/
def readEdges (n : ℕ) (owners : List ℕ) (seen : List (Edge n)) :
    List Json → Except String (List (Edge n))
  | [] => .ok seen
  | record :: records => do
    let edge ← Edge.read n record
    if edge.key ∈ seen.map Edge.key then .error "duplicate dependency"
    else if edge.kind.required = true ∧ owners[edge.operation]? = owners[edge.requires]? ∧
        edge.operation < edge.requires then
      .error "prerequisite conflicts with worker program order"
    else readEdges n owners (seen ++ [edge]) records

/-! ## Workloads -/

/-- The indexes that operation `i` requires by an enforced record. -/
def requiredBy {n : ℕ} (edges : List (Edge n)) (i : ℕ) : List ℕ :=
  (edges.filter fun edge => edge.kind.required && decide ((edge.operation : ℕ) = i)).map
    fun edge => (edge.requires : ℕ)

/-- The operation of the same worker before operation `i`. -/
def previous (owners : List ℕ) (i : ℕ) : Option ℕ :=
  ((List.range i).filter fun j => owners[j]? = owners[i]?).getLast?

/-- The required records and the program order of the workers. -/
def constraints {n : ℕ} (owners : List ℕ) (edges : List (Edge n)) (i : ℕ) : List ℕ :=
  requiredBy edges i ++ (previous owners i).toList

/-- The depth-first search for a cycle. `visiting` are the nodes on the way to `i`, and the result
is the set of the nodes that are done. The search is never deeper than there are nodes. -/
def visit (graph : ℕ → List ℕ) : ℕ → List ℕ → List ℕ → ℕ → Except String (List ℕ)
  | 0, _, _, _ => .error "maximum recursion depth exceeded"
  | fuel + 1, visiting, done, i =>
    -- a node on the way to itself
    if i ∈ visiting then .error "cyclic prerequisite/program-order constraints"
    else if i ∈ done then .ok done
    else do
      let done ← (graph i).foldlM (fun done parent => visit graph fuel (i :: visiting) done parent)
        done
      return i :: done

/-- The loop that visits every operation. -/
def checkOrder {n : ℕ} (owners : List ℕ) (edges : List (Edge n)) : Except String Unit := do
  let _ ← (List.range n).foldlM (visit (constraints owners edges) (n + 1) []) []

/-- The text of the first check. -/
def invalidOwnership : String := "expected 1..12 operations and explicit valid worker ownership"

/-- The operations and the owners, if there are 1..12 operations, each with an existing worker. -/
def readOperations (source : List (String × Json)) : Except String (List Json × List ℕ) :=
  match lookup "operations" source, lookup "workers" source, lookup "worker_ids" source with
  | some (.list operations), some (.int workers), some ids =>
    if (1 ≤ operations.length ∧ operations.length ≤ 12) ∧ (1 ≤ workers ∧ workers ≤ 4) then
      (checkAssignments invalidOwnership ids workers operations.length).map fun owners =>
        (operations, owners)
    else .error invalidOwnership
  | _, _, _ => .error invalidOwnership

/-- `value.get("dependencies", [])`. -/
def readRecords (source : List (String × Json)) : Except String (List Json) :=
  match lookup "dependencies" source with
  | none => .ok []
  | some (.list records) => .ok records
  | some _ => .error "dependencies must be a list"

/-- A scenario that `Workload.__init__` accepts. -/
structure Workload where
  source : List (String × Json)
  operations : List Json
  owners : List ℕ
  edges : List (Edge operations.length)
  operations_eq : readOperations source = .ok (operations, owners)
  edges_eq : (readRecords source >>= readEdges operations.length owners []) = .ok edges
  ordered : checkOrder owners edges = .ok ()

/-- `Workload(value)`. -/
def Workload.new : Json → Except String Workload
  | .dict source =>
    match operations_eq : readOperations source with
    | .error message => .error message
    | .ok (operations, owners) =>
      match edges_eq : readRecords source >>= readEdges operations.length owners [] with
      | .error message => .error message
      | .ok edges =>
        match ordered : checkOrder owners edges with
        | .error message => .error message
        | .ok () => .ok { source, operations, owners, edges, operations_eq, edges_eq, ordered }
  | value => .error (value.noAttribute "get")

namespace Workload

variable (w : Workload)

/-- The number of operations. -/
def size : ℕ := w.operations.length

/-- `self.ids`. -/
def ids : List ℕ := List.range w.size

/-- `self.source["operations"][i]`. -/
def operation (i : ℕ) : Json := w.operations.getD i .null

/-- `self.source["worker_ids"][i]`. -/
def owner (i : ℕ) : ℕ := w.owners.getD i 0

/-- `self.required[i]`. -/
def required (i : ℕ) : List ℕ := requiredBy w.edges i

/-- `tuple(sorted(set(keep)))`. -/
def sortedSet (keep : List ℕ) : List ℕ := keep.dedup.insertionSort (· ≤ ·)

/-- The indexes are a candidate: not empty, increasing, and with all that they require. -/
def valid (keep : List ℕ) : Bool :=
  !keep.isEmpty && decide (sortedSet keep = keep) && keep.all (· ∈ w.ids) &&
    keep.all fun i => (w.required i).all (· ∈ keep)

/-- Deletes the dependents of missing prerequisites. The loop needs at most one round for each
index. -/
def prune (keep : List ℕ) : List ℕ :=
  sortedSet ((Closure.prune w.required (keep.length + 1) keep.dedup).getD [])

/-- The records between retained operations, renumbered. -/
def renumbered (keep : List ℕ) : List Json :=
  w.edges.filterMap fun edge =>
    if (edge.operation : ℕ) ∈ keep ∧ (edge.requires : ℕ) ∈ keep then
      some (.dict (setEntry "requires" (.int (keep.idxOf (edge.requires : ℕ)))
        (setEntry "operation" (.int (keep.idxOf (edge.operation : ℕ))) edge.record)))
    else none

/-- The scenario of the retained operations. -/
def project (keep : List ℕ) : Json :=
  .dict (setEntry "dependencies" (.list (w.renumbered keep))
    (setEntry "original_ids" (.list (keep.map fun i : ℕ => Json.int i))
      (setEntry "worker_ids" (.list (keep.map fun i => Json.int (w.owner i)))
        (setEntry "operations" (.list (keep.map w.operation)) w.source))))

/-- `self.candidate(keep)`. -/
def candidate (keep : List ℕ) : Except String Json :=
  if w.valid keep then .ok (w.project keep)
  else .error "missing prerequisites or invalid candidate indexes"

/-! ## What construction has checked -/

variable {w}

/-- A workload is made of a dict. -/
theorem new_eq_ok {value : Json} (h : new value = .ok w) : value = .dict w.source := by
  unfold new at h
  split at h
  · split at h
    · cases h
    · split at h
      · cases h
      · split at h
        · cases h
        · cases h
          rfl
  · cases h

variable (w)

/-- What the check of the operations and of their owners says. -/
theorem readOperations_spec : lookup "operations" w.source = some (.list w.operations) ∧
    lookup "worker_ids" w.source = some (.list (w.owners.map fun v : ℕ => Json.int v)) ∧
    w.owners.length = w.size ∧ 1 ≤ w.size ∧ w.size ≤ 12 := by
  have h := w.operations_eq
  unfold readOperations at h
  split at h
  next operations workers ids hoperations _ hids =>
    split_ifs at h with hbounds
    cases hcheck : checkAssignments invalidOwnership ids workers operations.length with
    | error message =>
      rw [hcheck] at h
      cases h
    | ok owners =>
      rw [hcheck] at h
      obtain ⟨hoperations', howners⟩ := Prod.mk.inj (Except.ok.inj h)
      obtain ⟨hlist, hlength, -⟩ := checkAssignments_eq_ok_iff.mp hcheck
      rw [size, ← hoperations', ← howners]
      exact ⟨hoperations, hids.trans (congrArg some hlist), hlength, hbounds.1⟩
  next => cases h

/-- A workload has an operation. -/
theorem size_pos : 1 ≤ w.size := w.readOperations_spec.2.2.2.1

/-- A workload has twelve operations at the most. -/
theorem size_le : w.size ≤ 12 := w.readOperations_spec.2.2.2.2

/-- The indexes are those of the operations. -/
@[simp] theorem mem_ids {i : ℕ} : i ∈ w.ids ↔ i < w.size := List.mem_range

/-- There is an index for each operation. -/
@[simp] theorem length_ids : w.ids.length = w.size := List.length_range

/-- What the enforced records require of an operation. -/
theorem mem_required {i j : ℕ} : j ∈ w.required i ↔
    ∃ edge ∈ w.edges, edge.kind.required = true ∧ (edge.operation : ℕ) = i ∧ (edge.requires : ℕ) = j := by
  simp [required, requiredBy, and_assoc]

/-- The enforced records of the workload hold among the retained operations. -/
theorem closed_iff {keep : List ℕ} : Closure.Closed w.required keep ↔
    ∀ edge ∈ w.edges, edge.kind.required = true → (edge.operation : ℕ) ∈ keep →
      (edge.requires : ℕ) ∈ keep := by
  constructor
  · intro h edge hedge hkind hmem
    exact h _ hmem (w.mem_required.mpr ⟨edge, hedge, hkind, rfl, rfl⟩)
  · intro h i hi j hj
    obtain ⟨edge, hedge, hkind, rfl, rfl⟩ := w.mem_required.mp hj
    exact h edge hedge hkind hi

/-! ## Candidates -/

/-- The indexes are in order. -/
theorem pairwise_sortedSet (keep : List ℕ) : (sortedSet keep).Pairwise (· < ·) := by
  have hsorted := List.pairwise_insertionSort (· ≤ ·) keep.dedup
  have hnodup : (sortedSet keep).Nodup :=
    (List.perm_insertionSort (· ≤ ·) keep.dedup).nodup_iff.mpr keep.nodup_dedup
  exact hsorted.imp₂ (fun _ _ hle hne => lt_of_le_of_ne hle hne) hnodup

/-- No index is lost or added. -/
@[simp]
theorem mem_sortedSet {keep : List ℕ} {i : ℕ} : i ∈ sortedSet keep ↔ i ∈ keep := by
  rw [sortedSet, (List.perm_insertionSort (· ≤ ·) keep.dedup).mem_iff, List.mem_dedup]

/-- Indexes that are in order stay as they are. -/
theorem sortedSet_eq_self_iff {keep : List ℕ} :
    sortedSet keep = keep ↔ keep.Pairwise (· < ·) := by
  constructor
  · intro h
    rw [← h]
    exact pairwise_sortedSet keep
  · intro h
    have hnodup : keep.Nodup := h.imp fun hlt => hlt.ne
    rw [sortedSet, hnodup.dedup]
    exact (h.imp fun hlt => hlt.le).insertionSort_eq

/-- The candidates that are valid. -/
theorem valid_iff {keep : List ℕ} : w.valid keep = true ↔
    keep ≠ [] ∧ keep.Pairwise (· < ·) ∧ (∀ i ∈ keep, i < w.size) ∧
      Closure.Closed w.required keep := by
  simp only [valid, Bool.and_eq_true, Bool.not_eq_true', List.isEmpty_eq_false_iff,
    decide_eq_true_eq, sortedSet_eq_self_iff, List.all_eq_true, mem_ids, and_assoc,
    Closure.Closed, List.subset_def]

/-- The whole workload is a candidate. -/
theorem valid_ids : w.valid w.ids = true := by
  refine w.valid_iff.mpr ⟨?_, List.pairwise_lt_range, fun i hi => w.mem_ids.mp hi, ?_⟩
  · intro hnil
    have := w.size_pos
    rw [← w.length_ids, hnil] at this
    exact absurd this (by decide)
  · exact w.closed_iff.mpr fun edge _ _ _ => w.mem_ids.mpr edge.requires.isLt

/-- `prune` leaves the largest closed part, in order. -/
theorem prune_spec (keep : List ℕ) : (w.prune keep).Pairwise (· < ·) ∧ w.prune keep ⊆ keep ∧
    Closure.Closed w.required (w.prune keep) ∧
    ∀ part, Closure.Closed w.required part → part ⊆ keep → part ⊆ w.prune keep := by
  -- every round but the last deletes an index
  have hfuel : keep.dedup.length < keep.length + 1 :=
    Nat.lt_succ_of_le (List.dedup_sublist keep).length_le
  obtain ⟨kept, hrun, hsub, hclosed, hmax⟩ :
      ∃ kept, Closure.prune w.required (keep.length + 1) keep.dedup = some kept ∧
        kept.Sublist keep.dedup ∧ Closure.Closed w.required kept ∧
        ∀ part, Closure.Closed w.required part → part ⊆ keep.dedup → part ⊆ kept :=
    Closure.exists_prune hfuel
  rw [prune, hrun, Option.getD_some]
  refine ⟨pairwise_sortedSet kept, fun i hi => ?_, fun i hi j hj => ?_, fun part hpart hkeep i hi => ?_⟩
  · exact List.mem_dedup.mp (hsub.subset (mem_sortedSet.mp hi))
  · exact mem_sortedSet.mpr (hclosed i (mem_sortedSet.mp hi) hj)
  · exact mem_sortedSet.mpr (hmax part hpart (fun j hj => List.mem_dedup.mpr (hkeep hj)) hi)

/-- A candidate that is valid can be made. -/
theorem candidate_eq_ok {keep : List ℕ} (h : w.valid keep = true) :
    w.candidate keep = .ok (w.project keep) := if_pos h

/-- Increasing lists of indexes are ordered alike. -/
theorem sublist_of_subset {keep keep' : List ℕ} (h : keep.Pairwise (· < ·))
    (h' : keep'.Pairwise (· < ·)) (hsub : keep ⊆ keep') : keep.Sublist keep' :=
  List.sublist_of_subperm_of_pairwise (List.subperm_of_subset (h.imp fun hlt => hlt.ne) hsub) h h'

/-- A valid candidate is a part of the workload, in its order. -/
theorem sublist_ids {keep : List ℕ} (h : w.valid keep = true) : keep.Sublist w.ids := by
  obtain ⟨-, hsorted, hlt, -⟩ := w.valid_iff.mp h
  exact sublist_of_subset hsorted List.pairwise_lt_range fun i hi => w.mem_ids.mpr (hlt i hi)

/-! ## Programs of the workers -/

end Workload

/-- `workload["worker_ids"]`. -/
def ownersOf (workload : Json) : List Json :=
  match workload.get? "worker_ids" with
  | some (.list elems) => elems
  | _ => []

/-- The operations of worker `v`, in order. -/
def program (workload : Json) (v : ℕ) : List Json :=
  ((operationsOf workload).zip (ownersOf workload)).filterMap fun p =>
    if p.2.eq (.int v) then some p.1 else none

namespace Workload

variable (w : Workload)

/-- A list, element by element. -/
theorem map_getD_range {α : Type*} (l : List α) (d : α) :
    (List.range l.length).map (fun i => l.getD i d) = l :=
  List.ext_getElem (by simp) fun i _ h => by simp [h]

/-- All operations, in their order. -/
theorem map_operation_ids : w.ids.map w.operation = w.operations := map_getD_range _ _

/-- All owners, in the order of the operations. -/
theorem map_owner_ids : w.ids.map w.owner = w.owners := by
  rw [ids, ← w.readOperations_spec.2.2.1]
  exact map_getD_range _ _

/-- The operations of a projection. -/
theorem operationsOf_project (keep : List ℕ) :
    operationsOf (w.project keep) = keep.map w.operation := by
  simp [operationsOf, project, Json.get?]

/-- The owners of the operations of a projection. -/
theorem ownersOf_project (keep : List ℕ) :
    ownersOf (w.project keep) = keep.map fun i => Json.int (w.owner i) := by
  simp [ownersOf, project, Json.get?]

/-- The program of a worker in a projection: its operations among those retained. -/
theorem program_project (keep : List ℕ) (v : ℕ) : program (w.project keep) v =
    (keep.filter fun i => decide (w.owner i = v)).map w.operation := by
  rw [program, operationsOf_project, ownersOf_project, List.zip_map']
  induction keep with
  | nil => rfl
  | cons i keep ih =>
    rw [List.map_cons, List.filterMap_cons, List.filter_cons, ih]
    by_cases hv : w.owner i = v <;> simp [hv]

/-- The projection on all indexes has the programs of the source. -/
theorem program_source (v : ℕ) : program (.dict w.source) v = program (w.project w.ids) v := by
  obtain ⟨hoperations, howners, -⟩ := w.readOperations_spec
  -- the owners of all indexes are the owners of the source
  have howners' : (w.ids.map fun i => Json.int (w.owner i)) =
      w.owners.map fun v : ℕ => Json.int v := by
    rw [← w.map_owner_ids, List.map_map]
    rfl
  rw [program, program, operationsOf_project, ownersOf_project, howners', map_operation_ids]
  simp [operationsOf, ownersOf, Json.get?, hoperations, howners]

/-- A projection keeps the operations of every worker in their order. -/
theorem program_sublist {keep : List ℕ} (h : w.valid keep = true) (v : ℕ) :
    (program (w.project keep) v).Sublist (program (.dict w.source) v) := by
  rw [program_source, program_project, program_project]
  exact ((w.sublist_ids h).filter _).map _

end Workload

end Lab
