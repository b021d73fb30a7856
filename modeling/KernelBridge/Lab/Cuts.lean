import KernelBridge.Lab.Embeddings

/-!
# Quiescent cuts of a history

A cut retains some events of a history, so that each of them has finished before any other starts.
The retained events, with new indexes, are a history again (`Cut.part`). An explanation of the whole
begins with the retained events, so it explains the part (`Cut.linearizable_part`). The search tree
of the part is contained in that of the whole, so a budget that refutes the whole decides the part
(`Cut.check_part_of_fail`); and if the part keeps the order of the recording, a budget under which
the whole passes is enough for the part (`Cut.check_part_of_pass`).

Main result: `checkHistory_quiescent_cut`.
-/

namespace Lab

open Py Backtrack

/-! ## Reading a history -/

/-- The event is read from the dict `j`, with the operation as validated. -/
def Event.Reads (e : Event Op) (j : Json) : Prop :=
  ∃ raw : Event Json, ∃ op, raw.ReadFrom j ∧ validateOp raw.operation = .ok op ∧
    raw.withOperation op = e

/-- If no worker has two events of one sequence number, no two events share both. -/
theorem nodup_worker_sequence {α : Type} {events : List (Event α)}
    (h : ∀ w, (sequencesOf w events).Nodup) :
    (events.map fun e => (e.worker, e.sequence)).Nodup := by
  induction events with
  | nil => simp
  | cons e events ih =>
    refine List.nodup_cons.mpr ⟨fun hmem => ?_, ih fun w => ?_⟩
    · obtain ⟨e', he', heq⟩ := List.mem_map.mp hmem
      obtain ⟨hworker, hsequence⟩ := Prod.mk.inj heq
      have hfirst := h e.worker
      rw [sequencesOf, List.filter_cons_of_pos (by simp), List.map_cons] at hfirst
      refine (List.nodup_cons.mp hfirst).1 (hsequence ▸ List.mem_map_of_mem ?_)
      exact List.mem_filter.mpr ⟨he', by simpa using hworker⟩
    · exact (h w).sublist (((List.sublist_cons_self e events).filter _).map _)

namespace History

variable {h : History}

/-- The sequence numbers of a worker are those below their number. -/
theorem sequencesOf_perm (h : History) (w : ℕ) :
    (sequencesOf w h.events).Perm (List.range (sequencesOf w h.events).length) := by
  by_cases hw : ∃ e ∈ h.events, e.worker = w
  · obtain ⟨e, he, rfl⟩ := hw
    have hsort := h.sequences e he
    exact (List.perm_insertionSort (· ≤ ·) _).symm.trans (hsort ▸ .refl _)
  · -- a worker without an event has no numbers
    have hnil : sequencesOf w h.events = [] := by
      rw [sequencesOf, List.map_eq_nil_iff, List.filter_eq_nil_iff]
      exact fun e he heq => hw ⟨e, he, by simpa using heq⟩
    simp [hnil]

/-- The sequence numbers of a worker are different. -/
theorem sequencesOf_nodup (h : History) (w : ℕ) : (sequencesOf w h.events).Nodup :=
  (h.sequencesOf_perm w).nodup_iff.mpr List.nodup_range

/-- No two events share a worker and a sequence number. -/
theorem worker_sequence_nodup (h : History) :
    (h.events.map fun e => (e.worker, e.sequence)).Nodup :=
  nodup_worker_sequence h.sequencesOf_nodup

/-- Every index is in use. -/
theorem exists_index (h : History) {i : ℕ} (hi : i < h.events.length) :
    ∃ e ∈ h.events, e.index = i := by
  -- as many different indexes as events, all below their number
  have hperm : (h.events.map Event.index).Perm (List.range h.events.length) := by
    refine (List.subperm_of_subset h.index_nodup fun k hk => ?_).perm_of_length_le (by simp)
    obtain ⟨e, he, rfl⟩ := List.mem_map.mp hk
    exact List.mem_range.mpr (h.index_lt e he)
  exact List.mem_map.mp (hperm.mem_iff.mpr (List.mem_range.mpr hi))

end History

/-- With their operations validated, the events are what the recording says. -/
theorem forall₂_reads {raws : List (Event Json)} {ops : List Op} {history : List Json}
    (hread : List.Forall₂ Event.ReadFrom raws history)
    (hops : (raws.map Event.operation).mapM validateOp = .ok ops) :
    List.Forall₂ Event.Reads (withOperations raws ops) history := by
  rw [mapM_eq_ok_iff, List.forall₂_map_left_iff] at hops
  induction hread generalizing ops with
  | nil => exact .nil
  | cons hraw hread ih =>
    obtain ⟨op, ops, hop, hrest, rfl⟩ := List.forall₂_cons_left_iff.mp hops
    exact .cons ⟨_, op, hraw, hop, rfl⟩ (ih hrest)

/-- The events of a recording before their operations are validated. -/
theorem exists_raws {events : List (Event Op)} {history : List Json}
    (hreads : List.Forall₂ Event.Reads events history) : ∃ raws : List (Event Json),
      List.Forall₂ Event.ReadFrom raws history ∧
      (raws.map Event.operation).mapM validateOp = .ok (events.map Event.operation) ∧
      withOperations raws (events.map Event.operation) = events := by
  induction hreads with
  | nil => exact ⟨[], .nil, rfl, rfl⟩
  | @cons e j events history hread _ ih =>
    obtain ⟨raw, op, hraw, hop, rfl⟩ := hread
    obtain ⟨raws, hraws, hops, hevents⟩ := ih
    refine ⟨raw :: raws, .cons hraw hraws, ?_, ?_⟩
    · rw [mapM_eq_ok_iff] at hops ⊢
      exact .cons hop hops
    · rw [List.map_cons, withOperations, List.zipWith_cons_cons, ← withOperations, hevents]
      rfl

/-- The history is the one that is read from these dicts. What else `check_history` checks are the
fields of the history. -/
theorem accept_iff_reads {capacity : Json} {history : List Json} {h : History} :
    accept capacity history = .ok (some h) ↔ capacity = .int h.capacity ∧
      List.Forall₂ Event.Reads h.events history ∧
      1 ≤ history.length ∧ history.length ≤ maxOperations := by
  rw [accept_eq_some_iff]
  constructor
  · rintro ⟨raws, scenario, hraws, -, -, hvalid, hcapacity, hevents⟩
    obtain ⟨hcap, hops⟩ := validate_historyScenario_iff.mp hvalid
    obtain ⟨hread, -⟩ := checkEvents_nil_iff.mp hraws
    have hlen := (mapM_validateOp hops).1
    have hpos := scenario.operations_pos
    have hle := scenario.operations_le
    rw [List.length_map, hread.length_eq] at hlen
    exact ⟨hcapacity ▸ hcap, hevents ▸ forall₂_reads hread hops, by omega, by omega⟩
  · rintro ⟨hcapacity, hreads, hpos, hle⟩
    obtain ⟨raws, hraws, hops, hevents⟩ := exists_raws hreads
    have hlen : h.events.length = history.length := hreads.length_eq
    have hlen' : (h.events.map Event.operation).length = raws.length := by
      rw [(mapM_validateOp hops).1, List.length_map]
    -- the fields that the checks read are those of the events of the history
    have hmap {β : Type} {f : Event Op → β} {g : Event Json → β}
        (hfg : ∀ e op, f (Event.withOperation e op) = g e) : raws.map g = h.events.map f := by
      rw [← map_withOperations hlen' hfg, hevents]
    have hsequences (w : ℕ) : sequencesOf w raws = sequencesOf w h.events := by
      rw [← sequencesOf_withOperations hlen' w, hevents]
    have hmem {raw : Event Json} (hraw : raw ∈ raws) :
        ∃ e ∈ h.events, e.index = raw.index ∧ e.worker = raw.worker ∧
          e.started = raw.started ∧ e.finished = raw.finished := by
      have := List.mem_map_of_mem (f := fun e : Event Json =>
        (e.index, e.worker, e.started, e.finished)) hraw
      rw [hmap (f := fun e : Event Op => (e.index, e.worker, e.started, e.finished))
        fun _ _ => rfl] at this
      obtain ⟨e, he, heq⟩ := List.mem_map.mp this
      simp only [Prod.mk.injEq] at heq
      exact ⟨e, he, heq⟩
    refine ⟨raws,
      { capacity := h.capacity
        operations := h.events.map Event.operation
        minCapacity_le := h.minCapacity_le
        le_maxCapacity := h.le_maxCapacity
        operations_valid := (mapM_validateOp hops).2
        operations_pos := by rw [List.length_map]; omega
        operations_le := by rw [List.length_map]; omega },
      checkEvents_nil_iff.mpr ⟨hraws, ?_, ?_, ?_⟩, ⟨?_, ?_⟩, ?_,
      validate_historyScenario_iff.mpr ⟨hcapacity, hops⟩, rfl, hevents.symm⟩
    · intro raw hraw
      obtain ⟨e, he, -, -, hstarted, hfinished⟩ := hmem hraw
      exact hstarted ▸ hfinished ▸ h.started_le e he
    · rw [hmap (f := Event.index) fun _ _ => rfl]
      exact h.index_nodup
    · rw [hmap (f := fun e => (e.worker, e.sequence)) fun _ _ => rfl]
      exact h.worker_sequence_nodup
    · intro raw hraw
      obtain ⟨e, he, hindex, -⟩ := hmem hraw
      exact hindex ▸ hlen ▸ h.index_lt e he
    · intro i hi
      obtain ⟨e, he, rfl⟩ := h.exists_index (hlen ▸ hi)
      have := List.mem_map_of_mem (f := fun e : Event Op => e.index) he
      rw [← hmap (g := fun e : Event Json => e.index) fun _ _ => rfl] at this
      exact List.mem_map.mp this
    · intro raw hraw
      obtain ⟨e, he, -, hworker, -⟩ := hmem hraw
      rw [hsequences, ← hworker]
      exact h.sequences e he

/-! ## Cuts -/

/-- The events can be put in an order that is legal for the reference model. -/
def Linearizable (capacity : ℕ) (events : List (Event Op)) : Prop :=
  ∃ es, es.Perm events ∧ es.Pairwise (fun a b => b.precedes a = false) ∧
    Replays (.new capacity) es

/-- A replay does not look at the indexes. -/
theorem replays_map_unindexed {model : ReferenceModel} {es : List (Event Op)} :
    Replays model (es.map Event.unindexed) ↔ Replays model es := by
  induction es generalizing model with
  | nil => exact Iff.rfl
  | cons e es ih => exact and_congr_right fun _ => ih

/-- Neither does the existence of an explanation. -/
theorem linearizable_map_unindexed {capacity : ℕ} {events : List (Event Op)} :
    Linearizable capacity (events.map Event.unindexed) ↔ Linearizable capacity events := by
  constructor
  · rintro ⟨es, hperm, hordered, hreplays⟩
    obtain ⟨es', rfl, hperm'⟩ := (congrFun₂ (List.eq_map_comp_perm Event.unindexed) _ _).mpr hperm
    exact ⟨es', hperm', List.pairwise_map.mp hordered, replays_map_unindexed.mp hreplays⟩
  · rintro ⟨es, hperm, hordered, hreplays⟩
    exact ⟨es.map Event.unindexed, hperm.map _, List.pairwise_map.mpr hordered,
      replays_map_unindexed.mpr hreplays⟩

/-- The order in which the events were recorded does not matter for it. -/
theorem Linearizable.of_perm {capacity : ℕ} {events events' : List (Event Op)}
    (hperm : events.Perm events') (h : Linearizable capacity events) :
    Linearizable capacity events' := by
  obtain ⟨es, hes, hlegal⟩ := h
  exact ⟨es, hes.trans hperm, hlegal⟩

/-- The first part of a replay is a replay. -/
theorem replays_of_append {model : ReferenceModel} {es es' : List (Event Op)}
    (h : Replays model (es ++ es')) : Replays model es := by
  induction es generalizing model with
  | nil => trivial
  | cons e es ih => exact ⟨h.1, ih h.2⟩

/-- Numbers without gaps from zero, in order. -/
theorem insertionSort_eq_range {l : List ℕ} (hnodup : l.Nodup)
    (hdown : ∀ k ∈ l, ∀ j < k, j ∈ l) : l.insertionSort (· ≤ ·) = List.range l.length := by
  have hlt : ∀ k ∈ l, k < l.length := by
    intro k hk
    -- the numbers up to `k` are all there
    have hsub : (List.range (k + 1)).Subperm l := by
      refine List.subperm_of_subset List.nodup_range fun j hj => ?_
      rcases Nat.lt_succ_iff_lt_or_eq.mp (List.mem_range.mp hj) with hlt | rfl
      · exact hdown k hk j hlt
      · exact hk
    have hlen := hsub.length_le
    rw [List.length_range] at hlen
    exact hlen
  have hperm : l.Perm (List.range l.length) :=
    (List.subperm_of_subset hnodup fun k hk => List.mem_range.mpr (hlt k hk)).perm_of_length_le
      (by simp)
  exact ((List.perm_insertionSort _ l).trans hperm).eq_of_pairwise
    (fun a b _ _ hab hba => le_antisymm hab hba) (List.pairwise_insertionSort _ l)
    List.pairwise_le_range

namespace History

/-- A quiescent cut: the positions of the retained events, each of which has finished before any of
the others starts. -/
structure Cut (h : History) where
  positions : List (Fin h.events.length)
  nodup : positions.Nodup
  quiet : ∀ i ∈ positions, ∀ j ∉ positions, (h.events.get i).finished < (h.events.get j).started

/-- The witnesses of the search are the explanations. -/
theorem exists_witness_iff (h : History) :
    (∃ order, h.IsWitness order) ↔ Linearizable h.capacity h.events := by
  constructor
  · rintro ⟨-, es, hperm, -, hlegal⟩
    exact ⟨es, hperm, hlegal⟩
  · rintro ⟨es, hperm, hlegal⟩
    exact ⟨_, es, hperm, rfl, hlegal⟩

namespace Cut

variable {h : History} (c : h.Cut)

/-- The retained events, with their places as indexes. -/
def events : List (Event Op) :=
  (h.select c.positions).mapIdx fun index e => { e with index }

/-- There is an event for each position. -/
theorem length_events : c.events.length = c.positions.length := by
  simp [events, select]

/-- But for their indexes, these are the events at the positions. -/
theorem map_unindexed_events :
    c.events.map Event.unindexed = (h.select c.positions).map Event.unindexed := by
  refine List.ext_getElem (by simp [events]) fun k _ _ => ?_
  simp [events, Event.unindexed]

/-- A dropped event does not come before a retained one. -/
theorem mem_of_precedes {i j : Fin h.events.length} (hi : i ∈ c.positions)
    (hprec : (h.events.get j).precedes (h.events.get i) = true) : j ∈ c.positions := by
  by_contra hj
  have hquiet := c.quiet i hi j hj
  have hi' := h.started_le _ (List.getElem_mem i.isLt)
  have hj' := h.started_le _ (List.getElem_mem j.isLt)
  -- it would have to start before it has finished
  rcases Bool.or_eq_true_iff.mp hprec with hfinished | hsame
  · have := of_decide_eq_true hfinished
    simp only [List.get_eq_getElem] at *
    omega
  · have := h.separate _ (List.getElem_mem i.isLt) _ (List.getElem_mem j.isLt) hsame
    simp only [List.get_eq_getElem] at *
    omega

/-- A retained event is one of the history, but for its index. -/
theorem exists_position {e : Event Op} (he : e ∈ c.events) :
    ∃ i ∈ c.positions, ∃ index, e = { h.events.get i with index } := by
  obtain ⟨k, hk, rfl⟩ := List.getElem_of_mem he
  rw [length_events] at hk
  exact ⟨c.positions[k], List.getElem_mem hk, k, by simp [events, select]⟩

/-- The new indexes do not change the sequences of the workers. -/
theorem sequencesOf_events (w : ℕ) :
    sequencesOf w c.events = sequencesOf w (h.select c.positions) := by
  have hunindexed (es : List (Event Op)) :
      sequencesOf w (es.map Event.unindexed) = sequencesOf w es := by
    rw [sequencesOf, List.filter_map, List.map_map]
    rfl
  rw [← hunindexed, map_unindexed_events, hunindexed]

/-- The retained events of a worker are the first ones of its sequence. -/
theorem insertionSort_sequencesOf (w : ℕ) : (sequencesOf w c.events).insertionSort (· ≤ ·) =
    List.range (sequencesOf w c.events).length := by
  rw [sequencesOf_events]
  have hmem {k : ℕ} : k ∈ sequencesOf w (h.select c.positions) ↔
      ∃ i ∈ c.positions, (h.events.get i).worker = w ∧ (h.events.get i).sequence = k := by
    simp [sequencesOf, select, and_assoc]
  refine insertionSort_eq_range ?_ fun k hk j hjk => ?_
  · -- the positions are different, so the numbers are those of different events
    obtain ⟨is, hperm, hsub⟩ : c.positions.Subperm (List.finRange _) :=
      List.subperm_of_subset c.nodup fun i _ => List.mem_finRange i
    have hes : (h.select is).Sublist h.events := select_finRange (h := h) ▸ hsub.map _
    have hnodup := (h.sequencesOf_nodup w).sublist ((hes.filter _).map _)
    exact (((hperm.map _).filter _).map _).nodup_iff.mp hnodup
  · obtain ⟨i, hi, hworker, rfl⟩ := hmem.mp hk
    -- an earlier call of the worker is recorded, and it comes before
    have hrange := h.sequencesOf_perm w
    have hi' : (h.events.get i).sequence ∈ sequencesOf w h.events :=
      List.mem_map_of_mem (List.mem_filter.mpr ⟨List.getElem_mem i.isLt, by simpa using hworker⟩)
    have hlt := List.mem_range.mp (hrange.mem_iff.mp hi')
    have hj : j ∈ sequencesOf w h.events := hrange.mem_iff.mpr (List.mem_range.mpr (hjk.trans hlt))
    obtain ⟨e, he, rfl⟩ := List.mem_map.mp hj
    obtain ⟨he, hew⟩ := List.mem_filter.mp he
    obtain ⟨p, hp, rfl⟩ := List.getElem_of_mem he
    have hew : h.events[p].worker = w := of_decide_eq_true hew
    refine hmem.mpr ⟨⟨p, hp⟩, c.mem_of_precedes hi ?_, hew, rfl⟩
    have hsame : h.events[p].sameWorkerBefore (h.events.get i) = true :=
      decide_eq_true ⟨hworker.trans hew.symm, hjk⟩
    exact Bool.or_eq_true_iff.mpr (.inr hsame)

/-- The retained events as a history of their own. -/
def part : History where
  capacity := h.capacity
  events := c.events
  minCapacity_le := h.minCapacity_le
  le_maxCapacity := h.le_maxCapacity
  operations_valid e he := by
    obtain ⟨i, -, index, rfl⟩ := c.exists_position he
    exact h.operations_valid (h.events.get i) (List.getElem_mem i.isLt)
  started_le e he := by
    obtain ⟨i, -, index, rfl⟩ := c.exists_position he
    exact h.started_le (h.events.get i) (List.getElem_mem i.isLt)
  index_nodup := by
    rw [show c.events.map Event.index = List.range c.events.length from
      List.ext_getElem (by simp) fun k _ _ => by simp [events]]
    exact List.nodup_range
  index_lt e he := by
    obtain ⟨k, hk, rfl⟩ := List.getElem_of_mem he
    simpa [events] using hk
  sequences e _ := c.insertionSort_sequencesOf e.worker
  separate e he other hother hsame := by
    obtain ⟨i, -, index, rfl⟩ := c.exists_position he
    obtain ⟨j, -, index', rfl⟩ := c.exists_position hother
    exact h.separate (h.events.get i) (List.getElem_mem i.isLt) (h.events.get j)
      (List.getElem_mem j.isLt) hsame

/-! ## Explanations of the part -/

/-- The part has an explanation if and only if the retained events have one. -/
theorem linearizable_part_iff : Linearizable c.part.capacity c.part.events ↔
    Linearizable h.capacity (h.select c.positions) := by
  rw [← linearizable_map_unindexed, show c.part.events = c.events from rfl, map_unindexed_events,
    linearizable_map_unindexed]
  rfl

/-- In an order in which what is kept is never after what is not, it comes first. -/
theorem eq_filter_append {α : Type*} {p : α → Bool} {l : List α}
    (h : l.Pairwise fun a b => p b = true → p a = true) :
    l = l.filter p ++ l.filter fun a => !p a := by
  induction l with
  | nil => rfl
  | cons a l ih =>
    obtain ⟨hfirst, hrest⟩ := List.pairwise_cons.mp h
    cases ha : p a with
    | true =>
      rw [List.filter_cons_of_pos ha, List.filter_cons_of_neg (by simp [ha]), List.cons_append]
      exact congrArg (a :: ·) (ih hrest)
    | false =>
      -- then nothing after it is kept either
      have hnone : ∀ b ∈ l, p b = false := fun b hb => by
        by_contra hp
        rw [hfirst b hb (by simpa using hp)] at ha
        cases ha
      rw [List.filter_cons_of_neg (by simp [ha]), List.filter_cons_of_pos (by simp [ha]),
        List.filter_eq_nil_iff.mpr fun b hb => by simp [hnone b hb],
        List.filter_eq_self.mpr fun b hb => by simp [hnone b hb]]
      rfl

/-- An explanation of the whole begins with the retained events, and explains them. -/
theorem linearizable_part (hwhole : Linearizable h.capacity h.events) :
    Linearizable c.part.capacity c.part.events := by
  obtain ⟨es, hperm, hordered, hreplays⟩ := hwhole
  obtain ⟨is, his, rfl⟩ := perm_events_iff.mp hperm
  have hsplit : is = is.filter (· ∈ c.positions) ++ is.filter fun i => !decide (i ∈ c.positions) := by
    refine eq_filter_append ((List.pairwise_map.mp hordered).imp fun {i j} hij hj => ?_)
    rw [decide_eq_true_eq] at hj ⊢
    by_contra hi
    -- a retained event has finished before the dropped one starts, so it does not come later
    have hprec : (h.events.get j).precedes (h.events.get i) = true :=
      Bool.or_eq_true_iff.mpr (.inl (decide_eq_true (c.quiet j hj i hi)))
    rw [hprec] at hij
    cases hij
  have hretained : (is.filter (· ∈ c.positions)).Perm c.positions := by
    refine (List.perm_ext_iff_of_nodup ?_ c.nodup).mpr fun i => ?_
    · exact (his.nodup_iff.mpr (List.nodup_finRange _)).filter _
    · simp [his.mem_iff]
  rw [linearizable_part_iff]
  refine ⟨h.select (is.filter (· ∈ c.positions)), hretained.map _, ?_, ?_⟩
  · exact hordered.sublist (List.filter_sublist.map _)
  · -- the retained events are replayed first, on a new model
    rw [hsplit, select, List.map_append] at hreplays
    exact replays_of_append hreplays

/-- If nothing is dropped, the part has an explanation just when the whole has one. -/
theorem linearizable_part_iff_of_forall (hall : ∀ i, i ∈ c.positions) :
    Linearizable c.part.capacity c.part.events ↔ Linearizable h.capacity h.events := by
  refine ⟨fun hpart => (linearizable_part_iff c).mp hpart |>.of_perm ?_, c.linearizable_part⟩
  refine perm_events_iff.mpr ⟨c.positions, ?_, rfl⟩
  exact (List.perm_ext_iff_of_nodup c.nodup (List.nodup_finRange _)).mpr fun i => by simp [hall]

/-! ## The search of the part -/

/-- The position in the whole of an event of the part. -/
def position (k : Fin c.part.events.length) : Fin h.events.length :=
  c.positions.get ⟨k, c.length_events ▸ k.isLt⟩

/-- The events of the part are retained. -/
theorem position_mem (k : Fin c.part.events.length) : c.position k ∈ c.positions :=
  List.get_mem _ _

/-- Different events of the part are at different positions. -/
theorem position_injective : Function.Injective c.position := by
  intro j k hjk
  exact Fin.ext (Fin.mk.inj_iff.mp (List.nodup_iff_injective_get.mp c.nodup hjk))

/-- Every retained position is that of an event of the part. -/
theorem exists_position_eq {i : Fin h.events.length} (hi : i ∈ c.positions) :
    ∃ k, c.position k = i := by
  obtain ⟨k, rfl⟩ := List.get_of_mem hi
  exact ⟨⟨k, c.length_events.symm ▸ k.isLt⟩, rfl⟩

/-- The positions of the events of the part are those that are retained. -/
theorem map_position : (List.finRange _).map c.position = c.positions := by
  refine List.ext_getElem (by simp [show c.part.events = c.events from rfl, length_events])
    fun k _ _ => ?_
  simp [position]

/-- An event of the part is that of the whole, with a new index. -/
theorem part_event (k : Fin c.part.events.length) :
    c.part.events.get k = { h.events.get (c.position k) with index := k } := by
  have hk : (k : ℕ) < c.events.length := k.isLt
  show c.events[(k : ℕ)] = _
  simp only [events, List.getElem_mapIdx, select, List.getElem_map]
  rfl

/-- The part, inside the whole. -/
def embedding : Embedding c.part h where
  position := c.position
  injective := c.position_injective
  capacity_eq := rfl
  unindexed_eq k := by
    rw [part_event]
    rfl
  closed j k hprec := c.exists_position_eq (c.mem_of_precedes (c.position_mem k) hprec)

variable {c} {s : SearchState c.part.events.length} {t : SearchState h.events.length}

/-- The search of the part is where that of the whole is: the same retained events are placed, and
the models agree. -/
def Follows (s : SearchState c.part.events.length) (t : SearchState h.events.length) : Prop :=
  (∀ k, placed s.mask k = placed t.mask (c.position k)) ∧ s.model = t.model

/-- The searches start at the same place. -/
theorem follows_start : Follows c.part.start h.start := c.embedding.follows_start

/-- When the search of the whole is complete, so is that of the part. -/
theorem Follows.complete (hst : Follows s t) (ht : h.problem.complete t = true) :
    c.part.problem.complete s = true :=
  Embedding.Follows.complete (c := c.embedding) hst ht

/-- The same events are eligible in both searches. -/
theorem Follows.eligible_iff (hst : Follows s t) (k : Fin c.part.events.length) :
    c.part.problem.eligible s k = true ↔ h.problem.eligible t (c.position k) = true :=
  Embedding.Follows.eligible_iff (c := c.embedding) hst k

/-- No dropped event is eligible before all retained ones are placed. -/
theorem Follows.mem_of_eligible (hst : Follows s t) (hs : c.part.problem.complete s = false)
    {j : Fin h.events.length} (hj : h.problem.eligible t j = true) : j ∈ c.positions := by
  by_contra hdropped
  obtain ⟨k, hk⟩ : ∃ k, placed s.mask k = false := by
    by_contra hall
    rw [complete_iff.mpr fun k => by simpa using fun hk => hall ⟨k, hk⟩] at hs
    cases hs
  -- the retained event that is missing has finished before `j` starts
  have hprec : (h.events.get (c.position k)).precedes (h.events.get j) = true :=
    Bool.or_eq_true_iff.mpr (.inl (decide_eq_true (c.quiet _ (c.position_mem k) j hdropped)))
  have hne : j ≠ c.position k := fun hjk => hdropped (hjk ▸ c.position_mem k)
  have hplaced := (History.eligible_iff.mp hj).2 _ hne hprec
  rw [← hst.1, hk] at hplaced
  cases hplaced

/-- Placing an event keeps the searches together. -/
theorem Follows.advance (hst : Follows s t) (k : Fin c.part.events.length) :
    Option.Rel Follows (c.part.problem.advance s k) (h.problem.advance t (c.position k)) :=
  Embedding.Follows.advance (c := c.embedding) hst k

/-- Where a position is in the part. -/
def placeOf (c : h.Cut) (j : Fin h.events.length) : Option (Fin c.part.events.length) :=
  (List.finRange _).find? fun k => c.position k = j

/-- The place of a position is the event of the part that is there. -/
theorem placeOf_eq_some_iff {j : Fin h.events.length} {k : Fin c.part.events.length} :
    c.placeOf j = some k ↔ c.position k = j := by
  constructor
  · intro hj
    simpa using List.find?_some hj
  · rintro rfl
    cases hfind : c.placeOf (c.position k) with
    | none => simpa using List.find?_eq_none.mp hfind k (List.mem_finRange k)
    | some k' =>
      have hk' : c.position k' = c.position k := by simpa using List.find?_some hfind
      rw [c.position_injective hk']

/-- If the positions are in order, so are their places. -/
theorem filterMap_placeOf (c : h.Cut) (hsorted : c.positions.Pairwise (· < ·)) :
    (List.finRange _).filterMap c.placeOf = List.finRange _ := by
  refine List.map_injective_iff.mpr c.position_injective ?_
  -- from place to position and back is the test whether the position is retained
  have hplace : (fun j => (c.placeOf j).map c.position) =
      Option.guard fun j => decide (j ∈ c.positions) := by
    funext j
    by_cases hj : j ∈ c.positions
    · obtain ⟨k, rfl⟩ := c.exists_position_eq hj
      rw [placeOf_eq_some_iff.mpr rfl]
      simp [Option.guard, hj]
    · cases hk : c.placeOf j with
      | none => simp [Option.guard, hj]
      | some k => exact absurd (placeOf_eq_some_iff.mp hk ▸ c.position_mem k) hj
  rw [List.map_filterMap, hplace, List.filterMap_eq_filter, map_position]
  -- both lists are sorted
  have hperm : ((List.finRange h.events.length).filter (· ∈ c.positions)).Perm c.positions :=
    (List.perm_ext_iff_of_nodup ((List.nodup_finRange _).filter _) c.nodup).mpr (by simp)
  exact hperm.eq_of_pairwise (fun i j _ _ hij hji => absurd (hij.trans hji) (lt_irrefl i))
    ((List.pairwise_lt_finRange _).filter _) hsorted

/-- If the part keeps the order of the recording, its search ends no later than that of the
whole. -/
theorem search_part_noLater (c : h.Cut) (hsorted : c.positions.Pairwise (· < ·)) {budget : ℕ}
    (hout : (h.problem.search budget (h.events.length + 1) h.start 0).1 ≠ .exhausted) :
    Problem.NoLater (c.part.problem.search budget (c.part.events.length + 1) c.part.start 0)
      (h.problem.search budget (h.events.length + 1) h.start 0) := by
  refine Problem.search_lockstep (R := Follows) (p := c.placeOf)
    (c.filterMap_placeOf hsorted).symm (fun _ _ hst => hst.complete) ?_ ?_ remaining
    (fun _ _ _ => remaining_lt) ?_ (Nat.succ_le_succ c.embedding.length_le) follows_start le_rfl hout
  · intro s t hst hs j
    constructor
    · intro hj
      obtain ⟨k, rfl⟩ := c.exists_position_eq (hst.mem_of_eligible hs hj)
      exact ⟨k, placeOf_eq_some_iff.mpr rfl, (hst.eligible_iff k).mpr hj⟩
    · rintro ⟨k, hk, heligible⟩
      rw [← placeOf_eq_some_iff.mp hk]
      exact (hst.eligible_iff k).mp heligible
  · intro s t hst _ j k hk _
    rw [← placeOf_eq_some_iff.mp hk]
    exact hst.advance k
  · exact Nat.lt_succ_of_le ((Finset.card_filter_le _ _).trans (by simp))

/-- A budget that refutes the whole decides the part. -/
theorem check_part_of_fail (c : h.Cut) {budget explored : ℕ}
    (hfail : h.check budget = .fail explored) :
    (∃ order n, c.part.check budget = .pass order n) ∨ ∃ n, c.part.check budget = .fail n := by
  rw [check] at hfail
  rcases hsearch : h.problem.search budget (h.events.length + 1) h.start 0 with ⟨out, n⟩
  rw [hsearch] at hfail
  cases out <;> cases hfail
  -- the search of the whole has explored its whole tree
  have hcost := Problem.cost_of_none hsearch
  have hspent : (h.problem.search budget (h.events.length + 1) h.start 0).2 ≤ budget :=
    Problem.search_le (Nat.zero_le budget)
  rw [hsearch] at hspent
  -- and the tree of the part is no larger, so the budget affords it
  have hle := c.embedding.cost_le
  rw [cost, cost] at hle
  dsimp only at hspent
  obtain ⟨hout, -, -⟩ : Problem.Affords
      (c.part.problem.search budget (c.part.events.length + 1) c.part.start 0) 0 _ :=
    Problem.search_of_cost_le (by omega)
  rw [check]
  rcases hpart : c.part.problem.search budget (c.part.events.length + 1) c.part.start 0
    with ⟨out, n⟩
  rw [hpart] at hout
  cases out with
  | found s => exact .inl ⟨_, _, rfl⟩
  | none => exact .inr ⟨_, rfl⟩
  | exhausted => exact absurd rfl hout

/-- If the part keeps the order of the recording, a budget under which the whole passes is enough
for the part. -/
theorem check_part_of_pass (c : h.Cut) (hsorted : c.positions.Pairwise (· < ·)) {budget n : ℕ}
    {order : List ℕ} (hpass : h.check budget = .pass order n) :
    ∃ order' n', c.part.check budget = .pass order' n' := by
  rw [check] at hpass
  have hlater := @search_part_noLater h c hsorted budget
  rcases hsearch : h.problem.search budget (h.events.length + 1) h.start 0 with ⟨out, n⟩
  rw [hsearch] at hpass hlater
  cases out <;> cases hpass
  -- the search of the part has found something by the time that of the whole has
  obtain ⟨-, -, hfound⟩ := hlater (by simp)
  obtain ⟨s, hs⟩ := hfound _ rfl
  rw [check]
  rcases hpart : c.part.problem.search budget (c.part.events.length + 1) c.part.start 0
    with ⟨out, n⟩
  rw [hpart] at hs
  cases hs
  exact ⟨_, _, rfl⟩

end Cut

end History

/-! ## Cuts of a recording -/

/-- `event[field]`, of an event that holds an integer there. -/
def fieldOf (event : Json) (field : String) : ℤ := ((event.get? field).bind Json.int?).getD 0

/-- The loop body of `reduce_history_prefix` that gives an event its new index. -/
def reindexEvent (index : ℕ) (event : Json) : Json :=
  Json.set "index" (.int index)
    (Json.set "original_index" ((event.get? "index").getD .null) event)

/-- The events with their places as indexes. -/
def reindex (events : List Json) : List Json := events.mapIdx reindexEvent

/-- Every retained event has finished strictly before any dropped one starts. -/
def QuiescentCut (retained dropped : List Json) : Prop :=
  ∀ r ∈ retained, ∀ d ∈ dropped, fieldOf r "finished_ns" < fieldOf d "started_ns"

/-- Both recordings are finite, so a cut can be tested. -/
instance (retained dropped : List Json) : Decidable (QuiescentCut retained dropped) :=
  inferInstanceAs (Decidable (∀ r ∈ retained, ∀ d ∈ dropped,
    fieldOf r "finished_ns" < fieldOf d "started_ns"))

section Recording

variable {e : Event Op} {j : Json}

/-- The fields that cuts and the order of events depend on. -/
theorem Event.Reads.fieldOf_eq (hread : e.Reads j) :
    fieldOf j "started_ns" = e.started ∧ fieldOf j "finished_ns" = e.finished ∧
      fieldOf j "worker" = e.worker ∧ fieldOf j "sequence" = e.sequence := by
  obtain ⟨raw, op, hraw, -, rfl⟩ := hread
  simp only [fieldOf, hraw.started, hraw.finished, hraw.worker, hraw.sequence]
  exact ⟨rfl, rfl, rfl, rfl⟩

/-- What is read back from an event with a new index. -/
theorem Event.Reads.reindex (hread : e.Reads j) (index : ℕ) :
    Event.Reads { e with index } (reindexEvent index j) := by
  obtain ⟨raw, op, hraw, hop, rfl⟩ := hread
  have hindex := hraw.index
  cases j with
  | dict entries =>
    refine ⟨{ raw with index }, op, ?_, hop, rfl⟩
    -- the other fields are as they were
    have hget {field : String} (hne : field ≠ "index") (hne' : field ≠ "original_index") :
        (reindexEvent index (.dict entries)).get? field = (Json.dict entries).get? field := by
      simp [reindexEvent, Json.set, Json.get?, hne, hne']
    exact {
      index := by simp [reindexEvent, Json.set, Json.get?]
      worker := by rw [hget (by decide) (by decide)]; exact hraw.worker
      sequence := by rw [hget (by decide) (by decide)]; exact hraw.sequence
      started := by rw [hget (by decide) (by decide)]; exact hraw.started
      finished := by rw [hget (by decide) (by decide)]; exact hraw.finished
      operation := by rw [hget (by decide) (by decide)]; exact hraw.operation
      error := by rw [hget (by decide) (by decide)]; exact hraw.error
      actual := by rw [hget (by decide) (by decide)]; exact hraw.actual
      shaped := hraw.shaped }
  | _ => cases hindex

end Recording

/-- The part of a list that is split off are the elements at some positions, in the order of the
list if it is a sublist. -/
theorem exists_positions {α : Type*} {n : ℕ} {f : Fin n → α} {retained dropped : List α}
    (hperm : ((List.finRange n).map f).Perm (retained ++ dropped)) :
    ∃ is : List (Fin n), is.Nodup ∧ is.map f = retained ∧ (∀ j ∉ is, f j ∈ dropped) ∧
      (retained.Sublist ((List.finRange n).map f) → is.Pairwise (· < ·)) := by
  -- what is not at the positions is dropped
  have hdropped {is : List (Fin n)} (hnodup : is.Nodup) (his : is.map f = retained) :
      ∀ j ∉ is, f j ∈ dropped := by
    intro j hj
    have hfin : (List.finRange n).Perm (is ++ (List.finRange n).filter (· ∉ is)) := by
      refine (List.perm_ext_iff_of_nodup (List.nodup_finRange n) ?_).mpr fun k => ?_
      · refine List.Nodup.append hnodup ((List.nodup_finRange n).filter _) fun k hk hk' => ?_
        exact absurd hk (by simpa using hk')
      · by_cases hk : k ∈ is <;> simp [hk]
    have hrest := (hperm.symm.trans (hfin.map f))
    rw [List.map_append, his] at hrest
    rw [((List.perm_append_left_iff _).mp hrest).mem_iff]
    exact List.mem_map_of_mem (by simpa using hj)
  by_cases hsub : retained.Sublist ((List.finRange n).map f)
  · -- the positions in the order of the list, which is increasing
    obtain ⟨is, his, rfl⟩ := List.sublist_map_iff.mp hsub
    have hsorted := (List.pairwise_lt_finRange n).sublist his
    have hnodup := (List.nodup_finRange n).sublist his
    exact ⟨is, hnodup, rfl, hdropped hnodup rfl, fun _ => hsorted⟩
  · -- the positions in whatever order the elements are retained
    obtain ⟨js, hjs, hsplit⟩ := (congrFun₂ (List.eq_map_comp_perm f) _ _).mpr hperm.symm
    obtain ⟨is, ds, rfl, his, -⟩ := List.map_eq_append_iff.mp hjs.symm
    have hnodup := (hsplit.nodup_iff.mpr (List.nodup_finRange n)).of_append_left
    exact ⟨is, hnodup, his, hdropped hnodup his, fun h => absurd h hsub⟩

/-- A quiescent split of a recording is a cut of its history, and the retained part, with new
indexes, is accepted. -/
theorem exists_cut {capacity : Json} {history retained dropped : List Json} {h : History}
    (haccept : accept capacity history = .ok (some h))
    (hsplit : history.Perm (retained ++ dropped)) (hquiet : QuiescentCut retained dropped) :
    ∃ c : h.Cut, (retained ≠ [] → accept capacity (reindex retained) = .ok (some c.part)) ∧
      c.positions.length = retained.length ∧
      (retained.Sublist history → c.positions.Pairwise (· < ·)) := by
  obtain ⟨hcapacity, hreads, -, hle⟩ := accept_iff_reads.mp haccept
  have hlength := hreads.length_eq
  have hhistory : (List.finRange h.events.length).map (fun i => history.get (i.cast hlength)) =
      history := List.ext_getElem (by simp [hlength]) fun k _ _ => by simp
  have hread (i : Fin h.events.length) :
      Event.Reads (h.events.get i) (history.get (i.cast hlength)) := by
    exact List.Forall₂.get hreads i.isLt (i.cast hlength).isLt
  obtain ⟨is, hnodup, rfl, hrest, hsorted⟩ := exists_positions (hhistory.symm ▸ hsplit)
  rw [hhistory] at hsorted
  -- the fields of the dicts are the times of the events
  have hcut : ∀ i ∈ is, ∀ j ∉ is, (h.events.get i).finished < (h.events.get j).started := by
    intro i hi j hj
    have := hquiet _ (List.mem_map_of_mem hi) _ (hrest j hj)
    rw [(hread i).fieldOf_eq.2.1, (hread j).fieldOf_eq.1] at this
    exact_mod_cast this
  refine ⟨⟨is, hnodup, hcut⟩, fun hne => accept_iff_reads.mpr ⟨hcapacity, ?_, ?_, ?_⟩, by simp,
    hsorted⟩
  · refine List.forall₂_iff_get.mpr ⟨by simp [History.Cut.part, History.Cut.events, History.select,
      reindex], fun k _ _ => ?_⟩
    simp only [History.Cut.part, History.Cut.events, History.select, reindex, List.get_eq_getElem,
      List.getElem_mapIdx, List.getElem_map]
    exact (hread _).reindex k
  · rw [reindex, List.length_mapIdx]
    exact List.length_pos_of_ne_nil hne
  · rw [reindex, List.length_mapIdx]
    have := hsplit.length_eq
    rw [List.length_append] at this
    omega

/-! ## The verdicts on a cut -/

/-- `check_history` passes the history under this budget. -/
def Passes (capacity : Json) (history : List Json) (budget : ℤ) : Prop :=
  ∃ order explored, checkHistory capacity history history.length budget = .ok (.pass order explored)

/-- `check_history` fails the history under this budget. -/
def Fails (capacity : Json) (history : List Json) (budget : ℤ) : Prop :=
  ∃ explored, checkHistory capacity history history.length budget = .ok (.fail explored)

/-- `check_history` gives up on the history under this budget. -/
def GivesUp (capacity : Json) (history : List Json) (budget : ℤ) : Prop :=
  checkHistory capacity history history.length budget =
    .ok (.inconclusive "search budget exhausted" budget.toNat)

/-- The three verdicts on an accepted history, and what they say of it. -/
theorem verdict_cases {capacity : Json} {history : List Json} {h : History} {budget : ℤ}
    (hbudget : 1 ≤ budget ∧ budget ≤ 100000) (hcount : history.length ≤ maxHistory)
    (haccept : accept capacity history = .ok (some h)) :
    (Passes capacity history budget ∧ Linearizable h.capacity h.events) ∨
    (Fails capacity history budget ∧ ¬Linearizable h.capacity h.events) ∨
    GivesUp capacity history budget := by
  obtain ⟨-, -, hpos, -⟩ := accept_iff_reads.mp haccept
  have hcheck := checkHistory_of_accept hbudget ⟨hpos, hcount⟩ rfl haccept
  have hspec := h.check_spec budget.toNat
  cases hverdict : h.check budget.toNat with
  | pass order explored =>
    rw [hverdict] at hcheck hspec
    exact .inl ⟨⟨order, explored, hcheck⟩, (History.exists_witness_iff h).mp ⟨order, hspec⟩⟩
  | fail explored =>
    rw [hverdict] at hcheck hspec
    refine .inr (.inl ⟨⟨explored, hcheck⟩, fun hlin => ?_⟩)
    obtain ⟨order, hwitness⟩ := (History.exists_witness_iff h).mpr hlin
    exact hspec order hwitness
  | inconclusive reason explored =>
    rw [hverdict] at hcheck hspec
    obtain ⟨rfl, rfl⟩ := hspec
    exact .inr (.inr hcheck)

section

variable {capacity : Json} {history : List Json} {budget : ℤ}

/-- A recording that passes does not fail. -/
theorem Passes.not_fails (hpass : Passes capacity history budget) :
    ¬Fails capacity history budget := by
  rintro ⟨_, hfail⟩
  obtain ⟨_, _, hpass⟩ := hpass
  rw [hpass] at hfail
  cases hfail

/-- A recording that passes is not given up. -/
theorem Passes.not_givesUp (hpass : Passes capacity history budget) :
    ¬GivesUp capacity history budget := by
  intro hgives
  obtain ⟨_, _, hpass⟩ := hpass
  rw [GivesUp, hpass] at hgives
  cases hgives

/-- A recording that fails is not given up. -/
theorem Fails.not_givesUp (hfail : Fails capacity history budget) :
    ¬GivesUp capacity history budget := by
  intro hgives
  obtain ⟨_, hfail⟩ := hfail
  rw [GivesUp, hfail] at hgives
  cases hgives

end

/-- A pass on the whole is a pass on the retained part of a quiescent cut, and a fail on the part is
a fail on the whole, the budget not exhausted. If the part keeps the order of the recording, the
budget under which the whole passes is enough for it; and a part that fails shows that no order
explains the whole. -/
theorem checkHistory_quiescent_cut {capacity : Json} {history retained dropped : List Json}
    {h : History} {budget budget' : ℤ} (hbudget : 1 ≤ budget ∧ budget ≤ 100000)
    (hbudget' : 1 ≤ budget' ∧ budget' ≤ 100000) (hcount : history.length ≤ maxHistory)
    (haccept : accept capacity history = .ok (some h))
    (hsplit : history.Perm (retained ++ dropped)) (hne : retained ≠ [])
    (hquiet : QuiescentCut retained dropped) :
    (Passes capacity history budget → Passes capacity (reindex retained) budget' ∨
      GivesUp capacity (reindex retained) budget') ∧
    (retained.Sublist history → Passes capacity history budget →
      Passes capacity (reindex retained) budget) ∧
    (Fails capacity (reindex retained) budget → (∀ order, ¬h.IsWitness order) ∧
      (Fails capacity history budget' ∨ GivesUp capacity history budget')) := by
  obtain ⟨c, hpart, -, hsorted⟩ := exists_cut haccept hsplit hquiet
  have hpart := hpart hne
  have hcount' : (reindex retained).length ≤ maxHistory := by
    have := hsplit.length_eq
    rw [List.length_append] at this
    rw [reindex, List.length_mapIdx]
    omega
  -- both are accepted, so a verdict other than giving up says whether they are linearizable
  have hwhole {b : ℤ} (hb : 1 ≤ b ∧ b ≤ 100000) := verdict_cases hb hcount haccept
  have hretained {b : ℤ} (hb : 1 ≤ b ∧ b ≤ 100000) := verdict_cases hb hcount' hpart
  refine ⟨fun hpass => ?_, fun hsub hpass => ?_, fun hfail => ?_⟩
  · rcases hwhole hbudget with ⟨-, hlin⟩ | ⟨hfail, -⟩ | hgives
    · rcases hretained hbudget' with ⟨hpass', -⟩ | ⟨-, hnot⟩ | hgives'
      · exact .inl hpass'
      · exact absurd (c.linearizable_part hlin) hnot
      · exact .inr hgives'
    · exact absurd hfail hpass.not_fails
    · exact absurd hgives hpass.not_givesUp
  · obtain ⟨order, explored, hpass⟩ := hpass
    obtain ⟨-, -, hpos, -⟩ := accept_iff_reads.mp haccept
    rw [checkHistory_of_accept hbudget ⟨hpos, hcount⟩ rfl haccept] at hpass
    obtain ⟨order', explored', hpass'⟩ := c.check_part_of_pass (hsorted hsub) (Except.ok.inj hpass)
    obtain ⟨-, -, hpos', -⟩ := accept_iff_reads.mp hpart
    refine ⟨order', explored', ?_⟩
    rw [checkHistory_of_accept hbudget ⟨hpos', hcount'⟩ rfl hpart, hpass']
  · rcases hretained hbudget with ⟨hpass, -⟩ | ⟨-, hnot⟩ | hgives
    · exact absurd hfail hpass.not_fails
    · have hnone : ¬Linearizable h.capacity h.events := fun hlin => hnot (c.linearizable_part hlin)
      refine ⟨fun order hwitness => hnone ((History.exists_witness_iff h).mp ⟨order, hwitness⟩), ?_⟩
      rcases hwhole hbudget' with ⟨-, hlin⟩ | ⟨hfail', -⟩ | hgives'
      · exact absurd hlin hnone
      · exact .inl hfail'
      · exact .inr hgives'
    · exact absurd hgives hfail.not_givesUp

/-- A write of one byte, recorded after the read that finds it. -/
def History.relay : History where
  capacity := 256
  events :=
    [{ index := 1, worker := 1, sequence := 0, started := 2, finished := 3,
       operation := .read 1, actual := (success 1 (some [0x61])).toJson },
     { index := 0, worker := 0, sequence := 0, started := 0, finished := 1,
       operation := .write [0x61], actual := (success 1 none).toJson }]
  minCapacity_le := minCapacity_le_256
  le_maxCapacity := le_maxCapacity_256
  operations_valid := by decide
  started_le := by decide
  index_nodup := by decide
  index_lt := by decide
  sequences := by decide
  separate := by decide

/-- `History.relay` as it is recorded. -/
def recordedRelay : List Json :=
  History.relay.events.map fun e => Event.toJson { e with operation := e.operation.toJson }

/-- The recording without its first event, the read. -/
theorem checkHistory_quiescent_cut_relay :
    (Passes (.int 256) recordedRelay 10 →
      Passes (.int 256) (reindex (recordedRelay.drop 1)) 20 ∨
        GivesUp (.int 256) (reindex (recordedRelay.drop 1)) 20) ∧
    ((recordedRelay.drop 1).Sublist recordedRelay → Passes (.int 256) recordedRelay 10 →
      Passes (.int 256) (reindex (recordedRelay.drop 1)) 10) ∧
    (Fails (.int 256) (reindex (recordedRelay.drop 1)) 10 →
      (∀ order, ¬History.relay.IsWitness order) ∧
      (Fails (.int 256) recordedRelay 20 ∨ GivesUp (.int 256) recordedRelay 20)) :=
  checkHistory_quiescent_cut (by decide) (by decide) (by decide) rfl
    (show recordedRelay.Perm (recordedRelay.drop 1 ++ recordedRelay.take 1) from
      List.Perm.swap _ _ _)
    (by simp [recordedRelay, History.relay]) (by decide)

end Lab
