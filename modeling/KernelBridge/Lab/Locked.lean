import KernelBridge.Lab.NoFalseAlarm

/-!
# Devices behind a lock

The harness around any device whose `apply` takes effect at once and is a function of the device
and the operation.

If the calls of all workers but one leave such a device as it is, that worker sees it as if it were
alone (`answers_of_run`), and so does the reference model in every explanation of the recording
(`Complete.replays_worker`). So a recording that can be explained is one in which the device
answered this worker as the reference model would have (`agrees_of_witness`): the interleaving plays
no part.

Two devices of which one does what the other does give the same recordings (`Step.simulate`).
-/

namespace Lab

open Py Lts

/-! ## Calls -/

section Calls

variable {δ : Type} (apply : δ → Json → Except Exc (Json × δ))

/-- What a call returns or raises, and the device after it. A call that raises changes nothing. -/
def attempt (device : δ) (op : Json) : Except Exc Json × δ :=
  match apply device op with
  | .ok (actual, device) => (.ok actual, device)
  | .error exc => (.error exc, device)

/-- The outcomes of a list of calls, one after the other, and the device after them. -/
def attempts (device : δ) : List Json → List (Except Exc Json) × δ
  | [] => ([], device)
  | op :: ops =>
    let (outcome, device) := attempt apply device op
    let (outcomes, device) := attempts device ops
    (outcome :: outcomes, device)

/-- The attempts of one more operation. -/
theorem attempts_concat (device : δ) (ops : List Json) (op : Json) :
    attempts apply device (ops ++ [op]) =
      ((attempts apply device ops).1 ++ [(attempt apply (attempts apply device ops).2 op).1],
        (attempt apply (attempts apply device ops).2 op).2) := by
  induction ops generalizing device with
  | nil => rfl
  | cons op' ops ih => simp only [List.cons_append, attempts, ih]

/-- A device that holds its lock throughout a call, and a clock that never goes back. -/
def Env.locked : Env δ where
  apply device op outcome device' := attempt apply device op = (outcome, device')
  tick last now := last ≤ now

end Calls

/-! ## The calls of one worker -/

section OneWorker

variable {δ : Type} {env : Env δ} {plan : Plan} {s s' : State plan.workers δ}
  {w : Fin plan.workers}

/-- The calls of a worker that the device replied to, in turn, with the replies. -/
def State.repliesTo {n : ℕ} (s : State n δ) (v : Fin n) : List (Call × Except Exc Json) :=
  (s.recordedBy v).map (fun e => (e.toCall, e.outcome)) ++ (s.workers v).reply?.toList

/-- A call on the device adds a reply to those of its worker, and no other step changes the device
or the replies. -/
theorem Step.repliesTo (h : Step env plan s w s') (hsound : s.Sound plan) (v : Fin plan.workers) :
    (∃ call outcome todo, s.workers w = .calling call todo ∧
      env.apply s.device call.operation outcome s'.device ∧
      s'.repliesTo v = s.repliesTo v ++ if v = w then [(call, outcome)] else []) ∨
    s'.device = s.device ∧ s'.repliesTo v = s.repliesTo v := by
  by_cases hv : v = w
  · subst hv
    -- a worker that is not replied to before or after the step has the replies it had
    have quiet : ∀ {pc : Pc}, (s.workers v).reply? = pc.reply? →
        s'.workers = Function.update s.workers v pc → s'.history = s.history →
        s'.repliesTo v = s.repliesTo v := by
      intro pc hreply hworkers hhistory
      simp only [State.repliesTo, State.recordedBy, hhistory, hworkers, Function.update_self,
        hreply]
    cases h with
    | arrive hpc | release hpc | pass hpc | timeout hpc | invoke hpc =>
      exact .inr ⟨rfl, quiet (by rw [hpc]; rfl) rfl rfl⟩
    | broken hpc =>
      exact .inr ⟨rfl, quiet (by rcases hpc with hpc | hpc <;> rw [hpc] <;> rfl) rfl rfl⟩
    | @apply call todo outcome device hpc happly =>
      refine .inl ⟨call, outcome, todo, hpc, happly, ?_⟩
      simp [State.repliesTo, State.recordedBy, State.move, hpc, Pc.reply?]
    | respond hpc => exact .inr ⟨rfl, quiet (by rw [hpc]; rfl) rfl rfl⟩
    | @record event todo hpc =>
      have hworker : event.worker = v := (hsound.call v event.toCall (by rw [hpc]; rfl)).1
      refine .inr ⟨rfl, ?_⟩
      simp [State.repliesTo, State.recordedBy, State.move, hpc, Pc.reply?, hworker]
  · have hsame : s'.repliesTo v = s.repliesTo v := by
      obtain ⟨-, pc, hworkers, -⟩ := h.frame
      rw [State.repliesTo, State.repliesTo, h.recordedBy_of_ne hsound hv, hworkers,
        Function.update_of_ne hv]
    rcases h.effect with ⟨call, outcome, todo, hpc, happly, -⟩ | ⟨_, _, _, -, -, hdevice, -⟩ |
      ⟨-, hdevice, -⟩
    · exact .inl ⟨call, outcome, todo, hpc, happly, by rw [hsame, if_neg hv, List.append_nil]⟩
    · exact .inr ⟨hdevice, hsame⟩
    · exact .inr ⟨hdevice, hsame⟩

variable {apply : δ → Json → Except Exc (Json × δ)} {device : δ} {clock : ℕ}
  {tr : List (Fin plan.workers)} {v : Fin plan.workers}

/-- If the others leave the device as it is, it answers a worker as if this one were alone. -/
theorem answers_of_run
    (hothers : ∀ i (w : ℕ), plan.assignments[i]? = some w → w ≠ v →
      ∀ d, (attempt apply d (plan.operation i)).2 = d)
    (h : Run (Step (.locked apply) plan) (.start device clock) tr s) :
    attempts apply device ((s.repliesTo v).map (·.1.operation)) =
      ((s.repliesTo v).map Prod.snd, s.device) := by
  refine h.invariant (I := fun _ s => attempts apply device ((s.repliesTo v).map (·.1.operation)) =
    ((s.repliesTo v).map Prod.snd, s.device)) ?_ fun _ s w s' hrun hold hstep => ?_
  · rfl
  · have hsound := sound_of_run hrun
    rcases hstep.repliesTo hsound v with ⟨call, outcome, todo, hpc, happly, hreplies⟩ |
      ⟨hdevice, hreplies⟩
    · have happly : attempt apply s.device call.operation = (outcome, s'.device) := happly
      rw [hreplies]
      split_ifs with hv
      · rw [List.map_append, List.map_singleton, attempts_concat, hold, happly, List.map_append,
          List.map_singleton]
      · -- the call is on an operation of another worker
        have hc : (s.workers w).call? = some call := by rw [hpc]; rfl
        have howner := (mem_tasksOf_iff.mp (hsound.call_task hc).1).1
        have hleft := hothers call.index w howner (fun heq => hv (Fin.ext heq).symm) s.device
        rw [← (hsound.call w call hc).2, happly] at hleft
        rw [List.append_nil, hold, show s'.device = s.device from hleft]
    · rw [hreplies, hdevice, hold]

end OneWorker

/-! ## Explanations of one worker -/

/-- An explanation stays one without the events that leave the model as it is. -/
theorem Replays.filter {model : ReferenceModel} {es : List (Event Op)} (h : Replays model es)
    {p : Event Op → Bool}
    (hskip : ∀ e ∈ es, p e = false → ∀ model : ReferenceModel, (model.apply e.operation).2 = model) :
    Replays model (es.filter p) := by
  induction es generalizing model with
  | nil => trivial
  | cons e es ih =>
    have hrest := fun e' he' => hskip e' (List.mem_cons_of_mem e he')
    cases hp : p e with
    | true =>
      rw [List.filter_cons_of_pos hp]
      exact ⟨h.1, ih h.2 hrest⟩
    | false =>
      rw [List.filter_cons_of_neg (by simp [hp])]
      have hnext := ih h.2 hrest
      rwa [hskip e List.mem_cons_self hp] at hnext

/-- In an explanation the answers recorded are those of the model. -/
theorem Replays.eqList {model : ReferenceModel} {es : List (Event Op)} (h : Replays model es) :
    Json.eqList ((model.run (es.map Event.operation)).1.map Result.toJson)
      (es.map Event.actual) = true := by
  induction es generalizing model with
  | nil => rfl
  | cons e es ih =>
    simp only [List.map_cons, ReferenceModel.run, Json.eqList, h.1, Bool.or_true, Bool.true_and]
    exact ih h.2

namespace Complete

variable {plan : Plan} {history : List Recorded} (h : Complete plan history)

include h

/-- Every event is on an operation of its worker. -/
theorem owner_eq {e : Recorded} (he : e ∈ history) : plan.assignments[e.index]? = some e.worker := by
  have hmem : e.task ∈ plan.tasks e.worker := by
    rw [← h.tasks e.worker (h.worker_lt e he)]
    exact List.mem_map_of_mem (List.mem_filter.mpr ⟨he, by simp⟩)
  exact (mem_tasksOf_iff.mp hmem).1

/-- If the others leave the model as it is, an explanation explains the events of a worker, in the
order in which it recorded them. -/
theorem replays_worker {v : ℕ}
    (hothers : ∀ i w, plan.assignments[i]? = some w → w ≠ v →
      ∀ model : ReferenceModel, (model.apply (plan.op i)).2 = model)
    {indexes : List ℕ} (hwitness : h.toHistory.IsWitness indexes) :
    Replays (.new plan.scenario.capacity)
      ((history.filter fun e => e.worker = v).map plan.typed) := by
  obtain ⟨es, hperm, -, hordered, hreplays⟩ := hwitness
  have hevents : es.Perm (history.map plan.typed) := hperm
  have hperm : (es.filter fun e => e.worker = v).Perm
      ((history.filter fun e => e.worker = v).map plan.typed) := by
    have hfilter := hevents.filter fun e => decide (e.worker = v)
    rwa [List.filter_map] at hfilter
  -- both list the events of the worker in its order
  have hrecorded : ((history.filter fun e => e.worker = v).map plan.typed).Pairwise
      fun a b => a.sequence < b.sequence := by
    refine List.pairwise_map.mpr ((h.separate.filter _).imp_of_mem fun ha hb hab => ?_)
    have ha := of_decide_eq_true (List.mem_filter.mp ha).2
    have hb := of_decide_eq_true (List.mem_filter.mp hb).2
    exact (hab.2 (ha.trans hb.symm)).1
  have hexplained : (es.filter fun e => e.worker = v).Pairwise
      fun a b => a.sequence < b.sequence := by
    have hne := (hperm.pairwise_iff (R := fun a b => a.sequence ≠ b.sequence) Ne.symm).mpr
      (hrecorded.imp ne_of_lt)
    refine ((hordered.filter _).and hne).imp_of_mem fun ha hb ⟨hab, hne⟩ => ?_
    have ha := of_decide_eq_true (List.mem_filter.mp ha).2
    have hb := of_decide_eq_true (List.mem_filter.mp hb).2
    simp only [Event.precedes, Event.sameWorkerBefore, Bool.or_eq_false_iff,
      decide_eq_false_iff_not, not_and, not_lt] at hab
    exact lt_of_le_of_ne (hab.2 (ha.trans hb.symm)) hne
  have hfilter := List.Perm.eq_of_pairwise (fun a b _ _ hab hba => absurd hab hba.asymm) hexplained
    hrecorded hperm
  rw [← hfilter]
  refine hreplays.filter fun e he hne => ?_
  obtain ⟨recorded, hrecorded, rfl⟩ := List.mem_map.mp (hevents.mem_iff.mp he)
  exact hothers _ _ (h.owner_eq hrecorded) (of_decide_eq_false hne)

end Complete

/-- If the calls of the others leave both the device and the model as they are, a recording that can
be explained has the device answer a worker as the model answers it alone. -/
theorem agrees_of_witness {δ : Type} {apply : δ → Json → Except Exc (Json × δ)} {plan : Plan}
    {s : State plan.workers δ} {device : δ} {clock : ℕ} {tr : List (Fin plan.workers)}
    {v : Fin plan.workers}
    (hothers : ∀ i (w : ℕ), plan.assignments[i]? = some w → w ≠ v →
      (∀ d, (attempt apply d (plan.operation i)).2 = d) ∧
        ∀ model : ReferenceModel, (model.apply (plan.op i)).2 = model)
    (hrun : Run (Step (.locked apply) plan) (.start device clock) tr s)
    (hrunning : ∀ w, s.workers w = .running []) (hcomplete : Complete plan s.history)
    {indexes : List ℕ} (hwitness : hcomplete.toHistory.IsWitness indexes) :
    Json.eqList
      (((ReferenceModel.new plan.scenario.capacity).run
        ((plan.tasks v).map fun task => plan.op task.1)).1.map Result.toJson)
      ((attempts apply device ((plan.tasks v).map fun task => plan.operation task.1)).1.map
        fun outcome => outcome.toOption.getD .null) = true := by
  have hreplays := (hcomplete.replays_worker (fun i w hw hne => (hothers i w hw hne).2)
    hwitness).eqList
  have hanswers := answers_of_run (fun i w hw hne => (hothers i w hw hne).1) hrun
  have hreplies : s.repliesTo v = (s.recordedBy v).map fun e => (e.toCall, e.outcome) := by
    rw [State.repliesTo, hrunning v]
    exact List.append_nil _
  have htasks := hcomplete.tasks v v.isLt
  -- both sides are about the recorded events of the worker
  have hops : ((s.history.filter fun e => e.worker = (v : ℕ)).map plan.typed).map Event.operation =
      (plan.tasks v).map fun task => plan.op task.1 := by
    rw [← htasks, List.map_map, List.map_map]
    rfl
  have hoperations : (s.repliesTo v).map (·.1.operation) =
      (plan.tasks v).map fun task => plan.operation task.1 := by
    rw [hreplies, ← htasks, List.map_map, List.map_map]
    exact List.map_congr_left fun e he => hcomplete.operation e (List.mem_filter.mp he).1
  rw [hops] at hreplays
  rw [hoperations] at hanswers
  rw [hanswers, hreplies]
  simp only [List.map_map] at hreplays ⊢
  exact hreplays

/-! ## Two devices -/

section Simulate

variable {δ δ' : Type} {env : Env δ} {env' : Env δ'} {plan : Plan} {s s' : State plan.workers δ}
  {w : Fin plan.workers} {R : δ → δ' → Prop} {device : δ'}

/-- The state with another device in it. -/
def State.withDevice {n : ℕ} (s : State n δ) (device : δ') : State n δ' where
  device
  clock := s.clock
  barrier := s.barrier
  workers := s.workers
  history := s.history

/-- If the second device answers every call as the first does, the harness around it can take every
step that the harness around the first takes. -/
theorem Step.simulate (htick : ∀ last now, env.tick last now → env'.tick last now)
    (happly : ∀ d d' op outcome d₁, R d d' → (∃ typed, validateOp op = .ok typed) →
      env.apply d op outcome d₁ → ∃ d₁', env'.apply d' op outcome d₁' ∧ R d₁ d₁')
    (h : Step env plan s w s') (hsound : s.Sound plan) (hR : R s.device device) :
    ∃ device', Step env' plan (s.withDevice device) w (s'.withDevice device') ∧
      R s'.device device' := by
  cases h with
  | arrive hpc hbarrier hothers => exact ⟨device, .arrive hpc hbarrier hothers, hR⟩
  | release hpc hbarrier hothers => exact ⟨device, .release hpc hbarrier hothers, hR⟩
  | pass hpc hbarrier => exact ⟨device, .pass hpc hbarrier, hR⟩
  | timeout hpc hbarrier => exact ⟨device, .timeout hpc hbarrier, hR⟩
  | broken hpc hbarrier => exact ⟨device, .broken hpc hbarrier, hR⟩
  | invoke hpc hnow => exact ⟨device, .invoke hpc (htick _ _ hnow), hR⟩
  | apply hpc hcall =>
    have hvalid := hsound.validateOp_call (w := w) (by rw [hpc]; rfl)
    obtain ⟨device', hcall', hR'⟩ := happly _ _ _ _ _ hR ⟨_, hvalid⟩ hcall
    exact ⟨device', .apply hpc hcall', hR'⟩
  | respond hpc hnow => exact ⟨device, .respond hpc (htick _ _ hnow), hR⟩
  | record hpc => exact ⟨device, .record hpc, hR⟩

/-- The harness around the second device has a run that leaves the same recording. -/
theorem run_simulate (htick : ∀ last now, env.tick last now → env'.tick last now)
    (happly : ∀ d d' op outcome d₁, R d d' → (∃ typed, validateOp op = .ok typed) →
      env.apply d op outcome d₁ → ∃ d₁', env'.apply d' op outcome d₁' ∧ R d₁ d₁')
    {start : δ} {clock : ℕ} {tr : List (Fin plan.workers)}
    (h : Run (Step env plan) (.start start clock) tr s) (hR : R start device) :
    ∃ device', Run (Step env' plan) (.start device clock) tr (s.withDevice device') := by
  obtain ⟨_, hrun, -, device', -, rfl⟩ : ∃ t, Run (Step env' plan) (.start device clock) tr t ∧
      s.Sound plan ∧ ∃ device, R s.device device ∧ t = s.withDevice device := by
    refine h.simulate (R := fun s t => s.Sound plan ∧
      ∃ device, R s.device device ∧ t = s.withDevice device)
      ⟨State.start_sound start clock, device, hR, rfl⟩ ?_
    rintro s w s' _ ⟨hsound, device, hR, rfl⟩ hstep
    obtain ⟨device', hstep', hR'⟩ := hstep.simulate htick happly hsound hR
    exact ⟨_, hstep', hstep.sound hsound, device', hR', rfl⟩
  exact ⟨device', hrun⟩

end Simulate

section SameAnswers

variable {δ δ' : Type} {env : Env δ} {plan : Plan} {s : State plan.workers δ} {v : Fin plan.workers}

/-- The operations of the calls of a worker. -/
def Plan.program (plan : Plan) (w : ℕ) : List Json :=
  (plan.tasks w).map fun task => plan.operation task.1

/-- The calls that a worker was replied to are the first of its calls. -/
theorem State.Sound.repliesTo_isPrefix (h : s.Sound plan) (v : Fin plan.workers) :
    (s.repliesTo v).map (·.1.operation) <+: plan.program v := by
  have hreplied : (s.repliesTo v).map (·.1.task) <+: plan.tasks v := by
    obtain ⟨dropped, htasks, -⟩ := h.tasks v
    rw [← htasks, State.repliesTo, List.map_append, List.map_map, List.append_assoc]
    refine List.prefix_append_right_inj _ |>.mpr ?_
    cases hpc : s.workers v with
    | returned | recording => exact ⟨_, rfl⟩
    | _ => exact List.nil_prefix
  have hoperations : (s.repliesTo v).map (·.1.operation) =
      ((s.repliesTo v).map (·.1.task)).map fun task => plan.operation task.1 := by
    rw [List.map_map]
    refine List.map_congr_left fun x hx => ?_
    rcases List.mem_append.mp hx with hx | hx
    · obtain ⟨e, he, rfl⟩ := List.mem_map.mp hx
      exact (h.recorded e (List.mem_filter.mp he).1).2
    · exact (h.call v _ (Pc.call?_of_reply? (Option.mem_toList.mp hx))).2
  rw [hoperations]
  exact hreplied.map _

/-- The attempts of the first operations are the first attempts. -/
theorem attempts_of_isPrefix {apply : δ → Json → Except Exc (Json × δ)} {device : δ}
    {ops ops' : List Json} (h : ops <+: ops') :
    (attempts apply device ops).1 = ((attempts apply device ops').1).take ops.length := by
  induction ops generalizing ops' device with
  | nil => rfl
  | cons op ops ih =>
    obtain ⟨rest, rfl⟩ := h
    simp only [List.cons_append, attempts, List.length_cons, List.take_succ_cons]
    rw [← ih (List.prefix_append ops rest)]

/-- A reply is one more reply to its worker. -/
theorem repliesTo_returned {call : Call} {todo : List (ℕ × ℕ)}
    (hpc : s.workers v = .calling call todo) (outcome : Except Exc Json) (device : δ) :
    { s.move v (.returned call outcome todo) with device }.repliesTo v =
      s.repliesTo v ++ [(call, outcome)] := by
  simp [State.repliesTo, State.recordedBy, State.move, hpc, Pc.reply?]

variable {apply : δ → Json → Except Exc (Json × δ)} {apply' : δ' → Json → Except Exc (Json × δ')}
  {device : δ} {device' : δ'} {clock : ℕ} {tr : List (Fin plan.workers)}

/-- If the others leave two devices as they are, and both devices answer a worker alone in the same
way and, wherever it stands, also the others, they give the same recordings. -/
theorem run_of_answers
    (hothers : ∀ i (w : ℕ), plan.assignments[i]? = some w → w ≠ v →
      (∀ d, (attempt apply d (plan.operation i)).2 = d) ∧
        ∀ d, (attempt apply' d (plan.operation i)).2 = d)
    (hanswers : (attempts apply device (plan.program v)).1 =
      (attempts apply' device' (plan.program v)).1)
    (hprobes : ∀ i (w : ℕ), plan.assignments[i]? = some w → w ≠ v →
      ∀ ops, ops <+: plan.program v →
        (attempt apply (attempts apply device ops).2 (plan.operation i)).1 =
          (attempt apply' (attempts apply' device' ops).2 (plan.operation i)).1)
    (h : Run (Step (.locked apply) plan) (.start device clock) tr s) :
    ∃ d, Run (Step (.locked apply') plan) (.start device' clock) tr (s.withDevice d) := by
  -- the second device is where the replies to the worker have brought it
  let after (s : State plan.workers δ) : δ' :=
    (attempts apply' device' ((s.repliesTo v).map (·.1.operation))).2
  suffices hboth : Run (Step (.locked apply') plan) (.start device' clock) tr
      (s.withDevice (after s)) from ⟨_, hboth⟩
  refine h.invariant (I := fun tr s => Run (Step (.locked apply') plan) (.start device' clock) tr
    (s.withDevice (after s))) .nil fun tr s w s' hrun hother hstep => hother.snoc ?_
  have hsound := sound_of_run hrun
  have hsame : (∀ call todo, s.workers w ≠ .calling call todo) → after s' = after s := by
    intro hpc
    rcases hstep.repliesTo hsound v with ⟨call, _, todo, hcalling, -⟩ | ⟨-, hreplies⟩
    · exact absurd hcalling (hpc call todo)
    · simp only [after, hreplies]
  cases hstep with
  | arrive hpc hbarrier hwait =>
    rw [hsame (by simp [hpc])]
    exact .arrive hpc hbarrier hwait
  | release hpc hbarrier hwait =>
    rw [hsame (by simp [hpc])]
    exact .release hpc hbarrier hwait
  | pass hpc hbarrier =>
    rw [hsame (by simp [hpc])]
    exact .pass hpc hbarrier
  | timeout hpc hbarrier =>
    rw [hsame (by simp [hpc])]
    exact .timeout hpc hbarrier
  | broken hpc hbarrier =>
    rw [hsame (by rcases hpc with hpc | hpc <;> simp [hpc])]
    exact .broken hpc hbarrier
  | invoke hpc hnow =>
    rw [hsame (by simp [hpc])]
    exact .invoke hpc hnow
  | respond hpc hnow =>
    rw [hsame (by simp [hpc])]
    exact .respond hpc hnow
  | record hpc =>
    rw [hsame (by simp [hpc])]
    exact .record hpc
  | @apply call todo outcome d hpc hcall =>
    have hcall : attempt apply s.device call.operation = (outcome, d) := hcall
    have hc : (s.workers w).call? = some call := by rw [hpc]; rfl
    have howner := (mem_tasksOf_iff.mp (hsound.call_task hc).1).1
    have hop := (hsound.call w call hc).2
    have hstep : Step (.locked apply) plan s w { s.move w (.returned call outcome todo) with
      device := d } := .apply hpc hcall
    have hleft := fun i (w : ℕ) hw hne => (hothers i w hw hne).1
    refine .apply hpc (?_ : attempt apply' (after s) call.operation = (outcome, after _))
    by_cases hw : v = w
    · subst hw
      have hreplies := repliesTo_returned hpc outcome d
      have hafter := answers_of_run hleft (hrun.snoc hstep)
      have hreplied := (hstep.sound hsound).repliesTo_isPrefix v
      have hboth : (attempts apply device _).1 = (attempts apply' device' _).1 :=
        (attempts_of_isPrefix hreplied).trans <|
          (congrArg (List.take _) hanswers).trans (attempts_of_isPrefix hreplied).symm
      rw [hafter] at hboth
      simp only [after, hreplies, List.map_append, List.map_singleton, attempts_concat] at hboth ⊢
      have houtcome := (List.append_inj' hboth rfl).2
      exact Prod.ext (List.cons.inj houtcome).1.symm rfl
    · -- the others are answered where the worker stands
      have hne : (w : ℕ) ≠ v := fun heq => hw (Fin.ext heq).symm
      have hreplies : after { s.move w (.returned call outcome todo) with device := d } =
          after s := by
        simp only [after]
        rcases hstep.repliesTo hsound v with ⟨_, _, _, -, -, hreplies⟩ | ⟨-, hreplies⟩
        · rw [hreplies, if_neg hw, List.append_nil]
        · rw [hreplies]
      have hprobe := hprobes _ w howner hne _ (hsound.repliesTo_isPrefix v)
      rw [← hop, answers_of_run hleft hrun, hcall] at hprobe
      refine Prod.ext hprobe.symm ?_
      rw [hreplies, hop]
      exact (hothers _ w howner hne).2 _

end SameAnswers

end Lab
