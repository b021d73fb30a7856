import KernelBridge.Lab.Backends
import KernelBridge.Lab.Concurrency
import Mathlib.Algebra.BigOperators.Group.Finset.Basic
import Mathlib.Algebra.Order.BigOperators.Group.Finset

/-!
# Concurrent calls on the simulated device

The harness of `Lab.Concurrency` around the simulated device, whose `apply` is one step under its
lock, with a clock that never goes back.

The calls took effect in some order. `Effects` says of this order that the reference model answers
the calls in turn as the device did, and that it respects the sequences of the workers and real
time: a call that started after another had finished took effect after it. `State.Timed` is what
the invariant needs of the times.

The threads come to an end under every schedule: each step lowers `State.work`, and a thread that
has not ended can move (`exists_step`).
-/

namespace Lab

open Py Lts

/-! ## The environment -/

/-- The simulated device, and a clock that never goes back. `SimulatedDevice.apply` holds the lock
of the device throughout; the operation it reads out of the dict is the validated one. -/
def Env.simulated : Env SimulatedDevice where
  apply device operation outcome device' := ∃ op, validateOp operation = .ok op ∧
    outcome = .ok (device.apply op).1.toJson ∧ device' = (device.apply op).2
  tick last now := last ≤ now

/-- The reply of the device that a worker has and has not recorded. -/
def Pc.reply? : Pc → Option (Call × Except Exc Json)
  | .returned call outcome _ => some (call, outcome)
  | .recording event _ => some (event.toCall, event.outcome)
  | _ => none

/-- The event that a worker is about to record. -/
def Pc.event? : Pc → Option Recorded
  | .recording event _ => some event
  | _ => none

section

variable {δ : Type} {env : Env δ} {plan : Plan} {s s' : State plan.workers δ}
  {w : Fin plan.workers}

/-- The device replied to a call. -/
def State.Replied {n : ℕ} (s : State n δ) (x : Call × Except Exc Json) : Prop :=
  (∃ w, (s.workers w).reply? = some x) ∨ ∃ e ∈ s.history, (e.toCall, e.outcome) = x

/-- A call finished, and its event is in the history or about to be. -/
def State.Responded {n : ℕ} (s : State n δ) (e : Recorded) : Prop :=
  (∃ w, (s.workers w).event? = some e) ∨ e ∈ s.history

/-- A worker that moves between places of which the same can be said. -/
theorem exists_update_of_eq {n : ℕ} {α : Type} {f : Pc → Option α} {u : Fin n → Pc}
    {w : Fin n} {p : Pc} {x : α} (h : f p = f (u w)) :
    (∃ v, f (Function.update u w p v) = some x) ↔ ∃ v, f (u v) = some x := by
  refine exists_congr fun v => ?_
  by_cases hv : v = w
  · subst hv
    rw [Function.update_self, h]
  · rw [Function.update_of_ne hv]

/-- A worker that moves from a place of which nothing can be said. -/
theorem exists_update_of_none {n : ℕ} {α : Type} {f : Pc → Option α} {u : Fin n → Pc}
    {w : Fin n} {p : Pc} {x : α} (h : f (u w) = none) :
    (∃ v, f (Function.update u w p v) = some x) ↔
      (∃ v, f (u v) = some x) ∨ f p = some x := by
  constructor
  · rintro ⟨v, hv⟩
    by_cases hvw : v = w
    · subst hvw
      exact .inr (by simpa using hv)
    · exact .inl ⟨v, by simpa [hvw] using hv⟩
  · rintro (⟨v, hv⟩ | hpc)
    · have hvw : v ≠ w := by
        rintro rfl
        rw [h] at hv
        cases hv
      exact ⟨v, by simpa [hvw] using hv⟩
    · exact ⟨w, by simpa using hpc⟩

/-- A worker that moves to a place of which nothing can be said. -/
theorem exists_update_of_some {n : ℕ} {α : Type} {f : Pc → Option α} {u : Fin n → Pc}
    {w : Fin n} {p : Pc} {x y : α} (h : f (u w) = some y) (hpc : f p = none) :
    (∃ v, f (Function.update u w p v) = some x) ∨ y = x ↔ ∃ v, f (u v) = some x := by
  have hback := exists_update_of_none (f := f) (u := Function.update u w p) (w := w)
    (p := u w) (x := x) (by rw [Function.update_self, hpc])
  rw [Function.update_idem, Function.update_eq_self, h, Option.some.injEq] at hback
  exact hback.symm

/-- Who has a reply is in the call. -/
theorem Pc.call?_of_reply? {pc : Pc} {x : Call × Except Exc Json} (h : pc.reply? = some x) :
    pc.call? = some x.1 := by
  revert h
  cases pc <;> rintro ⟨⟩ <;> rfl

/-- What has an end has a reply. -/
theorem State.Responded.replied {e : Recorded} (h : s.Responded e) :
    s.Replied (e.toCall, e.outcome) := by
  rcases h with ⟨v, hv⟩ | he
  · refine .inl ⟨v, ?_⟩
    revert hv
    cases s.workers v <;> rintro ⟨⟩
    rfl
  · exact .inr ⟨e, he, rfl⟩

/-- What a step does to the device, the clock, and the replies and responses so far: it is a call on
the device, or it notes the finish of a call, or it changes none of them but the clock. -/
theorem Step.effect (h : Step env plan s w s') :
    (∃ call outcome todo, s.workers w = .calling call todo ∧
      env.apply s.device call.operation outcome s'.device ∧ s'.clock = s.clock ∧
      (∀ x, s'.Replied x ↔ s.Replied x ∨ x = (call, outcome)) ∧
      ∀ e, s'.Responded e ↔ s.Responded e) ∨
    (∃ call outcome todo, s.workers w = .returned call outcome todo ∧
      env.tick s.clock s'.clock ∧ s'.device = s.device ∧ (∀ x, s'.Replied x ↔ s.Replied x) ∧
      ∀ e, s'.Responded e ↔
        s.Responded e ∨ e = { call with outcome, finished := s'.clock }) ∨
    ((s'.clock = s.clock ∨ env.tick s.clock s'.clock) ∧ s'.device = s.device ∧
      (∀ x, s'.Replied x ↔ s.Replied x) ∧ ∀ e, s'.Responded e ↔ s.Responded e) := by
  -- a worker that is not replied to before or after the step changes no reply and no response
  have quiet : ∀ {pc : Pc}, (s.workers w).reply? = none → (s.workers w).event? = none →
      pc.reply? = none → pc.event? = none → s'.workers = Function.update s.workers w pc →
      s'.history = s.history →
      (∀ x, s'.Replied x ↔ s.Replied x) ∧ ∀ e, s'.Responded e ↔ s.Responded e := by
    intro pc hreply hevent hreply' hevent' hworkers hhistory
    simp only [State.Replied, State.Responded, hworkers, hhistory]
    exact ⟨fun _ => or_congr_left (exists_update_of_eq (hreply'.trans hreply.symm)),
      fun _ => or_congr_left (exists_update_of_eq (hevent'.trans hevent.symm))⟩
  cases h with
  | arrive hpc | release hpc | pass hpc | timeout hpc =>
    exact .inr (.inr ⟨.inl rfl, rfl, quiet (by rw [hpc]; rfl) (by rw [hpc]; rfl) rfl rfl rfl rfl⟩)
  | broken hpc =>
    have hquiet : (s.workers w).reply? = none ∧ (s.workers w).event? = none := by
      rcases hpc with hpc | hpc <;> rw [hpc] <;> exact ⟨rfl, rfl⟩
    exact .inr (.inr ⟨.inl rfl, rfl, quiet hquiet.1 hquiet.2 rfl rfl rfl rfl⟩)
  | invoke hpc htick =>
    exact .inr (.inr ⟨.inr htick, rfl,
      quiet (by rw [hpc]; rfl) (by rw [hpc]; rfl) rfl rfl rfl rfl⟩)
  | @apply call todo outcome device hpc happly =>
    refine .inl ⟨call, outcome, todo, hpc, happly, rfl, fun x => ?_, fun e => ?_⟩
    · have hnew := exists_update_of_none (f := Pc.reply?) (p := .returned call outcome todo)
        (x := x) (show (s.workers w).reply? = none by rw [hpc]; rfl)
      refine (or_congr_left (hnew.trans (or_congr_right ?_))).trans or_right_comm
      exact Option.some_inj.trans eq_comm
    · exact or_congr_left (exists_update_of_eq (by rw [hpc]; rfl))
  | @respond call outcome todo now hpc htick =>
    refine .inr (.inl ⟨call, outcome, todo, hpc, htick, rfl, fun x => ?_, fun e => ?_⟩)
    · exact or_congr_left (exists_update_of_eq (by rw [hpc]; rfl))
    · have hnew := exists_update_of_none (f := Pc.event?) (x := e)
        (p := .recording { call with outcome, finished := now } todo)
        (show (s.workers w).event? = none by rw [hpc]; rfl)
      refine (or_congr_left (hnew.trans (or_congr_right ?_))).trans or_right_comm
      exact Option.some_inj.trans eq_comm
  | @record event todo hpc =>
    -- the event moves from the worker to the history
    refine .inr (.inr ⟨.inl rfl, rfl, fun x => ?_, fun e => ?_⟩)
    · have hold := exists_update_of_some (f := Pc.reply?) (x := x)
        (p := .running (if event.outcome.isOk then todo else []))
        (show (s.workers w).reply? = some (event.toCall, event.outcome) by rw [hpc]; rfl) rfl
      refine (or_congr_right ?_).trans (or_assoc.symm.trans (or_congr_left hold))
      simp only [List.mem_append, List.mem_singleton, or_and_right, exists_or, exists_eq_left]
      exact or_comm
    · have hold := exists_update_of_some (f := Pc.event?) (x := e)
        (p := .running (if event.outcome.isOk then todo else []))
        (show (s.workers w).event? = some event by rw [hpc]; rfl) rfl
      refine (or_congr_right ?_).trans (or_assoc.symm.trans (or_congr_left hold))
      rw [List.mem_append, List.mem_singleton, or_comm, eq_comm]

/-! ## Times -/

/-- The recording respects the clock, and a worker makes its calls one after the other. -/
structure State.Timed {n : ℕ} (s : State n δ) : Prop where
  started_le : ∀ w c, (s.workers w).call? = some c → c.started ≤ s.clock
  responded : ∀ e, s.Responded e → e.started ≤ e.finished ∧ e.finished ≤ s.clock
  current : ∀ (w : Fin n) (c), (s.workers w).call? = some c →
    ∀ e ∈ s.recordedBy w, e.finished ≤ c.started
  separate : s.history.Pairwise fun a b => a.index ≠ b.index ∧
    (a.worker = b.worker → a.sequence < b.sequence ∧ a.finished ≤ b.started)

/-- A call that has a reply has started. -/
theorem State.Timed.started_of_replied (h : s.Timed) {x : Call × Except Exc Json}
    (hx : s.Replied x) : x.1.started ≤ s.clock := by
  rcases hx with ⟨v, hv⟩ | ⟨e, he, rfl⟩
  · exact h.started_le v x.1 (Pc.call?_of_reply? hv)
  · exact (h.responded e (.inr he)).1.trans (h.responded e (.inr he)).2

variable (hclock : ∀ last now, env.tick last now → last ≤ now)

include hclock

/-- A clock that never goes back is not behind after a step. -/
theorem Step.clock_le (h : Step env plan s w s') : s.clock ≤ s'.clock := by
  rcases h.effect with ⟨_, _, _, -, -, hsame, -⟩ | ⟨_, _, _, -, htick, -⟩ | ⟨hsame | htick, -⟩
  · exact hsame.ge
  · exact hclock _ _ htick
  · exact hsame.ge
  · exact hclock _ _ htick

/-- A step keeps the times in order. -/
theorem Step.timed (h : Step env plan s w s') (hsound : s.Sound plan) (htimed : s.Timed) :
    s'.Timed := by
  have hle := h.clock_le hclock
  obtain ⟨-, pc, hworkers, hframe⟩ := h.frame
  have hself : s'.workers w = pc := by rw [hworkers, Function.update_self]
  have hother : ∀ v, v ≠ w → s'.workers v = s.workers v := fun v hv => by
    rw [hworkers, Function.update_of_ne hv]
  refine ⟨?started_le, ?responded, ?current, ?separate⟩
  case started_le =>
    intro v c hc
    by_cases hv : v = w
    · subst hv
      rw [hself] at hc
      rcases hframe with ⟨-, -, hcall⟩ | ⟨event, todo, -, rfl, -⟩
      · rcases hcall c hc with hold | ⟨-, -, hnew⟩
        · exact (htimed.started_le v c hold).trans hle
        · exact hnew.le
      · cases hc
    · exact (htimed.started_le v c (hother v hv ▸ hc)).trans hle
  case responded =>
    intro e he
    have hold : s.Responded e → e.started ≤ e.finished ∧ e.finished ≤ s'.clock := fun he =>
      ⟨(htimed.responded e he).1, (htimed.responded e he).2.trans hle⟩
    rcases h.effect with ⟨_, _, _, -, -, -, -, hsame⟩ |
      ⟨call, outcome, todo, hpc, -, -, -, hnew⟩ | ⟨-, -, -, hsame⟩
    · exact hold ((hsame e).mp he)
    · rcases (hnew e).mp he with he | rfl
      · exact hold he
      · exact ⟨(htimed.started_le w call (by rw [hpc]; rfl)).trans hle, le_rfl⟩
    · exact hold ((hsame e).mp he)
  case current =>
    intro v c hc e he
    by_cases hv : v = w
    · subst hv
      rw [hself] at hc
      rcases hframe with ⟨hhistory, -, hcall⟩ | ⟨event, todo, -, rfl, -⟩
      · rw [State.recordedBy, hhistory] at he
        rcases hcall c hc with hold | ⟨-, -, hnew⟩
        · exact htimed.current v c hold e he
        · -- a new call starts now
          rw [hnew]
          exact (htimed.responded e (.inr (List.mem_filter.mp he).1)).2.trans hle
      · cases hc
    · rw [h.recordedBy_of_ne hsound hv] at he
      exact htimed.current v c (hother v hv ▸ hc) e he
  case separate =>
    rcases hframe with ⟨hhistory, -⟩ | ⟨event, todo, hpc, -, hhistory⟩ <;> rw [hhistory]
    · exact htimed.separate
    · have hcall : (s.workers w).call? = some event.toCall := by rw [hpc]; rfl
      refine List.pairwise_append.mpr ⟨htimed.separate, List.pairwise_singleton _ _, ?_⟩
      intro e he event' hevent'
      obtain rfl := List.mem_singleton.mp hevent'
      have hworker := (hsound.call w _ hcall).1
      refine ⟨hsound.index_ne he hcall, fun heq => ?_⟩
      have hby : e ∈ s.recordedBy w := List.mem_filter.mpr ⟨he, by simpa using heq.trans hworker⟩
      exact ⟨(hsound.call_task hcall).2 e hby, htimed.current w _ hcall e hby⟩

/-- In every state of a run the times are in order. -/
theorem timed_of_run {device : δ} {clock : ℕ} {tr : List (Fin plan.workers)}
    (h : Run (Step env plan) (.start device clock) tr s) : s.Timed := by
  refine h.invariant (I := fun _ s => s.Timed) ?_ fun _ _ _ _ hrun htimed hstep =>
    hstep.timed hclock (sound_of_run hrun) htimed
  refine ⟨nofun, fun e he => ?_, nofun, .nil⟩
  rcases he with ⟨w, hw⟩ | he
  · cases hw
  · cases he

end

/-! ## Effects -/

section Effects

variable {plan : Plan} {s s' : State plan.workers SimulatedDevice} {w : Fin plan.workers}
  {order : List (Call × Except Exc Json)}

/-- The calls that took effect, in the order in which they did: the reference model answers them
in turn as the device did, and the order respects the sequences of the workers and real time. -/
structure Effects (plan : Plan) (s : State plan.workers SimulatedDevice)
    (order : List (Call × Except Exc Json)) : Prop where
  mem_iff : ∀ x, x ∈ order ↔ s.Replied x
  distinct : order.Pairwise fun a b => a.1.index ≠ b.1.index
  program : order.Pairwise fun a b => ¬(a.1.worker = b.1.worker ∧ b.1.sequence < a.1.sequence)
  realTime : order.Pairwise fun a b =>
    ∀ e, s.Responded e → e.toCall = b.1 → a.1.started ≤ e.finished
  answers : ((ReferenceModel.new plan.scenario.capacity).run
    (order.map fun x => plan.op x.1.index)).1.map (fun r => .ok r.toJson) = order.map Prod.snd
  device : s.device = .ofModel ((ReferenceModel.new plan.scenario.capacity).run
    (order.map fun x => plan.op x.1.index)).2

/-- A call that is yet to take effect is none of those that did, and later in its sequence. -/
theorem State.Sound.fresh (h : s.Sound plan) {call : Call} {todo : List (ℕ × ℕ)}
    (hpc : s.workers w = .calling call todo) {x : Call × Except Exc Json} (hx : s.Replied x) :
    x.1.index ≠ call.index ∧ ¬(x.1.worker = call.worker ∧ call.sequence < x.1.sequence) := by
  have hcall : (s.workers w).call? = some call := by rw [hpc]; rfl
  have hworker := (h.call w call hcall).1
  rcases hx with ⟨v, hv⟩ | ⟨e, he, rfl⟩
  · have hvcall := Pc.call?_of_reply? hv
    have hne : v ≠ w := by
      rintro rfl
      rw [hpc] at hv
      cases hv
    have hvworker := (h.call v x.1 hvcall).1
    refine ⟨fun hindex => hne ?_, fun heq => hne ?_⟩
    · have howner := (mem_tasksOf_iff.mp (h.call_task hvcall).1).1
      have howner' := (mem_tasksOf_iff.mp (h.call_task hcall).1).1
      rw [hindex, howner', Option.some.injEq] at howner
      exact Fin.ext howner.symm
    · exact Fin.ext (hvworker.symm.trans (heq.1.trans hworker))
  · refine ⟨h.index_ne he hcall, fun ⟨heq, hlt⟩ => ?_⟩
    have := (h.call_task hcall).2 e (List.mem_filter.mpr ⟨he, by simpa using heq.trans hworker⟩)
    exact absurd hlt this.asymm

/-- A step keeps the order of the effects, or adds one to it. -/
theorem Step.effects (h : Step .simulated plan s w s') (hsound : s.Sound plan)
    (htimed : s.Timed) (heffects : Effects plan s order) : ∃ order', Effects plan s' order' := by
  have hmem : ∀ {x}, x ∈ order → s.Replied x := fun hx => (heffects.mem_iff _).mp hx
  rcases h.effect with ⟨call, outcome, todo, hpc, ⟨op, hop, rfl, hdevice⟩, -, hreplied, hresponded⟩ |
    ⟨call, outcome, todo, hpc, htick, hdevice, hreplied, hresponded⟩ |
    ⟨-, hdevice, hreplied, hresponded⟩
  · -- the call takes effect after all others
    have hfresh : ∀ x ∈ order, x.1.index ≠ call.index ∧
        ¬(x.1.worker = call.worker ∧ call.sequence < x.1.sequence) :=
      fun x hx => hsound.fresh hpc (hmem hx)
    rw [hsound.validateOp_call (w := w) (by rw [hpc]; rfl)] at hop
    cases hop
    rw [heffects.device, SimulatedDevice.apply_eq] at hdevice
    refine ⟨order ++ [(call, .ok (s.device.apply (plan.op call.index)).1.toJson)], ?_⟩
    have hsnoc : ∀ {R : Call × Except Exc Json → Call × Except Exc Json → Prop} {x},
        order.Pairwise R → (∀ a ∈ order, R a x) → (order ++ [x]).Pairwise R := fun hold hnew =>
      List.pairwise_append.mpr ⟨hold, List.pairwise_singleton _ _, by simpa using hnew⟩
    refine ⟨fun x => ?_, hsnoc heffects.distinct fun a ha => (hfresh a ha).1,
      hsnoc heffects.program fun a ha => (hfresh a ha).2, hsnoc ?_ fun a ha e he hcall => ?_, ?_, ?_⟩
    · rw [hreplied, List.mem_append, List.mem_singleton, heffects.mem_iff]
    · exact heffects.realTime.imp fun hab e he => hab e ((hresponded e).mp he)
    · -- no event can be about this call yet
      refine absurd ?_ (hsound.fresh hpc ((hresponded e).mp he).replied).1
      exact congrArg Call.index hcall
    · rw [List.map_append, List.map_singleton, ReferenceModel.run_concat]
      simp only [List.map_append, List.map_singleton, heffects.answers, heffects.device,
        SimulatedDevice.apply_eq]
    · rw [List.map_append, List.map_singleton, ReferenceModel.run_concat]
      exact hdevice
  · refine ⟨order, ⟨fun x => ?_, heffects.distinct, heffects.program, ?_, heffects.answers, ?_⟩⟩
    · rw [hreplied, heffects.mem_iff]
    · -- whatever took effect by now started before now
      refine heffects.realTime.imp_of_mem fun ha hb hab e he hcall => ?_
      rcases (hresponded e).mp he with he | rfl
      · exact hab e he hcall
      · exact (htimed.started_of_replied (hmem ha)).trans htick
    · rw [hdevice, heffects.device]
  · refine ⟨order, ⟨fun x => ?_, heffects.distinct, heffects.program, ?_, heffects.answers, ?_⟩⟩
    · rw [hreplied, heffects.mem_iff]
    · exact heffects.realTime.imp fun hab e he => hab e ((hresponded e).mp he)
    · rw [hdevice, heffects.device]

/-- In every state of a run there is an order of the effects. -/
theorem effects_of_run {clock : ℕ} {tr : List (Fin plan.workers)}
    (h : Run (Step .simulated plan) (.start (.new plan.scenario.capacity .none) clock) tr s) :
    ∃ order, Effects plan s order := by
  refine h.invariant (I := fun _ s => ∃ order, Effects plan s order) ?_
    fun _ _ _ _ hrun ⟨_, heffects⟩ hstep => hstep.effects (sound_of_run hrun)
      (timed_of_run (fun _ _ h => h) hrun) heffects
  refine ⟨[], fun x => ?_, .nil, .nil, .nil, rfl, rfl⟩
  simp [State.Replied, State.start, Pc.reply?]

end Effects

/-! ## The end of a run -/

section End

variable {δ : Type} {env : Env δ} {plan : Plan} {s s' : State plan.workers δ} {w : Fin plan.workers}

/-- A thread raises only at a broken barrier, and starts only before the barrier is released. -/
structure State.Guarded {n : ℕ} (s : State n δ) : Prop where
  broken : ∀ w exc, s.workers w = .raised exc → s.barrier = .broken
  started : s.barrier = .released → ∀ w, s.workers w ≠ .starting

/-- A worker moves on, to a place that fits the barrier. -/
theorem State.Guarded.move {n : ℕ} {s s' : State n δ} (h : s.Guarded) {w : Fin n} {pc : Pc}
    (hworkers : s'.workers = Function.update s.workers w pc)
    (hbarrier : s'.barrier = s.barrier) (hraised : ∀ exc, pc = .raised exc → s.barrier = .broken)
    (hstarting : pc ≠ .starting) : s'.Guarded := by
  refine ⟨fun v exc hv => ?_, fun hreleased v hv => ?_⟩
  · rw [hbarrier]
    by_cases hvw : v = w
    · subst hvw
      rw [hworkers, Function.update_self] at hv
      exact hraised exc hv
    · rw [hworkers, Function.update_of_ne hvw] at hv
      exact h.broken v exc hv
  · rw [hbarrier] at hreleased
    by_cases hvw : v = w
    · subst hvw
      rw [hworkers, Function.update_self] at hv
      exact hstarting hv
    · rw [hworkers, Function.update_of_ne hvw] at hv
      exact h.started hreleased v hv

/-- A step keeps the guards on the barrier. -/
theorem Step.guarded (h : Step env plan s w s') (hguarded : s.Guarded) : s'.Guarded := by
  cases h with
  | arrive | pass | invoke | apply | respond | record => exact hguarded.move rfl rfl nofun nofun
  | broken _ hbarrier => exact hguarded.move rfl rfl (fun _ _ => hbarrier) nofun
  | timeout => exact ⟨fun _ _ _ => rfl, nofun⟩
  | release hpc hbarrier hothers =>
    -- all the others are at the barrier
    have hall : ∀ v, (s.move w .atBarrier).workers v = .atBarrier := fun v => by
      by_cases hv : v = w
      · subst hv
        exact Function.update_self ..
      · exact (Function.update_of_ne hv ..).trans (hothers v hv)
    refine ⟨fun v exc hv => ?_, fun _ v hv => ?_⟩ <;> rw [hall v] at hv <;> cases hv

/-- In every state of a run the barrier guards the workers. -/
theorem guarded_of_run {device : δ} {clock : ℕ} {tr : List (Fin plan.workers)}
    (h : Run (Step env plan) (.start device clock) tr s) : s.Guarded :=
  h.inductive (I := State.Guarded) ⟨nofun, nofun⟩ fun _ _ _ hguarded hstep =>
    hstep.guarded hguarded

/-- A broken barrier has turned a thread away, and nothing else makes a thread raise. -/
structure State.TurnsAway {n : ℕ} (s : State n δ) : Prop where
  raised : s.barrier = .broken → ∃ w, s.workers w = .raised brokenBarrier
  exc_eq : ∀ w exc, s.workers w = .raised exc → exc = brokenBarrier

/-- A thread moves on, to a place where it raises only for the broken barrier. -/
theorem State.TurnsAway.move {n : ℕ} {s s' : State n δ} (h : s.TurnsAway) {w : Fin n} {pc : Pc}
    (hworkers : s'.workers = Function.update s.workers w pc)
    (hexc : ∀ exc, pc = .raised exc → exc = brokenBarrier)
    (hraised : s'.barrier = .broken →
      pc = .raised brokenBarrier ∨ s.barrier = .broken ∧ ∀ exc, s.workers w ≠ .raised exc) :
    s'.TurnsAway := by
  refine ⟨fun hbroken => ?_, fun v exc hv => ?_⟩
  · rcases hraised hbroken with rfl | ⟨hbroken, hbefore⟩
    · exact ⟨w, by rw [hworkers, Function.update_self]⟩
    · -- who raised before is at its end, and does not move
      obtain ⟨v, hv⟩ := h.raised hbroken
      have hvw : v ≠ w := fun heq => hbefore _ (heq ▸ hv)
      exact ⟨v, by rwa [hworkers, Function.update_of_ne hvw]⟩
  · by_cases hvw : v = w
    · subst hvw
      rw [hworkers, Function.update_self] at hv
      exact hexc exc hv
    · rw [hworkers, Function.update_of_ne hvw] at hv
      exact h.exc_eq v exc hv

/-- What a worker has still to do: the number of its steps to the end, at most. -/
def Pc.work (tasks : List (ℕ × ℕ)) : Pc → ℕ
  | .starting => 4 * tasks.length + 2
  | .atBarrier => 4 * tasks.length + 1
  | .running todo => 4 * todo.length
  | .calling _ todo => 4 * todo.length + 3
  | .returned _ _ todo => 4 * todo.length + 2
  | .recording _ todo => 4 * todo.length + 1
  | .raised _ => 0

/-- What all workers have still to do. -/
def State.work (plan : Plan) (s : State plan.workers δ) : ℕ :=
  ∑ w, (s.workers w).work (plan.tasks w)

/-- Every step brings the end closer. -/
theorem Step.work_lt (h : Step env plan s w s') : s'.work plan < s.work plan := by
  obtain ⟨pc, hworkers, hlt⟩ : ∃ pc, s'.workers = Function.update s.workers w pc ∧
      pc.work (plan.tasks w) < (s.workers w).work (plan.tasks w) := by
    cases h with
    | arrive hpc | release hpc | pass hpc | timeout hpc | apply hpc | respond hpc =>
      exact ⟨_, rfl, by rw [hpc]; simp [Pc.work]⟩
    | broken hpc => exact ⟨_, rfl, by rcases hpc with hpc | hpc <;> rw [hpc] <;> simp [Pc.work]⟩
    | invoke hpc => exact ⟨_, rfl, by rw [hpc]; simp [Pc.work]; omega⟩
    | record hpc => exact ⟨_, rfl, by rw [hpc]; split_ifs <;> simp [Pc.work]⟩
  refine Finset.sum_lt_sum (fun v _ => ?_) ⟨w, Finset.mem_univ w, ?_⟩
  · rw [hworkers]
    by_cases hv : v = w
    · subst hv
      rw [Function.update_self]
      exact hlt.le
    · rw [Function.update_of_ne hv]
  · rw [hworkers, Function.update_self]
    exact hlt

/-- A worker can move until its thread has ended, if its call on the device can take effect. -/
theorem exists_step_of_call (hguarded : s.Guarded) (htick : ∀ last, ∃ now, env.tick last now)
    (happly : ∀ call todo, s.workers w = .calling call todo →
      ∃ outcome device, env.apply s.device call.operation outcome device)
    (hrunning : ¬(s.workers w = .running [] ∨ ∃ exc, s.workers w = .raised exc)) :
    ∃ s', Step env plan s w s' := by
  cases hpc : s.workers w with
  | starting =>
    cases hbarrier : s.barrier with
    | filling =>
      by_cases hothers : ∃ v, v ≠ w ∧ s.workers v ≠ .atBarrier
      · exact ⟨_, .arrive hpc hbarrier hothers⟩
      · push Not at hothers
        exact ⟨_, .release hpc hbarrier hothers⟩
    | released => exact absurd hpc (hguarded.started hbarrier w)
    | broken => exact ⟨_, .broken (.inl hpc) hbarrier⟩
  | atBarrier =>
    cases hbarrier : s.barrier with
    | filling => exact ⟨_, .timeout hpc hbarrier⟩
    | released => exact ⟨_, .pass hpc hbarrier⟩
    | broken => exact ⟨_, .broken (.inr hpc) hbarrier⟩
  | running todo =>
    cases todo with
    | nil => exact absurd (.inl hpc) hrunning
    | cons task todo =>
      obtain ⟨now, hnow⟩ := htick s.clock
      exact ⟨_, .invoke hpc hnow⟩
  | calling call todo =>
    obtain ⟨outcome, device, hdevice⟩ := happly call todo hpc
    exact ⟨_, .apply hpc hdevice⟩
  | returned call outcome todo =>
    obtain ⟨now, hnow⟩ := htick s.clock
    exact ⟨_, .respond hpc hnow⟩
  | recording event todo => exact ⟨_, .record hpc⟩
  | raised exc => exact absurd (.inr ⟨exc, hpc⟩) hrunning

/-- A worker can move until its thread has ended. -/
theorem exists_step (hguarded : s.Guarded) (hsound : s.Sound plan)
    (htick : ∀ last, ∃ now, env.tick last now)
    (happly : ∀ operation op, validateOp operation = .ok op →
      ∃ outcome device, env.apply s.device operation outcome device)
    (hrunning : ¬(s.workers w = .running [] ∨ ∃ exc, s.workers w = .raised exc)) :
    ∃ s', Step env plan s w s' :=
  exists_step_of_call hguarded htick
    (fun call _ hpc => happly call.operation _ (hsound.validateOp_call (w := w) (by rw [hpc]; rfl)))
    hrunning

/-- Every run can go on until all threads have ended. -/
theorem exists_finished (htick : ∀ last, ∃ now, env.tick last now)
    (happly : ∀ device operation op, validateOp operation = .ok op →
      ∃ outcome device', env.apply device operation outcome device')
    {device : δ} {clock : ℕ} {tr : List (Fin plan.workers)}
    (hrun : Run (Step env plan) (.start device clock) tr s) :
    ∃ tr' s', Run (Step env plan) (.start device clock) tr' s' ∧ s'.Finished := by
  -- on the work that is left
  induction hwork : s.work plan using Nat.strong_induction_on generalizing tr s with
  | _ work ih =>
    by_cases hfinished : s.Finished
    · exact ⟨tr, s, hrun, hfinished⟩
    · simp only [State.Finished, not_forall] at hfinished
      obtain ⟨w, hw⟩ := hfinished
      obtain ⟨s', hstep⟩ := exists_step (guarded_of_run hrun) (sound_of_run hrun) htick
        (happly s.device) hw
      exact ih _ (hwork ▸ hstep.work_lt) (hrun.snoc hstep) rfl

end End

end Lab
