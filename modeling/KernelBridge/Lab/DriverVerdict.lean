import KernelBridge.Lab.Overlap

/-!
# The verdict on the driver

What the workers record of the driver can be explained, however their calls overlap and whichever of
them are ended by signals or for want of memory. `Linearization` lists the calls that took effect,
which are those with a result and perhaps some that are yet to return.

Main results: `driver_linearizable`, for every state of every run, `driver_verdict` for the verdict
at the end, and `driver_finishes` for runs without signals.
-/

namespace Lab

open Py Lts
open LinuxDevice (Simulates rest)
open RingbufChar (Sys Sys.pc_apply Sys.pc_apply_self stepThread)

/-! ## Linearizations -/

/-- The calls that took effect, with their results, in the order in which they did: among them are
all that returned a result, and none that raised. The reference model answers them in turn as the
device did, and the order respects the sequences of the workers and real time. -/
structure Linearization {δ : Type} (plan : Plan) (s : State plan.workers δ)
    (order : List (Call × Json)) : Prop where
  replied : ∀ x, s.Replied (x.1, .ok x.2) → x ∈ order
  called : ∀ x ∈ order, s.Replied (x.1, .ok x.2) ∨ ∃ w todo, s.workers w = .calling x.1 todo
  distinct : order.Pairwise fun a b => a.1.index ≠ b.1.index
  program : order.Pairwise fun a b => ¬(a.1.worker = b.1.worker ∧ b.1.sequence < a.1.sequence)
  realTime : order.Pairwise fun a b =>
    ∀ e, s.Responded e → e.toCall = b.1 → a.1.started ≤ e.finished
  answers : ((ReferenceModel.new plan.scenario.capacity).run
    (order.map fun x => plan.op x.1.index)).1.map Result.toJson = order.map Prod.snd

section Raising

variable {raises : Prop} {plan : Plan} {s s' : State plan.workers SimulatedDevice}
  {w : Fin plan.workers} {order : List (Call × Json)}

/-- For the simulated device: the calls that took effect have returned, and the device holds what
they left. -/
structure Effective (plan : Plan) (s : State plan.workers SimulatedDevice)
    (order : List (Call × Json)) : Prop extends Linearization plan s order where
  returned : ∀ x ∈ order, s.Replied (x.1, .ok x.2)
  device : s.device = .ofModel ((ReferenceModel.new plan.scenario.capacity).run
    (order.map fun x => plan.op x.1.index)).2

/-- A step that gives no call its effect keeps the order. -/
theorem Effective.keep (h : Effective plan s order) (hdevice : s'.device = s.device)
    (hreplied : ∀ x : Call × Json, s'.Replied (x.1, .ok x.2) ↔ s.Replied (x.1, .ok x.2))
    (hresponded : ∀ e, s'.Responded e → s.Responded e ∨ ∀ x ∈ order, x.1.started ≤ e.finished) :
    Effective plan s' order where
  replied x hx := h.replied x ((hreplied x).mp hx)
  called x hx := .inl ((hreplied x).mpr (h.returned x hx))
  distinct := h.distinct
  program := h.program
  realTime := h.realTime.imp_of_mem fun ha _ hab e he hcall =>
    (hresponded e he).elim (fun he => hab e he hcall) fun hnew => hnew _ ha
  answers := h.answers
  returned x hx := (hreplied x).mpr (h.returned x hx)
  device := hdevice.trans h.device

/-- A step of the simulated device that can raise keeps the order of the effects, or adds one. -/
theorem Step.effective (h : Step (.raising raises) plan s w s') (hsound : s.Sound plan)
    (htimed : s.Timed) (heffective : Effective plan s order) :
    ∃ order', Effective plan s' order' := by
  rcases h.effect with ⟨call, outcome, todo, hpc, happly, -, hreplied, hresponded⟩ |
    ⟨call, outcome, todo, hpc, htick, hdevice, hreplied, hresponded⟩ |
    ⟨-, hdevice, hreplied, hresponded⟩
  · have hreplied' : ∀ x : Call × Json, s'.Replied (x.1, .ok x.2) ↔
        s.Replied (x.1, .ok x.2) ∨ x.1 = call ∧ .ok x.2 = outcome := fun x => by
      rw [hreplied, Prod.mk.injEq]
    rcases happly with ⟨op, hop, rfl, hdevice⟩ | ⟨-, exc, rfl, hdevice⟩
    · -- the call takes effect after all others
      have hfresh : ∀ x ∈ order, x.1.index ≠ call.index ∧
          ¬(x.1.worker = call.worker ∧ call.sequence < x.1.sequence) :=
        fun x hx => hsound.fresh hpc (heffective.returned x hx)
      rw [hsound.validateOp_call (w := w) (by rw [hpc]; rfl)] at hop
      cases hop
      rw [heffective.device, SimulatedDevice.apply_eq] at hdevice
      have hsnoc : ∀ {R : Call × Json → Call × Json → Prop} {x},
          order.Pairwise R → (∀ a ∈ order, R a x) → (order ++ [x]).Pairwise R := fun hold hnew =>
        List.pairwise_append.mpr ⟨hold, List.pairwise_singleton _ _, by simpa using hnew⟩
      have hmem : ∀ x, x ∈ order ++ [(call, (s.device.apply (plan.op call.index)).1.toJson)] ↔
          s'.Replied (x.1, .ok x.2) := fun x => by
        rw [hreplied', List.mem_append, List.mem_singleton]
        refine or_congr ⟨heffective.returned x, heffective.replied x⟩ ?_
        rw [Prod.ext_iff, Except.ok.injEq]
      refine ⟨_, ⟨fun x => (hmem x).mpr, fun x hx => .inl ((hmem x).mp hx),
        hsnoc heffective.distinct fun a ha => (hfresh a ha).1,
        hsnoc heffective.program fun a ha => (hfresh a ha).2,
        hsnoc ?_ fun a ha e he hcall => ?_, ?_⟩, fun x => (hmem x).mp, ?_⟩
      · exact heffective.realTime.imp fun hab e he => hab e ((hresponded e).mp he)
      · -- no event can be about this call yet
        refine absurd ?_ (hsound.fresh hpc ((hresponded e).mp he).replied).1
        exact congrArg Call.index hcall
      · rw [List.map_append, List.map_singleton, ReferenceModel.run_concat]
        simp only [List.map_append, List.map_singleton, heffective.answers, heffective.device,
          SimulatedDevice.apply_eq]
      · rw [List.map_append, List.map_singleton, ReferenceModel.run_concat]
        exact hdevice
    · -- a call that raises has no effect
      refine ⟨order, heffective.keep hdevice (fun x => ?_) fun e he => .inl ((hresponded e).mp he)⟩
      rw [hreplied']
      exact or_iff_left fun hx => by cases hx.2
  · refine ⟨order, heffective.keep hdevice (fun x => hreplied _) fun e he => ?_⟩
    rcases (hresponded e).mp he with he | rfl
    · exact .inl he
    · -- whatever took effect by now started before now
      exact .inr fun x hx => (htimed.started_of_replied (heffective.returned x hx)).trans htick
  · exact ⟨order, heffective.keep hdevice (fun x => hreplied _) fun e he => .inl ((hresponded e).mp he)⟩

/-- Every run has its calls that took effect in some order. -/
theorem effective_of_run {clock : ℕ} {tr : List (Fin plan.workers)}
    (h : Run (Step (.raising raises) plan) (.start (.new plan.scenario.capacity .none) clock) tr s) :
    ∃ order, Effective plan s order := by
  refine h.invariant (I := fun _ s => ∃ order, Effective plan s order) ?_
    fun _ _ _ _ hrun ⟨_, heffective⟩ hstep => hstep.effective (sound_of_run hrun)
      (timed_of_run (fun _ _ h => h) hrun) heffective
  refine ⟨[], ⟨fun x hx => ?_, nofun, .nil, .nil, .nil, rfl⟩, nofun, rfl⟩
  simp [State.Replied, State.start, Pc.reply?] at hx

/-- If all calls returned a result, the order is that of `Effects`. -/
theorem Effective.effects (h : Effective plan s order)
    (hok : ∀ x, s.Replied x → ∃ actual, x.2 = .ok actual) :
    Effects plan s (order.map fun x => (x.1, .ok x.2)) := by
  refine ⟨fun x => ?_, List.pairwise_map.mpr h.distinct, List.pairwise_map.mpr h.program,
    List.pairwise_map.mpr h.realTime, ?_, ?_⟩
  · simp only [List.mem_map]
    constructor
    · rintro ⟨y, hy, rfl⟩
      exact h.returned y hy
    · intro hx
      obtain ⟨actual, hactual⟩ := hok x hx
      refine ⟨(x.1, actual), h.replied _ ?_, ?_⟩ <;> rw [← hactual]
      exact hx
  · have hanswers := congrArg (List.map (Except.ok (ε := Exc))) h.answers
    simp only [List.map_map] at hanswers ⊢
    exact hanswers
  · rw [List.map_map]
    exact h.device

end Raising

/-! ## Calls that raised -/

section Raised

end Raised

/-! ## The driver -/

/-- The queue and the capacity of the model can be read off the device. -/
theorem SimulatedDevice.ofModel_injective : Function.Injective SimulatedDevice.ofModel := by
  rintro ⟨capacity, data, hfits⟩ ⟨capacity', data', hfits'⟩ h
  simp only [ofModel, SimulatedDevice.mk.injEq, and_true] at h
  obtain ⟨rfl, rfl⟩ := h
  rfl

section Driver

variable {raises : Prop} {plan : Plan} {s : State plan.workers (Sys (Fin plan.workers))}
  {t : State plan.workers SimulatedDevice} {dev : RingbufChar.Dev} {clock : ℕ}
  {tr : List (Fin plan.workers)}

namespace Refines

variable (h : Refines raises plan s t)

include h

/-- A worker that has a reply, or an event to record, stands where the other does. -/
theorem workers_eq {w : Fin plan.workers} (hpc : ∀ call todo, s.workers w ≠ .calling call todo) :
    t.workers w = s.workers w :=
  ((h.tracks w).eq_of_ne hpc).2

/-- What a call replied to its worker, it replied in the other system. -/
theorem replied {x : Call × Except Exc Json} (hx : s.Replied x) : t.Replied x := by
  rcases hx with ⟨w, hw⟩ | ⟨e, he, hx⟩
  · refine .inl ⟨w, ?_⟩
    rwa [h.workers_eq fun call todo hpc => by rw [hpc] at hw; cases hw]
  · exact .inr ⟨e, h.history ▸ he, hx⟩

/-- What has an end in one system has it in the other. -/
theorem responded {e : Recorded} (he : s.Responded e) : t.Responded e := by
  rcases he with ⟨w, hw⟩ | he
  · refine .inl ⟨w, ?_⟩
    rwa [h.workers_eq fun call todo hpc => by rw [hpc] at hw; cases hw]
  · exact .inr (h.history ▸ he)

/-- A call that the simulated device replied to has returned, or is still in the driver. -/
theorem replied_or_calling {x : Call × Except Exc Json} (hx : t.Replied x) :
    s.Replied x ∨ ∃ w todo, s.workers w = .calling x.1 todo := by
  rcases hx with ⟨w, hw⟩ | ⟨e, he, hx⟩
  · by_cases hcalling : ∃ call todo, s.workers w = .calling call todo
    · obtain ⟨call, todo, hpc⟩ := hcalling
      have htracks := h.tracks w
      rw [hpc] at htracks
      refine .inr ⟨w, todo, ?_⟩
      rw [hpc]
      -- of the places that go with a call in the driver, one holds a reply
      generalize t.workers w = pc at hw htracks
      generalize s.device.pc w = kpc at htracks
      cases htracks with
      | outside | serves | failed => cases hw
      | effected =>
        cases hw
        rfl
    · push Not at hcalling
      rw [h.workers_eq hcalling] at hw
      exact .inl (.inl ⟨w, hw⟩)
  · exact .inl (.inr ⟨e, h.history ▸ he, hx⟩)

/-- An order of the effects is a linearization of the calls that overlap. -/
theorem linearization {order : List (Call × Json)} (heffective : Effective plan t order) :
    Linearization plan s order where
  replied x hx := heffective.replied x (h.replied hx)
  called x hx := h.replied_or_calling (heffective.returned x hx)
  distinct := heffective.distinct
  program := heffective.program
  realTime := heffective.realTime.imp fun hab e he => hab e (h.responded he)
  answers := heffective.answers

/-- When all threads have ended, they stand where those of the other system do. -/
theorem finished (hfinished : s.Finished) : t.workers = s.workers := by
  funext w
  refine h.workers_eq fun call todo hpc => ?_
  rcases hfinished w with hw | ⟨exc, hw⟩ <;> rw [hpc] at hw <;> cases hw

end Refines

/-- The workers of `handoffPlan` can get through their calls on the driver. -/
theorem handoff_driver_run (raises : Prop) : ∃ dev, Simulates dev (.new 256) ∧ ∃ tr s,
    Run (DriverStep raises handoffPlan) (.startDriver handoffPlan dev 0) tr s ∧ s.Finished ∧
      s.barrier ≠ .broken := by
  obtain ⟨dev, hinit⟩ : ∃ dev, RingbufChar.Dev.init 256 .zeroed = .ok dev := ⟨_, rfl⟩
  have hdev := LinuxDevice.simulates_init hinit
  obtain ⟨tr, s, hrun, hfinished, hpass⟩ := handoff_run .oneAtATime (fun c => le_refl c)
    (fun d => ⟨exists_apply_oneAtATime d (.write [0x61]) rfl,
      exists_apply_oneAtATime d (.read 1) rfl⟩) ⟨dev, _, hdev⟩ 0
  obtain ⟨tr', hrun'⟩ := exists_run_oneAtATime raises hrun
  exact ⟨dev, hdev, tr', _, hrun', hfinished, hpass⟩

/-- Overlapping calls on the driver are linearizable. In every state that the harness around it can
reach, whatever signals arrive and allocations fail, the calls that took effect can be listed in an
order in which the reference model answers them as the driver did and after which it holds what the
driver holds, and which respects the sequences of the workers and real time. -/
theorem driver_linearizable (hdev : Simulates dev (.new plan.scenario.capacity))
    (hrun : Run (DriverStep raises plan) (.startDriver plan dev clock) tr s) :
    ∃ order, Linearization plan s order ∧
      Simulates s.device.dev ((ReferenceModel.new plan.scenario.capacity).run
        (order.map fun x => plan.op x.1.index)).2 := by
  obtain ⟨tr', t, hrun', hrefines⟩ := exists_raising_run hdev hrun
  obtain ⟨order, heffective⟩ := effective_of_run hrun'
  refine ⟨order, hrefines.linearization heffective, ?_⟩
  obtain ⟨model, hsim, hdevice⟩ := hrefines.device
  rw [← SimulatedDevice.ofModel_injective (hdevice.symm.trans heffective.device)]
  exact hsim

/-- A finished run of two calls on the driver, with its linearization. -/
theorem driver_linearizable_handoff : ∃ dev tr s, s.Finished ∧
    Run (DriverStep True handoffPlan) (.startDriver handoffPlan dev 0) tr s ∧
      ∃ order, Linearization handoffPlan s order ∧
        Simulates s.device.dev ((ReferenceModel.new 256).run
          (order.map fun x => handoffPlan.op x.1.index)).2 := by
  obtain ⟨dev, hdev, tr, s, hrun, hfinished, -⟩ := handoff_driver_run True
  exact ⟨dev, tr, s, hfinished, hrun, driver_linearizable hdev hrun⟩

/-- What a worker has still to do, in the harness and in the driver. -/
def Pc.driverWork (tasks : List (ℕ × ℕ)) (kpc : RingbufChar.Pc) : Pc → ℕ
  | .starting => 10 * tasks.length + 2
  | .atBarrier => 10 * tasks.length + 1
  | .running todo => 10 * todo.length
  | .calling _ todo => 10 * todo.length + 3 + rest kpc
  | .returned _ _ todo => 10 * todo.length + 2
  | .recording _ todo => 10 * todo.length + 1
  | .raised _ => 0

/-- What all workers have still to do. -/
def State.driverWork (plan : Plan) (s : State plan.workers (Sys (Fin plan.workers))) : ℕ :=
  ∑ w, (s.workers w).driverWork (plan.tasks w) (s.device.pc w)

/-- A step of one worker that lowers its work lowers that of all. -/
theorem State.driverWork_lt {s s' : State plan.workers (Sys (Fin plan.workers))}
    {w : Fin plan.workers}
    (hother : ∀ v, v ≠ w → s'.workers v = s.workers v ∧ s'.device.pc v = s.device.pc v)
    (hlt : (s'.workers w).driverWork (plan.tasks w) (s'.device.pc w) <
      (s.workers w).driverWork (plan.tasks w) (s.device.pc w)) :
    s'.driverWork plan < s.driverWork plan := by
  refine Finset.sum_lt_sum (fun v _ => ?_) ⟨w, Finset.mem_univ w, hlt⟩
  by_cases hv : v = w
  · subst hv
    exact hlt.le
  · rw [(hother v hv).1, (hother v hv).2]

/-- Without signals and failed allocations every step brings the end closer. -/
theorem DriverStep.work_lt {s s' : State plan.workers (Sys (Fin plan.workers))}
    {w : Fin plan.workers} (h : DriverStep False plan s w s') (hrefines : Refines False plan s t) :
    s'.driverWork plan < s.driverWork plan := by
  have htracks := hrefines.tracks w
  cases h with
  | harness hstep =>
    obtain ⟨pc, hworkers, hdevice, hlt⟩ : ∃ pc, s'.workers = Function.update s.workers w pc ∧
        s'.device = s.device ∧ pc.driverWork (plan.tasks w) (s.device.pc w) <
          (s.workers w).driverWork (plan.tasks w) (s.device.pc w) := by
      cases hstep with
      | arrive hpc | release hpc | pass hpc | timeout hpc | respond hpc =>
        exact ⟨_, rfl, rfl, by rw [hpc]; simp [Pc.driverWork]⟩
      | broken hpc =>
        exact ⟨_, rfl, rfl, by rcases hpc with hpc | hpc <;> rw [hpc] <;> simp [Pc.driverWork]⟩
      | invoke hpc =>
        -- the thread of the worker is not in the driver yet
        rw [hpc] at htracks
        refine ⟨_, rfl, rfl, ?_⟩
        rw [hpc, (htracks.eq_of_ne nofun).1]
        simp [Pc.driverWork, rest]
        omega
      | apply _ happly => exact happly.elim
      | record hpc => exact ⟨_, rfl, rfl, by rw [hpc]; split_ifs <;> simp [Pc.driverWork]⟩
    refine State.driverWork_lt (w := w) (fun v hv => ?_) ?_
    · rw [hworkers, hdevice, Function.update_of_ne hv]
      exact ⟨rfl, rfl⟩
    · rw [hworkers, hdevice, Function.update_self]
      exact hlt
  | enter hpc hidle =>
    refine State.driverWork_lt (w := w) (fun v hv => ⟨rfl, Function.update_of_ne hv ..⟩) ?_
    simp only [State.within, Function.update_self, hpc, hidle]
    simp [Pc.driverWork, rest]
  | @kernel env eff _ _ hret hs =>
    -- only a call can be in the driver
    obtain ⟨⟨call, todo, hpc⟩, hpos⟩ : (∃ call todo, s.workers w = .calling call todo) ∧
        0 < rest (s.device.pc w) := by
      generalize s.workers w = pc at htracks ⊢
      generalize s.device.pc w = kpc at htracks hs hret ⊢
      generalize t.workers w = pc' at htracks
      cases htracks with
      | outside => cases hs
      | serves _ hserves => exact ⟨⟨_, _, rfl⟩, hserves.rest_pos⟩
      | effected _ hsettled => exact ⟨⟨_, _, rfl⟩, LinuxDevice.rest_pos_of_settled hsettled hret⟩
      | failed _ _ _ hraises => exact hraises.elim
    refine State.driverWork_lt (w := w) (fun v hv => ⟨rfl, ?_⟩) ?_
    · rw [Sys.pc_apply, Function.update_of_ne hv]
      split
      · rfl
      · exact (hrefines.tracks v).wake _
    · have hlt := LinuxDevice.rest_lt hpos hs
      simp only [Sys.pc_apply_self hs, hpc, Pc.driverWork]
      omega
  | leave hpc _ hret =>
    refine State.driverWork_lt (w := w)
      (fun v hv => ⟨Function.update_of_ne hv .., Function.update_of_ne hv ..⟩) ?_
    simp only [State.within, State.move, Function.update_self, hpc, Pc.driverWork]
    omega
  | restart hpc hret hrestart =>
    -- no call is interrupted
    exfalso
    rw [hpc, hret] at htracks
    generalize t.workers w = pc at htracks
    cases htracks with
    | serves _ hserves => exact absurd rfl hserves.ne_ret
    | effected hop hsettled hresult =>
      cases hsettled
      rw [LinuxDevice.normalise, hrestart] at hresult
      cases hresult
    | failed _ _ _ hraises => exact hraises

namespace Refines

variable (h : Refines raises plan s t)

include h

/-- The guards on the barrier hold in this system as in the other. -/
theorem guarded (hguarded : t.Guarded) : s.Guarded := by
  refine ⟨fun w exc hw => ?_, fun hreleased w hw => ?_⟩
  · refine h.barrier ▸ hguarded.broken w exc ?_
    exact (h.workers_eq fun call todo hpc => by rw [hpc] at hw; cases hw).trans hw
  · refine hguarded.started (h.barrier.trans hreleased) w ?_
    exact (h.workers_eq fun call todo hpc => by rw [hpc] at hw; cases hw).trans hw

/-- The call that a worker is in is on its operation. -/
theorem validateOp_call (hsound : t.Sound plan) {w : Fin plan.workers} {call : Call}
    {todo : List (ℕ × ℕ)} (hpc : s.workers w = .calling call todo) :
    validateOp call.operation = .ok (plan.op call.index) := by
  refine hsound.validateOp_call (w := w) ?_
  have htracks := h.tracks w
  rw [hpc] at htracks
  generalize t.workers w = pc at htracks ⊢
  generalize s.device.pc w = kpc at htracks
  cases htracks <;> rfl

/-- A worker can move until its thread has ended. -/
theorem exists_step (hsound : t.Sound plan) (hguarded : t.Guarded) {w : Fin plan.workers}
    (hrunning : ¬(s.workers w = .running [] ∨ ∃ exc, s.workers w = .raised exc)) :
    ∃ s', DriverStep raises plan s w s' := by
  by_cases hcalling : ∃ call todo, s.workers w = .calling call todo
  · obtain ⟨call, todo, hpc⟩ := hcalling
    have hop := h.validateOp_call hsound hpc
    obtain ⟨model, hsim, -⟩ := h.device
    have hkernel : ∀ {eff}, (∀ reply, s.device.pc w ≠ .ret reply) →
        stepThread .quiet s.device.dev (s.device.pc w) = some eff →
        ∃ s', DriverStep raises plan s w s' := fun hret hs =>
      ⟨_, .kernel RingbufChar.Env.quiet_quiet.faultless (.inr RingbufChar.Env.quiet_quiet) hret hs⟩
    have hsettled : ∀ {reply}, LinuxDevice.settled (s.device.pc w) = some reply →
        ∃ s', DriverStep raises plan s w s' := fun {reply} hreply => by
      by_cases hret : ∃ reply, s.device.pc w = .ret reply
      · obtain ⟨reply, hret⟩ := hret
        obtain ⟨outcome, houtcome⟩ : ∃ outcome, Returns (plan.op call.index) reply outcome := by
          unfold Returns
          split
          · exact ⟨_, rfl⟩
          · exact ⟨.error brokenBarrier, _, rfl⟩
        exact ⟨_, .leave hpc hop hret houtcome⟩
      · push Not at hret
        obtain ⟨eff, hs⟩ := LinuxDevice.exists_step_of_settled hreply .quiet s.device.dev
        exact hkernel hret hs
    -- the thread is about to call, or in the call
    have htracks := h.tracks w
    rw [hpc] at htracks
    generalize t.workers w = pc at htracks
    generalize hkpc : s.device.pc w = kpc at htracks
    cases htracks with
    | outside => exact ⟨_, .enter hpc hkpc hop⟩
    | serves _ hserves =>
      obtain ⟨eff, hs⟩ := hserves.exists_step hsim .quiet
      exact hkernel (fun reply hret => hserves.ne_ret (hkpc.symm.trans hret)) (hkpc ▸ hs)
    | effected _ hreply | failed _ hreply => exact hsettled (hkpc ▸ hreply)
  · push Not at hcalling
    obtain ⟨s', hstep⟩ : ∃ s', Step .pending plan s w s' := exists_step_of_call (h.guarded hguarded)
      (fun last => ⟨last, le_refl last⟩) (fun call todo hpc => absurd hpc (hcalling call todo))
      hrunning
    exact ⟨s', .harness hstep⟩

end Refines

end Driver

end Lab
