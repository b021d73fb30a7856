import KernelBridge.Lab.Locked
import KernelBridge.Lab.Syscalls

/-!
# The harness around the driver

`evaluate_concurrent` with `LinuxDevice`: the workers call into the driver without a lock between
them, and their calls overlap there. A state is one of `Lab.Concurrency` whose device is the driver
with the threads of the workers in it (`DriverStep`). A signal can end a call, or the kernel
restarts it, and an allocation can fail.

The harness around the simulated device, whose calls can raise, does all that this system does
(`Tracks`, `exists_raising_run`): a call that overlaps others takes effect at one point between its
start and its return. Among the runs are those in which the calls do not overlap
(`exists_run_oneAtATime`).
-/

namespace Lab

open Py Lts
open LinuxDevice (Serves Advance Simulates settled normalise syscall)
open RingbufChar (Reply Sys stepThread)

/-! ## Steps -/

section Steps

/-- No call on the device takes effect in a step of the harness; a clock that never goes back. -/
def Env.pending {δ : Type} : Env δ where
  apply _ _ _ _ := False
  tick last now := last ≤ now

/-- The simulated device, where a call can also raise, and then has no effect. -/
def Env.raising (raises : Prop) : Env SimulatedDevice where
  apply device operation outcome device' :=
    Env.simulated.apply device operation outcome device' ∨
      raises ∧ ∃ exc, outcome = .error exc ∧ device' = device
  tick last now := last ≤ now

/-- What `LinuxDevice.apply` returns or raises for the reply to its system call. -/
def Returns (op : Op) (reply : Reply) (outcome : Except Exc Json) : Prop :=
  match normalise op reply with
  | .ok result => outcome = .ok result.toJson
  | .error _ => ∃ exc, outcome = .error exc

/-- The thread of a worker moves within the driver, and does nothing to the device. -/
def State.within {n : ℕ} (s : State n (Sys (Fin n))) (w : Fin n) (pc : RingbufChar.Pc) :
    State n (Sys (Fin n)) :=
  { s with device := { s.device with pc := Function.update s.device.pc w pc } }

/-- The next step of a worker of the harness around the driver. `raises` says whether signals arrive
and allocations fail. -/
inductive DriverStep (raises : Prop) (plan : Plan) :
    State plan.workers (Sys (Fin plan.workers)) → Fin plan.workers →
      State plan.workers (Sys (Fin plan.workers)) → Prop
  | harness {s w s'} (h : Step .pending plan s w s') : DriverStep raises plan s w s'
  | enter {s w call todo op} (hpc : s.workers w = .calling call todo)
      (hidle : s.device.pc w = .idle) (hop : validateOp call.operation = .ok op) :
      DriverStep raises plan s w (s.within w (.entry (syscall op)))
  | kernel {s w env eff} (hcopy : env.copy.Faultless) (hquiet : raises ∨ env.Quiet)
      (hret : ∀ reply, s.device.pc w ≠ .ret reply)
      (hs : stepThread env s.device.dev (s.device.pc w) = some eff) :
      DriverStep raises plan s w { s with device := s.device.apply w eff }
  | leave {s w call todo op reply outcome} (hpc : s.workers w = .calling call todo)
      (hop : validateOp call.operation = .ok op) (hret : s.device.pc w = .ret reply)
      (houtcome : Returns op reply outcome) :
      DriverStep raises plan s w ((s.move w (.returned call outcome todo)).within w .idle)
  /-- The system call is made again after the signal was handled. -/
  | restart {s w call todo reply} (hpc : s.workers w = .calling call todo)
      (hret : s.device.pc w = .ret reply) (hrestart : reply.value = .error .ERESTARTSYS) :
      DriverStep raises plan s w (s.within w .idle)

end Steps

/-! ## Effects -/

/-- Where a worker and its thread in the driver stand, and where the worker of the simulated device
stands: a call there takes effect when it does in the driver, or when it raises. -/
inductive Tracks (raises : Prop) : Pc → RingbufChar.Pc → Pc → Prop
  | outside (pc : Pc) : Tracks raises pc .idle pc
  | serves {call todo op kpc} (hop : validateOp call.operation = .ok op) (hserves : Serves op kpc) :
      Tracks raises (.calling call todo) kpc (.calling call todo)
  | effected {call todo op kpc reply result} (hop : validateOp call.operation = .ok op)
      (hsettled : settled kpc = some reply) (hresult : normalise op reply = .ok result) :
      Tracks raises (.calling call todo) kpc (.returned call (.ok result.toJson) todo)
  | failed {call todo op kpc reply errno} (hop : validateOp call.operation = .ok op)
      (hsettled : settled kpc = some reply) (hresult : normalise op reply = .error errno)
      (hraises : raises) : Tracks raises (.calling call todo) kpc (.calling call todo)

section Refinement

variable {raises : Prop} {plan : Plan} {s s' : State plan.workers (Sys (Fin plan.workers))}
  {t : State plan.workers SimulatedDevice} {w : Fin plan.workers} {pc pc' : Pc}
  {kpc : RingbufChar.Pc}

/-- A worker of the harness never sleeps in the driver, so there is none to wake. -/
theorem Tracks.wake (h : Tracks raises pc kpc pc') (q : RingbufChar.WaitQueue) :
    kpc.wake q = kpc := by
  cases h with
  | outside => rfl
  | serves _ hserves => exact hserves.wake q
  | effected _ hsettled | failed _ hsettled => exact LinuxDevice.wake_of_settled hsettled q

/-- A worker that is not in a call stands where the other does. -/
theorem Tracks.eq_of_ne (h : Tracks raises pc kpc pc')
    (hpc : ∀ call todo, pc ≠ .calling call todo) : kpc = .idle ∧ pc' = pc := by
  cases h with
  | outside => exact ⟨rfl, rfl⟩
  | serves | effected | failed => exact absurd rfl (hpc _ _)

/-- The other worker is not at the barrier either. -/
theorem Tracks.ne_atBarrier (h : Tracks raises pc kpc pc') (hpc : pc ≠ .atBarrier) :
    pc' ≠ .atBarrier := by
  cases h with
  | outside => exact hpc
  | serves | effected | failed => exact nofun

/-- The harness around the simulated device stands where the one around the driver does. -/
structure Refines (raises : Prop) (plan : Plan) (s : State plan.workers (Sys (Fin plan.workers)))
    (t : State plan.workers SimulatedDevice) : Prop where
  device : ∃ model, Simulates s.device.dev model ∧ t.device = .ofModel model
  clock : t.clock = s.clock
  barrier : t.barrier = s.barrier
  history : t.history = s.history
  tracks : ∀ w, Tracks raises (s.workers w) (s.device.pc w) (t.workers w)

namespace Refines

/-- Both workers move to the same place, outside the driver. -/
theorem move (h : Refines raises plan s t) {s' : State plan.workers (Sys (Fin plan.workers))}
    {t' : State plan.workers SimulatedDevice} {pc : Pc} (hkpc : s.device.pc w = .idle)
    (hdevice : s'.device = s.device ∧ t'.device = t.device) (hclock : t'.clock = s'.clock)
    (hbarrier : t'.barrier = s'.barrier) (hhistory : t'.history = s'.history)
    (hworkers : s'.workers = Function.update s.workers w pc ∧
      t'.workers = Function.update t.workers w pc) : Refines raises plan s' t' := by
  refine ⟨by rw [hdevice.1, hdevice.2]; exact h.device, hclock, hbarrier, hhistory, fun v => ?_⟩
  rw [hdevice.1, hworkers.1, hworkers.2]
  by_cases hv : v = w
  · subst hv
    rw [Function.update_self, Function.update_self, hkpc]
    exact .outside pc
  · rw [Function.update_of_ne hv, Function.update_of_ne hv]
    exact h.tracks v

/-- The harness around the simulated device takes the same step. -/
theorem harness (h : Refines raises plan s t) (hstep : Step .pending plan s w s') :
    ∃ t', Step (.raising raises) plan t w t' ∧ Refines raises plan s' t' := by
  -- a worker that takes such a step is outside the driver
  have houtside : ∀ {pc}, s.workers w = pc → (∀ call todo, pc ≠ .calling call todo) →
      s.device.pc w = .idle ∧ t.workers w = pc := fun hpc hne => by
    subst hpc
    exact (h.tracks w).eq_of_ne hne
  cases hstep with
  | arrive hpc hbarrier hothers =>
    obtain ⟨hkpc, hpc'⟩ := houtside hpc nofun
    obtain ⟨v, hv, hne⟩ := hothers
    exact ⟨_, .arrive hpc' (h.barrier.trans hbarrier) ⟨v, hv, (h.tracks v).ne_atBarrier hne⟩,
      h.move hkpc ⟨rfl, rfl⟩ h.clock h.barrier h.history ⟨rfl, rfl⟩⟩
  | release hpc hbarrier hothers =>
    obtain ⟨hkpc, hpc'⟩ := houtside hpc nofun
    refine ⟨_, .release hpc' (h.barrier.trans hbarrier) fun v hv => ?_,
      h.move hkpc ⟨rfl, rfl⟩ h.clock rfl h.history ⟨rfl, rfl⟩⟩
    have htracks := h.tracks v
    rw [hothers v hv] at htracks
    exact (htracks.eq_of_ne nofun).2
  | pass hpc hbarrier =>
    obtain ⟨hkpc, hpc'⟩ := houtside hpc nofun
    exact ⟨_, .pass hpc' (h.barrier.trans hbarrier),
      h.move hkpc ⟨rfl, rfl⟩ h.clock h.barrier h.history ⟨rfl, rfl⟩⟩
  | timeout hpc hbarrier =>
    obtain ⟨hkpc, hpc'⟩ := houtside hpc nofun
    exact ⟨_, .timeout hpc' (h.barrier.trans hbarrier),
      h.move hkpc ⟨rfl, rfl⟩ h.clock rfl h.history ⟨rfl, rfl⟩⟩
  | broken hpc hbarrier =>
    have hout : s.device.pc w = .idle ∧ (t.workers w = .starting ∨ t.workers w = .atBarrier) := by
      rcases hpc with hpc | hpc
      · exact (houtside hpc nofun).imp_right .inl
      · exact (houtside hpc nofun).imp_right .inr
    exact ⟨_, .broken hout.2 (h.barrier.trans hbarrier),
      h.move hout.1 ⟨rfl, rfl⟩ h.clock h.barrier h.history ⟨rfl, rfl⟩⟩
  | invoke hpc htick =>
    obtain ⟨hkpc, hpc'⟩ := houtside hpc nofun
    refine ⟨_, .invoke hpc' (?_ : t.clock ≤ _),
      h.move hkpc ⟨rfl, rfl⟩ rfl h.barrier h.history ⟨rfl, rfl⟩⟩
    rw [h.clock]
    exact htick
  | apply _ happly => exact happly.elim
  | respond hpc htick =>
    obtain ⟨hkpc, hpc'⟩ := houtside hpc nofun
    refine ⟨_, .respond hpc' (?_ : t.clock ≤ _),
      h.move hkpc ⟨rfl, rfl⟩ rfl h.barrier h.history ⟨rfl, rfl⟩⟩
    rw [h.clock]
    exact htick
  | record hpc =>
    obtain ⟨hkpc, hpc'⟩ := houtside hpc nofun
    exact ⟨_, .record hpc', h.move hkpc ⟨rfl, rfl⟩ h.clock h.barrier
      (congrArg (· ++ [_]) h.history) ⟨rfl, rfl⟩⟩

/-- The thread of a worker moves within the driver. -/
theorem within (h : Refines raises plan s t) {kpc : RingbufChar.Pc}
    (htracks : Tracks raises (s.workers w) kpc (t.workers w)) :
    Refines raises plan (s.within w kpc) t := by
  refine ⟨h.device, h.clock, h.barrier, h.history, fun v => ?_⟩
  simp only [State.within]
  by_cases hv : v = w
  · subst hv
    rw [Function.update_self]
    exact htracks
  · rw [Function.update_of_ne hv]
    exact h.tracks v

/-- The call of a worker ends. -/
theorem leave (h : Refines raises plan s t) {t' : State plan.workers SimulatedDevice} {pc : Pc}
    (ht' : t' = { t with workers := Function.update t.workers w pc }) :
    Refines raises plan ((s.move w pc).within w .idle) t' := by
  subst ht'
  refine ⟨h.device, h.clock, h.barrier, h.history, fun v => ?_⟩
  simp only [State.within, State.move]
  by_cases hv : v = w
  · subst hv
    rw [Function.update_self, Function.update_self, Function.update_self]
    exact .outside pc
  · rw [Function.update_of_ne hv, Function.update_of_ne hv, Function.update_of_ne hv]
    exact h.tracks v

/-- The thread of a worker takes a step in the driver, and the worker of the simulated device may
take one too. -/
theorem kernel (h : Refines raises plan s t) {eff : RingbufChar.Effect} {pc : Pc}
    {model : ReferenceModel} (hsim : Simulates eff.dev model)
    (htracks : Tracks raises (s.workers w) eff.pc pc) :
    Refines raises plan { s with device := s.device.apply w eff }
      { t.move w pc with device := .ofModel model } := by
  refine ⟨⟨model, hsim, rfl⟩, h.clock, h.barrier, h.history, fun v => ?_⟩
  -- a wake-up changes nothing for the threads of the workers
  have hwake : (s.device.apply w eff).pc v = Function.update s.device.pc w eff.pc v := by
    simp only [Sys.apply]
    cases eff.wake with
    | none => rfl
    | some q =>
      by_cases hv : v = w
      · subst hv
        rw [Function.update_self]
        exact htracks.wake q
      · rw [Function.update_of_ne hv]
        exact (h.tracks v).wake q
  simp only [hwake, State.move]
  by_cases hv : v = w
  · subst hv
    rw [Function.update_self, Function.update_self]
    exact htracks
  · rw [Function.update_of_ne hv, Function.update_of_ne hv]
    exact h.tracks v

/-- The thread of a worker takes a step in the driver, and the worker of the simulated device stays
where it is. -/
theorem kernel_stay (h : Refines raises plan s t) {eff : RingbufChar.Effect}
    {model : ReferenceModel} (hsim : Simulates eff.dev model) (hdevice : t.device = .ofModel model)
    (htracks : Tracks raises (s.workers w) eff.pc (t.workers w)) :
    Refines raises plan { s with device := s.device.apply w eff } t := by
  have hmove := h.kernel hsim htracks
  rwa [State.move, Function.update_eq_self, ← hdevice] at hmove

end Refines

/-- The harness around the simulated device takes the same step, or stays where it is. -/
theorem DriverStep.refines (h : DriverStep raises plan s w s') (hrefines : Refines raises plan s t) :
    Refines raises plan s' t ∨ ∃ t', Step (.raising raises) plan t w t' ∧ Refines raises plan s' t' := by
  have htracks := hrefines.tracks w
  obtain ⟨model, hsim, hdevice⟩ := hrefines.device
  cases h with
  | harness hstep => exact .inr (hrefines.harness hstep)
  | enter hpc hidle hop =>
    refine .inl (hrefines.within ?_)
    rw [hpc, hidle] at htracks
    rw [hpc]
    generalize t.workers w = pc' at htracks ⊢
    cases htracks with
    | outside => exact .serves hop (.entry _)
    | serves _ hserves => exact absurd rfl hserves.ne_idle
    | effected _ hsettled | failed _ hsettled => cases hsettled
  | @kernel env eff hcopy hquiet hret hs =>
    generalize hpc : s.workers w = pc at htracks
    generalize hkpc : s.device.pc w = kpc at htracks hret hs
    generalize hpc' : t.workers w = pc' at htracks
    cases htracks with
    | outside => cases hs
    | @serves call todo op _ hop hserves =>
      have hadvance := hserves.step hsim (validateOp_valid hop) hcopy hs
      cases hadvance with
      | serves hserves' hsim' =>
        refine .inl (hrefines.kernel_stay hsim' hdevice ?_)
        rw [hpc, hpc']
        exact .serves hop hserves'
      | effected hsettled hresult hsim' =>
        -- the call takes effect
        refine .inr ⟨_, .apply hpc' (.inl ⟨op, hop, rfl, rfl⟩), ?_⟩
        rw [hdevice, SimulatedDevice.apply_eq]
        refine hrefines.kernel hsim' ?_
        rw [hpc]
        exact .effected hop hsettled hresult
      | failed hsettled hresult hsim' hloud =>
        refine .inl (hrefines.kernel_stay hsim' hdevice ?_)
        rw [hpc, hpc']
        exact .failed hop hsettled hresult (hquiet.resolve_right hloud)
    | effected hop hsettled hresult =>
      obtain ⟨hsettled', hbuffer, hdown⟩ := LinuxDevice.stepThread_settled hsettled hret hs
      refine .inl (hrefines.kernel_stay ⟨hbuffer ▸ hsim.represents, hdown.trans hsim.up⟩ hdevice ?_)
      rw [hpc, hpc']
      exact .effected hop hsettled' hresult
    | failed hop hsettled hresult hraises =>
      obtain ⟨hsettled', hbuffer, hdown⟩ := LinuxDevice.stepThread_settled hsettled hret hs
      refine .inl (hrefines.kernel_stay ⟨hbuffer ▸ hsim.represents, hdown.trans hsim.up⟩ hdevice ?_)
      rw [hpc, hpc']
      exact .failed hop hsettled' hresult hraises
  | @leave call todo op reply outcome hpc hop hret houtcome =>
    rw [hpc, hret] at htracks
    generalize hpc' : t.workers w = pc' at htracks
    cases htracks with
    | serves _ hserves => exact absurd rfl hserves.ne_ret
    | effected hop' hsettled hresult =>
      -- the call took effect before
      cases hsettled
      rw [hop] at hop'
      cases hop'
      rw [Returns, hresult] at houtcome
      subst houtcome
      refine .inl (hrefines.leave ?_)
      rw [← hpc', Function.update_eq_self]
    | failed hop' hsettled hresult hraises =>
      cases hsettled
      rw [hop] at hop'
      cases hop'
      rw [Returns, hresult] at houtcome
      obtain ⟨exc, hexc⟩ : ∃ exc, outcome = .error exc := houtcome
      exact .inr ⟨_, .apply hpc' (.inr ⟨hraises, exc, hexc, rfl⟩), hrefines.leave rfl⟩
  | @restart call todo reply hpc hret hrestart =>
    rw [hpc, hret] at htracks
    refine .inl (hrefines.within ?_)
    rw [hpc]
    generalize t.workers w = pc' at htracks ⊢
    cases htracks with
    | serves _ hserves => exact absurd rfl hserves.ne_ret
    | @effected _ _ op _ _ result hop hsettled hresult =>
      -- a call that is interrupted has no result
      cases hsettled
      rw [normalise, hrestart] at hresult
      cases hresult
    | failed => exact .outside _

/-- Where a run on the driver starts. -/
def State.startDriver (plan : Plan) (dev : RingbufChar.Dev) (clock : ℕ) :
    State plan.workers (Sys (Fin plan.workers)) :=
  .start (.initial _ dev) clock

/-- At the start the systems are in step. -/
theorem Refines.start {dev : RingbufChar.Dev} (hdev : Simulates dev (.new plan.scenario.capacity))
    (clock : ℕ) : Refines raises plan (.startDriver plan dev clock)
      (.start (.new plan.scenario.capacity .none) clock) :=
  ⟨⟨_, hdev, rfl⟩, rfl, rfl, rfl, fun _ => .outside _⟩

/-- Every run on the driver is one on the simulated device, to the recording. -/
theorem exists_raising_run {dev : RingbufChar.Dev} {clock : ℕ} {tr : List (Fin plan.workers)}
    (hdev : Simulates dev (.new plan.scenario.capacity))
    (hrun : Run (DriverStep raises plan) (.startDriver plan dev clock) tr s) :
    ∃ tr' t, Run (Step (.raising raises) plan) (.start (.new plan.scenario.capacity .none) clock) tr' t ∧
      Refines raises plan s t :=
  hrun.refine (.start hdev clock) fun _ _ _ _ hrefines hstep =>
    (hstep.refines hrefines).imp_right fun ⟨t', hstep', hrefines'⟩ => ⟨_, t', hstep', hrefines'⟩

end Refinement

/-! ## Calls that do not overlap -/

section Alone

variable {plan : Plan}

/-- A driver that is up and holds a queue. -/
abbrev LiveDriver := { dev : RingbufChar.Dev // ∃ model, Simulates dev model }

/-- The driver, where a call takes effect at once, as it does for a single thread without signals
and failed allocations. -/
def Env.oneAtATime : Env LiveDriver where
  apply dev operation outcome dev' := ∃ op reply, validateOp operation = .ok op ∧
    RingbufChar.call .quiet dev.1 (syscall op) = some (reply, dev'.1) ∧ Returns op reply outcome
  tick last now := last ≤ now

/-- Every valid operation can be applied. -/
theorem exists_apply_oneAtATime (dev : LiveDriver) (op : Op) {operation : Json}
    (hop : validateOp operation = .ok op) :
    ∃ outcome dev', Env.oneAtATime.apply dev operation outcome dev' := by
  obtain ⟨model, hsim⟩ := dev.property
  obtain ⟨dev', happly, hsim'⟩ :=
    LinuxDevice.apply_simulates hsim RingbufChar.Env.quiet_quiet (validateOp_valid hop)
  obtain ⟨⟨reply, _⟩, hcall, heq⟩ := Option.map_eq_some_iff.mp happly
  obtain ⟨hresult, rfl⟩ := Prod.mk.inj heq
  have hreturns : Returns op reply (.ok (model.apply op).1.toJson) := by rw [Returns, hresult]
  exact ⟨_, ⟨_, _, hsim'⟩, op, reply, hop, hcall, hreturns⟩

/-- A call that is alone in the driver runs to its end. -/
theorem exists_run_alone (raises : Prop) {fuel : ℕ} {s : State plan.workers (Sys (Fin plan.workers))}
    {w : Fin plan.workers} {call : Call} {todo : List (ℕ × ℕ)} {op : Op} {reply : Reply}
    {dev' : RingbufChar.Dev} {outcome : Except Exc Json} (hpc : s.workers w = .calling call todo)
    (hop : validateOp call.operation = .ok op) (hothers : ∀ v, v ≠ w → s.device.pc v = .idle)
    (h : Loop.run (RingbufChar.soloStep .quiet) fuel (s.device.dev, s.device.pc w) =
      some (some (reply, dev'))) (houtcome : Returns op reply outcome) :
    ∃ tr, Run (DriverStep raises plan) s tr
      ((s.move w (.returned call outcome todo)).withDevice ⟨dev', fun _ => .idle⟩) := by
  induction fuel generalizing s with
  | zero => cases h
  | succ fuel ih =>
    by_cases hret : ∃ reply', s.device.pc w = .ret reply'
    · obtain ⟨reply', hret⟩ := hret
      rw [Loop.run_succ, hret] at h
      cases h
      have hidle : (fun _ => .idle) = Function.update s.device.pc w .idle := by
        funext v
        by_cases hv : v = w
        · rw [hv, Function.update_self]
        · rw [Function.update_of_ne hv, hothers v hv]
      rw [hidle]
      exact ⟨_, .cons (.leave hpc hop hret houtcome) .nil⟩
    · push Not at hret
      cases hs : stepThread .quiet s.device.dev (s.device.pc w) with
      | none =>
        rw [Loop.run_of_exit (RingbufChar.soloStep_of_none hs)] at h
        cases h
      | some eff =>
        rw [Loop.run_of_continue (RingbufChar.soloStep_of_some hret hs),
          ← RingbufChar.Sys.pc_apply_self hs] at h
        have hstep : DriverStep raises plan s w { s with device := s.device.apply w eff } :=
          .kernel RingbufChar.Env.quiet_quiet.faultless (.inr RingbufChar.Env.quiet_quiet) hret hs
        obtain ⟨tr, hrun⟩ := ih (s := { s with device := s.device.apply w eff }) hpc (fun v hv => by
          rw [RingbufChar.Sys.pc_apply, Function.update_of_ne hv, hothers v hv]
          split <;> rfl) h
        exact ⟨_, .cons hstep hrun⟩

/-- The state with the threads of the workers outside the driver. -/
def State.outside {n : ℕ} (s : State n LiveDriver) : State n (Sys (Fin n)) :=
  s.withDevice (.initial _ s.device.1)

/-- The harness around the driver can make calls one after the other. -/
theorem exists_run_oneAtATime (raises : Prop) {s : State plan.workers LiveDriver} {dev : LiveDriver} {clock : ℕ}
    {tr : List (Fin plan.workers)} (h : Run (Step .oneAtATime plan) (.start dev clock) tr s) :
    ∃ tr', Run (DriverStep raises plan) (.startDriver plan dev.1 clock) tr' s.outside := by
  induction h with
  | nil => exact ⟨[], .nil⟩
  | @snoc _ s w s' _ hstep ih =>
    obtain ⟨tr', hrun⟩ := ih
    suffices hnext : ∃ tr, Run (DriverStep raises plan) s.outside tr s'.outside by
      obtain ⟨tr, hnext⟩ := hnext
      exact ⟨_, hrun.append hnext⟩
    cases hstep with
    | arrive hpc hbarrier hothers => exact ⟨_, .cons (.harness (.arrive hpc hbarrier hothers)) .nil⟩
    | release hpc hbarrier hothers =>
      exact ⟨_, .cons (.harness (.release hpc hbarrier hothers)) .nil⟩
    | pass hpc hbarrier => exact ⟨_, .cons (.harness (.pass hpc hbarrier)) .nil⟩
    | timeout hpc hbarrier => exact ⟨_, .cons (.harness (.timeout hpc hbarrier)) .nil⟩
    | broken hpc hbarrier => exact ⟨_, .cons (.harness (.broken hpc hbarrier)) .nil⟩
    | invoke hpc htick => exact ⟨_, .cons (.harness (.invoke hpc htick)) .nil⟩
    | apply hpc happly =>
      obtain ⟨op, reply, hop, hcall, houtcome⟩ := happly
      -- the worker enters the driver, and is alone there
      have henter : DriverStep raises plan s.outside w (s.outside.within w (.entry (syscall op))) :=
        .enter hpc rfl hop
      have hentry : (s.outside.within w (.entry (syscall op))).device.pc w = .entry (syscall op) :=
        Function.update_self ..
      obtain ⟨tr, hrun⟩ := exists_run_alone raises (s := s.outside.within w (.entry (syscall op)))
        (w := w) hpc hop (fun v hv => Function.update_of_ne hv ..)
        (by rw [hentry]; exact Option.join_eq_some_iff.mp hcall) houtcome
      exact ⟨_, .cons henter hrun⟩
    | respond hpc htick => exact ⟨_, .cons (.harness (.respond hpc htick)) .nil⟩
    | record hpc => exact ⟨_, .cons (.harness (.record hpc)) .nil⟩

end Alone

end Lab
