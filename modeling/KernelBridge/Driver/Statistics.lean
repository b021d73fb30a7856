import KernelBridge.Driver.Calls
import Mathlib.Algebra.BigOperators.Group.Finset.Basic
import Mathlib.Data.BitVec

/-!
# Statistics and the queue

A transfer adds its bytes to the totals after it has dropped the mutex, so at any moment the totals
lag behind the queue by what the calls in flight have not added yet. Counting these bytes in
(`inFlight`), the totals are what has been moved (`total_of_run`), and with the conservation law
they balance against the bytes stored and discarded.

The totals wrap at `2 ^ 64`. The balance is stated in their own arithmetic, and in numbers for the
runs that have not written that many bytes.

`RESET_STATS` sets the totals back. That a thread is executing it, or `CLEAR`, implies that the
command has been issued (`Pc.Runs`).

Main result: `stats_consistent`.
-/

namespace RingbufChar

open Buffer

/-! ## Snapshots -/

/-- The fields of a snapshot fit together. -/
def Stats.Consistent (st : Stats) : Prop :=
  st.storedBytes + st.availableBytes = st.currentCapacity ∧ 256 ≤ st.currentCapacity ∧
    st.currentCapacity ≤ 65536

/-- A snapshot handed back is consistent. -/
def Output.Consistent : Output → Prop
  | .stats st => st.Consistent
  | _ => True

/-- A snapshot about to be handed back is consistent. -/
def Pc.Consistent : Pc → Prop
  | .copyOut out _ => out.Consistent
  | .ret r => r.output.Consistent
  | _ => True

variable {dev dev' : Dev} {env : Env} {pc : Pc} {eff : Effect}

/-- The snapshot of a buffer is consistent. -/
theorem Dev.consistent_fillStats (hwf : dev.buffer.WellFormed) : dev.fillStats.Consistent := by
  have hfit := hwf.len_le
  refine ⟨?_, hwf.min_le, hwf.le_max⟩
  simp only [Dev.fillStats, Buffer.stored, hwf.available_eq]
  omega

/-- A wakeup does not change a snapshot. -/
theorem Pc.consistent_wake (q : WaitQueue) (pc : Pc) :
    (pc.wake q).Consistent ↔ pc.Consistent := by
  unfold Pc.wake
  split <;> rfl

/-- What follows a transfer holds no snapshot. -/
theorem Transfer.consistent_after (rw : Transfer) (out : Outcome) : (rw.after out).Consistent := by
  cases out with
  | moved bytes =>
    rw [after]
    split_ifs
    · trivial
    · cases rw <;> trivial
  | _ => trivial

/-- The start of an `ioctl` holds no snapshot. -/
theorem consistent_dispatch (cmd : BitVec 32) (arg : UserArg) : (dispatch cmd arg).Consistent := by
  rcases dispatch_cases cmd arg with ⟨e, h⟩ | ⟨-, h⟩ | ⟨ctl, -, h⟩ | ⟨-, h⟩
  · rw [h]
    trivial
  · rw [h]
    trivial
  · rw [h]
    trivial
  · rw [h]
    trivial

/-- A control call takes its snapshot in one step. -/
theorem Control.consistent_step (hwf : dev.buffer.WellFormed) (ctl : Control) (env : Env) :
    (ctl.step env dev).pc.Consistent := by
  cases ctl with
  | getStats => exact Dev.consistent_fillStats hwf
  | setCapacity requested =>
    simp only [Control.step]
    split <;> trivial
  | _ => trivial

/-- Every step of a thread keeps the snapshots consistent. -/
theorem stepThread_consistent (hwf : dev.buffer.WellFormed) (h : pc.Consistent)
    (hs : stepThread env dev pc = some eff) : eff.pc.Consistent := by
  cases pc with
  | idle => cases hs
  | entry c =>
    cases hs
    cases c with
    | transfer rw =>
      simp only [Call.enter]
      split_ifs
      · cases rw <;> trivial
      · trivial
    | _ => trivial
  | lock rw =>
    rcases Transfer.lockStep_eq_some hs with rfl | ⟨out, dev', -, rfl⟩
    · trivial
    · exact rw.consistent_after out
  | wait rw seen phase =>
    rcases Transfer.waitStep_eq_some hs with rfl | ⟨next, rfl⟩ | rfl <;> trivial
  | wakePeer rw bytes => cases hs; cases rw <;> trivial
  | dispatch cmd arg => cases hs; exact consistent_dispatch cmd arg
  | control ctl => cases hs; exact ctl.consistent_step hwf env
  | copyOut out writable =>
    cases hs
    dsimp only
    split_ifs
    · exact h
    · trivial
  | resetStats rest => rcases rest with _ | ⟨counter, rest⟩ <;> cases hs <;> trivial
  | _ => cases hs; trivial

/-! ## Commands -/

/-- The thread is executing the ioctl command `cmd`, and has not done its work yet. -/
def Pc.Runs (cmd : BitVec 32) : Pc → Prop
  | .entry (.ioctl cmd' _) => cmd' = cmd
  | .dispatch cmd' _ => cmd' = cmd
  | .control .clear => cmd = iocClear
  | .resetStats _ => cmd = iocResetStats
  | _ => False

variable {cmd : BitVec 32}

/-- A wakeup does not change the command that runs. -/
theorem Pc.runs_wake (q : WaitQueue) (pc : Pc) : (pc.wake q).Runs cmd ↔ pc.Runs cmd := by
  unfold Pc.wake
  split <;> rfl

/-- An `ioctl` runs the command that it was called with. -/
theorem runs_dispatch {cmd' : BitVec 32} {arg : UserArg} (h : (dispatch cmd' arg).Runs cmd) :
    cmd' = cmd := by
  rcases dispatch_cases cmd' arg with ⟨e, heq⟩ | ⟨hclear, heq⟩ | ⟨ctl, hne, heq⟩ | ⟨hreset, heq⟩
  · rw [heq] at h
    exact absurd h id
  · rw [heq] at h
    exact hclear.trans h.symm
  · rw [heq] at h
    cases ctl with
    | clear => exact absurd rfl hne
    | _ => exact absurd h id
  · rw [heq] at h
    exact hreset.trans h.symm

/-- What follows a transfer runs no command. -/
theorem Transfer.not_runs_after (rw : Transfer) (out : Outcome) : ¬(rw.after out).Runs cmd := by
  intro h
  cases out with
  | moved bytes =>
    rw [after] at h
    split_ifs at h <;> exact h
  | _ => exact h

/-- A thread executes a command only if it has been executing it. -/
theorem stepThread_runs (hs : stepThread env dev pc = some eff) (h : eff.pc.Runs cmd) :
    pc.Runs cmd := by
  cases pc with
  | idle => cases hs
  | entry c =>
    cases hs
    cases c with
    | transfer rw =>
      simp only [Call.enter] at h
      split_ifs at h <;> exact absurd h id
    | ioctl => exact h
    | _ => exact absurd h id
  | lock rw =>
    rcases Transfer.lockStep_eq_some hs with rfl | ⟨out, dev', -, rfl⟩
    · exact absurd h id
    · exact absurd h (rw.not_runs_after out)
  | wait rw seen phase =>
    rcases Transfer.waitStep_eq_some hs with rfl | ⟨next, rfl⟩ | rfl <;> exact absurd h id
  | dispatch cmd' arg => cases hs; exact runs_dispatch h
  | control ctl =>
    cases hs
    cases ctl with
    | setCapacity requested =>
      simp only [Control.step] at h
      split at h <;> exact absurd h id
    | _ => exact absurd h id
  | copyOut out writable =>
    cases hs
    dsimp only at h
    split_ifs at h <;> exact absurd h id
  | resetStats rest =>
    -- after its last counter `RESET_STATS` is done, so the thread has left the command
    rcases rest with _ | ⟨counter, rest⟩ <;> cases hs
    · exact absurd h id
    · exact h
  | _ => cases hs; exact absurd h id

/-! ## Totals -/

/-- The counters of bytes. -/
def Counter.IsTotal (c : Counter) : Prop := c = .totalBytesWritten ∨ c = .totalBytesRead

/-- The totals are not among the other counters. -/
theorem Counter.IsTotal.ne {c : Counter} (h : c.IsTotal) {c' : Counter}
    (hc' : c' ≠ .totalBytesWritten ∧ c' ≠ .totalBytesRead) : c ≠ c' := by
  rcases h with rfl | rfl
  · exact hc'.1.symm
  · exact hc'.2.symm

/-- The bytes that a step moves and that will be added to the counter `c`. -/
def Event.moves (c : Counter) : Event → ℕ
  | .critical _ (.wrote bytes) => if c = .totalBytesWritten then bytes.length else 0
  | .critical _ (.delivered bytes) => if c = .totalBytesRead then bytes.length else 0
  | _ => 0

/-- The bytes that a step discards. -/
def Event.discards : Event → ℕ
  | .critical _ (.discarded bytes) => bytes.length
  | _ => 0

/-- The bytes that the call has moved and has not added to the counter `c` yet. -/
def Pc.unadded (c : Counter) : Pc → ℕ
  | .account rw bytes => if c = rw.total then bytes.length else 0
  | _ => 0

variable {c : Counter}

/-- A wakeup does not change what is still to be added. -/
theorem Pc.unadded_wake (q : WaitQueue) (pc : Pc) : (pc.wake q).unadded c = pc.unadded c := by
  unfold Pc.wake
  split <;> rfl

/-- Counting leaves the other counters alone. -/
theorem Dev.counters_inc_of_ne (dev : Dev) {c' : Counter} (h : c ≠ c') :
    (dev.inc c').counters c = dev.counters c := Function.update_of_ne h _ _

/-- Noting a failure leaves the other counters alone. -/
theorem Dev.counters_noteIf_of_ne (faulted : Bool) (dev : Dev) (h : c ≠ .failedOperations) :
    (dev.noteIf faulted).counters c = dev.counters c := by
  cases faulted
  · rfl
  · exact dev.counters_inc_of_ne h

/-- The mutex section of a transfer does not touch the totals. -/
theorem Transfer.Ends.total_eq {rw : Transfer} {uc : UserCopy} {out : Outcome}
    (h : rw.Ends uc dev out dev') (hc : c.IsTotal) : dev'.counters c = dev.counters c := by
  -- a section notes failures and blocked calls, and both have counters of their own
  have hfailed : c ≠ .failedOperations := hc.ne (by decide)
  cases rw with
  | read nonblock count =>
    cases h with
    | eof => rfl
    | again => rfl
    | wait => exact dev.counters_inc_of_ne (hc.ne (by decide))
    | fault => exact dev.counters_inc_of_ne hfailed
    | moved k faulted => exact Dev.counters_noteIf_of_ne faulted _ hfailed
  | write nonblock data =>
    cases h with
    | down => rfl
    | again => rfl
    | wait => exact dev.counters_inc_of_ne (hc.ne (by decide))
    | fault hup hspace b => exact Dev.counters_inc_of_ne { dev with buffer := b } hfailed
    | moved hup k faulted => exact Dev.counters_noteIf_of_ne faulted _ hfailed

/-- The bytes moved by a section are the bytes its caller will add. -/
theorem Transfer.unadded_after (rw : Transfer) (found : Dev) (out : Outcome) :
    (rw.after out).unadded c = (Event.critical found (rw.movedBy out)).moves c := by
  cases out with
  | moved bytes =>
    rw [after]
    -- a section that has moved nothing skips the accounting, and there is nothing to account
    rcases Nat.eq_zero_or_pos bytes.length with hzero | hpos
    · rw [if_neg (by omega)]
      cases rw <;> simp [Pc.unadded, Event.moves, movedBy, moved, hzero]
    · rw [if_pos hpos]
      cases rw <;> rfl
  | _ => cases rw <;> rfl

/-- The control sections do not touch the totals, and move nothing. -/
theorem Control.total_eq (ctl : Control) (env : Env) (dev : Dev) (hc : c.IsTotal) :
    (ctl.step env dev).dev.counters c = dev.counters c ∧
      (ctl.step env dev).pc.unadded c = 0 ∧ (ctl.step env dev).event.moves c = 0 := by
  cases ctl with
  | clear =>
    refine ⟨?_, rfl, rfl⟩
    exact Dev.counters_inc_of_ne { dev with buffer := dev.buffer.clear } (hc.ne (by decide))
  | setCapacity requested =>
    simp only [Control.step, Dev.setCapacitySection]
    rcases dev.buffer.resize requested.toNat env.alloc with e | buffer
    · exact ⟨rfl, rfl, rfl⟩
    · refine ⟨?_, rfl, rfl⟩
      exact Dev.counters_inc_of_ne { dev with buffer } (hc.ne (by decide))
  | _ => exact ⟨rfl, rfl, rfl⟩

/-- An `ioctl` has nothing to add. -/
theorem unadded_dispatch (cmd : BitVec 32) (arg : UserArg) : (dispatch cmd arg).unadded c = 0 := by
  rcases dispatch_cases cmd arg with ⟨e, h⟩ | ⟨-, h⟩ | ⟨ctl, -, h⟩ | ⟨-, h⟩ <;> rw [h] <;>
    rfl

/-- Outside `RESET_STATS`, a step adds a number of bytes to a total, and what is added or left to
add is what was left and what the step has moved. -/
theorem stepThread_adds (hc : c.IsTotal) (hwf : dev.buffer.WellFormed) (hsized : pc.Sized)
    (hreset : ¬pc.Runs iocResetStats) (hs : stepThread env dev pc = some eff) :
    ∃ added : ℕ, eff.dev.counters c = dev.counters c + BitVec.ofNat 64 added ∧
      added + eff.pc.unadded c = pc.unadded c + eff.event.moves c := by
  -- a step that adds nothing and moves nothing
  have hquiet : ∀ {eff : Effect}, eff.dev.counters c = dev.counters c → eff.pc.unadded c = 0 →
      pc.unadded c = 0 → eff.event.moves c = 0 →
      ∃ added : ℕ, eff.dev.counters c = dev.counters c + BitVec.ofNat 64 added ∧
        added + eff.pc.unadded c = pc.unadded c + eff.event.moves c := by
    intro eff hcounter hafter hbefore hmoves
    exact ⟨0, by simpa using hcounter, by omega⟩
  cases pc with
  | idle => cases hs
  | entry call =>
    cases hs
    cases call with
    | «open» => exact hquiet (dev.counters_inc_of_ne (hc.ne (by decide))) rfl rfl rfl
    | release => exact hquiet rfl rfl rfl rfl
    | transfer rw =>
      have hcalls : c ≠ rw.calls := by
        cases rw <;> exact hc.ne (by simp [Transfer.calls])
      refine hquiet (dev.counters_inc_of_ne hcalls) ?_ rfl rfl
      simp only [Call.enter]
      split_ifs <;> rfl
    | ioctl => exact hquiet (dev.counters_inc_of_ne (hc.ne (by decide))) rfl rfl rfl
    | poll => exact hquiet rfl rfl rfl rfl
    | exit => exact hquiet rfl rfl rfl rfl
  | lock rw =>
    rcases Transfer.lockStep_cases hwf hsized hs with rfl | ⟨out, dev', hends, rfl⟩
    · exact hquiet rfl rfl rfl rfl
    · refine ⟨0, by simpa using hends.total_eq hc, ?_⟩
      rw [rw.unadded_after dev out]
      simp [Pc.unadded]
  | wait rw seen phase =>
    rcases Transfer.waitStep_eq_some hs with rfl | ⟨next, rfl⟩ | rfl <;> exact hquiet rfl rfl rfl rfl
  | account rw bytes =>
    cases hs
    -- the accounting step settles what its section has left open
    by_cases htotal : c = rw.total
    · subst htotal
      exact ⟨bytes.length, by simp [Dev.add], by simp [Pc.unadded, Event.moves]⟩
    · refine hquiet (Function.update_of_ne htotal _ _) rfl ?_ rfl
      exact if_neg htotal
  | dispatch cmd arg => cases hs; exact hquiet rfl (unadded_dispatch cmd arg) rfl rfl
  | control ctl =>
    cases hs
    obtain ⟨hcounter, hafter, hmoves⟩ := ctl.total_eq env dev hc
    exact hquiet hcounter hafter rfl hmoves
  | copyOut out writable =>
    cases hs
    refine hquiet rfl ?_ rfl rfl
    dsimp only
    split_ifs <;> rfl
  -- the one step that sets a total back
  | resetStats rest => exact absurd rfl hreset
  | noteFailure e =>
    cases hs
    exact hquiet (dev.counters_inc_of_ne (hc.ne (by decide))) rfl rfl rfl
  | _ => cases hs; exact hquiet rfl rfl rfl rfl

/-! ## Along runs -/

variable {ι : Type*}

/-- The bytes moved along a trace that go to the counter `c`. -/
def movedFor (c : Counter) (tr : List (ι × Event)) : ℕ := (tr.map fun e => e.2.moves c).sum

/-- The bytes discarded along a trace. -/
def discarded (tr : List (ι × Event)) : ℕ := (tr.map fun e => e.2.discards).sum

/-- The bytes written, counted by the steps that moved them. -/
theorem length_written (tr : List (ι × Event)) :
    (written tr).length = movedFor .totalBytesWritten tr := by
  have hevent : ∀ e : Event, e.written.length = e.moves .totalBytesWritten := by
    intro e
    rcases e with _ | _ | _ | ⟨found, _ | _ | _ | _⟩ | _ <;> rfl
  simp [written, movedFor, List.length_flatMap, hevent]

/-- The bytes removed, counted by the steps that moved or discarded them. -/
theorem length_removed (tr : List (ι × Event)) :
    (removed tr).length = movedFor .totalBytesRead tr + discarded tr := by
  have hevent : ∀ e : Event, e.removed.length = e.moves .totalBytesRead + e.discards := by
    intro e
    rcases e with _ | _ | _ | ⟨found, _ | _ | _ | _⟩ | _ <;>
      simp [Event.removed, Event.moves, Event.discards, Moved.removed]
  induction tr with
  | nil => rfl
  | cons e tr ih =>
    rw [removed_cons, List.length_append, ih, hevent]
    simp only [movedFor, discarded, List.map_cons, List.sum_cons]
    omega

variable [DecidableEq ι]

/-- The threads that have called into the driver along a trace. -/
def threads (tr : List (ι × Event)) : Finset ι := (tr.map Prod.fst).toFinset

/-- The bytes moved by the calls in flight that these have not added to the counter `c` yet. -/
def inFlight (c : Counter) (tr : List (ι × Event)) (s : Sys ι) : ℕ :=
  ∑ t ∈ threads tr, (s.pc t).unadded c

/-- The threads of a run with one more step. -/
theorem threads_concat (tr : List (ι × Event)) (e : ι × Event) :
    threads (tr ++ [e]) = insert e.1 (threads tr) := by
  simp [threads, Finset.union_comm]

/-- Changing the summand of one index, which counts for nothing while it is left out. -/
theorem sum_insert_add {f f' : ι → ℕ} {t : ι} (T : Finset ι) (hother : ∀ u, u ≠ t → f' u = f u)
    (hzero : t ∉ T → f t = 0) : ∑ u ∈ insert t T, f' u + f t = ∑ u ∈ T, f u + f' t := by
  -- both sums agree away from `t`, and `t` is in the second one or counts for nothing
  have hrest : ∑ u ∈ T.erase t, f' u = ∑ u ∈ T.erase t, f u :=
    Finset.sum_congr rfl fun u hu => hother u (Finset.ne_of_mem_erase hu)
  by_cases ht : t ∈ T
  · rw [Finset.insert_eq_of_mem ht, ← Finset.add_sum_erase T f' ht, ← Finset.add_sum_erase T f ht,
      hrest]
    omega
  · rw [Finset.sum_insert ht, hzero ht, ← Finset.erase_eq_of_notMem ht, hrest]
    omega

variable {s s₀ : Sys ι} {tr : List (ι × Event)}

/-- A thread calls into the driver from outside. -/
theorem Step.idle_of_invoke {t : ι} {call : Call} {s' : Sys ι}
    (h : Step s (t, .invoke call) s') : s.pc t = .idle := by
  generalize hp : (t, Event.invoke call) = p at h
  cases h with
  | invoke t c hidle =>
    cases hp
    exact hidle
  | run t env eff hs => exact absurd (Prod.mk.inj hp).2.symm ((stepThread_event hs).1 call)

/-- A property of places that every call starts with and every step keeps holds of all threads. -/
theorem pc_of_run {P : Pc → Prop} (hidle : P .idle) (hwake : ∀ q pc, P pc → P (pc.wake q))
    (hstep : ∀ {dev env pc eff}, dev.buffer.WellFormed → P pc →
      stepThread env dev pc = some eff → P eff.pc)
    (hentry : ∀ t c, (t, .invoke c) ∈ tr → P (.entry c)) {dev : Dev}
    (hsound : (Sys.initial ι dev).Sound) (hrun : Lts.Run Step (Sys.initial ι dev) tr s) (t : ι) :
    P (s.pc t) := by
  refine hrun.invariant (I := fun tr s => (∀ t c, (t, .invoke c) ∈ tr → P (.entry c)) →
    ∀ t, P (s.pc t)) (fun _ _ => hidle) ?_ hentry t
  clear hentry hrun t
  rintro tr s ⟨u, e⟩ s' hrun ih hlast hentry t
  have hprev := ih fun t c hc => hentry t c (List.mem_append_left _ hc)
  rcases hlast.cases with ⟨c, rfl, rfl⟩ | ⟨env, eff, hs, rfl, rfl⟩
  · have hnew := hentry u c (List.mem_append_right _ (List.mem_singleton_self _))
    rcases eq_or_ne t u with rfl | hne
    · simpa using hnew
    · simpa [hne] using hprev t
  · -- the step moves its thread, and may wake any other
    have hnew := hstep (sound_of_run hsound hrun).wellFormed (hprev u) hs
    have ht : P (Function.update s.pc u eff.pc t) := by
      rcases eq_or_ne t u with rfl | hne
      · simpa using hnew
      · simpa [hne] using hprev t
    rw [Sys.pc_apply]
    split
    · exact ht
    · exact hwake _ _ ht

/-- A command that has not been issued is not being executed. -/
theorem not_runs_of_run {dev : Dev} (hsound : (Sys.initial ι dev).Sound)
    (hrun : Lts.Run Step (Sys.initial ι dev) tr s)
    (hcmd : ∀ t arg, (t, .invoke (.ioctl cmd arg)) ∉ tr) (t : ι) : ¬(s.pc t).Runs cmd := by
  refine pc_of_run (P := fun pc => ¬pc.Runs cmd) id (fun q pc h => ?_) (fun _ h hs hruns => ?_)
    (fun t c hc => ?_) hsound hrun t
  · rwa [Pc.runs_wake]
  · exact h (stepThread_runs hs hruns)
  · cases c with
    | ioctl cmd' arg =>
      rintro rfl
      exact hcmd t arg hc
    | _ => exact id

/-- In every state of a run, all snapshots are consistent. -/
theorem consistent_of_run {dev : Dev} (hsound : (Sys.initial ι dev).Sound)
    (hrun : Lts.Run Step (Sys.initial ι dev) tr s) (t : ι) : (s.pc t).Consistent :=
  pc_of_run (P := Pc.Consistent) trivial (fun q pc h => (pc.consistent_wake q).mpr h)
    stepThread_consistent (fun _ _ _ => trivial) hsound hrun t

/-- A thread that has not called into the driver is outside it. -/
theorem idle_of_run {dev : Dev} (hrun : Lts.Run Step (Sys.initial ι dev) tr s) {t : ι}
    (ht : t ∉ threads tr) : s.pc t = .idle := by
  refine hrun.invariant (I := fun tr s => ∀ t, t ∉ threads tr → s.pc t = .idle) (fun _ _ => rfl)
    ?_ t ht
  clear ht t
  rintro tr s ⟨u, e⟩ s' - ih hlast t ht
  rw [threads_concat, Finset.mem_insert, not_or] at ht
  have hidle := ih t ht.2
  rcases hlast.cases with ⟨c, rfl, rfl⟩ | ⟨env, eff, -, rfl, rfl⟩
  · simpa [ht.1] using hidle
  · rw [Sys.pc_apply, Function.update_of_ne ht.1, hidle]
    split <;> rfl

/-- The totals are what has been moved, but for what the calls in flight have left to add. -/
theorem total_of_run {dev : Dev} (hc : c.IsTotal) (hsound : (Sys.initial ι dev).Sound)
    (hzero : dev.counters c = 0) (hrun : Lts.Run Step (Sys.initial ι dev) tr s)
    (hreset : ∀ t arg, (t, .invoke (.ioctl iocResetStats arg)) ∉ tr) :
    ∃ added : ℕ, s.dev.counters c = BitVec.ofNat 64 added ∧
      added + inFlight c tr s = movedFor c tr := by
  refine hrun.invariant (I := fun tr s =>
    (∀ t arg, (t, .invoke (.ioctl iocResetStats arg)) ∉ tr) → ∃ added : ℕ,
      s.dev.counters c = BitVec.ofNat 64 added ∧ added + inFlight c tr s = movedFor c tr)
    (fun _ => ⟨0, hzero, rfl⟩) ?_ hreset
  clear hreset hrun
  rintro tr s ⟨u, e⟩ s' hrun ih hlast hreset
  have hbefore : ∀ t arg, (t, .invoke (.ioctl iocResetStats arg)) ∉ tr :=
    fun t arg hmem => hreset t arg (List.mem_append_left _ hmem)
  obtain ⟨added, hcounter, hbalance⟩ := ih hbefore
  have hmoved : movedFor c (tr ++ [(u, e)]) = movedFor c tr + e.moves c := by
    simp [movedFor]
  -- only the thread of the step can have changed what it has left to add
  have hsum : (∀ t ≠ u, (s'.pc t).unadded c = (s.pc t).unadded c) →
      inFlight c (tr ++ [(u, e)]) s' + (s.pc u).unadded c =
        inFlight c tr s + (s'.pc u).unadded c := by
    intro hother
    rw [inFlight, threads_concat]
    refine sum_insert_add _ hother fun hu => ?_
    rw [idle_of_run hrun hu]
    rfl
  rcases hlast.cases with ⟨call, rfl, rfl⟩ | ⟨env, eff, hs, rfl, rfl⟩
  · have hidle : (s.pc u).unadded c = 0 := by
      rw [hlast.idle_of_invoke]
      rfl
    have hflight := hsum fun t ht => by simp [ht]
    simp only [Function.update_self, hidle] at hflight
    refine ⟨added, hcounter, ?_⟩
    rw [hmoved]
    simp only [Pc.unadded, Event.moves] at hflight ⊢
    omega
  · -- `RESET_STATS` has not been issued, so no thread is executing it
    obtain ⟨more, hadd, hleft⟩ := stepThread_adds hc (sound_of_run hsound hrun).wellFormed
      ((sound_of_run hsound hrun).sized u) (not_runs_of_run hsound hrun hbefore u) hs
    have hflight := hsum fun t ht => by
      rw [Sys.pc_apply, Function.update_of_ne ht]
      split
      · rfl
      · exact Pc.unadded_wake _ _
    have hself : ((s.apply u eff).pc u).unadded c = eff.pc.unadded c := by
      rw [Sys.pc_apply, Function.update_self]
      split
      · rfl
      · exact Pc.unadded_wake _ _
    rw [hself] at hflight
    refine ⟨added + more, ?_, by omega⟩
    change eff.dev.counters c = _
    rw [hadd, hcounter, BitVec.ofNat_add]

/-- Only `CLEAR` discards. -/
theorem stepThread_discards (hs : stepThread env dev pc = some eff)
    (hclear : ¬pc.Runs iocClear) : eff.event.discards = 0 := by
  cases pc with
  | idle => cases hs
  | entry c => cases hs; cases c <;> rfl
  | lock rw =>
    rcases Transfer.lockStep_eq_some hs with rfl | ⟨out, dev', -, rfl⟩
    · rfl
    · rcases out with _ | _ | _ | _ | bytes
      all_goals rcases rw with _ | _ <;> rfl
  | wait rw seen phase =>
    rcases Transfer.waitStep_eq_some hs with rfl | ⟨next, rfl⟩ | rfl <;> rfl
  | control ctl =>
    cases hs
    cases ctl with
    | clear => exact absurd rfl hclear
    | _ => rfl
  | resetStats rest => rcases rest with _ | ⟨counter, rest⟩ <;> cases hs <;> rfl
  | _ => cases hs; rfl

/-- Nothing is discarded before `CLEAR` is issued. -/
theorem discarded_of_run {dev : Dev} (hsound : (Sys.initial ι dev).Sound)
    (hrun : Lts.Run Step (Sys.initial ι dev) tr s)
    (hclear : ∀ t arg, (t, .invoke (.ioctl iocClear arg)) ∉ tr) : discarded tr = 0 := by
  refine hrun.invariant (I := fun tr _ => (∀ t arg, (t, .invoke (.ioctl iocClear arg)) ∉ tr) →
    discarded tr = 0) (fun _ => rfl) ?_ hclear
  clear hclear hrun
  rintro tr s ⟨u, e⟩ s' hrun ih hlast hclear
  have hbefore : ∀ t arg, (t, .invoke (.ioctl iocClear arg)) ∉ tr :=
    fun t arg hmem => hclear t arg (List.mem_append_left _ hmem)
  have hnone : e.discards = 0 := by
    rcases hlast.cases with ⟨c, rfl, -⟩ | ⟨env, eff, hs, rfl, -⟩
    · rfl
    · exact stepThread_discards hs (not_runs_of_run hsound hrun hbefore u)
  simpa [discarded, hnone] using ih hbefore

/-- Every reply along a run hands back a consistent snapshot, if it hands back one. -/
theorem replies_consistent {dev : Dev} (hsound : (Sys.initial ι dev).Sound)
    (hrun : Lts.Run Step (Sys.initial ι dev) tr s) {t : ι} {r : Reply} (hr : (t, .ret r) ∈ tr) :
    r.output.Consistent := by
  refine hrun.invariant (I := fun tr _ => ∀ t r, (t, .ret r) ∈ tr → r.output.Consistent)
    (fun _ _ hmem => absurd hmem List.not_mem_nil) ?_ t r hr
  clear hr hrun t r
  intro tr s e s' hrun ih hlast t r hmem
  rcases List.mem_append.mp hmem with hmem | hmem
  · exact ih t r hmem
  · obtain rfl := List.mem_singleton.mp hmem
    rcases hlast.cases with ⟨c, hc, -⟩ | ⟨env, eff, hs, he, -⟩
    · cases hc
    · have hconsistent := consistent_of_run hsound hrun t
      rw [(stepThread_event hs).2 r he.symm] at hconsistent
      exact hconsistent

/-- The totals balance against the queue: with the bytes counted in that calls in flight have moved
and not added yet, what has been written and not read is stored or has been discarded. The first
equation is one of the counters, which wrap; the second is one of numbers. -/
structure Balanced (tr : List (ι × Event)) (s : Sys ι) : Prop where
  wrapping : (s.dev.counters .totalBytesWritten +
      BitVec.ofNat 64 (inFlight .totalBytesWritten tr s)) -
    (s.dev.counters .totalBytesRead + BitVec.ofNat 64 (inFlight .totalBytesRead tr s)) =
    BitVec.ofNat 64 (s.dev.buffer.stored + discarded tr)
  exact : movedFor .totalBytesWritten tr < 2 ^ 64 →
    (s.dev.counters .totalBytesWritten).toNat + inFlight .totalBytesWritten tr s =
      (s.dev.counters .totalBytesRead).toNat + inFlight .totalBytesRead tr s +
        s.dev.buffer.stored + discarded tr
  quiescent : (∀ t, s.pc t = .idle) → (∀ t arg, (t, .invoke (.ioctl iocClear arg)) ∉ tr) →
    s.dev.counters .totalBytesWritten - s.dev.counters .totalBytesRead =
      BitVec.ofNat 64 s.dev.buffer.stored

/-- A call that is not in flight has nothing left to add. -/
theorem inFlight_of_idle (hidle : ∀ t, s.pc t = .idle) (c : Counter) : inFlight c tr s = 0 :=
  Finset.sum_eq_zero fun t _ => by
    rw [hidle t]
    rfl

/-- Statistics stay consistent with the queue under any interleaving: in every reachable state,
every snapshot taken or handed back fits together, and as long as `RESET_STATS` has not been
issued the totals balance against the bytes stored and discarded. -/
theorem stats_consistent {capacity : ℕ} {alloc : Alloc} {dev : Dev}
    (hinit : Dev.init capacity alloc = .ok dev) (hrun : Lts.Run Step (Sys.initial ι dev) tr s) :
    (∀ t st writable, s.pc t = .copyOut (.stats st) writable → st.Consistent) ∧
    (∀ t r st, (t, .ret r) ∈ tr → r.output = .stats st → st.Consistent) ∧
    ((∀ t arg, (t, .invoke (.ioctl iocResetStats arg)) ∉ tr) → Balanced tr s) := by
  obtain ⟨hsound, hempty⟩ := Sys.initial_sound ι hinit
  refine ⟨fun t st writable hpc => ?_, fun t r st hr hout => ?_, fun hreset => ?_⟩
  · have hconsistent := consistent_of_run hsound hrun t
    rwa [hpc] at hconsistent
  · have hconsistent := replies_consistent hsound hrun hr
    rwa [hout] at hconsistent
  -- the totals lag behind what has been moved, which the conservation law relates to the queue
  have hzero : ∀ c, dev.counters c = 0 := by
    intro c
    unfold Dev.init at hinit
    split_ifs at hinit
    rcases hb : Buffer.init capacity alloc with e | buffer
    · rw [hb] at hinit
      cases hinit
    · rw [hb] at hinit
      cases hinit
      rfl
  obtain ⟨addedW, hW, hbalanceW⟩ := total_of_run (.inl rfl) hsound (hzero _) hrun hreset
  obtain ⟨addedR, hR, hbalanceR⟩ := total_of_run (.inr rfl) hsound (hzero _) hrun hreset
  -- conservation: what was written was read, cleared or is still stored
  have hlength : movedFor .totalBytesWritten tr =
      movedFor .totalBytesRead tr + discarded tr + s.dev.buffer.stored := by
    have hcons := congrArg List.length (run_balance hsound hempty hrun)
    rwa [length_written, List.length_append, length_removed,
      (sound_of_run hsound hrun).wellFormed.length_fifo] at hcons
  have hwrapping : (s.dev.counters .totalBytesWritten +
      BitVec.ofNat 64 (inFlight .totalBytesWritten tr s)) -
    (s.dev.counters .totalBytesRead + BitVec.ofNat 64 (inFlight .totalBytesRead tr s)) =
    BitVec.ofNat 64 (s.dev.buffer.stored + discarded tr) := by
    rw [hW, hR, ← BitVec.ofNat_add, ← BitVec.ofNat_add, hbalanceW, hbalanceR, hlength,
      Nat.add_assoc, BitVec.ofNat_add, add_sub_cancel_left, Nat.add_comm]
  refine ⟨hwrapping, fun hsmall => ?_, fun hidle hclear => ?_⟩
  · -- no total has wrapped: each is at most the number of bytes written
    rw [hW, hR, BitVec.toNat_ofNat, BitVec.toNat_ofNat, Nat.mod_eq_of_lt (by omega),
      Nat.mod_eq_of_lt (by omega)]
    omega
  · -- with no call in flight and nothing cleared, the corrections vanish
    have hnone : BitVec.ofNat 64 0 = 0 := rfl
    rwa [inFlight_of_idle hidle, inFlight_of_idle hidle, discarded_of_run hsound hrun hclear,
      Nat.add_zero, hnone, add_zero, add_zero] at hwrapping

/-- The event is the invocation of an `ioctl`. -/
def Event.isIoctl : Event → Bool
  | .invoke (.ioctl ..) => true
  | _ => false

/-- The balance after the handover: of three bytes written two have been read. -/
theorem stats_consistent_handover : Balanced handoverRun.1 handoverRun.2 := by
  refine (stats_consistent (show Dev.init 256 .zeroed = .ok .small from rfl) run_handover).2.2 ?_
  intro t arg hmem
  have hnone : handoverRun.1.all (fun e => !e.2.isIoctl) = true := rfl
  exact absurd (List.all_eq_true.mp hnone _ hmem) (by simp [Event.isIoctl])

end RingbufChar
