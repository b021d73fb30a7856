import KernelBridge.Driver.Conservation

/-!
# The life of a call

What a call shows of itself between its invocation and its return, its `View`, explains the value
it returns. `ReadReturn` and `WriteReturn` list the values that a `read` or a `write` can return,
each with the view it asks for, and `Pc.Agrees` relates the view of a call to the place where its
thread stands. Every step of the thread keeps it (`stepThread_agrees`), the steps of the other
threads do not touch it, so it holds along every run (`agrees_of_run`).

Main results:

* `no_byte_lost`: the bytes written are the bytes delivered and discarded followed by the queue,
  and each call contributes at most one block;
* `return_law`: what each return value of a `read` or a `write` says about the section the call
  ended with.
-/

namespace RingbufChar

open Buffer

/-- What a call has shown of itself: its mutex sections, oldest first, and whether a signal has
interrupted it. -/
structure View where
  sections : List (Dev × Moved) := []
  interrupted : Bool := false

namespace View

/-- The view after one more step of the call. -/
def record (v : View) : Event → View
  | .interrupted => { v with interrupted := true }
  | .critical found moved => { v with sections := v.sections ++ [(found, moved)] }
  | _ => v

/-- The bytes moved by the sections of the call; the sections that moved none are left out. -/
def moves (v : View) : List Moved := (v.sections.map Prod.snd).filter (· ≠ .none)

/-- The last mutex section of the call. -/
def final (v : View) : Option (Dev × Moved) := v.sections.getLast?

/-- The last critical section is the one recorded last. -/
@[simp] theorem final_record (v : View) (found : Dev) (m : Moved) :
    (v.record (.critical found m)).final = some (found, m) := by
  simp [final, record]

/-- A section that moves nothing adds no move. -/
@[simp] theorem moves_record_none (v : View) (found : Dev) :
    (v.record (.critical found .none)).moves = v.moves := by
  simp [moves, record]

/-- A section that moves something adds its move. -/
theorem moves_record (v : View) (found : Dev) {m : Moved} (h : m ≠ .none) :
    (v.record (.critical found m)).moves = v.moves ++ [m] := by
  simp [moves, record, h]

end View

/-! ## What a call may do -/

/-- The bytes that one call may move: a read delivers no more than it was asked for, a write puts
in the first bytes of the caller's data, and `CLEAR` discards. -/
def Call.Moves : Call → Moved → Prop
  | .transfer (.read _ count), .delivered bytes => bytes.length ≤ count
  | .transfer (.write _ data), .wrote bytes => bytes <+: data
  | .ioctl cmd _, .discarded _ => cmd = iocClear
  | _, _ => False

/-- The call has moved bytes at most once, and such bytes as it may. -/
def View.Fits (c : Call) (v : View) : Prop := v.moves = [] ∨ ∃ m, v.moves = [m] ∧ c.Moves m

/-- The values that a `read` can return. -/
inductive ReadReturn (nonblock : Bool) (count : ℕ) (v : View) : Except Errno ℕ → Prop
  | nothing (hcount : count = 0) (hmoves : v.moves = []) : ReadReturn nonblock count v (.ok 0)
  | eof (found : Dev) (hfinal : v.final = some (found, .none)) (hmoves : v.moves = [])
      (hdown : found.shuttingDown = true) (hempty : found.buffer.len = 0) :
      ReadReturn nonblock count v (.ok 0)
  | moved (found : Dev) (n : ℕ)
      (hfinal : v.final = some (found, .delivered (found.buffer.fifo.take n)))
      (hmoves : v.moves = [.delivered (found.buffer.fifo.take n)]) (hpos : 0 < n)
      (hle : n ≤ min count found.buffer.len) : ReadReturn nonblock count v (.ok n)
  | again (found : Dev) (hfinal : v.final = some (found, .none)) (hmoves : v.moves = [])
      (hup : found.shuttingDown = false) (hempty : found.buffer.len = 0)
      (hnb : found.nonblocking nonblock = true) : ReadReturn nonblock count v (.error .EAGAIN)
  | fault (found : Dev) (hfinal : v.final = some (found, .none)) (hmoves : v.moves = [])
      (hstored : 0 < found.buffer.len) : ReadReturn nonblock count v (.error .EFAULT)
  | interrupted (hint : v.interrupted = true) (hmoves : v.moves = []) :
      ReadReturn nonblock count v (.error .ERESTARTSYS)

/-- The values that a `write` can return. -/
inductive WriteReturn (nonblock : Bool) (data : List UInt8) (v : View) : Except Errno ℕ → Prop
  | nothing (hdata : data.length = 0) (hmoves : v.moves = []) :
      WriteReturn nonblock data v (.ok 0)
  | moved (found : Dev) (n : ℕ) (hfinal : v.final = some (found, .wrote (data.take n)))
      (hmoves : v.moves = [.wrote (data.take n)]) (hup : found.shuttingDown = false)
      (hpos : 0 < n) (hle : n ≤ min data.length (found.buffer.capacity - found.buffer.len)) :
      WriteReturn nonblock data v (.ok n)
  | again (found : Dev) (hfinal : v.final = some (found, .none)) (hmoves : v.moves = [])
      (hup : found.shuttingDown = false) (hfull : found.buffer.len = found.buffer.capacity)
      (hnb : found.nonblocking nonblock = true) : WriteReturn nonblock data v (.error .EAGAIN)
  | down (found : Dev) (hfinal : v.final = some (found, .none)) (hmoves : v.moves = [])
      (hdown : found.shuttingDown = true) : WriteReturn nonblock data v (.error .ENODEV)
  | fault (found : Dev) (hfinal : v.final = some (found, .none)) (hmoves : v.moves = [])
      (hup : found.shuttingDown = false) (hspace : found.buffer.len < found.buffer.capacity) :
      WriteReturn nonblock data v (.error .EFAULT)
  | interrupted (hint : v.interrupted = true) (hmoves : v.moves = []) :
      WriteReturn nonblock data v (.error .ERESTARTSYS)

/-- The values that a transfer can return. -/
def Transfer.Returns (v : View) (value : Except Errno ℕ) : Transfer → Prop
  | .read nonblock count => ReadReturn nonblock count v value
  | .write nonblock data => WriteReturn nonblock data v value

/-- The values that a call can return; of the calls that are no transfers, only what they move is
of interest. -/
def Call.Returns (v : View) (value : Except Errno ℕ) : Call → Prop
  | .transfer rw => rw.Returns v value
  | c => v.Fits c

/-- A transfer that returns has moved what it may. -/
theorem Transfer.Returns.fits {rw : Transfer} {v : View} {value : Except Errno ℕ}
    (h : rw.Returns v value) : v.Fits (.transfer rw) := by
  cases rw with
  | read nonblock count =>
    cases h with
    | moved found n hfinal hmoves hpos hle =>
      refine .inr ⟨_, hmoves, ?_⟩
      change (found.buffer.fifo.take n).length ≤ count
      rw [List.length_take]
      omega
    | _ => exact .inl ‹_›
  | write nonblock data =>
    cases h with
    -- the bytes put in are the first of the caller's
    | moved found n hfinal hmoves => exact .inr ⟨_, hmoves, List.take_prefix n data⟩
    | _ => exact .inl ‹_›

/-- A call that returns has done what fits it. -/
theorem Call.Returns.fits {c : Call} {v : View} {value : Except Errno ℕ}
    (h : c.Returns v value) : v.Fits c := by
  cases c with
  | transfer rw => exact Transfer.Returns.fits h
  | _ => exact h

/-! ## Where a call stands -/

/-- The call `c`, which has shown `v`, can stand at this place. A thread is idle again once its
call has returned. -/
def Pc.Agrees (c : Call) (v : View) : Pc → Prop
  | .idle => v.Fits c
  | .entry c' => c' = c ∧ v.moves = []
  | .openHandle => (∀ rw, c ≠ .transfer rw) ∧ v.moves = []
  | .lock rw => c = .transfer rw ∧ v.moves = []
  | .wait rw _ _ => c = .transfer rw ∧ v.moves = []
  | .account rw bytes => c = .transfer rw ∧ rw.Returns v (.ok bytes.length)
  | .wakePeer rw bytes => c = .transfer rw ∧ rw.Returns v (.ok bytes.length)
  | .dispatch cmd arg => c = .ioctl cmd arg ∧ v.moves = []
  | .control .clear => (∃ arg, c = .ioctl iocClear arg) ∧ v.moves = []
  | .control _ => (∀ rw, c ≠ .transfer rw) ∧ v.moves = []
  | .wakeRead => (∀ rw, c ≠ .transfer rw) ∧ v.Fits c
  | .wakeWrite => (∀ rw, c ≠ .transfer rw) ∧ v.Fits c
  | .copyOut _ _ => (∀ rw, c ≠ .transfer rw) ∧ v.Fits c
  | .resetStats _ => (∀ rw, c ≠ .transfer rw) ∧ v.Fits c
  | .noteFailure e => c.Returns v (.error e)
  | .ret r => c.Returns v r.value

variable {c : Call} {v : View} {rw : Transfer} {uc : UserCopy} {env : Env} {dev dev' : Dev}
  {out : Outcome}

/-- Wherever a call stands, it has moved what it may. -/
theorem Pc.Agrees.fits {pc : Pc} (h : pc.Agrees c v) : v.Fits c := by
  cases pc with
  | idle => exact h
  | account rw bytes => exact h.1 ▸ h.2.fits
  | wakePeer rw bytes => exact h.1 ▸ h.2.fits
  | control ctl => cases ctl <;> exact .inl h.2
  | wakeRead => exact h.2
  | wakeWrite => exact h.2
  | copyOut o writable => exact h.2
  | resetStats rest => exact h.2
  | noteFailure e => exact Call.Returns.fits h
  | ret r => exact Call.Returns.fits h
  | _ => exact .inl h.2

/-- Waking a thread does not move it out of the call's life. -/
theorem Pc.agrees_wake (q : WaitQueue) (pc : Pc) : (pc.wake q).Agrees c v ↔ pc.Agrees c v := by
  unfold Pc.wake
  split <;> rfl

/-- A call that is no transfer may return anything once it fits. -/
theorem Call.returns_of_fits (hc : ∀ rw, c ≠ .transfer rw) (h : v.Fits c)
    (value : Except Errno ℕ) : c.Returns v value := by
  cases c with
  | transfer rw => exact absurd rfl (hc rw)
  | _ => exact h

/-- The mutex section of a transfer leads on as specified. -/
theorem Transfer.Ends.agrees (h : rw.Ends uc dev out dev') (hwf : dev.buffer.WellFormed)
    (hmoves : v.moves = []) :
    (rw.after out).Agrees (.transfer rw) (v.record (.critical dev (rw.movedBy out))) := by
  have hquiet : (v.record (.critical dev .none)).moves = [] := by simpa
  cases rw with
  | read nonblock count =>
    cases h with
    | eof hdown hempty => exact .eof dev (v.final_record dev .none) hquiet hdown hempty
    | again hup hempty hnb =>
      exact .again dev (v.final_record dev .none) hquiet hup hempty hnb
    -- the retry loop goes on with nothing moved
    | wait hup hempty hnb => exact ⟨rfl, hquiet⟩
    | fault hstored hbad => exact .fault dev (v.final_record dev .none) hquiet hstored
    | moved k faulted hpos hle hall hbad =>
      have hlen : (dev.buffer.fifo.take k).length = k := by
        rw [List.length_take, hwf.length_fifo]; omega
      rw [after, if_pos (by omega)]
      refine ⟨rfl, ?_⟩
      rw [hlen]
      exact .moved dev k (v.final_record dev _)
        (by rw [movedBy, moved, View.moves_record _ _ (by simp), hmoves, List.nil_append])
        hpos hle
  | write nonblock data =>
    cases h with
    | down hdown => exact .down dev (v.final_record dev .none) hquiet hdown
    | again hup hfull hnb => exact .again dev (v.final_record dev .none) hquiet hup hfull hnb
    | wait hup hfull hnb => exact ⟨rfl, hquiet⟩
    | fault hup hspace c hinv hbad =>
      exact .fault dev (v.final_record dev .none) hquiet hup hspace
    | moved hup k faulted c hinv hpos hle hall hbad =>
      have hlen : (data.take k).length = k := by rw [List.length_take]; omega
      rw [after, if_pos (by omega)]
      refine ⟨rfl, ?_⟩
      rw [hlen]
      exact .moved dev k (v.final_record dev _)
        (by rw [movedBy, moved, View.moves_record _ _ (by simp), hmoves, List.nil_append])
        hup hpos hle

/-- A signal ends a transfer that has moved nothing. -/
theorem Transfer.agrees_interrupted (hmoves : v.moves = []) :
    (Pc.noteFailure .ERESTARTSYS).Agrees (.transfer rw) (v.record .interrupted) := by
  cases rw with
  | read => exact .interrupted rfl hmoves
  | write => exact .interrupted rfl hmoves

/-- An `ioctl` that has moved nothing agrees with its call. -/
theorem agrees_dispatch (cmd : BitVec 32) (arg : UserArg) (hmoves : v.moves = []) :
    (dispatch cmd arg).Agrees (.ioctl cmd arg) v := by
  have hno : ∀ rw, Call.ioctl cmd arg ≠ .transfer rw := by simp
  rcases dispatch_cases cmd arg with ⟨e, heq⟩ | ⟨rfl, heq⟩ | ⟨ctl, hne, heq⟩ | ⟨-, heq⟩
  · rw [heq]
    exact .inl hmoves
  · rw [heq]
    exact ⟨⟨arg, rfl⟩, hmoves⟩
  · rw [heq]
    cases ctl with
    | clear => exact absurd rfl hne
    | _ => exact ⟨hno, hmoves⟩
  · rw [heq]
    exact ⟨hno, .inl hmoves⟩

/-- A step of a control call agrees with its call. -/
theorem Control.agrees_step (ctl : Control) (h : (Pc.control ctl).Agrees c v) (env : Env)
    (dev : Dev) : (ctl.step env dev).pc.Agrees c (v.record (ctl.step env dev).event) := by
  cases ctl with
  | clear =>
    obtain ⟨⟨arg, rfl⟩, hmoves⟩ := h
    -- the only control section that moves bytes
    refine ⟨by simp, .inr ⟨.discarded dev.buffer.fifo, ?_, rfl⟩⟩
    rw [Control.step, View.moves_record _ _ (by simp), hmoves, List.nil_append]
  | setCapacity requested =>
    obtain ⟨hno, hmoves⟩ := h
    simp only [Control.step]
    cases (dev.setCapacitySection requested.toNat env.alloc).1 with
    | ok => exact ⟨hno, .inl (by simpa)⟩
    | error e => exact Call.returns_of_fits hno (.inl (by simpa)) _
  | poll => exact Call.returns_of_fits h.1 (.inl (by simpa [Control.step] using h.2)) _
  | _ => exact ⟨h.1, .inl (by simpa [Control.step] using h.2)⟩

/-- Every step of the thread of a call keeps the place and the view in agreement. -/
theorem stepThread_agrees (hwf : dev.buffer.WellFormed) {pc : Pc} (hsized : pc.Sized)
    {eff : Effect} (hs : stepThread env dev pc = some eff) (h : pc.Agrees c v) :
    eff.pc.Agrees c (v.record eff.event) := by
  cases pc with
  | idle => cases hs
  | entry c' =>
    cases hs
    obtain ⟨rfl, hmoves⟩ := h
    cases c' with
    | «open» => exact ⟨by simp, hmoves⟩
    | release => exact .inl hmoves
    | transfer rw =>
      simp only [Call.enter]
      split_ifs with hzero
      · cases rw with
        | read => exact .nothing hzero hmoves
        | write => exact .nothing hzero hmoves
      · exact ⟨rfl, hmoves⟩
    | ioctl cmd arg => exact ⟨rfl, hmoves⟩
    | poll => exact ⟨by simp, hmoves⟩
    | exit => exact ⟨by simp, hmoves⟩
  | openHandle => cases hs; exact Call.returns_of_fits h.1 (.inl h.2) _
  | lock rw =>
    obtain ⟨rfl, hmoves⟩ := h
    rcases Transfer.lockStep_cases hwf hsized hs with rfl | ⟨out, dev', hends, rfl⟩
    -- a signal before the section ends the call
    · exact Transfer.agrees_interrupted hmoves
    · exact hends.agrees hwf hmoves
  | wait rw seen phase =>
    obtain ⟨rfl, hmoves⟩ := h
    rcases Transfer.waitStep_eq_some hs with rfl | ⟨next, rfl⟩ | rfl
    · exact ⟨rfl, hmoves⟩
    · exact ⟨rfl, hmoves⟩
    · exact Transfer.agrees_interrupted hmoves
  | account rw bytes => cases hs; exact h
  | wakePeer rw bytes =>
    cases hs
    obtain ⟨rfl, hret⟩ := h
    exact hret
  | dispatch cmd arg =>
    cases hs
    obtain ⟨rfl, hmoves⟩ := h
    exact agrees_dispatch cmd arg hmoves
  | control ctl => cases hs; exact ctl.agrees_step h env dev
  | wakeRead => cases hs; exact h
  | wakeWrite => cases hs; exact Call.returns_of_fits h.1 h.2 _
  | copyOut o writable =>
    cases hs
    dsimp only
    split_ifs <;> exact Call.returns_of_fits h.1 h.2 _
  | resetStats rest =>
    cases rest with
    | nil => cases hs; exact Call.returns_of_fits h.1 h.2 _
    | cons counter rest => cases hs; exact h
  | noteFailure e => cases hs; exact h
  | ret r => cases hs; exact Call.Returns.fits h

/-! ## Along runs -/

variable {ι : Type*} [DecidableEq ι]

/-- What the thread `t` shows along a piece of trace. -/
def view (t : ι) (tr : List (ι × Event)) : View :=
  tr.foldl (fun v e => if e.1 = t then v.record e.2 else v) {}

variable {t u : ι} {tr : List (ι × Event)} {s : Sys ι}

/-- What the thread has seen, after a step of its own. -/
theorem view_concat_self (t : ι) (tr : List (ι × Event)) (e : Event) :
    view t (tr ++ [(t, e)]) = (view t tr).record e := by
  simp [view]

/-- A step of another thread is not seen. -/
theorem view_concat_of_ne (h : u ≠ t) (tr : List (ι × Event)) (e : Event) :
    view t (tr ++ [(u, e)]) = view t tr := by
  simp [view, h]

/-- A step is an invocation or a step of a thread inside the driver. -/
theorem Step.cases {e : Event} {s' : Sys ι} (h : Step s (t, e) s') :
    (∃ c, e = .invoke c ∧ s' = { s with pc := Function.update s.pc t (.entry c) }) ∨
      ∃ env eff, stepThread env s.dev (s.pc t) = some eff ∧ e = eff.event ∧ s' = s.apply t eff := by
  generalize hp : (t, e) = p at h
  cases h with
  | invoke t c =>
    cases hp
    exact .inl ⟨c, rfl, rfl⟩
  | run t env eff hs =>
    cases hp
    exact .inr ⟨env, eff, hs, rfl, rfl⟩

/-- A thread inside the driver invokes nothing, and returns only at the end of its call. -/
theorem stepThread_event {pc : Pc} {eff : Effect} (hs : stepThread env dev pc = some eff) :
    (∀ c, eff.event ≠ .invoke c) ∧ ∀ r, eff.event = .ret r → pc = .ret r := by
  cases pc with
  | idle => cases hs
  | entry c => cases hs; cases c <;> simp [Call.enter]
  | lock rw =>
    rcases Transfer.lockStep_eq_some hs with rfl | ⟨out, dev', -, rfl⟩ <;> simp
  | wait rw seen phase =>
    rcases Transfer.waitStep_eq_some hs with rfl | ⟨next, rfl⟩ | rfl <;> simp
  | control c => cases hs; cases c <;> simp [Control.step]
  | resetStats rest => cases rest <;> cases hs <;> simp
  | ret r => cases hs; simp
  | _ => cases hs; simp

/-- The step of another thread leaves a thread where it stands, up to a wake-up. -/
theorem Step.agrees_of_ne {e : Event} {s' : Sys ι} (h : Step s (u, e) s') (hne : t ≠ u) :
    (s'.pc t).Agrees c v ↔ (s.pc t).Agrees c v := by
  rcases h.cases with ⟨c', -, rfl⟩ | ⟨env, eff, -, -, rfl⟩
  · simp [hne]
  · rw [Sys.pc_apply, Function.update_of_ne hne]
    split
    · rfl
    · exact Pc.agrees_wake _ _

/-- Along every run, the view of each thread since its last call agrees with where it stands. -/
theorem agrees_of_run {s₀ : Sys ι} (h₀ : s₀.Sound) (h : Lts.Run Step s₀ tr s)
    {pre mid : List (ι × Event)} (htr : tr = pre ++ (t, .invoke c) :: mid)
    (hmid : ∀ c', (t, .invoke c') ∉ mid) : (s.pc t).Agrees c (view t mid) := by
  refine h.invariant (I := fun tr s => ∀ pre mid, tr = pre ++ (t, .invoke c) :: mid →
    (∀ c', (t, .invoke c') ∉ mid) → (s.pc t).Agrees c (view t mid)) ?_ ?_ pre mid htr hmid
  · intro pre mid htr
    simp at htr
  · clear htr hmid pre mid
    rintro tr s ⟨u, e⟩ s' hrun ih hstep pre mid htr hmid
    rcases List.eq_nil_or_concat mid with rfl | ⟨init, last, rfl⟩
    · -- the step is the invocation itself
      obtain ⟨-, he⟩ := List.append_inj' htr rfl
      obtain ⟨rfl, rfl⟩ : u = t ∧ e = .invoke c := by simpa using he
      rcases hstep.cases with ⟨c', hc, rfl⟩ | ⟨env, eff, hs, he, -⟩
      · cases hc
        simp [Pc.Agrees, view, View.moves]
      · exact absurd he.symm ((stepThread_event hs).1 c)
    · -- a later step, of this thread or of another
      rw [List.concat_eq_append, ← List.cons_append, ← List.append_assoc] at htr
      obtain ⟨hinit, hlast⟩ := List.append_inj' htr rfl
      obtain rfl : (u, e) = last := by simpa using hlast
      rw [List.concat_eq_append] at hmid ⊢
      have hprev := ih pre init hinit fun c' hc => hmid c' (List.mem_append_left _ hc)
      rcases eq_or_ne t u with rfl | hne
      · rw [view_concat_self]
        rcases hstep.cases with ⟨c', rfl, -⟩ | ⟨env, eff, hs, rfl, rfl⟩
        · exact absurd (List.mem_append_right _ (List.mem_singleton_self _)) (hmid c')
        · have hsound := sound_of_run h₀ hrun
          have hagrees := stepThread_agrees hsound.wellFormed (hsound.sized t) hs hprev
          rw [Sys.pc_apply, Function.update_self]
          split
          · exact hagrees
          · exact (Pc.agrees_wake _ _).mpr hagrees
      · rw [view_concat_of_ne hne.symm]
        exact (hstep.agrees_of_ne hne).mpr hprev

/-- The section of a thread that moved something, located in the trace. -/
theorem exists_split_of_moves {m : Moved} (hm : (view t tr).moves = [m]) :
    ∃ tr₁ found tr₂, tr = tr₁ ++ (t, .critical found m) :: tr₂ := by
  induction tr using List.reverseRecOn with
  | nil => simp [view, View.moves] at hm
  | append_singleton tr e ih =>
    -- an event that leaves the moves alone
    have hskip : (view t (tr ++ [e])).moves = (view t tr).moves →
        ∃ tr₁ found tr₂, tr ++ [e] = tr₁ ++ (t, .critical found m) :: tr₂ := by
      intro hsame
      obtain ⟨tr₁, found, tr₂, rfl⟩ := ih (hsame ▸ hm)
      exact ⟨tr₁, found, tr₂ ++ [e], by simp⟩
    obtain ⟨u, ev⟩ := e
    rcases eq_or_ne u t with rfl | hne
    · rw [view_concat_self] at hm hskip
      cases ev with
      | critical found m' =>
        rcases eq_or_ne m' .none with rfl | hm'
        · exact hskip (View.moves_record_none _ _)
        · rw [View.moves_record _ _ hm'] at hm
          obtain ⟨-, hm⟩ := List.append_inj' (hm.trans (List.nil_append [m]).symm) rfl
          obtain rfl : m' = m := by simpa using hm
          exact ⟨tr, found, [], rfl⟩
      | _ => exact hskip rfl
    · rw [view_concat_of_ne hne] at hskip
      exact hskip rfl

/-- The call `c` of the thread `t`, of which `mid` is a piece of trace that lies between `pre` and
`post`, contributes at most one block to the bytes written or removed along the whole trace. -/
def OneBlock (t : ι) (c : Call) (pre mid post : List (ι × Event)) : Prop :=
  (view t mid).moves = [] ∨
    ∃ mid₁ found m mid₂, mid = mid₁ ++ (t, .critical found m) :: mid₂ ∧
      (view t mid).moves = [m] ∧ c.Moves m ∧
      written (pre ++ (t, .invoke c) :: mid ++ post) =
        written (pre ++ mid₁) ++ m.written ++ written (mid₂ ++ post) ∧
      removed (pre ++ (t, .invoke c) :: mid ++ post) =
        removed (pre ++ mid₁) ++ m.removed ++ removed (mid₂ ++ post)

/-- No byte is lost, duplicated or reordered: at every reachable state, the bytes committed by
writes are the bytes delivered by reads and discarded by `CLEAR`, in the order of the mutex
sections, followed by the queue; and each call contributes at most one block. -/
theorem no_byte_lost {capacity : ℕ} {alloc : Alloc} {dev : Dev}
    (hinit : Dev.init capacity alloc = .ok dev) {tr : List (ι × Event)} {s : Sys ι}
    (hrun : Lts.Run Step (Sys.initial ι dev) tr s) :
    written tr = removed tr ++ s.dev.buffer.fifo ∧
      ∀ t c pre mid post, tr = pre ++ (t, .invoke c) :: mid ++ post →
        (∀ c', (t, .invoke c') ∉ mid) → OneBlock t c pre mid post := by
  obtain ⟨hsound, hempty⟩ := Sys.initial_sound ι hinit
  refine ⟨run_balance hsound hempty hrun, fun t c pre mid post htr hmid => ?_⟩
  obtain ⟨s₁, hpre, -⟩ := hrun.split htr
  -- what the call has shown of itself so far holds at most one block
  rcases (agrees_of_run hsound hpre rfl hmid).fits with hnone | ⟨m, hm, hmoves⟩
  · exact .inl hnone
  · obtain ⟨mid₁, found, mid₂, rfl⟩ := exists_split_of_moves hm
    refine .inr ⟨mid₁, found, m, mid₂, rfl, hm, hmoves, ?_, ?_⟩
    · simp [Event.written]
    · simp [Event.removed]

/-- A freshly initialised device of the smallest capacity. -/
def Dev.small : Dev where
  buffer := ⟨List.replicate 256 0, 256, 0, 0, 0⟩
  stateGeneration := 0
  counters _ := 0
  openHandles := 0
  mode := 0
  shuttingDown := false

/-- A blocking read of two bytes goes to sleep on the empty device, a write of three bytes wakes
it, and it returns. -/
def handover : List (Bool × Choice) :=
  (false, .call (.transfer (.read false 2))) :: List.replicate 5 (false, .run .quiet) ++
    (true, .call (.transfer (.write true [1, 2, 3]))) :: List.replicate 5 (true, .run .quiet) ++
    List.replicate 7 (false, .run .quiet)

/-- The trace of the handover, and the state it ends in. -/
def handoverRun : List (Bool × Event) × Sys Bool :=
  ((Sys.initial Bool .small).schedule handover).getD ([], .initial Bool .small)

/-- The run of the example. -/
theorem run_handover : Lts.Run Step (Sys.initial Bool .small) handoverRun.1 handoverRun.2 :=
  Sys.run_of_schedule (show (Sys.initial Bool .small).schedule handover =
    some (handoverRun.1, handoverRun.2) from rfl)

/-- Conservation along the handover: one of the three bytes is left. -/
theorem no_byte_lost_handover :
    written handoverRun.1 = [1, 2, 3] ∧ removed handoverRun.1 = [1, 2] ∧
      written handoverRun.1 = removed handoverRun.1 ++ handoverRun.2.dev.buffer.fifo ∧
      ∀ t c pre mid post, handoverRun.1 = pre ++ (t, .invoke c) :: mid ++ post →
        (∀ c', (t, .invoke c') ∉ mid) → OneBlock t c pre mid post :=
  ⟨rfl, rfl, no_byte_lost (show Dev.init 256 .zeroed = .ok .small from rfl) run_handover⟩

/-! ## The values returned -/

/-- What a `read` of `count` bytes that returns `value` has seen and done. -/
structure ReadLaw (nonblock : Bool) (count : ℕ) (v : View) (value : Except Errno ℕ) : Prop where
  zero : value = .ok 0 → ∃ found m, v.final = some (found, m) ∧ found.shuttingDown = true ∧
    found.buffer.len = 0
  positive : ∀ n, value = .ok n → 0 < n → ∃ found,
    v.final = some (found, .delivered (found.buffer.fifo.take n)) ∧
      n ≤ min count found.buffer.len
  again : value = .error .EAGAIN → ∃ found m, v.final = some (found, m) ∧
    found.buffer.len = 0 ∧ found.shuttingDown = false ∧ found.nonblocking nonblock = true
  fault : value = .error .EFAULT → (∃ found m, v.final = some (found, m) ∧
    0 < found.buffer.len) ∧ v.moves = []
  interrupted : value = .error .ERESTARTSYS → v.interrupted = true ∧ v.moves = []
  errors : ∀ e, value = .error e → e = .EAGAIN ∨ e = .EFAULT ∨ e = .ERESTARTSYS

/-- What a `write` of `data` that returns `value` has seen and done. -/
structure WriteLaw (nonblock : Bool) (data : List UInt8) (v : View) (value : Except Errno ℕ) :
    Prop where
  zero : value ≠ .ok 0
  positive : ∀ n, value = .ok n → 0 < n → ∃ found,
    v.final = some (found, .wrote (data.take n)) ∧
      n ≤ min data.length (found.buffer.capacity - found.buffer.len)
  again : value = .error .EAGAIN → ∃ found m, v.final = some (found, m) ∧
    found.buffer.len = found.buffer.capacity ∧ found.shuttingDown = false ∧
      found.nonblocking nonblock = true
  down : value = .error .ENODEV → ∃ found m, v.final = some (found, m) ∧
    found.shuttingDown = true
  fault : value = .error .EFAULT → (∃ found m, v.final = some (found, m) ∧
    found.buffer.len < found.buffer.capacity) ∧ v.moves = []
  interrupted : value = .error .ERESTARTSYS → v.interrupted = true ∧ v.moves = []
  errors : ∀ e, value = .error e → e = .EAGAIN ∨ e = .ENODEV ∨ e = .EFAULT ∨ e = .ERESTARTSYS

variable {nonblock : Bool} {count : ℕ} {data : List UInt8} {value : Except Errno ℕ}

/-- The return of a read, for a count that is not zero. -/
theorem ReadReturn.law (h : ReadReturn nonblock count v value) (hcount : 0 < count) :
    ReadLaw nonblock count v value := by
  cases h with
  | nothing hzero => omega
  | eof found hfinal hmoves hdown hempty =>
    constructor <;> simp_all
  | moved found n hfinal hmoves hpos hle =>
    constructor <;> (simp_all; try omega)
  | again found hfinal hmoves hup hempty hnb =>
    constructor <;> simp_all
  | fault found hfinal hmoves hstored =>
    constructor <;> simp_all
  | interrupted hint hmoves =>
    constructor <;> simp_all

/-- The return of a write, for data that is not empty. -/
theorem WriteReturn.law (h : WriteReturn nonblock data v value) (hdata : 0 < data.length) :
    WriteLaw nonblock data v value := by
  cases h with
  | nothing hzero => omega
  | moved found n hfinal hmoves hup hpos hle =>
    constructor <;> (simp_all; try omega)
  | again found hfinal hmoves hup hfull hnb =>
    constructor <;> simp_all
  | down found hfinal hmoves hdown =>
    constructor <;> simp_all
  | fault found hfinal hmoves hup hspace =>
    constructor <;> simp_all
  | interrupted hint hmoves =>
    constructor <;> simp_all

/-- Every value returned along a run is one that the call can return, given what it has shown. -/
theorem returns_of_run {s₀ : Sys ι} (h₀ : s₀.Sound) (h : Lts.Run Step s₀ tr s)
    {pre mid post : List (ι × Event)} {r : Reply}
    (htr : tr = pre ++ (t, .invoke c) :: mid ++ (t, .ret r) :: post)
    (hmid : ∀ c', (t, .invoke c') ∉ mid) : c.Returns (view t mid) r.value := by
  have hcut : tr = (pre ++ (t, .invoke c) :: mid ++ [(t, .ret r)]) ++ post := by
    rw [htr, List.append_assoc _ [_] post, List.singleton_append]
  obtain ⟨s₂, hret, -⟩ := h.split hcut
  obtain ⟨s₁, hpre, hstep⟩ := hret.last
  have hagrees := agrees_of_run h₀ hpre rfl hmid
  rcases hstep.cases with ⟨c', hc, -⟩ | ⟨env, eff, hs, he, -⟩
  · cases hc
  · rw [(stepThread_event hs).2 r he.symm] at hagrees
    exact hagrees

/-- The return values of `read` and `write` under any interleaving: a call with a nonzero count
returns a value only for the reason the law gives, seen in its last mutex section. In particular
a `read` returns zero only from a device that is shutting down, and a `write` never does. -/
theorem return_law {capacity : ℕ} {alloc : Alloc} {dev : Dev}
    (hinit : Dev.init capacity alloc = .ok dev) {tr : List (ι × Event)} {s : Sys ι}
    (hrun : Lts.Run Step (Sys.initial ι dev) tr s) {t : ι} {rw : Transfer}
    {pre mid post : List (ι × Event)} {r : Reply}
    (htr : tr = pre ++ (t, .invoke (.transfer rw)) :: mid ++ (t, .ret r) :: post)
    (hmid : ∀ c', (t, .invoke c') ∉ mid) (hsize : 0 < rw.size) :
    match rw with
    | .read nonblock count => ReadLaw nonblock count (view t mid) r.value
    | .write nonblock data => WriteLaw nonblock data (view t mid) r.value := by
  have hret := returns_of_run (Sys.initial_sound ι hinit).1 hrun htr hmid
  cases rw with
  | read nonblock count => exact ReadReturn.law hret hsize
  | write nonblock data => exact WriteReturn.law hret hsize

/-- The event is the invocation of a call. -/
def Event.isInvoke : Event → Bool
  | .invoke _ => true
  | _ => false

/-- The law for the blocking read of the handover, which returns two bytes. -/
theorem return_law_handover :
    ∃ mid, handoverRun.1 = (false, .invoke (.transfer (.read false 2))) :: mid ++
        [(false, .ret { value := .ok 2, output := .bytes [1, 2] })] ∧
      ReadLaw false 2 (view false mid) (.ok 2) := by
  have hfirst := List.cons_head?_tail
    (show (false, .invoke (.transfer (.read false 2))) ∈ handoverRun.1.head? from rfl)
  have hlast := List.dropLast_append_getLast? _
    (show (false, .ret { value := .ok 2, output := .bytes [1, 2] }) ∈
      handoverRun.1.tail.getLast? from rfl)
  rw [← hlast] at hfirst
  have htr : handoverRun.1 = [] ++ (false, .invoke (.transfer (.read false 2))) ::
      handoverRun.1.tail.dropLast ++ [(false, .ret { value := .ok 2, output := .bytes [1, 2] })] :=
    hfirst.symm
  have hquiet : handoverRun.1.tail.dropLast.all (fun e => e.1 || !e.2.isInvoke) = true := rfl
  have hmid : ∀ c, (false, .invoke c) ∉ handoverRun.1.tail.dropLast := fun c hc =>
    absurd (List.all_eq_true.mp hquiet _ hc) (by simp [Event.isInvoke])
  exact ⟨_, htr, return_law (show Dev.init 256 .zeroed = .ok .small from rfl) run_handover htr hmid
    (by decide)⟩

end RingbufChar
