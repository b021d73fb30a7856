import KernelBridge.Userspace.Delivery
import KernelBridge.Userspace.Startup
import Mathlib.Algebra.BigOperators.Fin

/-!
# The concurrency test over any device

What every step of the test keeps when nothing is assumed of the device. A thread that is in trouble
stays so until it sets the stop flag, and the flag is set behind a failure only (`LocalStep`). So a
process without trouble has never had any, and for such a process the arguments of `Delivery` apply:
the writers have put whole frames into the device (`Writing`), and along every sequence of frames of
different messages the parser accepts every frame (`Tracked`). Whether there is trouble or not, the
parser is `Sound`: as long as no failure is counted, what it has taken off the stream are frames.

`Invariant.step` keeps all of this together up to the verdict of `main`.
-/

namespace ConcurrentTest

variable {opts : TestOptions} {σ : Type} {platform : Platform σ}

/-! ## Trouble -/

/-- The thread is not on its way to set the stop flag. -/
def WriterPc.Healthy : WriterPc opts → Prop
  | .retry _ offset => offset ≤ opts.messageSize
  | .unlock _ ret => ret = .ok ()
  | .failed | .cancel => False
  | _ => True

/-- The thread is not on its way to set the stop flag. -/
def ReaderPc.Healthy : ReaderPc → Prop
  | .unlock _ ret => ∀ e, ret = .error e → e = .EAGAIN
  | .overflow .. | .failed | .cancel => False
  | _ => True

/-- The thread has counted a failure and is about to set the stop flag. -/
def WriterPc.Alarmed : WriterPc opts → Prop
  | .cancel => True
  | _ => False

/-- The thread has counted a failure and is about to set the stop flag. -/
def ReaderPc.Alarmed : ReaderPc → Prop
  | .overflow .. | .cancel => True
  | _ => False

/-- A step of a thread on the shared state, from a place where the thread is `healthy` or `alarmed`.
The stop flag is set behind a failure only, and a thread that is in trouble stays so until it has
set the flag. -/
structure LocalStep (healthy alarmed healthy' alarmed' : Prop) (s s' : SharedState) : Prop where
  failures_le : s.stats.validationFailures ≤ s'.stats.validationFailures
  stop : s.stop = true → s'.stop = true
  alarm : s'.stop = true ∨ alarmed' →
    0 < s'.stats.validationFailures ∨ s.stop = true ∨ alarmed
  back : s'.stop = false → healthy' → s.stop = false ∧ healthy

/-- A step of a thread that leaves the stream alone. -/
structure QuietStep (healthy alarmed healthy' alarmed' : Prop) (s s' : SharedState) : Prop
    extends LocalStep healthy alarmed healthy' alarmed' s s' where
  seen : s'.seen = s.seen
  stream : s'.stream = s.stream
  framesValidated : s'.stats.framesValidated = s.stats.framesValidated
  failures : s'.stop = false → healthy' →
    s'.stats.validationFailures = s.stats.validationFailures

/-- A step that is quiet and raises no alarm leaves the parser alone. -/
theorem QuietStep.same {healthy alarmed healthy' alarmed' : Prop} {s s' : SharedState}
    (h : QuietStep healthy alarmed healthy' alarmed' s s') (hstop : s'.stop = false)
    (hhealthy : healthy') : SameParser s s' where
  seen := h.seen
  stream := h.stream
  stop := hstop.trans (h.back hstop hhealthy).1.symm
  framesValidated := h.framesValidated
  validationFailures := h.failures hstop hhealthy

/-- A step that changes none of the variables. -/
theorem QuietStep.unchanged {healthy alarmed healthy' alarmed' : Prop} {s s' : SharedState}
    (hsame : SameParser s s') (hhealthy : healthy' → healthy) (halarmed : alarmed' → alarmed) :
    QuietStep healthy alarmed healthy' alarmed' s s' where
  failures_le := hsame.validationFailures.ge
  stop := hsame.stop.trans
  alarm h := .inr (h.imp hsame.stop.symm.trans halarmed)
  back hstop h := ⟨hsame.stop.symm.trans hstop, hhealthy h⟩
  seen := hsame.seen
  stream := hsame.stream
  framesValidated := hsame.framesValidated
  failures _ _ := hsame.validationFailures

/-- A step that counts a failure: the thread is not healthy behind it. -/
theorem QuietStep.fail {healthy alarmed healthy' alarmed' : Prop} (s : SharedState)
    (hhealthy : ¬ healthy') : QuietStep healthy alarmed healthy' alarmed' s s.fail where
  failures_le := Nat.le_succ _
  stop := id
  alarm _ := .inl (Nat.succ_pos _)
  back _ h := absurd h hhealthy
  seen := rfl
  stream := rfl
  framesValidated := rfl
  failures _ h := absurd h hhealthy

/-- A step that sets the stop flag: the thread has counted a failure before. -/
theorem QuietStep.cancel {healthy alarmed healthy' alarmed' : Prop} (s : SharedState)
    (halarmed : alarmed) :
    QuietStep healthy alarmed healthy' alarmed' s { s with stop := true } where
  failures_le := le_rfl
  stop _ := rfl
  alarm _ := .inr (.inr halarmed)
  back hstop := by cases hstop
  seen := rfl
  stream := rfl
  framesValidated := rfl
  failures hstop := by cases hstop

/-- A step that leaves the stream alone keeps the parser sound. -/
theorem QuietStep.sound {healthy alarmed healthy' alarmed' : Prop} {s s' : SharedState}
    (h : QuietStep healthy alarmed healthy' alarmed' s s') (bytes : List UInt8)
    (hsound : Sound opts bytes s) : Sound opts bytes s' := by
  intro hzero
  obtain ⟨frames, hparsed⟩ := hsound (Nat.le_zero.mp (h.failures_le.trans hzero.le))
  refine ⟨frames, ?_, hparsed.nodup, fun message => ?_, h.framesValidated.trans hparsed.validated⟩
  · rw [h.stream, hparsed.bytes_eq]
  · rw [SharedState.Fresh, h.seen]
    exact hparsed.fresh message

/-- The place of a thread, with one in front of its loop taken to be at the place it goes to. -/
def Thread.place {α : Type} (entry failed cancel : α) : Thread α → α
  | .absent | .starting => entry
  | .refused => failed
  | .cancelling => cancel
  | .opened pc => pc

/-- No step of a writer touches the parser. -/
theorem writerStep_quiet {s s' : SharedState} {pc pc' : WriterPc opts}
    (h : writerStep opts s pc = some (pc', s')) :
    QuietStep pc.Healthy pc.Alarmed pc'.Healthy pc'.Alarmed s s' := by
  cases pc with
  | test sequence =>
    rw [writerStep] at h
    split_ifs at h <;> obtain ⟨rfl, rfl⟩ := Prod.mk.inj (Option.some.inj h) <;>
      exact .unchanged (.refl s) id id
  | retry sequence offset =>
    rw [writerStep] at h
    split_ifs at h with hmore hfull <;> obtain ⟨rfl, rfl⟩ := Prod.mk.inj (Option.some.inj h)
    · exact .unchanged (.refl s) (fun _ => hmore.1.le) id
    · exact .unchanged (.refl s) (fun _ => hfull.le) id
    · -- the offset has passed the end of the frame, or the flag is set
      exact .unchanged (.refl s) (fun hret => (by cases hret)) id
  | attempt | completed | account | close =>
    obtain ⟨rfl, rfl⟩ := Prod.mk.inj (Option.some.inj h)
    exact .unchanged ⟨rfl, rfl, rfl, rfl, rfl⟩ id id
  | failed =>
    obtain ⟨rfl, rfl⟩ := Prod.mk.inj (Option.some.inj h)
    exact .fail s id
  | cancel =>
    obtain ⟨rfl, rfl⟩ := Prod.mk.inj (Option.some.inj h)
    exact .cancel s trivial
  | lock | write | unlock | done => cases h

/-- No step of a reader that does not parse touches the parser. -/
theorem readerStep_quiet {s s' : SharedState} {pc pc' : ReaderPc}
    (h : readerStep opts s pc = some (pc', s')) (hparse : ¬ pc.parsing) :
    QuietStep pc.Healthy pc.Alarmed pc'.Healthy pc'.Alarmed s s' ∧
      s'.stats.writesCompleted = s.stats.writesCompleted ∧ pc'.parsing = pc.parsing := by
  cases pc with
  | validate => exact absurd rfl hparse
  | overflow | cancel =>
    obtain ⟨rfl, rfl⟩ := Prod.mk.inj (Option.some.inj h)
    exact ⟨.cancel s trivial, rfl, rfl⟩
  | failed =>
    obtain ⟨rfl, rfl⟩ := Prod.mk.inj (Option.some.inj h)
    exact ⟨.fail s id, rfl, rfl⟩
  | completed | account =>
    obtain ⟨rfl, rfl⟩ := Prod.mk.inj (Option.some.inj h)
    exact ⟨.unchanged ⟨rfl, rfl, rfl, rfl, rfl⟩ id id, rfl, rfl⟩
  | test | check | idle =>
    obtain ⟨rfl, rfl⟩ := Prod.mk.inj (Option.some.inj h)
    split <;> exact ⟨.unchanged (.refl s) id id, rfl, rfl⟩
  | lastCheck =>
    rw [readerStep] at h
    split_ifs at h <;> obtain ⟨rfl, rfl⟩ := Prod.mk.inj (Option.some.inj h) <;>
      exact ⟨.unchanged (.refl s) id id, rfl, rfl⟩
  | lock | read | append | unlock | done => cases h

/-- The steps in front of the loop. -/
theorem Thread.start_quiet {α : Type} {entry exit failed cancel : α} {Healthy Alarmed : α → Prop}
    (hentry : Healthy entry ∧ ¬ Alarmed entry) (hfailed : ¬ Healthy failed ∧ ¬ Alarmed failed)
    (hcancel : ¬ Healthy cancel ∧ Alarmed cancel) {ok : Bool} {s s' : SharedState}
    {t t' : Thread α} (h : t.start entry exit ok s = some (t', s')) :
    QuietStep (Healthy (t.place entry failed cancel)) (Alarmed (t.place entry failed cancel))
      (Healthy (t'.place entry failed cancel)) (Alarmed (t'.place entry failed cancel)) s s' := by
  cases t with
  | absent | opened => cases h
  | starting =>
    obtain ⟨rfl, rfl⟩ := Prod.mk.inj (Option.some.inj h)
    refine .unchanged (.refl s) (fun _ => hentry.1) fun halarm => ?_
    cases ok with
    | true => exact absurd halarm hentry.2
    | false => exact absurd halarm hfailed.2
  | refused =>
    obtain ⟨rfl, rfl⟩ := Prod.mk.inj (Option.some.inj h)
    exact .fail s hcancel.1
  | cancelling =>
    obtain ⟨rfl, rfl⟩ := Prod.mk.inj (Option.some.inj h)
    exact .cancel s hcancel.2

/-- A thread in front of its loop that stays out of trouble has just moved to its loop. -/
theorem Thread.start_healthy {α : Type} {entry exit failed cancel : α} (Healthy : α → Prop)
    (hfailed : ¬ Healthy failed) (hcancel : ¬ Healthy cancel) {ok : Bool} {s s' : SharedState}
    {t t' : Thread α} (h : t.start entry exit ok s = some (t', s')) (hstop : s'.stop = false)
    (hhealthy : Healthy (t'.place entry failed cancel)) :
    t'.place entry failed cancel = t.place entry failed cancel ∧ s' = s := by
  cases t with
  | absent | opened => cases h
  | starting =>
    obtain ⟨rfl, rfl⟩ := Prod.mk.inj (Option.some.inj h)
    cases ok with
    | true => exact ⟨rfl, rfl⟩
    | false => exact absurd hhealthy hfailed
  | refused =>
    obtain ⟨rfl, rfl⟩ := Prod.mk.inj (Option.some.inj h)
    exact absurd hhealthy hcancel
  | cancelling =>
    obtain ⟨rfl, rfl⟩ := Prod.mk.inj (Option.some.inj h)
    cases hstop

/-! ## Writers -/

/-- How many frames the thread has counted as completed. -/
def WriterPc.completedCount : WriterPc opts → ℕ
  | .test sequence => min sequence opts.messages
  | .attempt sequence | .lock sequence | .retry sequence _ | .write sequence _
  | .unlock sequence _ | .completed sequence => sequence
  | .account sequence => sequence + 1
  | .failed | .cancel | .close | .done => opts.messages

/-- The writers have put the frames of the messages behind them into the device, and have counted
them. -/
structure Writing (bytes : List UInt8) (lock : Option (Fin opts.writers))
    (writer : Fin opts.writers → WriterPc opts) (writesCompleted : ℕ) : Prop where
  messages : ∃ messages : List (Message opts), Writers bytes lock writer messages ∧
    ∀ w (sequence : Fin opts.messages), sequence < (writer w).upcoming → (w, sequence) ∈ messages
  count : writesCompleted = ∑ w, (writer w).completedCount

/-- A sum over all threads changes by what changes at one of them. -/
theorem sum_update_add {n : ℕ} {α : Type} (f : Fin n → α) (g : α → ℕ) (i : Fin n) (a : α) :
    (∑ j, g (Function.update f i a j)) + g (f i) = (∑ j, g (f j)) + g a := by
  have hrest : ∑ j ∈ Finset.univ.erase i, g (Function.update f i a j) =
      ∑ j ∈ Finset.univ.erase i, g (f j) :=
    Finset.sum_congr rfl fun j hj => by rw [Function.update_of_ne (Finset.ne_of_mem_erase hj)]
  have hnew := Finset.add_sum_erase Finset.univ (fun j => g (Function.update f i a j))
    (Finset.mem_univ i)
  have hold := Finset.add_sum_erase Finset.univ (fun j => g (f j)) (Finset.mem_univ i)
  simp only [Function.update_self] at hnew
  omega

/-- A step of a healthy writer on the shared state counts what the thread completes. -/
theorem writerStep_progress {s s' : SharedState} {pc pc' : WriterPc opts}
    (h : writerStep opts s pc = some (pc', s')) (hstop : s.stop = false) (hsane : pc.Sane) :
    s'.stats.writesCompleted + pc.completedCount = s.stats.writesCompleted + pc'.completedCount ∧
      ∀ sequence : Fin opts.messages, sequence < pc'.upcoming → sequence < pc.upcoming := by
  cases pc with
  | test sequence =>
    rw [writerStep] at h
    split_ifs at h with hmore <;> obtain ⟨rfl, rfl⟩ := Prod.mk.inj (Option.some.inj h)
    · refine ⟨?_, fun _ hlt => hlt⟩
      change _ + min sequence opts.messages = _ + sequence
      rw [Nat.min_eq_left hmore.1.le]
    · -- the loop ends behind the last sequence number only
      have hlast : opts.messages ≤ sequence := by
        by_contra hlt
        exact hmore ⟨not_le.mp hlt, by simp [hstop]⟩
      refine ⟨?_, fun sequence' _ => sequence'.isLt.trans_le hlast⟩
      change _ + min sequence opts.messages = _ + opts.messages
      rw [Nat.min_eq_right hlast]
  | retry sequence offset =>
    rw [writerStep] at h
    split_ifs at h <;> obtain ⟨rfl, rfl⟩ := Prod.mk.inj (Option.some.inj h) <;>
      exact ⟨rfl, fun _ hlt => hlt⟩
  | attempt | close =>
    obtain ⟨rfl, rfl⟩ := Prod.mk.inj (Option.some.inj h)
    exact ⟨rfl, fun _ hlt => hlt⟩
  | completed sequence =>
    obtain ⟨rfl, rfl⟩ := Prod.mk.inj (Option.some.inj h)
    refine ⟨?_, fun _ hlt => hlt⟩
    change s.stats.writesCompleted + 1 + (sequence : ℕ) = _ + (sequence + 1)
    omega
  | account sequence =>
    obtain ⟨rfl, rfl⟩ := Prod.mk.inj (Option.some.inj h)
    refine ⟨?_, fun _ hlt => hlt⟩
    change _ + ((sequence : ℕ) + 1) = _ + min ((sequence : ℕ) + 1) opts.messages
    rw [Nat.min_eq_left (Nat.succ_le_of_lt sequence.isLt)]
  | failed | cancel => exact hsane.elim
  | lock | write | unlock | done => cases h

/-- A call that keeps the writer out of trouble is one that a lossless queue could answer. -/
theorem deviceWrite_of_healthy {w : Fin opts.writers} {sequence : Fin opts.messages} {offset : ℕ}
    (hoffset : offset ≤ opts.messageSize) {ret : Except SysError ℕ}
    (h : (afterWrite sequence offset ret).Healthy) :
    DeviceWrite ((Message.frame (w, sequence)).drop offset) [] ret
      (taken ((Message.frame (w, sequence)).drop offset) ret) := by
  rcases ret with (_ | _ | code) | (_ | n)
  · exact .again
  · exact .interrupted
  · cases h
  · cases h
  · have hle : offset + (n + 1) ≤ opts.messageSize := h
    rw [taken, ← List.nil_append (List.take _ _)]
    refine .accepted (n + 1) (Nat.succ_pos n) ?_
    rw [List.length_drop, Message.length_frame]
    omega

namespace Writing

open Function

variable {bytes : List UInt8} {lock : Option (Fin opts.writers)}
  {writer : Fin opts.writers → WriterPc opts} {writesCompleted : ℕ} {w : Fin opts.writers}
  {sequence : Fin opts.messages}

/-- A writer is at a sane place. -/
theorem sane (h : Writing bytes lock writer writesCompleted) (w : Fin opts.writers) :
    (writer w).Sane := by
  obtain ⟨messages, hwriters, -⟩ := h.messages
  exact (hwriters.ok w).sane

/-- A step of a writer that touches neither the lock nor the device. -/
theorem local_step (h : Writing bytes lock writer writesCompleted) {s s' : SharedState}
    {pc : WriterPc opts} (hcount : s.stats.writesCompleted = writesCompleted)
    (hstep : writerStep opts s (writer w) = some (pc, s')) (hstop : s.stop = false) :
    Writing bytes lock (update writer w pc) s'.stats.writesCompleted where
  messages := by
    obtain ⟨messages, hwriters, hcovers⟩ := h.messages
    obtain ⟨-, hholds, hsent, hsane, hupcoming⟩ := writerStep_frame w hstep hstop (h.sane w)
    refine ⟨messages, hwriters.local_step hholds hsent hsane hupcoming, ?_⟩
    refine (forall_update_iff writer fun w pc => ∀ sequence : Fin opts.messages,
      sequence < pc.upcoming → (w, sequence) ∈ messages).mpr ⟨fun sequence hlt => ?_,
        fun w' _ => hcovers w'⟩
    exact hcovers w sequence ((writerStep_progress hstep hstop (h.sane w)).2 sequence hlt)
  count := by
    have hprogress := (writerStep_progress hstep hstop (h.sane w)).1
    have hsum := sum_update_add writer WriterPc.completedCount w pc
    have := h.count
    omega

/-- The completed writes, when one writer moves without completing one. -/
theorem count_update (h : Writing bytes lock writer writesCompleted) {pc : WriterPc opts}
    (hcount : pc.completedCount = (writer w).completedCount) :
    writesCompleted = ∑ w', (update writer w pc w').completedCount := by
  have hsum := sum_update_add writer WriterPc.completedCount w pc
  have := h.count
  omega

/-- A writer takes the lock. -/
theorem acquire (h : Writing bytes none writer writesCompleted) (hpc : writer w = .lock sequence) :
    Writing bytes (some w) (update writer w (.retry sequence 0)) writesCompleted where
  messages := by
    obtain ⟨messages, hwriters, hcovers⟩ := h.messages
    refine ⟨messages, hwriters.acquire hpc, ?_⟩
    refine (forall_update_iff writer fun w pc => ∀ sequence : Fin opts.messages,
      sequence < pc.upcoming → (w, sequence) ∈ messages).mpr ⟨fun sequence' hlt => ?_,
        fun w' _ => hcovers w'⟩
    exact hcovers w sequence' (by rw [hpc]; exact hlt)
  count := h.count_update (by rw [hpc]; rfl)

/-- A writer writes a part of its frame. -/
theorem write (h : Writing bytes lock writer writesCompleted) {offset : ℕ}
    (hpc : writer w = .write sequence offset) {ret : Except SysError ℕ}
    (hhealthy : (afterWrite sequence offset ret).Healthy) :
    Writing (bytes ++ taken ((Message.frame (w, sequence)).drop offset) ret) lock
      (update writer w (afterWrite sequence offset ret)) writesCompleted := by
  have hoffset : offset < opts.messageSize := by
    have := h.sane w
    rwa [hpc] at this
  have hafter : (afterWrite sequence offset ret).upcoming = (writer w).upcoming ∧
      (afterWrite sequence offset ret).completedCount = (writer w).completedCount := by
    rw [hpc]
    rcases ret with (_ | _ | code) | (_ | n) <;> exact ⟨rfl, rfl⟩
  refine ⟨?_, h.count_update hafter.2⟩
  obtain ⟨messages, hwriters, hcovers⟩ := h.messages
  refine ⟨messages, hwriters.write hpc (deviceWrite_of_healthy hoffset.le hhealthy), ?_⟩
  refine (forall_update_iff writer fun w pc => ∀ sequence : Fin opts.messages,
    sequence < pc.upcoming → (w, sequence) ∈ messages).mpr ⟨fun sequence' hlt => ?_,
      fun w' _ => hcovers w'⟩
  exact hcovers w sequence' (hafter.1 ▸ hlt)

/-- A writer gives the lock back. -/
theorem release (h : Writing bytes lock writer writesCompleted) {ret : Except WriteError Unit}
    (hpc : writer w = .unlock sequence ret) :
    Writing bytes none (update writer w (afterWriteFrame sequence ret)) writesCompleted := by
  obtain rfl : ret = .ok () := by
    have := h.sane w
    rwa [hpc] at this
  refine ⟨?_, h.count_update (by rw [hpc]; rfl)⟩
  obtain ⟨messages, hwriters, hcovers⟩ := h.messages
  refine ⟨_, hwriters.release hpc, ?_⟩
  refine (forall_update_iff writer fun w' pc => ∀ sequence' : Fin opts.messages,
    sequence' < pc.upcoming → (w', sequence') ∈ messages ++ [(w, sequence)]).mpr
      ⟨fun sequence' hlt => ?_, fun w' _ sequence' hlt =>
        List.mem_append_left _ (hcovers w' sequence' hlt)⟩
  -- what is new behind the thread is the frame it has just written
  rcases Nat.lt_succ_iff_lt_or_eq.mp hlt with hlt | heq
  · exact List.mem_append_left _ (hcovers w sequence' (by rw [hpc]; exact hlt))
  · rw [Fin.ext heq]
    exact List.mem_append_right _ (List.mem_singleton_self _)

/-- When all writers have returned, each message has been written once. -/
theorem finished (h : Writing bytes lock writer writesCompleted) (hdone : ∀ w, writer w = .done) :
    writesCompleted = opts.writers * opts.messages ∧
      ∃ order : List (Message opts), (∀ message, order.count message = 1) ∧
        bytes = order.flatMap Message.frame := by
  refine ⟨?_, ?_⟩
  · rw [h.count, Finset.sum_congr rfl fun w _ => by rw [hdone w], Finset.sum_const,
      Finset.card_univ, Fintype.card_fin]
    rfl
  · obtain ⟨messages, hwriters, hcovers⟩ := h.messages
    refine ⟨messages, fun message => ?_, ?_⟩
    · refine List.count_eq_one_of_mem hwriters.nodup (hcovers message.1 message.2 ?_)
      rw [hdone]
      exact message.2.isLt
    · have hfree : lock = none := by
        rcases hlock : lock with _ | w
        · rfl
        · have := (hwriters.ok w).holds.mp hlock
          rw [hdone] at this
          cases this
      rw [hwriters.bytes_eq, hfree]
      exact List.append_nil _

end Writing

/-! ## The parser -/

/-- The parser accepts the frames of a sequence, and waits for the rest of a frame unless a reader
is in its loop. -/
def Tracked (frames : List (Frame opts)) (bytes : List UInt8) (s : SharedState)
    (reader : Fin opts.readers → ReaderPc) : Prop :=
  ∃ done todo, frames = done ++ todo ∧ OnTrack done todo bytes s ∧
    ((∀ r, ¬ (reader r).parsing) → s.stream.length < opts.messageSize)

namespace Tracked

open Function

variable {frames : List (Frame opts)} {bytes : List UInt8} {s s' : SharedState}
  {reader : Fin opts.readers → ReaderPc} {r : Fin opts.readers}

/-- At the start no frame is tracked. -/
theorem init (frames : List (Frame opts)) (reader : Fin opts.readers → ReaderPc) :
    Tracked frames [] (SharedState.init opts) reader :=
  ⟨[], frames, rfl, { Parsed.init opts with failures := rfl, stream_prefix := List.nil_prefix },
    fun _ => Nat.lt_of_lt_of_le (show 0 < frameHeaderSize by decide) opts.messageSize_bounds.1⟩

/-- What leaves the parser alone leaves it tracking. -/
theorem same (h : Tracked frames bytes s reader) (hsame : SameParser s s') :
    Tracked frames bytes s' reader := by
  obtain ⟨done, todo, heq, htrack, hwaiting⟩ := h
  refine ⟨done, todo, heq, { htrack.toParsed.same hsame with failures := ?_, stream_prefix := ?_ },
    fun hidle => ?_⟩
  · exact hsame.validationFailures.trans htrack.failures
  · rw [hsame.stream]
    exact htrack.stream_prefix
  · rw [hsame.stream]
    exact hwaiting hidle

/-- A reader moves on, but not into or out of the loop of the parser. -/
theorem move (h : Tracked frames bytes s reader) {pc : ReaderPc}
    (hparsing : pc.parsing = (reader r).parsing) : Tracked frames bytes s (update reader r pc) := by
  obtain ⟨done, todo, heq, htrack, hwaiting⟩ := h
  refine ⟨done, todo, heq, htrack, fun hidle => hwaiting ?_⟩
  obtain ⟨hself, hrest⟩ := forall_of_update (P := fun pc : ReaderPc => ¬ pc.parsing) hidle
  exact hrest (by rwa [← hparsing])

/-- Bytes that go on with the stream are appended. -/
theorem append (h : Tracked frames bytes s reader) {data : List UInt8}
    (hpre : bytes ++ data <+: streamOf frames) (cap idle count : ℕ) :
    Tracked frames (bytes ++ data) { s with stream := s.stream ++ data, streamCap := cap }
      (update reader r (.validate idle count)) := by
  obtain ⟨done, todo, rfl, htrack, -⟩ := h
  refine ⟨done, todo, rfl, htrack.append hpre cap, fun hidle => absurd ?_ (hidle r)⟩
  rw [update_self]
  rfl

/-- An iteration of the parser. -/
theorem validate (h : Tracked frames bytes s reader) (hnodup : (frames.map Frame.message).Nodup)
    {idle count : ℕ} :
    (∀ s', validateStep opts s = .inl s' →
        Tracked frames bytes s' (update reader r (.validate idle count))) ∧
      ∀ s', validateStep opts s = .inr s' →
        Tracked frames bytes s' (update reader r (.unlock idle (.ok count))) := by
  obtain ⟨done, todo, rfl, htrack, -⟩ := h
  rcases htrack.step hnodup (validateStep_spec opts s) with ⟨hwait, hshort⟩ |
    ⟨frame, rest, t, rfl, hnext, htrack'⟩
  · refine ⟨fun s' heq => ?_, fun s' heq => ?_⟩
    · rw [hwait] at heq
      cases heq
    · obtain rfl := Sum.inr.inj (hwait.symm.trans heq)
      exact ⟨done, todo, rfl, htrack, fun _ => hshort⟩
  · refine ⟨fun s' heq => ?_, fun s' heq => ?_⟩
    · obtain rfl := Sum.inl.inj (hnext.symm.trans heq)
      refine ⟨done ++ [frame], rest, by simp, htrack', fun hidle => absurd ?_ (hidle r)⟩
      rw [update_self]
      rfl
    · rw [hnext] at heq
      cases heq

end Tracked

/-- What the parser leaves as it is, and what of the counters it does not lower. -/
theorem ValidateStep.counters {s : SharedState} {r : SharedState ⊕ SharedState}
    (h : ValidateStep opts s r) :
    (r.elim id id).stats.writesCompleted = s.stats.writesCompleted ∧
      s.stats.validationFailures ≤ (r.elim id id).stats.validationFailures ∧
      (r.elim id id).seen.length = s.seen.length := by
  cases h <;> simp [SharedState.fail, SharedState.accept]

/-- Once frames of all messages have been accepted, none is missing. -/
theorem Parsed.missing_eq_zero {frames : List (Frame opts)} {bytes : List UInt8} {s : SharedState}
    (h : Parsed frames bytes s) (hseen : s.seen.length = opts.writers * opts.messages)
    (hall : ∀ message, message ∈ frames.map Frame.message) : s.missing = 0 := by
  rw [SharedState.missing, List.count_eq_zero]
  intro hmem
  obtain ⟨index, hin, hfalse⟩ := List.mem_iff_getElem.mp hmem
  have hindex := hseen ▸ hin
  -- the index is that of a message
  have hpos : 0 < opts.messages := opts.messages_bounds.1
  let message : Message opts :=
    (⟨index / opts.messages, (Nat.div_lt_iff_lt_mul hpos).mpr hindex⟩,
      ⟨index % opts.messages, Nat.mod_lt _ hpos⟩)
  have hmessage : message.seenIndex = index := Nat.div_add_mod' index opts.messages
  refine (h.fresh message).mp ?_ (hall message)
  rw [SharedState.Fresh, hmessage, List.getElem?_eq_getElem hin, hfalse]

/-! ## Runs -/

namespace Process

open Function

/-- The places of the writers. -/
abbrev writerPc (p : Process opts σ) (w : Fin opts.writers) : WriterPc opts :=
  (p.writer w).place (.test 0) .failed .cancel

/-- The places of the readers. -/
abbrev readerPc (p : Process opts σ) (r : Fin opts.readers) : ReaderPc :=
  (p.reader r).place (.test 0) .failed .cancel

/-- The places of the threads, when one of them moves. -/
theorem place_update {α : Type} {n : ℕ} (entry failed cancel : α) (thread : Fin n → Thread α)
    (i : Fin n) (t : Thread α) :
    (fun j => (update thread i t j).place entry failed cancel) =
      update (fun j => (thread j).place entry failed cancel) i (t.place entry failed cancel) :=
  funext fun j => apply_update (fun _ t => Thread.place entry failed cancel t) thread i t j

/-- No thread is in trouble. -/
structure Untroubled (p : Process opts σ) : Prop where
  stop : p.shared.stop = false
  writers : ∀ w, (p.writerPc w).Healthy
  readers : ∀ r, (p.readerPc r).Healthy

/-- Behind the stop flag there is a failure that has been counted, or a thread that could not be
created. -/
def Counted (p : Process opts σ) : Prop :=
  (p.shared.stop = true ∨ (∃ w, (p.writerPc w).Alarmed) ∨ ∃ r, (p.readerPc r).Alarmed) →
    0 < p.shared.stats.validationFailures ∨ p.startupFailed = true

/-- When a thread could not be created, the stop flag is set. -/
def Aborted (p : Process opts σ) : Prop := p.startupFailed = true → p.shared.stop = true

/-- A step of a thread on the process: trouble is counted, and it does not go away. -/
structure Follows (p p' : Process opts σ) : Prop where
  aborted : p.Aborted → p'.Aborted
  counted : p.Counted → p'.Counted
  back : p'.Untroubled → p.Untroubled

/-- A writer moves. -/
theorem Follows.writer {p p' : Process opts σ} {w : Fin opts.writers} {pc : WriterPc opts}
    (h : LocalStep (p.writerPc w).Healthy (p.writerPc w).Alarmed pc.Healthy pc.Alarmed p.shared
      p'.shared)
    (hwriter : p'.writerPc = update p.writerPc w pc) (hreader : p'.readerPc = p.readerPc)
    (hfailed : p'.startupFailed = p.startupFailed) : Follows p p' where
  aborted haborted hfailed' := h.stop (haborted (hfailed.symm.trans hfailed'))
  counted hcounted halarm := by
    rw [hwriter, hreader] at halarm
    have hold (halarm) := (hcounted halarm).imp h.failures_le.trans_lt' hfailed.trans
    have hnew (halarm : p'.shared.stop = true ∨ pc.Alarmed) :
        0 < p'.shared.stats.validationFailures ∨ p'.startupFailed = true := by
      rcases h.alarm halarm with hpos | hstop | halarm
      · exact .inl hpos
      · exact hold (.inl hstop)
      · exact hold (.inr (.inl ⟨w, halarm⟩))
    rcases halarm with hstop | hwriters | hreaders
    · exact hnew (.inl hstop)
    · rcases exists_of_update hwriters with halarm | hwriters
      · exact hnew (.inr halarm)
      · exact hold (.inr (.inl hwriters))
    · exact hold (.inr (.inr hreaders))
  back huntroubled := by
    obtain ⟨hstop, hwriters, hreaders⟩ := huntroubled
    rw [hwriter] at hwriters
    rw [hreader] at hreaders
    obtain ⟨hself, hrest⟩ := forall_of_update hwriters
    exact ⟨(h.back hstop hself).1, hrest (h.back hstop hself).2, hreaders⟩

/-- A reader moves. -/
theorem Follows.reader {p p' : Process opts σ} {r : Fin opts.readers} {pc : ReaderPc}
    (h : LocalStep (p.readerPc r).Healthy (p.readerPc r).Alarmed pc.Healthy pc.Alarmed p.shared
      p'.shared)
    (hwriter : p'.writerPc = p.writerPc) (hreader : p'.readerPc = update p.readerPc r pc)
    (hfailed : p'.startupFailed = p.startupFailed) : Follows p p' where
  aborted haborted hfailed' := h.stop (haborted (hfailed.symm.trans hfailed'))
  counted hcounted halarm := by
    rw [hwriter, hreader] at halarm
    have hold (halarm) := (hcounted halarm).imp h.failures_le.trans_lt' hfailed.trans
    have hnew (halarm : p'.shared.stop = true ∨ pc.Alarmed) :
        0 < p'.shared.stats.validationFailures ∨ p'.startupFailed = true := by
      rcases h.alarm halarm with hpos | hstop | halarm
      · exact .inl hpos
      · exact hold (.inl hstop)
      · exact hold (.inr (.inr ⟨r, halarm⟩))
    rcases halarm with hstop | hwriters | hreaders
    · exact hnew (.inl hstop)
    · exact hold (.inr (.inl hwriters))
    · rcases exists_of_update hreaders with halarm | hreaders
      · exact hnew (.inr halarm)
      · exact hold (.inr (.inr hreaders))
  back huntroubled := by
    obtain ⟨hstop, hwriters, hreaders⟩ := huntroubled
    rw [hwriter] at hwriters
    rw [hreader] at hreaders
    obtain ⟨hself, hrest⟩ := forall_of_update hreaders
    exact ⟨(h.back hstop hself).1, hwriters, hrest (h.back hstop hself).2⟩

/-- A step that leaves the stream alone. -/
structure Quiet (p p' : Process opts σ) : Prop extends Follows p p' where
  sound : ∀ bytes, Sound opts bytes p.shared → Sound opts bytes p'.shared
  seen : p'.shared.seen = p.shared.seen
  same : p'.Untroubled → SameParser p.shared p'.shared

/-- A writer moves quietly. -/
theorem Quiet.writer {p p' : Process opts σ} {w : Fin opts.writers} {pc : WriterPc opts}
    (h : QuietStep (p.writerPc w).Healthy (p.writerPc w).Alarmed pc.Healthy pc.Alarmed p.shared
      p'.shared)
    (hwriter : p'.writerPc = update p.writerPc w pc) (hreader : p'.readerPc = p.readerPc)
    (hfailed : p'.startupFailed = p.startupFailed) : Quiet p p' where
  toFollows := .writer h.toLocalStep hwriter hreader hfailed
  sound := QuietStep.sound h
  seen := h.seen
  same huntroubled := by
    have hhealthy := huntroubled.writers w
    rw [hwriter, update_self] at hhealthy
    exact h.same huntroubled.stop hhealthy

/-- A reader moves quietly. -/
theorem Quiet.reader {p p' : Process opts σ} {r : Fin opts.readers} {pc : ReaderPc}
    (h : QuietStep (p.readerPc r).Healthy (p.readerPc r).Alarmed pc.Healthy pc.Alarmed p.shared
      p'.shared)
    (hwriter : p'.writerPc = p.writerPc) (hreader : p'.readerPc = update p.readerPc r pc)
    (hfailed : p'.startupFailed = p.startupFailed) : Quiet p p' where
  toFollows := .reader h.toLocalStep hwriter hreader hfailed
  sound := QuietStep.sound h
  seen := h.seen
  same huntroubled := by
    have hhealthy := huntroubled.readers r
    rw [hreader, update_self] at hhealthy
    exact h.same huntroubled.stop hhealthy

/-- A process without trouble has written whole frames, and its parser accepts every frame. -/
structure Working (bytesIn bytesOut : List UInt8) (p : Process opts σ) : Prop where
  writing : Writing bytesIn p.writeLock p.writerPc p.shared.stats.writesCompleted
  tracked : ∀ frames : List (Frame opts), (frames.map Frame.message).Nodup →
    bytesOut <+: streamOf frames → Tracked frames bytesOut p.shared p.readerPc

/-- What every step in front of the verdict keeps, for the bytes that the device has taken and those
appended to the stream. -/
structure Invariant (bytesIn bytesOut : List UInt8) (p : Process opts σ) : Prop where
  sound : Sound opts bytesOut p.shared
  seen : p.shared.seen.length = opts.writers * opts.messages
  aborted : p.Aborted
  counted : p.Counted
  working : p.Untroubled → Working bytesIn bytesOut p

/-- A step that leaves the stream alone keeps the invariant if it keeps the part about untroubled
processes. -/
theorem Invariant.quiet {bytesIn bytesIn' bytesOut : List UInt8} {p p' : Process opts σ}
    (h : Invariant bytesIn bytesOut p) (hquiet : Quiet p p')
    (hworking : p'.Untroubled → p.Untroubled → SameParser p.shared p'.shared →
      Working bytesIn bytesOut p → Working bytesIn' bytesOut p') :
    Invariant bytesIn' bytesOut p' where
  sound := hquiet.sound _ h.sound
  seen := by rw [hquiet.seen, h.seen]
  aborted := hquiet.aborted h.aborted
  counted := hquiet.counted h.counted
  working huntroubled :=
    hworking huntroubled (hquiet.back huntroubled) (hquiet.same huntroubled)
      (h.working (hquiet.back huntroubled))

/-- The invariant at work depends on the places of the threads only. -/
theorem Working.of_places {bytesIn bytesOut : List UInt8} {p : Process opts σ}
    {writer : Fin opts.writers → WriterPc opts} {reader : Fin opts.readers → ReaderPc}
    (hwriter : p.writerPc = writer) (hreader : p.readerPc = reader)
    (writing : Writing bytesIn p.writeLock writer p.shared.stats.writesCompleted)
    (tracked : ∀ frames : List (Frame opts), (frames.map Frame.message).Nodup →
      bytesOut <+: streamOf frames → Tracked frames bytesOut p.shared reader) :
    Working bytesIn bytesOut p := by
  subst hwriter hreader
  exact ⟨writing, tracked⟩

/-- A thread in front of its loop moves. -/
theorem Invariant.startWriter {bytesIn bytesOut : List UInt8} {p : Process opts σ}
    (h : Invariant bytesIn bytesOut p) {w : Fin opts.writers} {ok : Bool}
    {thread : Thread (WriterPc opts)} {s : SharedState}
    (hstart : (p.writer w).start (.test 0) .done ok p.shared = some (thread, s)) :
    Invariant bytesIn bytesOut { p with shared := s, writer := update p.writer w thread } := by
  have hplaces := place_update (.test 0) .failed .cancel p.writer w thread
  refine h.quiet (.writer (Thread.start_quiet ⟨trivial, id⟩ ⟨id, id⟩ ⟨id, trivial⟩ hstart) hplaces
    rfl rfl) fun huntroubled _ hsame hworking => ?_
  have hhealthy := huntroubled.writers w
  simp only [writerPc, update_self] at hhealthy
  obtain ⟨hplace, rfl⟩ := Thread.start_healthy WriterPc.Healthy id id hstart
    huntroubled.stop hhealthy
  refine .of_places (hplaces.trans ?_) rfl hworking.writing hworking.tracked
  rw [hplace]
  exact update_eq_self _ p.writerPc

/-- A reader starts. -/
theorem Invariant.startReader {bytesIn bytesOut : List UInt8} {p : Process opts σ}
    (h : Invariant bytesIn bytesOut p) {r : Fin opts.readers} {ok : Bool}
    {thread : Thread ReaderPc} {s : SharedState}
    (hstart : (p.reader r).start (.test 0) .done ok p.shared = some (thread, s)) :
    Invariant bytesIn bytesOut { p with shared := s, reader := update p.reader r thread } := by
  have hplaces := place_update (.test 0) .failed .cancel p.reader r thread
  refine h.quiet (.reader (Thread.start_quiet ⟨trivial, id⟩ ⟨id, id⟩ ⟨id, trivial⟩ hstart) rfl
    hplaces rfl) fun huntroubled _ hsame hworking => ?_
  have hhealthy := huntroubled.readers r
  simp only [readerPc, update_self] at hhealthy
  obtain ⟨hplace, rfl⟩ := Thread.start_healthy ReaderPc.Healthy id id hstart
    huntroubled.stop hhealthy
  refine .of_places rfl (hplaces.trans ?_) hworking.writing hworking.tracked
  rw [hplace]
  exact update_eq_self _ p.readerPc

/-- A writer moves on by itself, or takes or releases the lock, or calls `write`: the invariant is
kept if the part about the writers is. -/
theorem Invariant.writer {bytesIn bytesIn' bytesOut : List UInt8} {p : Process opts σ}
    (h : Invariant bytesIn bytesOut p) {w : Fin opts.writers} {pc pc' : WriterPc opts}
    (hpc : p.writer w = .opened pc) {s : SharedState} {lock : Option (Fin opts.writers)} {d : σ}
    (hquiet : QuietStep pc.Healthy pc.Alarmed pc'.Healthy pc'.Alarmed p.shared s)
    (hwriting : p.shared.stop = false → pc'.Healthy →
      Writing bytesIn p.writeLock p.writerPc p.shared.stats.writesCompleted →
      Writing bytesIn' lock (update p.writerPc w pc') s.stats.writesCompleted) :
    Invariant bytesIn' bytesOut
      { p with
        shared := s
        writeLock := lock
        device := d
        writer := update p.writer w (.opened pc') } := by
  have hplaces := place_update (.test 0) .failed .cancel p.writer w (.opened pc')
  have hplace : p.writerPc w = pc := by rw [writerPc, hpc, Thread.place]
  refine h.quiet (.writer (by rwa [hplace]) hplaces rfl rfl)
    fun huntroubled huntroubled' hsame hworking => ?_
  have hhealthy := huntroubled.writers w
  simp only [writerPc, update_self] at hhealthy
  exact .of_places hplaces rfl (hwriting huntroubled'.stop hhealthy hworking.writing)
    fun frames hnodup hpre => (hworking.tracked frames hnodup hpre).same hsame

/-- A reader moves on outside the parser. -/
theorem Invariant.reader {bytesIn bytesOut : List UInt8} {p : Process opts σ}
    (h : Invariant bytesIn bytesOut p) {r : Fin opts.readers} {pc pc' : ReaderPc}
    (hpc : p.reader r = .opened pc) {s : SharedState} {lock : Option (Fin opts.readers)} {d : σ}
    (hquiet : QuietStep pc.Healthy pc.Alarmed pc'.Healthy pc'.Alarmed p.shared s)
    (hcount : s.stats.writesCompleted = p.shared.stats.writesCompleted)
    (hparsing : pc'.parsing = pc.parsing) :
    Invariant bytesIn bytesOut
      { p with
        shared := s
        readLock := lock
        device := d
        reader := update p.reader r (.opened pc') } := by
  have hplaces := place_update (.test 0) .failed .cancel p.reader r (.opened pc')
  have hplace : p.readerPc r = pc := by rw [readerPc, hpc, Thread.place]
  refine h.quiet (.reader (by rwa [hplace]) rfl hplaces rfl)
    fun huntroubled huntroubled' hsame hworking => ?_
  refine .of_places rfl hplaces (hcount ▸ hworking.writing) fun frames hnodup hpre =>
    ((hworking.tracked frames hnodup hpre).same hsame).move ?_
  rw [hplace]
  exact hparsing

/-- A reader appends its buffer and enters the loop of the parser. -/
theorem Invariant.append {bytesIn bytesOut : List UInt8} {p : Process opts σ}
    (h : Invariant bytesIn bytesOut p) {r : Fin opts.readers} {idle count cap : ℕ}
    {buffer : List UInt8} (hpc : p.reader r = .opened (.append idle buffer)) :
    Invariant bytesIn (bytesOut ++ buffer)
      { p with
        shared := { p.shared with stream := p.shared.stream ++ buffer, streamCap := cap }
        reader := update p.reader r (.opened (.validate idle count)) } := by
  have hplaces := place_update (.test 0) .failed .cancel p.reader r
    (.opened (.validate idle count))
  have hplace : p.readerPc r = .append idle buffer := by rw [readerPc, hpc, Thread.place]
  have hfollows : Follows p { p with
      shared := { p.shared with stream := p.shared.stream ++ buffer, streamCap := cap }
      reader := update p.reader r (.opened (.validate idle count)) } := by
    refine .reader ⟨le_rfl, id, fun halarm => .inr (.inl (halarm.resolve_right id)), fun hstop _ =>
      ⟨hstop, ?_⟩⟩ rfl hplaces rfl
    rw [hplace]
    trivial
  refine ⟨fun hzero => ?_, h.seen, hfollows.aborted h.aborted, hfollows.counted h.counted,
    fun huntroubled => ?_⟩
  · obtain ⟨frames, hparsed⟩ := h.sound hzero
    exact ⟨frames, { hparsed with bytes_eq := by rw [hparsed.bytes_eq, List.append_assoc] }⟩
  · have hworking := h.working (hfollows.back huntroubled)
    refine .of_places rfl hplaces hworking.writing fun frames hnodup hpre => ?_
    exact (hworking.tracked frames hnodup ((List.prefix_append _ _).trans hpre)).append hpre cap
      idle count

/-- A reader is in the loop of the parser. -/
theorem Invariant.validate {bytesIn bytesOut : List UInt8} {p : Process opts σ}
    (h : Invariant bytesIn bytesOut p) {r : Fin opts.readers} {idle count : ℕ}
    (hpc : p.reader r = .opened (.validate idle count)) {pc : ReaderPc} {s : SharedState}
    (hstep : readerStep opts p.shared (.validate idle count) = some (pc, s)) :
    Invariant bytesIn bytesOut
      { p with shared := s, reader := update p.reader r (.opened pc) } := by
  have hplaces := place_update (.test 0) .failed .cancel p.reader r (.opened pc)
  have hplace : p.readerPc r = .validate idle count := by rw [readerPc, hpc, Thread.place]
  have hspec := validateStep_spec opts p.shared
  have hcounters := hspec.counters
  have hstop := hspec.stop_eq
  have hsound := h.sound.step hspec
  rw [readerStep] at hstep
  -- the parser goes on, or it returns
  obtain ⟨hs, hhealthy, halarmed, htracked⟩ :
      (validateStep opts p.shared).elim id id = s ∧ pc.Healthy ∧ ¬ pc.Alarmed ∧
        ∀ frames : List (Frame opts), (frames.map Frame.message).Nodup →
          Tracked frames bytesOut p.shared p.readerPc →
            Tracked frames bytesOut s (update p.readerPc r pc) := by
    split at hstep <;> rename_i heq <;> obtain ⟨rfl, rfl⟩ := Prod.mk.inj (Option.some.inj hstep)
    · exact ⟨by rw [heq]; rfl, trivial, id, fun frames hnodup h => (h.validate hnodup).1 _ heq⟩
    · exact ⟨by rw [heq]; rfl, fun e he => (by cases he), id,
        fun frames hnodup h => (h.validate hnodup).2 _ heq⟩
  rw [hs] at hcounters hstop hsound
  have hfollows : Follows p { p with shared := s, reader := update p.reader r (.opened pc) } := by
    refine .reader ⟨hcounters.2.1, hstop.trans, fun halarm => .inr (.inl ?_),
      fun hstop' _ => ⟨?_, ?_⟩⟩ rfl hplaces rfl
    · exact hstop ▸ halarm.resolve_right halarmed
    · exact hstop ▸ hstop'
    · rw [hplace]
      trivial
  refine ⟨hsound, hcounters.2.2.trans h.seen, hfollows.aborted h.aborted,
    hfollows.counted h.counted, fun huntroubled => ?_⟩
  have hworking := h.working (hfollows.back huntroubled)
  exact .of_places rfl hplaces (hcounters.1 ▸ hworking.writing) fun frames hnodup hpre =>
    htracked frames hnodup (hworking.tracked frames hnodup hpre)

/-- What a step of the main thread in front of the verdict does to the process. -/
theorem mainStep_frame {p p' : Process opts σ} (hstartup : Startup p) {ok : Bool}
    (h : ConcurrentTest.mainStep ok p = some p') (hverdict : p.main ≠ .verdict) :
    p'.writerPc = p.writerPc ∧ p'.readerPc = p.readerPc ∧
      (p'.writeLock = p.writeLock ∧ p'.readLock = p.readLock ∧ p'.device = p.device) ∧
      (p'.shared = p.shared ∧ p'.startupFailed = p.startupFailed ∨
        p'.shared = { p.shared with stop := true } ∧ p'.startupFailed = true) := by
  have hmain := hstartup.main
  rw [MainOk] at hmain
  rw [ConcurrentTest.mainStep] at h
  cases hpc : p.main with
  | verdict => exact absurd hpc hverdict
  | exited exitCode =>
    rw [hpc] at h
    cases h
  | setup =>
    rw [hpc] at h
    obtain rfl := Option.some.inj h
    exact ⟨rfl, rfl, ⟨rfl, rfl, rfl⟩, .inl ⟨rfl, rfl⟩⟩
  | abort =>
    rw [hpc] at h
    obtain rfl := Option.some.inj h
    exact ⟨rfl, rfl, ⟨rfl, rfl, rfl⟩, .inr ⟨rfl, rfl⟩⟩
  | createReader index =>
    simp only [hpc] at h hmain
    split_ifs at h with hindex hok <;> obtain rfl := Option.some.inj h
    · -- a thread that is created is where one that is not there yet is taken to be
      have habsent : p.reader ⟨index, hindex⟩ = .absent :=
        (hstartup.readers _).mpr hmain.1.le
      refine ⟨rfl, (place_update (.test 0) .failed .cancel p.reader _ _).trans ?_, ⟨rfl, rfl, rfl⟩,
        .inl ⟨rfl, rfl⟩⟩
      exact update_eq_self_iff.mpr (by rw [habsent]; rfl)
    · exact ⟨rfl, rfl, ⟨rfl, rfl, rfl⟩, .inl ⟨rfl, rfl⟩⟩
    · exact ⟨rfl, rfl, ⟨rfl, rfl, rfl⟩, .inl ⟨rfl, rfl⟩⟩
  | createWriter index =>
    simp only [hpc] at h hmain
    split_ifs at h with hindex hok <;> obtain rfl := Option.some.inj h
    · have habsent : p.writer ⟨index, hindex⟩ = .absent :=
        (hstartup.writers _).mpr hmain.2.le
      refine ⟨(place_update (.test 0) .failed .cancel p.writer _ _).trans ?_, rfl, ⟨rfl, rfl, rfl⟩,
        .inl ⟨rfl, rfl⟩⟩
      exact update_eq_self_iff.mpr (by rw [habsent]; rfl)
    · exact ⟨rfl, rfl, ⟨rfl, rfl, rfl⟩, .inl ⟨rfl, rfl⟩⟩
    · exact ⟨rfl, rfl, ⟨rfl, rfl, rfl⟩, .inl ⟨rfl, rfl⟩⟩
  | joinWriter index | joinReader index =>
    simp only [hpc] at h
    split_ifs at h <;> obtain rfl := Option.some.inj h <;>
      exact ⟨rfl, rfl, ⟨rfl, rfl, rfl⟩, .inl ⟨rfl, rfl⟩⟩

/-- A step of the main thread that is not the verdict keeps the invariant. -/
theorem Invariant.mainStep {bytesIn bytesOut : List UInt8} {p p' : Process opts σ}
    (h : Invariant bytesIn bytesOut p) (hstartup : Startup p) {ok : Bool}
    (hstep : ConcurrentTest.mainStep ok p = some p') (hverdict : p.main ≠ .verdict) :
    Invariant bytesIn bytesOut p' := by
  obtain ⟨hwriter, hreader, ⟨hlock, -, -⟩, ⟨hshared, hfailed⟩ | ⟨hshared, hfailed⟩⟩ :=
    mainStep_frame hstartup hstep hverdict
  · have hcounted := h.counted
    rw [Counted] at hcounted
    refine ⟨hshared ▸ h.sound, hshared ▸ h.seen, ?_, ?_, ?_⟩
    · rw [Aborted, hfailed, hshared]
      exact h.aborted
    · rw [Counted, hshared, hwriter, hreader, hfailed]
      exact hcounted
    · rintro ⟨hstop, hwriters, hreaders⟩
      rw [hshared] at hstop
      rw [hwriter] at hwriters
      rw [hreader] at hreaders
      have hworking := h.working ⟨hstop, hwriters, hreaders⟩
      refine .of_places hwriter hreader ?_ ?_
      · rw [hlock, hshared]
        exact hworking.writing
      · rw [hshared]
        exact hworking.tracked
  · -- a thread could not be created
    refine ⟨?_, ?_, fun _ => by rw [hshared], fun _ => .inr hfailed, fun huntroubled => ?_⟩
    · rw [hshared]
      have hquiet : QuietStep False True False False p.shared { p.shared with stop := true } :=
        .cancel p.shared trivial
      exact hquiet.sound _ h.sound
    · rw [hshared]
      exact h.seen
    · have := huntroubled.stop
      rw [hshared] at this
      cases this

/-- Every step keeps the invariant, but the verdict. -/
theorem Invariant.step {bytesIn bytesOut : List UInt8} {p p' : Process opts σ} {e : Event}
    (h : Invariant bytesIn bytesOut p) (hstartup : Startup p)
    (hstep : Step opts platform p e p') (hverdict : p.main ≠ .verdict) :
    Invariant (bytesIn ++ e.written) (bytesOut ++ e.appended) p' := by
  cases hstep with
  | main may hmain =>
    simp only [Event.written, Event.appended, List.append_nil]
    exact h.mainStep hstartup hmain hverdict
  | startWriter w may hstart =>
    simp only [Event.written, Event.appended, List.append_nil]
    exact h.startWriter hstart
  | startReader r may hstart =>
    simp only [Event.written, Event.appended, List.append_nil]
    exact h.startReader hstart
  | writer w hpc hlocal =>
    simp only [Event.written, Event.appended, List.append_nil]
    refine h.writer hpc (writerStep_quiet hlocal) fun hstop _ hwriting =>
      hwriting.local_step rfl ?_ hstop
    rw [writerPc, hpc]
    exact hlocal
  | writeLock w hpc free =>
    simp only [Event.written, Event.appended, List.append_nil]
    refine h.writer hpc (.unchanged (.refl _) (fun _ => trivial) id) fun _ _ hwriting =>
      (free ▸ hwriting).acquire ?_
    rw [writerPc, hpc, Thread.place]
  | write w hpc call =>
    simp only [Event.written, Event.appended, List.append_nil]
    refine h.writer hpc (.unchanged (.refl _) (fun _ => trivial) ?_) fun _ hhealthy hwriting =>
      hwriting.write ?_ hhealthy
    · rename_i ret _
      rcases ret with (_ | _ | code) | (_ | n) <;> exact id
    · rw [writerPc, hpc, Thread.place]
  | writeUnlock w hpc =>
    rename_i sequence ret
    simp only [Event.written, Event.appended, List.append_nil]
    refine h.writer hpc (.unchanged (.refl _) ?_ ?_) fun _ _ hwriting => hwriting.release ?_
    · cases ret with
      | ok => exact fun _ => rfl
      | error e => exact False.elim
    · cases ret <;> exact id
    · rw [writerPc, hpc, Thread.place]
  | reader r hpc hlocal =>
    rename_i pc pc' s
    simp only [Event.written, Event.appended, List.append_nil]
    by_cases hparse : pc.parsing
    · cases pc with
      | validate idle count => exact h.validate hpc hlocal
      | _ => cases hparse
    · obtain ⟨hquiet, hcount, hparsing⟩ := readerStep_quiet hlocal hparse
      exact h.reader hpc hquiet hcount hparsing
  | readLock r hpc free =>
    simp only [Event.written, Event.appended, List.append_nil]
    exact h.reader hpc (.unchanged (.refl _) (fun _ => trivial) id) rfl rfl
  | read r hpc call =>
    rename_i idle ret d
    simp only [Event.written, Event.appended, List.append_nil]
    refine h.reader hpc (.unchanged (.refl _) (fun _ => trivial) ?_) rfl
      (parsing_afterRead idle ret)
    rcases ret with (_ | _ | code) | (_ | ⟨byte, rest⟩) <;> exact id
  | append r hpc capacity =>
    simp only [Event.written, Event.appended, List.append_nil]
    rcases ensureStreamCapacity_spec platform.realloc p.shared _ with ⟨-, hnone⟩ | ⟨cap, -, hcap⟩
    · rw [hnone] at capacity
      cases capacity
    · obtain rfl := Option.some.inj (Option.some.inj (hcap.symm.trans capacity))
      exact h.append hpc
  | overflow r hpc capacity =>
    simp only [Event.written, Event.appended, List.append_nil]
    exact h.reader hpc (.fail _ id) rfl rfl
  | readUnlock r hpc =>
    rename_i idle ret
    simp only [Event.written, Event.appended, List.append_nil]
    have hafter : ((afterReadLock idle ret).Healthy → ∀ e, ret = .error e → e = .EAGAIN) ∧
        ¬ (afterReadLock idle ret).Alarmed ∧ (afterReadLock idle ret).parsing = false := by
      rcases ret with (_ | _ | code) | (_ | count)
      · exact ⟨fun _ e he => (Except.error.inj he).symm, id, rfl⟩
      · exact ⟨False.elim, id, rfl⟩
      · exact ⟨False.elim, id, rfl⟩
      · exact ⟨fun _ e he => (by cases he), id, rfl⟩
      · exact ⟨fun _ e he => (by cases he), id, rfl⟩
    exact h.reader hpc (.unchanged (.refl _) hafter.1 fun halarm => absurd halarm hafter.2.1) rfl
      hafter.2.2

end Process

end ConcurrentTest
