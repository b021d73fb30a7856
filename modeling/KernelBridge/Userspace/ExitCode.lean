import KernelBridge.Userspace.AnyDevice

/-!
# The exit code of the concurrency test

What the exit code of the test says about its device.

* `exit_code_exact`: over any device, the exit code is 0 exactly when the stop flag is clear and the
  readers were given the frames of all messages, each whole and once.
* `exit_code_lossless`: over a lossless queue, whose calls fail with `EAGAIN` and `EINTR` only, the
  exit code is 0 exactly when the readers have taken everything out of the queue.
-/

namespace ConcurrentTest

variable {opts : TestOptions} {σ : Type} {platform : Platform σ}

namespace Process

/-- The invariant at the start of the process. -/
theorem Invariant.init (device : Device σ) : Invariant [] [] (Process.init opts device) where
  sound _ := ⟨[], Parsed.init opts⟩
  seen := List.length_replicate
  aborted hfailed := by cases hfailed
  counted halarm := by
    rcases halarm with hstop | ⟨w, halarm⟩ | ⟨r, halarm⟩
    · cases hstop
    · cases halarm
    · cases halarm
  working _ := by
    refine ⟨⟨⟨[], ⟨List.nodup_nil, fun w => ⟨⟨fun h => ?_, fun h => ?_⟩, fun _ h => ?_, trivial⟩,
      rfl⟩, fun w sequence hlt => ?_⟩, ?_⟩, fun frames _ _ => Tracked.init frames _⟩
    · cases h
    · cases h
    · cases h
    · exact absurd hlt (Nat.not_lt_zero _)
    · exact (Finset.sum_eq_zero fun w _ => Nat.zero_min _).symm

/-- The process keeps its invariants until it exits. -/
theorem Run.invariant {tr : List Event} {p : Process opts σ} (h : Run opts platform tr p) :
    Startup p ∧ (¬ p.Exited → Invariant (written tr) (appended tr) p) := by
  refine Lts.Run.invariant
    (I := fun tr p => Startup p ∧ (¬ p.Exited → Invariant (written tr) (appended tr) p)) h
    ⟨.init platform.device, fun _ => .init platform.device⟩ ?_
  rintro tr p e p' - ⟨hstartup, hinv⟩ hstep
  refine ⟨hstep.startup hstartup, fun hexited => ?_⟩
  obtain ⟨hverdict, hexited'⟩ := hstep.not_exited hstartup hexited
  rw [written_snoc, appended_snoc]
  exact (hinv hexited').step hstartup hstep hverdict

/-- At the verdict, all threads have been created and joined. -/
theorem Run.at_verdict {tr : List Event} {p : Process opts σ} (h : Run opts platform tr p)
    (hverdict : p.main = .verdict) :
    p.Invariant (written tr) (appended tr) ∧ p.startupFailed = false ∧
      (∀ w, p.writer w = .opened .done) ∧ ∀ r, p.reader r = .opened .done := by
  obtain ⟨hstartup, hinv⟩ := Run.invariant h
  have hmain := hstartup.main
  rw [MainOk, hverdict] at hmain
  refine ⟨hinv ?_, hmain⟩
  rintro ⟨exitCode, heq⟩
  rw [hverdict] at heq
  cases heq

/-- In front of the set-up nothing has happened. -/
theorem Run.eq_init_of_setup {tr : List Event} {p : Process opts σ} (h : Run opts platform tr p)
    (hsetup : p.main = .setup) : tr = [] ∧ p = .init opts platform.device := by
  cases h with
  | nil => exact ⟨rfl, rfl⟩
  | @snoc tr q e _ hrun hstep =>
    exfalso
    have hstartup := (Run.invariant hrun).1
    rcases hstep.main_or_moved with ⟨-, ok, -, hmain⟩ | hmoved
    · -- no step of the main thread leads back to the set-up
      rw [mainStep] at hmain
      split at hmain <;> (try split_ifs at hmain) <;> cases hmain <;> simp at hsetup
    · -- there is no thread yet
      have hcount := hstartup.main
      rw [MainOk, ← hmoved.main, hsetup] at hcount
      rcases hmoved.live with ⟨w, hlive⟩ | ⟨r, hlive⟩
      · exact hlive.1 ((hstartup.writers w).mpr (hcount.2.le.trans (Nat.zero_le _)))
      · exact hlive.1 ((hstartup.readers r).mpr (hcount.1.le.trans (Nat.zero_le _)))

/-- How a process comes to its exit code: the set-up has failed, a thread could not be created, or
the code is the verdict on the state that the joined threads have left. -/
theorem Run.exited_cases {tr : List Event} {p : Process opts σ} (h : Run opts platform tr p)
    {exitCode : ℕ} (hexit : p.main = .exited exitCode) :
    (exitCode = 1 ∧ tr = [.tau] ∧ platform.mayRefuse = true) ∨
      (exitCode = 1 ∧ p.startupFailed = true ∧ p.shared.stop = true) ∨
      ∃ (tr' : List Event) (q : Process opts σ), Run opts platform tr' q ∧ q.main = .verdict ∧
        tr = tr' ++ [.tau] ∧ p.device = q.device ∧
        p.shared = (verdict opts q.shared).1 ∧ exitCode = (verdict opts q.shared).2 := by
  cases h with
  | nil => cases hexit
  | @snoc tr q e _ hrun hstep =>
    obtain ⟨hstartup, hinv⟩ := Run.invariant hrun
    rcases hstep.main_or_moved with ⟨rfl, ok, may, hmain⟩ | hmoved
    · rw [mainStep] at hmain
      cases hpc : q.main with
      | setup =>
        obtain ⟨rfl, rfl⟩ := Run.eq_init_of_setup hrun hpc
        obtain rfl := Option.some.inj hmain
        cases ok with
        | true => cases hexit
        | false => exact .inl ⟨(MainPc.exited.inj hexit).symm, rfl, may rfl⟩
      | joinReader index =>
        simp only [hpc] at hmain
        split_ifs at hmain with hindex hreturned hfailed <;> obtain rfl := Option.some.inj hmain
        · cases hexit
        · have hstop := (hinv fun hexited => by
            obtain ⟨code, heq⟩ := hexited
            rw [hpc] at heq
            cases heq).aborted hfailed
          exact .inr (.inl ⟨(MainPc.exited.inj hexit).symm, hfailed, hstop⟩)
        · cases hexit
      | verdict =>
        rw [hpc] at hmain
        obtain rfl := Option.some.inj hmain
        exact .inr (.inr ⟨tr, q, hrun, hpc, rfl, rfl, rfl, (MainPc.exited.inj hexit).symm⟩)
      | createReader index | createWriter index | abort | joinWriter index | exited =>
        simp only [hpc] at hmain
        (try split_ifs at hmain) <;> cases hmain <;> cases hexit
    · -- a thread that runs leaves the main one where it is
      exact absurd ⟨exitCode, hmoved.main ▸ hexit⟩ (hstartup.running hmoved).2

end Process

/-! ## The exit code -/

/-- The exit code of `main` is 0 exactly when no failure is counted, no rest is left in the stream,
and every frame is counted as written, as validated and as seen. -/
theorem verdict_eq_zero_iff (opts : TestOptions) (s : SharedState) :
    (verdict opts s).2 = 0 ↔ s.Accepted opts ∧
      s.stats.writesCompleted = opts.writers * opts.messages ∧ s.missing = 0 := by
  by_cases hstream : s.stream = []
  · simp only [verdict, hstream, List.length_nil, ne_eq, not_true_eq_false, if_false,
      SharedState.Accepted, true_and]
    rw [ite_eq_left_iff]
    constructor
    · intro h
      have := Classical.not_not.mp fun hnot => absurd (h hnot) one_ne_zero
      exact ⟨⟨this.2.2.2, this.2.1⟩, this.1, this.2.2.1⟩
    · rintro ⟨⟨hfailures, hvalidated⟩, hwrites, hmissing⟩ hnot
      exact absurd ⟨hwrites, hvalidated, hmissing, hfailures⟩ hnot
  · -- the rest is counted as a failure
    have hlength : s.stream.length ≠ 0 := fun h => hstream (List.length_eq_zero_iff.mp h)
    simp only [verdict, if_pos hlength, SharedState.Accepted, hstream, false_and, and_false,
      iff_false]
    rw [if_neg]
    · exact one_ne_zero
    · exact fun h => absurd h.2.2.2 (Nat.succ_ne_zero _)

/-- The verdict leaves the stop flag alone. -/
theorem verdict_stop (opts : TestOptions) (s : SharedState) : (verdict opts s).1.stop = s.stop := by
  rw [verdict]
  split_ifs <;> rfl

/-- The verdict on a state in which all threads have returned. -/
theorem Process.Invariant.verdict {bytesIn bytesOut : List UInt8} {p : Process opts σ}
    (h : p.Invariant bytesIn bytesOut) (hstarted : p.startupFailed = false)
    (hwriters : ∀ w, p.writer w = .opened .done) (hreaders : ∀ r, p.reader r = .opened .done) :
    ((verdict opts p.shared).2 = 0 ↔ p.shared.stop = false ∧ CompleteStream opts bytesOut) ∧
      (p.shared.stop = false → ∃ order : List (Message opts),
        (∀ message, order.count message = 1) ∧ bytesIn = order.flatMap Message.frame) := by
  have hwriterPc (w : Fin opts.writers) : p.writerPc w = .done := by
    rw [writerPc, hwriters, Thread.place]
  have hreaderPc (r : Fin opts.readers) : p.readerPc r = .done := by
    rw [readerPc, hreaders, Thread.place]
  have hworking (hstop : p.shared.stop = false) : p.Working bytesIn bytesOut :=
    h.working ⟨hstop, fun w => by rw [hwriterPc]; trivial, fun r => by rw [hreaderPc]; trivial⟩
  have hnodup {frames : List (Frame opts)}
      (honce : ∀ message, (frames.map Frame.message).count message = 1) :
      (frames.map Frame.message).Nodup :=
    List.nodup_iff_count_le_one.mpr fun message => (honce message).le
  rw [verdict_eq_zero_iff]
  refine ⟨⟨?_, ?_⟩, fun hstop => ((hworking hstop).writing.finished hwriterPc).2⟩
  · rintro ⟨⟨hfailures, hstream, hvalidated⟩, -, -⟩
    refine ⟨?_, ?_⟩
    · -- the flag is set behind a failure only
      by_contra hstop
      rcases h.counted (.inl (Bool.not_eq_false _ ▸ hstop)) with hpos | hfailed
      · omega
      · rw [hstarted] at hfailed
        cases hfailed
    · obtain ⟨frames, hparsed⟩ := h.sound hfailures
      have hlength : frames.length = opts.writers * opts.messages := hparsed.validated ▸ hvalidated
      refine ⟨frames, by rw [hparsed.bytes_eq, hstream, List.append_nil], hlength, ?_⟩
      exact count_eq_one hparsed.nodup (by rw [List.length_map, hlength])
  · rintro ⟨hstop, frames, heq, hlength, honce⟩
    obtain ⟨hwriting, htracked⟩ := hworking hstop
    -- the parser has accepted every frame, and it waits for nothing
    have hwaiting : Waiting frames bytesOut p.shared := fun hpre => by
      obtain ⟨done, todo, hframes, htrack, hshort⟩ := htracked frames (hnodup honce) hpre
      exact ⟨done, todo, hframes, htrack, hshort fun r hparsing => by
        rw [hreaderPc] at hparsing
        cases hparsing⟩
    obtain ⟨hfailures, hstream, hvalidated⟩ := hwaiting.all_accepted heq
    rw [hlength] at hvalidated
    refine ⟨⟨hfailures, hstream, hvalidated⟩, (hwriting.finished hwriterPc).1, ?_⟩
    obtain ⟨accepted, hparsed⟩ := h.sound hfailures
    refine hparsed.missing_eq_zero h.seen fun message => List.count_pos_iff.mp ?_
    have hcount := count_eq_one hparsed.nodup (by
      rw [List.length_map, ← hparsed.validated, hvalidated]) message
    omega

/-- The exit code tells exactly whether the device has passed, whatever the device does, however the
threads are scheduled, and whichever allocation, `open` or `pthread_create` fails: it is 0 if and
only if the stop flag is clear and the bytes that the readers were given are, read by read, the
frames of all messages, each whole and once. Then the device has taken the frames of all messages,
each whole and once, too. -/
theorem exit_code_exact (opts : TestOptions) {σ : Type} (platform : Platform σ) {tr : List Event}
    {p : Process opts σ} (h : Process.Run opts platform tr p) {exitCode : ℕ}
    (hexit : p.main = .exited exitCode) :
    (exitCode = 0 ↔ p.shared.stop = false ∧ CompleteStream opts (appended tr)) ∧
      (exitCode = 0 → ∃ order : List (Message opts), (∀ message, order.count message = 1) ∧
        written tr = order.flatMap Message.frame) := by
  rcases h.exited_cases hexit with ⟨rfl, rfl, -⟩ | ⟨rfl, -, hstop⟩ |
    ⟨tr', q, hrun, hverdict, rfl, -, hshared, rfl⟩
  · -- without a thread there is no frame, and there is at least one message
    refine ⟨⟨fun h => absurd h one_ne_zero, ?_⟩, fun h => absurd h one_ne_zero⟩
    rintro ⟨-, frames, hbytes, hlength, -⟩
    have hpos := Nat.mul_pos opts.writers_bounds.1 opts.messages_bounds.1
    rcases frames with _ | ⟨frame, frames⟩
    · rw [List.length_nil] at hlength
      omega
    · have hsize := congrArg List.length hbytes
      have hbounds := opts.messageSize_bounds.1
      simp only [appended, Event.appended, List.flatMap_cons, List.flatMap_nil, List.append_nil,
        List.length_nil, List.length_append, frame.isFrame.size, frameHeaderSize] at hsize hbounds
      omega
  · rw [hstop]
    exact ⟨⟨fun h => absurd h one_ne_zero, fun h => absurd h.1 (by simp)⟩,
      fun h => absurd h one_ne_zero⟩
  · obtain ⟨hq, hstarted, hwriters, hreaders⟩ := Process.Run.at_verdict hrun hverdict
    obtain ⟨hexact, horder⟩ := hq.verdict hstarted hwriters hreaders
    rw [hshared, verdict_stop, written_snoc, appended_snoc]
    simp only [Event.written, Event.appended, List.append_nil]
    exact ⟨hexact, fun hzero => horder (hexact.mp hzero).1⟩

/-- A reader accepts a frame and goes on. -/
theorem readerStep_accept {s s' : SharedState} {idle count : ℕ}
    (h : validateStep opts s = .inl s') :
    readerStep opts s (.validate idle count) = some (.validate idle count, s') := by
  rw [readerStep, h]

/-- A reader with an empty stream gives the lock back. -/
theorem readerStep_wait {s : SharedState} {idle count : ℕ} (h : s.stream = []) :
    readerStep opts s (.validate idle count) = some (.unlock idle (.ok count), s) := by
  rw [readerStep, validateStep, h, if_pos (by decide)]

/-- The parser accepts the one frame of the smallest run. -/
theorem validateStep_only {s : SharedState} (hseen : s.seen = [false])
    (hstream : s.stream = Message.only.frame) :
    validateStep .smallest s =
      .inl { s with
        stats.framesValidated := s.stats.framesValidated + 1
        seen := [true]
        stream := [] } := by
  obtain ⟨stats, seen, stream, cap, stop⟩ := s
  subst hseen hstream
  have hsize : (getBe32 (Message.only.frame.drop 12)).toNat + frameHeaderSize =
      Message.only.frame.length := by decide
  have hindex : (getBe32 (Message.only.frame.drop 4)).toNat * TestOptions.smallest.messages +
      (getBe32 (Message.only.frame.drop 8)).toNat = 0 := by decide
  simp only [validateStep]
  rw [if_neg (by decide), if_neg (by decide), if_neg (by decide), if_neg (by decide),
    if_neg (by decide), if_neg (by decide)]
  simp [hsize, hindex, SharedState.accept, SharedState.consumeStream]

/-- A run of the smallest test over a lossless queue in which the frame is written and read in one
piece. -/
theorem exists_passing_run :
    ∃ (tr : List Event) (p : Process .smallest (List UInt8)),
      Process.Run .smallest (.lossless fun _ => true) tr p ∧ p.main = .exited 0 := by
  let w : Fin TestOptions.smallest.writers := ⟨0, by decide⟩
  let r : Fin TestOptions.smallest.readers := ⟨0, by decide⟩
  have hframe : Message.only.frame.length = 20 := Message.length_frame Message.only
  have hqueue : 20 ≤ ([] ++ (Message.only.frame.drop 0).take 20).length := by
    rw [List.nil_append, List.drop_zero, List.length_take, hframe, Nat.min_self]
  have may : true = false → false = true := fun h => (by cases h)
  have h0 : Process.Run .smallest (.lossless fun _ => true) [] _ := Lts.Run.nil
  -- both threads are created
  have h1 := h0.snoc (.main may rfl)
  have h2 := h1.snoc (.main may rfl)
  have h3 := h2.snoc (.main may rfl)
  have h4 := h3.snoc (.main may rfl)
  have h5 := h4.snoc (.main may rfl)
  -- the writer writes its frame and returns
  have h6 := h5.snoc (.startWriter w may rfl)
  have h7 := h6.snoc (.writer w rfl rfl)
  have h8 := h7.snoc (.writer w rfl rfl)
  have h9 := h8.snoc (.writeLock w rfl rfl)
  have h10 := h9.snoc (.writer w rfl rfl)
  have h11 := h10.snoc (.write w rfl (.accepted 20 (by decide) hframe.ge))
  have h12 := h11.snoc (.writer w rfl rfl)
  have h13 := h12.snoc (.writeUnlock w rfl)
  have h14 := h13.snoc (.writer w rfl rfl)
  have h15 := h14.snoc (.writer w rfl rfl)
  have h16 := h15.snoc (.writer w rfl rfl)
  have h17 := h16.snoc (.writer w rfl rfl)
  -- the reader reads it and returns
  have h18 := h17.snoc (.startReader r may rfl)
  have h19 := h18.snoc (.reader r rfl rfl)
  have h20 := h19.snoc (.readLock r rfl rfl)
  have h21 := h20.snoc (.read r rfl (.delivered 20 (by decide) (by decide) hqueue))
  have h22 := h21.snoc (.append r rfl rfl)
  have h23 := h22.snoc (.reader r rfl (readerStep_accept (validateStep_only rfl rfl)))
  have h24 := h23.snoc (.reader r rfl (readerStep_wait rfl))
  have h25 := h24.snoc (.readUnlock r rfl)
  have h26 := h25.snoc (.reader r rfl rfl)
  have h27 := h26.snoc (.reader r rfl rfl)
  have h28 := h27.snoc (.reader r rfl rfl)
  -- both are joined
  have h29 := h28.snoc (.main may rfl)
  have h30 := h29.snoc (.main may rfl)
  have h31 := h30.snoc (.main may rfl)
  have h32 := h31.snoc (.main may rfl)
  exact ⟨_, _, h32.snoc (.main may rfl), rfl⟩

/-- On that run the exit code tells that the frame was taken and given out whole. -/
theorem exit_code_exact_passing :
    ∃ (tr : List Event) (p : Process .smallest (List UInt8)),
      Process.Run .smallest (.lossless fun _ => true) tr p ∧ p.main = .exited 0 ∧
        CompleteStream .smallest (appended tr) ∧
        ∃ order : List (Message .smallest), (∀ message, order.count message = 1) ∧
          written tr = order.flatMap Message.frame := by
  obtain ⟨tr, p, hrun, hexit⟩ := exists_passing_run
  obtain ⟨hexact, horder⟩ := exit_code_exact .smallest (.lossless fun _ => true) hrun hexit
  exact ⟨tr, p, hrun, hexit, (hexact.mp rfl).2, horder rfl⟩

/-! ## Lossless devices -/

namespace Process

open Function

/-- The process as the system of its threads: those in front of their loops are taken to be at
them. -/
def toSys (p : Process opts (List UInt8)) : Sys opts where
  shared := p.shared
  writeLock := p.writeLock
  readLock := p.readLock
  fifo := p.device
  writer := p.writerPc
  reader := p.readerPc

/-- No allocation, no `open` and no `pthread_create` has failed. -/
structure Smooth (p : Process opts σ) : Prop where
  startupFailed : p.startupFailed = false
  main : p.main ≠ .abort
  writers : ∀ w, p.writer w ≠ .refused ∧ p.writer w ≠ .cancelling
  readers : ∀ r, p.reader r ≠ .refused ∧ p.reader r ≠ .cancelling

/-- Nothing has failed at the start. -/
theorem Smooth.init (device : Device σ) : Smooth (Process.init opts device) where
  startupFailed := rfl
  main heq := by cases heq
  writers w := ⟨fun heq => (by cases heq), fun heq => (by cases heq)⟩
  readers r := ⟨fun heq => (by cases heq), fun heq => (by cases heq)⟩

/-- A thread whose `open` succeeds goes to its loop. -/
theorem start_smooth {α : Type} {entry exit : α} {ok : Bool} (hok : ok = true)
    {s s' : SharedState} {t t' : Thread α} (h : t.start entry exit ok s = some (t', s'))
    (hsmooth : t ≠ .refused ∧ t ≠ .cancelling) : t = .starting ∧ t' = .opened entry ∧ s' = s := by
  cases t with
  | absent | opened => cases h
  | starting =>
    subst hok
    obtain ⟨rfl, rfl⟩ := Prod.mk.inj (Option.some.inj h)
    exact ⟨rfl, rfl, rfl⟩
  | refused => exact absurd rfl hsmooth.1
  | cancelling => exact absurd rfl hsmooth.2

/-- A writer that moves fails nothing. -/
theorem Smooth.of_writer {p p' : Process opts σ} (h : Smooth p) {w : Fin opts.writers}
    {pc : WriterPc opts} (hwriter : p'.writer = update p.writer w (.opened pc))
    (hrest : p'.reader = p.reader ∧ p'.main = p.main ∧ p'.startupFailed = p.startupFailed) :
    Smooth p' where
  startupFailed := hrest.2.2.trans h.startupFailed
  main := hrest.2.1 ▸ h.main
  writers := by
    rw [hwriter]
    exact (forall_update_iff p.writer fun _ t => t ≠ .refused ∧ t ≠ .cancelling).mpr
      ⟨⟨by simp, by simp⟩, fun w' _ => h.writers w'⟩
  readers := hrest.1 ▸ h.readers

/-- A reader that moves fails nothing. -/
theorem Smooth.of_reader {p p' : Process opts σ} (h : Smooth p) {r : Fin opts.readers}
    {pc : ReaderPc} (hreader : p'.reader = update p.reader r (.opened pc))
    (hrest : p'.writer = p.writer ∧ p'.main = p.main ∧ p'.startupFailed = p.startupFailed) :
    Smooth p' where
  startupFailed := hrest.2.2.trans h.startupFailed
  main := hrest.2.1 ▸ h.main
  writers := hrest.1 ▸ h.writers
  readers := by
    rw [hreader]
    exact (forall_update_iff p.reader fun _ t => t ≠ .refused ∧ t ≠ .cancelling).mpr
      ⟨⟨by simp, by simp⟩, fun r' _ => h.readers r'⟩

/-- A step of the main thread in which nothing fails. -/
theorem Smooth.mainStep {p p' : Process opts σ} (h : Smooth p)
    (hstep : ConcurrentTest.mainStep true p = some p') : Smooth p' := by
  obtain ⟨hfailed, hmain, hwriters, hreaders⟩ := h
  rw [ConcurrentTest.mainStep] at hstep
  cases hpc : p.main with
  | abort => exact absurd hpc hmain
  | setup | verdict =>
    rw [hpc] at hstep
    obtain rfl := Option.some.inj hstep
    exact ⟨hfailed, by simp, hwriters, hreaders⟩
  | createReader index =>
    simp only [hpc] at hstep
    split_ifs at hstep <;> obtain rfl := Option.some.inj hstep
    · exact ⟨hfailed, by simp, hwriters,
        (forall_update_iff p.reader fun _ t => t ≠ .refused ∧ t ≠ .cancelling).mpr
          ⟨⟨by simp, by simp⟩, fun r' _ => hreaders r'⟩⟩
    · exact ⟨hfailed, by simp, hwriters, hreaders⟩
  | createWriter index =>
    simp only [hpc] at hstep
    split_ifs at hstep <;> obtain rfl := Option.some.inj hstep
    · exact ⟨hfailed, by simp,
        (forall_update_iff p.writer fun _ t => t ≠ .refused ∧ t ≠ .cancelling).mpr
          ⟨⟨by simp, by simp⟩, fun w' _ => hwriters w'⟩, hreaders⟩
    · exact ⟨hfailed, by simp, hwriters, hreaders⟩
  | joinWriter index | joinReader index =>
    simp only [hpc] at hstep
    split_ifs at hstep <;> obtain rfl := Option.some.inj hstep <;>
      exact ⟨hfailed, by simp, hwriters, hreaders⟩
  | exited exitCode =>
    rw [hpc] at hstep
    cases hstep

/-- If nothing but the calls can fail, nothing fails on the way. -/
theorem Step.smooth {p p' : Process opts σ} {e : Event} (h : Step opts platform p e p')
    (hrefuse : platform.mayRefuse = false) (hsmooth : Smooth p) : Smooth p' := by
  have hok {ok : Bool} (may : ok = false → platform.mayRefuse = true) : ok = true := by
    by_contra hnot
    rw [may (Bool.eq_false_iff.mpr hnot)] at hrefuse
    cases hrefuse
  cases h with
  | main may h => exact hsmooth.mainStep (hok may ▸ h)
  | startWriter w may h =>
    obtain ⟨-, rfl, rfl⟩ := start_smooth (hok may) h (hsmooth.writers w)
    exact hsmooth.of_writer rfl ⟨rfl, rfl, rfl⟩
  | startReader r may h =>
    obtain ⟨-, rfl, rfl⟩ := start_smooth (hok may) h (hsmooth.readers r)
    exact hsmooth.of_reader rfl ⟨rfl, rfl, rfl⟩
  | writer w | writeLock w | write w | writeUnlock w => exact hsmooth.of_writer rfl ⟨rfl, rfl, rfl⟩
  | reader r | readLock r | read r | append r | overflow r | readUnlock r =>
    exact hsmooth.of_reader rfl ⟨rfl, rfl, rfl⟩

/-- What a lossless queue has taken is what is new in it. -/
theorem taken_eq_drop {data fifo fifo' : List UInt8} {ret : Except SysError ℕ}
    (call : DeviceWrite data fifo ret fifo') : taken data ret = fifo'.drop fifo.length := by
  cases call with
  | accepted n pos le => rw [List.drop_left, taken]
  | again | interrupted => rw [List.drop_length, taken]

/-- A move of a writer, in the system of the threads alone. -/
theorem toSys_writer (p : Process opts (List UInt8)) (w : Fin opts.writers) (pc : WriterPc opts)
    (s : SharedState) (lock : Option (Fin opts.writers)) (fifo : List UInt8) :
    toSys { p with
      shared := s, writeLock := lock, device := fifo, writer := update p.writer w (.opened pc) } =
        { p.toSys with
          shared := s, writeLock := lock, fifo := fifo, writer := update p.toSys.writer w pc } := by
  simp only [toSys, Sys.mk.injEq, true_and, and_true]
  exact place_update (.test 0) .failed .cancel p.writer w (.opened pc)

/-- A move of a reader, in the system of the threads alone. -/
theorem toSys_reader (p : Process opts (List UInt8)) (r : Fin opts.readers) (pc : ReaderPc)
    (s : SharedState) (lock : Option (Fin opts.readers)) (fifo : List UInt8) :
    toSys { p with
      shared := s, readLock := lock, device := fifo, reader := update p.reader r (.opened pc) } =
        { p.toSys with
          shared := s, readLock := lock, fifo := fifo, reader := update p.toSys.reader r pc } := by
  simp only [toSys, Sys.mk.injEq, true_and]
  exact place_update (.test 0) .failed .cancel p.reader r (.opened pc)

/-- A step of the process in front of the verdict is one of its threads, or none. -/
theorem Step.toSys {realloc : ℕ → Bool} {p p' : Process opts (List UInt8)} {e : Event}
    (h : Step opts (.lossless realloc) p e p') (hstartup : Startup p) (hsmooth : Smooth p)
    (hsmooth' : Smooth p') (hverdict : p.main ≠ .verdict) :
    e = .tau ∧ p'.toSys = p.toSys ∨ ConcurrentTest.Step opts realloc p.toSys e p'.toSys := by
  have hwriterPc {w : Fin opts.writers} {pc : WriterPc opts} (h : p.writer w = .opened pc) :
      p.toSys.writer w = pc := by 
    change (p.writer w).place _ _ _ = pc
    rw [h, Thread.place]
  have hreaderPc {r : Fin opts.readers} {pc : ReaderPc} (h : p.reader r = .opened pc) :
      p.toSys.reader r = pc := by 
    change (p.reader r).place _ _ _ = pc
    rw [h, Thread.place]
  have hok {ok : Bool} (may : ok = false → (Platform.lossless realloc).mayRefuse = true) :
      ok = true := by
    by_contra hnot
    cases may (Bool.eq_false_iff.mpr hnot)
  cases h with
  | main may h =>
    obtain ⟨hwriter, hreader, ⟨hwriteLock, hreadLock, hdevice⟩, ⟨hshared, -⟩ | ⟨-, hfailed⟩⟩ :=
      mainStep_frame hstartup h hverdict
    · refine .inl ⟨rfl, ?_⟩
      rw [Process.toSys, hshared, hwriteLock, hreadLock, hdevice, hwriter, hreader]
      rfl
    · rw [hsmooth'.startupFailed] at hfailed
      cases hfailed
  | startWriter w may h =>
    obtain ⟨hstarting, rfl, rfl⟩ := start_smooth (hok may) h (hsmooth.writers w)
    refine .inl ⟨rfl, (toSys_writer p w _ _ _ _).trans ?_⟩
    have hplace : p.toSys.writer w = .test 0 := by
      change (p.writer w).place _ _ _ = _
      rw [hstarting, Thread.place]
    rw [← hplace, update_eq_self]
    rfl
  | startReader r may h =>
    obtain ⟨hstarting, rfl, rfl⟩ := start_smooth (hok may) h (hsmooth.readers r)
    refine .inl ⟨rfl, (toSys_reader p r _ _ _ _).trans ?_⟩
    have hplace : p.toSys.reader r = .test 0 := by
      change (p.reader r).place _ _ _ = _
      rw [hstarting, Thread.place]
    rw [← hplace, update_eq_self]
    rfl
  | writer w h step =>
    rw [toSys_writer]
    exact .inr (.writer w (by rw [hwriterPc h]; exact step))
  | writeLock w h free =>
    rw [toSys_writer]
    exact .inr (.writeLock w (hwriterPc h) free)
  | write w h call =>
    rw [toSys_writer, taken_eq_drop call]
    exact .inr (.write w (hwriterPc h) call)
  | writeUnlock w h =>
    rw [toSys_writer]
    exact .inr (.writeUnlock w (hwriterPc h))
  | reader r h step =>
    rw [toSys_reader]
    exact .inr (.reader r (by rw [hreaderPc h]; exact step))
  | readLock r h free =>
    rw [toSys_reader]
    exact .inr (.readLock r (hreaderPc h) free)
  | read r h call =>
    rw [toSys_reader]
    exact .inr (.read r (hreaderPc h) call)
  | append r h capacity =>
    rw [toSys_reader]
    exact .inr (.append r (hreaderPc h) capacity)
  | overflow r h capacity =>
    rw [toSys_reader]
    exact .inr (.overflow r (hreaderPc h) capacity)
  | readUnlock r h =>
    rw [toSys_reader]
    exact .inr (.readUnlock r (hreaderPc h))

/-- Until it exits, a process over a lossless queue keeps the invariant of its threads. -/
theorem Run.lossless_invariant {realloc : ℕ → Bool} (hrealloc : ∀ size, realloc size = true)
    {tr : List Event} {p : Process opts (List UInt8)} (h : Run opts (.lossless realloc) tr p) :
    Startup p ∧ Smooth p ∧ (¬ p.Exited → Inv (written tr) (appended tr) p.toSys) := by
  refine Lts.Run.invariant (I := fun tr p =>
      Startup p ∧ Smooth p ∧ (¬ p.Exited → Inv (written tr) (appended tr) p.toSys)) h
    ⟨.init _, .init _, fun _ => Inv.init opts⟩ ?_
  rintro tr p e p' - ⟨hstartup, hsmooth, hinv⟩ hstep
  have hsmooth' := hstep.smooth rfl hsmooth
  refine ⟨hstep.startup hstartup, hsmooth', fun hexited => ?_⟩
  obtain ⟨hverdict, hexited'⟩ := hstep.not_exited hstartup hexited
  rw [written_snoc, appended_snoc]
  rcases hstep.toSys hstartup hsmooth hsmooth' hverdict with ⟨rfl, heq⟩ | hthread
  · rw [heq]
    simpa [Event.written, Event.appended] using hinv hexited'
  · exact (hinv hexited').step hrealloc hthread

end Process

/-- A complete stream has the frames of all messages. -/
theorem CompleteStream.length_eq {bytes : List UInt8} (h : CompleteStream opts bytes) :
    bytes.length = opts.writers * opts.messages * opts.messageSize := by
  obtain ⟨frames, rfl, hlength, -⟩ := h
  have hsize : frames.map (fun frame => frame.bytes.length) =
      List.replicate frames.length opts.messageSize :=
    List.map_eq_replicate_iff.mpr fun frame _ => frame.isFrame.size
  rw [List.length_flatMap, hsize, List.sum_replicate, hlength, smul_eq_mul]

/-- The frames that the writers build are a complete stream in every order of the messages. -/
theorem completeStream_of_order {order : List (Message opts)}
    (honce : ∀ message, order.count message = 1) :
    CompleteStream opts (order.flatMap Message.frame) := by
  refine ⟨builtFrames order, (streamOf_builtFrames order).symm, ?_, fun message => ?_⟩
  · -- an order lists every message once, so there are as many frames as messages
    have hperm : order.Perm Finset.univ.toList :=
      List.perm_iff_count.mpr fun message => by
        rw [honce, List.count_eq_one_of_mem (Finset.nodup_toList _) (by simp)]
    rw [List.length_map, hperm.length_eq, Finset.length_toList, Finset.card_univ, card_message]
  · rw [map_message_builtFrames, honce]

/-- Over a lossless queue, whose calls may move a part only or fail with `EAGAIN` or `EINTR`, and
with no other failure, the exit code is 0 exactly when the readers have taken everything out of the
queue: the test fails only when its readers give up. -/
theorem exit_code_lossless (opts : TestOptions) (realloc : ℕ → Bool)
    (hrealloc : ∀ size, realloc size = true) {tr : List Event}
    {p : Process opts (List UInt8)} (h : Process.Run opts (Platform.lossless realloc) tr p)
    {exitCode : ℕ} (hexit : p.main = .exited exitCode) : exitCode = 0 ↔ p.device = [] := by
  rcases h.exited_cases hexit with ⟨-, -, hrefuse⟩ | ⟨-, hfailed, -⟩ |
    ⟨tr', q, hrun, hverdict, rfl, hdevice, -, rfl⟩
  · cases hrefuse
  · rw [(Process.Run.lossless_invariant hrealloc h).2.1.startupFailed] at hfailed
    cases hfailed
  · obtain ⟨hq, hstarted, hwriters, hreaders⟩ := Process.Run.at_verdict hrun hverdict
    obtain ⟨hexact, horder⟩ := hq.verdict hstarted hwriters hreaders
    have hinv := (Process.Run.lossless_invariant hrealloc hrun).2.2 fun hexited => by
      obtain ⟨code, heq⟩ := hexited
      rw [hverdict] at heq
      cases heq
    obtain ⟨order, honce, hwritten⟩ := horder hinv.parser.stop
    -- no reader holds anything back
    have hconserved : written tr' = appended tr' ++ q.device := by
      have hreaderPc (r : Fin opts.readers) : q.toSys.reader r = .done := by
        change (q.reader r).place _ _ _ = _
        rw [hreaders, Thread.place]
      have hfree : q.toSys.readLock = none := by
        rcases hlock : q.toSys.readLock with _ | r
        · rfl
        · have := (hinv.readers.ok r).1.mp hlock
          rw [hreaderPc] at this
          cases this
      have := hinv.readers.conserved
      rw [hfree, held, List.append_nil] at this
      exact this
    rw [hexact, hdevice]
    have hcomplete : CompleteStream opts (written tr') := hwritten ▸ completeStream_of_order honce
    constructor
    · rintro ⟨-, hread⟩
      have hlength := congrArg List.length hconserved
      rw [List.length_append, hcomplete.length_eq, hread.length_eq] at hlength
      exact List.length_eq_zero_iff.mp (by omega)
    · intro hempty
      rw [hempty, List.append_nil] at hconserved
      exact ⟨hinv.parser.stop, hconserved ▸ hcomplete⟩

/-- On the run in which the frame is written and read in one piece, the queue is empty in the
end. -/
theorem exit_code_lossless_passing :
    ∃ (tr : List Event) (p : Process .smallest (List UInt8)),
      Process.Run .smallest (.lossless fun _ => true) tr p ∧ p.main = .exited 0 ∧
        p.device = [] := by
  obtain ⟨tr, p, hrun, hexit⟩ := exists_passing_run
  exact ⟨tr, p, hrun, hexit,
    (exit_code_lossless .smallest (fun _ => true) (fun _ => rfl) hrun hexit).mp rfl⟩

end ConcurrentTest
