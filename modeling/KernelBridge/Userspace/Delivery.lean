import KernelBridge.Userspace.Threads

/-!
# No false alarm

The concurrency test reports no failure when the device is a lossless queue. Two locks carry the
argument. The write lock spans all the writes of a frame, so what has gone into the device is a
sequence of whole frames of different messages, followed by a part of the frame that the holder of
the lock is writing (`Writers`). The read lock spans the read and the append, so what has gone
into the device is what has been appended to the stream, followed by what the holder of the lock
is about to append and by what is in the queue (`Readers`). The stream is therefore always a prefix
of a sequence of frames of different messages, along which the parser accepts every frame
(`Parser`, by `OnTrack.step`).

`Inv.step` keeps the three together, and `test_raises_no_alarm` reads them off at the end of a
run.
-/

namespace ConcurrentTest

variable {opts : TestOptions} {realloc : ℕ → Bool}

/-! ## Sequences of frames -/

/-- A frame is its bytes. -/
theorem Frame.eq_of_bytes {a b : Frame opts} (h : a.bytes = b.bytes) : a = b := by
  obtain ⟨message, bytes, isFrame⟩ := a
  obtain ⟨message', bytes', isFrame'⟩ := b
  obtain rfl : bytes = bytes' := h
  obtain rfl := isFrame.message_unique isFrame'
  rfl

/-- Two sequences of frames, one a prefix of the other as a stream, agree frame by frame. -/
theorem streamOf_prefix {a b : List (Frame opts)} {tail : List UInt8}
    (h : streamOf a ++ tail <+: streamOf b) : ∃ rest, b = a ++ rest ∧ tail <+: streamOf rest := by
  induction a generalizing b with
  | nil => exact ⟨b, rfl, h⟩
  | cons frame a ih =>
    have hpos : 0 < opts.messageSize :=
      Nat.lt_of_lt_of_le (by decide) opts.messageSize_bounds.1
    have hsize := frame.isFrame.size
    rw [streamOf, List.flatMap_cons, List.append_assoc] at h
    rcases b with _ | ⟨frame', b⟩
    · have := h.length_le
      rw [List.length_append, hsize] at this
      simp at this
      omega
    -- the first frames have the same length
    rw [streamOf, List.flatMap_cons] at h
    have hfirst : frame.bytes = frame'.bytes :=
      (List.prefix_of_prefix_length_le ((List.prefix_append _ _).trans h) (List.prefix_append _ _)
        (by rw [hsize, frame'.isFrame.size])).eq_of_length (by rw [hsize, frame'.isFrame.size])
    obtain rfl := Frame.eq_of_bytes hfirst
    obtain ⟨rest, rfl, htail⟩ := ih ((List.prefix_append_right_inj _).mp h)
    exact ⟨rest, rfl, htail⟩

/-- A parser without a failure is on track along every sequence of frames that its bytes are a
prefix of. -/
theorem Parsed.onTrack {accepted frames : List (Frame opts)} {bytes : List UInt8}
    {s : SharedState} (h : Parsed accepted bytes s) (hfailures : s.stats.validationFailures = 0)
    (hpre : bytes <+: streamOf frames) :
    ∃ rest, frames = accepted ++ rest ∧ OnTrack accepted rest bytes s := by
  obtain ⟨rest, heq, hrest⟩ := streamOf_prefix (h.bytes_eq ▸ hpre)
  exact ⟨rest, heq, { h with failures := hfailures, stream_prefix := hrest }⟩

/-- The frames that the writers build for a sequence of messages. -/
abbrev builtFrames (messages : List (Message opts)) : List (Frame opts) := messages.map Frame.built

/-- The frames that are built, one after the other. -/
theorem streamOf_builtFrames (messages : List (Message opts)) :
    streamOf (builtFrames messages) = messages.flatMap Message.frame := by
  rw [streamOf, List.flatMap_map]
  rfl

/-- The messages of the frames that are built. -/
theorem map_message_builtFrames (messages : List (Message opts)) :
    (builtFrames messages).map Frame.message = messages := by
  rw [List.map_map]
  exact List.map_id messages

/-! ## Writers -/

namespace WriterPc

/-- The thread holds the write lock. -/
def holds : WriterPc opts → Bool
  | .retry .. | .write .. | .unlock .. => true
  | _ => false

/-- No sequence number below this one is still to be written. -/
def upcoming : WriterPc opts → ℕ
  | .test sequence => sequence
  | .attempt sequence | .lock sequence | .retry sequence _ | .write sequence _
  | .unlock sequence _ => sequence
  | .completed sequence | .account sequence => sequence + 1
  | .failed | .cancel | .close | .done => opts.messages

/-- What the thread has written of the current frame. -/
def sent (w : Fin opts.writers) : WriterPc opts → List UInt8
  | .retry sequence offset | .write sequence offset =>
    (Message.frame (w, sequence)).take offset
  | .unlock sequence _ => Message.frame (w, sequence)
  | _ => []

/-- The thread is not on its way to report a failure, and its offset is inside the frame. -/
def Sane : WriterPc opts → Prop
  | .retry _ offset => offset ≤ opts.messageSize
  | .write _ offset => offset < opts.messageSize
  | .unlock _ ret => ret = .ok ()
  | .failed | .cancel => False
  | _ => True

end WriterPc

/-- The state of the write lock and the messages written so far agree with the place of a
writer. -/
structure WriterOk (lock : Option (Fin opts.writers)) (messages : List (Message opts))
    (w : Fin opts.writers) (pc : WriterPc opts) : Prop where
  holds : lock = some w ↔ pc.holds
  upcoming : ∀ sequence, (w, sequence) ∈ messages → sequence < pc.upcoming
  sane : pc.Sane

/-- What the holder of the write lock has written of its frame. -/
def inFlight (lock : Option (Fin opts.writers)) (writer : Fin opts.writers → WriterPc opts) :
    List UInt8 :=
  match lock with
  | none => []
  | some w => (writer w).sent w

/-- The writers have written the frames of `messages`, followed by a part of the current frame. -/
structure Writers (bytes : List UInt8) (lock : Option (Fin opts.writers))
    (writer : Fin opts.writers → WriterPc opts) (messages : List (Message opts)) : Prop where
  nodup : messages.Nodup
  ok : ∀ w, WriterOk lock messages w (writer w)
  bytes_eq : bytes = messages.flatMap Message.frame ++ inFlight lock writer

/-- The length of a built frame. -/
theorem Message.length_frame (message : Message opts) :
    message.frame.length = opts.messageSize := (isFrame_buildFrame message).size

/-- The variables that the parser and the stop flag occupy are the same in two states. -/
structure SameParser (s s' : SharedState) : Prop where
  seen : s'.seen = s.seen
  stream : s'.stream = s.stream
  stop : s'.stop = s.stop
  framesValidated : s'.stats.framesValidated = s.stats.framesValidated
  validationFailures : s'.stats.validationFailures = s.stats.validationFailures

/-- Nothing has changed. -/
theorem SameParser.refl (s : SharedState) : SameParser s s := ⟨rfl, rfl, rfl, rfl, rfl⟩

/-- A step of a writer on the shared state: it keeps the lock and what is written of the frame, and
it leaves the parser alone. -/
theorem writerStep_frame {s s' : SharedState} {pc pc' : WriterPc opts} (w : Fin opts.writers)
    (h : writerStep opts s pc = some (pc', s')) (hstop : s.stop = false) (hsane : pc.Sane) :
    SameParser s s' ∧ pc'.holds = pc.holds ∧ pc'.sent w = pc.sent w ∧ pc'.Sane ∧
      ∀ sequence : Fin opts.messages, sequence < pc.upcoming → sequence < pc'.upcoming := by
  cases pc with
  | test sequence =>
    rw [writerStep] at h
    split at h
    · obtain ⟨rfl, rfl⟩ := Prod.mk.inj (Option.some.inj h)
      exact ⟨.refl s, rfl, rfl, trivial, fun _ hlt => hlt⟩
    · obtain ⟨rfl, rfl⟩ := Prod.mk.inj (Option.some.inj h)
      exact ⟨.refl s, rfl, rfl, trivial, fun sequence _ => sequence.isLt⟩
  | retry sequence offset =>
    change offset ≤ opts.messageSize at hsane
    rw [writerStep, hstop] at h
    split_ifs at h with hmore hfull
    · obtain ⟨rfl, rfl⟩ := Prod.mk.inj (Option.some.inj h)
      exact ⟨.refl s, rfl, rfl, hmore.1, fun _ hlt => hlt⟩
    · -- the whole frame is written
      obtain ⟨rfl, rfl⟩ := Prod.mk.inj (Option.some.inj h)
      refine ⟨.refl s, rfl, ?_, rfl, fun _ hlt => hlt⟩
      change Message.frame (w, sequence) = (Message.frame (w, sequence)).take offset
      rw [hfull, ← Message.length_frame (w, sequence), List.take_length]
    · simp at hmore
      omega
  | attempt | completed | account | close =>
    obtain ⟨rfl, rfl⟩ := Prod.mk.inj (Option.some.inj h)
    exact ⟨⟨rfl, rfl, rfl, rfl, rfl⟩, rfl, rfl, trivial, fun _ hlt => hlt⟩
  | failed | cancel => exact hsane.elim
  | lock | write | unlock | done => cases h

open Function in
/-- What is in flight, when a writer moves that has sent as much as before. -/
theorem inFlight_update {lock : Option (Fin opts.writers)}
    {writer : Fin opts.writers → WriterPc opts} {w : Fin opts.writers} {pc : WriterPc opts}
    (h : pc.sent w = (writer w).sent w) :
    inFlight lock (update writer w pc) = inFlight lock writer := by
  rcases lock with _ | w'
  · rfl
  · by_cases heq : w' = w
    · subst heq
      exact (congrArg (WriterPc.sent w') (update_self w' pc writer)).trans h
    · exact congrArg (WriterPc.sent w') (update_of_ne heq pc writer)

namespace Writers

open Function

variable {bytes : List UInt8} {lock : Option (Fin opts.writers)}
  {writer : Fin opts.writers → WriterPc opts} {messages : List (Message opts)}
  {w : Fin opts.writers} {sequence : Fin opts.messages}

/-- A step of a writer that keeps the lock and what is written of the frame. -/
theorem local_step (h : Writers bytes lock writer messages) {pc : WriterPc opts}
    (hholds : pc.holds = (writer w).holds) (hsent : pc.sent w = (writer w).sent w)
    (hsane : pc.Sane)
    (hupcoming : ∀ sequence : Fin opts.messages,
      sequence < (writer w).upcoming → sequence < pc.upcoming) :
    Writers bytes lock (update writer w pc) messages where
  nodup := h.nodup
  ok := by
    refine (forall_update_iff writer fun w pc => WriterOk lock messages w pc).mpr
      ⟨⟨?_, ?_, hsane⟩, fun w' _ => h.ok w'⟩
    · rw [hholds]
      exact (h.ok w).holds
    · exact fun sequence hmem => hupcoming sequence ((h.ok w).upcoming sequence hmem)
  bytes_eq := by rw [inFlight_update hsent, h.bytes_eq]

/-- A writer takes the lock, and has written nothing of its frame yet. -/
theorem acquire (h : Writers bytes none writer messages) (hpc : writer w = .lock sequence) :
    Writers bytes (some w) (update writer w (.retry sequence 0)) messages where
  nodup := h.nodup
  ok := by
    refine (forall_update_iff writer fun w' pc => WriterOk (some w) messages w' pc).mpr
      ⟨⟨⟨fun _ => rfl, fun _ => rfl⟩, ?_, Nat.zero_le _⟩, fun w' hne => ⟨?_, ?_, (h.ok w').sane⟩⟩
    · have := (h.ok w).upcoming
      rw [hpc] at this
      exact this
    · rw [← (h.ok w').holds]
      exact ⟨fun heq => absurd (Option.some.inj heq).symm hne, fun heq => (by cases heq)⟩
    · exact (h.ok w').upcoming
  bytes_eq := by
    change bytes = _ ++ WriterPc.sent w (update writer w _ w)
    rw [update_self, h.bytes_eq]
    rfl

/-- The holder of the lock calls `write`. -/
theorem write (h : Writers bytes lock writer messages) {offset : ℕ}
    (hpc : writer w = .write sequence offset) {fifo fifo' : List UInt8} {ret : Except SysError ℕ}
    (call : DeviceWrite ((Message.frame (w, sequence)).drop offset) fifo ret fifo') :
    Writers (bytes ++ fifo'.drop fifo.length) lock
      (update writer w (afterWrite sequence offset ret)) messages := by
  have hoffset : offset < opts.messageSize := by
    have := (h.ok w).sane
    rwa [hpc] at this
  have hlock : lock = some w := (h.ok w).holds.mpr (by rw [hpc]; rfl)
  -- the thread stays inside the loop of `write_frame_retry`
  have hlocal (pc : WriterPc opts) (hholds : pc.holds) (hsane : pc.Sane)
      (hupcoming : pc.upcoming = sequence) :
      ∀ w', WriterOk lock messages w' (update writer w pc w') := by
    refine (forall_update_iff writer fun w pc => WriterOk lock messages w pc).mpr
      ⟨⟨⟨fun _ => hholds, fun _ => hlock⟩, ?_, hsane⟩, fun w' _ => h.ok w'⟩
    intro sequence' hmem
    have := (h.ok w).upcoming sequence' hmem
    rw [hpc] at this
    rw [hupcoming]
    exact this
  have hbytes := h.bytes_eq
  rw [hlock, inFlight, hpc] at hbytes
  cases call with
  | accepted n pos le =>
    rw [List.length_drop, Message.length_frame] at le
    -- `write` has taken the next bytes of the frame
    obtain ⟨k, rfl⟩ : ∃ k, n = k + 1 := ⟨n - 1, by omega⟩
    refine ⟨h.nodup, hlocal (.retry sequence (offset + (k + 1))) rfl ?_ rfl, ?_⟩
    · change offset + (k + 1) ≤ opts.messageSize
      omega
    · subst hlock
      change _ = _ ++ WriterPc.sent w (update writer w _ w)
      rw [update_self, hbytes, List.drop_left, List.append_assoc]
      exact congrArg _ List.take_add.symm
  | again =>
    rw [List.drop_length, List.append_nil]
    exact h.local_step (by rw [hpc]; rfl) (by rw [hpc]; rfl) hoffset.le
      (fun _ hlt => by rw [hpc] at hlt; exact hlt)
  | interrupted =>
    rw [List.drop_length, List.append_nil]
    exact h.local_step (by rw [hpc]; rfl) (by rw [hpc]; rfl) hoffset
      (fun _ hlt => by rw [hpc] at hlt; exact hlt)

/-- The holder of the lock has written its frame and releases the lock. -/
theorem release (h : Writers bytes lock writer messages) {ret : Except WriteError Unit}
    (hpc : writer w = .unlock sequence ret) :
    Writers bytes none (update writer w (afterWriteFrame sequence ret))
      (messages ++ [(w, sequence)]) := by
  have hret : ret = .ok () := by
    have := (h.ok w).sane
    rwa [hpc] at this
  have hlock : lock = some w := (h.ok w).holds.mpr (by rw [hpc]; rfl)
  have hupcoming : ∀ sequence', (w, sequence') ∈ messages → sequence' < sequence := by
    have := (h.ok w).upcoming
    rw [hpc] at this
    exact this
  subst hret hlock
  refine ⟨?_, ?_, ?_⟩
  · -- the message is a new one: its sequence number was still to come
    rw [List.nodup_append_comm]
    exact List.nodup_cons.mpr ⟨fun hmem => lt_irrefl _ (hupcoming _ hmem), h.nodup⟩
  · refine (forall_update_iff writer fun w' pc => WriterOk none _ w' pc).mpr
      ⟨⟨⟨fun heq => (by cases heq), fun heq => (by cases heq)⟩, ?_, trivial⟩,
        fun w' hne => ⟨?_, ?_, (h.ok w').sane⟩⟩
    · intro sequence' hmem
      change (sequence' : ℕ) < sequence + 1
      rcases List.mem_append.mp hmem with hmem | hmem
      · exact Nat.lt_succ_of_lt (hupcoming _ hmem)
      · obtain rfl : sequence' = sequence := by simpa using hmem
        exact Nat.lt_succ_self _
    · rw [← (h.ok w').holds]
      exact ⟨fun heq => (by cases heq), fun heq => absurd (Option.some.inj heq).symm hne⟩
    · intro sequence' hmem
      refine (h.ok w').upcoming sequence' ((List.mem_append.mp hmem).resolve_right fun hlast => ?_)
      exact hne (by simpa using congrArg Prod.fst (List.mem_singleton.mp hlast))
  · have hbytes := h.bytes_eq
    rw [inFlight, hpc] at hbytes
    rw [hbytes, List.flatMap_append, List.flatMap_singleton]
    exact (List.append_nil _).symm

/-- What the writers have written is a prefix of the frames of different messages. -/
theorem prefix_of_frames (h : Writers bytes lock writer messages) :
    ∃ all : List (Message opts), all.Nodup ∧ bytes <+: all.flatMap Message.frame := by
  -- the frame of the holder of the lock comes after those that are written
  have hnext {w : Fin opts.writers} {sequence : Fin opts.messages}
      (hupcoming : (writer w).upcoming = sequence) (part : List UInt8)
      (hpart : part <+: Message.frame (w, sequence))
      (hbytes : bytes = messages.flatMap Message.frame ++ part) :
      ∃ all : List (Message opts), all.Nodup ∧ bytes <+: all.flatMap Message.frame := by
    refine ⟨messages ++ [(w, sequence)], ?_, ?_⟩
    · rw [List.nodup_append_comm]
      refine List.nodup_cons.mpr ⟨fun hmem => ?_, h.nodup⟩
      have := (h.ok w).upcoming sequence hmem
      omega
    · rw [hbytes, List.flatMap_append, List.flatMap_singleton]
      exact (List.prefix_append_right_inj _).mpr hpart
  have hbytes := h.bytes_eq
  rcases lock with _ | w
  · exact ⟨messages, h.nodup, by rw [hbytes]; exact (List.append_nil _).symm ▸ List.prefix_rfl⟩
  · have hholds := (h.ok w).holds.mp rfl
    rw [inFlight] at hbytes
    cases hpc : writer w with
    | retry | write | unlock =>
      rw [hpc] at hbytes
      refine hnext (by rw [hpc]; rfl) _ ?_ hbytes
      first | exact List.take_prefix _ _ | exact List.prefix_rfl
    | _ =>
      rw [hpc] at hholds
      cases hholds

end Writers

/-! ## Readers -/

namespace ReaderPc

/-- The thread holds the read lock. -/
def holds : ReaderPc → Bool
  | .read .. | .append .. | .overflow .. | .validate .. | .unlock .. => true
  | _ => false

/-- The bytes that the thread has read and not appended yet. -/
def buffer : ReaderPc → List UInt8
  | .append _ buffer => buffer
  | _ => []

/-- The thread is in the loop of the parser. -/
def parsing : ReaderPc → Bool
  | .validate .. => true
  | _ => false

/-- The thread is not on its way to report a failure, and its buffer is a read long at most. -/
def Sane : ReaderPc → Prop
  | .append _ buffer => buffer.length ≤ readChunkSize
  | .unlock _ ret => ∀ e, ret = .error e → e = .EAGAIN
  | .overflow .. | .failed | .cancel => False
  | _ => True

/-- Only who holds the lock parses. -/
theorem holds_of_parsing {pc : ReaderPc} (h : pc.parsing) : pc.holds := by
  cases pc with
  | validate => rfl
  | _ => cases h

end ReaderPc

/-- The bytes that the holder of the read lock is about to append. -/
def held (lock : Option (Fin opts.readers)) (reader : Fin opts.readers → ReaderPc) : List UInt8 :=
  match lock with
  | none => []
  | some r => (reader r).buffer

/-- The read lock agrees with the places of the readers, and what has gone into the device is what
has been appended to the stream, what is held and what is in the queue. -/
structure Readers (bytesIn bytesOut : List UInt8) (lock : Option (Fin opts.readers))
    (reader : Fin opts.readers → ReaderPc) (fifo : List UInt8) : Prop where
  ok : ∀ r, (lock = some r ↔ (reader r).holds) ∧ (reader r).Sane
  conserved : bytesIn = bytesOut ++ held lock reader ++ fifo

/-- A step of a reader on the shared state, outside the parser: it keeps the lock and leaves the
parser alone. -/
theorem readerStep_frame {s s' : SharedState} {pc pc' : ReaderPc}
    (h : readerStep opts s pc = some (pc', s')) (hsane : pc.Sane) (hparse : ¬ pc.parsing) :
    SameParser s s' ∧ pc'.holds = pc.holds ∧ pc'.buffer = pc.buffer ∧ pc'.parsing = pc.parsing ∧
      pc'.Sane := by
  cases pc with
  | validate => exact absurd rfl hparse
  | overflow | failed | cancel => exact hsane.elim
  | lock | read | append | unlock | done => cases h
  | completed | account =>
    obtain ⟨rfl, rfl⟩ := Prod.mk.inj (Option.some.inj h)
    exact ⟨⟨rfl, rfl, rfl, rfl, rfl⟩, rfl, rfl, rfl, trivial⟩
  | test | check | idle =>
    obtain ⟨rfl, rfl⟩ := Prod.mk.inj (Option.some.inj h)
    refine ⟨.refl s, ?_⟩
    split <;> exact ⟨rfl, rfl, rfl, trivial⟩
  | lastCheck =>
    rw [readerStep] at h
    split_ifs at h <;> obtain ⟨rfl, rfl⟩ := Prod.mk.inj (Option.some.inj h) <;>
      exact ⟨.refl s, rfl, rfl, rfl, trivial⟩

/-- A read ends outside the loop of the parser. -/
theorem parsing_afterRead (idle : ℕ) (ret : Except SysError (List UInt8)) :
    (afterRead idle ret).parsing = false := by
  rcases ret with (_ | _ | _) | (_ | _) <;> rfl

/-- A reader leaves its critical section without a lock or a buffer. -/
theorem afterReadLock_frame {idle : ℕ} {ret : Except SysError ℕ}
    (hsane : ∀ e, ret = .error e → e = .EAGAIN) :
    (afterReadLock idle ret).holds = false ∧ (afterReadLock idle ret).buffer = [] ∧
      (afterReadLock idle ret).parsing = false ∧ (afterReadLock idle ret).Sane := by
  rcases ret with e | (_ | count)
  · obtain rfl := hsane e rfl
    exact ⟨rfl, rfl, rfl, trivial⟩
  · exact ⟨rfl, rfl, rfl, trivial⟩
  · exact ⟨rfl, rfl, rfl, trivial⟩

namespace Readers

open Function

variable {bytesIn bytesOut : List UInt8} {lock : Option (Fin opts.readers)}
  {reader : Fin opts.readers → ReaderPc} {fifo : List UInt8} {r : Fin opts.readers}

/-- What is held back, when the holder of the lock moves. -/
theorem held_of_lock (hlock : lock = some r) (pc : ReaderPc) :
    held lock (update reader r pc) = pc.buffer := by
  subst hlock
  exact congrArg ReaderPc.buffer (update_self r pc reader)

/-- A step of a reader that keeps the lock and its buffer. -/
theorem local_step (h : Readers bytesIn bytesOut lock reader fifo) {pc : ReaderPc}
    (hholds : pc.holds = (reader r).holds) (hbuffer : pc.buffer = (reader r).buffer)
    (hsane : pc.Sane) : Readers bytesIn bytesOut lock (update reader r pc) fifo where
  ok := by
    refine (forall_update_iff reader fun r pc => (lock = some r ↔ pc.holds) ∧ pc.Sane).mpr
      ⟨⟨?_, hsane⟩, fun r' _ => h.ok r'⟩
    rw [hholds]
    exact (h.ok r).1
  conserved := by
    have hheld : held lock (update reader r pc) = held lock reader := by
      rcases lock with _ | r'
      · rfl
      · by_cases heq : r' = r
        · subst heq
          exact (congrArg ReaderPc.buffer (update_self r' pc reader)).trans hbuffer
        · exact congrArg ReaderPc.buffer (update_of_ne heq pc reader)
    rw [hheld, h.conserved]

/-- The lock changes hands: the reader at `r` takes or releases it, without a buffer. -/
theorem relock (h : Readers bytesIn bytesOut lock reader fifo) {lock' : Option (Fin opts.readers)}
    {pc : ReaderPc} (hlock : lock = some r ∧ lock' = none ∨ lock = none ∧ lock' = some r)
    (hholds : lock' = some r ↔ pc.holds) (hbuffer : (reader r).buffer = [])
    (hbuffer' : pc.buffer = []) (hsane : pc.Sane) :
    Readers bytesIn bytesOut lock' (update reader r pc) fifo where
  ok := by
    refine (forall_update_iff reader fun r pc => (lock' = some r ↔ pc.holds) ∧ pc.Sane).mpr
      ⟨⟨hholds, hsane⟩, fun r' hne => ⟨?_, (h.ok r').2⟩⟩
    rw [← (h.ok r').1]
    -- neither before nor after the step does another reader have the lock
    rcases hlock with ⟨rfl, rfl⟩ | ⟨rfl, rfl⟩ <;> simp [hne.symm]
  conserved := by
    have hconserved := h.conserved
    rcases hlock with ⟨rfl, rfl⟩ | ⟨rfl, rfl⟩
    · rw [held, hbuffer] at hconserved
      exact hconserved
    · rw [held_of_lock rfl, hbuffer', hconserved]
      rfl

/-- The holder of the lock calls `read`. -/
theorem read (h : Readers bytesIn bytesOut lock reader fifo) {idle : ℕ}
    (hpc : reader r = .read idle) {ret : Except SysError (List UInt8)} {fifo' : List UInt8}
    (call : DeviceRead readChunkSize fifo ret fifo') :
    Readers bytesIn bytesOut lock (update reader r (afterRead idle ret)) fifo' := by
  have hlock : lock = some r := (h.ok r).1.mpr (by rw [hpc]; rfl)
  cases call with
  | delivered n pos le avail =>
    -- a read that returns is not empty, so the thread goes on to append
    obtain ⟨byte, rest, htake⟩ : ∃ byte rest, fifo.take n = byte :: rest := by
      refine List.exists_cons_of_length_pos ?_
      rw [List.length_take]
      omega
    rw [htake]
    refine ⟨?_, ?_⟩
    · refine (forall_update_iff reader fun r pc => (lock = some r ↔ pc.holds) ∧ pc.Sane).mpr
        ⟨⟨⟨fun _ => rfl, fun _ => hlock⟩, ?_⟩, fun r' _ => h.ok r'⟩
      change (byte :: rest).length ≤ readChunkSize
      rw [← htake, List.length_take]
      omega
    · have hconserved := h.conserved
      rw [hlock, held, hpc] at hconserved
      rw [held_of_lock hlock, hconserved]
      change bytesOut ++ [] ++ fifo = bytesOut ++ (byte :: rest) ++ fifo.drop n
      rw [← htake, List.append_nil, List.append_assoc, List.take_append_drop]
  | again =>
    exact h.local_step (by rw [hpc]; rfl) (by rw [hpc]; rfl) fun e he => (Except.error.inj he).symm
  | interrupted => exact h.local_step (by rw [hpc]; rfl) (by rw [hpc]; rfl) trivial

/-- The holder of the lock appends its buffer to the stream. -/
theorem append (h : Readers bytesIn bytesOut lock reader fifo) {idle count : ℕ}
    {buffer : List UInt8} (hpc : reader r = .append idle buffer) :
    Readers bytesIn (bytesOut ++ buffer) lock (update reader r (.validate idle count)) fifo := by
  have hlock : lock = some r := (h.ok r).1.mpr (by rw [hpc]; rfl)
  have hconserved := h.conserved
  rw [hlock, held, hpc] at hconserved
  refine ⟨?_, ?_⟩
  · exact (forall_update_iff reader fun r pc => (lock = some r ↔ pc.holds) ∧ pc.Sane).mpr
      ⟨⟨⟨fun _ => rfl, fun _ => hlock⟩, trivial⟩, fun r' _ => h.ok r'⟩
  · rw [held_of_lock hlock, hconserved]
    change _ = bytesOut ++ buffer ++ [] ++ fifo
    rw [List.append_nil]
    rfl

/-- A writer calls `write`. -/
theorem write (h : Readers bytesIn bytesOut lock reader fifo) {data fifo' : List UInt8}
    {ret : Except SysError ℕ} (call : DeviceWrite data fifo ret fifo') :
    Readers (bytesIn ++ fifo'.drop fifo.length) bytesOut lock reader fifo' where
  ok := h.ok
  conserved := by
    -- whatever the call returns, it adds to the end of the queue
    have hfifo : fifo' = fifo ++ fifo'.drop fifo.length := by
      cases call with
      | accepted => rw [List.drop_left]
      | again | interrupted => rw [List.drop_length, List.append_nil]
    rw [h.conserved, List.append_assoc, ← hfifo]

end Readers

/-! ## The parser -/

/-- No failure has been counted, the stop flag is clear, the parser has accepted a sequence of
frames, and it waits for the rest of a frame unless a reader is in its loop. -/
structure Parser (bytes : List UInt8) (s : SharedState)
    (reader : Fin opts.readers → ReaderPc) : Prop where
  parsed : ∃ accepted : List (Frame opts), Parsed accepted bytes s
  failures : s.stats.validationFailures = 0
  stop : s.stop = false
  waiting : (∀ r, ¬ (reader r).parsing) → s.stream.length < opts.messageSize

/-- What leaves the parser alone leaves what is parsed. -/
theorem Parsed.same {accepted : List (Frame opts)} {bytes : List UInt8} {s s' : SharedState}
    (h : Parsed accepted bytes s) (hsame : SameParser s s') : Parsed accepted bytes s' where
  bytes_eq := by rw [hsame.stream, h.bytes_eq]
  nodup := h.nodup
  fresh message := by
    rw [SharedState.Fresh, hsame.seen]
    exact h.fresh message
  validated := hsame.framesValidated.trans h.validated

namespace Parser

open Function

variable {bytes : List UInt8} {s s' : SharedState} {reader : Fin opts.readers → ReaderPc}
  {r : Fin opts.readers}

/-- A step that leaves the parser alone. -/
theorem same (h : Parser bytes s reader) (hsame : SameParser s s') : Parser bytes s' reader where
  parsed := h.parsed.imp fun _ hparsed => hparsed.same hsame
  failures := hsame.validationFailures.trans h.failures
  stop := hsame.stop.trans h.stop
  waiting hidle := by
    rw [hsame.stream]
    exact h.waiting hidle

/-- A reader moves on, but not into or out of the loop of the parser. -/
theorem move (h : Parser bytes s reader) {pc : ReaderPc}
    (hparsing : pc.parsing = (reader r).parsing) : Parser bytes s (update reader r pc) where
  parsed := h.parsed
  failures := h.failures
  stop := h.stop
  waiting hidle := by
    refine h.waiting fun r' => ?_
    by_cases heq : r' = r
    · subst heq
      rw [← hparsing]
      have := hidle r'
      rwa [update_self] at this
    · have := hidle r'
      rwa [update_of_ne heq] at this

/-- A reader appends its buffer and enters the loop of the parser. -/
theorem append (h : Parser bytes s reader) (data : List UInt8) (cap idle count : ℕ) :
    Parser (bytes ++ data) { s with stream := s.stream ++ data, streamCap := cap }
      (update reader r (.validate idle count)) where
  parsed := h.parsed.imp fun _ hparsed =>
    { hparsed with bytes_eq := by rw [hparsed.bytes_eq, List.append_assoc] }
  failures := h.failures
  stop := h.stop
  waiting hidle := by
    refine absurd ?_ (hidle r)
    rw [update_self]
    rfl

/-- An iteration of the parser on a prefix of the frames of different messages. -/
theorem validate (h : Parser bytes s reader) {all : List (Message opts)} (hnodup : all.Nodup)
    (hpre : bytes <+: all.flatMap Message.frame) {idle count : ℕ} :
    (∃ s', validateStep opts s = .inl s' ∧
        Parser bytes s' (update reader r (.validate idle count))) ∨
      ∃ s', validateStep opts s = .inr s' ∧
        Parser bytes s' (update reader r (.unlock idle (.ok count))) := by
  obtain ⟨accepted, hparsed⟩ := h.parsed
  obtain ⟨todo, heq, htrack⟩ := hparsed.onTrack h.failures
    (streamOf_builtFrames all ▸ hpre)
  have hmessages : ((accepted ++ todo).map Frame.message).Nodup := by
    rw [← heq, map_message_builtFrames]
    exact hnodup
  -- the bytes are a prefix of what the writers build, so the next frame is accepted or not there
  have hspec := validateStep_spec opts s
  rcases htrack.step hmessages hspec with ⟨hwait, hshort⟩ | ⟨frame, rest, s', -, hnext, htrack'⟩
  · exact .inr ⟨s, hwait, ⟨accepted, hparsed⟩, h.failures, h.stop, fun _ => hshort⟩
  · refine .inl ⟨s', hnext, ⟨_, htrack'.toParsed⟩, htrack'.failures, ?_, fun hidle => ?_⟩
    · exact (hnext ▸ hspec).stop_eq.trans h.stop
    · refine absurd ?_ (hidle r)
      rw [update_self]
      rfl

end Parser

/-! ## Runs -/

/-- What every step of the test keeps, for the bytes that have gone into the device and those that
have been appended to the stream. -/
structure Inv (bytesIn bytesOut : List UInt8) (sys : Sys opts) : Prop where
  writers : ∃ messages, Writers bytesIn sys.writeLock sys.writer messages
  readers : Readers bytesIn bytesOut sys.readLock sys.reader sys.fifo
  parser : Parser bytesOut sys.shared sys.reader

/-- At the start nothing is in flight. -/
theorem Inv.init (opts : TestOptions) : Inv [] [] (Sys.init opts) where
  writers := by
    refine ⟨[], List.nodup_nil, fun w => ⟨⟨fun h => ?_, fun h => ?_⟩, fun _ h => ?_, trivial⟩, rfl⟩
    · cases h
    · cases h
    · cases h
  readers := by
    refine ⟨fun r => ⟨⟨fun h => ?_, fun h => ?_⟩, trivial⟩, rfl⟩
    · cases h
    · cases h
  parser := by
    refine ⟨⟨[], Parsed.init opts⟩, rfl, rfl, fun _ => ?_⟩
    exact Nat.lt_of_lt_of_le (show 0 < frameHeaderSize by decide) opts.messageSize_bounds.1

/-- What has been appended to the stream is a prefix of the frames of different messages. -/
theorem Inv.prefix_of_frames {bytesIn bytesOut : List UInt8} {sys : Sys opts}
    (h : Inv bytesIn bytesOut sys) :
    ∃ all : List (Message opts), all.Nodup ∧ bytesOut <+: all.flatMap Message.frame := by
  obtain ⟨messages, hwriters⟩ := h.writers
  obtain ⟨all, hnodup, hpre⟩ := hwriters.prefix_of_frames
  refine ⟨all, hnodup, List.IsPrefix.trans ?_ hpre⟩
  rw [h.readers.conserved, List.append_assoc]
  exact List.prefix_append _ _

/-- There is room for a read behind the part of a frame that the parser waits on. -/
theorem Inv.capacity (hrealloc : ∀ size, realloc size = true) {bytesIn bytesOut : List UInt8}
    {sys : Sys opts} (h : Inv bytesIn bytesOut sys) {r : Fin opts.readers} {idle : ℕ}
    {buffer : List UInt8} (hpc : sys.reader r = .append idle buffer) :
    ∃ cap, ensureStreamCapacity realloc sys.shared buffer.length =
      some (some { sys.shared with streamCap := cap }) := by
  have hbuffer : buffer.length ≤ readChunkSize := by
    have := (h.readers.ok r).2
    rwa [hpc] at this
  have hlock : sys.readLock = some r := (h.readers.ok r).1.mpr (by rw [hpc]; rfl)
  have hwaiting : sys.shared.stream.length < opts.messageSize := by
    refine h.parser.waiting fun r' hparsing => ?_
    -- only the holder of the lock can be in the parser
    have hlock' := (h.readers.ok r').1.mpr (ReaderPc.holds_of_parsing hparsing)
    obtain rfl : r = r' := Option.some.inj (hlock.symm.trans hlock')
    rw [hpc] at hparsing
    cases hparsing
  rcases ensureStreamCapacity_spec realloc sys.shared buffer.length with ⟨hfails, -⟩ | ⟨cap, -, hcap⟩
  · have hbounds := opts.messageSize_bounds.2
    rcases hfails with ⟨size, hfalse⟩ | hlarge
    · exact absurd ((hrealloc size).symm.trans hfalse) (by simp)
    · simp only [readChunkSize, maxMessageSize, sizeMax] at *
      omega
  · exact ⟨cap, hcap⟩

/-- Every step keeps the invariant. -/
theorem Inv.step (hrealloc : ∀ size, realloc size = true) {bytesIn bytesOut : List UInt8}
    {sys sys' : Sys opts} {e : Event} (h : Inv bytesIn bytesOut sys)
    (hstep : Step opts realloc sys e sys') :
    Inv (bytesIn ++ e.written) (bytesOut ++ e.appended) sys' := by
  have hinv := h
  obtain ⟨⟨messages, hwriters⟩, hreaders, hparser⟩ := h
  cases hstep with
  | writer w h =>
    obtain ⟨hsame, hholds, hsent, hsane, hupcoming⟩ :=
      writerStep_frame w h hparser.stop (hwriters.ok w).sane
    simp only [Event.written, Event.appended, List.append_nil]
    exact ⟨⟨messages, hwriters.local_step hholds hsent hsane hupcoming⟩, hreaders,
      hparser.same hsame⟩
  | writeLock w h free =>
    simp only [Event.written, Event.appended, List.append_nil]
    exact ⟨⟨messages, (free ▸ hwriters).acquire h⟩, hreaders, hparser⟩
  | write w h call =>
    simp only [Event.written, Event.appended, List.append_nil]
    exact ⟨⟨messages, hwriters.write h call⟩, hreaders.write call, hparser⟩
  | writeUnlock w h =>
    simp only [Event.written, Event.appended, List.append_nil]
    exact ⟨⟨_, hwriters.release h⟩, hreaders, hparser⟩
  | reader r h =>
    simp only [Event.written, Event.appended, List.append_nil]
    by_cases hparse : (sys.reader r).parsing
    · -- an iteration of the parser, or its return
      obtain ⟨all, hnodup, hpre⟩ := hinv.prefix_of_frames
      cases hpc : sys.reader r with
      | validate idle count =>
        rw [hpc, readerStep] at h
        have hholds {pc : ReaderPc} (hpc' : pc.holds = true) : pc.holds = (sys.reader r).holds := by
          rw [hpc', hpc]
          rfl
        have hbuffer {pc : ReaderPc} (hpc' : pc.buffer = []) :
            pc.buffer = (sys.reader r).buffer := by
          rw [hpc', hpc]
          rfl
        rcases hparser.validate (r := r) hnodup hpre with ⟨s', hnext, hparser'⟩ |
          ⟨s', hexit, hparser'⟩
        · rw [hnext] at h
          obtain ⟨rfl, rfl⟩ := Prod.mk.inj (Option.some.inj h)
          exact ⟨⟨messages, hwriters⟩, hreaders.local_step (hholds rfl) (hbuffer rfl) trivial,
            hparser'⟩
        · rw [hexit] at h
          obtain ⟨rfl, rfl⟩ := Prod.mk.inj (Option.some.inj h)
          exact ⟨⟨messages, hwriters⟩,
            hreaders.local_step (hholds rfl) (hbuffer rfl) fun e he => (by cases he), hparser'⟩
      | _ =>
        rw [hpc] at hparse
        cases hparse
    · obtain ⟨hsame, hholds, hbuffer, hparsing, hsane⟩ :=
        readerStep_frame h (hreaders.ok r).2 hparse
      exact ⟨⟨messages, hwriters⟩, hreaders.local_step hholds hbuffer hsane,
        (hparser.same hsame).move hparsing⟩
  | readLock r h free =>
    simp only [Event.written, Event.appended, List.append_nil]
    refine ⟨⟨messages, hwriters⟩, hreaders.relock (.inr ⟨free, rfl⟩) ⟨fun _ => rfl, fun _ => rfl⟩
      (by rw [h]; rfl) rfl trivial, hparser.move (by rw [h]; rfl)⟩
  | read r h call =>
    simp only [Event.written, Event.appended, List.append_nil]
    refine ⟨⟨messages, hwriters⟩, hreaders.read h call, hparser.move ?_⟩
    rw [h, parsing_afterRead]
    rfl
  | append r h capacity =>
    simp only [Event.written, Event.appended, List.append_nil]
    obtain ⟨cap, hcap⟩ := hinv.capacity hrealloc h
    obtain rfl := Option.some.inj (Option.some.inj (hcap.symm.trans capacity))
    exact ⟨⟨messages, hwriters⟩, hreaders.append h, hparser.append _ _ _ _⟩
  | overflow r h capacity =>
    -- there is room, so this branch is not taken
    obtain ⟨cap, hcap⟩ := hinv.capacity hrealloc h
    exact absurd (hcap.symm.trans capacity) (by simp)
  | readUnlock r h =>
    simp only [Event.written, Event.appended, List.append_nil]
    have hlock : sys.readLock = some r := (hreaders.ok r).1.mpr (by rw [h]; rfl)
    have hret := (hreaders.ok r).2
    rw [h] at hret
    obtain ⟨hholds, hbuffer, hparsing, hsane⟩ := afterReadLock_frame hret
    refine ⟨⟨messages, hwriters⟩, hreaders.relock (.inl ⟨hlock, rfl⟩) ?_ ?_ hbuffer hsane,
      hparser.move ?_⟩
    · rw [hholds]
      exact ⟨fun heq => (by cases heq), fun heq => (by cases heq)⟩
    · rw [h]
      rfl
    · rw [hparsing, h]
      rfl

/-- The bytes written, with one more step. -/
theorem written_snoc (tr : List Event) (e : Event) : written (tr ++ [e]) = written tr ++ e.written := by
  simp [written]

/-- The bytes appended, with one more step. -/
theorem appended_snoc (tr : List Event) (e : Event) :
    appended (tr ++ [e]) = appended tr ++ e.appended := by
  simp [appended]

/-- The invariant holds along every run. -/
theorem Run.inv (hrealloc : ∀ size, realloc size = true) {tr : List Event} {sys : Sys opts}
    (h : Run opts realloc tr sys) : Inv (written tr) (appended tr) sys := by
  refine h.invariant (I := fun tr sys => Inv (written tr) (appended tr) sys) (Inv.init opts) ?_
  intro tr sys e sys' _ hinv hstep
  rw [written_snoc, appended_snoc]
  exact hinv.step hrealloc hstep

/-- The test raises no false alarm: over a lossless queue, and with every allocation successful, no
failure is counted and the stop flag stays clear in every reachable state; whenever no reader has
the read lock, the bytes appended to the stream are the frames that have been validated, built by
`build_frame` for different messages, followed by the rest of the stream, which is empty or a
strict prefix of the frame of one more message. -/
theorem test_raises_no_alarm (opts : TestOptions) (realloc : ℕ → Bool)
    (hrealloc : ∀ size, realloc size = true) {tr : List Event} {sys : Sys opts}
    (h : Run opts realloc tr sys) :
    sys.shared.stats.validationFailures = 0 ∧ sys.shared.stop = false ∧
      (sys.readLock = none → ∃ messages : List (Message opts), messages.Nodup ∧
        messages.length = sys.shared.stats.framesValidated ∧
        appended tr = messages.flatMap Message.frame ++ sys.shared.stream ∧
        (sys.shared.stream = [] ∨ ∃ message ∉ messages,
          sys.shared.stream <+: message.frame ∧ sys.shared.stream ≠ message.frame)) := by
  have hinv := Run.inv hrealloc h
  refine ⟨hinv.parser.failures, hinv.parser.stop, fun hfree => ?_⟩
  have hshort : sys.shared.stream.length < opts.messageSize := by
    refine hinv.parser.waiting fun r hparsing => ?_
    rw [(hinv.readers.ok r).1.mpr (ReaderPc.holds_of_parsing hparsing)] at hfree
    cases hfree
  -- the accepted frames are the first of those that the writers build
  obtain ⟨all, hnodup, hpre⟩ := hinv.prefix_of_frames
  obtain ⟨accepted, hparsed⟩ := hinv.parser.parsed
  obtain ⟨todo, heq, htrack⟩ := hparsed.onTrack hinv.parser.failures
    (streamOf_builtFrames all ▸ hpre)
  obtain ⟨messages, rest, rfl, rfl, rfl⟩ := List.map_eq_append_iff.mp heq
  refine ⟨messages, (List.nodup_append.mp hnodup).1, ?_, ?_, ?_⟩
  · rw [hparsed.validated, List.length_map]
  · rw [hparsed.bytes_eq, ← streamOf_builtFrames]
  · have hstream := htrack.stream_prefix
    rcases rest with _ | ⟨message, rest⟩
    · exact .inl (List.prefix_nil.mp hstream)
    · refine .inr ⟨message, fun hmem => ?_, ?_, fun hfull => ?_⟩
      · exact List.disjoint_of_nodup_append hnodup hmem List.mem_cons_self
      · refine List.prefix_of_prefix_length_le hstream (List.prefix_append _ _) ?_
        exact hshort.le.trans (Frame.built message).isFrame.size.ge
      · rw [hfull, Message.length_frame] at hshort
        exact lt_irrefl _ hshort

/-- A run of the smallest test in which the first seven bytes of the frame are written, read and
appended. -/
theorem exists_split_run :
    ∃ (tr : List Event) (sys : Sys .smallest), Run .smallest (fun _ => true) tr sys ∧
      appended tr = Message.only.frame.take 7 ∧ sys.readLock = none := by
  let w : Fin TestOptions.smallest.writers := ⟨0, by decide⟩
  let r : Fin TestOptions.smallest.readers := ⟨0, by decide⟩
  have hframe : Message.only.frame.length = 20 := Message.length_frame Message.only
  refine ⟨_, _, ((((((((((Lts.Run.nil
    |>.snoc (.writer w rfl)).snoc (.writer w rfl)).snoc (.writeLock w rfl rfl)).snoc
    (.writer w rfl)).snoc (.write w rfl (.accepted 7 ?_ ?_))).snoc (.reader r rfl)).snoc
    (.readLock r rfl rfl)).snoc (.read r rfl (.delivered 7 ?_ ?_ ?_))).snoc
    (.append r rfl rfl)).snoc (.reader r rfl)).snoc (.readUnlock r rfl), ?_, ?_⟩
  · rfl
  · rfl
  · decide
  · change 7 ≤ Message.only.frame.length
    omega
  · decide
  · decide
  · change 7 ≤ (Message.only.frame.take 7).length
    rw [List.length_take]
    omega

/-- On that run no failure is counted, and the stream holds a part of the frame. -/
theorem test_raises_no_alarm_split :
    ∃ (tr : List Event) (sys : Sys .smallest), Run .smallest (fun _ => true) tr sys ∧
      appended tr = Message.only.frame.take 7 ∧
      sys.shared.stats.validationFailures = 0 ∧ sys.shared.stop = false ∧
      ∃ messages : List (Message .smallest), messages.Nodup ∧
        messages.length = sys.shared.stats.framesValidated ∧
        appended tr = messages.flatMap Message.frame ++ sys.shared.stream ∧
        (sys.shared.stream = [] ∨ ∃ message ∉ messages,
          sys.shared.stream <+: message.frame ∧ sys.shared.stream ≠ message.frame) := by
  obtain ⟨tr, sys, hrun, happended, hfree⟩ := exists_split_run
  obtain ⟨hfailures, hstop, h⟩ :=
    test_raises_no_alarm .smallest (fun _ => true) (fun _ => rfl) hrun
  exact ⟨tr, sys, hrun, happended, hfailures, hstop, h hfree⟩

end ConcurrentTest
