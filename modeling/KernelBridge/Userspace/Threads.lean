import KernelBridge.Lib.Lts
import KernelBridge.Userspace.Verdict
import Mathlib.Logic.Function.Basic

/-!
# The threads of the concurrency test

The writer and reader threads of `userspace/concurrent_test.c` over a lossless first-in-first-out
byte device. `writerStep` and `readerStep` are the steps that a thread takes on the shared state
alone: one access to an atomic variable, one iteration of the frame parser, which runs under the
read lock, or one evaluation of a loop condition. Locks, system calls and the append to the stream
are cases of `Step`.

The code decides on every result a system call can have (`afterWrite`, `afterRead`); which results
the device has is a matter of `DeviceWrite` and `DeviceRead`. The threads start behind their
allocations and their `open`, which have succeeded. What `sleep_ms` and the prints do is left out.

The frame in the private buffer of a writer is the one that `build_frame` builds for its current
sequence number, so a writer is described by that number. `EWOULDBLOCK` is `EAGAIN`.
-/

namespace ConcurrentTest

/-- The errors of the system calls, as the test tells them apart. -/
inductive SysError
  | EAGAIN
  | EINTR
  | other (code : ℕ)
  deriving DecidableEq, Repr

/-- The errors of `write_frame_retry`; `noProgress` is `EIO`, for a call that wrote nothing. -/
inductive WriteError
  | errno (e : SysError)
  | noProgress
  | ECANCELED
  deriving DecidableEq, Repr

/-! ## Writers -/

/-- Where a writer thread stands. -/
inductive WriterPc (opts : TestOptions)
  /-- At the condition of the loop over the sequence numbers. -/
  | test (sequence : ℕ)
  /-- Behind `build_frame`, about to count the attempt. -/
  | attempt (sequence : Fin opts.messages)
  | lock (sequence : Fin opts.messages)
  /-- At the condition of the loop of `write_frame_retry`. -/
  | retry (sequence : Fin opts.messages) (offset : ℕ)
  /-- In `write_retry`. -/
  | write (sequence : Fin opts.messages) (offset : ℕ)
  | unlock (sequence : Fin opts.messages) (ret : Except WriteError Unit)
  /-- About to count the completed write. -/
  | completed (sequence : Fin opts.messages)
  /-- About to count its bytes. -/
  | account (sequence : Fin opts.messages)
  /-- The write has failed: about to count the failure. -/
  | failed
  /-- About to set the stop flag. -/
  | cancel
  /-- About to count the thread as done. -/
  | close
  | done
  deriving DecidableEq

/-- The steps of `writer_thread` and `write_frame_retry` on the shared state. -/
def writerStep (opts : TestOptions) (s : SharedState) :
    WriterPc opts → Option (WriterPc opts × SharedState)
  | .test sequence =>
    if h : sequence < opts.messages ∧ !s.stop then some (.attempt ⟨sequence, h.1⟩, s)
    else some (.close, s)
  | .attempt sequence =>
    some (.lock sequence, { s with stats.writesAttempted := s.stats.writesAttempted + 1 })
  | .retry sequence offset =>
    if offset < opts.messageSize ∧ !s.stop then some (.write sequence offset, s)
    else if offset = opts.messageSize then some (.unlock sequence (.ok ()), s)
    else some (.unlock sequence (.error .ECANCELED), s)
  | .completed sequence =>
    some (.account sequence, { s with stats.writesCompleted := s.stats.writesCompleted + 1 })
  | .account sequence =>
    some (.test (sequence + 1),
      { s with stats.bytesWritten := s.stats.bytesWritten + opts.messageSize })
  | .failed => some (.cancel, s.fail)
  | .cancel => some (.close, { s with stop := true })
  | .close =>
    some (.done, { s with stats.writerThreadsDone := s.stats.writerThreadsDone + 1 })
  | .lock _ | .write _ _ | .unlock _ _ | .done => none

/-- What `write_retry` and `write_frame_retry` make of the result of `write`. -/
def afterWrite {opts : TestOptions} (sequence : Fin opts.messages) (offset : ℕ) :
    Except SysError ℕ → WriterPc opts
  | .error .EINTR => .write sequence offset
  | .error .EAGAIN => .retry sequence offset
  | .error e => .unlock sequence (.error (.errno e))
  | .ok 0 => .unlock sequence (.error .noProgress)
  | .ok ret => .retry sequence (offset + ret)

/-- What a writer does with the return value of `write_frame_retry`. -/
def afterWriteFrame {opts : TestOptions} (sequence : Fin opts.messages) :
    Except WriteError Unit → WriterPc opts
  | .ok () => .completed sequence
  | .error _ => .failed

/-! ## Readers -/

/-- Where a reader thread stands. All but the steps after a nonempty read carry the value of
`idle_after_writers`. -/
inductive ReaderPc
  /-- At the condition of the loop. -/
  | test (idle : ℕ)
  | lock (idle : ℕ)
  /-- In `read_retry`. -/
  | read (idle : ℕ)
  /-- About to append what the read has returned. -/
  | append (idle : ℕ) (buffer : List UInt8)
  /-- The allocation has failed: about to set the stop flag. -/
  | overflow (idle count : ℕ)
  /-- In the loop of `validate_available_frames`. -/
  | validate (idle count : ℕ)
  | unlock (idle : ℕ) (ret : Except SysError ℕ)
  /-- About to count the read. -/
  | completed (count : ℕ)
  /-- About to count its bytes. -/
  | account (count : ℕ)
  /-- About to look whether all frames are there. -/
  | check
  /-- The read has failed: about to count the failure. -/
  | failed
  /-- About to set the stop flag. -/
  | cancel
  /-- Nothing to read: about to look whether the writers are done. -/
  | idle (idle : ℕ)
  /-- The writers are done: about to look whether all frames are there. -/
  | lastCheck (idle : ℕ)
  | done
  deriving DecidableEq

/-- The steps of `reader_thread` on the shared state, those of the parser included. -/
def readerStep (opts : TestOptions) (s : SharedState) : ReaderPc → Option (ReaderPc × SharedState)
  | .test idle => some (if s.stop then .done else .lock idle, s)
  | .overflow idle count => some (.unlock idle (.ok count), { s with stop := true })
  | .validate idle count =>
    match validateStep opts s with
    | .inl s' => some (.validate idle count, s')
    | .inr s' => some (.unlock idle (.ok count), s')
  | .completed count =>
    some (.account count, { s with stats.readsCompleted := s.stats.readsCompleted + 1 })
  | .account count => some (.check, { s with stats.bytesRead := s.stats.bytesRead + count })
  | .check =>
    some (if s.stats.framesValidated ≥ opts.writers * opts.messages then .done else .test 0, s)
  | .failed => some (.cancel, s.fail)
  | .cancel => some (.done, { s with stop := true })
  | .idle idle =>
    some (if s.stats.writerThreadsDone ≥ opts.writers then .lastCheck idle else .test idle, s)
  | .lastCheck idle =>
    if s.stats.framesValidated ≥ opts.writers * opts.messages then some (.done, s)
    else if idle + 1 > 2000 then some (.done, s)
    else some (.test (idle + 1), s)
  | .lock _ | .read _ | .append _ _ | .unlock _ _ | .done => none

/-- What `read_retry` and the critical section make of the result of `read`. -/
def afterRead (idle : ℕ) : Except SysError (List UInt8) → ReaderPc
  | .error .EINTR => .read idle
  | .error e => .unlock idle (.error e)
  | .ok [] => .unlock idle (.ok 0)
  | .ok buffer => .append idle buffer

/-- What a reader does behind the critical section. -/
def afterReadLock (idle : ℕ) : Except SysError ℕ → ReaderPc
  | .ok 0 | .error .EAGAIN => .idle idle
  | .ok count => .completed count
  | .error _ => .failed

/-! ## The system -/

/-- A `write` of `data` to a lossless device: a nonempty prefix is queued, or nothing is moved. -/
inductive DeviceWrite (data fifo : List UInt8) : Except SysError ℕ → List UInt8 → Prop
  | accepted (n : ℕ) (pos : 0 < n) (le : n ≤ data.length) :
      DeviceWrite data fifo (.ok n) (fifo ++ data.take n)
  | again : DeviceWrite data fifo (.error .EAGAIN) fifo
  | interrupted : DeviceWrite data fifo (.error .EINTR) fifo

/-- A `read` of at most `count` bytes: a nonempty prefix of the queue is returned, or nothing is
moved. -/
inductive DeviceRead (count : ℕ) (fifo : List UInt8) :
    Except SysError (List UInt8) → List UInt8 → Prop
  | delivered (n : ℕ) (pos : 0 < n) (le : n ≤ count) (avail : n ≤ fifo.length) :
      DeviceRead count fifo (.ok (fifo.take n)) (fifo.drop n)
  | again : DeviceRead count fifo (.error .EAGAIN) fifo
  | interrupted : DeviceRead count fifo (.error .EINTR) fifo

/-- The shared state with the locks, the queue of the device, and the threads. -/
structure Sys (opts : TestOptions) where
  shared : SharedState
  writeLock : Option (Fin opts.writers)
  readLock : Option (Fin opts.readers)
  fifo : List UInt8
  writer : Fin opts.writers → WriterPc opts
  reader : Fin opts.readers → ReaderPc

/-- Every thread at its loop, and the device empty. -/
def Sys.init (opts : TestOptions) : Sys opts where
  shared := .init opts
  writeLock := none
  readLock := none
  fifo := []
  writer := fun _ => .test 0
  reader := fun _ => .test 0

/-- What a step shows of itself: the bytes that went into the device, and those appended to the
stream. -/
inductive Event
  | tau
  | write (bytes : List UInt8)
  | append (bytes : List UInt8)
  deriving DecidableEq, Repr

/-- The bytes that a step put into the device. -/
def Event.written : Event → List UInt8
  | .write bytes => bytes
  | _ => []

/-- The bytes that a step appended to the stream. -/
def Event.appended : Event → List UInt8
  | .append bytes => bytes
  | _ => []

open Function in
/-- One step of one thread. -/
inductive Step (opts : TestOptions) (realloc : ℕ → Bool) : Sys opts → Event → Sys opts → Prop
  | writer {sys : Sys opts} (w : Fin opts.writers) {pc : WriterPc opts} {s : SharedState}
      (h : writerStep opts sys.shared (sys.writer w) = some (pc, s)) :
      Step opts realloc sys .tau { sys with shared := s, writer := update sys.writer w pc }
  | writeLock {sys : Sys opts} (w : Fin opts.writers) {sequence : Fin opts.messages}
      (h : sys.writer w = .lock sequence) (free : sys.writeLock = none) :
      Step opts realloc sys .tau
        { sys with writeLock := some w, writer := update sys.writer w (.retry sequence 0) }
  | write {sys : Sys opts} (w : Fin opts.writers) {sequence : Fin opts.messages} {offset : ℕ}
      {ret : Except SysError ℕ} {fifo : List UInt8} (h : sys.writer w = .write sequence offset)
      (call : DeviceWrite ((Message.frame (w, sequence)).drop offset) sys.fifo ret fifo) :
      Step opts realloc sys (.write (fifo.drop sys.fifo.length))
        { sys with fifo, writer := update sys.writer w (afterWrite sequence offset ret) }
  | writeUnlock {sys : Sys opts} (w : Fin opts.writers) {sequence : Fin opts.messages}
      {ret : Except WriteError Unit} (h : sys.writer w = .unlock sequence ret) :
      Step opts realloc sys .tau
        { sys with writeLock := none, writer := update sys.writer w (afterWriteFrame sequence ret) }
  | reader {sys : Sys opts} (r : Fin opts.readers) {pc : ReaderPc} {s : SharedState}
      (h : readerStep opts sys.shared (sys.reader r) = some (pc, s)) :
      Step opts realloc sys .tau { sys with shared := s, reader := update sys.reader r pc }
  | readLock {sys : Sys opts} (r : Fin opts.readers) {idle : ℕ} (h : sys.reader r = .lock idle)
      (free : sys.readLock = none) :
      Step opts realloc sys .tau
        { sys with readLock := some r, reader := update sys.reader r (.read idle) }
  | read {sys : Sys opts} (r : Fin opts.readers) {idle : ℕ} {ret : Except SysError (List UInt8)}
      {fifo : List UInt8} (h : sys.reader r = .read idle)
      (call : DeviceRead readChunkSize sys.fifo ret fifo) :
      Step opts realloc sys .tau
        { sys with fifo, reader := update sys.reader r (afterRead idle ret) }
  | append {sys : Sys opts} (r : Fin opts.readers) {idle : ℕ} {buffer : List UInt8}
      {s : SharedState} (h : sys.reader r = .append idle buffer)
      (capacity : ensureStreamCapacity realloc sys.shared buffer.length = some (some s)) :
      Step opts realloc sys (.append buffer)
        { sys with
          shared := { s with stream := s.stream ++ buffer }
          reader := update sys.reader r (.validate idle buffer.length) }
  | overflow {sys : Sys opts} (r : Fin opts.readers) {idle : ℕ} {buffer : List UInt8}
      (h : sys.reader r = .append idle buffer)
      (capacity : ensureStreamCapacity realloc sys.shared buffer.length = some none) :
      Step opts realloc sys .tau
        { sys with
          shared := sys.shared.fail
          reader := update sys.reader r (.overflow idle buffer.length) }
  | readUnlock {sys : Sys opts} (r : Fin opts.readers) {idle : ℕ} {ret : Except SysError ℕ}
      (h : sys.reader r = .unlock idle ret) :
      Step opts realloc sys .tau
        { sys with readLock := none, reader := update sys.reader r (afterReadLock idle ret) }

/-- The runs of the test. -/
abbrev Run (opts : TestOptions) (realloc : ℕ → Bool) : List Event → Sys opts → Prop :=
  Lts.Run (Step opts realloc) (Sys.init opts)

/-- The bytes that a run has put into the device. -/
def written (tr : List Event) : List UInt8 := tr.flatMap Event.written

/-- The bytes that a run has appended to the stream. -/
def appended (tr : List Event) : List UInt8 := tr.flatMap Event.appended

end ConcurrentTest
