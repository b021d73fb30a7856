import KernelBridge.Lib.Loop
import KernelBridge.Userspace.Frame

/-!
# The received stream of the concurrency test

The incremental frame parser of `userspace/concurrent_test.c`: `append_and_validate` appends what
a read returned and `validate_available_frames` takes whole frames off the front, counting what it
cannot accept and searching for the next magic. The allocation `stream` with its length
`stream_len` is the list of its first `stream_len` bytes, `seen_count` is the length of `seen`,
and the counters, 64-bit atomics in the source, are natural numbers. Whether `realloc` to a size
succeeds is a parameter.

`validateStep_spec` says what one iteration of the parser can do, `validateAvailableFrames_spec`
and `feed_spec` are the induction rules for one call and for a sequence of calls.
-/

namespace ConcurrentTest

/-- `struct run_stats`. -/
structure RunStats where
  writesAttempted : ℕ
  writesCompleted : ℕ
  readsCompleted : ℕ
  bytesWritten : ℕ
  bytesRead : ℕ
  framesValidated : ℕ
  validationFailures : ℕ
  writerThreadsDone : ℕ
  deriving DecidableEq, Repr

/-- `struct shared_state` without the options and the locks. -/
structure SharedState where
  stats : RunStats
  seen : List Bool
  stream : List UInt8
  streamCap : ℕ
  stop : Bool
  deriving DecidableEq, Repr

/-- `READ_CHUNK_SIZE`. -/
def readChunkSize : ℕ := 4096

/-- `SIZE_MAX`. -/
def sizeMax : ℕ := 2 ^ 64 - 1

namespace SharedState

/-- The shared state that `init_state` leaves. -/
def init (opts : TestOptions) : SharedState where
  stats := ⟨0, 0, 0, 0, 0, 0, 0, 0⟩
  seen := List.replicate (opts.writers * opts.messages) false
  stream := []
  streamCap := 0
  stop := false

/-- `atomic_fetch_add(&state->stats.validation_failures, 1)`. -/
def fail (s : SharedState) : SharedState :=
  { s with stats.validationFailures := s.stats.validationFailures + 1 }

/-- The branch of `validate_available_frames` that accepts a frame: its bit of `seen` is set and
the frame is counted. -/
def accept (s : SharedState) (seenIndex : ℕ) : SharedState :=
  { s with
    seen := s.seen.set seenIndex true
    stats.framesValidated := s.stats.framesValidated + 1 }

/-- `consume_stream`. -/
def consumeStream (s : SharedState) (count : ℕ) : SharedState :=
  if count ≥ s.stream.length then { s with stream := [] }
  else { s with stream := s.stream.drop count }

end SharedState

/-- One iteration of the loop of `ensure_stream_capacity`: it leaves with the new capacity, or
with `none` for `-ENOMEM`. -/
def growStep (needed newCap : ℕ) : ℕ ⊕ Option ℕ :=
  if newCap < needed then
    -- doubling must not overflow
    if newCap > sizeMax / 2 then .inr none else .inl (newCap * 2)
  else .inr (some newCap)

/-- `ensure_stream_capacity`; the inner `none` is `-ENOMEM`. -/
def ensureStreamCapacity (realloc : ℕ → Bool) (s : SharedState) (extra : ℕ) :
    Option (Option SharedState) :=
  let needed := s.stream.length + extra
  if needed ≤ s.streamCap then some (some s)
  else
    (Loop.run (growStep needed) (needed + 1)
      (if s.streamCap = 0 then readChunkSize else s.streamCap)).map fun
      | none => none
      | some newCap => if realloc newCap then some { s with streamCap := newCap } else none

/-- `find_magic_offset`. -/
def findMagicOffset (data : List UInt8) : ℕ :=
  ((List.range' 1 (data.length - 4)).find? fun index =>
    (data.drop index).take 4 = frameMagic).getD data.length

/-- One iteration of `validate_available_frames`: `inl` continues, `inr` returns. -/
def validateStep (opts : TestOptions) (s : SharedState) : SharedState ⊕ SharedState :=
  if s.stream.length < frameHeaderSize then .inr s
  else if s.stream.take 4 ≠ frameMagic then
    let offset := findMagicOffset s.stream
    if offset = s.stream.length then
      -- no magic: a part of one may be at the end, so the last three bytes stay
      let keep := if s.stream.length < 3 then s.stream.length else 3
      .inr { s.fail with stream := s.stream.drop (s.stream.length - keep) }
    else .inl (s.fail.consumeStream offset)
  else
    let writerId := getBe32 (s.stream.drop 4)
    let sequence := getBe32 (s.stream.drop 8)
    let payloadLen := getBe32 (s.stream.drop 12)
    let expectedChecksum := getBe32 (s.stream.drop 16)
    let frameSize := payloadLen.toNat + frameHeaderSize
    if payloadLen.toNat > maxMessageSize ∨ frameSize ≠ opts.messageSize then
      -- a wrong length: this magic starts no frame, so the search goes on behind its first byte
      .inl (s.fail.consumeStream 1)
    else if s.stream.length < frameSize then .inr s
    else
      -- the whole frame is there, and is consumed whether it is accepted or not
      let actualChecksum :=
        frameChecksum writerId sequence (s.stream.drop frameHeaderSize) payloadLen
      if writerId.toNat ≥ opts.writers ∨ sequence.toNat ≥ opts.messages then
        .inl (s.fail.consumeStream frameSize)
      else
        let seenIndex := writerId.toNat * opts.messages + sequence.toNat
        if seenIndex ≥ s.seen.length ∨ s.seen.getD seenIndex false ∨
            actualChecksum ≠ expectedChecksum then
          .inl (s.fail.consumeStream frameSize)
        else .inl ((s.accept seenIndex).consumeStream frameSize)

/-- `validate_available_frames`; `none` if the loop needs more iterations than the stream has
bytes. -/
def validateAvailableFrames (opts : TestOptions) (s : SharedState) : Option SharedState :=
  Loop.run (validateStep opts) (s.stream.length + 1) s

/-- `append_and_validate`. -/
def appendAndValidate (opts : TestOptions) (realloc : ℕ → Bool) (s : SharedState)
    (data : List UInt8) : Option SharedState := do
  match ← ensureStreamCapacity realloc s data.length with
  | none => return { s.fail with stop := true }
  | some s => validateAvailableFrames opts { s with stream := s.stream ++ data }

/-- A sequence of calls of `append_and_validate`. -/
def feed (opts : TestOptions) (realloc : ℕ → Bool) (s : SharedState)
    (chunks : List (List UInt8)) : Option SharedState :=
  chunks.foldlM (appendAndValidate opts realloc) s

variable {opts : TestOptions} {realloc : ℕ → Bool}

/-! ## Pieces of an iteration -/

namespace SharedState

/-- Consuming takes from the front of the stream. -/
@[simp]
theorem consumeStream_stream (s : SharedState) (count : ℕ) :
    (s.consumeStream count).stream = s.stream.drop count := by
  unfold consumeStream
  split
  · rw [List.drop_eq_nil_of_le ‹_›]
  · rfl

/-- Consuming leaves the statistics alone. -/
@[simp]
theorem consumeStream_stats (s : SharedState) (count : ℕ) :
    (s.consumeStream count).stats = s.stats := by
  unfold consumeStream
  split <;> rfl

/-- Consuming leaves the flags alone. -/
@[simp]
theorem consumeStream_seen (s : SharedState) (count : ℕ) :
    (s.consumeStream count).seen = s.seen := by
  unfold consumeStream
  split <;> rfl

/-- Consuming leaves the stop flag alone. -/
@[simp]
theorem consumeStream_stop (s : SharedState) (count : ℕ) :
    (s.consumeStream count).stop = s.stop := by
  unfold consumeStream
  split <;> rfl

/-- Consuming leaves the capacity alone. -/
@[simp]
theorem consumeStream_streamCap (s : SharedState) (count : ℕ) :
    (s.consumeStream count).streamCap = s.streamCap := by
  unfold consumeStream
  split <;> rfl

end SharedState

/-- `find_magic_offset` returns the first position behind the front at which the magic occurs, or
the length of the data if it does not occur there. -/
theorem findMagicOffset_spec (data : List UInt8) :
    (findMagicOffset data = data.length ∧
        ∀ i, 1 ≤ i → i + 4 ≤ data.length → (data.drop i).take 4 ≠ frameMagic) ∨
      (1 ≤ findMagicOffset data ∧ findMagicOffset data + 4 ≤ data.length ∧
        (data.drop (findMagicOffset data)).take 4 = frameMagic ∧
        ∀ i, 1 ≤ i → i < findMagicOffset data → (data.drop i).take 4 ≠ frameMagic) := by
  unfold findMagicOffset
  rcases hfind : (List.range' 1 (data.length - 4)).find? fun index =>
      (data.drop index).take 4 = frameMagic with _ | offset
  · refine .inl ⟨rfl, fun i hi hle => ?_⟩
    rw [List.find?_eq_none] at hfind
    simpa using hfind i (List.mem_range'_1.mpr (by omega))
  · obtain ⟨hat, hmem, hbefore⟩ := List.find?_range'_eq_some.mp hfind
    -- `find?` returns the first position at which the magic occurs
    have hrange := List.mem_range'_1.mp hmem
    refine .inr ⟨hrange.1, by rw [Option.getD_some]; omega, by simpa using hat, fun i hi hlt => ?_⟩
    simpa using hbefore i hi hlt

/-- The index of the bit of `seen` that belongs to a message. -/
def Message.seenIndex (message : Message opts) : ℕ := message.1 * opts.messages + message.2

/-- Different messages have different flags. -/
theorem Message.seenIndex_injective :
    Function.Injective (Message.seenIndex : Message opts → ℕ) := by
  intro a b h
  refine finProdFinEquiv.injective (Fin.ext ?_)
  simpa [Message.seenIndex, Nat.mul_comm, Nat.add_comm] using h

/-- Every message has a flag. -/
theorem Message.seenIndex_lt (message : Message opts) :
    message.seenIndex < opts.writers * opts.messages := by
  have h := (finProdFinEquiv message).isLt
  simpa [Message.seenIndex, Nat.mul_comm, Nat.add_comm] using h

/-- The parser has not accepted a frame of `message` yet. -/
def SharedState.Fresh (s : SharedState) (message : Message opts) : Prop :=
  s.seen[message.seenIndex]? = some false

/-- The stream starts with a header of the configured frame size. -/
structure Header (opts : TestOptions) (stream : List UInt8) : Prop where
  size : frameHeaderSize ≤ stream.length
  magic : stream.take 4 = frameMagic
  payloadLen : (getBe32 (stream.drop 12)).toNat = opts.messageSize - frameHeaderSize

/-- What one iteration of `validate_available_frames` can do. -/
inductive ValidateStep (opts : TestOptions) (s : SharedState) : SharedState ⊕ SharedState → Prop
  /-- There is no whole header yet. -/
  | short (h : s.stream.length < frameHeaderSize) : ValidateStep opts s (.inr s)
  /-- The magic occurs nowhere, and the last three bytes are kept. -/
  | noMagic (size : frameHeaderSize ≤ s.stream.length)
      (absent : ∀ i, i + 4 ≤ s.stream.length → (s.stream.drop i).take 4 ≠ frameMagic) :
      ValidateStep opts s
        (.inr { s.fail with stream := s.stream.drop (s.stream.length - 3) })
  /-- The bytes before the first magic are dropped. -/
  | skip (offset : ℕ) (size : frameHeaderSize ≤ s.stream.length) (pos : 0 < offset)
      (absent : ∀ i < offset, i + 4 ≤ s.stream.length ∧ (s.stream.drop i).take 4 ≠ frameMagic)
      (magic : (s.stream.drop offset).take 4 = frameMagic) :
      ValidateStep opts s (.inl (s.fail.consumeStream offset))
  /-- The length field is wrong, and one byte of the magic is dropped. -/
  | badLength (size : frameHeaderSize ≤ s.stream.length) (magic : s.stream.take 4 = frameMagic)
      (bad : ¬ Header opts s.stream) : ValidateStep opts s (.inl (s.fail.consumeStream 1))
  /-- The frame is not complete yet. -/
  | incomplete (header : Header opts s.stream) (short : s.stream.length < opts.messageSize) :
      ValidateStep opts s (.inr s)
  /-- The frame is not one that can be accepted, and is dropped. -/
  | badFrame (header : Header opts s.stream) (size : opts.messageSize ≤ s.stream.length)
      (bad : ∀ message : Message opts,
        s.Fresh message → ¬ IsFrame message (s.stream.take opts.messageSize)) :
      ValidateStep opts s (.inl (s.fail.consumeStream opts.messageSize))
  /-- The frame is accepted. -/
  | goodFrame (message : Message opts) (header : Header opts s.stream)
      (size : opts.messageSize ≤ s.stream.length) (fresh : s.Fresh message)
      (frame : IsFrame message (s.stream.take opts.messageSize)) :
      ValidateStep opts s
        (.inl ((s.accept message.seenIndex).consumeStream opts.messageSize))

/-- A word inside the frame at the front of the stream. -/
theorem getBe32_drop_take {stream : List UInt8} {size offset : ℕ} (h : offset + 4 ≤ size)
    (hsize : size ≤ stream.length) :
    getBe32 ((stream.take size).drop offset) = getBe32 (stream.drop offset) := by
  conv_rhs => rw [← List.take_append_drop size stream]
  rw [List.drop_append_of_le_length (by rw [List.length_take]; omega),
    getBe32_append _ (by rw [List.length_drop, List.length_take]; omega)]

/-- Behind a good header, the frame at the front of the stream is one of `message` exactly when
the fields read from the stream say so. -/
theorem isFrame_take_iff {stream : List UInt8} (header : Header opts stream)
    (hsize : opts.messageSize ≤ stream.length) (message : Message opts) :
    IsFrame message (stream.take opts.messageSize) ↔
      (getBe32 (stream.drop 4)).toNat = message.1 ∧ (getBe32 (stream.drop 8)).toNat = message.2 ∧
        frameChecksum (getBe32 (stream.drop 4)) (getBe32 (stream.drop 8))
          (stream.drop frameHeaderSize) (getBe32 (stream.drop 12)) = getBe32 (stream.drop 16) := by
  have hbounds : 20 ≤ opts.messageSize := opts.messageSize_bounds.1
  have hword (offset : ℕ) (h : offset + 4 ≤ 20) :
      getBe32 ((stream.take opts.messageSize).drop offset) = getBe32 (stream.drop offset) :=
    getBe32_drop_take (by omega) hsize
  -- the checksum covers the payload of the frame, and nothing behind it
  have hchecksum (writerId sequence : UInt32) :
      frameChecksum writerId sequence ((stream.take opts.messageSize).drop frameHeaderSize)
          (getBe32 (stream.drop 12)) =
        frameChecksum writerId sequence (stream.drop frameHeaderSize) (getBe32 (stream.drop 12)) := by
    simp only [frameChecksum, header.payloadLen, List.drop_take, List.take_take, Nat.min_self]
  constructor
  · intro frame
    have hsum := frame.checksum
    rw [hword 16 le_rfl, hword 4 (by omega), hword 8 (by omega), hword 12 (by omega),
      hchecksum] at hsum
    exact ⟨hword 4 (by omega) ▸ frame.writerId, hword 8 (by omega) ▸ frame.sequence, hsum.symm⟩
  · rintro ⟨hwriter, hsequence, hsum⟩
    exact {
      size := by rw [List.length_take, Nat.min_eq_left hsize]
      magic := by rw [List.take_take, Nat.min_eq_left (by omega), header.magic]
      writerId := by rw [hword 4 (by omega), hwriter]
      sequence := by rw [hword 8 (by omega), hsequence]
      payloadLen := by rw [hword 12 (by omega), header.payloadLen]
      checksum := by
        rw [hword 16 le_rfl, hword 4 (by omega), hword 8 (by omega), hword 12 (by omega),
          hchecksum, hsum] }

/-- The length test of the source passes exactly behind a good header. -/
theorem length_test_iff (opts : TestOptions) (payloadLen : UInt32) :
    (payloadLen.toNat > maxMessageSize ∨
        payloadLen.toNat + frameHeaderSize ≠ opts.messageSize) ↔
      payloadLen.toNat ≠ opts.messageSize - frameHeaderSize := by
  have := opts.messageSize_bounds
  omega

/-- One iteration of `validate_available_frames`. -/
theorem validateStep_spec (opts : TestOptions) (s : SharedState) :
    ValidateStep opts s (validateStep opts s) := by
  have hheader : frameHeaderSize = 20 := rfl
  have hbounds := opts.messageSize_bounds
  unfold validateStep
  by_cases hshort : s.stream.length < frameHeaderSize
  · rw [if_pos hshort]
    exact .short hshort
  rw [if_neg hshort]
  rw [not_lt] at hshort
  by_cases hmagic : s.stream.take 4 = frameMagic
  · rw [if_neg (not_not.mpr hmagic)]
    dsimp only
    by_cases hlength : (getBe32 (s.stream.drop 12)).toNat = opts.messageSize - frameHeaderSize
    · have header : Header opts s.stream := ⟨hshort, hmagic, hlength⟩
      have hsize : (getBe32 (s.stream.drop 12)).toNat + frameHeaderSize = opts.messageSize := by
        omega
      rw [if_neg (mt (length_test_iff opts _).mp (not_not.mpr hlength)), hsize]
      by_cases hpart : s.stream.length < opts.messageSize
      · rw [if_pos hpart]
        exact .incomplete header hpart
      rw [if_neg hpart]
      rw [not_lt] at hpart
      have hframe := isFrame_take_iff header hpart
      split_ifs with hrange hbad
      · -- no message has the fields of the frame
        refine .badFrame header hpart fun message _ frame => ?_
        obtain ⟨hwriter, hsequence, -⟩ := (hframe message).mp frame
        have := message.1.isLt
        have := message.2.isLt
        omega
      · refine .badFrame header hpart fun message fresh frame => ?_
        obtain ⟨hwriter, hsequence, hsum⟩ := (hframe message).mp frame
        rw [hwriter, hsequence] at hbad
        obtain ⟨hlt, hbit⟩ := List.getElem?_eq_some_iff.mp fresh
        -- each of the three tests fails on a frame of a fresh message
        rcases hbad with hout | hseen | hchecksum
        · exact absurd hlt (not_lt.mpr hout)
        · change s.seen.getD message.seenIndex false at hseen
          rw [List.getD_eq_getElem _ _ hlt, hbit] at hseen
          exact absurd hseen Bool.false_ne_true
        · exact hchecksum hsum
      · push Not at hrange hbad
        obtain ⟨hlt, hseen, hsum⟩ := hbad
        refine .goodFrame
          (⟨⟨_, hrange.1⟩, ⟨_, hrange.2⟩⟩ : Message opts) header hpart ?_
          ((hframe _).mpr ⟨rfl, rfl, hsum⟩)
        rw [List.getD_eq_getElem _ _ hlt] at hseen
        exact List.getElem?_eq_some_iff.mpr ⟨hlt, Bool.eq_false_of_not_eq_true hseen⟩
    · rw [if_pos ((length_test_iff opts _).mpr hlength)]
      exact .badLength hshort hmagic fun header => hlength header.payloadLen
  · rw [if_pos hmagic]
    dsimp only
    -- the magic is not at the front: the search starts behind it
    have hfront (i : ℕ) (h : 1 ≤ i → (s.stream.drop i).take 4 ≠ frameMagic) :
        (s.stream.drop i).take 4 ≠ frameMagic := by
      rcases Nat.eq_zero_or_pos i with rfl | hpos
      · exact hmagic
      · exact h hpos
    rcases findMagicOffset_spec s.stream with ⟨heq, habsent⟩ | ⟨hpos, hle, hat, habsent⟩
    · rw [if_pos heq, if_neg (by omega)]
      exact .noMagic hshort fun i hi => hfront i fun hpos => habsent i hpos hi
    · rw [if_neg (by omega)]
      exact .skip _ hshort hpos
        (fun i hi => ⟨by omega, hfront i fun hpos => habsent i hpos hi⟩) hat

/-- Every continuing iteration shortens the stream. -/
theorem ValidateStep.shortens {s s' : SharedState} (h : ValidateStep opts s (.inl s')) :
    s'.stream.length < s.stream.length := by
  have hdrop {t : SharedState} {count : ℕ} (hsize : frameHeaderSize ≤ t.stream.length)
      (hpos : 0 < count) : (t.consumeStream count).stream.length < t.stream.length := by
    rw [SharedState.consumeStream_stream, List.length_drop]
    exact Nat.sub_lt (Nat.lt_of_lt_of_le (by decide) hsize) hpos
  have hframe : 0 < opts.messageSize :=
    Nat.lt_of_lt_of_le (by decide) opts.messageSize_bounds.1
  cases h with
  | skip offset size pos => exact hdrop (t := s.fail) size pos
  | badLength size => exact hdrop (t := s.fail) size one_pos
  | badFrame header => exact hdrop (t := s.fail) header.size hframe
  | goodFrame message header => exact hdrop (t := s.accept _) header.size hframe

/-- The induction rule for `validate_available_frames`, which always returns. -/
theorem validateAvailableFrames_spec (opts : TestOptions) {I Q : SharedState → Prop}
    (hcont : ∀ s s', I s → ValidateStep opts s (.inl s') → I s')
    (hexit : ∀ s s', I s → ValidateStep opts s (.inr s') → Q s') {s : SharedState} (h : I s) :
    ∃ s', validateAvailableFrames opts s = some s' ∧ Q s' :=
  Loop.run_of_variant (fun s => s.stream.length)
    (fun s s' hI hstep =>
      have hspec := hstep ▸ validateStep_spec opts s
      ⟨hcont s s' hI hspec, hspec.shortens⟩)
    (fun s s' hI hstep => hexit s s' hI (hstep ▸ validateStep_spec opts s))
    h (Nat.lt_succ_self _)

/-! ## Calls -/

/-- What can make `ensure_stream_capacity` fail: `realloc` fails at some size, or doubling passes
`SIZE_MAX`. -/
def CapacityFails (realloc : ℕ → Bool) (needed : ℕ) : Prop :=
  (∃ size, realloc size = false) ∨ sizeMax / 2 + 1 < needed

/-- `ensure_stream_capacity` returns; when it succeeds, only the capacity has changed, and it is
at least what was asked for. -/
theorem ensureStreamCapacity_spec (realloc : ℕ → Bool) (s : SharedState) (extra : ℕ) :
    (CapacityFails realloc (s.stream.length + extra) ∧
        ensureStreamCapacity realloc s extra = some none) ∨
      ∃ cap, s.stream.length + extra ≤ cap ∧
        ensureStreamCapacity realloc s extra = some (some { s with streamCap := cap }) := by
  unfold ensureStreamCapacity
  dsimp only
  by_cases hfits : s.stream.length + extra ≤ s.streamCap
  · rw [if_pos hfits]
    exact .inr ⟨s.streamCap, hfits, rfl⟩
  rw [if_neg hfits]
  -- doubling a positive capacity reaches any bound
  have hpos : 0 < if s.streamCap = 0 then readChunkSize else s.streamCap := by
    split
    · decide
    · omega
  obtain ⟨r, hrun, hr⟩ : ∃ r, Loop.run (growStep (s.stream.length + extra))
        (s.stream.length + extra + 1)
        (if s.streamCap = 0 then readChunkSize else s.streamCap) = some r ∧
      r.elim (sizeMax / 2 + 1 < s.stream.length + extra)
        fun cap => s.stream.length + extra ≤ cap := by
    refine Loop.run_of_variant (I := fun cap => 0 < cap)
      (fun cap => s.stream.length + extra - cap) ?_ ?_ hpos (by omega)
    · intro cap cap' hcap hstep
      unfold growStep at hstep
      split_ifs at hstep with hlt hmax
      obtain rfl : cap * 2 = cap' := Sum.inl.inj hstep
      omega
    · intro cap r hcap hstep
      unfold growStep at hstep
      split_ifs at hstep with hlt hmax
      · obtain rfl := Sum.inr.inj hstep
        change sizeMax / 2 + 1 < s.stream.length + extra
        omega
      · obtain rfl := Sum.inr.inj hstep
        exact not_lt.mp hlt
  rw [hrun]
  rcases r with _ | cap
  · exact .inl ⟨.inr hr, rfl⟩
  · rcases hok : realloc cap with _ | _
    · exact .inl ⟨.inl ⟨cap, hok⟩, by simp only [Option.map_some, hok, Bool.false_eq_true, if_false]⟩
    · exact .inr ⟨cap, hr, by simp only [Option.map_some, hok, if_true]⟩

/-- A call of `append_and_validate` returns. Either the allocation has failed, or the parser has
run on the stream with the bytes appended. -/
theorem appendAndValidate_spec (opts : TestOptions) (realloc : ℕ → Bool) (s : SharedState)
    (data : List UInt8) :
    (CapacityFails realloc (s.stream.length + data.length) ∧
        appendAndValidate opts realloc s data = some { s.fail with stop := true }) ∨
      ∃ cap, appendAndValidate opts realloc s data =
        validateAvailableFrames opts { s with stream := s.stream ++ data, streamCap := cap } := by
  unfold appendAndValidate
  rcases ensureStreamCapacity_spec realloc s data.length with ⟨hfails, h⟩ | ⟨cap, -, h⟩
  · exact .inl ⟨hfails, by rw [h]; rfl⟩
  · exact .inr ⟨cap, by rw [h]; rfl⟩

/-- The iterations of the parser leave the stop flag alone. -/
theorem ValidateStep.stop_eq {s : SharedState} {r : SharedState ⊕ SharedState}
    (h : ValidateStep opts s r) : (r.elim id id).stop = s.stop := by
  cases h <;> simp [SharedState.fail, SharedState.accept]

/-- The induction rule for a sequence of calls: `I` relates the bytes appended so far to the state
between two calls, and `J` relates them to the state inside a call. Every sequence of calls
returns, and in a state of `I` unless an allocation has failed, which sets the stop flag. -/
theorem feed_spec {I J : List UInt8 → SharedState → Prop}
    (happend : ∀ bytes s data cap, I bytes s →
      J (bytes ++ data) { s with stream := s.stream ++ data, streamCap := cap })
    (hcont : ∀ bytes s s', J bytes s → ValidateStep opts s (.inl s') → J bytes s')
    (hexit : ∀ bytes s s', J bytes s → ValidateStep opts s (.inr s') → I bytes s')
    (chunks : List (List UInt8)) (bytes : List UInt8) {s : SharedState} (h : I bytes s) :
    ∃ s', feed opts realloc s chunks = some s' ∧
      (s'.stop = false → I (bytes ++ chunks.flatten) s') := by
  -- once the stop flag is set, only termination is left to show
  suffices hgen : ∀ (bytes : List UInt8) {s : SharedState}, (s.stop = false → I bytes s) →
      ∃ s', feed opts realloc s chunks = some s' ∧
        (s'.stop = false → I (bytes ++ chunks.flatten) s') from hgen bytes fun _ => h
  clear h bytes s
  induction chunks with
  | nil =>
    intro bytes s h
    exact ⟨s, rfl, by simpa using h⟩
  | cons data chunks ih =>
    intro bytes s h
    have hcall : ∃ t, appendAndValidate opts realloc s data = some t ∧
        (t.stop = false → I (bytes ++ data) t) := by
      rcases appendAndValidate_spec opts realloc s data with ⟨-, hfail⟩ | ⟨cap, hrun⟩
      · exact ⟨_, hfail, fun hstop => by simp at hstop⟩
      · rw [hrun]
        exact validateAvailableFrames_spec opts
          (I := fun t => t.stop = false → J (bytes ++ data) t)
          (fun u u' hI hstep hstop => hcont _ _ _ (hI (hstep.stop_eq ▸ hstop)) hstep)
          (fun u u' hI hstep hstop => hexit _ _ _ (hI (hstep.stop_eq ▸ hstop)) hstep)
          fun hstop => happend _ _ _ _ (h hstop)
    obtain ⟨t, ht, hI⟩ := hcall
    obtain ⟨s', hs', hfinal⟩ := ih _ hI
    refine ⟨s', ?_, by simpa using hfinal⟩
    rw [feed, List.foldlM_cons, ht]
    exact hs'

/-- No allocation fails: `realloc` succeeds, and doubling the capacity reaches the size that is
needed for a chunk and what is left of a frame before it. -/
structure Allocates (realloc : ℕ → Bool) (chunks : List (List UInt8)) : Prop where
  realloc : ∀ size, realloc size = true
  fits : ∀ data ∈ chunks, data.length + maxMessageSize ≤ sizeMax / 2 + 1

/-- Between two calls less than a frame is left. -/
theorem ValidateStep.residue_lt {s s' : SharedState} (h : ValidateStep opts s (.inr s')) :
    s'.stream.length < opts.messageSize := by
  have hbounds := opts.messageSize_bounds.1
  cases h with
  | short h => omega
  | noMagic size =>
    have hkeep : 3 < frameHeaderSize := by decide
    rw [List.length_drop]
    omega
  | incomplete _ short => exact short

/-- What is left over is no longer than a message. -/
theorem ValidateStep.residue {s s' : SharedState} (h : ValidateStep opts s (.inr s')) :
    s'.stream.length ≤ maxMessageSize :=
  h.residue_lt.le.trans opts.messageSize_bounds.2

/-- The iterations of the parser leave the capacity alone. -/
theorem ValidateStep.streamCap_eq {s : SharedState} {r : SharedState ⊕ SharedState}
    (h : ValidateStep opts s r) : (r.elim id id).streamCap = s.streamCap := by
  cases h <;> simp [SharedState.fail, SharedState.accept]

/-- The stop flag stays clear when no allocation fails. -/
theorem feed_not_stopped {chunks : List (List UInt8)} (halloc : Allocates realloc chunks)
    {s s' : SharedState} (hstop : s.stop = false) (hresidue : s.stream.length ≤ maxMessageSize)
    (h : feed opts realloc s chunks = some s') : s'.stop = false := by
  induction chunks generalizing s with
  | nil =>
    obtain rfl : s = s' := Option.some.inj h
    exact hstop
  | cons data chunks ih =>
    have hfits := halloc.fits data List.mem_cons_self
    rcases appendAndValidate_spec opts realloc s data with ⟨hfails, -⟩ | ⟨cap, hrun⟩
    · rcases hfails with ⟨size, hfalse⟩ | hlarge
      · exact absurd ((halloc.realloc size).symm.trans hfalse) (by simp)
      · omega
    -- the parser leaves the flag clear, and less than a frame
    obtain ⟨t, ht, htstop, htresidue⟩ := validateAvailableFrames_spec opts
      (I := fun t => t.stop = false)
      (Q := fun t => t.stop = false ∧ t.stream.length ≤ maxMessageSize)
      (fun _ _ hI hstep => hstep.stop_eq.trans hI)
      (fun _ _ hI hstep => ⟨hstep.stop_eq.trans hI, hstep.residue⟩)
      (s := { s with stream := s.stream ++ data, streamCap := cap }) hstop
    have hrest : Allocates realloc chunks :=
      ⟨halloc.realloc, fun d hd => halloc.fits d (List.mem_cons_of_mem data hd)⟩
    rw [feed, List.foldlM_cons, hrun, ht] at h
    exact ih hrest htstop htresidue h

end ConcurrentTest
