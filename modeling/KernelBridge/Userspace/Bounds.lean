import KernelBridge.Userspace.Verdict

/-!
# The memory accesses of the frame parser

The parser of `Userspace.Stream` once more, with every access to memory checked: a read of `stream`
must lie within its first `stream_len` bytes, an index of `seen` within its allocation and an append
within `stream_cap`, the sizes that `ensure_stream_capacity` computes must not pass `SIZE_MAX`, and
the loops must end. What goes wrong otherwise is a `Fault`.

`Checked.validateStep_eq` says that no iteration of the parser faults, whatever the state. Between
two calls `Bounded` holds: less than a frame is left, so a chunk that fits `READ_CHUNK_SIZE` needs at
most one doubling of the first allocation.

Main result: `feed_bounded`.
-/

namespace ConcurrentTest

/-- What a checked run can stop with. -/
inductive Fault
  /-- An access outside the bytes of `stream`. -/
  | stream
  /-- An index outside `seen`. -/
  | seen
  /-- A size beyond `SIZE_MAX`. -/
  | overflow
  /-- A loop that has not ended. -/
  | diverges
  deriving DecidableEq, Repr

namespace Checked

/-! ## Accesses -/

/-- The `n` bytes at `offset`. -/
def read (bytes : List UInt8) (offset n : ℕ) : Except Fault (List UInt8) :=
  if offset + n ≤ bytes.length then .ok ((bytes.drop offset).take n) else .error .stream

/-- `memcmp(bytes + offset, FRAME_MAGIC, 4) == 0`. -/
def magicAt (bytes : List UInt8) (offset : ℕ) : Except Fault Bool :=
  (read bytes offset 4).map fun word => decide (word = frameMagic)

/-- `get_be32(bytes + offset)`. -/
def word (bytes : List UInt8) (offset : ℕ) : Except Fault UInt32 :=
  (read bytes offset 4).map getBe32

/-- `seen[index]`. -/
def seenAt (s : SharedState) (index : ℕ) : Except Fault Bool :=
  match s.seen[index]? with
  | some bit => .ok bit
  | none => .error .seen

/-- The result of a loop that has ended. -/
def ended {α : Type} : Option (Except Fault α) → Except Fault α
  | some result => result
  | none => .error .diverges

/-! ## The parser -/

/-- One iteration of the loop of `find_magic_offset`. -/
def findStep (data : List UInt8) (index : ℕ) : ℕ ⊕ Except Fault ℕ :=
  if index + 4 ≤ data.length then
    match magicAt data index with
    | .error fault => .inr (.error fault)
    | .ok true => .inr (.ok index)
    | .ok false => .inl (index + 1)
  else .inr (.ok data.length)

/-- `find_magic_offset`. -/
def findMagicOffset (data : List UInt8) : Except Fault ℕ :=
  ended (Loop.run (findStep data) (data.length + 1) 1)

/-- `consume_stream`. -/
def consumeStream (s : SharedState) (count : ℕ) : Except Fault SharedState :=
  if count ≥ s.stream.length then .ok { s with stream := [] }
  else (read s.stream count (s.stream.length - count)).map fun rest => { s with stream := rest }

/-- The store to `seen` of `validate_available_frames`, and the count of the frame. -/
def accept (s : SharedState) (seenIndex : ℕ) : Except Fault SharedState :=
  if seenIndex < s.seen.length then .ok (s.accept seenIndex) else .error .seen

/-- One iteration of `validate_available_frames`. -/
def validateStep (opts : TestOptions) (s : SharedState) :
    Except Fault (SharedState ⊕ SharedState) := do
  if s.stream.length < frameHeaderSize then return .inr s
  if !(← magicAt s.stream 0) then
    let offset ← findMagicOffset s.stream
    if offset = s.stream.length then
      let keep := if s.stream.length < 3 then s.stream.length else 3
      let kept ← read s.stream (s.stream.length - keep) keep
      return .inr { s.fail with stream := kept }
    return .inl (← consumeStream s.fail offset)
  let writerId ← word s.stream 4
  let sequence ← word s.stream 8
  let payloadLen ← word s.stream 12
  let expectedChecksum ← word s.stream 16
  let frameSize := payloadLen.toNat + frameHeaderSize
  if payloadLen.toNat > maxMessageSize ∨ frameSize ≠ opts.messageSize then
    return .inl (← consumeStream s.fail 1)
  if s.stream.length < frameSize then return .inr s
  let payload ← read s.stream frameHeaderSize payloadLen.toNat
  let actualChecksum := frameChecksum writerId sequence payload payloadLen
  if writerId.toNat ≥ opts.writers ∨ sequence.toNat ≥ opts.messages then
    return .inl (← consumeStream s.fail frameSize)
  let seenIndex := writerId.toNat * opts.messages + sequence.toNat
  -- the bit is looked at only if its index is below `seen_count`
  if seenIndex ≥ s.seen.length then return .inl (← consumeStream s.fail frameSize)
  if (← seenAt s seenIndex) ∨ actualChecksum ≠ expectedChecksum then
    return .inl (← consumeStream s.fail frameSize)
  return .inl (← consumeStream (← accept s seenIndex) frameSize)

/-- `validate_available_frames`. -/
def validateAvailableFrames (opts : TestOptions) (s : SharedState) : Except Fault SharedState :=
  ended (Loop.run
    (fun s => match validateStep opts s with
      | .error fault => .inr (.error fault)
      | .ok (.inl s) => .inl s
      | .ok (.inr s) => .inr (.ok s))
    (s.stream.length + 1) s)

/-- `ensure_stream_capacity`; `none` is `-ENOMEM` because `realloc` has failed. -/
def ensureStreamCapacity (realloc : ℕ → Bool) (s : SharedState) (extra : ℕ) :
    Except Fault (Option SharedState) :=
  let needed := s.stream.length + extra
  if needed > sizeMax then .error .overflow
  else if needed ≤ s.streamCap then .ok (some s)
  else
    match Loop.run (growStep needed) (needed + 1)
        (if s.streamCap = 0 then readChunkSize else s.streamCap) with
    | none => .error .diverges
    | some none => .error .overflow
    | some (some newCap) => .ok (if realloc newCap then some { s with streamCap := newCap } else none)

/-- `append_and_validate`. -/
def appendAndValidate (opts : TestOptions) (realloc : ℕ → Bool) (s : SharedState)
    (data : List UInt8) : Except Fault SharedState := do
  match ← ensureStreamCapacity realloc s data.length with
  | none => return { s.fail with stop := true }
  | some s =>
    -- the `memcpy` behind the bytes that are there
    if s.stream.length + data.length > s.streamCap then throw .stream
    validateAvailableFrames opts { s with stream := s.stream ++ data }

variable {opts : TestOptions}

/-! ## No iteration faults -/

/-- A read inside the stream. -/
theorem read_eq {bytes : List UInt8} {offset n : ℕ} (h : offset + n ≤ bytes.length) :
    read bytes offset n = .ok ((bytes.drop offset).take n) := if_pos h

/-- The magic inside the stream. -/
theorem magicAt_eq {bytes : List UInt8} {offset : ℕ} (h : offset + 4 ≤ bytes.length) :
    magicAt bytes offset = .ok (decide ((bytes.drop offset).take 4 = frameMagic)) := by
  rw [magicAt, read_eq h]
  rfl

/-- A word is read from its four bytes. -/
theorem word_eq {bytes : List UInt8} {offset : ℕ} (h : offset + 4 ≤ bytes.length) :
    word bytes offset = .ok (getBe32 (bytes.drop offset)) := by
  have hword : getBe32 ((bytes.drop offset).take 4) = getBe32 (bytes.drop offset) := by
    conv_rhs => rw [← List.take_append_drop 4 (bytes.drop offset)]
    refine (getBe32_append _ ?_).symm
    rw [List.length_take, List.length_drop]
    omega
  rw [word, read_eq h, Except.map, hword]

/-- One iteration of the search: the magic is here, or the search goes on, or the end is reached. -/
theorem findStep_eq (data : List UInt8) (index : ℕ) : findStep data index =
    if index + 4 ≤ data.length then
      if (data.drop index).take 4 = frameMagic then .inr (.ok index) else .inl (index + 1)
    else .inr (.ok data.length) := by
  unfold findStep
  split_ifs with hfits hmagic
  · rw [magicAt_eq hfits, decide_eq_true hmagic]
  · rw [magicAt_eq hfits, decide_eq_false hmagic]
  · rfl

/-- The search for the magic looks at no byte behind the end, and ends. -/
theorem findMagicOffset_eq (data : List UInt8) :
    findMagicOffset data = .ok (ConcurrentTest.findMagicOffset data) := by
  obtain ⟨r, hrun, rfl⟩ : ∃ r, Loop.run (findStep data) (data.length + 1) 1 = some r ∧
      r = .ok (ConcurrentTest.findMagicOffset data) := by
    -- the magic is at no position behind the front that has been passed
    refine Loop.run_of_variant
      (I := fun index => 1 ≤ index ∧
        ∀ i, 1 ≤ i → i < index → (data.drop i).take 4 ≠ frameMagic)
      (fun index => data.length - index) ?_ ?_ ⟨le_rfl, fun i hi hlt => by omega⟩ (by omega)
    · rintro index next ⟨hpos, hpassed⟩ hstep
      rw [findStep_eq] at hstep
      split_ifs at hstep with hfits hmagic
      obtain rfl := Sum.inl.inj hstep
      refine ⟨⟨by omega, fun i hi hlt => ?_⟩, by omega⟩
      rcases Nat.lt_succ_iff_lt_or_eq.mp hlt with hlt | rfl
      · exact hpassed i hi hlt
      · exact hmagic
    · rintro index r ⟨hpos, hpassed⟩ hstep
      rw [findStep_eq] at hstep
      split_ifs at hstep with hfits hmagic
      · obtain rfl := Sum.inr.inj hstep
        rcases findMagicOffset_spec data with ⟨-, habsent⟩ | ⟨hfound, -, hat, hbefore⟩
        · exact absurd hmagic (habsent index hpos hfits)
        · -- neither of the two positions is before the other
          refine congrArg Except.ok (le_antisymm ?_ ?_)
          · exact not_lt.mp fun hlt => hpassed _ hfound hlt hat
          · exact not_lt.mp fun hlt => hbefore index hpos hlt hmagic
      · obtain rfl := Sum.inr.inj hstep
        rcases findMagicOffset_spec data with ⟨heq, -⟩ | ⟨hfound, hle, hat, -⟩
        · rw [heq]
        · exact absurd hat (hpassed _ hfound (by omega))
  rw [findMagicOffset, hrun]
  rfl

/-- Consuming stays inside the stream. -/
theorem consumeStream_eq (s : SharedState) (count : ℕ) :
    consumeStream s count = .ok (s.consumeStream count) := by
  unfold consumeStream SharedState.consumeStream
  split_ifs with hall
  · rfl
  · rw [read_eq (by omega), Except.map,
      List.take_of_length_le (by rw [List.length_drop])]

/-- A flag inside the array. -/
theorem seenAt_eq {s : SharedState} {index : ℕ} (h : index < s.seen.length) :
    seenAt s index = .ok (s.seen.getD index false) := by
  rw [seenAt, List.getElem?_eq_getElem h, List.getD_eq_getElem _ _ h]

/-- No iteration of the parser makes an access out of bounds, in any state. -/
theorem validateStep_eq (opts : TestOptions) (s : SharedState) :
    validateStep opts s = .ok (ConcurrentTest.validateStep opts s) := by
  unfold validateStep ConcurrentTest.validateStep
  by_cases hshort : s.stream.length < frameHeaderSize
  · rw [if_pos hshort, if_pos hshort]
    rfl
  rw [if_neg hshort, if_neg hshort]
  have hheader : 20 ≤ s.stream.length := not_lt.mp hshort
  rw [magicAt_eq (by omega), word_eq (by omega), word_eq (by omega), word_eq (by omega),
    word_eq (by omega), findMagicOffset_eq]
  simp only [bind, Except.bind, pure, Except.pure, consumeStream_eq]
  by_cases hmagic : s.stream.take 4 = frameMagic
  · rw [if_neg (by simpa using hmagic), if_neg (not_not.mpr hmagic)]
    generalize hpayload : getBe32 (s.stream.drop 12) = payloadLen
    generalize hsize : payloadLen.toNat + frameHeaderSize = frameSize
    by_cases hlength : payloadLen.toNat > maxMessageSize ∨ frameSize ≠ opts.messageSize
    · rw [if_pos hlength, if_pos hlength]
    rw [if_neg hlength, if_neg hlength]
    by_cases hpart : s.stream.length < frameSize
    · rw [if_pos hpart, if_pos hpart]
    rw [if_neg hpart, if_neg hpart, read_eq (by omega)]
    -- the checksum covers the payload, and no byte behind it
    have hchecksum (writerId sequence : UInt32) :
        frameChecksum writerId sequence ((s.stream.drop frameHeaderSize).take payloadLen.toNat)
            payloadLen =
          frameChecksum writerId sequence (s.stream.drop frameHeaderSize) payloadLen := by
      rw [frameChecksum, List.take_take, Nat.min_self, frameChecksum]
    dsimp only
    rw [hchecksum]
    by_cases hrange : (getBe32 (s.stream.drop 4)).toNat ≥ opts.writers ∨
        (getBe32 (s.stream.drop 8)).toNat ≥ opts.messages
    · rw [if_pos hrange, if_pos hrange]
    rw [if_neg hrange, if_neg hrange]
    generalize (getBe32 (s.stream.drop 4)).toNat * opts.messages +
      (getBe32 (s.stream.drop 8)).toNat = seenIndex
    by_cases hindex : seenIndex ≥ s.seen.length
    · rw [if_pos hindex, if_pos (.inl hindex)]
    rw [if_neg hindex, seenAt_eq (not_le.mp hindex), accept, if_pos (not_le.mp hindex)]
    simp only [hindex, false_or]
    split_ifs with hbad
    · rfl
    · rfl
  · rw [if_pos (by simpa using hmagic), if_pos hmagic]
    simp only [if_neg (show ¬s.stream.length < 3 by omega)]
    -- the bytes that are kept are the last ones
    rw [read_eq (by omega), List.take_of_length_le (by rw [List.length_drop]; omega)]
    split_ifs with hnone
    · rfl
    · rfl

/-! ## Calls -/

/-- The parser ends, without a fault, where the one without checks does. -/
theorem validateAvailableFrames_eq (opts : TestOptions) (s : SharedState) :
    ∃ s', ConcurrentTest.validateAvailableFrames opts s = some s' ∧
      validateAvailableFrames opts s = .ok s' := by
  obtain ⟨s', hrun, -⟩ := validateAvailableFrames_spec opts (I := fun _ => True)
    (Q := fun _ => True) (fun _ _ _ _ => trivial) (fun _ _ _ _ => trivial) (s := s) trivial
  refine ⟨s', hrun, ?_⟩
  have hmap := Loop.run_map id Except.ok (f := ConcurrentTest.validateStep opts)
    (g := fun s => match validateStep opts s with
      | .error fault => .inr (.error fault)
      | .ok (.inl s) => .inl s
      | .ok (.inr s) => .inr (.ok s))
    (fun s => by
      rw [id, validateStep_eq]
      cases ConcurrentTest.validateStep opts s <;> rfl)
    (s.stream.length + 1) s
  rw [validateAvailableFrames]
  refine (congrArg ended hmap).trans ?_
  rw [show Loop.run (ConcurrentTest.validateStep opts) (s.stream.length + 1) s = some s' from hrun]
  rfl

/-- The state between two calls: less than a frame is left, and the allocation has been doubled at
most once. -/
structure Bounded (opts : TestOptions) (s : SharedState) : Prop where
  residue : s.stream.length < opts.messageSize
  capacity : s.streamCap = 0 ∨ s.streamCap = readChunkSize ∨ s.streamCap = 2 * readChunkSize

/-- At the start everything is in bounds. -/
theorem Bounded.init (opts : TestOptions) : Bounded opts (SharedState.init opts) where
  residue := Nat.lt_of_lt_of_le (show 0 < frameHeaderSize by decide) opts.messageSize_bounds.1
  capacity := .inl rfl

/-- The capacity of the stream is at most two chunks. -/
theorem Bounded.capacity_le {s : SharedState} (h : Bounded opts s) :
    s.streamCap ≤ 2 * readChunkSize := by
  rcases h.capacity with hcap | hcap | hcap <;> omega

/-- Up to two chunks fit the first allocation, or its double. -/
theorem run_growStep {needed : ℕ} (hpos : 0 < needed) (h : needed ≤ 2 * readChunkSize) :
    Loop.run (growStep needed) (needed + 1) readChunkSize =
      some (some (if needed ≤ readChunkSize then readChunkSize else 2 * readChunkSize)) := by
  have hmax : ¬readChunkSize > sizeMax / 2 := by decide
  split_ifs with hfits
  · exact Loop.run_of_exit (by rw [growStep, if_neg (by omega)]) _
  · have hdouble : growStep needed readChunkSize = .inl (2 * readChunkSize) := by
      rw [growStep, if_pos (by omega), if_neg hmax, Nat.mul_comm]
    have hexit : growStep needed (2 * readChunkSize) = .inr (some (2 * readChunkSize)) := by
      rw [growStep, if_neg (by omega)]
    obtain ⟨fuel, rfl⟩ : ∃ fuel, needed = fuel + 1 := ⟨needed - 1, by omega⟩
    rw [Loop.run_of_continue hdouble, Loop.run_of_exit hexit]

/-- For a chunk, `ensure_stream_capacity` does not overflow. It leaves room for the chunk, in an
allocation of two chunks at most, unless `realloc` fails. -/
theorem ensureStreamCapacity_eq {s : SharedState} (h : Bounded opts s) (realloc : ℕ → Bool)
    {extra : ℕ} (hextra : extra ≤ readChunkSize) :
    (ConcurrentTest.ensureStreamCapacity realloc s extra = some none ∧
        ensureStreamCapacity realloc s extra = .ok none) ∨
      ∃ cap, (cap = 0 ∨ cap = readChunkSize ∨ cap = 2 * readChunkSize) ∧
        s.stream.length + extra ≤ cap ∧
        ConcurrentTest.ensureStreamCapacity realloc s extra =
          some (some { s with streamCap := cap }) ∧
        ensureStreamCapacity realloc s extra = .ok (some { s with streamCap := cap }) := by
  have hresidue := h.residue
  have hframe : opts.messageSize ≤ readChunkSize := opts.messageSize_bounds.2
  have hmax : 2 * readChunkSize ≤ sizeMax := by decide
  unfold ensureStreamCapacity ConcurrentTest.ensureStreamCapacity
  dsimp only
  rw [if_neg (show ¬s.stream.length + extra > sizeMax by omega)]
  by_cases hfits : s.stream.length + extra ≤ s.streamCap
  · rw [if_pos hfits, if_pos hfits]
    exact .inr ⟨s.streamCap, h.capacity, hfits, rfl, rfl⟩
  rw [if_neg hfits, if_neg hfits]
  -- what does not fit is in no allocation yet, or in the first one
  have hstart : (if s.streamCap = 0 then readChunkSize else s.streamCap) = readChunkSize := by
    rcases h.capacity with hcap | hcap | hcap
    · rw [if_pos hcap]
    · rw [hcap]
      decide
    · omega
  rw [hstart, run_growStep (by omega) (by omega)]
  generalize hcap :
    (if s.stream.length + extra ≤ readChunkSize then readChunkSize else 2 * readChunkSize) = cap
  have hroom : s.stream.length + extra ≤ cap := by
    rw [← hcap]
    split_ifs <;> omega
  cases hrealloc : realloc cap with
  | false => exact .inl ⟨by simp [hrealloc], by simp [hrealloc]⟩
  | true =>
    refine .inr ⟨cap, ?_, hroom, by simp [hrealloc], by simp [hrealloc]⟩
    rw [← hcap]
    split_ifs
    · exact .inr (.inl rfl)
    · exact .inr (.inr rfl)

/-- A call of `append_and_validate` for a chunk ends without a fault, and in a bounded state. -/
theorem appendAndValidate_eq {s : SharedState} (h : Bounded opts s) (realloc : ℕ → Bool)
    {data : List UInt8} (hdata : data.length ≤ readChunkSize) :
    ∃ s', ConcurrentTest.appendAndValidate opts realloc s data = some s' ∧
      appendAndValidate opts realloc s data = .ok s' ∧ Bounded opts s' := by
  unfold appendAndValidate ConcurrentTest.appendAndValidate
  rcases ensureStreamCapacity_eq h realloc hdata with ⟨hplain, hchecked⟩ |
    ⟨cap, hcap, hroom, hplain, hchecked⟩
  · rw [hplain, hchecked]
    exact ⟨_, rfl, rfl, h.residue, h.capacity⟩
  · rw [hplain, hchecked]
    obtain ⟨s', hrun, hrun'⟩ := validateAvailableFrames_eq opts
      { s with stream := s.stream ++ data, streamCap := cap }
    -- the parser leaves the capacity alone, and less than a frame
    obtain ⟨t, ht, hbounded⟩ := validateAvailableFrames_spec opts
      (I := fun t => t.streamCap = cap)
      (Q := fun t => t.stream.length < opts.messageSize ∧ t.streamCap = cap)
      (fun _ _ hI hstep => hstep.streamCap_eq.trans hI)
      (fun _ _ hI hstep => ⟨hstep.residue_lt, hstep.streamCap_eq.trans hI⟩)
      (s := { s with stream := s.stream ++ data, streamCap := cap }) rfl
    obtain rfl : s' = t := Option.some.inj (hrun.symm.trans ht)
    refine ⟨s', hrun, ?_, hbounded.1, hbounded.2.symm ▸ hcap⟩
    simp only [bind, Except.bind]
    rw [if_neg (by omega)]
    exact hrun'

/-- A sequence of calls of `append_and_validate`, each with its own outcomes of `realloc`. -/
def feed (opts : TestOptions) (s : SharedState) (calls : List ((ℕ → Bool) × List UInt8)) :
    Except Fault SharedState :=
  calls.foldlM (fun s call => appendAndValidate opts call.1 s call.2) s

end Checked

open Checked in
/-- The frame parser ends with a bounded residue on every input. Whatever arrives in chunks of at
most `READ_CHUNK_SIZE`, and whenever `realloc` fails, no call makes an access outside the bytes of
the stream or an index out of `seen`, computes a size beyond `SIZE_MAX` or runs on forever, so the
checked run is the run; and after the last call less than a frame is left, in an allocation of at
most 8192 bytes. -/
theorem feed_bounded (opts : TestOptions) (calls : List ((ℕ → Bool) × List UInt8))
    (hchunks : ∀ call ∈ calls, call.2.length ≤ readChunkSize) :
    ∃ s, Checked.feed opts (SharedState.init opts) calls = .ok s ∧
      calls.foldlM (fun s call => ConcurrentTest.appendAndValidate opts call.1 s call.2)
        (SharedState.init opts) = some s ∧
      s.stream.length < opts.messageSize ∧ s.streamCap ≤ 8192 := by
  -- every call starts and ends in a bounded state
  suffices hgen : ∀ s, Bounded opts s → ∃ s', Checked.feed opts s calls = .ok s' ∧
      calls.foldlM (fun s call => ConcurrentTest.appendAndValidate opts call.1 s call.2) s =
        some s' ∧ Bounded opts s' by
    obtain ⟨s, hchecked, hplain, hbounded⟩ := hgen _ (.init opts)
    exact ⟨s, hchecked, hplain, hbounded.residue, hbounded.capacity_le⟩
  induction calls with
  | nil => exact fun s h => ⟨s, rfl, rfl, h⟩
  | cons call calls ih =>
    intro s h
    obtain ⟨hchunk, hrest⟩ := List.forall_mem_cons.mp hchunks
    obtain ⟨t, hplain, hchecked, hbounded⟩ := appendAndValidate_eq h call.1 hchunk
    obtain ⟨s', hfeed, hfold, h'⟩ := ih hrest t hbounded
    refine ⟨s', ?_, ?_, h'⟩
    · rw [Checked.feed, List.foldlM_cons, hchecked]
      exact hfeed
    · rw [List.foldlM_cons, hplain]
      exact hfold

/-- Garbage, and a chunk that fits the allocation made for it. -/
theorem feed_bounded_smallest :
    ∃ s, Checked.feed .smallest (SharedState.init .smallest)
        [(fun _ => true, List.replicate 30 0x53), (fun _ => false, frameMagic)] = .ok s ∧
      [(fun _ => true, List.replicate 30 0x53), (fun _ => false, frameMagic)].foldlM
        (fun s call => ConcurrentTest.appendAndValidate .smallest call.1 s call.2)
        (SharedState.init .smallest) = some s ∧
      s.stream.length < TestOptions.smallest.messageSize ∧ s.streamCap ≤ 8192 :=
  feed_bounded .smallest _ (by decide)

end ConcurrentTest
