import KernelBridge.Driver.Copying

/-!
# The progress of the copy loops

The copy loops of `ringbuf_char_read` and `ringbuf_char_write` run under the mutex. An iteration
whose user copy does not fail moves a nonempty chunk. The first chunk reaches what was asked for or
the end of the allocation, and behind the end the next span starts at the front of the allocation
and is the whole rest, so there is no third iteration.

Main result: `copy_loops_progress`.
-/

namespace RingbufChar

open Buffer

namespace Buffer

variable {b : Buffer}

/-- A consumption that ends at the end of the allocation leaves `readPos` at its front. -/
theorem readPos_consume (h : b.WellFormed) {k : ℕ} (hpos : 0 < k) (hle : k ≤ b.len)
    (hend : b.readPos + k = b.capacity) : (b.consume k).readPos = 0 := by
  rcases eq_or_lt_of_le hle with rfl | hlt
  · rw [consume_of_le h.data_ne_nil hpos le_rfl]
    rfl
  · rw [consume_of_lt h.data_ne_nil hpos hlt]
    dsimp only
    rw [hend, Nat.mod_self]

/-- A commit that ends at the end of the allocation leaves `writePos` at its front. -/
theorem writePos_commit (h : b.WellFormed) {k : ℕ} (hpos : 0 < k) (hle : k ≤ b.capacity - b.len)
    (hend : b.writePos + k = b.capacity) : (b.commit k).writePos = 0 := by
  rw [commit, if_neg (by simp [h.data_ne_nil]; omega)]
  dsimp only
  rw [h.available_eq, Nat.min_eq_left hle, hend, Nat.mod_self]

end Buffer

namespace Dev

variable {dev : Dev} {uc : UserCopy} {count : ℕ} {data : List UInt8}

/-! ## Reading -/

/-- What the loop has delivered is no longer counted. -/
theorem ReadCopyInv.len_eq (h : dev.buffer.WellFormed) {copied : List UInt8} {d : Dev}
    (hinv : ReadCopyInv dev count copied d) : d.buffer.len = dev.buffer.len - copied.length := by
  have hle := hinv.le
  rw [hinv.dev_eq]
  dsimp only
  rw [len_consume h, Nat.min_eq_left (by omega)]

/-- The copy loop of a read after `n` iterations: whole after two of them, and after one of them
whole or at the front of the allocation. -/
structure ReadProgress (dev : Dev) (count n : ℕ) (copied : List UInt8) (d : Dev) : Prop extends
    ReadCopyInv dev count copied d where
  wrapped : 0 < n → copied.length = min count dev.buffer.len ∨ d.buffer.readPos = 0
  whole : 1 < n → copied.length = min count dev.buffer.len

/-- An iteration that continues moves its whole chunk, which reaches the end of the allocation or
is all that is left to move. -/
theorem readCopyStep_of_continue (h : dev.buffer.WellFormed) {i i' : ℕ}
    {copied copied' : List UInt8} {d d' : Dev} (hinv : ReadCopyInv dev count copied d)
    (hs : readCopyStep count uc (i, copied, d) = .inl (i', copied', d')) :
    ReadCopyInv dev count copied' d' ∧ copied.length < min count dev.buffer.len ∧
      ∃ span, 0 < span ∧ d.buffer.readPos + span ≤ d.buffer.capacity ∧
        (span < dev.buffer.len - copied.length → d.buffer.readPos + span = d.buffer.capacity) ∧
        copied'.length = copied.length + min (count - copied.length) span ∧
        d'.buffer = d.buffer.consume (min (count - copied.length) span) := by
  have hmore := more_of_readCopyStep hs
  obtain ⟨chunk, copied₁, d₁, hchunk, -, hfit, hinv₁, hlength, hstep⟩ :=
    readCopyStep_eq uc h hinv hmore i
  rw [hstep] at hs
  split_ifs at hs with hmiss
  cases hs
  rw [ne_eq, not_not] at hmiss
  have hd := hinv.dev_eq
  have hwf : d.buffer.WellFormed := hd ▸ wellFormed_consume h _
  have hlen := hinv.len_eq h
  obtain ⟨span, hspan, hpos, -, hle, hend, -⟩ := readSpan_spec hwf hmore.2
  rw [hspan] at hchunk
  rw [hmiss, Nat.sub_zero] at hlength
  refine ⟨hinv₁, by omega, span, hpos, hle, hlen ▸ hend, by rw [hlength, hchunk], ?_⟩
  rw [← hchunk, hinv₁.dev_eq, hd, hlength]
  exact (consume_consume h (by omega)).symm

/-- An iteration that continues brings the loop one iteration further. -/
theorem ReadProgress.step (h : dev.buffer.WellFormed) {n i i' : ℕ} {copied copied' : List UInt8}
    {d d' : Dev} (hinv : ReadProgress dev count n copied d)
    (hs : readCopyStep count uc (i, copied, d) = .inl (i', copied', d')) :
    ReadProgress dev count (n + 1) copied' d' := by
  obtain ⟨hnext, hless, span, hpos, hle, hend, hlength, hbuffer⟩ :=
    readCopyStep_of_continue h hinv.toReadCopyInv hs
  have hd := hinv.dev_eq
  have hwf : d.buffer.WellFormed := hd ▸ wellFormed_consume h _
  have hlen := hinv.len_eq h
  have hcapacity := hwf.len_le
  have hfit := hnext.le
  refine ⟨hnext, fun _ => ?_, fun hn => ?_⟩
  · by_cases hall : copied'.length = min count dev.buffer.len
    · exact .inl hall
    · -- the chunk was the span, and the span did not hold all that is stored
      right
      rw [hbuffer]
      exact readPos_consume hwf (by omega) (by omega) (by omega)
  · -- behind the end of the allocation the span holds all that is stored
    rcases hinv.wrapped (by omega) with hwhole | hfront <;> omega

/-- The copy loop of a read after any number of iterations. -/
theorem readProgress_of_after (h : dev.buffer.WellFormed) {n i : ℕ} {copied : List UInt8} {d : Dev}
    (hafter : Loop.After (readCopyStep count uc) (0, [], dev) n (i, copied, d)) :
    ReadProgress dev count n copied d :=
  hafter.invariant (I := fun n s => ReadProgress dev count n s.2.1 s.2.2)
    ⟨⟨by simp, by simp, by simp⟩, by simp, by simp⟩ fun _ _ _ hinv hs => hinv.step h hs

/-- What an iteration of the copy loop of a read does: it asks for a nonempty chunk, and if the
user copy does not fail the chunk moves from the buffer to the user. -/
structure ReadMoves (count : ℕ) (uc : UserCopy) (i : ℕ) (copied : List UInt8) (d : Dev) : Prop where
  chunk_pos : 0 < min (count - copied.length) d.buffer.readSpan.1
  moves : uc.missing i (min (count - copied.length) d.buffer.readSpan.1) = 0 →
    ∃ copied' d', readCopyStep count uc (i, copied, d) = .inl (i + 1, copied', d') ∧
      copied.length < copied'.length ∧ d'.buffer.len < d.buffer.len

/-- While there is something to copy, an iteration moves a chunk unless the user copy fails. -/
theorem ReadCopyInv.moves (h : dev.buffer.WellFormed) {copied : List UInt8} {d : Dev}
    (hinv : ReadCopyInv dev count copied d) (hmore : copied.length < count ∧ d.buffer.stored > 0)
    (i : ℕ) : ReadMoves count uc i copied d := by
  obtain ⟨chunk, copied', d', hchunk, hpos, hfit, hinv', hlength, hstep⟩ :=
    readCopyStep_eq uc h hinv hmore i
  refine ⟨hchunk ▸ hpos, fun hmiss => ?_⟩
  rw [← hchunk] at hmiss
  rw [hmiss, Nat.sub_zero] at hlength
  rw [if_neg (not_not.mpr hmiss)] at hstep
  refine ⟨copied', d', hstep, by omega, ?_⟩
  rw [hinv'.len_eq h, hinv.len_eq h]
  omega

/-- Every iteration of the copy loop of a read moves its chunk, and it is one of the first two. -/
theorem readMoves_of_after (h : dev.buffer.WellFormed) {n i : ℕ} {copied : List UInt8} {d : Dev}
    (hafter : Loop.After (readCopyStep count uc) (0, [], dev) n (i, copied, d))
    (hmore : copied.length < count ∧ d.buffer.stored > 0) :
    n < 2 ∧ ReadMoves count uc i copied d := by
  have hprogress := readProgress_of_after h hafter
  have hlen := hprogress.len_eq h
  have hstored : d.buffer.len > 0 := hmore.2
  refine ⟨?_, hprogress.toReadCopyInv.moves h hmore i⟩
  by_contra hn
  -- after two iterations nothing is left to move
  have := hprogress.whole (by omega)
  omega

/-- The copy loop of a read leaves at its third test or before. -/
theorem exists_run_readCopyStep (h : dev.buffer.WellFormed) (count : ℕ) (uc : UserCopy) :
    ∃ r, Loop.run (readCopyStep count uc) 3 (0, [], dev) = some r := by
  refine Loop.run_of_after (fun n s s' hafter hstep => ?_) (by decide)
  obtain ⟨i, copied, d⟩ := s
  exact Nat.succ_lt_succ (readMoves_of_after h hafter (more_of_readCopyStep hstep)).1

/-! ## Writing -/

/-- The copy loop of a write after `n` iterations: whole after two of them, and after one of them
whole or at the front of the allocation. -/
structure WriteProgress (dev : Dev) (data : List UInt8) (n copied : ℕ) (d : Dev) : Prop extends
    WriteCopyInv dev data copied d where
  wrapped : 0 < n →
    copied = min data.length (dev.buffer.capacity - dev.buffer.len) ∨ d.buffer.writePos = 0
  whole : 1 < n → copied = min data.length (dev.buffer.capacity - dev.buffer.len)

/-- An iteration that continues moves its whole chunk, which reaches the end of the allocation or
is all that is left to move. -/
theorem writeCopyStep_of_continue {i i' copied copied' : ℕ} {d d' : Dev}
    (hinv : WriteCopyInv dev data copied d)
    (hs : writeCopyStep data (min data.length (dev.buffer.capacity - dev.buffer.len)) uc
      (i, copied, d) = .inl (i', copied', d')) :
    WriteCopyInv dev data copied' d' ∧ ∃ span, 0 < span ∧
      d.buffer.writePos + span ≤ d.buffer.capacity ∧
      (span < d.buffer.capacity - d.buffer.len → d.buffer.writePos + span = d.buffer.capacity) ∧
      copied' = copied +
        min (min data.length (dev.buffer.capacity - dev.buffer.len) - copied) span ∧
      (d.buffer.writePos + (copied' - copied) = d.buffer.capacity → d'.buffer.writePos = 0) := by
  have hnext := (hinv.of_continue hs).1
  have hwf := hinv.transfer.wellFormed
  have hlen := hinv.transfer.len_eq
  have hcap := hinv.transfer.capacity_eq
  have hmore := more_of_writeCopyStep hs
  obtain ⟨span, hspan, hpos, hroom, hle, hend⟩ := writeSpan_spec hwf (by omega)
  rw [writeCopyStep, if_pos hmore] at hs
  simp only [hspan] at hs
  generalize hchunk :
    min (min data.length (dev.buffer.capacity - dev.buffer.len) - copied) span = chunk at hs
  split_ifs at hs with hnone hmiss
  cases hs
  rw [ne_eq, not_not] at hmiss
  rw [hmiss, Nat.sub_zero] at hnext ⊢
  refine ⟨hnext, span, hpos, hle, hend, by rw [hchunk], fun hfront => ?_⟩
  -- the block that is stored is as long as the chunk, so the buffer stays well formed
  have hnil : uc.scribble i 0 = [] := List.eq_nil_of_length_eq_zero (uc.length_scribble i 0)
  have hfits : d.buffer.writePos + ((data.drop copied).take chunk).length ≤ d.buffer.capacity := by
    rw [List.length_take]
    omega
  have hstore := wellFormed_store hwf hfits
  rw [hnil, List.append_nil]
  exact writePos_commit hstore (Nat.pos_of_ne_zero hnone) (by dsimp only [store]; omega)
    (by dsimp only [store]; omega)

/-- An iteration that continues brings the loop one iteration further. -/
theorem WriteProgress.step {n i i' copied copied' : ℕ} {d d' : Dev}
    (hinv : WriteProgress dev data n copied d)
    (hs : writeCopyStep data (min data.length (dev.buffer.capacity - dev.buffer.len)) uc
      (i, copied, d) = .inl (i', copied', d')) : WriteProgress dev data (n + 1) copied' d' := by
  obtain ⟨hnext, span, hpos, hle, hend, hcopied, hfront⟩ :=
    writeCopyStep_of_continue hinv.toWriteCopyInv hs
  have hlen := hinv.transfer.len_eq
  have hcap := hinv.transfer.capacity_eq
  have hfit := hnext.le
  refine ⟨hnext, fun _ => ?_, fun hn => ?_⟩
  · by_cases hall : copied' = min data.length (dev.buffer.capacity - dev.buffer.len)
    · exact .inl hall
    · -- the chunk was the span, and the span was not all that is free
      exact .inr (hfront (by omega))
  · -- behind the end of the allocation the span is all that is free
    rcases hinv.wrapped (by omega) with hwhole | hwrap <;> omega

/-- The copy loop of a write after any number of iterations. -/
theorem writeProgress_of_after (h : dev.buffer.WellFormed) {n i copied : ℕ} {d : Dev}
    (hafter : Loop.After
      (writeCopyStep data (min data.length (dev.buffer.capacity - dev.buffer.len)) uc) (0, 0, dev)
      n (i, copied, d)) : WriteProgress dev data n copied d :=
  hafter.invariant (I := fun n s => WriteProgress dev data n s.2.1 s.2.2)
    ⟨⟨.start h data, by simp, rfl⟩, by simp, by simp⟩ fun _ _ _ hinv hs => hinv.step hs

/-- What an iteration of the copy loop of a write does, which moves `writable` bytes at most: its
guard against an empty chunk is not taken, and if the user copy does not fail the chunk moves from
the user to the buffer. -/
structure WriteMoves (data : List UInt8) (writable : ℕ) (uc : UserCopy) (i copied : ℕ) (d : Dev) :
    Prop where
  chunk_ne_zero : min (writable - copied) d.buffer.writeSpan.1 ≠ 0
  moves : uc.missing i (min (writable - copied) d.buffer.writeSpan.1) = 0 →
    ∃ copied' d', writeCopyStep data writable uc (i, copied, d) = .inl (i + 1, copied', d') ∧
      copied < copied' ∧ d.buffer.len < d'.buffer.len

/-- While there is something to copy, an iteration moves a chunk unless the user copy fails. -/
theorem WriteCopyInv.moves {copied : ℕ} {d : Dev} (hinv : WriteCopyInv dev data copied d)
    (hmore : copied < min data.length (dev.buffer.capacity - dev.buffer.len)) (i : ℕ) :
    WriteMoves data (min data.length (dev.buffer.capacity - dev.buffer.len)) uc i copied d := by
  obtain ⟨chunk, d', hchunk, hpos, -, hinv', hstep⟩ := writeCopyStep_eq uc hinv hmore i
  refine ⟨hchunk ▸ hpos.ne', fun hmiss => ?_⟩
  rw [← hchunk] at hmiss
  rw [if_neg (not_not.mpr hmiss)] at hstep
  have hlen := hinv.transfer.len_eq
  have hlen' := hinv'.transfer.len_eq
  exact ⟨_, d', hstep, by omega, by omega⟩

/-- Every iteration of the copy loop of a write moves its chunk, and it is one of the first two. -/
theorem writeMoves_of_after (h : dev.buffer.WellFormed) {n i copied : ℕ} {d : Dev}
    (hafter : Loop.After
      (writeCopyStep data (min data.length (dev.buffer.capacity - dev.buffer.len)) uc) (0, 0, dev)
      n (i, copied, d))
    (hmore : copied < min data.length (dev.buffer.capacity - dev.buffer.len)) :
    n < 2 ∧
      WriteMoves data (min data.length (dev.buffer.capacity - dev.buffer.len)) uc i copied d := by
  have hprogress := writeProgress_of_after h hafter
  refine ⟨?_, hprogress.toWriteCopyInv.moves hmore i⟩
  by_contra hn
  have := hprogress.whole (by omega)
  omega

/-- The copy loop of a write leaves at its third test or before. -/
theorem exists_run_writeCopyStep (h : dev.buffer.WellFormed) (data : List UInt8) (uc : UserCopy) :
    ∃ r, Loop.run
      (writeCopyStep data (min data.length (dev.buffer.capacity - dev.buffer.len)) uc) 3
      (0, 0, dev) = some r := by
  refine Loop.run_of_after (fun n s s' hafter hstep => ?_) (by decide)
  obtain ⟨i, copied, d⟩ := s
  exact Nat.succ_lt_succ (writeMoves_of_after h hafter (more_of_writeCopyStep hstep)).1

end Dev

open Dev in
/-- The copy loops make progress and stop after at most two spans. In every state of a well-formed
buffer, for every count and all outcomes of the user copies, an iteration that does not fault moves
at least one byte, the guard of the write loop against an empty chunk is not taken, and no iteration
is behind two others, so each loop leaves at its third test or before. -/
theorem copy_loops_progress {dev : Dev} (hwf : dev.buffer.WellFormed) (uc : UserCopy) :
    (∀ count,
      (∀ n i copied d, Loop.After (readCopyStep count uc) (0, [], dev) n (i, copied, d) →
        copied.length < count ∧ d.buffer.stored > 0 →
          n < 2 ∧ ReadMoves count uc i copied d) ∧
      ∃ r, Loop.run (readCopyStep count uc) 3 (0, [], dev) = some r) ∧
    ∀ data : List UInt8,
      (∀ n i copied d,
        Loop.After (writeCopyStep data (min data.length dev.buffer.available) uc) (0, 0, dev) n
          (i, copied, d) →
        copied < min data.length dev.buffer.available →
          n < 2 ∧ WriteMoves data (min data.length dev.buffer.available) uc i copied d) ∧
      ∃ r, Loop.run (writeCopyStep data (min data.length dev.buffer.available) uc) 3 (0, 0, dev) =
        some r := by
  rw [hwf.available_eq]
  refine ⟨fun count => ⟨?_, exists_run_readCopyStep hwf count uc⟩,
    fun data => ⟨?_, exists_run_writeCopyStep hwf data uc⟩⟩
  · intro n i copied d hafter hmore
    exact readMoves_of_after hwf hafter hmore
  · intro n i copied d hafter hmore
    exact writeMoves_of_after hwf hafter hmore

open Dev in
/-- The second span of a read that wraps around the end of the block, and the loop of a write. -/
theorem copy_loops_progress_wrapped :
    (1 < 2 ∧ ReadMoves 20 .accessible 1 (List.replicate 6 7)
      { wrapped with buffer := wrapped.buffer.consume 6 }) ∧
    ∃ r, Loop.run (writeCopyStep [1, 2, 3] (min 3 wrapped.buffer.available) .accessible) 3
      (0, 0, wrapped) = some r :=
  have hprogress := copy_loops_progress wellFormed_wrapped .accessible
  ⟨(hprogress.1 20).1 1 1 _ _ (.succ .zero rfl) (by decide), (hprogress.2 [1, 2, 3]).2⟩

end RingbufChar
