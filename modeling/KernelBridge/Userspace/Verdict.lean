import KernelBridge.Userspace.Stream

/-!
# The verdict on the received stream

Which byte streams the parser accepts without a failure. `Frame` packs a block of bytes with the
message it is a frame of, `Parsed` says that the bytes appended so far are the frames accepted so
far followed by the rest of the stream, and `Parsed.step` and `OnTrack.step` follow one iteration:
the first as long as no failure is counted, the second along a prefix of a sequence of frames of
different messages. Together they give `stream_verdict_exact`: the parser ends without a failure,
without residue and with every frame counted exactly on the concatenations of one frame for each
message.
-/

namespace ConcurrentTest

/-- A block of bytes that is the frame of a message. -/
structure Frame (opts : TestOptions) where
  message : Message opts
  bytes : List UInt8
  isFrame : IsFrame message bytes

variable {opts : TestOptions} {realloc : ℕ → Bool}

/-- The frame of a message as its writer builds it. -/
def Frame.built (message : Message opts) : Frame opts where
  message := message
  bytes := message.frame
  isFrame := isFrame_buildFrame message

/-- The bytes of a sequence of frames. -/
abbrev streamOf (frames : List (Frame opts)) : List UInt8 := frames.flatMap Frame.bytes

/-- `bytes` is a concatenation of frames, one for each message of the run. -/
def CompleteStream (opts : TestOptions) (bytes : List UInt8) : Prop :=
  ∃ frames : List (Frame opts), bytes = streamOf frames ∧
    frames.length = opts.writers * opts.messages ∧
    ∀ message, (frames.map Frame.message).count message = 1

/-- The verdict of `main` on the received stream: no failure, no residue, and every frame
counted. -/
def SharedState.Accepted (opts : TestOptions) (s : SharedState) : Prop :=
  s.stats.validationFailures = 0 ∧ s.stream = [] ∧
    s.stats.framesValidated = opts.writers * opts.messages

/-- A sequence without repetition as long as the number of messages has every message once. -/
theorem count_eq_one {messages : List (Message opts)} (hnodup : messages.Nodup)
    (hlength : messages.length = opts.writers * opts.messages) (message : Message opts) :
    messages.count message = 1 := by
  refine List.count_eq_one_of_mem hnodup ?_
  have huniv : messages.toFinset = Finset.univ := by
    refine Finset.eq_univ_of_card _ ?_
    rw [List.toFinset_card_of_nodup hnodup, card_message, hlength]
  exact List.mem_toFinset.mp (huniv ▸ Finset.mem_univ message)

/-! ## One iteration -/

/-- Before anything is received, every message is fresh. -/
theorem SharedState.fresh_init (message : Message opts) :
    (SharedState.init opts).Fresh message :=
  List.getElem?_replicate_of_lt message.seenIndex_lt

/-- Accepting a frame takes its message, and no other, out of the fresh ones. -/
theorem SharedState.fresh_accept (s : SharedState) (message message' : Message opts) :
    (s.accept message.seenIndex).Fresh message' ↔ message' ≠ message ∧ s.Fresh message' := by
  simp only [SharedState.Fresh, SharedState.accept, List.getElem?_set]
  by_cases heq : message' = message
  · subst heq
    simp
  · rw [if_neg fun h => heq (Message.seenIndex_injective h.symm)]
    simp [heq]

/-- The parser has accepted `frames`, and what it has not consumed is the rest of `bytes`. -/
structure Parsed (frames : List (Frame opts)) (bytes : List UInt8) (s : SharedState) : Prop where
  bytes_eq : bytes = streamOf frames ++ s.stream
  nodup : (frames.map Frame.message).Nodup
  fresh : ∀ message, s.Fresh message ↔ message ∉ frames.map Frame.message
  validated : s.stats.framesValidated = frames.length

/-- At the start nothing is parsed. -/
theorem Parsed.init (opts : TestOptions) :
    Parsed ([] : List (Frame opts)) [] (SharedState.init opts) where
  bytes_eq := rfl
  nodup := List.nodup_nil
  fresh message := by simp [SharedState.fresh_init message]
  validated := rfl

/-- Accepting the frame at the front of the stream. -/
theorem Parsed.accept {frames : List (Frame opts)} {bytes : List UInt8} {s : SharedState}
    (h : Parsed frames bytes s) (frame : Frame opts) {tail : List UInt8}
    (hstream : s.stream = frame.bytes ++ tail) (hfresh : s.Fresh frame.message) :
    Parsed (frames ++ [frame]) bytes
      ((s.accept frame.message.seenIndex).consumeStream opts.messageSize) where
  bytes_eq := by
    -- a frame is as long as the message size, so exactly this frame is consumed
    have htail : s.stream.drop opts.messageSize = tail := by
      rw [hstream, ← frame.isFrame.size, List.drop_left]
    rw [SharedState.consumeStream_stream]
    change bytes = streamOf (frames ++ [frame]) ++ s.stream.drop opts.messageSize
    rw [htail, h.bytes_eq, hstream]
    simp
  nodup := by
    rw [List.map_append, List.nodup_append_comm]
    exact List.nodup_cons.mpr ⟨(h.fresh _).mp hfresh, h.nodup⟩
  fresh message := by
    have hseen : ((s.accept frame.message.seenIndex).consumeStream opts.messageSize).Fresh message ↔
        (s.accept frame.message.seenIndex).Fresh message := by
      rw [SharedState.Fresh, SharedState.consumeStream_seen, SharedState.Fresh]
    rw [hseen, SharedState.fresh_accept, h.fresh]
    simp [and_comm]
  validated := by
    rw [SharedState.consumeStream_stats, List.length_append]
    exact congrArg (· + 1) h.validated

/-- As long as no failure is counted, the parser has accepted a sequence of frames and kept the
rest. -/
def Sound (opts : TestOptions) (bytes : List UInt8) (s : SharedState) : Prop :=
  s.stats.validationFailures = 0 → ∃ frames : List (Frame opts), Parsed frames bytes s

/-- One iteration keeps the parser sound: it accepts a frame, counts a failure or waits. -/
theorem Sound.step {bytes : List UInt8} {s : SharedState} {r : SharedState ⊕ SharedState}
    (h : Sound opts bytes s) (hstep : ValidateStep opts s r) : Sound opts bytes (r.elim id id) := by
  cases hstep with
  | short | incomplete => exact h
  | noMagic => exact fun hzero => absurd hzero (Nat.succ_ne_zero _)
  | skip | badLength | badFrame =>
    intro hzero
    rw [Sum.elim_inl, id, SharedState.consumeStream_stats] at hzero
    exact absurd hzero (Nat.succ_ne_zero _)
  | goodFrame message header size fresh frame =>
    intro hzero
    rw [Sum.elim_inl, id, SharedState.consumeStream_stats] at hzero
    obtain ⟨frames, hparsed⟩ := h hzero
    exact ⟨_, hparsed.accept ⟨message, _, frame⟩ (List.take_append_drop _ _).symm fresh⟩

/-- What arrives of a frame starts with its header. -/
theorem Header.of_prefix {frame : Frame opts} {stream tail : List UInt8}
    (h : stream <+: frame.bytes ++ tail) (hsize : frameHeaderSize ≤ stream.length) :
    Header opts stream := by
  have hbounds : 20 ≤ frame.bytes.length := frame.isFrame.size ▸ opts.messageSize_bounds.1
  change 20 ≤ stream.length at hsize
  have hlength := h.length_le
  rw [List.prefix_iff_eq_take] at h
  refine ⟨hsize, ?_, ?_⟩
  · rw [h, List.take_take, Nat.min_eq_left (by omega), List.take_append_of_le_length (by omega),
      frame.isFrame.magic]
  · rw [h, getBe32_drop_take (by omega) hlength, List.drop_append_of_le_length (by omega),
      getBe32_append _ (by rw [List.length_drop]; omega), frame.isFrame.payloadLen]

/-- One iteration on a stream that is a prefix of a sequence of frames of fresh messages: the
first frame is accepted if it is there, and the parser waits otherwise. -/
theorem ValidateStep.on_track {s : SharedState} {r : SharedState ⊕ SharedState}
    (h : ValidateStep opts s r) {todo : List (Frame opts)} (hpre : s.stream <+: streamOf todo)
    (hfresh : ∀ frame ∈ todo, s.Fresh frame.message) :
    (r = .inr s ∧ s.stream.length < opts.messageSize) ∨
      ∃ frame rest tail, todo = frame :: rest ∧ s.stream = frame.bytes ++ tail ∧
        tail <+: streamOf rest ∧
        r = .inl ((s.accept frame.message.seenIndex).consumeStream opts.messageSize) := by
  by_cases hshort : s.stream.length < frameHeaderSize
  · have hbounds := opts.messageSize_bounds
    -- every other branch needs a whole header
    cases h with
    | short => exact .inl ⟨rfl, by omega⟩
    | noMagic size | skip _ size | badLength size => omega
    | incomplete header | badFrame header | goodFrame _ header =>
      have := header.size
      omega
  rw [not_lt] at hshort
  rcases todo with _ | ⟨frame, rest⟩
  · rw [List.prefix_nil.mp hpre] at hshort
    exact absurd hshort (by decide)
  rw [streamOf, List.flatMap_cons] at hpre
  have hheader := Header.of_prefix hpre hshort
  -- a stream as long as a frame starts with the first one
  have hfront (hsize : opts.messageSize ≤ s.stream.length) :
      s.stream = frame.bytes ++ s.stream.drop opts.messageSize ∧
        s.stream.drop opts.messageSize <+: streamOf rest := by
    obtain ⟨tail, htail⟩ := List.prefix_of_prefix_length_le (List.prefix_append _ _) hpre
      (by rw [frame.isFrame.size]; exact hsize)
    have hdrop : s.stream.drop opts.messageSize = tail := by
      rw [← htail, ← frame.isFrame.size, List.drop_left]
    rw [hdrop, htail]
    exact ⟨rfl, (List.prefix_append_right_inj _).mp (htail ▸ hpre)⟩
  have htake (hsize : opts.messageSize ≤ s.stream.length) :
      s.stream.take opts.messageSize = frame.bytes := by
    rw [(hfront hsize).1, ← frame.isFrame.size, List.take_left]
  cases h with
  | short h => omega
  | noMagic _ absent => exact absurd hheader.magic (absent 0 (le_trans (by decide) hshort))
  | skip _ _ pos absent => exact absurd hheader.magic (absent 0 pos).2
  | badLength _ _ bad => exact absurd hheader bad
  | incomplete _ short => exact .inl ⟨rfl, short⟩
  | badFrame _ size bad =>
    exact absurd (htake size ▸ frame.isFrame) (bad _ (hfresh frame List.mem_cons_self))
  | goodFrame message _ size _ isFrame =>
    rw [htake size] at isFrame
    obtain rfl := frame.isFrame.message_unique isFrame
    exact .inr ⟨frame, rest, _, rfl, (hfront size).1, (hfront size).2, rfl⟩

/-- The parser has accepted `done` without a failure, and the rest of the stream is a prefix of
`todo`. -/
structure OnTrack (done todo : List (Frame opts)) (bytes : List UInt8) (s : SharedState) : Prop
    extends Parsed done bytes s where
  failures : s.stats.validationFailures = 0
  stream_prefix : s.stream <+: streamOf todo

/-- One iteration moves at most one frame from `todo` to `done`; the parser returns when the rest
is shorter than a frame. -/
theorem OnTrack.step {done todo : List (Frame opts)} {bytes : List UInt8} {s : SharedState}
    {r : SharedState ⊕ SharedState} (h : OnTrack done todo bytes s)
    (hnodup : ((done ++ todo).map Frame.message).Nodup) (hstep : ValidateStep opts s r) :
    (r = .inr s ∧ s.stream.length < opts.messageSize) ∨
      ∃ frame rest s', todo = frame :: rest ∧ r = .inl s' ∧
        OnTrack (done ++ [frame]) rest bytes s' := by
  rw [List.map_append] at hnodup
  have hfresh : ∀ frame ∈ todo, s.Fresh frame.message := fun frame hmem =>
    (h.fresh _).mpr fun hdone =>
      List.disjoint_of_nodup_append hnodup hdone (List.mem_map_of_mem hmem)
  rcases hstep.on_track h.stream_prefix hfresh with hwait | ⟨frame, rest, tail, rfl, heq, htail, rfl⟩
  · exact .inl hwait
  refine .inr ⟨frame, rest, _, rfl, rfl, ?_⟩
  exact {
    toParsed := h.toParsed.accept frame heq (hfresh frame List.mem_cons_self)
    failures := by
      rw [SharedState.consumeStream_stats]
      exact h.failures
    stream_prefix := by
      rw [SharedState.consumeStream_stream]
      change s.stream.drop opts.messageSize <+: _
      rwa [heq, ← frame.isFrame.size, List.drop_left] }

/-- What is appended to the stream continues it along the frames that are left. -/
theorem OnTrack.append {done todo : List (Frame opts)} {bytes data : List UInt8} {s : SharedState}
    (h : OnTrack done todo bytes s) (hpre : bytes ++ data <+: streamOf (done ++ todo)) (cap : ℕ) :
    OnTrack done todo (bytes ++ data) { s with stream := s.stream ++ data, streamCap := cap } where
  bytes_eq := by rw [h.bytes_eq, List.append_assoc]
  nodup := h.nodup
  fresh := h.fresh
  validated := h.validated
  failures := h.failures
  stream_prefix := by
    simp only [h.bytes_eq, List.flatMap_append, List.append_assoc] at hpre
    exact (List.prefix_append_right_inj _).mp hpre

/-! ## Sequences of calls -/

/-- Between two calls on a prefix of `frames`, the parser is on track, and waits for the rest of a
frame. -/
def Waiting (frames : List (Frame opts)) (bytes : List UInt8) (s : SharedState) : Prop :=
  bytes <+: streamOf frames →
    ∃ done todo, frames = done ++ todo ∧ OnTrack done todo bytes s ∧
      s.stream.length < opts.messageSize

/-- Every sequence of calls returns; unless an allocation has failed, the parser is sound, and
waits along every sequence of frames of different messages that the bytes are a prefix of. -/
theorem feed_followed (opts : TestOptions) (realloc : ℕ → Bool) (chunks : List (List UInt8)) :
    ∃ s, feed opts realloc (SharedState.init opts) chunks = some s ∧
      (s.stop = false → Sound opts chunks.flatten s ∧
        ∀ frames : List (Frame opts), (frames.map Frame.message).Nodup →
          Waiting frames chunks.flatten s) := by
  refine feed_spec
    (I := fun bytes s => Sound opts bytes s ∧
      ∀ frames : List (Frame opts), (frames.map Frame.message).Nodup → Waiting frames bytes s)
    (J := fun bytes s => Sound opts bytes s ∧
      ∀ frames : List (Frame opts), (frames.map Frame.message).Nodup →
        bytes <+: streamOf frames → ∃ done todo, frames = done ++ todo ∧ OnTrack done todo bytes s)
    ?_ ?_ ?_ chunks [] ⟨fun _ => ⟨[], Parsed.init opts⟩, ?_⟩
  · -- appending a chunk: what is not consumed grows by it
    rintro bytes s data cap ⟨hsound, hwait⟩
    refine ⟨fun hzero => ?_, fun frames hnodup hpre => ?_⟩
    · obtain ⟨frames, h⟩ := hsound hzero
      exact ⟨frames, { h with bytes_eq := by rw [h.bytes_eq, List.append_assoc] }⟩
    · obtain ⟨done, todo, rfl, h, -⟩ := hwait frames hnodup ((List.prefix_append _ _).trans hpre)
      exact ⟨done, todo, rfl, h.append hpre cap⟩
  · -- the parser goes on, so it has accepted the next frame
    rintro bytes s s' ⟨hsound, htrack⟩ hstep
    refine ⟨hsound.step hstep, fun frames hnodup hpre => ?_⟩
    obtain ⟨done, todo, rfl, h⟩ := htrack frames hnodup hpre
    rcases h.step hnodup hstep with ⟨heq, -⟩ | ⟨frame, rest, t, rfl, heq, ht⟩
    · exact absurd heq (by simp)
    · obtain rfl := Sum.inl.inj heq
      exact ⟨done ++ [frame], rest, by simp, ht⟩
  · rintro bytes s s' ⟨hsound, htrack⟩ hstep
    refine ⟨hsound.step hstep, fun frames hnodup hpre => ?_⟩
    obtain ⟨done, todo, rfl, h⟩ := htrack frames hnodup hpre
    -- the parser returns, so it waits for the rest of a frame
    rcases h.step hnodup hstep with ⟨heq, hshort⟩ | ⟨frame, rest, t, rfl, heq, -⟩
    · obtain rfl := Sum.inr.inj heq
      exact ⟨done, todo, rfl, h, hshort⟩
    · exact absurd heq (by simp)
  · intro frames _ _
    have hpos : 0 < opts.messageSize :=
      Nat.lt_of_lt_of_le (by decide) opts.messageSize_bounds.1
    exact ⟨[], frames, rfl,
      { Parsed.init opts with failures := rfl, stream_prefix := List.nil_prefix }, hpos⟩

/-- A parser that waits at the end of a sequence of frames has accepted all of them. -/
theorem Waiting.all_accepted {frames : List (Frame opts)} {bytes : List UInt8} {s : SharedState}
    (h : Waiting frames bytes s) (heq : bytes = streamOf frames) :
    s.stats.validationFailures = 0 ∧ s.stream = [] ∧
      s.stats.framesValidated = frames.length := by
  obtain ⟨done, todo, rfl, htrack, hshort⟩ := h (heq ▸ List.prefix_rfl)
  have hrest : s.stream = streamOf todo := by
    have := htrack.bytes_eq
    rw [heq, streamOf, List.flatMap_append] at this
    exact (List.append_cancel_left this).symm
  -- a frame that is left would be in the stream
  rcases todo with _ | ⟨frame, rest⟩
  · exact ⟨htrack.failures, hrest, by simpa using htrack.validated⟩
  · rw [hrest, streamOf, List.flatMap_cons, List.length_append, frame.isFrame.size] at hshort
    omega

/-- However a byte stream is cut into chunks, the parser returns, and unless an allocation has
failed, which sets the stop flag, it ends without a failure, without residue and with every frame
counted exactly when the stream is a concatenation of one frame for each message; the frames that
`build_frame` builds are accepted in every order. -/
theorem stream_verdict_exact (opts : TestOptions) (realloc : ℕ → Bool)
    (chunks : List (List UInt8)) :
    ∃ s, feed opts realloc (SharedState.init opts) chunks = some s ∧
      (Allocates realloc chunks → s.stop = false) ∧
      (s.stop = false →
        (s.Accepted opts ↔ CompleteStream opts chunks.flatten) ∧
          ∀ order : List (Message opts), (∀ message, order.count message = 1) →
            chunks.flatten = order.flatMap Message.frame → s.Accepted opts) := by
  obtain ⟨s, hfeed, hs⟩ := feed_followed opts realloc chunks
  refine ⟨s, hfeed, fun halloc => feed_not_stopped halloc rfl (Nat.zero_le _) hfeed,
    fun hstop => ?_⟩
  obtain ⟨hsound, hwait⟩ := hs hstop
  have hcomplete : s.Accepted opts ↔ CompleteStream opts chunks.flatten := by
    constructor
    · rintro ⟨hfailures, hstream, hvalidated⟩
      -- no failure was counted, so frames were accepted, as many as there are messages
      obtain ⟨frames, h⟩ := hsound hfailures
      have hlength : frames.length = opts.writers * opts.messages := h.validated ▸ hvalidated
      refine ⟨frames, by rw [h.bytes_eq, hstream, List.append_nil], hlength, ?_⟩
      exact count_eq_one h.nodup (by rw [List.length_map, hlength])
    · rintro ⟨frames, heq, hlength, honce⟩
      have hnodup : (frames.map Frame.message).Nodup :=
        List.nodup_iff_count_le_one.mpr fun message => (honce message).le
      obtain ⟨hfailures, hstream, hvalidated⟩ := (hwait frames hnodup).all_accepted heq
      exact ⟨hfailures, hstream, hvalidated.trans hlength⟩
  refine ⟨hcomplete, fun order honce heq => hcomplete.mpr ?_⟩
  have hmessages : (order.map Frame.built).map Frame.message = order := by
    rw [List.map_map]
    exact List.map_id order
  refine ⟨order.map Frame.built, ?_, ?_, fun message => by rw [hmessages, honce]⟩
  · rw [heq, streamOf, List.flatMap_map]
    rfl
  · -- an order lists every message once, so there are as many frames as messages
    have hperm : order.Perm Finset.univ.toList :=
      List.perm_iff_count.mpr fun message => by
        rw [honce, List.count_eq_one_of_mem (Finset.nodup_toList _) (by simp)]
    rw [List.length_map, hperm.length_eq, Finset.length_toList, Finset.card_univ, card_message]

/-- The smallest run: one writer, one message, and a frame without payload. -/
def TestOptions.smallest : TestOptions where
  writers := 1
  readers := 1
  messages := 1
  messageSize := 20
  writers_bounds := by decide
  readers_bounds := by decide
  messages_bounds := by decide
  messageSize_bounds := by decide

/-- The message of the smallest run. -/
def Message.only : Message .smallest := (⟨0, by decide⟩, ⟨0, by decide⟩)

/-- The one frame of the smallest run is accepted when it arrives in two pieces, cut inside the
magic. -/
theorem stream_verdict_exact_smallest :
    ∃ s, feed .smallest (fun _ => true) (SharedState.init .smallest)
        [[0x53, 0x43], Message.only.frame.drop 2] = some s ∧
      s.Accepted .smallest := by
  obtain ⟨s, hfeed, hstop, h⟩ := stream_verdict_exact .smallest (fun _ => true)
    [[0x53, 0x43], Message.only.frame.drop 2]
  exact ⟨s, hfeed, (h (hstop ⟨fun _ => rfl, by decide⟩)).2 [Message.only] (by decide) rfl⟩

end ConcurrentTest
