import KernelBridge.Userspace.Verdict

/-!
# Resynchronisation

A stream that starts with garbage. As long as the magic does not occur before the first frame, the
parser drops the garbage and nothing else, however the stream is cut into reads: a search stops at
the first magic, and one without a result keeps the three bytes in which a magic may have started.

`Searching` and `Tracking` are the two phases. In the first the parser has dropped less than the
garbage; in the second it has dropped exactly the garbage, with a failure, and is on its way along
the frames. `Searching.step` is the one place where the phases change.
-/

namespace ConcurrentTest

variable {opts : TestOptions} {realloc : ℕ → Bool}

/-- The magic does not occur at any position of `garbage`, not even cut off by its end. -/
def MagicFree (garbage rest : List UInt8) : Prop :=
  ∀ i < garbage.length, ((garbage ++ rest).drop i).take 4 ≠ frameMagic

/-- Whether garbage is free of the magic can be tested place by place. -/
instance (garbage rest : List UInt8) : Decidable (MagicFree garbage rest) :=
  inferInstanceAs (Decidable (∀ i < garbage.length, _))

/-- Less than the garbage has been dropped. -/
structure Searching (opts : TestOptions) (garbage bytes : List UInt8) (s : SharedState) : Prop where
  parsed : Parsed ([] : List (Frame opts)) s.stream s
  dropped : ∃ k < garbage.length, k ≤ bytes.length ∧ s.stream = bytes.drop k

/-- The garbage has been dropped and `done` accepted, and the rest of the stream is a prefix of
`todo`. -/
structure Tracking (garbage : List UInt8) (done todo : List (Frame opts)) (bytes : List UInt8)
    (s : SharedState) : Prop where
  reached : garbage.length ≤ bytes.length
  parsed : Parsed done (bytes.drop garbage.length) s
  failed : garbage ≠ [] → 1 ≤ s.stats.validationFailures
  stream_prefix : s.stream <+: streamOf todo

/-- What has arrived of a stream reads like the stream. -/
theorem take_drop_of_prefix {bytes stream : List UInt8} (h : bytes <+: stream) {i : ℕ}
    (hi : i + 4 ≤ bytes.length) : (bytes.drop i).take 4 = (stream.drop i).take 4 := by
  obtain ⟨tail, rfl⟩ := h
  rw [List.drop_append_of_le_length (by omega),
    List.take_append_of_le_length (by rw [List.length_drop]; omega)]

/-- A sequence of frames starts with the magic. -/
theorem take_streamOf {frames : List (Frame opts)} (hne : frames ≠ []) :
    (streamOf frames).take 4 = frameMagic := by
  obtain ⟨frame, rest, rfl⟩ := List.exists_cons_of_ne_nil hne
  have hsize : 20 ≤ frame.bytes.length := frame.isFrame.size ▸ opts.messageSize_bounds.1
  rw [streamOf, List.flatMap_cons, List.take_append_of_le_length (by omega), frame.isFrame.magic]

/-- Before the first accepted frame the parser can have any stream. -/
theorem Parsed.restart {bytes : List UInt8} {s : SharedState}
    (h : Parsed ([] : List (Frame opts)) bytes s) (s' : SharedState) (hseen : s'.seen = s.seen)
    (hvalidated : s'.stats.framesValidated = s.stats.framesValidated) :
    Parsed ([] : List (Frame opts)) s'.stream s' where
  bytes_eq := rfl
  nodup := List.nodup_nil
  fresh message := by
    rw [SharedState.Fresh, hseen]
    exact h.fresh message
  validated := hvalidated.trans h.validated

section Steps

variable {garbage bytes : List UInt8} {s : SharedState} {r : SharedState ⊕ SharedState}
  {frames done todo : List (Frame opts)}

/-- The garbage is behind the parser, which has counted a failure to get there. -/
theorem Searching.finish (h : Searching opts garbage bytes s)
    (hpre : bytes <+: garbage ++ streamOf frames) (hreached : garbage.length ≤ bytes.length) :
    Tracking garbage [] frames bytes { s.fail with stream := bytes.drop garbage.length } where
  reached := hreached
  parsed := h.parsed.restart { s.fail with stream := bytes.drop garbage.length } rfl rfl
  failed _ := Nat.succ_le_succ (Nat.zero_le _)
  stream_prefix := by
    have hdrop := hpre.drop garbage.length
    rwa [List.drop_left] at hdrop

/-- More bytes arrive while the parser is in the garbage. -/
theorem Searching.append (h : Searching opts garbage bytes s) (data : List UInt8) (cap : ℕ) :
    Searching opts garbage (bytes ++ data)
      { s with stream := s.stream ++ data, streamCap := cap } := by
  obtain ⟨hparsed, k, hk, hle, hstream⟩ := h
  refine ⟨hparsed.restart _ rfl rfl, k, hk, by rw [List.length_append]; omega, ?_⟩
  rw [List.drop_append_of_le_length hle, ← hstream]

/-- More bytes of the stream arrive while the parser is on its way along the frames. -/
theorem Tracking.append (h : Tracking garbage done todo bytes s) {data : List UInt8}
    (hpre : bytes ++ data <+: garbage ++ streamOf (done ++ todo)) (cap : ℕ) :
    Tracking garbage done todo (bytes ++ data)
      { s with stream := s.stream ++ data, streamCap := cap } := by
  have hdrop : (bytes ++ data).drop garbage.length = bytes.drop garbage.length ++ data :=
    List.drop_append_of_le_length h.reached
  have hframes : streamOf (done ++ todo) = streamOf done ++ streamOf todo := List.flatMap_append
  have hrest := hpre.drop garbage.length
  rw [hdrop, h.parsed.bytes_eq, List.drop_left, hframes, List.append_assoc] at hrest
  exact {
    reached := by rw [List.length_append]; exact Nat.le_add_right_of_le h.reached
    parsed := { h.parsed with
      bytes_eq := by rw [hdrop, h.parsed.bytes_eq, List.append_assoc] }
    failed := h.failed
    stream_prefix := (List.prefix_append_right_inj _).mp hrest }

/-- One iteration of a parser in the garbage: it waits for a header, drops a part of the garbage
and waits, or drops all of it. -/
theorem Searching.step (h : Searching opts garbage bytes s)
    (hpre : bytes <+: garbage ++ streamOf frames) (hne : frames ≠ [])
    (hfree : MagicFree garbage (streamOf frames)) (hstep : ValidateStep opts s r) :
    (∃ s', r = .inr s' ∧ Searching opts garbage bytes s' ∧
        bytes.length < garbage.length + frameHeaderSize) ∨
      ∃ s', Tracking garbage [] frames bytes s' ∧
        (r = .inl s' ∨ r = .inr s' ∧ s'.stream.length < frameHeaderSize) := by
  have hheader : frameHeaderSize = 20 := rfl
  obtain ⟨k, hk, hle, hstream⟩ := h.dropped
  have hlen : s.stream.length = bytes.length - k := by rw [hstream, List.length_drop]
  -- reading the stream at a position
  have hread {i : ℕ} (hi : i + 4 ≤ s.stream.length) : (s.stream.drop i).take 4 =
      ((garbage ++ streamOf frames).drop (k + i)).take 4 := by
    rw [hstream, List.drop_drop]
    exact take_drop_of_prefix hpre (by omega)
  have hfront (hsize : 4 ≤ s.stream.length) : s.stream.take 4 ≠ frameMagic := by
    intro hmagic
    have := hread (i := 0) (by omega)
    rw [List.drop_zero, Nat.add_zero, hmagic] at this
    exact hfree k hk this.symm
  -- the first frame starts behind the garbage
  have hfirst (i : ℕ) (hi : k + i = garbage.length) (hin : i + 4 ≤ s.stream.length) :
      (s.stream.drop i).take 4 = frameMagic := by
    rw [hread hin, hi, List.drop_left, take_streamOf hne]
  cases hstep with
  | short hshort => exact .inl ⟨s, rfl, h, by omega⟩
  | badLength size magic => exact absurd magic (hfront (by omega))
  | incomplete header => exact absurd header.magic (hfront (by have := header.size; omega))
  | badFrame header => exact absurd header.magic (hfront (by have := header.size; omega))
  | goodFrame _ header => exact absurd header.magic (hfront (by have := header.size; omega))
  | noMagic size absent =>
    -- a whole magic behind the garbage would have been found
    have hshort : bytes.length < garbage.length + 4 := by
      by_contra hlong
      exact absent (garbage.length - k) (by omega) (hfirst _ (by omega) (by omega))
    have hdrop : s.stream.drop (s.stream.length - 3) = bytes.drop (bytes.length - 3) := by
      rw [hstream, List.drop_drop, List.length_drop]
      congr 1
      omega
    rw [hdrop]
    rcases Nat.lt_or_ge (bytes.length - 3) garbage.length with hlt | hge
    · exact .inl ⟨_, rfl, ⟨h.parsed.restart _ rfl rfl, bytes.length - 3, hlt, by omega, rfl⟩, by omega⟩
    · have hplace : bytes.length - 3 = garbage.length := by omega
      rw [hplace]
      refine .inr ⟨_, h.finish hpre (by omega), .inr ⟨rfl, ?_⟩⟩
      change (bytes.drop garbage.length).length < frameHeaderSize
      rw [List.length_drop]
      omega
  | skip offset size pos absent magic =>
    have hoffset : offset + 4 ≤ s.stream.length := by
      have := congrArg List.length magic
      rw [List.length_take, List.length_drop, length_frameMagic] at this
      omega
    -- the search stops neither in the garbage nor behind the first magic
    have hplace : k + offset = garbage.length := by
      rcases Nat.lt_trichotomy (k + offset) garbage.length with hlt | heq | hgt
      · exact absurd ((hread hoffset).symm.trans magic) (hfree _ hlt)
      · exact heq
      · obtain ⟨hin, hne'⟩ := absent (garbage.length - k) (by omega)
        exact absurd (hfirst _ (by omega) hin) hne'
    have hconsume : s.fail.consumeStream offset =
        { s.fail with stream := bytes.drop garbage.length } := by
      have hdrop : s.stream.drop offset = bytes.drop garbage.length := by
        rw [hstream, List.drop_drop, hplace]
      rw [SharedState.consumeStream, if_neg (by change ¬ offset ≥ s.stream.length; omega)]
      exact congrArg (fun stream => { s.fail with stream }) hdrop
    exact .inr ⟨_, h.finish hpre (by omega), .inl (congrArg _ hconsume)⟩

/-- One iteration behind the garbage: the next frame is accepted if it is there, and the parser
waits otherwise. -/
theorem Tracking.step (h : Tracking garbage done todo bytes s)
    (hnodup : ((done ++ todo).map Frame.message).Nodup) (hstep : ValidateStep opts s r) :
    (r = .inr s ∧ s.stream.length < opts.messageSize) ∨
      ∃ frame rest s', todo = frame :: rest ∧ r = .inl s' ∧
        Tracking garbage (done ++ [frame]) rest bytes s' := by
  rw [List.map_append] at hnodup
  have hfresh : ∀ frame ∈ todo, s.Fresh frame.message := fun frame hmem =>
    (h.parsed.fresh _).mpr fun hdone =>
      List.disjoint_of_nodup_append hnodup hdone (List.mem_map_of_mem hmem)
  rcases hstep.on_track h.stream_prefix hfresh with hwait | ⟨frame, rest, tail, rfl, heq, htail, rfl⟩
  · exact .inl hwait
  refine .inr ⟨frame, rest, _, rfl, rfl, ?_⟩
  exact {
    reached := h.reached
    parsed := h.parsed.accept frame heq (hfresh frame List.mem_cons_self)
    failed := by
      rw [SharedState.consumeStream_stats]
      exact h.failed
    stream_prefix := by
      rw [SharedState.consumeStream_stream]
      change s.stream.drop opts.messageSize <+: _
      rwa [heq, ← frame.isFrame.size, List.drop_left] }

end Steps

/-! ## Sequences of calls -/

/-- Between two calls the parser is still in the garbage, and not a whole header has arrived behind
it, or it waits for the rest of a frame. -/
def Recovering (garbage : List UInt8) (frames : List (Frame opts)) (bytes : List UInt8)
    (s : SharedState) : Prop :=
  (Searching opts garbage bytes s ∧ bytes.length < garbage.length + frameHeaderSize) ∨
    ∃ done todo, frames = done ++ todo ∧ Tracking garbage done todo bytes s ∧
      s.stream.length < opts.messageSize

/-- Every sequence of calls on a part of the stream returns, and recovers from the garbage unless an
allocation has failed. -/
theorem feed_recovering (realloc : ℕ → Bool) {garbage : List UInt8} {frames : List (Frame opts)}
    (hne : frames ≠ []) (hnodup : (frames.map Frame.message).Nodup)
    (hfree : MagicFree garbage (streamOf frames)) (chunks : List (List UInt8)) :
    ∃ s, feed opts realloc (SharedState.init opts) chunks = some s ∧
      (s.stop = false → chunks.flatten <+: garbage ++ streamOf frames →
        Recovering garbage frames chunks.flatten s) := by
  have hheader : frameHeaderSize ≤ opts.messageSize := opts.messageSize_bounds.1
  refine feed_spec
    (I := fun bytes s => bytes <+: garbage ++ streamOf frames → Recovering garbage frames bytes s)
    (J := fun bytes s => bytes <+: garbage ++ streamOf frames → Searching opts garbage bytes s ∨
      ∃ done todo, frames = done ++ todo ∧ Tracking garbage done todo bytes s)
    ?_ ?_ ?_ chunks [] ?_
  · -- a chunk is appended to what has not been dropped
    intro bytes s data cap h hpre
    rcases h ((List.prefix_append _ _).trans hpre) with ⟨hsearch, -⟩ | ⟨done, todo, rfl, htrack, -⟩
    · exact .inl (hsearch.append data cap)
    · exact .inr ⟨done, todo, rfl, htrack.append hpre cap⟩
  · -- the parser goes on: it leaves the garbage, or accepts a frame
    intro bytes s s' h hstep hpre
    rcases h hpre with hsearch | ⟨done, todo, rfl, htrack⟩
    · rcases hsearch.step hpre hne hfree hstep with ⟨t, heq, -⟩ | ⟨t, ht, heq | ⟨heq, -⟩⟩
      · cases heq
      · exact .inr ⟨[], frames, rfl, Sum.inl.inj heq ▸ ht⟩
      · cases heq
    · rcases htrack.step hnodup hstep with ⟨heq, -⟩ | ⟨frame, rest, t, rfl, heq, ht⟩
      · cases heq
      · exact .inr ⟨done ++ [frame], rest, by simp, Sum.inl.inj heq ▸ ht⟩
  · intro bytes s s' h hstep hpre
    rcases h hpre with hsearch | ⟨done, todo, rfl, htrack⟩
    · rcases hsearch.step hpre hne hfree hstep with ⟨t, heq, ht, hlen⟩ | ⟨t, ht, heq | ⟨heq, hlen⟩⟩
      · exact .inl ⟨Sum.inr.inj heq ▸ ht, hlen⟩
      · cases heq
      · obtain rfl := Sum.inr.inj heq
        exact .inr ⟨[], frames, rfl, ht, by omega⟩
    · rcases htrack.step hnodup hstep with ⟨heq, hlen⟩ | ⟨frame, rest, t, rfl, heq, -⟩
      · obtain rfl := Sum.inr.inj heq
        exact .inr ⟨done, todo, rfl, htrack, hlen⟩
      · cases heq
  · intro _
    rcases garbage with _ | ⟨c, garbage⟩
    · -- without garbage the parser is on its way from the start
      refine .inr ⟨[], frames, rfl, ?_, Nat.lt_of_lt_of_le (Nat.succ_pos 19) hheader⟩
      exact {
        reached := le_rfl
        parsed := Parsed.init opts
        failed := fun h => absurd rfl h
        stream_prefix := List.nil_prefix }
    · exact .inl ⟨⟨Parsed.init opts, 0, Nat.succ_pos _, le_rfl, rfl⟩,
        Nat.add_pos_right _ (by decide)⟩

/-- The iterations of the parser keep the length of the bitmap. -/
theorem ValidateStep.length_seen {s : SharedState} {r : SharedState ⊕ SharedState}
    (h : ValidateStep opts s r) : (r.elim id id).seen.length = s.seen.length := by
  cases h <;> simp [SharedState.fail, SharedState.accept]

/-- The bitmap has a bit for every message. -/
theorem feed_length_seen (chunks : List (List UInt8)) {s : SharedState}
    (hfeed : feed opts realloc (SharedState.init opts) chunks = some s) (hstop : s.stop = false) :
    s.seen.length = opts.writers * opts.messages := by
  let I : List UInt8 → SharedState → Prop := fun _ s => s.seen.length = opts.writers * opts.messages
  have hrun : ∃ s', feed opts realloc (SharedState.init opts) chunks = some s' ∧
      (s'.stop = false → I ([] ++ chunks.flatten) s') :=
    feed_spec (I := I) (J := I) (fun _ _ _ _ h => h)
      (fun _ _ _ h hstep => hstep.length_seen.trans h)
      (fun _ _ _ h hstep => hstep.length_seen.trans h) chunks [] List.length_replicate
  obtain ⟨s', hfeed', h⟩ := hrun
  obtain rfl : s' = s := Option.some.inj (hfeed'.symm.trans hfeed)
  exact h hstop

/-- Garbage in front of a sequence of frames of different messages costs nothing but a failure:
however the stream is cut into chunks, every frame is accepted and nothing is left, unless an
allocation has failed, which sets the stop flag. -/
theorem feed_resynchronises (opts : TestOptions) (realloc : ℕ → Bool) (garbage : List UInt8)
    (frames : List (Frame opts)) (chunks : List (List UInt8)) (hne : frames ≠ [])
    (hnodup : (frames.map Frame.message).Nodup) (hfree : MagicFree garbage (streamOf frames))
    (hchunks : chunks.flatten = garbage ++ streamOf frames) :
    ∃ s, feed opts realloc (SharedState.init opts) chunks = some s ∧
      (Allocates realloc chunks → s.stop = false) ∧
      (s.stop = false → s.stats.framesValidated = frames.length ∧
        (∀ frame ∈ frames, s.seen[frame.message.seenIndex]? = some true) ∧ s.stream = [] ∧
        (garbage ≠ [] → 1 ≤ s.stats.validationFailures)) := by
  obtain ⟨s, hfeed, h⟩ := feed_recovering realloc hne hnodup hfree chunks
  refine ⟨s, hfeed, fun halloc => feed_not_stopped halloc rfl (Nat.zero_le _) hfeed,
    fun hstop => ?_⟩
  have hframe (frame : Frame opts) : frameHeaderSize ≤ frame.bytes.length :=
    frame.isFrame.size ▸ opts.messageSize_bounds.1
  rcases h hstop (hchunks ▸ List.prefix_rfl) with ⟨-, hlen⟩ | ⟨done, todo, rfl, htrack, hshort⟩
  · -- the first frame alone is longer than what has arrived behind the garbage
    obtain ⟨frame, rest, rfl⟩ := List.exists_cons_of_ne_nil hne
    have := hframe frame
    simp only [hchunks, streamOf, List.flatMap_cons, List.length_append] at hlen
    omega
  have hrest : s.stream = streamOf todo := by
    have heq := htrack.parsed.bytes_eq
    rw [hchunks, List.drop_left, streamOf, List.flatMap_append] at heq
    exact (List.append_cancel_left heq).symm
  rcases todo with _ | ⟨frame, rest⟩
  · rw [List.append_nil]
    refine ⟨htrack.parsed.validated, fun frame hmem => ?_, hrest, htrack.failed⟩
    -- the bit is there, and is not clear
    have hlt : frame.message.seenIndex < s.seen.length := by
      rw [feed_length_seen chunks hfeed hstop]
      exact frame.message.seenIndex_lt
    have hset : ¬ s.Fresh frame.message := fun hfresh =>
      (htrack.parsed.fresh _).mp hfresh (List.mem_map_of_mem hmem)
    rw [SharedState.Fresh, List.getElem?_eq_getElem hlt, Option.some.injEq, Bool.not_eq_false]
      at hset
    rw [List.getElem?_eq_getElem hlt, hset]
  · rw [hrest, streamOf, List.flatMap_cons, List.length_append, frame.isFrame.size] at hshort
    omega

/-- One frame behind a part of a magic, cut inside the magic of the frame. -/
theorem feed_resynchronises_smallest :
    ∃ s, feed .smallest (fun _ => true) (SharedState.init .smallest)
        [[0x53, 0x43, 0x53], Message.only.frame.drop 1] = some s ∧
      s.stats.framesValidated = 1 ∧ s.stream = [] ∧ 1 ≤ s.stats.validationFailures := by
  obtain ⟨s, hfeed, hstop, h⟩ := feed_resynchronises .smallest (fun _ => true) [0x53, 0x43]
    [Frame.built Message.only] [[0x53, 0x43, 0x53], Message.only.frame.drop 1] (by simp)
    (by simp) (by decide) rfl
  obtain ⟨hvalidated, -, hstream, hfailed⟩ := h (hstop ⟨fun _ => rfl, by decide⟩)
  exact ⟨s, hfeed, hvalidated, hstream, hfailed (by simp)⟩

end ConcurrentTest
