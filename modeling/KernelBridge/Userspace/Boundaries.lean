import KernelBridge.Lib.Incremental
import KernelBridge.Userspace.Verdict

/-!
# Read boundaries

What the parser reports does not depend on how the stream is cut into reads. The parser itself
does depend on it: without a magic in sight it keeps three bytes of what has arrived, so the bytes
it drops, and the number of failures it counts, differ from one cutting to another.

`Core` is what does not: the accepted frames, whether there has been a failure, and the stream up
to the bytes that a parser which has already failed will drop anyway. It is an incremental machine
in the sense of `Lib.Incremental`, every iteration of the parser is one of its steps or none
(`core_step`), and so the core after any sequence of reads is the one reached on the whole stream.
-/

open Incremental

namespace ConcurrentTest

variable {opts : TestOptions} {realloc : ℕ → Bool}

/-- The part of the stream that matters: after a failure, what lies before the next possible magic
does not. -/
def relevant (failed : Bool) (stream : List UInt8) : List UInt8 :=
  if failed then resync frameMagic stream else stream

/-- The abstract parser. -/
@[ext]
structure Core where
  seen : List Bool
  framesValidated : ℕ
  failed : Bool
  rest : List UInt8
  synced : relevant failed rest = rest

/-- Of the bytes in front, those that matter are enough. -/
theorem relevant_append (failed : Bool) (a b : List UInt8) :
    relevant failed (relevant failed a ++ b) = relevant failed (a ++ b) := by
  rcases failed with _ | _
  · rfl
  · exact resync_append a b

/-- What matters of what matters is all of it. -/
theorem relevant_relevant (failed : Bool) (a : List UInt8) :
    relevant failed (relevant failed a) = relevant failed a := by
  rcases failed with _ | _
  · rfl
  · exact resync_resync a

/-- No more matters than there is. -/
theorem length_relevant_le (failed : Bool) (a : List UInt8) :
    (relevant failed a).length ≤ a.length := by
  rcases failed with _ | _
  · exact le_rfl
  · exact length_resync_le a

/-- A stream that starts with the magic is relevant as a whole. -/
theorem relevant_of_magic {stream : List UInt8} (h : stream.take 4 = frameMagic) (failed : Bool) :
    relevant failed stream = stream := by
  rcases failed with _ | _
  · rfl
  · exact resync_of_mayStart (by rw [MayStart, length_frameMagic, h])

namespace Core

/-- The core with the relevant part of `stream` left. -/
def of (seen : List Bool) (framesValidated : ℕ) (failed : Bool) (stream : List UInt8) : Core where
  seen := seen
  framesValidated := framesValidated
  failed := failed
  rest := relevant failed stream
  synced := relevant_relevant failed stream

/-- Bytes are appended to the rest, of which the relevant part is kept. -/
def append (c : Core) (data : List UInt8) : Core :=
  of c.seen c.framesValidated c.failed (c.rest ++ data)

/-- Appending before or after what matters is taken. -/
theorem of_append (seen : List Bool) (framesValidated : ℕ) (failed : Bool)
    (stream data : List UInt8) :
    (of seen framesValidated failed stream).append data =
      of seen framesValidated failed (stream ++ data) :=
  Core.ext rfl rfl rfl (relevant_append failed stream data)

/-- Two pieces are appended as one. -/
theorem append_append (c : Core) (a b : List UInt8) : (c.append a).append b = c.append (a ++ b) := by
  change (of c.seen c.framesValidated c.failed (c.rest ++ a)).append b = _
  rw [of_append, List.append_assoc, append]

end Core

/-- What the parser does next with the front of the stream. -/
inductive Action (opts : TestOptions)
  /-- Search for the magic, which is not at the front. -/
  | search
  /-- Step over a magic with a wrong length behind it. -/
  | skip
  /-- Drop a frame that cannot be accepted. -/
  | drop
  | accept (message : Message opts)

/-- The number of bytes that an action takes from the front of the stream. -/
def Action.consumed : Action opts → ℕ
  | .search => 0
  | .skip => 1
  | .drop | .accept _ => opts.messageSize

open Classical in
/-- A whole frame is accepted if it is one of a message whose bit of `seen` is clear. -/
noncomputable def frameAction (opts : TestOptions) (seen : List Bool) (frame : List UInt8) :
    Action opts :=
  if h : ∃ message : Message opts, seen[message.seenIndex]? = some false ∧ IsFrame message frame then
    .accept h.choose
  else .drop

open Classical in
/-- The action that is due, once enough of the stream is there. -/
noncomputable def action (opts : TestOptions) (seen : List Bool) (rest : List UInt8) :
    Option (Action opts) :=
  if rest.length < frameHeaderSize then none
  else if rest.take 4 ≠ frameMagic then some .search
  else if ¬ Header opts rest then some .skip
  else if rest.length < opts.messageSize then none
  else some (frameAction opts seen (rest.take opts.messageSize))

/-- The effect of an action. -/
def Core.perform (c : Core) (a : Action opts) : Core :=
  match a with
  | .search | .skip | .drop =>
    .of c.seen c.framesValidated true (c.rest.drop a.consumed)
  | .accept message =>
    .of (c.seen.set message.seenIndex true) (c.framesValidated + 1) c.failed
      (c.rest.drop a.consumed)

/-- Every action on a frame consumes a frame. -/
theorem consumed_frameAction (seen : List Bool) (frame : List UInt8) :
    (frameAction opts seen frame).consumed = opts.messageSize := by
  unfold frameAction
  split <;> rfl

/-- A frame of no message that is due is dropped. -/
theorem frameAction_of_bad {seen : List Bool} {frame : List UInt8}
    (h : ∀ message : Message opts, seen[message.seenIndex]? = some false →
      ¬ IsFrame message frame) : frameAction opts seen frame = .drop :=
  dif_neg fun ⟨message, hfresh, hframe⟩ => h message hfresh hframe

/-- The frame of a message that is due is accepted. -/
theorem frameAction_of_isFrame {seen : List Bool} {frame : List UInt8} {message : Message opts}
    (hfresh : seen[message.seenIndex]? = some false) (hframe : IsFrame message frame) :
    frameAction opts seen frame = .accept message := by
  have h : ∃ message : Message opts, seen[message.seenIndex]? = some false ∧
      IsFrame message frame := ⟨message, hfresh, hframe⟩
  rw [frameAction, dif_pos h, hframe.message_unique h.choose_spec.2]

/-- A header is one however the stream continues. -/
theorem header_append_iff {stream : List UInt8} (h : frameHeaderSize ≤ stream.length)
    (data : List UInt8) : Header opts (stream ++ data) ↔ Header opts stream := by
  change 20 ≤ stream.length at h
  have hmagic : (stream ++ data).take 4 = stream.take 4 :=
    List.take_append_of_le_length (by omega)
  have hword : getBe32 ((stream ++ data).drop 12) = getBe32 (stream.drop 12) := by
    rw [List.drop_append_of_le_length (by omega),
      getBe32_append _ (by rw [List.length_drop]; omega)]
  have hsize : frameHeaderSize ≤ (stream ++ data).length := by
    rw [List.length_append]
    exact Nat.le_add_right_of_le h
  constructor
  · intro header
    exact ⟨h, hmagic.symm.trans header.magic, by rw [← hword, header.payloadLen]⟩
  · intro header
    exact ⟨hsize, hmagic.trans header.magic, by rw [hword, header.payloadLen]⟩

/-- An action that is due is due however the stream continues, and takes bytes that are there. -/
theorem action_append {seen : List Bool} {rest : List UInt8} {a : Action opts}
    (h : action opts seen rest = some a) (data : List UInt8) :
    frameHeaderSize ≤ rest.length ∧ a.consumed ≤ rest.length ∧
      action opts seen (rest ++ data) = some a := by
  have hlength : (rest ++ data).length = rest.length + data.length := List.length_append
  unfold action at h ⊢
  by_cases hshort : rest.length < frameHeaderSize
  · rw [if_pos hshort] at h
    cases h
  rw [if_neg hshort] at h
  rw [not_lt] at hshort
  -- the tests look at a header and at a frame, which are there already
  have hmagic : (rest ++ data).take 4 = rest.take 4 :=
    List.take_append_of_le_length (le_trans (by decide) hshort)
  rw [if_neg (by omega), hmagic]
  by_cases hfront : rest.take 4 = frameMagic
  · rw [if_neg (not_not.mpr hfront)] at h ⊢
    have hheader : Header opts (rest ++ data) ↔ Header opts rest := header_append_iff hshort data
    by_cases header : Header opts rest
    · rw [if_neg (not_not.mpr header)] at h
      rw [if_neg (not_not.mpr (hheader.mpr header))]
      by_cases hpart : rest.length < opts.messageSize
      · rw [if_pos hpart] at h
        cases h
      rw [if_neg hpart] at h
      rw [not_lt] at hpart
      have hframe : (rest ++ data).take opts.messageSize = rest.take opts.messageSize :=
        List.take_append_of_le_length hpart
      rw [if_neg (by omega), hframe]
      obtain rfl := Option.some.inj h
      exact ⟨hshort, (consumed_frameAction _ _).trans_le hpart, rfl⟩
    · rw [if_pos header] at h
      rw [if_pos (mt hheader.mp header)]
      obtain rfl := Option.some.inj h
      exact ⟨hshort, show 1 ≤ rest.length from le_trans (by decide) hshort, rfl⟩
  · rw [if_pos hfront] at h ⊢
    obtain rfl := Option.some.inj h
    exact ⟨hshort, Nat.zero_le _, rfl⟩

namespace Core

/-- One step of the abstract parser. -/
noncomputable def step (opts : TestOptions) (c : Core) : Option Core :=
  (action opts c.seen c.rest).map c.perform

/-- A rest as long as a header starts with the magic, unless there has been no failure yet. -/
theorem magic_of_failed {c : Core} (h : c.failed = true)
    (hsize : frameHeaderSize ≤ c.rest.length) : c.rest.take 4 = frameMagic := by
  have hstart : MayStart frameMagic c.rest := by
    have hsynced := c.synced
    rw [relevant, if_pos h] at hsynced
    exact hsynced ▸ mayStart_resync c.rest
  exact (mayStart_iff (le_trans (by decide) hsize)).mp hstart

/-- Nothing of a rest as long as a header becomes irrelevant when bytes are appended. -/
theorem append_rest {c : Core} (hsize : frameHeaderSize ≤ c.rest.length) (data : List UInt8) :
    (c.append data).rest = c.rest ++ data := by
  change relevant c.failed (c.rest ++ data) = c.rest ++ data
  rcases hfailed : c.failed with _ | _
  · rfl
  · refine relevant_of_magic ?_ true
    rw [List.take_append_of_le_length (le_trans (by decide) hsize), magic_of_failed hfailed hsize]

/-- The number of steps left: every step but a search takes bytes, and a search is made only once,
by the first failure. -/
def size (c : Core) : ℕ := c.rest.length + if c.failed then 0 else 1

/-- The size is at most that of the stream, and one more before the first failure. -/
theorem size_of_le (seen : List Bool) (framesValidated : ℕ) (failed : Bool)
    (stream : List UInt8) :
    (of seen framesValidated failed stream).size ≤ stream.length + if failed then 0 else 1 :=
  Nat.add_le_add_right (length_relevant_le failed stream) _

/-- Only a parser that has not failed has to search for the magic. -/
theorem not_failed_of_search {c : Core} (h : action opts c.seen c.rest = some .search) :
    c.failed = false := by
  obtain ⟨hsize, -, -⟩ := action_append h []
  refine Bool.eq_false_of_not_eq_true fun hfailed => ?_
  have hmagic := magic_of_failed hfailed hsize
  unfold action at h
  rw [if_neg (not_lt.mpr hsize), if_neg (not_not.mpr hmagic)] at h
  split at h
  · cases h
  split at h
  · cases h
  unfold frameAction at h
  split at h <;> cases h

/-- Every step makes the rest smaller. -/
theorem size_lt {c c' : Core} (h : step opts c = some c') : c'.size < c.size := by
  obtain ⟨a, ha, rfl⟩ := Option.map_eq_some_iff.mp h
  obtain ⟨hsize, hle, -⟩ := action_append ha []
  have hpos : 0 < opts.messageSize :=
    Nat.lt_of_lt_of_le (by decide) opts.messageSize_bounds.1
  -- what is left after `n` bytes have been taken
  have htaken (seen : List Bool) (framesValidated n : ℕ) (failed : Bool) :=
    List.length_drop ▸ size_of_le seen framesValidated failed (c.rest.drop n)
  rcases a with _ | _ | _ | message
  · refine Nat.lt_of_le_of_lt (htaken _ _ _ true) ?_
    rw [size, not_failed_of_search ha]
    exact Nat.lt_succ_self _
  · refine Nat.lt_of_le_of_lt (htaken _ _ _ true) ?_
    have : 0 < c.rest.length := le_trans (by decide) hsize
    change c.rest.length - 1 + 0 < c.rest.length + _
    omega
  · refine Nat.lt_of_le_of_lt (htaken _ _ _ true) ?_
    change opts.messageSize ≤ c.rest.length at hle
    change c.rest.length - opts.messageSize + 0 < c.rest.length + _
    omega
  · refine Nat.lt_of_le_of_lt (htaken _ _ _ c.failed) ?_
    change opts.messageSize ≤ c.rest.length at hle
    change c.rest.length - opts.messageSize + _ < c.rest.length + _
    omega

/-- The abstract parser as an incremental machine. -/
noncomputable def machine (opts : TestOptions) : Machine Core UInt8 where
  step := step opts
  append := append
  size := size
  size_lt := size_lt
  append_append := append_append
  step_append := by
    intro c c' h data
    obtain ⟨a, ha, rfl⟩ := Option.map_eq_some_iff.mp h
    obtain ⟨hsize, hle, happend⟩ := action_append ha data
    rw [step, append_rest hsize]
    change (action opts c.seen (c.rest ++ data)).map _ = _
    rw [happend, Option.map_some]
    -- the action takes the same bytes from the front of the longer rest
    have hdrop : (c.append data).rest.drop a.consumed = c.rest.drop a.consumed ++ data := by
      rw [append_rest hsize, List.drop_append_of_le_length hle]
    rcases a with _ | _ | _ | message <;>
      exact congrArg some (by rw [perform, perform, of_append, hdrop]; rfl)

end Core

/-! ## The parser and its core -/

/-- The core of a state of the parser. -/
def SharedState.core (s : SharedState) : Core :=
  .of s.seen s.stats.framesValidated (decide (s.stats.validationFailures ≠ 0)) s.stream

/-- After a failure, streams that resynchronise alike are alike. -/
theorem Core.of_congr {seen : List Bool} {framesValidated : ℕ} {a b : List UInt8}
    (h : resync frameMagic a = resync frameMagic b) :
    of seen framesValidated true a = of seen framesValidated true b :=
  Core.ext rfl rfl rfl h

/-- The core after a failure. -/
theorem SharedState.core_fail (s : SharedState) (stream : List UInt8) :
    core { s.fail with stream } = .of s.seen s.stats.framesValidated true stream :=
  congrArg (Core.of s.seen s.stats.framesValidated · stream)
    (decide_eq_true (Nat.succ_ne_zero s.stats.validationFailures))

/-- Behind a header, the action depends on the frame. -/
theorem action_of_header {seen : List Bool} {rest : List UInt8} (header : Header opts rest) :
    action opts seen rest =
      if rest.length < opts.messageSize then none
      else some (frameAction opts seen (rest.take opts.messageSize)) := by
  rw [action, if_neg (not_lt.mpr header.size), if_neg (not_not.mpr header.magic),
    if_neg (not_not.mpr header)]

/-- The rest of the core of a stream with the magic at the front. -/
theorem SharedState.core_rest {s : SharedState} (h : s.stream.take 4 = frameMagic) :
    s.core.rest = s.stream :=
  relevant_of_magic h _

/-- A search of the parser is a step of the core if it is the first failure, and none otherwise. -/
theorem SharedState.core_search {s : SharedState} {n : ℕ}
    (hsize : frameHeaderSize ≤ s.stream.length) (hn : n ≤ s.stream.length)
    (hpos : s.stream.take 4 ≠ frameMagic)
    (habsent : ∀ i < n, i + 4 ≤ s.stream.length ∧ (s.stream.drop i).take 4 ≠ frameMagic) :
    core { s.fail with stream := s.stream.drop n } = s.core ∨
      Core.step opts s.core = some (core { s.fail with stream := s.stream.drop n }) := by
  -- nothing that is dropped can be where a magic starts
  have hresync : resync frameMagic (s.stream.drop n) = resync frameMagic s.stream := by
    refine resync_drop hn fun i hi hstart => ?_
    obtain ⟨hle, hne⟩ := habsent i hi
    exact hne ((mayStart_iff (by rw [List.length_drop, length_frameMagic]; omega)).mp hstart)
  rw [core_fail]
  rcases hfailed : decide (s.stats.validationFailures ≠ 0) with _ | _
  · right
    have hcore : s.core = .of s.seen s.stats.framesValidated false s.stream := by
      rw [core, hfailed]
    rw [hcore, Core.step]
    change (action opts s.seen s.stream).map _ = _
    rw [action, if_neg (not_lt.mpr hsize), if_pos hpos, Option.map_some]
    exact congrArg some (Core.of_congr hresync.symm)
  · left
    rw [core, hfailed]
    exact Core.of_congr hresync

/-- Every iteration of the parser is a step of its core, or leaves the core as it is. -/
theorem ValidateStep.core_step {s : SharedState} {r : SharedState ⊕ SharedState}
    (h : ValidateStep opts s r) :
    (r.elim id id).core = s.core ∨ Core.step opts s.core = some (r.elim id id).core := by
  have hconsume (t : SharedState) (n : ℕ) : (t.consumeStream n).core =
      .of t.seen t.stats.framesValidated (decide (t.stats.validationFailures ≠ 0))
        (t.stream.drop n) := by
    simp [SharedState.core]
  have hfail (n : ℕ) : (s.fail.consumeStream n).core =
      .of s.seen s.stats.framesValidated true (s.stream.drop n) := by
    rw [hconsume]
    exact s.core_fail (s.stream.drop n)
  -- a step of the core whose action is `a`
  have hstep (a : Action opts) {c : Core} (hmagic : s.stream.take 4 = frameMagic)
      (ha : action opts s.seen s.stream = some a) (hc : c = s.core.perform a) :
      Core.step opts s.core = some c := by
    rw [Core.step, SharedState.core_rest hmagic]
    change (action opts s.seen s.stream).map _ = _
    rw [ha, Option.map_some, hc]
  cases h with
  | short | incomplete => exact .inl rfl
  | noMagic size absent =>
    have hlong : 20 ≤ s.stream.length := size
    exact SharedState.core_search size (Nat.sub_le _ _) (absent 0 (by omega)) fun i hi =>
      ⟨by omega, absent i (by omega)⟩
  | skip offset size pos absent magic =>
    have hle : offset ≤ s.stream.length := by
      have := congrArg List.length magic
      rw [List.length_take, List.length_drop, length_frameMagic] at this
      omega
    rw [Sum.elim_inl, id, hfail, ← s.core_fail]
    exact SharedState.core_search size hle (absent 0 pos).2 absent
  | badLength size magic bad =>
    refine .inr (hstep .skip magic ?_ ?_)
    · rw [action, if_neg (not_lt.mpr size), if_neg (not_not.mpr magic), if_pos bad]
    · rw [Sum.elim_inl, id, hfail, Core.perform, SharedState.core_rest magic]
      rfl
  | badFrame header size bad =>
    refine .inr (hstep .drop header.magic ?_ ?_)
    · rw [action_of_header header, if_neg (not_lt.mpr size), frameAction_of_bad bad]
    · rw [Sum.elim_inl, id, hfail, Core.perform, SharedState.core_rest header.magic]
      rfl
  | goodFrame message header size fresh frame =>
    refine .inr (hstep (.accept message) header.magic ?_ ?_)
    · rw [action_of_header header, if_neg (not_lt.mpr size), frameAction_of_isFrame fresh frame]
    · rw [Sum.elim_inl, id, hconsume, Core.perform, SharedState.core_rest header.magic]
      rfl

/-- When the parser returns, its core has no step left. -/
theorem ValidateStep.core_settled {s s' : SharedState} (h : ValidateStep opts s (.inr s')) :
    Core.step opts s'.core = none := by
  have hshort {t : SharedState} (ht : t.stream.length < frameHeaderSize) :
      Core.step opts t.core = none := by
    have hrest : t.core.rest.length < frameHeaderSize :=
      Nat.lt_of_le_of_lt (length_relevant_le _ _) ht
    rw [Core.step, action, if_pos hrest, Option.map_none]
  cases h with
  | short h => exact hshort h
  | noMagic size =>
    refine hshort ?_
    change (s.stream.drop _).length < 20
    rw [List.length_drop]
    omega
  | incomplete header short =>
    -- the core waits for the rest of the frame as well
    rw [Core.step, SharedState.core_rest header.magic, action_of_header header, if_pos short,
      Option.map_none]

/-- Every sequence of calls returns; unless an allocation has failed, the core is the one that the
abstract parser reaches on all the bytes at once. -/
theorem feed_core (opts : TestOptions) (realloc : ℕ → Bool) (chunks : List (List UInt8)) :
    ∃ s, feed opts realloc (SharedState.init opts) chunks = some s ∧
      (s.stop = false →
        s.core =
          (Core.machine opts).settle ((SharedState.init opts).core.append chunks.flatten)) := by
  have hsettle {s : SharedState} {r : SharedState ⊕ SharedState} (h : ValidateStep opts s r) :
      (Core.machine opts).settle (r.elim id id).core = (Core.machine opts).settle s.core := by
    rcases h.core_step with heq | hstep
    · rw [heq]
    · exact ((Core.machine opts).settle_of_some hstep).symm
  refine feed_spec
    (I := fun bytes s =>
      s.core = (Core.machine opts).settle ((SharedState.init opts).core.append bytes))
    (J := fun bytes s => (Core.machine opts).settle s.core =
      (Core.machine opts).settle ((SharedState.init opts).core.append bytes))
    ?_ ?_ ?_ chunks [] ?_
  · intro bytes s data cap h
    -- the call starts on the core of the state before it, with the bytes appended
    have hcore : SharedState.core { s with stream := s.stream ++ data, streamCap := cap } =
        s.core.append data := (Core.of_append _ _ _ _ _).symm
    rw [hcore, h]
    exact ((Core.machine opts).settle_append _ data).trans
      (congrArg _ (Core.append_append _ bytes data))
  · intro bytes s s' h hstep
    -- an iteration leaves the settled core as it is
    exact (hsettle hstep).trans h
  · intro bytes s s' h hstep
    -- the call has settled its core, which is then the one of all bytes so far
    rw [← h, ← hsettle hstep]
    exact ((Core.machine opts).settle_of_none hstep.core_settled).symm
  · have hshort : ValidateStep opts (SharedState.init opts) (.inr (SharedState.init opts)) :=
      .short (show 0 < frameHeaderSize by decide)
    exact ((Core.machine opts).settle_of_none (s := (SharedState.init opts).core)
      hshort.core_settled).symm

/-- What is reported about a byte stream does not depend on how it is cut into reads: unless an
allocation has failed, the bitmap, the number of accepted frames and whether there has been a
failure are the same for every two cuttings. -/
theorem feed_boundaries (opts : TestOptions) (realloc realloc' : ℕ → Bool)
    (chunks chunks' : List (List UInt8)) (h : chunks.flatten = chunks'.flatten) :
    ∃ s s', feed opts realloc (SharedState.init opts) chunks = some s ∧
      feed opts realloc' (SharedState.init opts) chunks' = some s' ∧
      (Allocates realloc chunks → s.stop = false) ∧ (Allocates realloc' chunks' → s'.stop = false) ∧
      (s.stop = false → s'.stop = false →
        s.seen = s'.seen ∧ s.stats.framesValidated = s'.stats.framesValidated ∧
          (s.stats.validationFailures = 0 ↔ s'.stats.validationFailures = 0)) := by
  obtain ⟨s, hs, hcore⟩ := feed_core opts realloc chunks
  obtain ⟨s', hs', hcore'⟩ := feed_core opts realloc' chunks'
  refine ⟨s, s', hs, hs', fun halloc => feed_not_stopped halloc rfl (Nat.zero_le _) hs,
    fun halloc => feed_not_stopped halloc rfl (Nat.zero_le _) hs', fun hstop hstop' => ?_⟩
  have heq : s.core = s'.core := by rw [hcore hstop, hcore' hstop', h]
  have hfailed : decide (s.stats.validationFailures ≠ 0) = decide (s'.stats.validationFailures ≠ 0) :=
    congrArg Core.failed heq
  exact ⟨congrArg Core.seen heq, congrArg Core.framesValidated heq,
    not_iff_not.mp (decide_eq_decide.mp hfailed)⟩

/-- A stream without a frame, read at once and in two pieces. -/
theorem feed_boundaries_smallest :
    ∃ s s', feed .smallest (fun _ => true) (SharedState.init .smallest)
        [List.replicate 24 0x53] = some s ∧
      feed .smallest (fun _ => true) (SharedState.init .smallest)
        [List.replicate 21 0x53, List.replicate 3 0x53] = some s' ∧
      s.seen = s'.seen ∧ s.stats.framesValidated = s'.stats.framesValidated ∧
        (s.stats.validationFailures = 0 ↔ s'.stats.validationFailures = 0) := by
  obtain ⟨s, s', hs, hs', hstop, hstop', h⟩ :=
    feed_boundaries .smallest (fun _ => true) (fun _ => true)
      [List.replicate 24 0x53] [List.replicate 21 0x53, List.replicate 3 0x53] (by decide)
  exact ⟨s, s', hs, hs', h (hstop ⟨fun _ => rfl, by decide⟩) (hstop' ⟨fun _ => rfl, by decide⟩)⟩

end ConcurrentTest
